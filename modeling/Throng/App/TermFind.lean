import Throng.App.TermSearch
import Throng.Lib.Machine

/-!
# A find session in a terminal

The matches are computed again when the output, the size or the query changed, the last only once
the user stopped typing. Over every run of a session, the cells that are highlighted are those of
the occurrences in the grid that was searched, and the match the user is on stays the current one
for as long as it is found.
-/

namespace Throng

open Editor TermSearch

deriving instance DecidableEq for Query

/-- One terminal panel's find session. -/
structure TermFind where
  query : Query
  /-- The matches. -/
  found : List CellSpan
  current : Option Nat
  /-- What the matches were computed for: output seen, grid size, query. -/
  computed : Option (Nat × (Nat × Nat) × Query)
  editedAt : Option Nat
  /-- Scroll the current match into view on the next frame. -/
  reveal : Bool

/-- What a frame has of the terminal. -/
structure TermShown where
  grid : Grid
  version : Nat
  size : Nat × Nat

/-- The index of the first element that does not pass; those that pass come first. -/
def partitionPoint {α : Type} (passes : α → Bool) (xs : List α) : Nat :=
  (xs.takeWhile passes).length

namespace TermFind

variable (letters : Letters)

def findDebounce : Nat := 120

def new : TermFind := ⟨⟨[], false, false⟩, [], none, none, none, false⟩

def currentMatch (find : TermFind) : Option CellSpan := find.current.bind fun i => find.found[i]?

/-- The newest match, which is where a terminal user is looking. -/
def newest (found : List CellSpan) : Option Nat :=
  if found.length = 0 then none else some (found.length - 1)

/-- Keep following the match the user was on. -/
def follow (previous : Option CellSpan) (found : List CellSpan) : Option Nat :=
  match previous with
  | some m => (found.findIdx? fun x => decide (m.1 ≤ x.1)).or (newest found)
  | none => newest found

/-- Search again if the output, the size or the query changed. -/
def searchAgain (shown : TermShown) (find : TermFind) : TermFind :=
  let key := (shown.version, shown.size, find.query)
  if find.computed = some key then find
  else
    let found := search letters shown.grid find.query
    let current := follow find.currentMatch found
    { find with
      found
      current
      reveal := find.reveal || (find.currentMatch.isNone && current.isSome)
      computed := some key }

/-- Search again if anything changed and the debounce passed; else, how long it still takes. -/
def refresh (shown : TermShown) (debounce now : Nat) (find : TermFind) : TermFind × Option Nat :=
  match find.editedAt with
  | some since =>
      if now - since < debounce then (find, some (debounce - (now - since)))
      else ({ find with editedAt := none, current := none }.searchAgain letters shown, none)
  | none => (find.searchAgain letters shown, none)

def step (forward : Bool) (find : TermFind) : TermFind :=
  let n := find.found.length
  if n = 0 then find
  else
    { find with
      current := some (match find.current with
        | none => 0
        | some i => if forward then (i + 1) % n else (i + n - 1) % n)
      reveal := true }

/-- Whether a cell is in a match, and in the current one. -/
def cell (find : TermFind) (point : CellPos) : Option Bool :=
  let i := partitionPoint (fun m => decide (m.2 < point)) find.found
  find.found[i]?.bind fun m =>
    if m.1 ≤ point then some (decide (find.current = some i)) else none

/-- alacritty's `scroll_display`: scroll by `lines`, as far as the scrollback goes. -/
def scrollDisplay (history : Nat) (offset lines : Int) : Int := max (min (offset + lines) history) 0

/-- Scroll so the current match is on screen; the display's new offset. -/
def revealMatch (history rows : Nat) (offset : Int) (find : TermFind) : TermFind × Int :=
  if find.reveal then
    ({ find with reveal := false },
      match find.currentMatch with
      | none => offset
      | some m =>
          let line := (ofLex m.1).1
          if line < -offset ∨ line > rows - 1 - offset then
            scrollDisplay history offset (max (-line + (rows / 2 : Nat)) 0 - offset)
          else offset)
  else (find, offset)

/-- What the user does in the find bar in one frame. -/
structure Bar where
  /-- The query, once it was changed. -/
  changed : Option Query
  step : Option Bool

/-- A session, and what was shown when its matches were found. -/
structure Session where
  find : TermFind
  searched : Option TermShown

namespace Session

def refresh (shown : TermShown) (debounce now : Nat) (s : Session) : Session :=
  let find := (s.find.refresh letters shown debounce now).1
  { find, searched := if find.computed = s.find.computed then s.searched else some shown }

def edit (query : Query) (now : Nat) (s : Session) : Session :=
  { s with find := { s.find with query, editedAt := some now } }

def move (forward : Bool) (s : Session) : Session := { s with find := s.find.step forward }

/-- The query as the bar left it. -/
def typed (changed : Option Query) (now : Nat) (s : Session) : Session :=
  match changed with
  | some query => s.edit query now
  | none => s

def unedited (s : Session) : Session := { s with find := { s.find with editedAt := none } }

/-- One frame of the find bar. -/
def findInTerminal (shown : TermShown) (now : Nat) (bar : Bar) (s : Session) : Session :=
  let s := (s.refresh letters shown findDebounce now).typed bar.changed now
  match bar.step with
  | some forward => (s.unedited.refresh letters shown 0 now).move forward
  | none => s

end Session

inductive Act
  | frame (shown : TermShown) (now : Nat) (bar : Bar)
  /-- The find keys, when the terminal itself has the focus. -/
  | key (forward : Bool)
  /-- Find was asked for with a one-line selection. -/
  | seed (term : List Char) (now : Nat)
  /-- The view scrolled the current match into sight. -/
  | reveal (history rows : Nat) (offset : Int)

def act (a : Act) (s : Session) : Session :=
  match a with
  | .frame shown now bar => s.findInTerminal letters shown now bar
  | .key forward => s.move forward
  | .seed term now => s.edit { s.find.query with term } now
  | .reveal history rows offset => { s with find := (s.find.revealMatch history rows offset).1 }

def session : Machine Session Act where
  init s := s = ⟨.new, none⟩
  step s a := some (act letters a s)

/-- Nothing that is searched for has a line break in it. -/
def OneLine (_ : Session) : Act → Prop
  | .frame _ _ bar => ∀ query ∈ bar.changed, '\n' ∉ query.term
  | .seed term _ => '\n' ∉ term
  | _ => True

/-- The output and the size tell what the grid is. -/
def Keyed (gridOf : Nat → Nat × Nat → Grid) (s : Session) (a : Act) : Prop :=
  OneLine s a ∧
    ∀ shown now bar, a = .frame shown now bar → shown.grid = gridOf shown.version shown.size

/-! ## One search -/

variable {letters} {shown : TermShown} {find : TermFind} {debounce now : Nat}

/-- The session once the user stopped typing: a new search has no match to follow. -/
def settled (find : TermFind) : TermFind :=
  { find with editedAt := none, current := if find.editedAt = none then find.current else none }

theorem refresh_of_wait {since : Nat} (hedited : find.editedAt = some since)
    (hwait : now - since < debounce) : (find.refresh letters shown debounce now).1 = find := by
  rw [refresh, hedited]
  dsimp only
  rw [if_pos hwait]

theorem refresh_of_passed (hpassed : ∀ since ∈ find.editedAt, debounce ≤ now - since) :
    (find.refresh letters shown debounce now).1 = find.settled.searchAgain letters shown := by
  rw [refresh, settled]
  split
  · next since hedited =>
      rw [if_neg (Nat.not_lt.mpr (hpassed since hedited)), if_neg (by rw [hedited]; nofun)]
  · next hedited => rw [if_pos hedited, ← hedited]

theorem refresh_cases (letters : Letters) (shown : TermShown) (debounce now : Nat)
    (find : TermFind) : (find.refresh letters shown debounce now).1 = find ∨
      (find.refresh letters shown debounce now).1 = find.settled.searchAgain letters shown := by
  by_cases hpassed : ∀ since ∈ find.editedAt, debounce ≤ now - since
  · exact .inr (refresh_of_passed hpassed)
  · obtain ⟨since, hpassed⟩ := not_forall.mp hpassed
    obtain ⟨hedited, hwait⟩ := Classical.not_imp.mp hpassed
    exact .inl (refresh_of_wait hedited (Nat.lt_of_not_le hwait))

theorem newest_lt {found : List CellSpan} {i : Nat} (h : newest found = some i) :
    i < found.length := by
  rw [newest] at h
  split at h
  · cases h
  · cases h
    omega

theorem follow_lt {previous : Option CellSpan} {found : List CellSpan} {i : Nat}
    (h : follow previous found = some i) : i < found.length := by
  cases previous with
  | none => exact newest_lt h
  | some m =>
      rw [follow, Option.or_eq_some_iff] at h
      rcases h with h | ⟨-, h⟩
      · obtain ⟨hlt, -⟩ := List.findIdx?_eq_some_iff_getElem.mp h
        exact hlt
      · exact newest_lt h

/-! ## The session -/

/-- The matches are those of what was searched, and the current one is one of them. -/
structure Inv (letters : Letters) (shows : TermShown → Prop) (s : Session) : Prop where
  oneLine : '\n' ∉ s.find.query.term
  unsearched : s.searched = none → s.find.computed = none ∧ s.find.found = []
  searched : ∀ shown, s.searched = some shown → shows shown ∧
    ∃ query, s.find.computed = some (shown.version, shown.size, query) ∧ '\n' ∉ query.term ∧
      s.find.found = search letters shown.grid query
  inRange : ∀ i, s.find.current = some i → i < s.find.found.length

variable {shows : TermShown → Prop} {s s' : Session}

theorem Inv.refresh (h : Inv letters shows s) (hshown : shows shown) :
    Inv letters shows (s.refresh letters shown debounce now) := by
  have hsettled : ∀ i, s.find.settled.current = some i → i < s.find.found.length := by
    intro i hi
    rw [settled] at hi
    split at hi
    · exact h.inRange i hi
    · cases hi
  rw [Session.refresh]
  rcases refresh_cases letters shown debounce now s.find with heq | heq <;> rw [heq]
  · rw [if_pos rfl]
    exact h
  · by_cases hkey : s.find.settled.computed = some (shown.version, shown.size, s.find.settled.query)
    · rw [searchAgain, if_pos hkey]
      have hsame : (if s.find.settled.computed = s.find.computed then s.searched else some shown) =
          s.searched := if_pos rfl
      rw [hsame]
      exact ⟨h.oneLine, h.unsearched, h.searched, hsettled⟩
    · rw [searchAgain, if_neg hkey]
      have hnew : ¬ some (shown.version, shown.size, s.find.query) = s.find.computed := Ne.symm hkey
      refine ⟨h.oneLine, fun hnone => ?_, fun other hother => ?_, fun i hi => follow_lt hi⟩
      · exact absurd ((if_neg hnew).symm.trans hnone) (Option.some_ne_none _)
      · have hsome : some shown = some other := (if_neg hnew).symm.trans hother
        cases hsome
        exact ⟨hshown, s.find.query, rfl, h.oneLine, rfl⟩

theorem Inv.edit {query : Query} (h : Inv letters shows s) (hquery : '\n' ∉ query.term) :
    Inv letters shows (s.edit query now) :=
  ⟨hquery, h.unsearched, h.searched, h.inRange⟩

theorem Inv.move (h : Inv letters shows s) (forward : Bool) :
    Inv letters shows (s.move forward) := by
  rw [Session.move, step]
  split
  · exact h
  · next hpos =>
      refine ⟨h.oneLine, h.unsearched, h.searched, fun i hi => ?_⟩
      cases hi
      dsimp only
      split
      · omega
      · split <;> exact Nat.mod_lt _ (by omega)

theorem Inv.typed {changed : Option Query} (h : Inv letters shows s)
    (hchanged : ∀ query ∈ changed, '\n' ∉ query.term) :
    Inv letters shows (s.typed changed now) := by
  cases changed with
  | none => exact h
  | some query => exact h.edit (hchanged query rfl)

theorem Inv.unedited (h : Inv letters shows s) : Inv letters shows s.unedited :=
  ⟨h.oneLine, h.unsearched, h.searched, h.inRange⟩

theorem Inv.findInTerminal {bar : Bar} (h : Inv letters shows s) (hshown : shows shown)
    (hbar : ∀ query ∈ bar.changed, '\n' ∉ query.term) :
    Inv letters shows (s.findInTerminal letters shown now bar) := by
  have htyped : Inv letters shows
      ((s.refresh letters shown findDebounce now).typed bar.changed now) :=
    (h.refresh hshown).typed hbar
  rw [Session.findInTerminal]
  split
  · exact (htyped.unedited.refresh hshown).move _
  · exact htyped

theorem Inv.act {a : Act} (h : Inv letters shows s) (hok : OneLine s a)
    (hshows : ∀ shown now bar, a = .frame shown now bar → shows shown) :
    Inv letters shows (act letters a s) := by
  cases a with
  | frame shown now bar => exact h.findInTerminal (hshows shown now bar rfl) hok
  | key forward => exact h.move forward
  | seed term now => exact h.edit hok
  | reveal history rows offset =>
      rw [TermFind.act, revealMatch]
      split
      · exact ⟨h.oneLine, h.unsearched, h.searched, h.inRange⟩
      · exact h

theorem inv_of_reach {ok : Session → Act → Prop} (hone : ∀ s a, ok s a → OneLine s a)
    (hshows : ∀ s shown now bar, ok s (.frame shown now bar) → shows shown)
    (h : (session letters).Reach ok s) : Inv letters shows s := by
  refine h.invariant ?_ ?_
  · rintro s rfl
    exact ⟨List.not_mem_nil, fun _ => ⟨rfl, rfl⟩, nofun, nofun⟩
  · rintro s a s' hinv hok ⟨⟩
    refine hinv.act (hone s a hok) ?_
    rintro shown now bar rfl
    exact hshows s shown now bar hok

/-! ## The cells of the matches -/

variable {α : Type} {passes : α → Bool} {xs : List α} {i j : Nat} {found : List CellSpan}
  {m m' : CellSpan}

theorem partitionPoint_fails {x : α} (h : xs[partitionPoint passes xs]? = some x) :
    passes x = false := by
  rw [partitionPoint] at h
  induction xs with
  | nil => cases h
  | cons y xs ih =>
      by_cases hy : passes y = true
      · rw [List.takeWhile_cons_of_pos hy, List.length_cons, List.getElem?_cons_succ] at h
        exact ih h
      · rw [List.takeWhile_cons_of_neg hy, List.length_nil, List.getElem?_cons_zero] at h
        cases h
        exact Bool.eq_false_iff.mpr hy

theorem partitionPoint_eq {x : α} (hi : xs[i]? = some x) (hx : passes x = false)
    (hbefore : ∀ j y, j < i → xs[j]? = some y → passes y = true) :
    partitionPoint passes xs = i := by
  rw [partitionPoint]
  induction xs generalizing i with
  | nil => cases hi
  | cons y xs ih =>
      cases i with
      | zero =>
          rw [List.getElem?_cons_zero] at hi
          cases hi
          rw [List.takeWhile_cons_of_neg (by rw [hx]; nofun), List.length_nil]
      | succ i =>
          have hy := hbefore 0 y (Nat.succ_pos i) List.getElem?_cons_zero
          rw [List.getElem?_cons_succ] at hi
          rw [List.takeWhile_cons_of_pos hy, List.length_cons, ih hi]
          intro j z hj hz
          exact hbefore (j + 1) z (Nat.succ_lt_succ hj) (List.getElem?_cons_succ.trans hz)

/-- No match ends in front of where it starts, and each starts behind the one before. -/
structure Spread (found : List CellSpan) : Prop where
  apart : found.Pairwise fun m m' => m.2 < m'.1
  forward : ∀ m ∈ found, m.1 ≤ m.2

theorem Spread.before (h : Spread found) (hlt : i < j) (hi : found[i]? = some m)
    (hj : found[j]? = some m') : m.2 < m'.1 := by
  obtain ⟨hil, rfl⟩ := List.getElem?_eq_some_iff.mp hi
  obtain ⟨hjl, rfl⟩ := List.getElem?_eq_some_iff.mp hj
  exact List.pairwise_iff_getElem.mp h.apart i j hil hjl hlt

/-- A cell is highlighted where it is in a match, and then in one only. -/
theorem cell_eq (h : Spread find.found) (point : CellPos) (b : Bool) :
    find.cell point = some b ↔ ∃ i m, find.found[i]? = some m ∧ m.1 ≤ point ∧ point ≤ m.2 ∧
      b = decide (find.current = some i) := by
  constructor
  · intro hcell
    obtain ⟨m, hm, hcell⟩ := Option.bind_eq_some_iff.mp hcell
    have hfails := @partitionPoint_fails _ (fun m => decide (m.2 < point)) find.found m hm
    have hpoint : point ≤ m.2 := not_lt.mp (of_decide_eq_false hfails)
    split at hcell
    · next hle =>
        cases hcell
        exact ⟨_, m, hm, hle, hpoint, rfl⟩
    · cases hcell
  · rintro ⟨i, m, hi, hle, hge, rfl⟩
    have hpart : partitionPoint (fun m => decide (m.2 < point)) find.found = i := by
      refine partitionPoint_eq hi (decide_eq_false (not_lt.mpr hge)) fun j x hj hx => ?_
      exact decide_eq_true ((h.before hj hx hi).trans_le hle)
    simp only [cell, hpart, hi, Option.bind_some, if_pos hle]

/-- The display's offset at which the line is on the screen. -/
structure InView (history rows : Nat) (offset line : Int) : Prop where
  low : 0 ≤ offset
  high : offset ≤ history
  below : -offset ≤ line
  above : line ≤ rows - 1 - offset

/-- What is highlighted is what occurs in the grid that was searched, and the current match can be
scrolled into view. -/
structure Highlights (letters : Letters) (shown : TermShown) (find : TermFind) (query : Query)
    (places : List Nat) : Prop where
  computed : find.computed = some (shown.version, shown.size, query)
  found : Found letters shown.grid query places
  cells : ∀ point b, find.cell point = some b ↔
    ∃ i a, (places.take searchLimit)[i]? = some a ∧ cellAt (readOut shown.grid) a ≤ point ∧
      point ≤ cellAt (readOut shown.grid) (a + query.term.length - 1) ∧
      b = decide (find.current = some i)
  current : ∀ i, find.current = some i → i < (places.take searchLimit).length
  inView : ∀ (rows : Nat) (offset : Int) m, shown.grid.rows.length = shown.grid.history + rows →
    0 < rows → 0 ≤ offset → offset ≤ shown.grid.history → find.reveal = true →
    find.currentMatch = some m →
    InView shown.grid.history rows (find.revealMatch shown.grid.history rows offset).2 (ofLex m.1).1

theorem mem_of_currentMatch (h : find.currentMatch = some m) : m ∈ find.found := by
  obtain ⟨i, -, hi⟩ := Option.bind_eq_some_iff.mp h
  exact List.mem_of_getElem? hi

theorem inView_revealMatch {history rows : Nat} {offset : Int} (hreveal : find.reveal = true)
    (hm : find.currentMatch = some m) (hrows : 0 < rows) (hlow : 0 ≤ offset)
    (hhigh : offset ≤ history) (hbelow : -history ≤ (ofLex m.1).1) (habove : (ofLex m.1).1 < rows) :
    InView history rows (find.revealMatch history rows offset).2 (ofLex m.1).1 := by
  rw [revealMatch, if_pos hreveal, hm]
  dsimp only
  split
  · rw [scrollDisplay]
    exact ⟨by omega, by omega, by omega, by omega⟩
  · next hin => exact ⟨hlow, hhigh, by omega, by omega⟩

/-- In every run the cells of the matches are those of the occurrences in the grid that was
searched, and nothing else is highlighted. -/
theorem highlights_of_reach (h : (session letters).Reach OneLine s) :
    (s.searched = none → ∀ point, s.find.cell point = none) ∧
      ∀ shown, s.searched = some shown →
        ∃ query places, Highlights letters shown s.find query places := by
  have hinv : Inv letters (fun _ => True) s :=
    inv_of_reach (fun _ _ h => h) (fun _ _ _ _ _ => trivial) h
  refine ⟨fun hnone point => ?_, fun shown hshown => ?_⟩
  · rw [cell, (hinv.unsearched hnone).2]
    rfl
  · obtain ⟨-, query, hcomputed, hterm, hsearch⟩ := hinv.searched shown hshown
    obtain ⟨places, hfound⟩ := found_search letters shown.grid query hterm
    have hspread : Spread s.find.found := by
      rw [hsearch]
      exact ⟨hfound.apart, hfound.forward⟩
    have hspans := hsearch.trans hfound.spans
    refine ⟨query, places, hcomputed, hfound, fun point b => ?_, fun i hi => ?_, ?_⟩
    · rw [cell_eq hspread, hspans]
      simp only [List.getElem?_map, Option.map_eq_some_iff]
      constructor
      · rintro ⟨i, m, ⟨a, ha, rfl⟩, hle, hge, rfl⟩
        exact ⟨i, a, ha, hle, hge, rfl⟩
      · rintro ⟨i, a, ha, hle, hge, rfl⟩
        exact ⟨i, _, ⟨a, ha, rfl⟩, hle, hge, rfl⟩
    · have hlt := hinv.inRange i hi
      rwa [hspans, List.length_map] at hlt
    · intro rows offset m hrows hpos hlow hhigh hreveal hm
      have hmem := mem_of_currentMatch hm
      rw [hsearch] at hmem
      obtain ⟨hbelow, habove⟩ := hfound.onGrid hmem
      exact inView_revealMatch hreveal hm hpos hlow hhigh hbelow (by omega)

def ascii : Letters := ⟨asciiTable, fun c => [c.toLower]⟩

def typed (c : Char) : Cell := ⟨c, false⟩

/-- A line of four columns that the terminal wrapped. -/
def wrapped : TermShown :=
  ⟨⟨4, 0, [⟨['4', '2', 'a', 'b'].map typed, rfl, true⟩,
    ⟨['4', '2', ' ', ' '].map typed, rfl, false⟩]⟩, 6, (4, 2)⟩

/-- It scrolled by a row since. -/
def scrolled : TermShown :=
  ⟨⟨4, 1, [⟨['4', '2', 'a', 'b'].map typed, rfl, true⟩,
    ⟨['4', '2', ' ', ' '].map typed, rfl, false⟩,
    ⟨['b', '4', ' ', ' '].map typed, rfl, false⟩]⟩, 9, (4, 2)⟩

/-- Letters that stand on both sides of the wrap are looked for, and found once the user paused. -/
def foundOnce : Session :=
  act ascii (.frame wrapped 200 ⟨none, none⟩) (act ascii (.seed ['b', '4'] 0) ⟨.new, none⟩)

theorem reach_foundOnce {ok : Session → Act → Prop} (hseed : ok ⟨.new, none⟩ (.seed ['b', '4'] 0))
    (hframe : ok (act ascii (.seed ['b', '4'] 0) ⟨.new, none⟩) (.frame wrapped 200 ⟨none, none⟩)) :
    (session ascii).Reach ok foundOnce :=
  .step (.step (.init rfl) hseed rfl) hframe rfl

theorem highlights_of_reach_wrapped :
    ∃ query places, Highlights ascii wrapped foundOnce.find query places :=
  (highlights_of_reach (reach_foundOnce (show '\n' ∉ ['b', '4'] by decide) nofun)).2 wrapped rfl

/-! ## Following -/

theorem Spread.find?_self (h : Spread found) (hm : m ∈ found) :
    (found.find? fun x => decide (m.1 ≤ x.1)) = some m := by
  obtain ⟨i, hi, rfl⟩ := List.mem_iff_getElem.mp hm
  refine List.find?_eq_some_iff_getElem.mpr ⟨decide_eq_true le_rfl, i, hi, rfl, fun j hj => ?_⟩
  have hlt := h.before hj (List.getElem?_eq_getElem (hj.trans hi)) (List.getElem?_eq_getElem hi)
  have hle := h.forward _ (List.getElem_mem (hj.trans hi))
  rw [decide_eq_false (not_le.mpr (hle.trans_lt hlt))]
  rfl

/-- The match that is followed: the first that does not start in front of it, else the last. -/
theorem match_follow (m : CellSpan) (found : List CellSpan) :
    ((follow (some m) found).bind fun i => found[i]?) =
      (found.find? fun x => decide (m.1 ≤ x.1)).or found.getLast? := by
  rw [follow]
  cases hidx : found.findIdx? fun x => decide (m.1 ≤ x.1) with
  | some i =>
      obtain ⟨hi, hpasses, hbefore⟩ := List.findIdx?_eq_some_iff_getElem.mp hidx
      have hfind : (found.find? fun x => decide (m.1 ≤ x.1)) = some found[i] :=
        List.find?_eq_some_iff_getElem.mpr ⟨hpasses, i, hi, rfl, fun j hj => by
          rw [Bool.not_eq_true', Bool.eq_false_iff]
          exact hbefore j hj⟩
      rw [hfind, Option.some_or, Option.some_or, Option.bind_some, List.getElem?_eq_getElem hi]
  | none =>
      have hfind : (found.find? fun x => decide (m.1 ≤ x.1)) = none := by
        refine List.find?_eq_none.mpr fun x hx => ?_
        rw [List.findIdx?_eq_none_iff.mp hidx x hx]
        nofun
      rw [hfind, Option.none_or, Option.none_or, newest]
      split
      · next hnil => rw [List.length_eq_zero_iff.mp hnil, List.getLast?_nil, Option.bind_none]
      · rw [Option.bind_some, List.getLast?_eq_getElem?]

/-- The matches are those of what is shown, and the user stays on the match they were on until
they step to another. -/
structure Followed (letters : Letters) (shown : TermShown) (bar : Bar) (find find' : TermFind) :
    Prop where
  /-- A query that was changed in this frame is looked for once the user pauses or steps. -/
  fresh : find'.found =
    search letters shown.grid (if bar.step.isSome then find'.query else find.query)
  query : find'.query = bar.changed.getD find.query
  next : bar.step = none → ∀ m, find.editedAt = none → find.currentMatch = some m →
    find'.currentMatch = (find'.found.find? fun x => decide (m.1 ≤ x.1)).or find'.found.getLast?
  stays : bar.step = none → ∀ m, find.editedAt = none → find.currentMatch = some m →
    m ∈ find'.found → find'.currentMatch = some m

variable {gridOf : Nat → Nat × Nat → Grid}

theorem settled_of_unedited (h : find.editedAt = none) : find.settled = find := by
  rw [settled, if_pos h, ← h]

/-- Where the output and the size tell what the grid is, nothing old is left. -/
theorem fresh_searchAgain
    (hinv : Inv letters (fun shown => shown.grid = gridOf shown.version shown.size) s)
    (hshown : shown.grid = gridOf shown.version shown.size) :
    (s.find.settled.searchAgain letters shown).found =
      search letters shown.grid s.find.query := by
  rw [searchAgain]
  split
  · next hkey =>
      have hkey : s.find.computed = some (shown.version, shown.size, s.find.query) := hkey
      cases hsearched : s.searched with
      | none => exact absurd (hkey.symm.trans (hinv.unsearched hsearched).1) (Option.some_ne_none _)
      | some other =>
          obtain ⟨hother, query, hcomputed, -, hfound⟩ := hinv.searched other hsearched
          have hsame := hcomputed.symm.trans hkey
          simp only [Option.some.injEq, Prod.mk.injEq] at hsame
          obtain ⟨hversion, hsize, rfl⟩ := hsame
          rw [hshown, ← hversion, ← hsize, ← hother]
          exact hfound
  · rfl

/-- The match the user was on is followed, also where nothing has to be searched again. -/
theorem currentMatch_searchAgain (hspread : Spread (find.searchAgain letters shown).found)
    (hm : find.currentMatch = some m) : (find.searchAgain letters shown).currentMatch =
      ((find.searchAgain letters shown).found.find? fun x => decide (m.1 ≤ x.1)).or
        (find.searchAgain letters shown).found.getLast? := by
  by_cases hkey : find.computed = some (shown.version, shown.size, find.query)
  · rw [searchAgain, if_pos hkey] at hspread ⊢
    rw [hspread.find?_self (mem_of_currentMatch hm), Option.some_or, hm]
  · rw [searchAgain, if_neg hkey, ← match_follow, ← hm]
    rfl

theorem spread_searchAgain
    (hinv : Inv letters (fun shown => shown.grid = gridOf shown.version shown.size) s)
    (hshown : shown.grid = gridOf shown.version shown.size) :
    Spread (s.find.settled.searchAgain letters shown).found := by
  obtain ⟨places, hplaces⟩ := found_search letters shown.grid s.find.query hinv.oneLine
  rw [fresh_searchAgain hinv hshown]
  exact ⟨hplaces.apart, hplaces.forward⟩

theorem query_refresh (shown : TermShown) (debounce now : Nat) (s : Session) :
    (s.refresh letters shown debounce now).find.query = s.find.query := by
  rw [Session.refresh]
  rcases refresh_cases letters shown debounce now s.find with heq | heq <;> rw [heq]
  rw [searchAgain]
  split <;> rfl

theorem move_kept (s : Session) (forward : Bool) :
    (s.move forward).find.found = s.find.found ∧ (s.move forward).find.query = s.find.query := by
  rw [Session.move, step]
  dsimp only
  split <;> exact ⟨rfl, rfl⟩

theorem typed_kept (changed : Option Query) (now : Nat) (s : Session) :
    (s.typed changed now).find.found = s.find.found ∧
      (s.typed changed now).find.currentMatch = s.find.currentMatch ∧
      (s.typed changed now).find.query = changed.getD s.find.query := by
  cases changed <;> exact ⟨rfl, rfl, rfl⟩

theorem refresh_find (hpassed : ∀ since ∈ s.find.editedAt, debounce ≤ now - since) :
    (s.refresh letters shown debounce now).find = s.find.settled.searchAgain letters shown :=
  refresh_of_passed hpassed

/-- A frame in which the user paused, or steps to another match, has the matches of what is shown,
and otherwise stays on the match the user was on, if it is still one. -/
theorem followed_of_taken {bar : Bar}
    (h : (session letters).Taken (Keyed gridOf) s (.frame shown now bar) s')
    (hpassed : bar.step = none → ∀ since ∈ s.find.editedAt, findDebounce ≤ now - since) :
    Followed letters shown bar s.find s'.find := by
  have hinv : Inv letters (fun shown => shown.grid = gridOf shown.version shown.size) s :=
    inv_of_reach (fun _ _ hok => hok.1) (fun _ shown now bar hok => hok.2 shown now bar rfl) h.reach
  have hshown := h.ok.2 shown now bar rfl
  obtain rfl : s.findInTerminal letters shown now bar = s' := Option.some.inj h.step
  obtain ⟨hfound, hmatch, hquery⟩ :=
    typed_kept bar.changed now (s.refresh letters shown findDebounce now)
  rw [query_refresh] at hquery
  rw [Session.findInTerminal]
  cases hstep : bar.step with
  | some forward =>
      -- a step looks for what is in the bar at once
      have hunedited : Inv letters (fun shown => shown.grid = gridOf shown.version shown.size)
          ((s.refresh letters shown findDebounce now).typed bar.changed now).unedited :=
        ((hinv.refresh hshown).typed h.ok.1).unedited
      have hnow : ∀ since ∈ (none : Option Nat), 0 ≤ now - since := nofun
      dsimp only
      refine ⟨?_, ?_, fun hnone => ?_, fun hnone => ?_⟩
      · rw [hstep, Option.isSome_some, if_pos rfl, (move_kept _ _).1, (move_kept _ _).2,
          query_refresh, refresh_find hnow]
        exact fresh_searchAgain hunedited hshown
      · rw [(move_kept _ _).2, query_refresh]
        exact hquery
      · cases hstep.symm.trans hnone
      · cases hstep.symm.trans hnone
  | none =>
      rw [refresh_find (hpassed hstep)] at hfound hmatch
      have hfresh := fresh_searchAgain hinv hshown
      have hspread := spread_searchAgain hinv hshown
      have hnext : ∀ m, s.find.editedAt = none → s.find.currentMatch = some m →
          (s.find.settled.searchAgain letters shown).currentMatch =
            ((s.find.settled.searchAgain letters shown).found.find? fun x =>
              decide (m.1 ≤ x.1)).or (s.find.settled.searchAgain letters shown).found.getLast? := by
        intro m hedited hm
        rw [settled_of_unedited hedited] at hspread ⊢
        exact currentMatch_searchAgain hspread hm
      dsimp only
      refine ⟨?_, hquery, fun _ m hedited hm => ?_, fun _ m hedited hm hmem => ?_⟩
      · rw [hstep, Option.isSome_none, if_neg Bool.false_ne_true, hfound]
        exact hfresh
      · rw [hmatch, hfound]
        exact hnext m hedited hm
      · rw [hfound] at hmem
        rw [hmatch, hnext m hedited hm, hspread.find?_self hmem, Option.some_or]

theorem followed_of_taken_scrolled : Followed ascii scrolled ⟨none, none⟩ foundOnce.find
    (act ascii (.frame scrolled 300 ⟨none, none⟩) foundOnce).find := by
  have hgrid : ∀ shown now bar, Act.frame wrapped 200 ⟨none, none⟩ = .frame shown now bar →
      shown.grid = if shown.version = 6 then wrapped.grid else scrolled.grid := by
    rintro shown now bar ⟨⟩
    rfl
  have hnext : ∀ shown now bar, Act.frame scrolled 300 ⟨none, none⟩ = .frame shown now bar →
      shown.grid = if shown.version = 6 then wrapped.grid else scrolled.grid := by
    rintro shown now bar ⟨⟩
    rfl
  exact @followed_of_taken ascii scrolled 300 foundOnce _
    (fun version _ => if version = 6 then wrapped.grid else scrolled.grid) ⟨none, none⟩
    ⟨reach_foundOnce ⟨show '\n' ∉ ['b', '4'] by decide, nofun⟩ ⟨nofun, hgrid⟩, ⟨nofun, hnext⟩,
      rfl⟩ fun _ => nofun

end TermFind

end Throng
