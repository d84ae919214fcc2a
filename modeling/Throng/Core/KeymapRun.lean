import Mathlib.Data.List.Nodup
import Throng.Core.Keymap
import Throng.Lib.Machine

/-!
# No chord is live for two commands

The commands that share a scope have different chords by default, and binding a chord
takes it from the commands it conflicts with. A reset does not look at who holds the
default chords by then.
-/

namespace Throng

/-! ## Reading an ASCII token -/

theorem mem_of_mem_trim {text : String} {c : Char} (h : c ∈ (trim text).toList) :
    c ∈ text.toList := by
  rw [trim, String.toList_ofList, List.mem_reverse] at h
  have hmem := (List.dropWhile_sublist _).subset h
  rw [List.mem_reverse] at hmem
  exact (List.dropWhile_sublist _).subset hmem

theorem mem_of_mem_rsplitPlus {token : List Char} {c : Char} (h : c ∈ (rsplitPlus token).2) :
    c ∈ token := by
  rw [rsplitPlus, List.mem_reverse] at h
  exact List.mem_reverse.mp ((List.takeWhile_sublist _).subset h)

namespace Chord

variable {upper upper' : Char → List Char}

theorem uppercase_congr {c : Char} (h : c.toNat < 128) :
    uppercase upper c = uppercase upper' c := by
  rw [uppercase, uppercase, if_pos h, if_pos h]

theorem normaliseKey_congr {key : String} (h : ∀ c ∈ key.toList, c.toNat < 128) :
    normaliseKey upper key = normaliseKey upper' key := by
  rw [normaliseKey, normaliseKey]
  match hkey : key.toList with
  | [] => rfl
  | [c] => exact congrArg String.ofList (uppercase_congr (h c (hkey ▸ List.mem_singleton_self c)))
  | first :: _ :: _ =>
      have hfirst : uppercase upper first = uppercase upper' first :=
        uppercase_congr (h first (hkey ▸ List.mem_cons_self))
      dsimp only
      rw [hfirst]

theorem ascii_of_mem_splitToken {token : List Char} (h : ∀ c ∈ token, c.toNat < 128) {c : Char}
    (hc : c ∈ (splitToken token).2) : c.toNat < 128 := by
  rw [splitToken] at hc
  split_ifs at hc
  · rw [List.mem_singleton.mp hc]
    decide
  · rw [List.mem_singleton.mp hc]
    decide
  · exact h c (mem_of_mem_rsplitPlus hc)

/-- Beyond ASCII upper-casing plays no role in reading an ASCII token. -/
theorem parse_congr {token : String} (h : ∀ c ∈ token.toList, c.toNat < 128) :
    parse upper token = parse upper' token := by
  have hkey : normaliseKey upper (trim (.ofList (splitToken (trim token).toList).2)) =
      normaliseKey upper' (trim (.ofList (splitToken (trim token).toList).2)) := by
    refine normaliseKey_congr fun c hc => ?_
    have hsplit := mem_of_mem_trim hc
    rw [String.toList_ofList] at hsplit
    exact ascii_of_mem_splitToken (fun c hc => h c (mem_of_mem_trim hc)) hsplit
  rw [parse, parse]
  dsimp only
  rw [hkey]

end Chord

namespace Keymap

variable {upper : Char → List Char} {keys keys' : Keymap} {id other : String} {chord chord' : Chord}
  {scope : Scope}

/-! ## The commands -/

theorem commands_nodup : (commands.map Command.id).Nodup := by decide +kernel

/-- The default tokens are ASCII ones. -/
theorem defaultTokens_ascii : ∀ c ∈ commands, ∀ token ∈ c.defaultTokens ++ c.macDefaults.getD [],
    ∀ char ∈ token.toList, char.toNat < 128 := by
  have hall : (commands.all fun c => (c.defaultTokens ++ c.macDefaults.getD []).all fun token =>
      token.toList.all fun char => decide (char.toNat < 128)) = true := by decide +kernel
  intro c hc token htoken char hchar
  have hc' := List.all_eq_true.mp (List.all_eq_true.mp hall c hc) token htoken
  exact of_decide_eq_true (List.all_eq_true.mp hc' char hchar)

theorem defaults_eq {c : Command} (hc : c ∈ commands) (mac : Bool) :
    c.defaults upper mac = c.defaults (fun _ => []) mac := by
  rw [Command.defaults, Command.defaults]
  refine List.filterMap_congr fun token htoken => ?_
  refine Chord.parse_congr (defaultTokens_ascii c hc token ?_)
  split_ifs at htoken
  · cases hmac : c.macDefaults with
    | none =>
        rw [hmac] at htoken
        exact List.mem_append_left _ htoken
    | some tokens =>
        rw [hmac] at htoken
        exact List.mem_append_right _ htoken
  · exact List.mem_append_left _ htoken

/-- Two commands that share a scope have no default chord in common. -/
theorem defaults_apart : ∀ mac : Bool, ∀ c ∈ commands, ∀ d ∈ commands, c.id ≠ d.id →
    c.sharesScope d = true → ∀ chord ∈ c.defaults (fun _ => []) mac,
      chord ∉ d.defaults (fun _ => []) mac := by
  have hall : ([false, true].all fun mac => commands.all fun c => commands.all fun d =>
      c.id == d.id || !c.sharesScope d || (c.defaults (fun _ => []) mac).all fun chord =>
        !(d.defaults (fun _ => []) mac).contains chord) = true := by decide +kernel
  intro mac c hc d hd hne hshares chord hchord hchord'
  have hmac : mac ∈ [false, true] := by cases mac <;> decide
  have hpair :=
    List.all_eq_true.mp (List.all_eq_true.mp (List.all_eq_true.mp hall mac hmac) c hc) d hd
  rw [Bool.or_eq_true, Bool.or_eq_true, beq_iff_eq, hshares] at hpair
  rcases hpair with (hid | hno) | hapart
  · exact hne hid
  · cases hno
  · have hnone := List.all_eq_true.mp hapart chord hchord
    rw [Bool.not_eq_true', List.contains_iff_mem.mpr hchord'] at hnone
    cases hnone

theorem eq_of_id {c d : Command} (hc : c ∈ commands) (hd : d ∈ commands) (h : c.id = d.id) :
    c = d := List.inj_on_of_nodup_map commands_nodup hc hd h

theorem command_eq_some {c : Command} : command id = some c ↔ c ∈ commands ∧ c.id = id := by
  rw [command]
  constructor
  · intro h
    refine ⟨List.mem_of_find?_eq_some h, ?_⟩
    have hid := List.find?_some h
    rwa [decide_eq_true_eq] at hid
  · rintro ⟨hc, rfl⟩
    cases hfound : commands.find? fun d => d.id = c.id with
    | none =>
        rw [List.find?_eq_none] at hfound
        exact absurd (decide_eq_true rfl) (hfound c hc)
    | some d =>
        have hid := List.find?_some hfound
        rw [decide_eq_true_eq] at hid
        rw [eq_of_id (List.mem_of_find?_eq_some hfound) hc hid]

theorem sharesScope_of_liveIn {c d : Command} (hc : c.liveIn scope = true)
    (hd : d.liveIn scope = true) : c.sharesScope d = true := by
  rw [Command.sharesScope, List.any_eq_true]
  exact ⟨scope, List.contains_iff_mem.mp hc, hd⟩

/-! ## What the operations leave bound -/

theorem chords_defaults {mac : Bool} {c : Command} (hc : c ∈ commands) :
    (defaults upper mac).chords c.id = c.defaults upper mac := by
  rw [chords, defaults]
  refine Std.ExtTreeMap.getD_ofList_of_mem Std.ReflCmp.compare_self ?_
    (List.mem_map_of_mem hc)
  rw [List.pairwise_map]
  refine (List.pairwise_map.mp commands_nodup).imp fun {a b} hne => ?_
  rw [Std.LawfulEqCmp.compare_eq_iff_eq]
  exact hne

theorem chords_unbind : (keys.unbind id chord).chords other =
    if id = other then (keys.chords id).filter fun c => c ≠ chord else keys.chords other := by
  rw [chords, unbind, Std.ExtTreeMap.getD_modify]
  simp only [Std.LawfulEqCmp.compare_eq_iff_eq]
  split_ifs
  · rw [chords, Std.ExtTreeMap.getD_eq_getD_getElem?]
    cases keys.bindings[id]? <;> rfl
  · rfl

theorem chords_reset {c : Command} (hc : command id = some c) :
    (keys.reset upper id).chords other =
      if c.id = other then c.defaults upper keys.mac else keys.chords other := by
  rw [chords, reset, hc]
  dsimp only
  rw [Std.ExtTreeMap.getD_insert]
  simp only [Std.LawfulEqCmp.compare_eq_iff_eq]
  rfl

/-- Taking a chord from some commands leaves the others' as they are. -/
theorem chords_taken (ids : List String) (keys : Keymap) :
    (ids.foldl (fun keys other => keys.unbind other chord) keys).chords other =
      if other ∈ ids then (keys.chords other).filter fun c => c ≠ chord
      else keys.chords other := by
  induction ids generalizing keys with
  | nil => rfl
  | cons id ids ih =>
      rw [List.foldl_cons, ih, chords_unbind]
      by_cases hid : id = other
      · subst hid
        rw [if_pos rfl, if_pos List.mem_cons_self]
        split_ifs
        · rw [List.filter_filter]
          simp only [Bool.and_self]
        · rfl
      · rw [if_neg hid]
        simp only [List.mem_cons, Ne.symm hid, false_or]

theorem mem_conflicts {c : Command} (hc : c ∈ commands) : other ∈ keys.conflicts c.id chord ↔
    ∃ d ∈ commands, d.id = other ∧ d.id ≠ c.id ∧ d.sharesScope c = true ∧
      chord ∈ keys.chords d.id := by
  rw [conflicts, command_eq_some.mpr ⟨hc, rfl⟩]
  simp only [List.mem_map, List.mem_filter, Bool.and_eq_true, decide_eq_true_eq,
    List.contains_iff_mem]
  constructor
  · rintro ⟨d, ⟨hd, ⟨hne, hshares⟩, hchord⟩, rfl⟩
    exact ⟨d, hd, rfl, hne, hshares, hchord⟩
  · rintro ⟨d, hd, rfl, hne, hshares, hchord⟩
    exact ⟨d, ⟨hd, ⟨hne, hshares⟩, hchord⟩, rfl⟩

theorem not_mem_conflicts_self {c : Command} (hc : c ∈ commands) :
    c.id ∉ keys.conflicts c.id chord := by
  rw [mem_conflicts hc]
  rintro ⟨d, -, hid, hne, -⟩
  exact hne hid

/-- A bound chord is its command's, and no longer that of a command in conflict. -/
theorem mem_chords_bind {c : Command} (hc : c ∈ commands) :
    chord' ∈ (keys.bind c.id chord).chords other ↔
      if c.id = other then chord' = chord ∨ chord' ∈ keys.chords c.id
      else chord' ∈ keys.chords other ∧ (other ∈ keys.conflicts c.id chord → chord' ≠ chord) := by
  rw [bind, command_eq_some.mpr ⟨hc, rfl⟩]
  dsimp only
  rw [chords, Std.ExtTreeMap.getD_insert]
  simp only [Std.LawfulEqCmp.compare_eq_iff_eq]
  split_ifs with hid hmem
  · rw [chords_taken, if_neg (not_mem_conflicts_self hc)] at hmem ⊢
    rw [List.contains_iff_mem] at hmem
    exact ⟨.inr, fun h => h.elim (fun heq => heq ▸ hmem) id⟩
  · rw [chords_taken, if_neg (not_mem_conflicts_self hc), List.mem_append, List.mem_singleton,
      or_comm]
  · have htaken := @chords_taken other chord (keys.conflicts c.id chord) keys
    rw [chords] at htaken
    rw [htaken]
    split_ifs with hconflict
    · rw [List.mem_filter, decide_eq_true_eq]
      tauto
    · tauto

/-! ## The chords stay apart -/

/-- No chord is bound to two commands that share a scope. -/
def Apart (keys : Keymap) : Prop :=
  ∀ c ∈ commands, ∀ d ∈ commands, c.id ≠ d.id → c.sharesScope d = true →
    ∀ chord ∈ keys.chords c.id, chord ∉ keys.chords d.id

theorem sharesScope_comm {c d : Command} (h : c.sharesScope d = true) :
    d.sharesScope c = true := by
  rw [Command.sharesScope, List.any_eq_true] at h
  obtain ⟨scope, hc, hd⟩ := h
  exact sharesScope_of_liveIn hd (List.contains_iff_mem.mpr hc)

theorem apart_defaults (mac : Bool) : Apart (defaults upper mac) := by
  intro c hc d hd hne hshares chord
  rw [chords_defaults hc, chords_defaults hd, defaults_eq hc, defaults_eq hd]
  exact defaults_apart mac c hc d hd hne hshares chord

theorem Apart.of_subset (h : Apart keys)
    (hsub : ∀ id, keys'.chords id ⊆ keys.chords id) : Apart keys' :=
  fun c hc d hd hne hshares _ hchord hchord' =>
    h c hc d hd hne hshares _ (hsub c.id hchord) (hsub d.id hchord')

theorem Apart.unbind (h : Apart keys) : Apart (keys.unbind id chord) := by
  refine h.of_subset fun other => ?_
  rw [chords_unbind]
  split_ifs with hid
  · rw [hid]
    exact List.filter_subset_self _
  · exact List.Subset.refl _

/-- One command changes: it is enough that its chords are apart from the others'. -/
theorem Apart.change (h : Apart keys) {c : Command} (hc : c ∈ commands)
    (hothers : ∀ d ∈ commands, d.id ≠ c.id → keys'.chords d.id ⊆ keys.chords d.id)
    (happart : ∀ d ∈ commands, d.id ≠ c.id → d.sharesScope c = true →
      ∀ chord ∈ keys'.chords c.id, chord ∉ keys'.chords d.id) : Apart keys' := by
  intro a ha b hb hne hshares chord hchord hchord'
  by_cases hac : a.id = c.id
  · obtain rfl := eq_of_id ha hc hac
    exact happart b hb hne.symm (sharesScope_comm hshares) chord hchord hchord'
  · by_cases hbc : b.id = c.id
    · obtain rfl := eq_of_id hb hc hbc
      exact happart a ha hne hshares chord hchord' hchord
    · exact h a ha b hb hne hshares chord (hothers a ha hac hchord) (hothers b hb hbc hchord')

theorem Apart.bind (h : Apart keys) : Apart (keys.bind id chord) := by
  cases hcommand : command id with
  | none =>
      rw [Keymap.bind, hcommand]
      exact h
  | some c =>
      obtain ⟨hc, rfl⟩ := command_eq_some.mp hcommand
      refine h.change hc (fun d hd hne bound hbound => ?_)
        fun d hd hne hshares bound hmine hother => ?_
      · rw [mem_chords_bind hc, if_neg hne.symm] at hbound
        exact hbound.1
      · rw [mem_chords_bind hc, if_neg hne.symm] at hother
        rw [mem_chords_bind hc, if_pos rfl] at hmine
        rcases hmine with rfl | hmine
        · exact hother.2 ((mem_conflicts hc).mpr ⟨d, hd, rfl, hne, hshares, hother.1⟩) rfl
        · exact h d hd c hc hne hshares bound hother.1 hmine

/-- A reset gives back no chord that another command holds where the command is live. -/
theorem Apart.reset (h : Apart keys)
    (hclear : ∀ c ∈ command id, ∀ chord ∈ c.defaults upper keys.mac,
      keys.conflicts c.id chord = []) : Apart (keys.reset upper id) := by
  cases hcommand : command id with
  | none =>
      rw [Keymap.reset, hcommand]
      exact h
  | some c =>
      obtain ⟨hc, -⟩ := command_eq_some.mp hcommand
      refine h.change hc (fun d hd hne => ?_) fun d hd hne hshares bound hmine hother => ?_
      · rw [chords_reset hcommand, if_neg hne.symm]
        exact List.Subset.refl _
      · rw [chords_reset hcommand, if_neg hne.symm] at hother
        rw [chords_reset hcommand, if_pos rfl] at hmine
        have hnone := hclear c hcommand bound hmine
        have hconflict := (mem_conflicts hc).mpr ⟨d, hd, rfl, hne, hshares, hother⟩
        rw [hnone] at hconflict
        cases hconflict

/-! ## Runs of the settings screen -/

inductive Action
  | bind (id : String) (chord : Chord)
  | unbind (id : String) (chord : Chord)
  | reset (id : String)

/-- The keymaps the settings screen makes of the defaults. It binds no chord that is refused. -/
def machine (upper : Char → List Char) (mac : Bool) : Machine Keymap Action where
  init keys := keys = defaults upper mac
  step keys
    | .bind id chord => if (keys.refusal id chord).isNone then some (keys.bind id chord) else none
    | .unbind id chord => some (keys.unbind id chord)
    | .reset id => some (keys.reset upper id)

/-- No chord that a reset gives back is by then bound to a command it conflicts with. -/
def Clear (upper : Char → List Char) (keys : Keymap) : Action → Prop
  | .reset id => ∀ c ∈ command id, ∀ chord ∈ c.defaults upper keys.mac,
      keys.conflicts c.id chord = []
  | _ => True

instance : DecidableRel (Clear upper) := fun keys action =>
  match action with
  | .reset id => inferInstanceAs (Decidable (∀ c ∈ command id,
      ∀ chord ∈ c.defaults upper keys.mac, keys.conflicts c.id chord = []))
  | .bind _ _ => isTrue trivial
  | .unbind _ _ => isTrue trivial

theorem apart_of_reach {mac : Bool} (h : (machine upper mac).Reach (Clear upper) keys) :
    Apart keys := by
  refine h.invariant (fun s hs => ?_) fun s action s' hi hok hstep => ?_
  · rw [hs]
    exact apart_defaults mac
  · rw [machine] at hstep
    cases action with
    | bind id chord =>
        dsimp only at hstep
        split_ifs at hstep
        rw [← Option.some.inj hstep]
        exact hi.bind
    | unbind id chord =>
        rw [← Option.some.inj hstep]
        exact hi.unbind
    | reset id =>
        rw [← Option.some.inj hstep]
        exact hi.reset hok

/-! ## What a keymap promises -/

structure Unambiguous (keys : Keymap) : Prop where
  alone : ∀ c ∈ commands, ∀ d ∈ commands, c.id ≠ d.id → ∀ scope, c.liveIn scope = true →
    d.liveIn scope = true → ∀ chord ∈ keys.chords c.id, chord ∉ keys.chords d.id
  lookup : ∀ order : List Command, order.Perm commands → ∀ chord scope,
    keys.lookupIn order chord scope = keys.lookup chord scope
  bound : ∀ id chord, keys.refusal id chord = none → ∀ c ∈ command id, ∀ scope,
    c.liveIn scope = true → (keys.bind id chord).lookup chord scope = some id

/-- What only one entry has does not depend on the order of a search for it. -/
theorem find?_perm {α : Type} {p : α → Bool} {l l' : List α} (hperm : l'.Perm l)
    (hunique : ∀ a ∈ l, ∀ b ∈ l, p a = true → p b = true → a = b) : l'.find? p = l.find? p := by
  cases hfound : l.find? p with
  | none =>
      rw [List.find?_eq_none] at hfound ⊢
      exact fun a ha => hfound a (hperm.mem_iff.mp ha)
  | some a =>
      have ha := List.mem_of_find?_eq_some hfound
      cases hfound' : l'.find? p with
      | none =>
          rw [List.find?_eq_none] at hfound'
          exact absurd (List.find?_some hfound) (hfound' a (hperm.mem_iff.mpr ha))
      | some b =>
          have hb := hperm.mem_iff.mp (List.mem_of_find?_eq_some hfound')
          rw [hunique b hb a ha (List.find?_some hfound') (List.find?_some hfound)]

theorem Apart.unique (h : Apart keys) {c d : Command} (hc : c ∈ commands) (hd : d ∈ commands)
    (hruns : (c.liveIn scope && (keys.chords c.id).contains chord) = true)
    (hruns' : (d.liveIn scope && (keys.chords d.id).contains chord) = true) : c = d := by
  rw [Bool.and_eq_true, List.contains_iff_mem] at hruns hruns'
  by_contra hne
  exact h c hc d hd (fun hid => hne (eq_of_id hc hd hid))
    (sharesScope_of_liveIn hruns.1 hruns'.1) chord hruns.2 hruns'.2

/-- The one command that holds a chord in a scope is what the chord runs there. -/
theorem Apart.lookup_eq (h : Apart keys) {c : Command} (hc : c ∈ commands)
    (hlive : c.liveIn scope = true) (hchord : chord ∈ keys.chords c.id) :
    keys.lookup chord scope = some c.id := by
  have hruns : (c.liveIn scope && (keys.chords c.id).contains chord) = true := by
    rw [Bool.and_eq_true, List.contains_iff_mem]
    exact ⟨hlive, hchord⟩
  rw [lookup, lookupIn]
  cases hfound : commands.find? fun d => d.liveIn scope && (keys.chords d.id).contains chord with
  | none =>
      rw [List.find?_eq_none] at hfound
      exact absurd hruns (hfound c hc)
  | some d =>
      have hfirst := List.find?_some hfound
      rw [h.unique (List.mem_of_find?_eq_some hfound) hc hfirst hruns]
      rfl

/-- As long as no reset gives back a chord that a command in conflict holds by then, no
keymap the settings screen reaches has an ambiguous chord. -/
theorem unambiguous_of_clear (upper : Char → List Char) (mac : Bool) (keys : Keymap)
    (h : (machine upper mac).Reach (Clear upper) keys) : Unambiguous keys := by
  have hapart := apart_of_reach h
  refine ⟨fun c hc d hd hne scope hlive hlive' => ?_, fun order hperm chord scope => ?_, ?_⟩
  · exact hapart c hc d hd hne (sharesScope_of_liveIn hlive hlive')
  · rw [lookup, lookupIn, lookupIn, find?_perm hperm]
    exact fun c hc d hd => hapart.unique hc hd
  · intro id chord _ c hcommand scope hlive
    obtain ⟨hc, rfl⟩ := command_eq_some.mp hcommand
    refine hapart.bind.lookup_eq hc hlive ((mem_chords_bind hc).mpr ?_)
    rw [if_pos rfl]
    exact .inl rfl

/-! ## The chord of Find in Files -/

def quickOpen : Command :=
  cmd "navigate.quickOpen" "Navigate" "Quick Open" everywhere ["Ctrl+Shift+T"]

def findInFiles : Command :=
  cmd "search.findInFiles" "Search" "Find in Files" everywhere ["Ctrl+Shift+F"]

def findChord : Chord := ⟨true, true, false, "F"⟩

theorem command_quickOpen : command quickOpen.id = some quickOpen := by decide +kernel

theorem command_findInFiles : command findInFiles.id = some findInFiles := by decide +kernel

theorem quickOpen_mem : quickOpen ∈ commands := (command_eq_some.mp command_quickOpen).1

theorem findInFiles_mem : findInFiles ∈ commands := (command_eq_some.mp command_findInFiles).1

theorem findInFiles_ne_quickOpen : findInFiles.id ≠ quickOpen.id := by decide

theorem findInFiles_defaults : findInFiles.defaults upper false = [findChord] := by
  rw [defaults_eq findInFiles_mem]
  decide +kernel

theorem findChord_allowed (keys : Keymap) :
    (keys.refusal quickOpen.id findChord).isNone = true := by
  have hbindable : findChord.bindable = true := by decide
  have hfree : terminalTier findChord keys.mac = .free := by
    cases keys.mac <;> decide
  rw [refusal, hbindable, command_quickOpen]
  dsimp only
  rw [hfree]
  rfl

/-- Quick Open has taken the chord of Find in Files. -/
def taken (upper : Char → List Char) : Keymap :=
  (defaults upper false).bind quickOpen.id findChord

theorem reach_taken {ok : Keymap → Action → Prop}
    (hok : ok (defaults upper false) (.bind quickOpen.id findChord)) :
    (machine upper false).Reach ok (taken upper) := by
  have hstep : (machine upper false).step (defaults upper false)
      (.bind quickOpen.id findChord) = some (taken upper) := by
    rw [machine]
    dsimp only
    rw [if_pos (findChord_allowed _), taken]
  exact .step (.init rfl) hok hstep

theorem reach_unbind {mac : Bool} {ok : Keymap → Action → Prop}
    (h : (machine upper mac).Reach ok keys) (hok : ok keys (.unbind id chord)) :
    (machine upper mac).Reach ok (keys.unbind id chord) := .step h hok rfl

theorem reach_reset {mac : Bool} {ok : Keymap → Action → Prop}
    (h : (machine upper mac).Reach ok keys) (hok : ok keys (.reset id)) :
    (machine upper mac).Reach ok (keys.reset upper id) := .step h hok rfl

theorem chords_reset_findInFiles (hmac : keys.mac = false) :
    (keys.reset upper findInFiles.id).chords findInFiles.id = [findChord] := by
  rw [chords_reset command_findInFiles, if_pos rfl, hmac, findInFiles_defaults]

theorem mac_unbind : (keys.unbind id chord).mac = keys.mac := rfl

theorem mac_bind : (keys.bind id chord).mac = keys.mac := by
  have hfold : ∀ (ids : List String) (keys : Keymap),
      (ids.foldl (fun keys other => keys.unbind other chord) keys).mac = keys.mac := by
    intro ids
    induction ids with
    | nil => exact fun _ => rfl
    | cons other ids ih => exact fun keys => ih (keys.unbind other chord)
  rw [bind]
  cases command id with
  | none => rfl
  | some c => exact hfold _ keys

theorem mac_taken : (taken upper).mac = false := by
  rw [taken, mac_bind]
  rfl

/-- Once Quick Open has given the chord up, no command in conflict with Find in Files has it. -/
theorem clear_reset_findInFiles :
    Clear upper ((taken upper).unbind quickOpen.id findChord) (.reset findInFiles.id) := by
  intro c hcommand chord hchord
  obtain rfl := Option.some.inj (command_findInFiles.symm.trans hcommand)
  rw [mac_unbind, mac_taken, findInFiles_defaults, List.mem_singleton] at hchord
  subst hchord
  rw [List.eq_nil_iff_forall_not_mem]
  intro other hother
  obtain ⟨d, hd, -, hne, hshares, hheld⟩ := (mem_conflicts findInFiles_mem).mp hother
  rw [chords_unbind] at hheld
  split_ifs at hheld with hquick
  · rw [List.mem_filter, decide_eq_true_eq] at hheld
    exact hheld.2 rfl
  · rw [taken, mem_chords_bind quickOpen_mem, if_neg hquick] at hheld
    have hdefault : findChord ∈ (defaults upper false).chords findInFiles.id := by
      rw [chords_defaults findInFiles_mem, findInFiles_defaults]
      exact List.mem_singleton_self _
    exact apart_defaults false findInFiles findInFiles_mem d hd hne.symm (sharesScope_comm hshares)
      findChord hdefault hheld.1

/-- Quick Open takes the chord of Find in Files and gives it up before that one is reset. -/
theorem unambiguous_of_clear_reset :
    ∃ keys : Keymap, Unambiguous keys ∧
      keys.chords "search.findInFiles" = [⟨true, true, false, "F"⟩] := by
  have hreach : (machine (fun c => [c]) false).Reach (Clear fun c => [c])
      (((taken fun c => [c]).unbind quickOpen.id findChord).reset (fun c => [c]) findInFiles.id) :=
    reach_reset (reach_unbind (reach_taken trivial) trivial) clear_reset_findInFiles
  exact ⟨_, unambiguous_of_clear _ _ _ hreach,
    chords_reset_findInFiles (mac_unbind.trans mac_taken)⟩

/-- Quick Open takes the chord of Find in Files, and the reset of that one gives it back. -/
theorem not_unambiguous :
    ¬ ∀ (upper : Char → List Char) (mac : Bool) (keys : Keymap),
      (machine upper mac).Reach Machine.anyStep keys → Unambiguous keys := by
  intro h
  have hreach : (machine (fun c => [c]) false).Reach Machine.anyStep
      ((taken fun c => [c]).reset (fun c => [c]) findInFiles.id) :=
    reach_reset (reach_taken trivial) trivial
  have hfind : findChord ∈ ((taken fun c => [c]).reset (fun c => [c]) findInFiles.id).chords
      findInFiles.id := by
    rw [chords_reset_findInFiles mac_taken]
    exact List.mem_singleton_self _
  refine (h _ _ _ hreach).alone findInFiles findInFiles_mem quickOpen quickOpen_mem
    findInFiles_ne_quickOpen .editor (by decide) (by decide) findChord hfind ?_
  rw [chords_reset command_findInFiles, if_neg findInFiles_ne_quickOpen, taken,
    mem_chords_bind quickOpen_mem, if_pos rfl]
  exact .inl rfl

end Keymap

end Throng
