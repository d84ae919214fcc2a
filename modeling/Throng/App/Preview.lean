import Throng.App.Document
import Throng.Lib.Machine

/-!
# A preview that follows its file

While the file is open a preview shows its document, and does not while the user types: only once
nothing has changed for a delay, and no later than a longest wait. Otherwise it shows the file on
disk.
-/

namespace Throng

/-- What a preview shows: a version of the open document, or the file as it was on disk. -/
inductive PreviewShown
  | document (version : Nat)
  | disk (stamp : Option Stamp)
deriving DecidableEq, Repr

structure PreviewState (D : Type) where
  /-- The name of the file. -/
  name : String
  document : Option D
  shown : Option PreviewShown
  /-- An unshown document version, when it was first seen, and when it last changed. -/
  pending : Option (Nat × Nat × Nat)
  checked : Option Nat
  /-- What is wrong, shown as one inline notice. -/
  problem : Option String
  /-- Re-read now, ignoring the delay. -/
  refresh : Bool
  /-- How many times a text was shown. -/
  showing : Nat

namespace PreviewState

variable {D : Type} (render : List Char → D)

/-- How often a standalone preview looks at its file on disk. -/
def diskCheck : Nat := 500

def new (name : String) : PreviewState D := ⟨name, none, none, none, none, none, false, 0⟩

def showText (text : List Char) (shown : PreviewShown) (state : PreviewState D) :
    PreviewState D :=
  { state with
    document := some (render text)
    showing := state.showing + 1
    shown := some shown
    pending := none
    problem := none
    refresh := false }

def showsDocument (state : PreviewState D) : Bool :=
  match state.shown with
  | some (.document _) => true
  | _ => false

def showsDisk (state : PreviewState D) : Bool :=
  match state.shown with
  | some (.disk _) => true
  | _ => false

/-- Since when a change waits, and when the last came. -/
def waitsSince (version now : Nat) : Option (Nat × Nat × Nat) → Nat × Nat
  | some (v, first, last) => if v = version then (first, last) else (first, now)
  | none => (now, now)

/-- Follow the open document at `version`; gives how long until it should look again. -/
def followDocument (version : Nat) (text : List Char) (now delay wait : Nat)
    (state : PreviewState D) : PreviewState D × Option Nat :=
  if state.shown = some (.document version) ∧ state.refresh = false then
    ({ state with pending := none }, none)
  else if state.showsDocument = false ∨ state.refresh = true then
    (state.showText render text (.document version), none)
  else
    let (first, last) := waitsSince version now state.pending
    let state := { state with pending := some (version, first, last) }
    if delay ≤ now - last ∨ wait ≤ now - first then
      (state.showText render text (.document version), none)
    else (state, some (min (delay - (now - last)) (wait - (now - first))))

/-- Follow the file on disk. -/
def followDisk (look : Look) (maxBytes now : Nat) (state : PreviewState D) :
    PreviewState D × Option Nat :=
  let late := state.checked.all fun since => decide (diskCheck ≤ now - since)
  if state.refresh || !state.showsDisk || late then
    let state := { state with checked := some now }
    let stamp := look.stamp.toOption
    if state.shown = some (.disk stamp) ∧ state.refresh = false then (state, some diskCheck)
    else
      match readFile look maxBytes .lf with
      | .ok (decoded, _) => (state.showText render decoded.text (.disk stamp), some diskCheck)
      | .error error =>
          let problem :=
            if stamp = none then "\"" ++ state.name ++ "\" no longer exists."
            else "\"" ++ state.name ++ "\" cannot be previewed: " ++ error.text
          ({ state with problem := some problem, shown := some (.disk stamp), refresh := false },
            some diskCheck)
  else (state, some diskCheck)

/-! ## Following -/

/-- A preview, with what it was shown of the document since this was opened. -/
structure Sys (D : Type) where
  preview : PreviewState D
  clock : Nat
  /-- When the document was first seen to be newer than what is shown. -/
  changedAt : Option Nat
  /-- When the document was last shown. -/
  shownAt : Option Nat
  /-- The version and the text that were shown. -/
  source : Option (Nat × List Char)

inductive Act
  /-- A frame while the file is open. -/
  | document (version : Nat) (text : List Char) (now delay wait : Nat)
  /-- A frame while it is not. -/
  | disk (look : Look) (maxBytes now : Nat)
  | refresh

/-- The document was drawn at a frame. -/
def Sys.draw (s : Sys D) (version : Nat) (text : List Char) (now : Nat)
    (preview : PreviewState D) : Sys D where
  preview
  clock := now
  changedAt :=
    if preview.shown = some (.document version) then none else some (s.changedAt.getD now)
  shownAt := if preview.showing = s.preview.showing then s.shownAt else some now
  source := if preview.showing = s.preview.showing then s.source else some (version, text)

def step (s : Sys D) : Act → Option (Sys D)
  | .document version text now delay wait =>
      if s.clock ≤ now then
        some (s.draw version text now
          (s.preview.followDocument render version text now delay wait).1)
      else none
  | .disk look maxBytes now =>
      if s.clock ≤ now then
        some ⟨(s.preview.followDisk render look maxBytes now).1, now, none, none, none⟩
      else none
  | .refresh => some { s with preview := { s.preview with refresh := true } }

def machine : Machine (Sys D) Act where
  init s := ∃ name clock, s = ⟨.new name, clock, none, none, none⟩
  step := step render

/-- While the document stays open, one version of it has one text. -/
def OneText (s : Sys D) : Act → Prop
  | .document version text _ _ _ => ∀ source ∈ s.source, source.1 = version → source.2 = text
  | _ => True

variable {render} {s s' : Sys D} {state : PreviewState D} {version now delay wait : Nat}
  {text : List Char}

/-- What a preview does with the open document: nothing, or show it at once, or wait for more. -/
theorem followDocument_cases (render : List Char → D) (version : Nat) (text : List Char)
    (now delay wait : Nat) (state : PreviewState D) :
    (state.shown = some (.document version) ∧ state.refresh = false ∧
      state.followDocument render version text now delay wait =
        ({ state with pending := none }, none)) ∨
    ((state.showsDocument = false ∨ state.refresh = true ∨
        delay ≤ now - (waitsSince version now state.pending).2 ∨
        wait ≤ now - (waitsSince version now state.pending).1) ∧
      state.followDocument render version text now delay wait =
        (state.showText render text (.document version), none)) ∨
    (state.shown ≠ some (.document version) ∧ state.showsDocument = true ∧
      now - (waitsSince version now state.pending).2 < delay ∧
      now - (waitsSince version now state.pending).1 < wait ∧
      state.followDocument render version text now delay wait =
        ({ state with pending := some (version, waitsSince version now state.pending) },
          some (min (delay - (now - (waitsSince version now state.pending).2))
            (wait - (now - (waitsSince version now state.pending).1))))) := by
  by_cases hsame : state.shown = some (.document version) ∧ state.refresh = false
  · exact .inl ⟨hsame.1, hsame.2, by rw [followDocument, if_pos hsame]⟩
  by_cases hfirst : state.showsDocument = false ∨ state.refresh = true
  · refine .inr (.inl ⟨?_, by rw [followDocument, if_neg hsame, if_pos hfirst]⟩)
    exact hfirst.imp_right .inl
  by_cases hdue : delay ≤ now - (waitsSince version now state.pending).2 ∨
      wait ≤ now - (waitsSince version now state.pending).1
  · refine .inr (.inl ⟨.inr (.inr hdue), ?_⟩)
    rw [followDocument, if_neg hsame, if_neg hfirst]
    dsimp only
    rw [if_pos hdue]
    rfl
  · obtain ⟨hquiet, hwaited⟩ := not_or.mp hdue
    obtain ⟨hshows, hrefresh⟩ := not_or.mp hfirst
    refine .inr (.inr ⟨fun hshown => hsame ⟨hshown, Bool.eq_false_iff.mpr hrefresh⟩,
      Bool.not_eq_false _ ▸ hshows, Nat.lt_of_not_le hquiet, Nat.lt_of_not_le hwaited, ?_⟩)
    rw [followDocument, if_neg hsame, if_neg hfirst]
    dsimp only
    rw [if_neg hdue]

theorem exists_of_showsDocument (h : state.showsDocument = true) :
    ∃ version, state.shown = some (.document version) := by
  rw [showsDocument] at h
  split at h
  · next version hshown => exact ⟨version, hshown⟩
  · cases h

/-- A document that is shown is shown as its text was, and a change waits since it was seen. -/
structure Inv (render : List Char → D) (s : Sys D) : Prop where
  text : ∀ version, s.preview.shown = some (.document version) →
    ∃ text, s.source = some (version, text) ∧ s.preview.document = some (render text)
  times : ∀ version, s.preview.shown = some (.document version) →
    ∃ shownAt, s.shownAt = some shownAt ∧ shownAt ≤ s.clock ∧
      s.preview.pending.map (fun waits => waits.2.1) = s.changedAt ∧
      ∀ waits ∈ s.preview.pending, shownAt ≤ waits.2.1 ∧ waits.2.1 ≤ waits.2.2 ∧
        waits.2.2 ≤ s.clock

/-- A change waits since the frame it was first seen at. -/
theorem waitsSince_spec {pending : Option (Nat × Nat × Nat)} {changedAt : Option Nat}
    {shownAt clock : Nat} (hchanged : pending.map (fun waits => waits.2.1) = changedAt)
    (htimes : ∀ waits ∈ pending, shownAt ≤ waits.2.1 ∧ waits.2.1 ≤ waits.2.2 ∧ waits.2.2 ≤ clock)
    (hshown : shownAt ≤ clock) (hclock : clock ≤ now) :
    (waitsSince version now pending).1 = changedAt.getD now ∧
      shownAt ≤ (waitsSince version now pending).1 ∧
      (waitsSince version now pending).1 ≤ (waitsSince version now pending).2 ∧
      (waitsSince version now pending).2 ≤ now := by
  subst hchanged
  cases pending with
  | none => exact ⟨rfl, Nat.le_trans hshown hclock, Nat.le_refl _, Nat.le_refl _⟩
  | some waits =>
      obtain ⟨hlow, hmid, hhigh⟩ := htimes waits rfl
      rw [waitsSince]
      split
      · exact ⟨rfl, hlow, hmid, Nat.le_trans hhigh hclock⟩
      · exact ⟨rfl, hlow, Nat.le_trans (Nat.le_trans hmid hhigh) hclock, Nat.le_refl _⟩

theorem showing_ne (render : List Char → D) (text : List Char) (state : PreviewState D)
    (shown : PreviewShown) :
    (state.showText render text shown).showing ≠ state.showing := Nat.succ_ne_self _

theorem inv_showText :
    Inv render (s.draw version text now (s.preview.showText render text (.document version))) := by
  have hshown : (s.preview.showText render text (.document version)).shown =
      some (.document version) := rfl
  have hshowing := showing_ne render text s.preview (.document version)
  rw [Sys.draw, if_pos hshown, if_neg hshowing, if_neg hshowing]
  refine ⟨?_, ?_⟩
  · rintro other ⟨⟩
    exact ⟨text, rfl, rfl⟩
  · rintro other ⟨⟩
    exact ⟨now, rfl, Nat.le_refl _, rfl, nofun⟩

/-- A frame that shows nothing new. -/
theorem draw_kept (preview : PreviewState D) (hshown : preview.shown = s.preview.shown)
    (hshowing : preview.showing = s.preview.showing) :
    s.draw version text now preview =
      ⟨preview, now, if s.preview.shown = some (.document version) then none
        else some (s.changedAt.getD now), s.shownAt, s.source⟩ := by
  rw [Sys.draw, if_pos hshowing, if_pos hshowing, hshown]

theorem Inv.draw (h : Inv render s) (hclock : s.clock ≤ now) :
    Inv render (s.draw version text now
      (s.preview.followDocument render version text now delay wait).1) := by
  rcases followDocument_cases render version text now delay wait s.preview with
    ⟨hshown, -, heq⟩ | ⟨-, heq⟩ | ⟨hshown, hshows, hquiet, hwaited, heq⟩ <;> rw [heq]
  · rw [draw_kept { s.preview with pending := none } rfl rfl, if_pos hshown]
    refine ⟨h.text, fun other hother => ?_⟩
    obtain ⟨shownAt, hshownAt, hle, -, -⟩ := h.times other hother
    exact ⟨shownAt, hshownAt, Nat.le_trans hle hclock, rfl, nofun⟩
  · exact inv_showText
  · rw [draw_kept { s.preview with
      pending := some (version, waitsSince version now s.preview.pending) } rfl rfl, if_neg hshown]
    refine ⟨h.text, fun other hother => ?_⟩
    obtain ⟨shownAt, hshownAt, hle, hchanged, htimes⟩ := h.times other hother
    obtain ⟨hsince, hlow, hmid, hhigh⟩ :=
      @waitsSince_spec version now _ _ _ _ hchanged htimes hle hclock
    refine ⟨shownAt, hshownAt, Nat.le_trans hle hclock, congrArg some hsince, ?_⟩
    rintro waits ⟨⟩
    exact ⟨hlow, hmid, hhigh⟩

theorem showsDisk_followDisk {look : Look} {maxBytes version : Nat} :
    (state.followDisk render look maxBytes now).1.shown ≠ some (.document version) := by
  rw [followDisk]
  split
  · dsimp only
    by_cases hshown : state.shown = some (.disk look.stamp.toOption) ∧ state.refresh = false
    · rw [if_pos hshown]
      dsimp only
      rw [hshown.1]
      nofun
    · rw [if_neg hshown]
      split <;> nofun
  · next hdue =>
      rw [Bool.not_eq_true, Bool.or_eq_false_iff, Bool.or_eq_false_iff, Bool.not_eq_false'] at hdue
      have hdisk := hdue.1.2
      rw [showsDisk] at hdisk
      split at hdisk
      · next stamp hshown =>
          rw [hshown]
          nofun
      · cases hdisk

theorem Inv.step {a : Act} (h : Inv render s) (hstep : step render s a = some s') :
    Inv render s' := by
  cases a with
  | document version text now delay wait =>
      rw [PreviewState.step] at hstep
      split at hstep
      · next hclock =>
          cases hstep
          exact h.draw hclock
      · cases hstep
  | disk look maxBytes now =>
      rw [PreviewState.step] at hstep
      split at hstep
      · cases hstep
        exact ⟨fun _ hshown => absurd hshown showsDisk_followDisk,
          fun _ hshown => absurd hshown showsDisk_followDisk⟩
      · cases hstep
  | refresh =>
      cases hstep
      exact ⟨h.text, h.times⟩

theorem inv_of_reach {ok : Sys D → Act → Prop} (h : (machine render).Reach ok s) :
    Inv render s := by
  refine h.invariant ?_ fun s a s' hinv _ hstep => hinv.step hstep
  rintro s ⟨name, clock, rfl⟩
  exact ⟨nofun, nofun⟩

/-- What a frame shows of the open document: its text, or else, for less than the longest wait
since it changed, what was shown before; and it is not shown anew before its delay has passed. -/
structure Shows (render : List Char → D) (s s' : Sys D) (version : Nat) (text : List Char)
    (now delay wait : Nat) (again : Option Nat) : Prop where
  text : s'.preview.shown = some (.document version) → s'.preview.document = some (render text)
  waits : s'.preview.shown ≠ some (.document version) →
    ∃ first pause, s'.changedAt = some first ∧ first ≤ now ∧ again = some pause ∧ 0 < pause ∧
      now + pause ≤ first + wait
  spared : s'.preview.showing = s.preview.showing ∨ s.preview.refresh = true ∨
    s.preview.showsDocument = false ∨
      ∃ shownAt, s.shownAt = some shownAt ∧ shownAt + min delay wait ≤ now

/-- A frame shows the version it is given or has it shown in time, in every run in which each
version number stands for one text. -/
theorem shows_of_taken
    (h : (machine render).Taken OneText s (.document version text now delay wait) s') :
    Shows render s s' version text now delay wait
      (s.preview.followDocument render version text now delay wait).2 := by
  have hinv := inv_of_reach h.reach
  have hstep : (if s.clock ≤ now then some (s.draw version text now
      (s.preview.followDocument render version text now delay wait).1) else none) = some s' :=
    h.step
  split at hstep
  case isFalse => cases hstep
  case isTrue hclock =>
    cases hstep
    rcases followDocument_cases render version text now delay wait s.preview with
      ⟨hshown, -, heq⟩ | ⟨hdue, heq⟩ | ⟨hshown, hshows, hquiet, hwaited, heq⟩ <;> rw [heq]
    · obtain ⟨old, hsource, hdocument⟩ := hinv.text version hshown
      have hsame : old = text := h.ok (version, old) hsource rfl
      exact ⟨fun _ => hsame ▸ hdocument, fun hnot => absurd hshown hnot, .inl rfl⟩
    · refine ⟨fun _ => rfl, fun hnot => absurd rfl hnot, ?_⟩
      rcases hdue with hfirst | hrefresh | hdue
      · exact .inr (.inr (.inl hfirst))
      · exact .inr (.inl hrefresh)
      · cases hshows : s.preview.showsDocument with
        | false => exact .inr (.inr (.inl rfl))
        | true =>
            obtain ⟨old, hold⟩ := exists_of_showsDocument hshows
            obtain ⟨shownAt, hshownAt, hle, hchanged, htimes⟩ := hinv.times old hold
            obtain ⟨-, hlow, hmid, hhigh⟩ :=
              @waitsSince_spec version now _ _ _ _ hchanged htimes hle hclock
            exact .inr (.inr (.inr ⟨shownAt, hshownAt, by omega⟩))
    · refine ⟨fun hthere => absurd hthere hshown, fun _ => ?_, .inl rfl⟩
      obtain ⟨old, hold⟩ := exists_of_showsDocument hshows
      obtain ⟨shownAt, -, hle, hchanged, htimes⟩ := hinv.times old hold
      obtain ⟨hsince, hlow, hmid, hhigh⟩ :=
        @waitsSince_spec version now _ _ _ _ hchanged htimes hle hclock
      refine ⟨_, _, if_neg hshown, ?_, rfl, ?_, ?_⟩
      · rw [← hsince]
        exact Nat.le_trans hmid hhigh
      · exact Nat.lt_min.mpr ⟨by omega, by omega⟩
      · rw [← hsince]
        omega

def opened : Sys (List Char) :=
  Sys.draw ⟨.new "a.md", 0, none, none, none⟩ 0 ['a'] 0
    (followDocument id 0 ['a'] 0 300 1000 (.new "a.md")).1

/-- A second letter was typed. -/
def typing : Sys (List Char) :=
  opened.draw 1 ['a', 'b'] 100 (opened.preview.followDocument id 1 ['a', 'b'] 100 300 1000).1

theorem reach_typing : (machine id).Reach OneText typing := by
  have hopened : (machine id).Reach OneText opened :=
    .step (.init ⟨"a.md", 0, rfl⟩) (a := .document 0 ['a'] 0 300 1000) nofun rfl
  refine .step hopened (a := .document 1 ['a', 'b'] 100 300 1000) ?_ rfl
  rintro source ⟨⟩ hversion
  cases hversion

theorem shows_of_taken_typing : Shows id typing
    (typing.draw 2 ['a', 'b', 'c'] 200
      (typing.preview.followDocument id 2 ['a', 'b', 'c'] 200 300 1000).1)
    2 ['a', 'b', 'c'] 200 300 1000
    (typing.preview.followDocument id 2 ['a', 'b', 'c'] 200 300 1000).2 := by
  refine shows_of_taken ⟨reach_typing, ?_, rfl⟩
  rintro source ⟨⟩ hversion
  cases hversion

end PreviewState

end Throng
