import Throng.Core.CopyNames

/-!
# Moving and copying in the tree

A move or copy that was asked for, checked against the rules before the disk is touched:
what it is planned to make is a name in the folder asked for, one that is not there yet.
-/

namespace Throng

open Joined (Segmental)
open PathRules (Plain Joins inside)

/-- What is planned: a path to make, or nothing to do; else why not. -/
abbrev Planned := Except String (Option PathBuf)

namespace PathOn

/-- `name`, for a message. -/
def shownName (rules : PathRules) (path : PathBuf) : String :=
  (fileName rules path).elim path String.ofList

end PathOn

/-- Moving and copying share one rule: never into itself. -/
def PathRules.transferAllowed (rules : PathRules) (host : Host) (source into : PathBuf) : Bool :=
  !rules.isWithin host source into

/-- The folder that `path` is in is `into`. -/
def sameFolder (rules : PathRules) (host : Host) (path into : PathBuf) : Bool :=
  (PathOn.parent rules path).any fun folder => rules.same host folder into

/-- `plan_transfer`; `none` stands for a copy that finds no free number. -/
def planTransfer (rules : PathRules) (host : Host) (root fromPath into : PathBuf) (copy : Bool)
    (existing : PathBuf → Bool) : Option Planned :=
  if rules.same host fromPath root then
    some (.error "The project's root folder cannot be moved or copied.")
  else if !rules.isWithin host root into then some (.error "That folder is outside this project.")
  else if !rules.transferAllowed host fromPath into then
    some (.error ("\"" ++ PathOn.shownName rules fromPath ++ "\" cannot go inside itself."))
  else
    (PathOn.fileName rules fromPath).elim (some (.error "That item has no name.")) fun name =>
      if copy then
        (copyName (fun candidate => existing (PathOn.join rules into candidate))
          name).map fun unique =>
          .ok (some (PathOn.join rules into unique))
      else if sameFolder rules host fromPath into then some (.ok none)
      else if existing (PathOn.join rules into name) then
        some (.error ("\"" ++ String.ofList name ++ "\" already exists in " ++ into ++ "."))
      else some (.ok (some (PathOn.join rules into name)))

namespace Transfers

variable {rules : PathRules} {host : Host} {root fromPath into toPath : PathBuf} {copy : Bool}
  {existing : PathBuf → Bool}

/-- None of the refusals that come before the destination is looked at. -/
structure Accepted (rules : PathRules) (host : Host) (root fromPath into : PathBuf)
    (name : List Char) : Prop where
  notRoot : rules.same host fromPath root = false
  inProject : rules.isWithin host root into = true
  notItself : rules.isWithin host fromPath into = false
  named : PathOn.fileName rules fromPath = some name

/-- On Windows the folder is more than a drive, and no drive begins the name. -/
def Driveless (rules : PathRules) (fromPath into : PathBuf) : Prop :=
  rules.windowsNames = true → into.toList ≠ PathOn.drive rules into.toList ∧
    ∀ name, PathOn.fileName rules fromPath = some name → PathOn.drive rules name = []

/-- A planned destination: in the folder asked for and in the project, not there yet, and not
in the item. Only the copy of an item that is not there is the item again, where what is there is
told as the rules tell paths. -/
structure SafeDestination (rules : PathRules) (host : Host) (root fromPath into : PathBuf)
    (copy : Bool) (existing : PathBuf → Bool) (toPath : PathBuf) : Prop where
  folder : ∃ folder, PathOn.parent rules toPath = some folder ∧ rules.same host folder into = true
  inProject : rules.isWithin host root toPath = true
  free : existing toPath = false
  outside : rules.isWithin host fromPath toPath = true →
    copy = true ∧ rules.same host fromPath toPath = true
  apart : (∀ a b, rules.same host a b = true → existing a = existing b) →
    existing fromPath = true → rules.isWithin host fromPath toPath = false
  kept : copy = false → PathOn.fileName rules toPath = PathOn.fileName rules fromPath
  firstFree : copy = true → ∃ name unique, PathOn.fileName rules fromPath = some name ∧
    toPath = PathOn.join rules into unique ∧
      CopyName.FirstFree (fun candidate => existing (PathOn.join rules into candidate)) name unique

/-- What a plan may be. -/
structure SafePlan (rules : PathRules) (host : Host) (root fromPath into : PathBuf) (copy : Bool)
    (existing : PathBuf → Bool) : Prop where
  destination : ∀ toPath,
    planTransfer rules host root fromPath into copy existing = some (.ok (some toPath)) →
      SafeDestination rules host root fromPath into copy existing toPath
  nothing : planTransfer rules host root fromPath into copy existing = some (.ok none) ↔
    copy = false ∧ sameFolder rules host fromPath into = true ∧
      ∃ name, Accepted rules host root fromPath into name
  ends : planTransfer rules host root fromPath into copy existing = none →
    ∃ name, PathOn.fileName rules fromPath = some name ∧ ∀ n, 1 ≤ n → n ≤ copyNumbers →
      existing (PathOn.join rules into (copyCandidate name n)) = true
  finite : ∀ taken : List PathBuf, taken.length < copyNumbers →
    (∀ path, existing path = true → path ∈ taken) →
      planTransfer rules host root fromPath into copy existing ≠ none

/-! ## What the plan is -/

theorem planTransfer_of_accepted {name : List Char}
    (h : Accepted rules host root fromPath into name) :
    planTransfer rules host root fromPath into copy existing =
      if copy then
        (copyName (fun candidate => existing (PathOn.join rules into candidate))
          name).map fun unique =>
          .ok (some (PathOn.join rules into unique))
      else if sameFolder rules host fromPath into then some (.ok none)
      else if existing (PathOn.join rules into name) then
        some (.error ("\"" ++ String.ofList name ++ "\" already exists in " ++ into ++ "."))
      else some (.ok (some (PathOn.join rules into name))) := by
  rw [planTransfer, h.notRoot, if_neg Bool.false_ne_true, h.inProject, if_neg (by decide),
    PathRules.transferAllowed, h.notItself, if_neg (by decide), h.named, Option.elim_some]

theorem planTransfer_of_refused (h : ¬ ∃ name, Accepted rules host root fromPath into name) :
    ∃ reason, planTransfer rules host root fromPath into copy existing = some (.error reason) := by
  rw [planTransfer]
  split
  · exact ⟨_, rfl⟩
  · next hroot =>
      split
      · exact ⟨_, rfl⟩
      · next hproject =>
          split
          · exact ⟨_, rfl⟩
          · next hitself =>
              cases hname : PathOn.fileName rules fromPath with
              | none => exact ⟨_, rfl⟩
              | some name =>
                  refine absurd ⟨name, ?_⟩ h
                  rw [PathRules.transferAllowed] at hitself
                  exact ⟨by simpa using hroot, by simpa using hproject, by simpa using hitself,
                    hname⟩

theorem accepted_of_destination
    (h : planTransfer rules host root fromPath into copy existing = some (.ok (some toPath))) :
    ∃ name, Accepted rules host root fromPath into name := by
  by_contra hrefused
  obtain ⟨reason, hreason⟩ := @planTransfer_of_refused _ _ _ _ _ copy existing hrefused
  rw [hreason] at h
  cases h

/-! ## Where the destination is -/

section

variable {name unique : List Char}

theorem key_ne_nil_of_isWithin (h : rules.isWithin host root into = true) :
    rules.key host into ≠ [] := (PathRules.isWithin_iff.mp h).2.1

theorem Accepted.joins (h : Accepted rules host root fromPath into name)
    (hfold : Segmental '/' (rules.fold host)) (hdrive : Driveless rules fromPath into) :
    Joins rules into name where
  plain := PathRules.plain_of_fileName h.named
  backslash := fun hwindows => PathRules.notMem_of_fileName h.named hwindows
  driveless := by
    rcases PathRules.drive_cases rules name with hnone | ⟨-, -, hwindows, -⟩
    · exact hnone
    · exact (hdrive hwindows).2 name h.named
  nonempty := by
    intro hnil
    refine key_ne_nil_of_isWithin h.inProject ?_
    rw [PathRules.key_eq_lead hfold, PathRules.lead, PathRules.segmentsOn, hnil]
    rfl
  bare := fun hwindows => (hdrive hwindows).1

theorem joins_copyCandidate (h : Joins rules into name) (n : Nat) :
    Joins rules into (copyCandidate name n) where
  plain := CopyName.plain_copyCandidate h.plain n
  backslash := fun hwindows =>
    CopyName.notMem_copyCandidate (h.backslash hwindows) (by decide) (by decide)
  driveless := CopyName.drive_copyCandidate h.plain.1 h.driveless n
  nonempty := h.nonempty
  bare := h.bare

theorem joins_of_firstFree (h : Joins rules into name) {taken : List Char → Bool}
    (hfree : CopyName.FirstFree taken name unique) : Joins rules into unique := by
  obtain ⟨-, rfl | ⟨-, n, -, -, rfl, -⟩⟩ := hfree
  · exact h
  · exact joins_copyCandidate h n

/-- Within a folder a name leads to what is within it. -/
theorem isWithin_join (hfold : Segmental '/' (rules.fold host)) (h : Joins rules into name)
    (hwithin : rules.isWithin host root into = true) :
    rules.isWithin host root (PathOn.join rules into name) = true := by
  obtain ⟨hroot, hinto, hkeys⟩ := PathRules.isWithin_iff.mp hwithin
  have hkey := h.key_join hfold hinto
  refine PathRules.isWithin_iff.mpr ⟨hroot, ?_, .inr ?_⟩
  · rw [hkey]
    exact List.append_ne_nil_of_right_ne_nil _ (hfold.ne_nil _ h.plain.1)
  · rw [hkey]
    rcases hkeys with heq | hfront
    · rw [heq]
      exact List.prefix_append _ _
    · exact (hfront.trans (PathRules.prefix_inside _)).trans (List.prefix_append _ _)

/-- What is around a name in a folder is around the folder, unless it is the name itself. -/
theorem isWithin_of_join (hfold : Segmental '/' (rules.fold host)) (h : Joins rules into name)
    (hinto : rules.key host into ≠ [])
    (hlast : (rules.key host fromPath).getLast? ≠ some '/')
    (hwithin : rules.isWithin host fromPath (PathOn.join rules into name) = true) :
    rules.isWithin host fromPath into = true ∨
      rules.same host fromPath (PathOn.join rules into name) = true := by
  obtain ⟨hfrom, -, heq | hfront⟩ := PathRules.isWithin_iff.mp hwithin
  · rw [PathRules.same, decide_eq_true_eq]
    exact .inr heq
  · left
    rw [h.key_join hfold hinto] at hfront
    rw [PathRules.inside_eq (rules.key host fromPath), if_neg hlast] at hfront
    have hfolder := Joined.prefix_of_notMem hfront (hfold.notMem _ h.plain.2.2.2)
    rw [PathRules.isWithin_iff, and_iff_right hfrom, and_iff_right hinto,
      PathRules.inside_eq (rules.key host fromPath), if_neg hlast]
    rw [PathRules.inside_eq (rules.key host into)] at hfolder
    split at hfolder
    · exact .inr hfolder
    · exact (List.prefix_concat_iff.mp hfolder).imp List.append_cancel_right id

/-- An item whose key is that of its name in a folder is in the folder. -/
theorem sameFolder_of_same (hfold : Segmental '/' (rules.fold host)) (h : Joins rules into name)
    (hinto : rules.key host into ≠ []) (hnamed : PathOn.fileName rules fromPath = some name)
    (hsame : rules.same host fromPath (PathOn.join rules into name) = true) :
    sameFolder rules host fromPath into = true := by
  rw [PathRules.same, decide_eq_true_eq, h.key_join hfold hinto] at hsame
  obtain ⟨folder, hfolder, ⟨hne, hkey⟩ | hslash⟩ := PathRules.key_of_fileName hfold hnamed
  · rw [hkey, List.append_cancel_right_eq] at hsame
    rw [sameFolder, hfolder, Option.any_some, PathRules.same, decide_eq_true_eq]
    exact PathRules.inside_key_inj hfold hne hinto hsame
  · rw [hsame, List.mem_append, not_or] at hslash
    obtain ⟨front, hfront, -⟩ := @PathRules.splitOn_inside_append [] (rules.key host into)
      List.not_mem_nil
    rw [hfront] at hslash
    exact absurd (List.mem_append_right front List.mem_cons_self) hslash.1

/-- Only the item itself is around a name in a folder that is not in the item. -/
theorem Accepted.same_of_isWithin (h : Accepted rules host root fromPath into name)
    {unique : List Char} (hfold : Segmental '/' (rules.fold host))
    (hjoins : Joins rules into unique)
    (hwithin : rules.isWithin host fromPath (PathOn.join rules into unique) = true) :
    rules.same host fromPath (PathOn.join rules into unique) = true := by
  have hlast := @PathRules.getLast?_key_of_fileName _ host hfold _ _ h.named
  refine (isWithin_of_join hfold hjoins (key_ne_nil_of_isWithin h.inProject) hlast
    hwithin).resolve_left fun hitself => ?_
  cases hitself.symm.trans h.notItself

/-- An item that is there is not around a free destination. -/
theorem isWithin_of_free (hfree : existing toPath = false)
    (houtside : rules.isWithin host fromPath toPath = true →
      copy = true ∧ rules.same host fromPath toPath = true)
    (hexisting : ∀ a b, rules.same host a b = true → existing a = existing b)
    (hsource : existing fromPath = true) : rules.isWithin host fromPath toPath = false := by
  by_contra hwithin
  rw [Bool.not_eq_false] at hwithin
  rw [← hexisting fromPath toPath (houtside hwithin).2, hsource] at hfree
  cases hfree

/-- What is planned as a destination is safe. -/
theorem safeDestination (hfold : Segmental '/' (rules.fold host))
    (hdrive : Driveless rules fromPath into)
    (h : planTransfer rules host root fromPath into copy existing = some (.ok (some toPath))) :
    SafeDestination rules host root fromPath into copy existing toPath := by
  obtain ⟨name, haccepted⟩ := accepted_of_destination h
  have hinto := key_ne_nil_of_isWithin haccepted.inProject
  have hjoins := haccepted.joins hfold hdrive
  rw [planTransfer_of_accepted haccepted] at h
  split at h
  · next hcopy =>
      obtain ⟨unique, hunique, hto⟩ := Option.map_eq_some_iff.mp h
      obtain rfl : PathOn.join rules into unique = toPath := by simpa using hto
      have hfree := CopyName.firstFree_of_copyName hunique
      have hjoins' := joins_of_firstFree hjoins hfree
      have houtside : rules.isWithin host fromPath (PathOn.join rules into unique) = true →
          copy = true ∧ rules.same host fromPath (PathOn.join rules into unique) = true :=
        fun hwithin => ⟨hcopy, haccepted.same_of_isWithin hfold hjoins' hwithin⟩
      refine ⟨hjoins'.parent_join, isWithin_join hfold hjoins' haccepted.inProject, hfree.1,
        houtside, isWithin_of_free hfree.1 houtside, ?_,
        fun _ => ⟨name, unique, haccepted.named, rfl, hfree⟩⟩
      intro hmove
      rw [hmove] at hcopy
      cases hcopy
  · next hmove =>
      split at h
      · cases h
      · next hfolder =>
          split at h
          · cases h
          · next hfree =>
              obtain rfl : PathOn.join rules into name = toPath := by simpa using h
              have hfree : existing (PathOn.join rules into name) = false := by simpa using hfree
              have houtside : rules.isWithin host fromPath (PathOn.join rules into name) = true →
                  copy = true ∧ rules.same host fromPath (PathOn.join rules into name) = true := by
                intro hwithin
                have hsame := haccepted.same_of_isWithin hfold hjoins hwithin
                exact absurd (sameFolder_of_same hfold hjoins hinto haccepted.named hsame) hfolder
              refine ⟨hjoins.parent_join, isWithin_join hfold hjoins haccepted.inProject, hfree,
                houtside, isWithin_of_free hfree houtside, fun _ => ?_,
                fun hcopy => absurd hcopy hmove⟩
              rw [hjoins.fileName_join, haccepted.named]

end

/-! ## Nothing to do, and running out of numbers -/

theorem nothing_iff : planTransfer rules host root fromPath into copy existing = some (.ok none) ↔
    copy = false ∧ sameFolder rules host fromPath into = true ∧
      ∃ name, Accepted rules host root fromPath into name := by
  by_cases haccepted : ∃ name, Accepted rules host root fromPath into name
  · obtain ⟨name, hname⟩ := haccepted
    rw [planTransfer_of_accepted hname]
    split
    · next hcopy =>
        refine iff_of_false (fun h => ?_) fun h => ?_
        · obtain ⟨unique, -, hto⟩ := Option.map_eq_some_iff.mp h
          cases hto
        · rw [hcopy] at h
          cases h.1
    · next hmove =>
        split
        · next hfolder => exact iff_of_true rfl ⟨by simpa using hmove, hfolder, name, hname⟩
        · next hfolder =>
            refine iff_of_false (fun h => ?_) fun h => hfolder h.2.1
            split at h <;> cases h
  · obtain ⟨reason, hreason⟩ := @planTransfer_of_refused _ _ _ _ _ copy existing haccepted
    refine iff_of_false (fun h => ?_) fun h => haccepted h.2.2
    rw [hreason] at h
    cases h

theorem taken_of_none
    (h : planTransfer rules host root fromPath into copy existing = none) :
    ∃ name, Accepted rules host root fromPath into name ∧ ∀ n, 1 ≤ n → n ≤ copyNumbers →
      existing (PathOn.join rules into (copyCandidate name n)) = true := by
  by_cases haccepted : ∃ name, Accepted rules host root fromPath into name
  · obtain ⟨name, hname⟩ := haccepted
    refine ⟨name, hname, ?_⟩
    rw [planTransfer_of_accepted hname] at h
    split at h
    · exact (CopyName.copyName_eq_none.mp (Option.map_eq_none_iff.mp h)).2
    · split at h
      · cases h
      · split at h <;> cases h
  · obtain ⟨reason, hreason⟩ := @planTransfer_of_refused _ _ _ _ _ copy existing haccepted
    rw [hreason] at h
    cases h

/-- Whatever is asked for, the plan is safe. -/
theorem planTransfer_safe (hnfc : Segmental '/' host.nfc) (hlower : Segmental '/' host.lowercase)
    (hdrive : Driveless rules fromPath into) (root : PathBuf) (copy : Bool)
    (existing : PathBuf → Bool) : SafePlan rules host root fromPath into copy existing where
  destination := fun _ h => safeDestination (PathRules.segmental_fold hnfc hlower) hdrive h
  nothing := nothing_iff
  ends := fun h => by
    obtain ⟨name, haccepted, hall⟩ := taken_of_none h
    exact ⟨name, haccepted.named, hall⟩
  finite := by
    intro taken hfew htaken h
    obtain ⟨name, haccepted, hall⟩ := taken_of_none h
    have hjoins := haccepted.joins (PathRules.segmental_fold hnfc hlower) hdrive
    have hinj : Function.Injective fun n => PathOn.join rules into (copyCandidate name n) := by
      intro n m heq
      have hunify := congrArg rules.unify heq
      dsimp only at hunify
      rw [(joins_copyCandidate hjoins n).unify_join, (joins_copyCandidate hjoins m).unify_join,
        List.append_cancel_left_eq] at hunify
      exact CopyName.copyCandidate_inj hunify
    obtain ⟨n, hle, hge, hfree⟩ := CopyName.exists_free hinj hfew
    exact hfree (htaken _ (hall n hle hge))

/-- A file copied into a folder of its name's spelling on Windows. -/
theorem planTransfer_safe_windows : SafePlan .windows
    ⟨fun path => path.startsWith "C:", id, List.map Char.toLower⟩ "C:\\Proj" "c:/proj/src/a.txt"
    "C:\\Proj\\Src" true fun path => path = "C:\\Proj\\Src\\a.txt" := by
  refine planTransfer_safe .id Path.segmental_toLower (fun _ => ⟨by decide, fun name h => ?_⟩) _ _ _
  have hname : PathOn.fileName .windows "c:/proj/src/a.txt" = some "a.txt".toList := by decide
  rw [hname, Option.some.injEq] at h
  rw [← h]
  decide

example : planTransfer .windows ⟨fun path => path.startsWith "C:", id, List.map Char.toLower⟩
    "C:\\Proj" "c:/proj/src/a.txt" "C:\\Proj\\Src" true
      (fun path => path = "C:\\Proj\\Src\\a.txt") =
      some (.ok (some "C:\\Proj\\Src\\a copy.txt")) := by rfl

/-- What is put into a bare drive is not in the drive's root. -/
example : planTransfer .windows ⟨fun path => path.startsWith "C:", id, List.map Char.toLower⟩
    "C:\\" "C:\\a.txt" "C:" true (fun _ => false) = some (.ok (some "C:a.txt")) ∧
    PathRules.windows.isWithin ⟨fun path => path.startsWith "C:", id, List.map Char.toLower⟩ "C:\\"
      "C:a.txt" = false := ⟨rfl, by decide⟩

/-- A move into the folder the item is in is refused where that is outside the project. -/
theorem refused_in_place : ¬ (planTransfer .linux ⟨fun path => path.startsWith "/", id, id⟩ "/p"
      "/q/a.txt" "/q" false (fun path => path = "/q/a.txt") = some (.ok none) ↔
    false = false ∧ sameFolder .linux ⟨fun path => path.startsWith "/", id, id⟩ "/q/a.txt" "/q" =
      true) := by
  intro h
  obtain ⟨-, -, name, haccepted⟩ := nothing_iff.mp (h.mpr ⟨rfl, by decide⟩)
  exact absurd haccepted.inProject (by decide)

end Transfers

end Throng
