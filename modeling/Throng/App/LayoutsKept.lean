import Throng.App.Launch
import Throng.Lib.Machine
import Throng.Lib.Sweep

/-!
# Layouts that could not be read

A stored layout that cannot be read is kept aside before a fresh one replaces it. Where the
store fails, nothing is kept, and the fresh layout is not marked to be saved; but the next
change of it marks it.
-/

namespace Throng

/-- The tables of the database that layouts are in. -/
structure LayoutDb where
  layouts : Std.ExtTreeMap ProjectId String
  quarantine : List (ProjectId × String × String)

namespace LayoutDb

variable {Value : Type} (serde : Serde String Value) (db : LayoutDb)

/-- The stored layout for a project. -/
def layout (project : ProjectId) : LayoutLoad :=
  match db.layouts[project]? with
  | none => .missing
  | some raw =>
      match Layout.fromJson serde raw with
      | .ok layout => .loaded layout
      | .error error => .unreadable raw error

/-- Store a project's layout. -/
def saveLayout (project : ProjectId) (doc : String) : LayoutDb :=
  { db with layouts := db.layouts.insert project doc }

/-- Keep an unreadable layout aside so replacing it loses nothing. -/
def quarantineLayout (project : ProjectId) (raw reason : String) : LayoutDb :=
  { db with quarantine := db.quarantine ++ [(project, raw, reason)] }

/-- Delete one project's layout. -/
def deleteProject (id : ProjectId) : LayoutDb := { db with layouts := db.layouts.erase id }

/-- A text that was stored for a project is in quarantine. -/
def Quarantined (project : ProjectId) (raw : String) : Prop :=
  ∃ reason, (project, raw, reason) ∈ db.quarantine

end LayoutDb

namespace LayoutsKept

/-- What came of the stored layout when a workspace was loaded. -/
inductive Origin
  /-- It is the workspace's layout, or there was none. -/
  | stored
  /-- It was unreadable, and is kept aside. -/
  | aside
  /-- It could not be read, or not be kept aside. -/
  | lost
deriving DecidableEq, Repr

/-- A loaded workspace. Its origin is kept for the record: nothing looks at it. -/
structure Workspace where
  layout : Layout
  dirtyAt : Option Nat
  origin : Origin

structure Session where
  db : LayoutDb
  /-- The projects and sub-workspaces there are. -/
  owners : List ProjectId
  workspaces : Std.ExtTreeMap ProjectId Workspace

/-- What stands outside: the JSON library, the layouts made for workspaces that have none
that can be read, and how an error is told. -/
structure Library (Value : Type) where
  serde : Serde String Value
  fresh : ProjectId → Layout
  reason : LayoutError → String

/-- How long a change waits to be saved, in milliseconds. -/
def saveDebounce : Nat := 500

variable {Value : Type} (lib : Library Value)

namespace Session

variable (s : Session)

def put (id : ProjectId) (ws : Workspace) : Session :=
  { s with workspaces := s.workspaces.insert id ws }

/-- Load a layout. `readFails` and `quarantineFails` say whether the store fails. -/
def loadWorkspace (id : ProjectId) (readFails quarantineFails : Bool) (now : Nat) : Session :=
  if id ∈ s.workspaces ∨ s.owners.contains id = false then s
  else if readFails then s.put id ⟨lib.fresh id, none, .lost⟩
  else
    match s.db.layout lib.serde id with
    | .missing => s.put id ⟨lib.fresh id, some now, .stored⟩
    | .loaded layout =>
        let (layout, orphans) := layout.pruneOrphans
        s.put id ⟨layout, if orphans.isEmpty then none else some now, .stored⟩
    | .unreadable raw error =>
        if quarantineFails then s.put id ⟨lib.fresh id, none, .lost⟩
        else
          { s.put id ⟨lib.fresh id, some now, .aside⟩ with
            db := s.db.quarantineLayout id raw (lib.reason error) }

/-- An action changes a loaded layout, and marks it. -/
def change (id : ProjectId) (layout : Layout) (now : Nat) : Session :=
  { s with
    workspaces := s.workspaces.modify id fun ws =>
      { ws with layout, dirtyAt := some (ws.dirtyAt.getD now) } }

/-- Save one layout that is due. -/
def flushOne (force : Bool) (now : Nat) (fails : Bool) (id : ProjectId) : Session :=
  match s.workspaces[id]? with
  | none => s
  | some ws =>
      match ws.dirtyAt with
      | none => s
      | some since =>
          if force = false ∧ now - since < saveDebounce then s
          else
            let layout := ws.layout.pruneOrphans.1
            match layout.check with
            | .error _ => s.put id { ws with layout, dirtyAt := none }
            | .ok () =>
                if fails then s.put id { ws with layout }
                else
                  { s.put id { layout, dirtyAt := none, origin := .stored } with
                    db := s.db.saveLayout id (layout.toJson lib.serde) }

def flushLayouts (force : Bool) (now : Nat) (fails : ProjectId → Bool) : Session :=
  s.workspaces.keys.foldl (fun s id => s.flushOne lib force now (fails id) id) s

/-- A sub-workspace is made, with a layout of its own. -/
def create (id : ProjectId) (layout : Layout) (now : Nat) : Session :=
  { s.put id ⟨layout, some now, .stored⟩ with owners := s.owners ++ [id] }

/-- A project or a sub-workspace goes. -/
def remove (id : ProjectId) (deleteFails : Bool) : Session :=
  { db := if deleteFails then s.db else s.db.deleteProject id
    owners := s.owners.erase id
    workspaces := s.workspaces.erase id }

end Session

/-! ## Runs -/

inductive Action
  | load (id : ProjectId) (readFails quarantineFails : Bool) (now : Nat)
  | change (id : ProjectId) (layout : Layout) (now : Nat)
  | flush (force : Bool) (now : Nat) (fails : ProjectId → Bool)
  | create (id : ProjectId) (layout : Layout) (now : Nat)
  | remove (id : ProjectId) (deleteFails : Bool)
  /-- Projects come. -/
  | own (id : ProjectId)
  /-- The app ends and starts again. -/
  | restart (owners : List ProjectId)

/-- The id of a new sub-workspace is a new one. -/
def fresh (s : Session) (id : ProjectId) : Bool :=
  !s.workspaces.contains id && !s.db.layouts.contains id

def step (s : Session) : Action → Option Session
  | .load id readFails quarantineFails now =>
      some (s.loadWorkspace lib id readFails quarantineFails now)
  | .change id layout now => some (s.change id layout now)
  | .flush force now fails => some (s.flushLayouts lib force now fails)
  | .create id layout now => if fresh s id then some (s.create id layout now) else none
  | .remove id deleteFails => some (s.remove id deleteFails)
  | .own id => some { s with owners := s.owners ++ [id] }
  | .restart owners => some { s with owners, workspaces := ∅ }

/-- The app at its start, on any database. -/
def machine : Machine Session Action where
  init s := s.workspaces = ∅
  step := step lib

/-- No layout is changed in place of one that is not kept. -/
def Untouched (s : Session) : Action → Prop
  | .change id _ _ => ∀ ws ∈ s.workspaces[id]?, ws.origin ≠ .lost
  | _ => True

instance : DecidableRel Untouched := fun s action =>
  match action with
  | .change id _ _ => inferInstanceAs (Decidable (∀ ws ∈ s.workspaces[id]?, ws.origin ≠ .lost))
  | .load _ _ _ _ | .flush _ _ _ | .create _ _ _ | .remove _ _ | .own _ | .restart _ =>
      isTrue trivial

/-- A stored text that is replaced, of a layout that could not be read or parsed when its
workspace was loaded, is in quarantine. -/
def KeptAside (s s' : Session) : Prop :=
  ∀ id raw doc ws, s.db.layouts[id]? = some raw → s'.db.layouts[id]? = some doc → doc ≠ raw →
    s.workspaces[id]? = some ws → ws.origin ≠ .stored → s.db.Quarantined id raw

/-! ## What is held of a workspace -/

/-- What is aside has its stored text in quarantine, and what is lost is not to be saved. -/
structure Safe (db : LayoutDb) (id : ProjectId) (ws : Workspace) : Prop where
  aside : ws.origin = .aside → ∀ raw, db.layouts[id]? = some raw → db.Quarantined id raw
  lost : ws.origin = .lost → ws.dirtyAt = none

def Inv (s : Session) : Prop := ∀ id ws, s.workspaces[id]? = some ws → Safe s.db id ws

theorem Safe.of_stored {db : LayoutDb} {id : ProjectId} {ws : Workspace}
    (h : ws.origin = .stored) : Safe db id ws :=
  ⟨fun haside => by simp [h] at haside, fun hlost => by simp [h] at hlost⟩

/-- Of another database with the same entry, where nothing has left the quarantine. -/
theorem Safe.of_le {db db' : LayoutDb} {id : ProjectId} {ws : Workspace} (h : Safe db id ws)
    (hentry : ∀ raw, db'.layouts[id]? = some raw → db.layouts[id]? = some raw)
    (hkept : ∀ kept ∈ db.quarantine, kept ∈ db'.quarantine) : Safe db' id ws := by
  refine ⟨fun haside raw hraw => ?_, h.lost⟩
  obtain ⟨reason, hmem⟩ := h.aside haside raw (hentry raw hraw)
  exact ⟨reason, hkept _ hmem⟩

theorem quarantined_quarantineLayout (db : LayoutDb) (id : ProjectId) (raw reason : String) :
    (db.quarantineLayout id raw reason).Quarantined id raw :=
  ⟨reason, List.mem_append_right _ (List.mem_singleton_self _)⟩

section steps

variable {s s' : Session} {id : ProjectId} {ws : Workspace}

/-- What holds of one workspace that is put and of the others holds of all. -/
theorem Inv.insert {db : LayoutDb} {owners : List ProjectId} (hws : Safe db id ws)
    (hothers : ∀ other held, other ≠ id → s.workspaces[other]? = some held → Safe db other held) :
    Inv ⟨db, owners, s.workspaces.insert id ws⟩ := by
  intro other held hheld
  rw [Std.ExtTreeMap.getElem?_insert] at hheld
  split_ifs at hheld with heq
  · rw [Std.LawfulEqCmp.compare_eq_iff_eq] at heq
    rw [← heq, ← Option.some.inj hheld]
    exact hws
  · refine hothers other held ?_ hheld
    rintro rfl
    exact heq (Std.ReflCmp.compare_self)

theorem Inv.put (h : Inv s) (hws : Safe s.db id ws) : Inv (s.put id ws) :=
  Inv.insert hws fun other held _ hheld => h other held hheld

theorem Inv.loadWorkspace (h : Inv s) (id : ProjectId) (readFails quarantineFails : Bool)
    (now : Nat) : Inv (s.loadWorkspace lib id readFails quarantineFails now) := by
  unfold Session.loadWorkspace
  split
  · exact h
  · split
    · exact h.put ⟨(fun h => nomatch h), fun _ => rfl⟩
    · split
      case h_1 => exact h.put (.of_stored rfl)
      case h_2 => exact h.put (.of_stored rfl)
      case h_3 raw error hload =>
        split
        · exact h.put ⟨(fun h => nomatch h), fun _ => rfl⟩
        · have hentry : s.db.layouts[id]? = some raw := by
            unfold LayoutDb.layout at hload
            split at hload
            · cases hload
            · rename_i stored hstored
              split at hload
              · cases hload
              · cases hload
                exact hstored
          refine Inv.insert ⟨fun _ raw' hraw' => ?_, fun h => nomatch h⟩ ?_
          · cases hentry.symm.trans hraw'
            exact quarantined_quarantineLayout _ _ _ _
          · intro other held _ hheld
            exact (h other held hheld).of_le (fun _ hraw => hraw) fun _ => List.mem_append_left _

/-- A layout that is changed is not a lost one. -/
theorem Inv.change (h : Inv s) (hok : ∀ ws ∈ s.workspaces[id]?, ws.origin ≠ .lost)
    (layout : Layout) (now : Nat) : Inv (s.change id layout now) := by
  intro other held hheld
  rw [Session.change, Std.ExtTreeMap.getElem?_modify] at hheld
  split_ifs at hheld with heq
  · rw [Std.LawfulEqCmp.compare_eq_iff_eq] at heq
    subst heq
    obtain ⟨ws, hws, rfl⟩ := Option.map_eq_some_iff.mp hheld
    exact ⟨(h _ ws hws).aside, fun hlost => absurd hlost (hok ws hws)⟩
  · exact h other held hheld

theorem Inv.flushOne (h : Inv s) (force : Bool) (now : Nat) (fails : Bool) (id : ProjectId) :
    Inv (s.flushOne lib force now fails id) := by
  unfold Session.flushOne
  split
  · exact h
  · rename_i ws hws
    split
    · exact h
    · rename_i since hsince
      split
      · exact h
      · dsimp only
        split
        · exact h.put ⟨(h id ws hws).aside, fun _ => rfl⟩
        · split
          · exact h.put ⟨(h id ws hws).aside, (h id ws hws).lost⟩
          · refine Inv.insert (.of_stored rfl) fun other held hne hheld => ?_
            refine (h other held hheld).of_le (fun raw hraw => ?_) fun _ hkept => hkept
            rw [LayoutDb.saveLayout, Std.ExtTreeMap.getElem?_insert, if_neg] at hraw
            · exact hraw
            · rw [Std.LawfulEqCmp.compare_eq_iff_eq]
              exact hne.symm

theorem Inv.flushLayouts (h : Inv s) (force : Bool) (now : Nat) (fails : ProjectId → Bool) :
    Inv (s.flushLayouts lib force now fails) :=
  List.foldl_keeps (fun _ id _ h => h.flushOne lib force now (fails id) id) h

theorem Inv.remove (h : Inv s) (id : ProjectId) (deleteFails : Bool) :
    Inv (s.remove id deleteFails) := by
  intro other held hheld
  rw [Session.remove, Std.ExtTreeMap.getElem?_erase] at hheld
  split_ifs at hheld
  refine (h other held hheld).of_le (fun raw hraw => ?_) fun kept hkept => ?_
  · cases deleteFails with
    | true => exact hraw
    | false =>
        rw [Session.remove, LayoutDb.deleteProject, if_neg Bool.false_ne_true,
          Std.ExtTreeMap.getElem?_erase] at hraw
        split_ifs at hraw
        exact hraw
  · cases deleteFails with
    | true => exact hkept
    | false => exact hkept

end steps

/-! ## Steps and runs -/

section runs

variable {s s' : Session} {id : ProjectId} {ws : Workspace} {action : Action}

theorem Inv.step (h : Inv s) (hok : Untouched s action)
    (hstep : LayoutsKept.step lib s action = some s') : Inv s' := by
  cases action with
  | load id readFails quarantineFails now =>
      cases hstep
      exact h.loadWorkspace lib id readFails quarantineFails now
  | change id layout now =>
      cases hstep
      exact h.change hok layout now
  | flush force now fails =>
      cases hstep
      exact h.flushLayouts lib force now fails
  | create id layout now =>
      rw [LayoutsKept.step] at hstep
      split_ifs at hstep
      cases hstep
      exact h.put (.of_stored rfl)
  | remove id deleteFails =>
      cases hstep
      exact h.remove id deleteFails
  | own id =>
      cases hstep
      exact h
  | restart owners =>
      cases hstep
      intro id ws hws
      simp at hws

theorem Inv.of_reach (h : (machine lib).Reach Untouched s) : Inv s := by
  refine h.invariant (fun s hinit id ws hws => ?_) fun s action s' hinv hok hstep =>
    hinv.step lib hok hstep
  rw [show s.workspaces = ∅ from hinit] at hws
  simp at hws

/-- Only a flush changes an entry. -/
theorem entry_of_step (hstep : step lib s action = some s')
    (hflush : ∀ force now fails, action ≠ .flush force now fails) {doc : String}
    (hdoc : s'.db.layouts[id]? = some doc) : s.db.layouts[id]? = some doc := by
  cases action with
  | load other readFails quarantineFails now =>
      cases hstep
      rw [Session.loadWorkspace.eq_def] at hdoc
      split at hdoc
      · exact hdoc
      · split at hdoc
        · exact hdoc
        · split at hdoc
          · exact hdoc
          · exact hdoc
          · split at hdoc
            · exact hdoc
            · exact hdoc
  | change other layout now =>
      cases hstep
      exact hdoc
  | flush force now fails => exact absurd rfl (hflush force now fails)
  | create other layout now =>
      rw [step] at hstep
      split_ifs at hstep
      cases hstep
      exact hdoc
  | remove other deleteFails =>
      cases hstep
      cases deleteFails with
      | true => exact hdoc
      | false =>
          rw [Session.remove, LayoutDb.deleteProject, if_neg Bool.false_ne_true,
            Std.ExtTreeMap.getElem?_erase] at hdoc
          split_ifs at hdoc
          exact hdoc
  | own other =>
      cases hstep
      exact hdoc
  | restart owners =>
      cases hstep
      exact hdoc

/-- A flush keeps the entry of a workspace that is not to be saved. -/
theorem entry_flushLayouts {raw : Option String} (force : Bool) (now : Nat)
    (fails : ProjectId → Bool) (hws : s.workspaces[id]? = some ws) (hclean : ws.dirtyAt = none)
    (hraw : s.db.layouts[id]? = raw) :
    (s.flushLayouts lib force now fails).db.layouts[id]? = raw := by
  let Kept (t : Session) := t.workspaces[id]? = some ws ∧ t.db.layouts[id]? = raw
  suffices h : Kept (s.flushLayouts lib force now fails) from h.2
  refine List.foldl_keeps (P := Kept) (fun t other _ ht => ?_) ⟨hws, hraw⟩
  rw [Session.flushOne.eq_def]
  by_cases heq : other = id
  · rw [heq, ht.1]
    dsimp only
    rw [hclean]
    exact ht
  · have hne : ¬ compare other id = .eq := by rwa [Std.LawfulEqCmp.compare_eq_iff_eq]
    have hput : ∀ held, (t.put other held).workspaces[id]? = some ws := fun held => by
      rw [Session.put, Std.ExtTreeMap.getElem?_insert, if_neg hne]
      exact ht.1
    split
    · exact ht
    · split
      · exact ht
      · split
        · exact ht
        · dsimp only
          split
          · exact ⟨hput _, ht.2⟩
          · split
            · exact ⟨hput _, ht.2⟩
            · refine ⟨hput _, ?_⟩
              rw [LayoutDb.saveLayout, Std.ExtTreeMap.getElem?_insert, if_neg hne]
              exact ht.2

theorem kept_of_inv (h : Inv s) (hstep : step lib s action = some s') : KeptAside s s' := by
  intro id raw doc ws hraw hdoc hne hws horigin
  cases horig : ws.origin with
  | stored => exact absurd horig horigin
  | aside => exact (h id ws hws).aside horig raw hraw
  | lost =>
      -- The workspace is not to be saved, so the entry is the one it was.
      have hsame : s'.db.layouts[id]? = some doc → s.db.layouts[id]? = some doc := fun hdoc => by
        by_cases hflush : ∃ force now fails, action = .flush force now fails
        · obtain ⟨force, now, fails, rfl⟩ := hflush
          cases hstep
          exact (entry_flushLayouts lib force now fails hws
            ((h id ws hws).lost horig) rfl).symm.trans hdoc
        · exact entry_of_step lib hstep (fun force now fails heq => hflush ⟨force, now, fails, heq⟩)
            hdoc
      exact absurd (Option.some.inj ((hsame hdoc).symm.trans hraw)) hne

end runs

/-- As long as no layout is changed in place of one that could be neither read nor kept
aside, no stored text of an unreadable layout is replaced that is not in quarantine. -/
theorem kept_of_untouched {s s' : Session} {action : Action}
    (h : (machine lib).Taken Untouched s action s') : KeptAside s s' :=
  kept_of_inv lib (.of_reach lib h.reach) h.step

/-- One project, and a library that reads no text. -/
def unreadableLibrary : Library Empty where
  serde := ⟨fun _ => .error "expected value", fun _ => none, fun _ => .error "", fun _ => "fresh"⟩
  fresh id := (Layout.newDefault id ⟨1⟩ ⟨1⟩).getD ⟨layoutSchemaVersion, [], none, ∅, []⟩
  reason _ := "expected value"

def unreadableStart : Session :=
  ⟨⟨(∅ : Std.ExtTreeMap ProjectId String).insert ⟨1⟩ "[", []⟩, [⟨1⟩], ∅⟩

/-- An unreadable layout is kept aside, and a fresh one replaces it. -/
theorem kept_of_untouched_aside :
    ∃ s s', KeptAside s s' ∧
      (s.db.layouts[(⟨1⟩ : ProjectId)]? = some "[" ∧
        s'.db.layouts[(⟨1⟩ : ProjectId)]? = some "fresh" ∧
        s.db.quarantine = [(⟨1⟩, "[", "expected value")]) := by
  obtain ⟨s, s', htaken, hs⟩ := Machine.Taken.exists_of_exec
    (.init rfl : (machine unreadableLibrary).Reach Untouched unreadableStart)
    [.load ⟨1⟩ false false 0] (.flush true 1 fun _ => false)
    (fun s s' => decide (s.db.layouts[(⟨1⟩ : ProjectId)]? = some "[" ∧
      s'.db.layouts[(⟨1⟩ : ProjectId)]? = some "fresh" ∧
      s.db.quarantine = [(⟨1⟩, "[", "expected value")]))
    (by decide +kernel)
  exact ⟨s, s', kept_of_untouched _ htaken, of_decide_eq_true hs⟩

/-- A layout that could not be read, as the store failed, is replaced once it is changed. -/
theorem not_keptAside :
    ¬ ∀ (Value : Type) (lib : Library Value) (s s' : Session) (action : Action),
      (machine lib).Taken Machine.anyStep s action s' → KeptAside s s' := by
  intro h
  obtain ⟨s, s', htaken, hs⟩ := Machine.Taken.exists_of_exec
    (.init rfl : (machine unreadableLibrary).Reach Machine.anyStep unreadableStart)
    [.load ⟨1⟩ true false 0, .change ⟨1⟩ (unreadableLibrary.fresh ⟨1⟩) 1]
    (.flush true 2 fun _ => false)
    (fun s s' => decide ((s.db.layouts[(⟨1⟩ : ProjectId)]? = some "[" ∧
      s'.db.layouts[(⟨1⟩ : ProjectId)]? = some "fresh") ∧
      (s.workspaces[(⟨1⟩ : ProjectId)]?).map Workspace.origin = some .lost ∧ s.db.quarantine = []))
    (by decide +kernel)
  obtain ⟨⟨hraw, hdoc⟩, hws, hquarantine⟩ := of_decide_eq_true hs
  obtain ⟨ws, hws, horigin⟩ := Option.map_eq_some_iff.mp hws
  obtain ⟨reason, hmem⟩ := h _ _ _ _ _ htaken _ _ _ ws hraw hdoc (by decide) hws (by simp [horigin])
  rw [hquarantine] at hmem
  cases hmem

end LayoutsKept

end Throng
