import Throng.Core.SplitTree

/-!
# The order of a split tree

The leaves of a tree in layout order say all that a user sees of it: which panels come one
after the other, which of them are stacked, and which one each stack shows. Inserting
touches the anchor's leaf or puts a leaf beside it; removing touches the leaf of the panel,
or takes it away where it held nothing else.
-/

namespace Throng

namespace SplitTree

/-- The panels of a leaf and the index of the one it shows. -/
structure Leaf where
  panels : List PanelId
  active : Nat
deriving DecidableEq

namespace Leaf

/-- The panel on show; none if the index is past the end. -/
def shows (l : Leaf) : Option PanelId := l.panels[l.active]?

/-- The leaf with its index in range. -/
def clamped (l : Leaf) : Leaf :=
  { l with active := if l.active ≥ l.panels.length then l.panels.length - 1 else l.active }

theorem shows_clamped {l : Leaf} {p : PanelId} (h : l.shows = some p) :
    l.clamped.shows = some p := by
  have hactive : ¬ l.active ≥ l.panels.length :=
    Nat.not_le.mpr (List.getElem?_eq_some_iff.mp h).1
  rw [clamped, if_neg hactive]
  exact h

end Leaf

/-- The leaves, in layout order. -/
def leaves : SplitTree → List Leaf
  | .leaf panels active => [⟨panels, active⟩]
  | .split _ _ first second => first.leaves ++ second.leaves

theorem panels_eq_flatMap (t : SplitTree) : t.panels = t.leaves.flatMap Leaf.panels := by
  induction t with
  | leaf ps active => simp [panels, leaves]
  | split axis fraction first second ihf ihs =>
      rw [panels, leaves, List.flatMap_append, ihf, ihs]

/-! ## The leaves of a normalized tree -/

/-- What normalizing leaves of the leaves. -/
def kept (ls : List Leaf) : List Leaf := (ls.filter fun l => !l.panels.isEmpty).map Leaf.clamped

theorem kept_append (ls more : List Leaf) : kept (ls ++ more) = kept ls ++ kept more := by
  rw [kept, List.filter_append, List.map_append]
  rfl

theorem kept_eq_nil {t : SplitTree} (h : t.panels = []) : kept t.leaves = [] := by
  rw [kept, List.map_eq_nil_iff, List.filter_eq_nil_iff]
  intro l hl
  rw [panels_eq_flatMap, List.flatMap_eq_nil_iff] at h
  simp [h l hl]

theorem kept_of_forall {ls : List Leaf} (h : ∀ l ∈ ls, l.panels ≠ []) :
    kept ls = ls.map Leaf.clamped := by
  rw [kept, List.filter_eq_self.mpr]
  intro l hl
  simp [h l hl]

theorem isEmpty_normalize_iff (t : SplitTree) : t.normalize.isEmpty = true ↔ t.panels = [] := by
  constructor
  · intro h
    rw [← panels_normalize]
    exact panels_of_isEmpty h
  · intro h
    refine (isEmpty_or_proper_normalize t).resolve_right fun hproper => ?_
    exact hproper.panels_ne_nil ((panels_normalize t).trans h)

theorem leaves_normalize {t : SplitTree} (h : t.panels ≠ []) :
    t.normalize.leaves = kept t.leaves := by
  induction t with
  | leaf ps active =>
      have hfilter : kept [⟨ps, active⟩] = [Leaf.clamped ⟨ps, active⟩] :=
        kept_of_forall fun l hl => by
          rw [List.mem_singleton.mp hl]
          exact h
      rw [normalize, leaves, leaves, hfilter, Leaf.clamped]
  | split axis fraction first second ihf ihs =>
      rw [leaves, kept_append, normalize, collapse]
      by_cases hfirst : first.panels = []
      · have hsecond : second.panels ≠ [] := by
          intro hsecond
          exact h (by rw [panels, hfirst, hsecond, List.append_nil])
        rw [if_pos ((isEmpty_normalize_iff first).mpr hfirst), kept_eq_nil hfirst,
          List.nil_append, ihs hsecond]
      · rw [if_neg fun hempty => hfirst ((isEmpty_normalize_iff first).mp hempty), ← ihf hfirst]
        by_cases hsecond : second.panels = []
        · rw [if_pos ((isEmpty_normalize_iff second).mpr hsecond), kept_eq_nil hsecond,
            List.append_nil]
        · rw [if_neg fun hempty => hsecond ((isEmpty_normalize_iff second).mp hempty), leaves,
            ihs hsecond]

/-! ## Removing -/

theorem removeInner_of_notMem {t : SplitTree} {p : PanelId} (h : p ∉ t.panels) :
    (t.removeInner p).1 = t := by
  induction t with
  | leaf ps active =>
      have hnone : ps.idxOf? p = none := List.idxOf?_eq_none_iff.mpr h
      rw [removeInner, hnone]
  | split axis fraction first second ihf ihs =>
      rw [panels, List.mem_append, not_or] at h
      have hfirst : ¬ (first.removeInner p).2 = true := fun hf =>
        h.1 ((removeInner_found _ _).mp hf)
      rw [removeInner, if_neg hfirst, ihf h.1, ihs h.2]

/-- The leaf `rest` is `l` without the panel, and still shows what `l` shows besides. -/
structure Without (p : PanelId) (l rest : Leaf) : Prop where
  panels : rest.panels = l.panels.erase p
  shows : ∀ q, q ≠ p → l.shows = some q → rest.shows = some q

theorem exists_without {ps : List PanelId} {active : Nat} {p : PanelId} (h : p ∈ ps) :
    ∃ rest, Without p ⟨ps, active⟩ rest ∧ ((leaf ps active).removeInner p).1.leaves = [rest] := by
  have hremove : ∃ active', ((leaf ps active).removeInner p).1 = leaf (ps.erase p) active' := by
    cases hi : ps.idxOf? p with
    | none => exact absurd h (List.idxOf?_eq_none_iff.mp hi)
    | some i =>
        have hidx : ps.idxOf p = i := by rw [List.idxOf_eq_getD_idxOf?, hi, Option.getD_some]
        rw [removeInner, hi, ← List.eraseIdx_idxOf_eq_erase, hidx]
        exact ⟨_, rfl⟩
  obtain ⟨active', hactive⟩ := hremove
  refine ⟨⟨ps.erase p, active'⟩, ⟨rfl, fun q hne hq => ?_⟩, by rw [hactive, leaves]⟩
  have hshown : q ∈ ((leaf ps active).removeInner p).1.shown :=
    mem_shown_removeInner (Option.mem_toList.mpr hq) hne
  rw [hactive] at hshown
  exact Option.mem_toList.mp hshown

/-- Only the leaf that holds the panel is touched. -/
theorem leaves_removeInner {t : SplitTree} {p : PanelId} (h : p ∈ t.panels) :
    ∃ before l after rest, t.leaves = before ++ l :: after ∧ p ∈ l.panels ∧ Without p l rest ∧
      (t.removeInner p).1.leaves = before ++ rest :: after := by
  induction t with
  | leaf ps active =>
      obtain ⟨rest, hrest, hleaves⟩ := @exists_without _ active _ (show p ∈ ps from h)
      exact ⟨[], ⟨ps, active⟩, [], rest, rfl, h, hrest, hleaves⟩
  | split axis fraction first second ihf ihs =>
      have hfound := removeInner_found first p
      rw [removeInner]
      split
      · next hin =>
          obtain ⟨before, l, after, rest, hleaves, hl, hrest, hremove⟩ := ihf (hfound.mp hin)
          refine ⟨before, l, after ++ second.leaves, rest, ?_, hl, hrest, ?_⟩
          · rw [leaves, hleaves, List.append_assoc, List.cons_append]
          · rw [leaves, hremove, List.append_assoc, List.cons_append]
      · next hin =>
          have hfirst : p ∉ first.panels := fun hmem => hin (hfound.mpr hmem)
          obtain ⟨before, l, after, rest, hleaves, hl, hrest, hremove⟩ :=
            ihs ((List.mem_append.mp h).resolve_left hfirst)
          refine ⟨first.leaves ++ before, l, after, rest, ?_, hl, hrest, ?_⟩
          · rw [leaves, hleaves, List.append_assoc]
          · rw [leaves, removeInner_of_notMem hfirst, hremove, List.append_assoc]

/-! ## Inserting -/

section insert

variable {t : SplitTree} {anchor new : PanelId} {placement : Placement}

/-- What stands in the place of the anchor's leaf: the new panel stacked right after the
anchor and on show, or a leaf of its own before or after. -/
inductive Placed (anchor new : PanelId) (l : Leaf) : Placement → List Leaf → Prop
  | stack {before after : List PanelId} (h : l.panels = before ++ anchor :: after) :
      Placed anchor new l .stack [⟨before ++ anchor :: new :: after, before.length + 1⟩]
  | right : Placed anchor new l .right [l, ⟨[new], 0⟩]
  | below : Placed anchor new l .below [l, ⟨[new], 0⟩]
  | left : Placed anchor new l .left [⟨[new], 0⟩, l]
  | above : Placed anchor new l .above [⟨[new], 0⟩, l]

/-- A panel in the list stands between two stretches, and not in the first. -/
theorem exists_append_of_idxOf? {ps : List PanelId} {i : Nat} (h : ps.idxOf? anchor = some i) :
    ∃ before after, ps = before ++ anchor :: after ∧ before.length = i ∧ anchor ∉ before := by
  obtain ⟨hlt, hget, hmin⟩ := List.idxOf?_eq_some_iff.mp h
  refine ⟨ps.take i, ps.drop (i + 1), ?_, List.length_take_of_le (Nat.le_of_lt hlt), ?_⟩
  · rw [← hget, ← List.drop_eq_getElem_cons hlt, List.take_append_drop]
  · intro hmem
    obtain ⟨j, hj, heq⟩ := List.mem_take_iff_getElem.mp hmem
    exact hmin j (by omega) (by simpa using heq)

theorem insertIdx_after (before after : List PanelId) (anchor new : PanelId) :
    (before ++ anchor :: after).insertIdx (before.length + 1) new =
      before ++ anchor :: new :: after := by
  induction before with
  | nil => rfl
  | cons p before ih =>
      rw [List.cons_append, List.length_cons, List.insertIdx_succ_cons, ih]
      rfl

/-- Only the anchor's leaf is touched. -/
theorem leaves_insert (h : anchor ∈ t.panels) : ∃ before l after placed,
    t.leaves = before ++ l :: after ∧ anchor ∈ l.panels ∧ Placed anchor new l placement placed ∧
      (t.insert anchor new placement).1.leaves = before ++ placed ++ after := by
  induction t with
  | leaf ps active =>
      rw [panels] at h
      cases hi : ps.idxOf? anchor with
      | none => exact absurd h (List.idxOf?_eq_none_iff.mp hi)
      | some i =>
          obtain ⟨before, after, rfl, rfl, -⟩ := exists_append_of_idxOf? hi
          have hinsert := insertIdx_after before after anchor new
          rw [insert_leaf, hi]
          refine ⟨[], ⟨before ++ anchor :: after, active⟩, [], ?_⟩
          cases placement with
          | stack => exact ⟨_, rfl, h, .stack rfl, by simp [leaves, hinsert]⟩
          | right => exact ⟨_, rfl, h, .right, by simp [leaves, side, leafOf]⟩
          | below => exact ⟨_, rfl, h, .below, by simp [leaves, side, leafOf]⟩
          | left => exact ⟨_, rfl, h, .left, by simp [leaves, side, leafOf]⟩
          | above => exact ⟨_, rfl, h, .above, by simp [leaves, side, leafOf]⟩
  | split axis fraction first second ihf ihs =>
      rw [insert_split]
      split
      · next hfound =>
          obtain ⟨before, l, after, placed, hleaves, hl, hplaced, hinsert⟩ :=
            ihf (insert_found.mp hfound)
          refine ⟨before, l, after ++ second.leaves, placed, ?_, hl, hplaced, ?_⟩
          · rw [leaves, hleaves, List.append_assoc, List.cons_append]
          · rw [leaves, hinsert, List.append_assoc]
      · next hfound =>
          have hfirst : anchor ∉ first.panels := fun hin => hfound (insert_found.mpr hin)
          obtain ⟨before, l, after, placed, hleaves, hl, hplaced, hinsert⟩ :=
            ihs ((List.mem_append.mp h).resolve_left hfirst)
          refine ⟨first.leaves ++ before, l, after, placed, ?_, hl, hplaced, ?_⟩
          · rw [leaves, hleaves, List.append_assoc]
          · rw [leaves, insert_of_notMem hfirst, hinsert, List.append_assoc, List.append_assoc,
              List.append_assoc]

/-- Taking out what was put in beside a leaf leaves the tree normalized. -/
theorem remove_insert (h : anchor ∈ t.panels) (hnew : new ∉ t.panels)
    (hplacement : placement ≠ .stack) :
    ((t.insert anchor new placement).1.remove new).1 = t.normalize := by
  rw [remove]
  dsimp only
  induction t with
  | leaf ps active =>
      rw [panels] at h hnew
      have hne : ps ≠ [] := List.ne_nil_of_mem h
      cases hi : ps.idxOf? anchor with
      | none => exact absurd h (List.idxOf?_eq_none_iff.mp hi)
      | some i =>
          have hone : removeInner (leafOf new) new = (.leaf [] 0, true) := by
            simp [removeInner, leafOf, List.idxOf?]
          have hother : removeInner (.leaf ps active) new = (.leaf ps active, false) := by
            rw [removeInner, List.idxOf?_eq_none_iff.mpr hnew]
          have hkept : (normalize (.leaf ps active)).isEmpty = false := by
            rw [Bool.eq_false_iff, ne_eq, isEmpty_normalize_iff]
            exact hne
          have hgone : (normalize (.leaf [] 0)).isEmpty = true := rfl
          rw [insert_leaf, hi]
          dsimp only
          rw [if_neg hplacement]
          split
          · rw [removeInner, hone, if_pos rfl]
            dsimp only
            rw [normalize.eq_2, collapse, if_pos hgone]
          · rw [removeInner, hother, hone, if_neg Bool.false_ne_true]
            dsimp only
            rw [normalize.eq_2, collapse, if_neg (by rw [hkept]; exact Bool.false_ne_true),
              if_pos hgone]
  | split axis fraction first second ihf ihs =>
      rw [panels, List.mem_append, not_or] at hnew
      rw [insert_split]
      split
      · next hfound =>
          have hin := insert_found.mp hfound
          have hremoved : ((first.insert anchor new placement).1.removeInner new).2 = true := by
            rw [removeInner_found, (panels_insert hin).mem_iff]
            exact List.mem_cons_self
          rw [removeInner, if_pos hremoved, normalize, ihf hin hnew.1, normalize]
      · next hfound =>
          have hfirst : anchor ∉ first.panels := fun hin => hfound (insert_found.mpr hin)
          have hin := (List.mem_append.mp h).resolve_left hfirst
          have hnot : ¬ (first.removeInner new).2 = true := by
            rw [removeInner_found]
            exact hnew.1
          rw [insert_of_notMem hfirst, removeInner, if_neg hnot, normalize,
            removeInner_of_notMem hnew.1, ihs hin hnew.2, normalize]

end insert

/-! ## Well-formed trees -/

/-- No leaf is empty and no panel stands in the tree twice. -/
structure WellFormed (t : SplitTree) : Prop where
  leaves_ne_nil : ∀ l ∈ t.leaves, l.panels ≠ []
  nodup : t.panels.Nodup

/-- What inserting does: the new panel is in its place and on show in its leaf, the other
leaves are the same, and so is the order of the other panels. -/
structure Inserted (t : SplitTree) (anchor new : PanelId) (placement : Placement)
    (t' : SplitTree) : Prop where
  placed : ∃ before l after placed, t.leaves = before ++ l :: after ∧ anchor ∈ l.panels ∧
    Placed anchor new l placement placed ∧ t'.leaves = before ++ placed ++ after
  shown : ∃ l ∈ t'.leaves, l.shows = some new
  others : t'.panels.erase new = t.panels

/-- What removing does: the order is that without the panel, the leaf of the panel has lost
it or is gone, the others show what they showed, and the tree is proper. -/
structure Removed (t : SplitTree) (p : PanelId) (t' : SplitTree) : Prop where
  panels : t'.panels = t.panels.erase p
  leaves : ∃ before l after rest, t.leaves = before ++ l :: after ∧ p ∈ l.panels ∧
    Without p l rest ∧
      t'.leaves = before.map Leaf.clamped ++ kept [rest] ++ after.map Leaf.clamped
  shows : ∀ l ∈ t.leaves, p ∉ l.panels → ∃ l' ∈ t'.leaves, l'.panels = l.panels ∧
    ∀ q, l.shows = some q → l'.shows = some q
  proper : t'.Proper

theorem Placed.shown {anchor new : PanelId} {l : Leaf} {placement : Placement}
    {placed : List Leaf} (h : Placed anchor new l placement placed) :
    ∃ l' ∈ placed, l'.shows = some new := by
  cases h with
  | @stack before after _ =>
      refine ⟨_, List.mem_singleton_self _, ?_⟩
      simp [Leaf.shows]
  | right => exact ⟨⟨[new], 0⟩, by simp, rfl⟩
  | below => exact ⟨⟨[new], 0⟩, by simp, rfl⟩
  | left => exact ⟨⟨[new], 0⟩, by simp, rfl⟩
  | above => exact ⟨⟨[new], 0⟩, by simp, rfl⟩

theorem Placed.panels {anchor new : PanelId} {l : Leaf} {placement : Placement}
    {placed : List Leaf} (h : Placed anchor new l placement placed) (hnew : new ∉ l.panels) :
    (placed.flatMap Leaf.panels).erase new = l.panels := by
  cases h with
  | @stack before after hl =>
      rw [hl, List.mem_append, List.mem_cons, not_or, not_or] at hnew
      rw [hl, List.flatMap_singleton, List.erase_append_right _ hnew.1,
        List.erase_cons_tail (by simpa using Ne.symm hnew.2.1), List.erase_cons_head]
  | right => simp [List.erase_append_right _ hnew]
  | below => simp [List.erase_append_right _ hnew]
  | left => simp
  | above => simp

theorem inserted {t : SplitTree} {anchor new : PanelId} (placement : Placement)
    (h : anchor ∈ t.panels) (hnew : new ∉ t.panels) :
    Inserted t anchor new placement (t.insert anchor new placement).1 := by
  obtain ⟨before, l, after, placed, hleaves, hl, hplaced, hinsert⟩ :=
    @leaves_insert _ _ new placement h
  refine ⟨⟨before, l, after, placed, hleaves, hl, hplaced, hinsert⟩, ?_, ?_⟩
  · obtain ⟨l', hl', hshows⟩ := hplaced.shown
    refine ⟨l', ?_, hshows⟩
    rw [hinsert]
    simp [hl']
  · rw [panels_eq_flatMap, hleaves, List.flatMap_append, List.flatMap_cons, List.mem_append,
      List.mem_append, not_or, not_or] at hnew
    rw [panels_eq_flatMap, panels_eq_flatMap, hleaves, hinsert, List.flatMap_append,
      List.flatMap_append, List.append_assoc, List.erase_append_right _ hnew.1,
      List.flatMap_append, List.flatMap_cons]
    have hmem : new ∈ placed.flatMap Leaf.panels := by
      obtain ⟨l', hl', hshows⟩ := hplaced.shown
      exact List.mem_flatMap.mpr ⟨l', hl', List.mem_of_getElem? hshows⟩
    rw [List.erase_append_left _ hmem, hplaced.panels hnew.2.1]

theorem removed {t : SplitTree} {p : PanelId} (hwf : t.WellFormed) (h : p ∈ t.panels)
    (hothers : ∃ q ∈ t.panels, q ≠ p) : Removed t p (t.remove p).1 := by
  have hpanels : (t.remove p).1.panels = t.panels.erase p := panels_remove t p
  have hne : t.panels.erase p ≠ [] := by
    obtain ⟨q, hq, hqp⟩ := hothers
    exact List.ne_nil_of_mem ((List.mem_erase_of_ne hqp).mpr hq)
  obtain ⟨before, l, after, rest, hleaves, hl, hrest, hremove⟩ := leaves_removeInner h
  have hkept (ls : List Leaf) (hsub : ls ⊆ t.leaves) : kept ls = ls.map Leaf.clamped :=
    kept_of_forall fun l hl => hwf.leaves_ne_nil l (hsub hl)
  have hnormal : (t.remove p).1.leaves =
      before.map Leaf.clamped ++ kept [rest] ++ after.map Leaf.clamped := by
    have hinner : (t.removeInner p).1.panels ≠ [] := by rwa [panels_removeInner]
    rw [remove, leaves_normalize hinner, hremove, kept_append, ← List.singleton_append, kept_append,
      hkept before (by rw [hleaves]; exact List.subset_append_left _ _),
      hkept after (by
        rw [hleaves]
        exact fun l hl => List.mem_append_right _ (List.mem_cons_of_mem _ hl)),
      List.append_assoc]
  refine ⟨hpanels, ⟨before, l, after, rest, hleaves, hl, hrest, hnormal⟩, ?_,
    proper_remove (by rwa [hpanels])⟩
  intro other hother hnot
  refine ⟨other.clamped, ?_, rfl, fun q => Leaf.shows_clamped⟩
  rw [hleaves, List.mem_append, List.mem_cons] at hother
  rw [hnormal]
  rcases hother with hmem | rfl | hmem
  · exact List.mem_append_left _ (List.mem_append_left _ (List.mem_map_of_mem hmem))
  · exact absurd hl hnot
  · exact List.mem_append_right _ (List.mem_map_of_mem hmem)

/-- Inserting puts the panel where the placement says, removing takes it out, both leave all
else as it was, and a panel that was inserted beside its anchor leaves no trace. -/
theorem split_order (t : SplitTree) (hwf : t.WellFormed) (anchor new : PanelId)
    (hanchor : anchor ∈ t.panels) (hnew : new ∉ t.panels) :
    (∀ placement, Inserted t anchor new placement (t.insert anchor new placement).1) ∧
      (∀ p ∈ t.panels, (∃ q ∈ t.panels, q ≠ p) → Removed t p (t.remove p).1) ∧
        ∀ placement, placement ≠ .stack →
          ((t.insert anchor new placement).1.remove new).1 = t.normalize ∧
            (t.Proper → t.normalize = t) := by
  exact ⟨fun placement => inserted placement hanchor hnew,
    fun p hp hothers => removed hwf hp hothers,
    fun placement hplacement => ⟨remove_insert hanchor hnew hplacement, Proper.normalize_eq⟩⟩

/-- A stack of three beside one panel, whose middle one is on show and is taken out. -/
theorem split_order_stacked :
    Removed (.split .vertical (.finite (1 / 2)) (.leaf [⟨1⟩, ⟨2⟩, ⟨3⟩] 1) (.leaf [⟨4⟩] 0)) ⟨2⟩
      (remove (.split .vertical (.finite (1 / 2)) (.leaf [⟨1⟩, ⟨2⟩, ⟨3⟩] 1)
        (.leaf [⟨4⟩] 0)) ⟨2⟩).1 :=
  (split_order (.split .vertical (.finite (1 / 2)) (.leaf [⟨1⟩, ⟨2⟩, ⟨3⟩] 1) (.leaf [⟨4⟩] 0))
    ⟨by decide, by decide⟩ ⟨4⟩ ⟨5⟩ (by decide) (by decide)).2.1 ⟨2⟩ (by decide)
      ⟨⟨1⟩, by decide, by decide⟩

end SplitTree

end Throng
