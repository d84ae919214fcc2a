import Mathlib.Data.List.Basic
import Mathlib.Data.List.Nodup
import Mathlib.Data.List.Perm.Basic
import Mathlib.Algebra.Order.Field.Rat
import Mathlib.Tactic.NormNum
import Throng.Core.Ids

/-!
# Split trees

A tab shows one split tree: each split divides its space between two trees, each
leaf stacks one or more panels and shows one of them. Besides the source's
operations, this module says what each of them does to the panels in layout order
(`SplitTree.panels`) and to the ones on show (`SplitTree.shown`).
-/

namespace Throng

/-- A share of a split: a number, or one of the values of `f32` that are not finite. -/
inductive Share
  | finite (value : ℚ)
  | notFinite
deriving DecidableEq

/-- Which way a split divides its space. -/
inductive Axis
  | horizontal
  | vertical
deriving DecidableEq, Repr

inductive SplitTree
  | leaf (panels : List PanelId) (active : Nat)
  | split (axis : Axis) (fraction : Share) (first second : SplitTree)
deriving DecidableEq

/-- Where a new panel goes relative to an existing one. -/
inductive Placement
  | stack
  | right
  | below
  | left
  | above
deriving DecidableEq, Repr

/-- Splits never give either side less than this share. -/
def minFraction : ℚ := 1 / 20

namespace SplitTree

/-- `SplitTree::leaf`: a leaf with one panel. -/
def leafOf (panel : PanelId) : SplitTree := .leaf [panel] 0

/-- Every panel, in layout order. -/
def panels : SplitTree → List PanelId
  | .leaf panels _ => panels
  | .split _ _ first second => first.panels ++ second.panels

def contains : SplitTree → PanelId → Bool
  | .leaf panels _, panel => panels.contains panel
  | .split _ _ first second, panel => first.contains panel || second.contains panel

def isEmpty : SplitTree → Bool
  | .leaf panels _ => panels.isEmpty
  | .split _ _ _ _ => false

/-- A fraction that leaves both sides their share. -/
def clampFraction : Share → Share
  | .finite value => .finite (max minFraction (min (1 - minFraction) value))
  | .notFinite => .finite (1 / 2)

/-- A split of two trees, or the one that is left when the other is empty. -/
def collapse (axis : Axis) (fraction : Share) (first second : SplitTree) : SplitTree :=
  if first.isEmpty then second
  else if second.isEmpty then first
  else .split axis fraction first second

/-- Collapse empty leaves and single-child splits; clamp fractions and active indices. -/
def normalize : SplitTree → SplitTree
  | .leaf panels active =>
      .leaf panels (if active ≥ panels.length then panels.length - 1 else active)
  | .split axis fraction first second =>
      collapse axis (clampFraction fraction) first.normalize second.normalize

def removeInner : SplitTree → PanelId → SplitTree × Bool
  | .leaf panels active, panel =>
      match panels.idxOf? panel with
      | none => (.leaf panels active, false)
      | some i =>
          let left := panels.eraseIdx i
          (.leaf left (if active ≥ left.length then left.length - 1
            else if i < active then active - 1 else active), true)
  | .split axis fraction first second, panel =>
      if (first.removeInner panel).2 then
        (.split axis fraction (first.removeInner panel).1 second, true)
      else
        (.split axis fraction (first.removeInner panel).1 (second.removeInner panel).1,
          (second.removeInner panel).2)

/-- Take a panel out; an empty leaf collapses into its sibling. -/
def remove (t : SplitTree) (panel : PanelId) : SplitTree × Bool :=
  ((t.removeInner panel).1.normalize, (t.removeInner panel).2)

/-- The axis a placement beside a panel splits, and whether the new panel comes first. -/
def side : Placement → Axis × Bool
  | .stack | .right => (.horizontal, false)
  | .left => (.horizontal, true)
  | .below => (.vertical, false)
  | .above => (.vertical, true)

/-- Put `new` beside `anchor`. -/
def insert : SplitTree → PanelId → PanelId → Placement → SplitTree × Bool
  | .leaf panels active, anchor, new, placement =>
      match panels.idxOf? anchor with
      | none => (.leaf panels active, false)
      | some i =>
          if placement = .stack then (.leaf (panels.insertIdx (i + 1) new) (i + 1), true)
          else if (side placement).2 then
            (.split (side placement).1 (.finite (1 / 2)) (leafOf new) (.leaf panels active), true)
          else
            (.split (side placement).1 (.finite (1 / 2)) (.leaf panels active) (leafOf new), true)
  | .split axis fraction first second, anchor, new, placement =>
      if (first.insert anchor new placement).2 then
        (.split axis fraction (first.insert anchor new placement).1 second, true)
      else
        (.split axis fraction (first.insert anchor new placement).1
          (second.insert anchor new placement).1, (second.insert anchor new placement).2)

/-- Show `panel` in its leaf. -/
def activate : SplitTree → PanelId → SplitTree × Bool
  | .leaf panels active, panel =>
      match panels.idxOf? panel with
      | some i => (.leaf panels i, true)
      | none => (.leaf panels active, false)
  | .split axis fraction first second, panel =>
      if (first.activate panel).2 then
        (.split axis fraction (first.activate panel).1 second, true)
      else
        (.split axis fraction (first.activate panel).1 (second.activate panel).1,
          (second.activate panel).2)

/-! ## Well-formed trees -/

/-- The panels on show: each leaf's active one. -/
def shown : SplitTree → List PanelId
  | .leaf panels active => panels[active]?.toList
  | .split _ _ first second => first.shown ++ second.shown

/-- No leaf is empty, every active index is in range, and every fraction leaves
both sides their share. -/
inductive Proper : SplitTree → Prop
  | leaf {panels : List PanelId} {active : Nat} (h : active < panels.length) :
      Proper (.leaf panels active)
  | split {axis : Axis} {value : ℚ} {first second : SplitTree}
      (hlow : minFraction ≤ value) (hhigh : value ≤ 1 - minFraction)
      (hfirst : Proper first) (hsecond : Proper second) :
      Proper (.split axis (.finite value) first second)

theorem minFraction_le : minFraction ≤ 1 - minFraction := by norm_num [minFraction]

theorem half_mem : minFraction ≤ 1 / 2 ∧ (1 : ℚ) / 2 ≤ 1 - minFraction := by
  norm_num [minFraction]

theorem proper_leafOf (panel : PanelId) : (leafOf panel).Proper := .leaf (by simp)

theorem Proper.panels_ne_nil {t : SplitTree} (h : t.Proper) : t.panels ≠ [] := by
  induction h with
  | leaf h => exact List.ne_nil_of_length_pos (Nat.zero_lt_of_lt h)
  | split _ _ _ _ hfirst _ => exact List.append_ne_nil_of_left_ne_nil hfirst _

theorem mem_panels_of_mem_shown {t : SplitTree} {p : PanelId} (h : p ∈ t.shown) :
    p ∈ t.panels := by
  induction t with
  | leaf ps active => exact List.mem_of_getElem? (Option.mem_toList.mp h)
  | split axis fraction first second ihf ihs =>
      rw [panels, List.mem_append]
      exact (List.mem_append.mp h).imp ihf ihs

theorem contains_iff {t : SplitTree} {p : PanelId} : t.contains p = true ↔ p ∈ t.panels := by
  induction t with
  | leaf ps active => simp [contains, panels]
  | split axis fraction first second ihf ihs => simp [contains, panels, ihf, ihs]

/-! ## Normalizing -/

theorem panels_of_isEmpty {t : SplitTree} (h : t.isEmpty) : t.panels = [] := by
  cases t with
  | leaf ps active => exact List.isEmpty_iff.mp h
  | split axis fraction first second => cases h

theorem panels_collapse (axis : Axis) (fraction : Share) (first second : SplitTree) :
    (collapse axis fraction first second).panels = first.panels ++ second.panels := by
  unfold collapse
  split
  · next h => rw [panels_of_isEmpty h, List.nil_append]
  · split
    · next h => rw [panels_of_isEmpty h, List.append_nil]
    · rfl

@[simp] theorem panels_normalize (t : SplitTree) : t.normalize.panels = t.panels := by
  induction t with
  | leaf ps active => rfl
  | split axis fraction first second ihf ihs =>
      rw [normalize, panels_collapse, ihf, ihs, panels]

theorem exists_clampFraction (fraction : Share) :
    ∃ value, clampFraction fraction = .finite value ∧ minFraction ≤ value ∧
      value ≤ 1 - minFraction := by
  cases fraction with
  | finite value => exact ⟨_, rfl, le_max_left _ _, max_le minFraction_le (min_le_left _ _)⟩
  | notFinite => exact ⟨_, rfl, half_mem⟩

/-- Whatever the tree, normalizing leaves a well-formed one or an empty leaf. -/
theorem isEmpty_or_proper_normalize (t : SplitTree) :
    t.normalize.isEmpty ∨ t.normalize.Proper := by
  induction t with
  | leaf ps active =>
      rw [normalize]
      rcases Nat.eq_zero_or_pos ps.length with hzero | hpos
      · exact .inl (List.isEmpty_iff.mpr (List.length_eq_zero_iff.mp hzero))
      · refine .inr (.leaf ?_)
        split <;> omega
  | split axis fraction first second ihf ihs =>
      rw [normalize, collapse]
      split
      · exact ihs
      · next hfirst =>
          split
          · exact ihf
          · next hsecond =>
              obtain ⟨value, hvalue, hlow, hhigh⟩ := exists_clampFraction fraction
              rw [hvalue]
              exact .inr (.split hlow hhigh (ihf.resolve_left hfirst) (ihs.resolve_left hsecond))

theorem proper_normalize {t : SplitTree} (h : t.panels ≠ []) : t.normalize.Proper := by
  refine (isEmpty_or_proper_normalize t).resolve_left fun hempty => h ?_
  rw [← panels_normalize]
  exact panels_of_isEmpty hempty

theorem Proper.isEmpty_eq_false {t : SplitTree} (h : t.Proper) : t.isEmpty = false := by
  cases h with
  | leaf h => exact List.isEmpty_eq_false_iff.mpr (List.ne_nil_of_length_pos (Nat.zero_lt_of_lt h))
  | split _ _ _ _ => rfl

theorem clampFraction_of_mem {value : ℚ} (hlow : minFraction ≤ value)
    (hhigh : value ≤ 1 - minFraction) : clampFraction (.finite value) = .finite value := by
  rw [clampFraction, min_eq_right hhigh, max_eq_right hlow]

/-- Normalizing leaves a well-formed tree as it is. -/
theorem Proper.normalize_eq {t : SplitTree} (h : t.Proper) : t.normalize = t := by
  induction h with
  | leaf h => rw [normalize, if_neg (Nat.not_le.mpr h)]
  | split hlow hhigh hfirst hsecond ihf ihs =>
      rw [normalize, ihf, ihs, clampFraction_of_mem hlow hhigh, collapse,
        hfirst.isEmpty_eq_false, hsecond.isEmpty_eq_false]
      rfl

theorem mem_shown_collapse {axis : Axis} {fraction : Share} {first second : SplitTree}
    {p : PanelId} (h : p ∈ first.shown ∨ p ∈ second.shown) :
    p ∈ (collapse axis fraction first second).shown := by
  have hempty : ∀ t : SplitTree, t.isEmpty → p ∉ t.shown := by
    intro t ht hp
    have hin := mem_panels_of_mem_shown hp
    rw [panels_of_isEmpty ht] at hin
    cases hin
  unfold collapse
  split
  · next hfirst => exact h.resolve_left (hempty first hfirst)
  · split
    · next hsecond => exact h.resolve_right (hempty second hsecond)
    · exact List.mem_append.mpr h

/-- Normalizing keeps what is on show. -/
theorem mem_shown_normalize {t : SplitTree} {p : PanelId} (h : p ∈ t.shown) :
    p ∈ t.normalize.shown := by
  induction t with
  | leaf ps active =>
      have hp : ps[active]? = some p := Option.mem_toList.mp h
      have hactive : ¬ active ≥ ps.length := Nat.not_le.mpr (List.getElem?_eq_some_iff.mp hp).1
      rw [normalize, if_neg hactive]
      exact h
  | split axis fraction first second ihf ihs =>
      rw [normalize]
      exact mem_shown_collapse ((List.mem_append.mp h).imp ihf ihs)

/-! ## Removing -/

theorem removeInner_found (t : SplitTree) (p : PanelId) :
    (t.removeInner p).2 = true ↔ p ∈ t.panels := by
  induction t with
  | leaf ps active =>
      rw [removeInner]
      split
      · next h => simpa [panels] using List.idxOf?_eq_none_iff.mp h
      · next i h => simpa [panels] using List.isSome_idxOf?.mp (Option.isSome_of_eq_some h)
  | split axis fraction first second ihf ihs =>
      rw [removeInner, panels, List.mem_append, ← ihf, ← ihs]
      split
      · next h => simp [h]
      · next h => simp [h]

/-- Removing takes out the first panel of that id in layout order. -/
theorem panels_removeInner (t : SplitTree) (p : PanelId) :
    (t.removeInner p).1.panels = t.panels.erase p := by
  induction t with
  | leaf ps active =>
      rw [removeInner]
      split
      · next h => exact (List.erase_of_not_mem (List.idxOf?_eq_none_iff.mp h)).symm
      · next i h =>
          have hi : ps.idxOf p = i := by rw [List.idxOf_eq_getD_idxOf?, h, Option.getD_some]
          rw [panels, panels, ← hi, List.eraseIdx_idxOf_eq_erase]
  | split axis fraction first second ihf ihs =>
      have hfound := removeInner_found first p
      rw [removeInner, panels]
      split
      · next h => rw [panels, ihf, List.erase_append_left _ (hfound.mp h)]
      · next h =>
          have hfirst : p ∉ first.panels := fun hin => h (hfound.mpr hin)
          rw [panels, ihf, ihs, List.erase_of_not_mem hfirst, List.erase_append_right _ hfirst]

theorem mem_shown_removeInner {t : SplitTree} {p q : PanelId} (h : q ∈ t.shown) (hne : q ≠ p) :
    q ∈ (t.removeInner p).1.shown := by
  induction t with
  | leaf ps active =>
      rw [removeInner]
      split
      · exact h
      · next i hi =>
          have hq : ps[active]? = some q := Option.mem_toList.mp h
          obtain ⟨hi', hp, hmin⟩ := List.idxOf?_eq_some_iff.mp hi
          have hia : i ≠ active := by
            rintro rfl
            grind
          refine Option.mem_toList.mpr ?_
          grind
  | split axis fraction first second ihf ihs =>
      have hshown := List.mem_append.mp h
      rw [removeInner]
      split
      · exact List.mem_append.mpr (hshown.imp_left ihf)
      · exact List.mem_append.mpr (hshown.imp ihf ihs)

@[simp] theorem panels_remove (t : SplitTree) (p : PanelId) :
    (t.remove p).1.panels = t.panels.erase p := by
  rw [remove, panels_normalize, panels_removeInner]

theorem proper_remove {t : SplitTree} {p : PanelId} (h : (t.remove p).1.panels ≠ []) :
    (t.remove p).1.Proper := by
  rw [remove, panels_normalize] at h
  exact proper_normalize h

theorem mem_shown_remove {t : SplitTree} {p q : PanelId} (h : q ∈ t.shown) (hne : q ≠ p) :
    q ∈ (t.remove p).1.shown :=
  mem_shown_normalize (mem_shown_removeInner h hne)

/-! ## Inserting -/

section insert

variable {t : SplitTree} {anchor new : PanelId} {placement : Placement}

theorem insert_leaf (ps : List PanelId) (active : Nat) :
    (leaf ps active).insert anchor new placement =
      match ps.idxOf? anchor with
      | none => (.leaf ps active, false)
      | some i =>
          if placement = .stack then (.leaf (ps.insertIdx (i + 1) new) (i + 1), true)
          else if (side placement).2 then
            (.split (side placement).1 (.finite (1 / 2)) (leafOf new) (.leaf ps active), true)
          else
            (.split (side placement).1 (.finite (1 / 2)) (.leaf ps active) (leafOf new), true) :=
  rfl

theorem insert_split (axis : Axis) (fraction : Share) (first second : SplitTree) :
    (split axis fraction first second).insert anchor new placement =
      if (first.insert anchor new placement).2 then
        (.split axis fraction (first.insert anchor new placement).1 second, true)
      else
        (.split axis fraction (first.insert anchor new placement).1
          (second.insert anchor new placement).1, (second.insert anchor new placement).2) :=
  rfl

theorem insert_found : (t.insert anchor new placement).2 = true ↔ anchor ∈ t.panels := by
  induction t with
  | leaf ps active =>
      rw [insert_leaf]
      split
      · next h => simpa [panels] using List.idxOf?_eq_none_iff.mp h
      · next i h =>
          have hin : anchor ∈ ps := by
            simpa using List.isSome_idxOf?.mp (Option.isSome_of_eq_some h)
          simp only [panels, hin, iff_true]
          split
          · rfl
          · split <;> rfl
  | split axis fraction first second ihf ihs =>
      rw [insert_split, panels, List.mem_append, ← ihf, ← ihs]
      split
      · next h => simp [h]
      · next h => simp [h]

theorem insert_of_notMem (h : anchor ∉ t.panels) : (t.insert anchor new placement).1 = t := by
  induction t with
  | leaf ps active =>
      have hnone : ps.idxOf? anchor = none := List.idxOf?_eq_none_iff.mpr h
      rw [insert_leaf, hnone]
  | split axis fraction first second ihf ihs =>
      rw [panels, List.mem_append, not_or] at h
      have hfirst : ¬ (first.insert anchor new placement).2 = true :=
        fun hf => h.1 (insert_found.mp hf)
      rw [insert_split, if_neg hfirst, ihf h.1, ihs h.2]

theorem panels_insert (h : anchor ∈ t.panels) :
    List.Perm (t.insert anchor new placement).1.panels (new :: t.panels) := by
  induction t with
  | leaf ps active =>
      rw [insert_leaf]
      split
      · next hnone => exact absurd h (List.idxOf?_eq_none_iff.mp hnone)
      · next i hi =>
          have hlt : i + 1 ≤ ps.length := (List.idxOf?_eq_some_iff.mp hi).1
          split
          · exact List.perm_insertIdx new ps hlt
          · split
            · exact List.Perm.refl _
            · exact List.perm_append_singleton new ps
  | split axis fraction first second ihf ihs =>
      rw [insert_split]
      split
      · next hfound => exact (ihf (insert_found.mp hfound)).append_right second.panels
      · next hfound =>
          have hfirst : anchor ∉ first.panels := fun hin => hfound (insert_found.mpr hin)
          have hsecond : anchor ∈ second.panels := (List.mem_append.mp h).resolve_left hfirst
          rw [panels, insert_of_notMem hfirst]
          exact ((ihs hsecond).append_left first.panels).trans List.perm_middle

theorem proper_insert (h : t.Proper) : (t.insert anchor new placement).1.Proper := by
  induction h with
  | @leaf ps active h =>
      rw [insert_leaf]
      split
      · exact .leaf h
      · next i hi =>
          have hlt : i < ps.length := (List.idxOf?_eq_some_iff.mp hi).1
          split
          · refine .leaf ?_
            rw [List.length_insertIdx_of_le_length hlt]
            omega
          · split
            · exact .split half_mem.1 half_mem.2 (proper_leafOf new) (.leaf h)
            · exact .split half_mem.1 half_mem.2 (.leaf h) (proper_leafOf new)
  | split hlow hhigh hfirst hsecond ihf ihs =>
      rw [insert_split]
      split
      · exact .split hlow hhigh ihf hsecond
      · exact .split hlow hhigh ihf ihs

theorem mem_shown_insert (h : anchor ∈ t.panels) :
    new ∈ (t.insert anchor new placement).1.shown := by
  induction t with
  | leaf ps active =>
      rw [insert_leaf]
      split
      · next hnone => exact absurd h (List.idxOf?_eq_none_iff.mp hnone)
      · next i hi =>
          have hlt : i + 1 ≤ ps.length := (List.idxOf?_eq_some_iff.mp hi).1
          split
          · simp [shown, List.getElem?_insertIdx_self, hlt]
          · split <;> simp [shown, leafOf]
  | split axis fraction first second ihf ihs =>
      rw [insert_split]
      split
      · next hfound => exact List.mem_append_left _ (ihf (insert_found.mp hfound))
      · next hfound =>
          have hfirst : anchor ∉ first.panels := fun hin => hfound (insert_found.mpr hin)
          exact List.mem_append_right _ (ihs ((List.mem_append.mp h).resolve_left hfirst))

end insert

/-! ## Showing a panel -/

section activate

variable {t : SplitTree} {p : PanelId}

theorem activate_found : (t.activate p).2 = true ↔ p ∈ t.panels := by
  induction t with
  | leaf ps active =>
      rw [activate]
      split
      · next i h => simpa [panels] using List.isSome_idxOf?.mp (Option.isSome_of_eq_some h)
      · next h => simpa [panels] using List.idxOf?_eq_none_iff.mp h
  | split axis fraction first second ihf ihs =>
      rw [activate, panels, List.mem_append, ← ihf, ← ihs]
      split
      · next h => simp [h]
      · next h => simp [h]

@[simp] theorem panels_activate : (t.activate p).1.panels = t.panels := by
  induction t with
  | leaf ps active =>
      rw [activate]
      split <;> rfl
  | split axis fraction first second ihf ihs =>
      rw [activate]
      split <;> simp [panels, ihf, ihs]

theorem proper_activate (h : t.Proper) : (t.activate p).1.Proper := by
  induction h with
  | leaf h =>
      rw [activate]
      split
      · next i hi => exact .leaf (List.idxOf?_eq_some_iff.mp hi).1
      · exact .leaf h
  | split hlow hhigh hfirst hsecond ihf ihs =>
      rw [activate]
      split
      · exact .split hlow hhigh ihf hsecond
      · exact .split hlow hhigh ihf ihs

theorem mem_shown_activate (h : p ∈ t.panels) : p ∈ (t.activate p).1.shown := by
  induction t with
  | leaf ps active =>
      rw [activate]
      split
      · next i hi =>
          obtain ⟨hlt, hp, -⟩ := List.idxOf?_eq_some_iff.mp hi
          exact Option.mem_toList.mpr (List.getElem?_eq_some_iff.mpr ⟨hlt, hp⟩)
      · next hnone => exact absurd h (List.idxOf?_eq_none_iff.mp hnone)
  | split axis fraction first second ihf ihs =>
      rw [activate]
      split
      · next hfound => exact List.mem_append_left _ (ihf (activate_found.mp hfound))
      · next hfound =>
          have hfirst : p ∉ first.panels := fun hin => hfound (activate_found.mpr hin)
          exact List.mem_append_right _ (ihs ((List.mem_append.mp h).resolve_left hfirst))

end activate

end SplitTree

end Throng
