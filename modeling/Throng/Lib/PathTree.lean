import Mathlib.Data.List.Induction

/-!
# Trees by their paths

A tree says what stands at each path, if anything. The part of a tree below a path can be cut off,
and a tree put there; cutting off what was put there, or putting back what was cut off, leaves the
tree as it was.
-/

namespace Throng

/-- What stands at each path. -/
abbrev PathTree (κ α : Type*) := List κ → Option α

namespace PathTree

variable {κ α : Type*}

/-- What stands at and below a path. -/
def below (path : List κ) (tree : PathTree κ α) : PathTree κ α := fun rest => tree (path ++ rest)

/-- What a path goes through is there and may have something below it. -/
def Closed (dir : α → Bool) (tree : PathTree κ α) : Prop :=
  ∀ path name, tree (path ++ [name]) ≠ none → ∃ node ∈ tree path, dir node = true

section

variable {dir : α → Bool} {path other : List κ} {tree : PathTree κ α}

/-- Nothing stands below a path at which nothing stands. -/
theorem Closed.eq_none (h : Closed dir tree) (hpath : tree path = none) (hother : path <+: other) :
    tree other = none := by
  obtain ⟨rest, rfl⟩ := hother
  induction rest using List.reverseRecOn with
  | nil => rwa [List.append_nil]
  | append_singleton rest name ih =>
      rw [← List.append_assoc]
      by_contra hnone
      obtain ⟨node, hnode, -⟩ := h _ name hnone
      rw [ih] at hnode
      cases hnode

theorem Closed.below (h : Closed dir tree) (path : List κ) : Closed dir (below path tree) := by
  intro front name hname
  rw [PathTree.below, ← List.append_assoc] at hname
  exact h _ name hname

end

variable [DecidableEq κ]

/-- The tree without what stands at and below a path. -/
def prune (path : List κ) (tree : PathTree κ α) : PathTree κ α :=
  fun other => if path <+: other then none else tree other

/-- The tree with another one at a path. -/
def graft (path : List κ) (sub tree : PathTree κ α) : PathTree κ α :=
  fun other => if path <+: other then sub (other.drop path.length) else tree other

variable {path other : List κ} {sub tree : PathTree κ α}

theorem prune_below (h : path <+: other) : prune path tree other = none := if_pos h

theorem prune_apart (h : ¬ path <+: other) : prune path tree other = tree other := if_neg h

theorem graft_apart (h : ¬ path <+: other) : graft path sub tree other = tree other :=
  if_neg h

theorem graft_append (rest : List κ) : graft path sub tree (path ++ rest) = sub rest := by
  rw [graft, if_pos (List.prefix_append _ _), List.drop_left]

@[simp] theorem graft_self : graft path sub tree path = sub [] := by
  have h := @graft_append κ α _ path sub tree []
  rwa [List.append_nil] at h

theorem below_graft (path : List κ) (sub tree : PathTree κ α) :
    below path (graft path sub tree) = sub := funext fun rest => graft_append rest

theorem prune_graft (path : List κ) (sub tree : PathTree κ α) :
    prune path (graft path sub tree) = prune path tree := by
  funext other
  rw [prune, prune, graft]
  split <;> rfl

theorem graft_below_prune (path : List κ) (tree : PathTree κ α) :
    graft path (below path tree) (prune path tree) = tree := by
  funext other
  rw [graft, prune]
  split
  · next h =>
      obtain ⟨rest, rfl⟩ := h
      rw [below, List.drop_left]
  · rfl

theorem prune_comm (path other : List κ) (tree : PathTree κ α) :
    prune path (prune other tree) = prune other (prune path tree) := by
  funext place
  rw [prune, prune, prune, prune]
  split_ifs <;> rfl

/-! ## Trees that are closed -/

variable {dir : α → Bool}

theorem Closed.prune_eq (h : Closed dir tree) (hpath : tree path = none) :
    prune path tree = tree := by
  funext other
  rw [prune]
  split
  · next hother => exact (h.eq_none hpath hother).symm
  · rfl

theorem Closed.prune (h : Closed dir tree) (path : List κ) : Closed dir (prune path tree) := by
  intro front name hname
  have hnot : ¬ path <+: front ++ [name] := fun hpre => hname (prune_below hpre)
  rw [prune_apart hnot] at hname
  rw [prune_apart fun hpre => hnot (hpre.trans (List.prefix_append _ _))]
  exact h front name hname

/-- A tree that is put below a folder. -/
theorem Closed.graft {front : List κ} {name : κ} (h : Closed dir tree) (hsub : Closed dir sub)
    (hfront : ∃ node ∈ tree front, dir node = true) :
    Closed dir (graft (front ++ [name]) sub tree) := by
  have hnot : ¬ front ++ [name] <+: front := fun hpre => by
    have := hpre.length_le
    rw [List.length_append, List.length_singleton] at this
    omega
  intro place other hother
  by_cases hpre : front ++ [name] <+: place
  · obtain ⟨rest, rfl⟩ := hpre
    rw [List.append_assoc, graft_append] at hother
    rw [graft_append]
    exact hsub rest other hother
  · rw [graft_apart hpre]
    by_cases hpre' : front ++ [name] <+: place ++ [other]
    · rcases List.prefix_concat_iff.1 hpre' with heq | hpre'
      · obtain ⟨rfl, -⟩ := List.append_inj' heq rfl
        exact hfront
      · exact absurd hpre' hpre
    · rw [graft_apart hpre'] at hother
      exact h place other hother

end PathTree

end Throng
