import Mathlib.Data.List.Nodup
import Mathlib.Data.List.Perm.Subperm
import Std.Data.ExtTreeMap

/-!
# Moving the entries of a map

Entries of a map move to other keys one after the other, each by a removal and an
insertion. An entry that moves onto another one replaces it. So the map keeps all its
entries exactly if every target is the entry's own key, or is free when its turn comes:
not the key of an entry that stays or is still to move, nor the target of one that moved.
-/

namespace Rekey

variable {κ α : Type*} [Ord κ] [Std.TransOrd κ] [Std.LawfulEqOrd κ]

/-- One entry's move: its key, its target, and what becomes of its value. -/
structure Move (κ α : Type*) where
  key : κ
  dest : κ
  value : α → α

def Move.apply (move : Move κ α) (m : Std.ExtTreeMap κ α) : Std.ExtTreeMap κ α :=
  match m[move.key]? with
  | some a => (m.erase move.key).insert move.dest (move.value a)
  | none => m

def run (m : Std.ExtTreeMap κ α) (moves : List (Move κ α)) : Std.ExtTreeMap κ α :=
  moves.foldl (fun m move => move.apply m) m

/-- Every target is free when its turn comes. -/
def Free (m : Std.ExtTreeMap κ α) (moves : List (Move κ α)) : Prop :=
  (∀ move ∈ moves, ∀ key ∈ m.keys, key ∉ moves.map Move.key → move.dest ≠ key) ∧
    moves.Pairwise fun before after => after.dest ≠ before.dest ∧ before.dest ≠ after.key

instance [DecidableEq κ] (m : Std.ExtTreeMap κ α) (moves : List (Move κ α)) :
    Decidable (Free m moves) :=
  inferInstanceAs (Decidable (_ ∧ _))

/-- Every entry has a place of its own in the second map, with a value related to its own. -/
def Kept (same : α → α → Prop) (m m' : Std.ExtTreeMap κ α) : Prop :=
  ∃ place : κ → κ,
    (∀ key other, key ∈ m → other ∈ m → place key = place other → key = other) ∧
      ∀ key a, m[key]? = some a → ∃ a', m'[place key]? = some a' ∧ same a a'

section

omit [Std.LawfulEqOrd κ]

theorem run_cons (m : Std.ExtTreeMap κ α) (move : Move κ α) (moves : List (Move κ α)) :
    run m (move :: moves) = run (move.apply m) moves := rfl

theorem mem_of_getElem? {m : Std.ExtTreeMap κ α} {key : κ} {a : α} (h : m[key]? = some a) :
    key ∈ m := by
  rw [Std.ExtTreeMap.mem_iff_isSome_getElem?, h]
  rfl

theorem exists_getElem? {m : Std.ExtTreeMap κ α} {key : κ} (h : key ∈ m) :
    ∃ a, m[key]? = some a :=
  Option.isSome_iff_exists.mp (Std.ExtTreeMap.mem_iff_isSome_getElem?.mp h)

end

theorem size_pos_of_mem {m : Std.ExtTreeMap κ α} {key : κ} (h : key ∈ m) : 0 < m.size := by
  rw [← Std.ExtTreeMap.length_keys]
  exact List.length_pos_of_mem (Std.ExtTreeMap.mem_keys.mpr h)

/-! ## One move -/

section

variable [DecidableEq κ] {m : Std.ExtTreeMap κ α} {move : Move κ α} {moves : List (Move κ α)}

theorem getElem?_apply {a : α} (h : m[move.key]? = some a) (key : κ) :
    (move.apply m)[key]? =
      if move.dest = key then some (move.value a)
      else if move.key = key then none else m[key]? := by
  rw [Move.apply, h]
  simp only [Std.ExtTreeMap.getElem?_insert, Std.ExtTreeMap.getElem?_erase,
    Std.LawfulEqCmp.compare_eq_iff_eq]

theorem mem_apply (h : move.key ∈ m) (key : κ) :
    key ∈ move.apply m ↔ key = move.dest ∨ key ≠ move.key ∧ key ∈ m := by
  obtain ⟨a, ha⟩ := exists_getElem? h
  rw [Std.ExtTreeMap.mem_iff_isSome_getElem?, getElem?_apply ha,
    Std.ExtTreeMap.mem_iff_isSome_getElem?]
  by_cases hdest : move.dest = key
  · simp [hdest]
  · have hdest' : key ≠ move.dest := Ne.symm hdest
    by_cases hkey : move.key = key
    · simp [hdest, hkey, hdest']
    · have hkey' : key ≠ move.key := Ne.symm hkey
      simp [hdest, hkey, hdest', hkey']

/-- A move onto another entry loses it; any other move keeps the number of entries. -/
theorem size_apply (h : move.key ∈ m) :
    (move.apply m).size =
      if move.dest ≠ move.key ∧ move.dest ∈ m then m.size - 1 else m.size := by
  obtain ⟨a, ha⟩ := exists_getElem? h
  have hpos : 0 < m.size := size_pos_of_mem h
  have herase : (m.erase move.key).size = m.size - 1 := by
    rw [Std.ExtTreeMap.size_erase, if_pos (Std.ExtTreeMap.contains_iff_mem.mpr h)]
  have hmem : move.dest ∈ m.erase move.key ↔ move.dest ≠ move.key ∧ move.dest ∈ m := by
    rw [Std.ExtTreeMap.mem_erase, Ne, Std.LawfulEqCmp.compare_eq_iff_eq, eq_comm]
  have happly : move.apply m = (m.erase move.key).insert move.dest (move.value a) := by
    rw [Move.apply, ha]
  rw [happly, Std.ExtTreeMap.size_insert, herase]
  by_cases hdest : move.dest ≠ move.key ∧ move.dest ∈ m
  · rw [if_pos (Std.ExtTreeMap.contains_iff_mem.mpr (hmem.mpr hdest)), if_pos hdest]
  · rw [if_neg (fun hc => hdest (hmem.mp (Std.ExtTreeMap.contains_iff_mem.mp hc))), if_neg hdest]
    omega

theorem size_apply_le (m : Std.ExtTreeMap κ α) (move : Move κ α) :
    (move.apply m).size ≤ m.size := by
  by_cases h : move.key ∈ m
  · rw [size_apply h]
    split_ifs <;> omega
  · have happly : move.apply m = m := by
      rw [Move.apply, Std.ExtTreeMap.getElem?_eq_none h]
    exact Nat.le_of_eq (congrArg _ happly)

theorem size_run_le (m : Std.ExtTreeMap κ α) (moves : List (Move κ α)) :
    (run m moves).size ≤ m.size := by
  induction moves generalizing m with
  | nil => exact Nat.le_refl _
  | cons move moves ih => exact Nat.le_trans (ih (move.apply m)) (size_apply_le m move)

/-- The target of a move is its own key, or no entry's. -/
def Move.Clear (move : Move κ α) (m : Std.ExtTreeMap κ α) : Prop :=
  move.dest = move.key ∨ move.dest ∉ m

theorem Free.clear (h : Free m (move :: moves)) : move.Clear m := by
  rw [Move.Clear, or_iff_not_imp_right, not_not]
  intro hdest
  by_contra hne
  obtain ⟨hstays, hpairwise⟩ := h
  rw [List.pairwise_cons] at hpairwise
  have hkeys : move.dest ∉ (move :: moves).map Move.key := by
    rw [List.map_cons, List.mem_cons, not_or]
    refine ⟨hne, ?_⟩
    intro hmem
    obtain ⟨after, hafter, hkey⟩ := List.mem_map.mp hmem
    exact (hpairwise.1 after hafter).2 hkey.symm
  exact hstays move (.head _) move.dest (Std.ExtTreeMap.mem_keys.mpr hdest) hkeys rfl

/-- After a move onto a free key the other targets are as free as before. -/
theorem free_cons (h : move.Clear m) (hmem : move.key ∈ m) (hkey : move.key ∉ moves.map Move.key)
    (hmoves : ∀ after ∈ moves, after.key ∈ m) :
    Free m (move :: moves) ↔ Free (move.apply m) moves := by
  -- a target that a later entry stands on is not free, unless it is the move's own key
  have hdest : move.dest ∉ moves.map Move.key := by
    intro hdest
    obtain ⟨after, hafter, heq⟩ := List.mem_map.mp hdest
    rcases h with h | h
    · exact hkey (h ▸ hdest)
    · exact h (heq ▸ hmoves after hafter)
  constructor
  · rintro ⟨hstays, hpairwise⟩
    rw [List.pairwise_cons] at hpairwise
    refine ⟨?_, hpairwise.2⟩
    intro after hafter key hkeys hnot
    rw [Std.ExtTreeMap.mem_keys, mem_apply hmem] at hkeys
    rcases hkeys with rfl | ⟨hne, hkeys⟩
    · exact (hpairwise.1 after hafter).1
    · refine hstays after (.tail _ hafter) key (Std.ExtTreeMap.mem_keys.mpr hkeys) ?_
      rw [List.map_cons, List.mem_cons, not_or]
      exact ⟨hne, hnot⟩
  · rintro ⟨hstays, hpairwise⟩
    refine ⟨?_, List.pairwise_cons.mpr ⟨?_, hpairwise⟩⟩
    · intro after hafter key hkeys hnot
      rw [Std.ExtTreeMap.mem_keys] at hkeys
      rw [List.map_cons, List.mem_cons, not_or] at hnot
      rcases List.mem_cons.mp hafter with rfl | hafter
      · rcases h with h | h
        · exact h ▸ Ne.symm hnot.1
        · exact fun heq => h (heq ▸ hkeys)
      · refine hstays after hafter key (Std.ExtTreeMap.mem_keys.mpr ?_) hnot.2
        exact (mem_apply hmem key).mpr (.inr ⟨hnot.1, hkeys⟩)
    · intro after hafter
      refine ⟨hstays after hafter move.dest (Std.ExtTreeMap.mem_keys.mpr ?_) hdest, ?_⟩
      · exact (mem_apply hmem _).mpr (.inl rfl)
      · exact fun heq => hdest (List.mem_map.mpr ⟨after, hafter, heq.symm⟩)

end

/-! ## What a run of moves keeps -/

section

variable {same : α → α → Prop} {m m' m'' : Std.ExtTreeMap κ α}

omit [Std.LawfulEqOrd κ] in
theorem Kept.refl (hrefl : ∀ a, same a a) (m : Std.ExtTreeMap κ α) : Kept same m m := by
  refine ⟨id, fun _ _ _ _ h => h, ?_⟩
  intro key a ha
  exact ⟨a, ha, hrefl a⟩

omit [Std.LawfulEqOrd κ] in
theorem Kept.trans (htrans : ∀ a b c, same a b → same b c → same a c) (h : Kept same m m')
    (h' : Kept same m' m'') : Kept same m m'' := by
  obtain ⟨place, hinj, hplace⟩ := h
  obtain ⟨place', hinj', hplace'⟩ := h'
  have hmem : ∀ key, key ∈ m → place key ∈ m' := by
    intro key hkey
    obtain ⟨a, ha⟩ := exists_getElem? hkey
    obtain ⟨a', ha', -⟩ := hplace key a ha
    exact mem_of_getElem? ha'
  refine ⟨place' ∘ place, ?_, ?_⟩
  · intro key other hkey hother heq
    exact hinj key other hkey hother
      (hinj' (place key) (place other) (hmem key hkey) (hmem other hother) heq)
  · intro key a ha
    obtain ⟨a', ha', hsame⟩ := hplace key a ha
    obtain ⟨a'', ha'', hsame'⟩ := hplace' (place key) a' ha'
    exact ⟨a'', ha'', htrans a a' a'' hsame hsame'⟩

theorem nodup_keys (m : Std.ExtTreeMap κ α) : m.keys.Nodup := by
  refine List.Pairwise.imp ?_ Std.ExtTreeMap.distinct_keys
  rintro key other hne rfl
  exact hne Std.ReflCmp.compare_self

theorem Kept.size_le (h : Kept same m m') : m.size ≤ m'.size := by
  obtain ⟨place, hinj, hplace⟩ := h
  have hnodup : (m.keys.map place).Nodup := by
    refine List.Nodup.map_on ?_ (nodup_keys m)
    intro key hkey other hother heq
    exact hinj key other (Std.ExtTreeMap.mem_keys.mp hkey) (Std.ExtTreeMap.mem_keys.mp hother) heq
  have hsubset : m.keys.map place ⊆ m'.keys := by
    intro key hkey
    obtain ⟨before, hbefore, rfl⟩ := List.mem_map.mp hkey
    obtain ⟨a, ha⟩ := exists_getElem? (Std.ExtTreeMap.mem_keys.mp hbefore)
    obtain ⟨a', ha', -⟩ := hplace before a ha
    exact Std.ExtTreeMap.mem_keys.mpr (mem_of_getElem? ha')
  have hlength := (List.subperm_of_subset hnodup hsubset).length_le
  rwa [List.length_map, Std.ExtTreeMap.length_keys, Std.ExtTreeMap.length_keys] at hlength

variable [DecidableEq κ] {move : Move κ α} {moves : List (Move κ α)}

theorem kept_apply (hrefl : ∀ a, same a a) (hvalue : ∀ a, same a (move.value a))
    (hmem : move.key ∈ m) (h : move.Clear m) : Kept same m (move.apply m) := by
  obtain ⟨moved, hmoved⟩ := exists_getElem? hmem
  have hother : ∀ key, key ∈ m → key ≠ move.key → move.dest ≠ key := by
    rintro key hkey hne rfl
    rcases h with h | h
    · exact hne h
    · exact h hkey
  refine ⟨fun key => if key = move.key then move.dest else key, ?_, ?_⟩
  · intro key other hkey hother' heq
    dsimp only at heq
    split_ifs at heq with hk ho ho
    · rw [hk, ho]
    · exact absurd heq (hother other hother' ho)
    · exact absurd heq.symm (hother key hkey hk)
    · exact heq
  · intro key a ha
    dsimp only
    by_cases hkey : key = move.key
    · subst hkey
      refine ⟨move.value a, ?_, hvalue a⟩
      rw [if_pos rfl, getElem?_apply ha, if_pos rfl]
    · refine ⟨a, ?_, hrefl a⟩
      rw [if_neg hkey, getElem?_apply hmoved, if_neg (hother key (mem_of_getElem? ha) hkey),
        if_neg (Ne.symm hkey)]
      exact ha

/-- The entries that are still to move are there after a move onto a free key. -/
theorem mem_apply_of_ne {after : Move κ α} (hmem : move.key ∈ m) (hafter : after.key ∈ m)
    (hne : after.key ≠ move.key) : after.key ∈ move.apply m :=
  (mem_apply hmem _).mpr (.inr ⟨hne, hafter⟩)

theorem size_run_eq_iff (hnodup : (moves.map Move.key).Nodup)
    (hmem : ∀ move ∈ moves, move.key ∈ m) : (run m moves).size = m.size ↔ Free m moves := by
  induction moves generalizing m with
  | nil =>
      refine iff_of_true rfl ⟨?_, .nil⟩
      intro move hmove
      cases hmove
  | cons move moves ih =>
      rw [List.map_cons, List.nodup_cons] at hnodup
      have hmoves : ∀ after ∈ moves, after.key ∈ m := fun after hafter =>
        hmem after (.tail _ hafter)
      have hkey : move.key ∈ m := hmem move (.head _)
      have happly := size_apply hkey
      rw [run_cons]
      by_cases hclear : move.Clear m
      · have hsize : (move.apply m).size = m.size := by
          rw [happly, if_neg]
          rintro ⟨hne, hdest⟩
          exact hclear.elim hne fun hnot => hnot hdest
        rw [free_cons hclear hkey hnodup.1 hmoves, ← hsize]
        refine ih hnodup.2 fun after hafter => ?_
        exact mem_apply_of_ne hkey (hmoves after hafter) fun heq =>
          hnodup.1 (List.mem_map.mpr ⟨after, hafter, heq⟩)
      · refine iff_of_false ?_ fun hfree => hclear hfree.clear
        rw [Move.Clear, not_or, not_not] at hclear
        rw [if_pos hclear] at happly
        have hle := size_run_le (move.apply m) moves
        have hpos := size_pos_of_mem hkey
        omega

theorem Free.kept_run (h : Free m moves) (hrefl : ∀ a, same a a)
    (htrans : ∀ a b c, same a b → same b c → same a c) (hnodup : (moves.map Move.key).Nodup)
    (hmem : ∀ move ∈ moves, move.key ∈ m)
    (hvalue : ∀ move ∈ moves, ∀ a, same a (move.value a)) : Kept same m (run m moves) := by
  induction moves generalizing m with
  | nil => exact Kept.refl hrefl m
  | cons move moves ih =>
      rw [List.map_cons, List.nodup_cons] at hnodup
      have hmoves : ∀ after ∈ moves, after.key ∈ m := fun after hafter =>
        hmem after (.tail _ hafter)
      have hkey : move.key ∈ m := hmem move (.head _)
      refine (kept_apply hrefl (hvalue move (.head _)) hkey h.clear).trans htrans ?_
      refine ih ((free_cons h.clear hkey hnodup.1 hmoves).mp h) hnodup.2 ?_ ?_
      · intro after hafter
        exact mem_apply_of_ne hkey (hmoves after hafter) fun heq =>
          hnodup.1 (List.mem_map.mpr ⟨after, hafter, heq⟩)
      · exact fun after hafter => hvalue after (.tail _ hafter)

/-- Moving entries of the map, each once, keeps every entry exactly if every target is
free when its turn comes. -/
theorem kept_run_iff (hrefl : ∀ a, same a a)
    (htrans : ∀ a b c, same a b → same b c → same a c) (hnodup : (moves.map Move.key).Nodup)
    (hmem : ∀ move ∈ moves, move.key ∈ m)
    (hvalue : ∀ move ∈ moves, ∀ a, same a (move.value a)) :
    Kept same m (run m moves) ↔ Free m moves := by
  constructor
  · intro hkept
    rw [← size_run_eq_iff hnodup hmem]
    exact Nat.le_antisymm (size_run_le m moves) hkept.size_le
  · intro hfree
    exact hfree.kept_run hrefl htrans hnodup hmem hvalue

end

end Rekey
