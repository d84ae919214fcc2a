import Mathlib.Data.List.Basic
import Mathlib.Data.List.Infix

/-!
# Names joined by a separator

A text made of names with a separator between them, none of them empty or with the
separator in it, tells the names. A function on texts that goes on name by name folds the
names of such a text.
-/

namespace Joined

variable {α : Type*} {sep : α}

/-- None of the names is empty or has the separator in it. -/
def Clean (sep : α) (names : List (List α)) : Prop := ∀ name ∈ names, name ≠ [] ∧ sep ∉ name

/-- The names with the separator between them. -/
def joined (sep : α) (names : List (List α)) : List α := [sep].intercalate names

variable {as bs : List (List α)} {name : List α}

@[simp] theorem joined_nil : joined sep [] = [] := rfl

@[simp] theorem joined_singleton (name : List α) : joined sep [name] = name :=
  List.intercalate_singleton

theorem joined_cons_cons (name other : List α) (names : List (List α)) :
    joined sep (name :: other :: names) = name ++ sep :: joined sep (other :: names) := by
  rw [joined, joined, List.intercalate_cons_cons, List.append_assoc, List.singleton_append]

theorem joined_append (has : as ≠ []) (hbs : bs ≠ []) :
    joined sep (as ++ bs) = joined sep as ++ sep :: joined sep bs := by
  induction as with
  | nil => exact absurd rfl has
  | cons name as ih =>
      cases as with
      | nil =>
          cases bs with
          | nil => exact absurd rfl hbs
          | cons other bs =>
              rw [List.singleton_append, joined_cons_cons, joined_singleton]
      | cons other as =>
          have hrest := ih (List.cons_ne_nil _ _)
          rw [List.cons_append] at hrest
          rw [List.cons_append, List.cons_append, joined_cons_cons, hrest, joined_cons_cons,
            List.append_assoc, List.cons_append]

theorem joined_ne_nil (h : Clean sep as) (hne : as ≠ []) : joined sep as ≠ [] := by
  cases as with
  | nil => exact absurd rfl hne
  | cons name as =>
      have hname := (h name List.mem_cons_self).1
      cases as with
      | nil => rwa [joined_singleton]
      | cons other as =>
          rw [joined_cons_cons]
          exact List.append_ne_nil_of_left_ne_nil hname _

/-- No separator ends the text. -/
theorem getLast?_joined (h : Clean sep as) : (joined sep as).getLast? ≠ some sep := by
  induction as with
  | nil => exact nofun
  | cons name as ih =>
      cases as with
      | nil =>
          rw [joined_singleton]
          exact fun hlast => (h name List.mem_cons_self).2 (List.mem_of_getLast? hlast)
      | cons other as =>
          have hrest : Clean sep (other :: as) := fun n hn => h n (List.mem_cons_of_mem _ hn)
          rw [joined_cons_cons, List.getLast?_append_cons]
          intro hlast
          cases hjoined : joined sep (other :: as) with
          | nil => exact joined_ne_nil hrest (List.cons_ne_nil _ _) hjoined
          | cons c text =>
              rw [hjoined, List.getLast?_cons_cons] at hlast
              rw [hjoined] at ih
              exact ih hrest hlast

/-- No separator begins the text. -/
theorem head?_joined (h : Clean sep as) : (joined sep as).head? ≠ some sep := by
  cases as with
  | nil => exact nofun
  | cons name as =>
      obtain ⟨hne, hnot⟩ := h name List.mem_cons_self
      obtain ⟨c, text, rfl⟩ := List.exists_cons_of_ne_nil hne
      have hhead : (joined sep ((c :: text) :: as)).head? = some c := by
        cases as with
        | nil => rw [joined_singleton, List.head?_cons]
        | cons other as => rw [joined_cons_cons, List.cons_append, List.head?_cons]
      rw [hhead, Ne, Option.some.injEq]
      rintro rfl
      exact hnot List.mem_cons_self

section

variable [BEq α] [LawfulBEq α]

theorem splitOn_joined (h : Clean sep as) (hne : as ≠ []) : (joined sep as).splitOn sep = as :=
  List.splitOn_intercalate sep (fun name hname => (h name hname).2) hne

theorem notMem_of_mem_splitOn {text : List α} (h : name ∈ text.splitOn sep) : sep ∉ name := by
  induction text generalizing name with
  | nil =>
      rw [List.splitOn_nil, List.mem_singleton] at h
      rw [h]
      exact List.not_mem_nil
  | cons c text ih =>
      rw [List.splitOn_cons_eq_if_modifyHead] at h
      split at h
      · rcases List.mem_cons.mp h with rfl | h
        · exact List.not_mem_nil
        · exact ih h
      · next hc =>
          cases hsplit : text.splitOn sep with
          | nil => exact absurd hsplit (List.splitOn_ne_nil sep text)
          | cons first rest =>
              rw [hsplit] at ih
              rw [hsplit, List.modifyHead_cons] at h
              rcases List.mem_cons.mp h with rfl | h
              · rw [List.mem_cons, not_or]
                exact ⟨fun heq => hc (by rw [heq, beq_self_eq_true]), ih List.mem_cons_self⟩
              · exact ih (List.mem_cons_of_mem _ h)

omit [LawfulBEq α] in
/-- What is in a name is in the text. -/
theorem mem_of_mem_splitOn {text : List α} {a : α} (h : name ∈ text.splitOn sep) (ha : a ∈ name) :
    a ∈ text := by
  induction text generalizing name with
  | nil =>
      rw [List.splitOn_nil, List.mem_singleton] at h
      rw [h] at ha
      exact absurd ha List.not_mem_nil
  | cons c text ih =>
      rw [List.splitOn_cons_eq_if_modifyHead] at h
      split at h
      · rcases List.mem_cons.mp h with rfl | h
        · exact absurd ha List.not_mem_nil
        · exact List.mem_cons_of_mem _ (ih h ha)
      · cases hsplit : text.splitOn sep with
        | nil => exact absurd hsplit (List.splitOn_ne_nil sep text)
        | cons first rest =>
            rw [hsplit] at ih
            rw [hsplit, List.modifyHead_cons] at h
            rcases List.mem_cons.mp h with rfl | h
            · rcases List.mem_cons.mp ha with rfl | ha
              · exact List.mem_cons_self
              · exact List.mem_cons_of_mem _ (ih List.mem_cons_self ha)
            · exact List.mem_cons_of_mem _ (ih (List.mem_cons_of_mem _ h) ha)

theorem joined_inj (has : Clean sep as) (hbs : Clean sep bs)
    (h : joined sep as = joined sep bs) : as = bs := by
  by_cases hnil : as = []
  · by_cases hnil' : bs = []
    · rw [hnil, hnil']
    · rw [hnil] at h
      exact absurd h.symm (joined_ne_nil hbs hnil')
  · by_cases hnil' : bs = []
    · rw [hnil'] at h
      exact absurd h (joined_ne_nil has hnil)
    · rw [← splitOn_joined has hnil, h, splitOn_joined hbs hnil']

/-- What begins with the text of some names and a separator goes on after these names. -/
theorem prefix_iff (has : Clean sep as) (hbs : Clean sep bs) (hne : as ≠ []) :
    joined sep as ++ [sep] <+: joined sep bs ↔ ∃ rest, rest ≠ [] ∧ bs = as ++ rest := by
  constructor
  · rintro ⟨text, htext⟩
    rw [List.append_assoc, List.singleton_append] at htext
    have hbs' : bs ≠ [] := by
      rintro rfl
      exact absurd (List.append_eq_nil_iff.mp htext).2 (List.cons_ne_nil _ _)
    have hsplit := congrArg (List.splitOn sep) htext
    rw [List.splitOn_append_cons_self, splitOn_joined has hne, splitOn_joined hbs hbs'] at hsplit
    exact ⟨_, List.splitOn_ne_nil sep text, hsplit.symm⟩
  · rintro ⟨rest, hrest, rfl⟩
    rw [joined_append hne hrest]
    exact ⟨joined sep rest, by rw [List.append_assoc, List.singleton_append]⟩

end

/-- A text that ends with the separator does not end in what has none. -/
theorem prefix_of_notMem {text front back : List α} (h : text ++ [sep] <+: front ++ back)
    (hback : sep ∉ back) : text ++ [sep] <+: front := by
  rcases List.prefix_or_prefix_of_prefix h (List.prefix_append front back) with hle | ⟨more, hmore⟩
  · exact hle
  · rw [← hmore, List.prefix_append_right_inj] at h
    by_cases hnil : more = []
    · rw [hnil, List.append_nil] at hmore
      exact hmore ▸ List.prefix_rfl
    · have hlast := congrArg List.getLast? hmore
      rw [List.getLast?_append_of_ne_nil _ hnil, List.getLast?_concat] at hlast
      exact absurd (h.subset (List.mem_of_getLast? hlast)) hback

/-! ## Folding -/

/-- `f` goes on name by name: the separator stays, and none is added or taken away. -/
structure Segmental (sep : α) (f : List α → List α) : Prop where
  nil : f [] = []
  append : ∀ text rest, f (text ++ sep :: rest) = f text ++ sep :: f rest
  notMem : ∀ text, sep ∉ text → sep ∉ f text
  ne_nil : ∀ text, text ≠ [] → f text ≠ []

namespace Segmental

variable {f g : List α → List α}

theorem id : Segmental sep (id : List α → List α) :=
  ⟨rfl, fun _ _ => rfl, fun _ h => h, fun _ h => h⟩

theorem comp (hf : Segmental sep f) (hg : Segmental sep g) : Segmental sep (f ∘ g) where
  nil := by rw [Function.comp_apply, hg.nil, hf.nil]
  append text rest := by
    rw [Function.comp_apply, hg.append, hf.append, Function.comp_apply, Function.comp_apply]
  notMem text h := hf.notMem _ (hg.notMem text h)
  ne_nil text h := hf.ne_nil _ (hg.ne_nil text h)

theorem clean (hf : Segmental sep f) (h : Clean sep as) : Clean sep (as.map f) := by
  intro name hname
  obtain ⟨text, htext, rfl⟩ := List.mem_map.mp hname
  exact ⟨hf.ne_nil _ (h text htext).1, hf.notMem _ (h text htext).2⟩

theorem joined (hf : Segmental sep f) (names : List (List α)) :
    f (joined sep names) = Joined.joined sep (names.map f) := by
  induction names with
  | nil => exact hf.nil
  | cons name names ih =>
      cases names with
      | nil => rw [joined_singleton, List.map_singleton, joined_singleton]
      | cons other names =>
          rw [joined_cons_cons, hf.append, ih, List.map_cons, List.map_cons, List.map_cons,
            joined_cons_cons]

/-- A function of single characters that keeps the separator apart. -/
theorem map {g : α → α} (hsep : g sep = sep) (h : ∀ c, g c = sep → c = sep) :
    Segmental sep (List.map g) where
  nil := rfl
  append text rest := by rw [List.map_append, List.map_cons, hsep]
  notMem text hnot hmem := by
    obtain ⟨c, hc, heq⟩ := List.mem_map.mp hmem
    exact hnot (h c heq ▸ hc)
  ne_nil text hne hnil := hne (List.map_eq_nil_iff.mp hnil)

end Segmental

end Joined
