set_option autoImplicit false

namespace CommandGrammar.Order

variable {α : Type}

def insert (before : α → α → Bool) (a : α) : List α → List α
  | [] => [a]
  | b :: rest => if before a b then a :: b :: rest else b :: insert before a rest

def sort (before : α → α → Bool) : List α → List α
  | [] => []
  | a :: rest => insert before a (sort before rest)

@[simp] theorem sort_nil (before : α → α → Bool) : sort before [] = [] := rfl

theorem insert_perm (before : α → α → Bool) (a : α) (xs : List α) :
    (insert before a xs).Perm (a :: xs) := by
  induction xs with
  | nil => exact .refl _
  | cons b rest ih =>
    unfold insert
    split
    · exact .refl _
    · exact (ih.cons b).trans (.swap a b rest)

theorem sort_perm (before : α → α → Bool) (xs : List α) : (sort before xs).Perm xs := by
  induction xs with
  | nil => exact .refl _
  | cons a rest ih => exact (insert_perm before a _).trans (ih.cons a)

@[simp] theorem length_sort (before : α → α → Bool) (xs : List α) :
    (sort before xs).length = xs.length :=
  (sort_perm before xs).length_eq

@[simp] theorem mem_sort (before : α → α → Bool) (a : α) (xs : List α) :
    a ∈ sort before xs ↔ a ∈ xs :=
  (sort_perm before xs).mem_iff

theorem insert_pairwise {before : α → α → Bool}
    (total : ∀ a b, before a b = true ∨ before b a = true)
    (trans : ∀ a b c, before a b = true → before b c = true → before a c = true)
    (a : α) {xs : List α} (sorted : xs.Pairwise fun x y => before x y = true) :
    (insert before a xs).Pairwise fun x y => before x y = true := by
  induction xs with
  | nil => simp [insert]
  | cons b rest ih =>
    have ⟨first, others⟩ := List.pairwise_cons.1 sorted
    unfold insert
    split
    · rename_i le
      refine List.pairwise_cons.2 ⟨?_, sorted⟩
      intro x mem
      rcases List.mem_cons.1 mem with rfl | mem
      · exact le
      · exact trans _ _ _ le (first x mem)
    · rename_i nle
      refine List.pairwise_cons.2 ⟨?_, ih others⟩
      intro x mem
      rcases List.mem_cons.1 ((insert_perm before a rest).mem_iff.1 mem) with rfl | mem
      · exact (total x b).resolve_left nle
      · exact first x mem

theorem sort_pairwise {before : α → α → Bool}
    (total : ∀ a b, before a b = true ∨ before b a = true)
    (trans : ∀ a b c, before a b = true → before b c = true → before a c = true)
    (xs : List α) : (sort before xs).Pairwise fun x y => before x y = true := by
  induction xs with
  | nil => exact .nil
  | cons a rest ih => exact insert_pairwise total trans a ih

end CommandGrammar.Order
