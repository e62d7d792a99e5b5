import CommandGrammar.Order.Insertion

set_option autoImplicit false

namespace CommandGrammar.Order

variable {α κ : Type} {before : α → α → Bool} {xs ys : List α}

theorem filter_insert {p : α → Bool} (even : ∀ a b, p a = true → p b = true → before a b = true)
    (a : α) (xs : List α) : (insert before a xs).filter p = (a :: xs).filter p := by
  induction xs with
  | nil => rfl
  | cons b rest ih =>
    unfold insert
    split
    case isTrue => rfl
    case isFalse later =>
      rw [List.filter_cons, ih]
      cases first : p a with
      | false => simp [List.filter_cons, first]
      | true =>
        have passed : p b = false := by
          cases second : p b with
          | false => rfl
          | true => exact absurd (even a b first second) later
        simp [first, passed]

theorem filter_sort {p : α → Bool} (even : ∀ a b, p a = true → p b = true → before a b = true)
    (xs : List α) : (sort before xs).filter p = xs.filter p := by
  induction xs with
  | nil => rfl
  | cons a rest ih => rw [sort, filter_insert even, List.filter_cons, List.filter_cons, ih]

theorem pairwise_idxOf [DecidableEq α] (nodup : xs.Nodup) :
    xs.Pairwise fun a b => xs.idxOf a < xs.idxOf b := by
  rw [List.pairwise_iff_getElem]
  intro i j hi hj lt
  simpa only [nodup.idxOf_getElem] using lt

theorem sort_pairwise_idxOf [DecidableEq α] (total : ∀ a b, before a b = true ∨ before b a = true)
    (trans : ∀ a b c, before a b = true → before b c = true → before a c = true) (nodup : xs.Nodup) :
    (sort before xs).Pairwise fun a b =>
      before a b = true ∧ (before b a = true → xs.idxOf a < xs.idxOf b) := by
  have sorted := sort_pairwise total trans xs
  rw [List.pairwise_iff_forall_sublist] at sorted ⊢
  intro a b inside
  have first := sorted inside
  refine ⟨first, fun back => ?_⟩
  -- Among the elements level with the first one, sorting has changed nothing.
  have even (x y : α) (hx : (before a x && before x a) = true) (hy : (before a y && before y a) = true) :
      before x y = true := by
    simp only [Bool.and_eq_true] at hx hy
    exact trans x a y hx.2 hy.1
  have level : [a, b].Sublist ((sort before xs).filter fun x => before a x && before x a) := by
    have self : before a a = true := (total a a).elim id id
    simpa [self, first, back] using inside.filter fun x => before a x && before x a
  rw [filter_sort even] at level
  exact List.pairwise_iff_forall_sublist.mp (pairwise_idxOf nodup) (level.trans List.filter_sublist)

theorem eq_of_pairwise [DecidableEq κ] (key : α → κ)
    (tied : ∀ a b, before a b = true → before b a = true → key a = key b)
    (sorted : xs.Pairwise fun a b => before a b = true)
    (sorted' : ys.Pairwise fun a b => before a b = true)
    (same : ∀ k, xs.filter (key · = k) = ys.filter (key · = k)) : xs = ys := by
  have among (a : α) : a ∈ xs ↔ a ∈ ys := by
    have listed := same (key a)
    simpa using congrArg (a ∈ ·) listed
  induction xs generalizing ys with
  | nil =>
    have none : ys = [] :=
      List.eq_nil_iff_forall_not_mem.mpr fun a member => by simpa using (among a).mpr member
    exact none.symm
  | cons a rest ih =>
    cases ys with
    | nil => simpa using (among a).mp List.mem_cons_self
    | cons b rest' =>
      rw [List.pairwise_cons] at sorted sorted'
      -- Each of the two first elements may stand before the other.
      have keys : key a = key b := by
        rcases List.mem_cons.mp ((among a).mp List.mem_cons_self) with rfl | behind
        · rfl
        rcases List.mem_cons.mp ((among b).mpr List.mem_cons_self) with rfl | behind'
        · rfl
        exact tied a b (sorted.1 b behind') (sorted'.1 a behind)
      have first : a = b := by
        have heads := congrArg List.head? (same (key b))
        simpa [keys] using heads
      subst first
      have others (k : κ) : rest.filter (key · = k) = rest'.filter (key · = k) := by
        have listed := same k
        rw [List.filter_cons, List.filter_cons] at listed
        split at listed
        · exact (List.cons.inj listed).2
        · exact listed
      rw [ih sorted.2 sorted'.2 others fun c => by simpa using congrArg (c ∈ ·) (others (key c))]

theorem sort_eq_self (sorted : xs.Pairwise fun a b => before a b = true) : sort before xs = xs := by
  induction xs with
  | nil => rfl
  | cons a rest ih =>
    rw [List.pairwise_cons] at sorted
    rw [sort, ih sorted.2]
    cases rest with
    | nil => rfl
    | cons b rest => simp [insert, sorted.1 b List.mem_cons_self]

end CommandGrammar.Order
