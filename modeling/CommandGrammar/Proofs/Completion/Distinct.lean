import CommandGrammar.Completion.Candidate

set_option autoImplicit false

namespace CommandGrammar

namespace Candidate

variable {seen known : List (String × Option String)} {xs : List Candidate} {c : Candidate}

theorem distinctFrom_congr (same : ∀ c ∈ xs, c.key ∈ seen ↔ c.key ∈ known) :
    distinctFrom seen xs = distinctFrom known xs := by
  induction xs generalizing seen known with
  | nil => rfl
  | cons c rest ih =>
    have later : ∀ d ∈ rest, d.key ∈ seen ↔ d.key ∈ known :=
      fun d member => same d (List.mem_cons_of_mem _ member)
    by_cases old : c.key ∈ seen
    · have old' := (same c List.mem_cons_self).mp old
      simp only [distinctFrom, old, old', if_true, ih later]
    · have new := mt (same c List.mem_cons_self).mpr old
      have next : ∀ d ∈ rest, d.key ∈ c.key :: seen ↔ d.key ∈ c.key :: known := by
        intro d member
        simp only [List.mem_cons, later d member]
      simp only [distinctFrom, old, new, if_false, ih next]

theorem distinctFrom_append (seen : List (String × Option String)) (xs ys : List Candidate) :
    distinctFrom seen (xs ++ ys) = distinctFrom seen xs ++ distinctFrom (xs.map key ++ seen) ys := by
  induction xs generalizing seen with
  | nil => rfl
  | cons c rest ih =>
    by_cases old : c.key ∈ seen
    · have same : distinctFrom ((c :: rest).map key ++ seen) ys =
          distinctFrom (rest.map key ++ seen) ys := by
        apply distinctFrom_congr
        intro d _
        simp only [List.map_cons, List.cons_append, List.mem_cons, List.mem_append]
        constructor
        · rintro (named | there)
          · exact .inr (named ▸ old)
          · exact there
        · exact .inr
      simp only [List.cons_append, distinctFrom, old, if_true, ih, same]
    · have same : distinctFrom ((c :: rest).map key ++ seen) ys =
          distinctFrom (rest.map key ++ c.key :: seen) ys := by
        apply distinctFrom_congr
        intro d _
        simp [or_left_comm]
      simp only [List.cons_append, distinctFrom, old, if_false, ih, same]

theorem distinctFrom_distinctFrom (subset : ∀ k ∈ known, k ∈ seen) (xs : List Candidate) :
    distinctFrom seen (distinctFrom known xs) = distinctFrom seen xs := by
  induction xs generalizing seen known with
  | nil => rfl
  | cons c rest ih =>
    by_cases old : c.key ∈ known
    · simp only [distinctFrom, old, subset _ old, if_true, ih subset]
    · simp only [distinctFrom.eq_def known, old, if_false]
      by_cases old' : c.key ∈ seen
      · have subset' : ∀ k ∈ c.key :: known, k ∈ seen := by
          simpa [old'] using subset
        simp only [distinctFrom, old', if_true, ih subset']
      · have subset' : ∀ k ∈ c.key :: known, k ∈ c.key :: seen := by
          simp only [List.mem_cons]
          exact fun k => Or.imp_right (subset k)
        simp only [distinctFrom, old', if_false, ih subset']

theorem filter_distinctFrom (seen : List (String × Option String)) (xs : List Candidate) (text : String) :
    (distinctFrom seen xs).filter (·.text == text) = distinctFrom seen (xs.filter (·.text == text)) := by
  induction xs generalizing seen with
  | nil => rfl
  | cons c rest ih =>
    by_cases named : c.text = text
    · by_cases old : c.key ∈ seen <;> simp [distinctFrom, named, old, ih]
    · -- A candidate for another text is of another key.
      have other : distinctFrom (c.key :: seen) (rest.filter (·.text == text)) =
          distinctFrom seen (rest.filter (·.text == text)) := by
        apply distinctFrom_congr
        intro d member
        have kept : d.text = text := by simpa using (List.mem_filter.mp member).2
        have differs : d.key ≠ c.key := fun same => named ((congrArg Prod.fst same).symm.trans kept)
        simp [differs]
      by_cases old : c.key ∈ seen <;> simp [distinctFrom, named, old, ih, other]

theorem distinctFrom_sublist (seen : List (String × Option String)) (xs : List Candidate) :
    (distinctFrom seen xs).Sublist xs := by
  induction xs generalizing seen with
  | nil => exact .slnil
  | cons c rest ih =>
    rw [distinctFrom]
    split
    · exact (ih seen).cons c
    · exact (ih _).cons_cons c

theorem mem_distinctFrom_iff :
    c ∈ distinctFrom seen xs ↔ c.key ∉ seen ∧ xs.find? (·.key == c.key) = some c := by
  induction xs generalizing seen with
  | nil => simp [distinctFrom]
  | cons d rest ih =>
    by_cases same : d.key = c.key
    · by_cases old : d.key ∈ seen
      · simp [distinctFrom, ih, old, ← same]
      · have first : c ∈ distinctFrom (d.key :: seen) rest ↔ False := by simp [ih, same]
        simp [distinctFrom, old, ← same, first, eq_comm]
    · have other : c ≠ d := fun equal => same (equal ▸ rfl)
      by_cases old : d.key ∈ seen <;>
        simp [distinctFrom, old, ih, same, other, Ne.symm same]

theorem mem_map_key_distinctFrom (k : String × Option String) (xs : List Candidate) :
    k ∈ (distinctFrom [] xs).map key ↔ k ∈ xs.map key := by
  refine ⟨fun kept => ((distinctFrom_sublist [] xs).map key).subset kept, fun present => ?_⟩
  obtain ⟨c, member, rfl⟩ := List.mem_map.mp present
  have found : (xs.find? (·.key == c.key)).isSome = true :=
    List.find?_isSome.mpr ⟨c, member, beq_self_eq_true c.key⟩
  obtain ⟨first, same⟩ := Option.isSome_iff_exists.mp found
  have named : first.key = c.key := by simpa using List.find?_some same
  rw [← named] at same ⊢
  exact List.mem_map_of_mem (mem_distinctFrom_iff.mpr ⟨by simp, same⟩)

theorem distinctFrom_flatMap (seen : List (String × Option String)) (groups : List (List Candidate)) :
    distinctFrom seen (groups.flatMap (distinctFrom [])) = distinctFrom seen groups.flatten := by
  induction groups generalizing seen with
  | nil => rfl
  | cons group rest ih =>
    rw [List.flatMap_cons, List.flatten_cons, distinctFrom_append, distinctFrom_append,
      distinctFrom_distinctFrom (by simp), ← ih]
    congr 1
    apply distinctFrom_congr
    intro d _
    simp only [List.mem_append, mem_map_key_distinctFrom]

theorem nodup_distinctFrom (seen : List (String × Option String)) (xs : List Candidate) :
    ((distinctFrom seen xs).map key).Nodup := by
  induction xs generalizing seen with
  | nil => exact .nil
  | cons c rest ih =>
    rw [distinctFrom]
    split
    · exact ih seen
    · refine List.nodup_cons.mpr ⟨fun again => ?_, ih _⟩
      obtain ⟨d, member, same⟩ := List.mem_map.mp again
      exact (mem_distinctFrom_iff.mp member).1 (same ▸ List.mem_cons_self)

theorem distinctFrom_eq_self (nodup : (xs.map key).Nodup) (new : ∀ c ∈ xs, c.key ∉ seen) :
    distinctFrom seen xs = xs := by
  induction xs generalizing seen with
  | nil => rfl
  | cons c rest ih =>
    rw [List.map_cons, List.nodup_cons] at nodup
    have later : ∀ d ∈ rest, d.key ∉ c.key :: seen := by
      intro d member
      have other : d.key ≠ c.key := fun same => nodup.1 (same ▸ List.mem_map_of_mem member)
      simp [other, new d (List.mem_cons_of_mem _ member)]
    rw [distinctFrom, if_neg (new c List.mem_cons_self), ih nodup.2 later]

end Candidate

namespace Completions

theorem mem_map_key_ofCandidates (k : String × Option String) (xs : List Candidate) :
    k ∈ (ofCandidates xs).list.map Candidate.key ↔ k ∈ xs.map Candidate.key := by
  have kept := ((Order.sort_perm Candidate.precedes (Candidate.distinctFrom [] xs)).map Candidate.key).mem_iff
    (a := k)
  exact kept.trans (Candidate.mem_map_key_distinctFrom k xs)

end Completions

end CommandGrammar
