import CommandGrammar.Proofs.Completion.Hull
import CommandGrammar.Proofs.Sorting

set_option autoImplicit false

namespace CommandGrammar

namespace Text

def Alphabetical (x y : String) : Prop := lowercase x < lowercase y ∨ lowercase x = lowercase y ∧ x ≤ y

namespace Alphabetical

variable {x y z : String}

theorem refl (x : String) : Alphabetical x x := .inr ⟨rfl, String.le_refl x⟩

theorem total (x y : String) : Alphabetical x y ∨ Alphabetical y x := by
  rcases Std.lt_trichotomy (lowercase x) (lowercase y) with lt | same | gt
  · exact .inl (.inl lt)
  · rcases String.le_total x y with le | ge
    · exact .inl (.inr ⟨same, le⟩)
    · exact .inr (.inr ⟨same.symm, ge⟩)
  · exact .inr (.inl gt)

theorem trans (h : Alphabetical x y) (h' : Alphabetical y z) : Alphabetical x z := by
  rcases h with lt | ⟨same, le⟩ <;> rcases h' with lt' | ⟨same', le'⟩
  · exact .inl (String.lt_trans lt lt')
  · exact .inl (same' ▸ lt)
  · exact .inl (same ▸ lt')
  · exact .inr ⟨same.trans same', String.le_trans le le'⟩

theorem antisymm (h : Alphabetical x y) (h' : Alphabetical y x) : x = y := by
  rcases h with lt | ⟨same, le⟩ <;> rcases h' with lt' | ⟨same', le'⟩
  · exact absurd lt' (String.lt_asymm lt)
  · exact absurd (same' ▸ lt) (String.lt_irrefl _)
  · exact absurd (same ▸ lt') (String.lt_irrefl _)
  · exact String.le_antisymm le le'

end Alphabetical

end Text

namespace Candidate

theorem precedes_iff (a b : Candidate) : a.precedes b = true ↔ Text.Alphabetical a.text b.text := by
  simp [precedes, Text.Alphabetical]

theorem precedes_of_text (text : String) (a b : Candidate) (first : (a.text == text) = true)
    (second : (b.text == text) = true) : a.precedes b = true := by
  rw [precedes_iff, eq_of_beq first, eq_of_beq second]
  exact .refl text

theorem pairwise_sort (xs : List Candidate) :
    (Order.sort precedes xs).Pairwise fun a b => a.precedes b = true := by
  refine Order.sort_pairwise ?_ ?_ xs
  · intro a b
    rw [precedes_iff, precedes_iff]
    exact Text.Alphabetical.total a.text b.text
  · intro a b c first second
    rw [precedes_iff] at first second ⊢
    exact first.trans second

end Candidate

namespace Completions

open Candidate

variable {xs ys : List Candidate}

theorem ofCandidates_congr (same : ∀ text : String, (distinctFrom [] xs).filter (·.text == text) =
    (distinctFrom [] ys).filter (·.text == text)) : ofCandidates xs = ofCandidates ys := by
  have sorted : Order.sort precedes (distinctFrom [] xs) = Order.sort precedes (distinctFrom [] ys) := by
    refine Order.eq_of_pairwise Candidate.text ?_ (pairwise_sort _) (pairwise_sort _) ?_
    · intro a b first second
      rw [precedes_iff] at first second
      exact first.antisymm second
    · intro text
      have stays (zs : List Candidate) := Order.filter_sort (precedes_of_text text) zs
      have listed := (stays _).trans ((same text).trans (stays _).symm)
      simpa only [beq_eq_decide] using listed
  have kept (c : Candidate) : c ∈ distinctFrom [] xs ↔ c ∈ distinctFrom [] ys := by
    rw [← Order.mem_sort precedes, sorted, Order.mem_sort]
  have spans : Span.coverAll ((distinctFrom [] xs).map Candidate.span) =
      Span.coverAll ((distinctFrom [] ys).map Candidate.span) := by
    apply Span.coverAll_congr
    simp only [List.mem_map, kept, implies_true]
  simp only [ofCandidates, sorted, spans]

theorem nodup_ofCandidates (xs : List Candidate) : ((ofCandidates xs).list.map Candidate.key).Nodup :=
  ((Order.sort_perm precedes _).map Candidate.key).nodup_iff.mpr (nodup_distinctFrom [] xs)

theorem alphabetical_ofCandidates (xs : List Candidate) :
    ((ofCandidates xs).list.map Candidate.text).Pairwise Text.Alphabetical := by
  rw [List.pairwise_map]
  exact (pairwise_sort _).imp fun {a b} => (precedes_iff a b).mp

theorem filter_ofCandidates (xs : List Candidate) (text : String) :
    (ofCandidates xs).list.filter (·.text == text) = (distinctFrom [] xs).filter (·.text == text) :=
  Order.filter_sort (precedes_of_text text) _

theorem ofCandidates_flatMap (groups : List (List Candidate)) :
    ofCandidates (groups.flatMap fun group => (ofCandidates group).list) =
      ofCandidates groups.flatten := by
  apply ofCandidates_congr
  intro text
  have parts : (groups.flatMap fun group => (ofCandidates group).list).filter (·.text == text) =
      (groups.map (·.filter (·.text == text))).flatMap (distinctFrom []) := by
    simp only [List.filter_flatMap, filter_ofCandidates, filter_distinctFrom, List.flatMap_map]
  rw [filter_distinctFrom, filter_distinctFrom, parts, distinctFrom_flatMap, List.filter_flatten]

theorem ofCandidates_list (xs : List Candidate) : ofCandidates (ofCandidates xs).list = ofCandidates xs := by
  simpa using ofCandidates_flatMap [xs]

theorem merge_eq_ofCandidates {branches : List Completions}
    (made : ∀ b ∈ branches, ofCandidates b.list = b) :
    merge branches = ofCandidates (branches.flatMap list) := by
  have present : (branches.filter (!·.isEmpty)).flatMap list = branches.flatMap list := by
    induction branches with
    | nil => rfl
    | cons b rest ih =>
      have later := ih fun c member => made c (List.mem_cons_of_mem _ member)
      cases none : b.isEmpty with
      | false => simp [none, later]
      | true =>
        have nothing : b.list = [] := by simpa [isEmpty] using none
        simp [none, later, nothing]
  unfold merge
  rw [← present]
  split
  case h_1 none =>
    rw [none]
    exact ofCandidates_nil.symm
  case h_2 only alone =>
    have among : only ∈ branches.filter (!·.isEmpty) := by simp [alone]
    rw [alone, List.flatMap_singleton, made only (List.mem_filter.mp among).1]
  case h_3 => rfl

/-- A list that is made holds the first candidate of each key in alphabetical order, those for the same
text as they came in. Made again it is the same, and merging lists made of groups is making one of all. -/
theorem ofCandidates_canonical (candidates : List Candidate) (groups : List (List Candidate)) :
    let made := ofCandidates candidates
    (∀ c, c ∈ made.list ↔ candidates.find? (·.key == c.key) = some c) ∧
      (made.list.map Candidate.key).Nodup ∧
      (made.list.map Candidate.text).Pairwise Text.Alphabetical ∧
      (∀ text : String, (made.list.filter (·.text == text)).Sublist candidates) ∧
      made.Fits ∧ ofCandidates made.list = made ∧
      merge (groups.map ofCandidates) = ofCandidates groups.flatten := by
  intro made
  have ordered := alphabetical_ofCandidates candidates
  have fits := fits_ofCandidates candidates
  have again := ofCandidates_list candidates
  refine ⟨?_, nodup_ofCandidates candidates, ordered, ?_, fits, again, ?_⟩
  · intro c
    have kept : c ∈ made.list ↔ c ∈ distinctFrom [] candidates := Order.mem_sort _ c _
    simpa using kept.trans mem_distinctFrom_iff
  · intro text
    rw [filter_ofCandidates]
    exact List.filter_sublist.trans (distinctFrom_sublist [] candidates)
  · rw [merge_eq_ofCandidates (by simp [ofCandidates_list]), List.flatMap_map, ofCandidates_flatMap]

example : ofCandidates [⟨⟨2, 4⟩, "bee", none⟩, ⟨⟨3, 4⟩, "Ant", none⟩, ⟨⟨0, 4⟩, "bee", none⟩,
    ⟨⟨2, 4⟩, "Bee", none⟩] =
      ⟨⟨2, 4⟩, [⟨⟨3, 4⟩, "Ant", none⟩, ⟨⟨2, 4⟩, "Bee", none⟩, ⟨⟨2, 4⟩, "bee", none⟩]⟩ := by
  decide +kernel

end Completions

end CommandGrammar
