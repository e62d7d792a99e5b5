import CommandGrammar.Span

set_option autoImplicit false

namespace CommandGrammar.Span

def Encloses (a b : Span) : Prop := a.start ≤ b.start ∧ b.stop ≤ a.stop

structure IsHull (s : Span) (spans : List Span) : Prop where
  encloses : ∀ t ∈ spans, s.Encloses t
  least : ∀ u : Span, (∀ t ∈ spans, u.Encloses t) → u.Encloses s

def InHull (t : Span) (spans : List Span) : Prop :=
  ∀ u : Span, (∀ s ∈ spans, u.Encloses s) → u.Encloses t

variable {a b c s : Span} {spans others : List Span}

theorem Encloses.refl (a : Span) : a.Encloses a := ⟨Nat.le_refl _, Nat.le_refl _⟩

theorem Encloses.trans (h : a.Encloses b) (h' : b.Encloses c) : a.Encloses c :=
  ⟨Nat.le_trans h.1 h'.1, Nat.le_trans h'.2 h.2⟩

theorem Encloses.antisymm (h : a.Encloses b) (h' : b.Encloses a) : a = b := by
  obtain ⟨start, stop⟩ := a
  obtain rfl : start = b.start := Nat.le_antisymm h.1 h'.1
  obtain rfl : stop = b.stop := Nat.le_antisymm h'.2 h.2
  rfl

theorem encloses_cover : c.Encloses (a.cover b) ↔ c.Encloses a ∧ c.Encloses b := by
  simp only [Encloses, cover]
  omega

theorem isHull_foldl_cover (spans : List Span) (s : Span) :
    (spans.foldl cover s).IsHull (s :: spans) := by
  have around (u : Span) : u.Encloses (spans.foldl cover s) ↔ ∀ t ∈ s :: spans, u.Encloses t := by
    induction spans generalizing s with
    | nil => simp
    | cons t rest ih => simp [ih, encloses_cover, and_assoc]
  exact ⟨(around _).mp (.refl _), fun u => (around u).mpr⟩

theorem isHull_coverAll (some : spans ≠ []) : (coverAll spans).IsHull spans := by
  cases spans with
  | nil => exact absurd rfl some
  | cons s rest => exact isHull_foldl_cover rest s

theorem coverAll_concat (some : spans ≠ []) (s : Span) :
    coverAll (spans ++ [s]) = (coverAll spans).cover s := by
  cases spans with
  | nil => exact absurd rfl some
  | cons first rest => simp [coverAll]

namespace IsHull

theorem congr (h : s.IsHull spans) (same : ∀ t, t ∈ others ↔ t ∈ spans) : s.IsHull others :=
  ⟨fun t member => h.encloses t ((same t).mp member),
    fun u around => h.least u fun t member => around t ((same t).mpr member)⟩

theorem unique (h : s.IsHull spans) (h' : a.IsHull spans) : s = a :=
  (h'.least s h.encloses).antisymm (h.least a h'.encloses)

theorem eq_of_same (h : s.IsHull spans) (some : spans ≠ []) (same : ∀ t ∈ spans, t = a) : s = a := by
  obtain ⟨t, member⟩ := List.exists_mem_of_ne_nil spans some
  have around := h.encloses t member
  rw [same t member] at around
  refine around.antisymm (h.least a fun t member => ?_)
  rw [same t member]
  exact .refl a

theorem start_eq (h : s.IsHull (a :: spans)) (behind : ∀ t ∈ spans, a.start ≤ t.start) :
    s.start = a.start := by
  refine Nat.le_antisymm (h.encloses a List.mem_cons_self).1 ?_
  have least := h.least ⟨a.start, s.stop⟩
  simp only [List.forall_mem_cons] at least
  exact (least ⟨⟨Nat.le_refl _, (h.encloses a List.mem_cons_self).2⟩, fun t member =>
    ⟨behind t member, (h.encloses t (List.mem_cons_of_mem _ member)).2⟩⟩).1

theorem iff_inHull (h : s.IsHull spans) (among : ∀ t ∈ others, t ∈ spans) :
    s.IsHull others ↔ ∀ t ∈ spans, t.InHull others := by
  constructor
  · intro hull t member u around
    exact (hull.least u around).trans (h.encloses t member)
  · intro inside
    exact ⟨fun t member => h.encloses t (among t member),
      fun u around => h.least u fun t member => inside t member u around⟩

end IsHull

theorem coverAll_congr (same : ∀ t, t ∈ others ↔ t ∈ spans) : coverAll others = coverAll spans := by
  by_cases none : spans = []
  · have none' : others = [] :=
      List.eq_nil_iff_forall_not_mem.mpr fun t member => by simpa [none] using (same t).mp member
    rw [none, none']
  · obtain ⟨t, member⟩ := List.exists_mem_of_ne_nil spans none
    have some : others ≠ [] := List.ne_nil_of_mem ((same t).mpr member)
    exact (isHull_coverAll some).unique ((isHull_coverAll none).congr same)

end CommandGrammar.Span
