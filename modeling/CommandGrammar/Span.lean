set_option autoImplicit false

namespace CommandGrammar

/-- The positions from `start` to `stop`. Nothing forces `start ≤ stop`. -/
structure Span where
  start : Nat
  stop : Nat
  deriving DecidableEq, Repr

namespace Span

def point (position : Nat) : Span := ⟨position, position⟩

def cover (a b : Span) : Span := ⟨min a.start b.start, max a.stop b.stop⟩

def isEmpty (a : Span) : Bool := a.start == a.stop

def length (a : Span) : Nat := a.stop - a.start

def contains (a : Span) (position : Nat) : Bool := a.start ≤ position && position ≤ a.stop

def coverAll : List Span → Span
  | [] => point 0
  | a :: rest => rest.foldl cover a

@[simp] theorem cover_self (a : Span) : a.cover a = a := by simp [cover]

theorem contains_iff (a : Span) (position : Nat) :
    a.contains position = true ↔ a.start ≤ position ∧ position ≤ a.stop := by
  simp [contains]

end Span

end CommandGrammar
