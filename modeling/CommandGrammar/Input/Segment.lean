import CommandGrammar.Value

/-!
How a row of values is laid out on one line. Each value takes as many positions as its text has
characters, an empty one still taking a single position; neighbours are one position apart.
-/

set_option autoImplicit false

namespace CommandGrammar.Input

structure Content where
  chars : List Char
  value : Value
  isObject : Bool
  deriving DecidableEq, Repr

namespace Content

def ofValue (r : Rendering) (v : Value) : Content :=
  ⟨(r.text v).toList, v, !r.isText v⟩

def width (c : Content) : Nat := max c.chars.length 1

def text (c : Content) : String := String.ofList c.chars

theorem width_pos (c : Content) : 0 < c.width := by unfold width; omega

end Content

inductive Body where
  | content (c : Content)
  | separator
  | tail
  deriving DecidableEq, Repr

structure Segment where
  start : Nat
  stop : Nat
  body : Body
  deriving DecidableEq, Repr

namespace Segment

def isTail (s : Segment) : Bool :=
  match s.body with
  | .tail => true
  | _ => false

def offset (s : Segment) (c : Content) (position : Nat) : Nat :=
  min (position - s.start) c.chars.length

def isBefore (s : Segment) (position : Nat) : Bool := s.stop ≤ position && !s.isTail

end Segment

def layoutFrom (r : Rendering) : Nat → List Value → List Segment
  | position, [] => [⟨position, position, .tail⟩]
  | position, [v] =>
    let c := Content.ofValue r v
    [⟨position, position + c.width, .content c⟩, ⟨position + c.width, position + c.width, .tail⟩]
  | position, v :: w :: rest =>
    let c := Content.ofValue r v
    let stop := position + c.width
    ⟨position, stop, .content c⟩ :: ⟨stop, stop + 1, .separator⟩ ::
      layoutFrom r (stop + 1) (w :: rest)

def layout (r : Rendering) (values : List Value) : List Segment := layoutFrom r 0 values

end CommandGrammar.Input
