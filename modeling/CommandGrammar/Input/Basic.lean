import CommandGrammar.Input.Segment
import CommandGrammar.Text.Basic

set_option autoImplicit false

namespace CommandGrammar

structure Input where
  segments : List Input.Segment
  position : Nat
  deriving DecidableEq, Repr

namespace Input

def ofValues (r : Rendering) (values : List Value) : Input := ⟨layout r values, 0⟩

def ofText (s : String) : Input :=
  ofValues .standard (if s.isEmpty then [] else [.ofString s])

def length (i : Input) : Nat := (i.segments.getLast?.map Segment.start).getD 0

def isEmpty (i : Input) : Bool := i.length == 0

def hasMore (i : Input) : Bool := i.position < i.length

def seek (i : Input) (position : Nat) : Input := { i with position := min position i.length }

def values (i : Input) : List Value :=
  i.segments.filterMap fun s => match s.body with
    | .content c => some c.value
    | _ => none

def ahead (i : Input) : List Segment := i.segments.dropWhile (·.isBefore i.position)

-- Character `k` places ahead in the given segments. Empty values hold no character, separators a space.
def charIn (position : Nat) : List Segment → Nat → Option Char
  | [], _ => none
  | s :: rest, k =>
    match s.body with
    | .content c =>
      let here := c.chars.drop (s.offset c position)
      if k < here.length then here[k]? else charIn position rest (k - here.length)
    | .separator =>
      match k with
      | 0 => some ' '
      | k + 1 => charIn position rest k
    | .tail => none

def peekAt (i : Input) (k : Nat) : Option Char := charIn i.position i.ahead k

def peek (i : Input) : Option Char := i.peekAt 0

def nextIn (position : Nat) : List Segment → Option Char × Nat
  | [] => (none, position)
  | s :: rest =>
    match s.body with
    | .content c =>
      let before := s.offset c position
      match c.chars.drop before with
      -- Nothing is left here, or the value is empty and its position holds no character.
      | [] => nextIn position rest
      | ch :: _ => (some ch, s.start + before + 1)
    | .separator => (some ' ', s.stop)
    | .tail => (none, s.start)

def readChar (i : Input) : Option Char × Input :=
  let (c, position) := nextIn i.position i.ahead
  (c, { i with position })

def skipBlanksWithin : Nat → Input → Input
  | 0, i => i
  | n + 1, i => if i.peek.any Text.isBlank then skipBlanksWithin n i.readChar.2 else i

def skipBlanks (i : Input) : Input := i.skipBlanksWithin (i.length - i.position)

-- What a segment shows of the span from `start` to `stop`: a separator is a space, and so is an
-- empty value that lies within the span.
def Segment.slice (s : Segment) (start stop : Nat) : List Char :=
  if s.stop ≤ start || stop ≤ s.start then []
  else match s.body with
    | .content c =>
      if c.chars.isEmpty then if start ≤ s.start && s.stop ≤ stop then [' '] else []
      else (c.chars.take (stop - s.start)).drop (start - s.start)
    | .separator => [' ']
    | .tail => []

def textBetween (i : Input) (start stop : Nat) : String :=
  if stop ≤ start then "" else String.ofList (i.segments.flatMap (·.slice start stop))

def remaining (i : Input) : String := i.textBetween i.position i.length

def line (i : Input) : String := i.textBetween 0 i.length

def readChars : Nat → Input → List Char × Input
  | 0, i => ([], i)
  | n + 1, i =>
    match i.readChar with
    | (none, j) => ([], j)
    | (some c, j) =>
      let (cs, k) := readChars n j
      (c :: cs, k)

@[simp] theorem segments_seek (i : Input) (n : Nat) : (i.seek n).segments = i.segments := rfl

@[simp] theorem length_seek (i : Input) (n : Nat) : (i.seek n).length = i.length := rfl

@[simp] theorem segments_readChar (i : Input) : i.readChar.2.segments = i.segments := rfl

@[simp] theorem length_readChar (i : Input) : i.readChar.2.length = i.length := rfl

end Input

end CommandGrammar
