import CommandGrammar.Order.Insertion
import CommandGrammar.Span
import CommandGrammar.Text.Basic

set_option autoImplicit false

namespace CommandGrammar

structure Candidate where
  span : Span
  text : String
  tooltip : Option String
  deriving DecidableEq, Repr

namespace Candidate

-- The line with the span replaced. Positions beyond the end count as the end, and a span that ends
-- before it starts is empty.
def apply (c : Candidate) (line : String) : String :=
  let cs := line.toList
  let start := min c.span.start cs.length
  let stop := max start (min c.span.stop cs.length)
  String.ofList (cs.take start ++ c.text.toList ++ cs.drop stop)

def key (c : Candidate) : String × Option String := (c.text, c.tooltip)

def precedes (a b : Candidate) : Bool :=
  let x := Text.lowercase a.text
  let y := Text.lowercase b.text
  x < y || (x == y && a.text ≤ b.text)

def distinctFrom : List (String × Option String) → List Candidate → List Candidate
  | _, [] => []
  | seen, c :: rest =>
    if c.key ∈ seen then distinctFrom seen rest else c :: distinctFrom (c.key :: seen) rest

end Candidate

structure Completions where
  span : Span
  list : List Candidate
  deriving DecidableEq, Repr

namespace Completions

def empty : Completions := ⟨Span.point 0, []⟩

def isEmpty (c : Completions) : Bool := c.list.isEmpty

-- Keeps the first candidate of each key and sorts; equal texts stay in their order.
def ofCandidates (candidates : List Candidate) : Completions :=
  let kept := Candidate.distinctFrom [] candidates
  ⟨Span.coverAll (kept.map Candidate.span), Order.sort Candidate.precedes kept⟩

-- Completions of several branches in one list. A single branch that offers anything is left as it is.
def merge (branches : List Completions) : Completions :=
  match branches.filter (!·.isEmpty) with
  | [] => empty
  | [only] => only
  | several => ofCandidates (several.flatMap list)

-- Drops candidates and keeps the span, unless none is left.
def retain (c : Completions) (keep : Candidate → Bool) : Completions :=
  match c.list.filter keep with
  | [] => empty
  | kept => ⟨c.span, kept⟩

def truncate (c : Completions) (n : Nat) : Completions :=
  if c.list.length ≤ n then c else ofCandidates (c.list.take n)

@[simp] theorem ofCandidates_nil : ofCandidates [] = empty := by
  simp [ofCandidates, Candidate.distinctFrom, empty, Span.coverAll]

@[simp] theorem merge_nil : merge [] = empty := rfl

end Completions

structure Draft where
  typed : String
  start : Nat
  entries : List Candidate
  deriving DecidableEq, Repr

namespace Draft

def blank (typed : String) (start : Nat) : Draft := ⟨typed, start, []⟩

def typedLower (d : Draft) : String := Text.lowercase d.typed

def span (d : Draft) : Span := ⟨d.start, d.start + d.typed.length⟩

def offer (d : Draft) (text : String) (tooltip : Option String) : Draft :=
  if text == d.typed then d else { d with entries := d.entries ++ [⟨d.span, text, tooltip⟩] }

def offerAll (d : Draft) (items : List (String × Option String)) : Draft :=
  items.foldl (fun d item => d.offer item.1 item.2) d

def cleared (d : Draft) : Draft := blank d.typed d.start

def build (d : Draft) : Completions := Completions.ofCandidates d.entries

@[simp] theorem build_blank (typed : String) (start : Nat) :
    (blank typed start).build = Completions.empty := by
  simp [build, blank]

end Draft

end CommandGrammar
