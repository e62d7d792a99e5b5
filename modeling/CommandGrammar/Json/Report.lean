import CommandGrammar.Parsing.Parse

set_option autoImplicit false

namespace CommandGrammar

inductive Json where
  | null
  | bool (b : Bool)
  | number (n : Int)
  | string (s : String)
  | array (items : List Json)
  | object (entries : List (String × Json))

namespace Json

def ofOption {α : Type} (f : α → Json) : Option α → Json
  | none => .null
  | some a => f a

def ofNat (n : Nat) : Json := .number n

end Json

namespace Fault

def kind : Fault → String
  | .malformed .. => "syntax"
  | .notFound _ => "not_found"
  | .failed _ _ => "failed"

def toJson (f : Fault) : Json :=
  .object [("cursor", .ofOption .ofNat f.position?), ("input", .ofOption .string f.line?),
    ("kind", .string f.kind), ("message", .string f.message)]

end Fault

namespace Span

def toJson (s : Span) : Json := .object [("start", .ofNat s.start), ("end", .ofNat s.stop)]

end Span

namespace Completions

def candidateJson (c : Candidate) : Json :=
  .object ([("range", c.span.toJson), ("text", .string c.text)] ++
    (c.tooltip.map fun text => ("tooltip", .string text)).toList)

def toJson (c : Completions) : Json :=
  .object [("range", c.span.toJson), ("suggestions", .array (c.list.map candidateJson))]

end Completions

namespace MatchedSpan

def toJson (m : MatchedSpan) : Json :=
  .object [("literal", .bool m.isLiteral), ("name", .string m.name),
    ("range", .object [("end", .ofNat m.span.stop), ("start", .ofNat m.span.start)])]

end MatchedSpan

end CommandGrammar
