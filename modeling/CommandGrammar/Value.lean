import CommandGrammar.Number.Shortest

set_option autoImplicit false

namespace CommandGrammar

inductive TextForm where
  | owned
  | constant
  | shared
  | boxed
  deriving DecidableEq, Repr

inductive IntWidth where
  | w8
  | w16
  | w32
  | w64
  | w128
  | word
  deriving DecidableEq, Repr

structure IntType where
  signed : Bool
  width : IntWidth
  deriving DecidableEq, Repr

/-- Floating point numbers are kept as their bits. A `foreign` value belongs to a type of the caller's,
named by its `sort`. -/
inductive Value where
  | text (form : TextForm) (s : String)
  | integer (type : IntType) (n : Int)
  | float32 (bits : UInt32)
  | float64 (bits : UInt64)
  | bool (b : Bool)
  | char (c : Char)
  | unit
  | foreign (sort label : String)
  deriving DecidableEq, Repr

namespace Value

def ofString (s : String) : Value := .text .owned s

-- The text of an owned string, the only form a lookup by string finds.
def string? : Value → Option String
  | .text .owned s => some s
  | _ => none

@[simp] theorem string?_ofString (s : String) : (ofString s).string? = some s := rfl

end Value

/-- How values read as text, and which of them are text rather than objects. -/
structure Rendering where
  text : Value → String
  isText : Value → Bool

def Rendering.standard : Rendering where
  text
    | .text _ s => s
    | .integer _ n => toString n
    | .float32 bits => Number.single.render bits.toNat
    | .float64 bits => Number.double.render bits.toNat
    | .bool b => if b then "true" else "false"
    | .char c => String.singleton c
    | .unit => ""
    | .foreign _ _ => ""
  isText
    | .text _ _ => true
    | _ => false

end CommandGrammar
