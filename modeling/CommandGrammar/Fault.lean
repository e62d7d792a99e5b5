import CommandGrammar.Input.Basic

set_option autoImplicit false

namespace CommandGrammar

inductive Complaint where
  | keywordExpected (name found : String)
  | incorrectArgument (rest : String)
  | unknownCommand
  | argumentExpected
  | quoteEndExpected
  | invalidEscape (c : Char)
  | separatorExpected
  | flagValueExpected (name : String)
  | other (message : String)
  deriving DecidableEq, Repr

def Complaint.message (position : Nat) (line : String) : Complaint → String
  | .keywordExpected name found =>
    "Expected '" ++ name ++ "' but found '" ++ found ++ "' at position " ++ toString position
  | .incorrectArgument rest =>
    "Incorrect argument at position " ++ toString position ++ ": " ++ rest
  | .unknownCommand => "Unknown command: " ++ line
  | .argumentExpected => "Expected an argument"
  | .quoteEndExpected => "Expected end of quote"
  | .invalidEscape c => "Invalid escape sequence '\\" ++ String.singleton c ++ "' in quoted string"
  | .separatorExpected => "Expected whitespace to end one argument"
  | .flagValueExpected name => "Expected a value after '--" ++ name ++ "'"
  | .other message => message

/-- A `malformed` line is recoverable: the next branch may still accept it. With `notFound` the line was
read but nothing ran, and `failed` is what actions and redirections report. A cause is kept as its text. -/
inductive Fault where
  | malformed (complaint : Complaint) (position : Nat) (line : String) (cause : Option String)
  | notFound (line : String)
  | failed (message : String) (cause : Option String)
  deriving DecidableEq, Repr

namespace Fault

def here (i : Input) (complaint : Complaint) (cause : Option String) : Fault :=
  .malformed complaint i.position i.line cause

def incorrect (i : Input) (cause : Option String) : Fault :=
  here i (.incorrectArgument i.remaining) cause

def unknownCommand (i : Input) : Fault := here i .unknownCommand none

def nothingRan (i : Input) : Fault := .notFound i.line

def message : Fault → String
  | .malformed complaint position line _ => complaint.message position line
  | .notFound line => "Unknown or incomplete command: " ++ line
  | .failed message _ => message

def isMalformed : Fault → Bool
  | .malformed .. => true
  | _ => false

def isNotFound : Fault → Bool
  | .notFound _ => true
  | _ => false

def position? : Fault → Option Nat
  | .malformed _ position _ _ => some position
  | _ => none

def line? : Fault → Option String
  | .malformed _ _ line _ => some line
  | .notFound line => some line
  | .failed _ _ => none

def cause? : Fault → Option String
  | .malformed _ _ _ cause => cause
  | .notFound _ => none
  | .failed _ cause => cause

def caret? : Fault → Option String
  | .malformed _ position line _ =>
    some (line ++ "\n" ++ String.ofList (List.replicate position ' ') ++ "^")
  | _ => none

-- The same failure as a complaint about the line; one that is a complaint already keeps its own position.
def asMalformed (i : Input) : Fault → Fault
  | .malformed complaint position line cause => .malformed complaint position line cause
  | other => here i (.other other.message) (some other.message)

@[simp] theorem isMalformed_asMalformed (i : Input) (f : Fault) :
    (f.asMalformed i).isMalformed = true := by
  cases f <;> rfl

@[simp] theorem message_asMalformed (i : Input) (f : Fault) :
    (f.asMalformed i).message = f.message := by
  cases f <;> rfl

theorem asMalformed_of_isMalformed (i : Input) (f : Fault) (h : f.isMalformed = true) :
    f.asMalformed i = f := by
  cases f <;> simp_all [isMalformed, asMalformed]

end Fault

end CommandGrammar
