import CommandGrammar.Completion.Candidate
import CommandGrammar.Context
import CommandGrammar.Fault

set_option autoImplicit false

namespace CommandGrammar

/-- A reason not to accept an argument. A bare text becomes the cause of a complaint about an
incorrect argument. -/
inductive Rejection where
  | fault (f : Fault)
  | reason (text : String)
  deriving DecidableEq, Repr

structure Reading where
  taken : Nat
  answer : Except Rejection Value

namespace Reading

def between (i j : Input) (answer : Except Rejection Value) : Reading :=
  ⟨j.position - i.position, answer⟩

def advance (r : Reading) (i : Input) : Input := i.seek (i.position + r.taken)

end Reading

inductive Reply where
  | offered (c : Completions)
  | failed (f : Fault)
  | never
  deriving DecidableEq, Repr

structure ArgumentType (S A : Type) where
  read : Input → Context S A → Reading
  complete : Context S A → Draft → Reply := fun _ _ => .offered .empty

namespace ArgumentType

variable {S A : Type}

def word : ArgumentType S A where
  read i _ :=
    match i.readWord with
    | (some w, j) => .between i j (.ok w.value)
    | (none, j) => .between i j (.error (.fault (.here j .argumentExpected none)))

def rest : ArgumentType S A where
  read i _ :=
    let text := i.remaining
    if text.isEmpty then .between i i (.error (.fault (.here i .argumentExpected none)))
    else .between i (i.seek i.length) (.ok (.ofString text))

def chosen? (choices : List (String × Value)) (name : String) : Option Value :=
  (choices.find? (·.1 == name)).map Prod.snd

-- One of some names, each standing for a value. Names are told apart by case, and completed
-- without regard to it.
def choice (choices : List (String × Value)) : ArgumentType S A where
  read i _ :=
    match i.readWord with
    | (found, j) =>
      match found.bind fun w => chosen? choices w.asText with
      | some v => .between i j (.ok v)
      | none => .between i i (.error (.fault (.incorrect i none)))
  complete _ draft :=
    let names := choices.map Prod.fst
    .offered ((draft.offerAll
      ((names.filter (Text.completes · draft.typed)).map (·, none))).build)

def choiceOf (names : List String) : ArgumentType S A :=
  choice (names.map fun n => (n, .ofString n))

end ArgumentType

end CommandGrammar
