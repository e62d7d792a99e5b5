import CommandGrammar.Grammar.Basic

set_option autoImplicit false

namespace CommandGrammar

/-- How far a branch got. A branch that failed keeps what it had recorded. -/
structure Attempt (S A : Type) where
  context : Context S A
  input : Input
  fault : Option Fault

namespace Attempt

variable {S A : Type}

def succeed (c : Context S A) (i : Input) : Attempt S A := ⟨c, i, none⟩

def fail (c : Context S A) (i : Input) (f : Fault) : Attempt S A := ⟨c, i, some f⟩

def andThen (a : Attempt S A) (next : Context S A → Input → Attempt S A) : Attempt S A :=
  match a.fault with
  | none => next a.context a.input
  | some _ => a

def asMalformed (a : Attempt S A) : Attempt S A :=
  { a with fault := a.fault.map (·.asMalformed a.input) }

@[simp] theorem andThen_succeed (c : Context S A) (i : Input)
    (next : Context S A → Input → Attempt S A) : (succeed c i).andThen next = next c i := rfl

@[simp] theorem andThen_fail (c : Context S A) (i : Input) (f : Fault)
    (next : Context S A → Input → Attempt S A) : (fail c i f).andThen next = fail c i f := rfl

end Attempt

variable {S A : Type}

def matchLiteral (id : NodeId) (name : String) (c : Context S A) (i : Input) : Attempt S A :=
  let (word, j) := i.readWord
  let found := (word.map Word.asText).getD ""
  if word.isSome && found == name then
    .succeed (c.record (.node id) ⟨i.position, j.position⟩) j
  else .fail c i (.here i (.keywordExpected name found) none)

-- Records what became of reading an argument between two states of the line. A failing argument leaves the
-- position where it was.
def recordArgument (id : NodeId) (name : String) (c : Context S A) (i j : Input)
    (answer : Except Rejection Value) : Attempt S A :=
  match answer with
  | .ok value =>
    let span : Span := ⟨i.position, j.position⟩
    .succeed ((c.bind name value span).record (.node id) span) j
  | .error (.fault f) => .fail c i f
  | .error (.reason text) => .fail c i (.incorrect i (some text))

def matchArgument (id : NodeId) (name : String) (type : ArgumentType S A) (c : Context S A)
    (i : Input) : Attempt S A :=
  let reading := type.read i c
  recordArgument id name c i (reading.advance i) reading.answer

namespace Node

def matchWord (n : Node S A) (id : NodeId) (c : Context S A) (i : Input) : Attempt S A :=
  match n.role with
  | .literal name => matchLiteral id name c i
  | .argument name type => matchArgument id name type c i
  | _ => .succeed c i

def settle (n : Node S A) (c : Context S A) (i : Input) : Attempt S A :=
  let c := { c with
    inherits := n.inheritance.setting?.getD c.inherits
    executesChild := c.executesChild && n.executesChild }
  match n.choose with
  | some choose =>
    match choose c.toView with
    | .ok action => .succeed (c.withAction (some action)) i
    | .error f => .fail c i f
  | none => .succeed (if c.inherits then c else c.withAction none) i

def endWord (c : Context S A) (i : Input) : Attempt S A :=
  if i.hasMore && !i.peek.any Text.isBlank then .fail c i (.here i .separatorExpected none)
  else .succeed c i

def matchChild (n : Node S A) (id : NodeId) (c : Context S A) (i : Input) : Attempt S A :=
  (((n.matchWord id c i).andThen endWord).andThen n.settle).asMalformed

end Node

end CommandGrammar
