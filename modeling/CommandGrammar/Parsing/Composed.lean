import CommandGrammar.Parsing.Attempt

/-!
Reading a composed argument. Values are taken one after the other until a word is the flag of a pending
member; from then on every value needs its flag. Places are recorded between values, and what is left
unset at the end is noted.
-/

set_option autoImplicit false

namespace CommandGrammar

variable {S A : Type}

structure Progress (S A : Type) where
  attempt : Attempt S A
  pending : List NodeId
  sequence : List NodeId
  -- Whether the positional part ended because of a flag.
  flagged : Bool

/-- What reading a composed argument asks of its members: how they are called, and how one takes a value. -/
@[ext] structure Readers (S A : Type) where
  name : NodeId → String
  take : NodeId → Context S A → Input → Attempt S A

abbrev Grammar.readers (g : Grammar S A) : Readers S A where
  name m := (g.node m).name
  take m := (g.node m).matchWord m

instance : Coe (Grammar S A) (Readers S A) := ⟨Grammar.readers⟩

namespace Composed

def takeSeparator (c : Context S A) (i : Input) : Attempt S A :=
  match i.peek with
  | none => .succeed c i
  | some ch =>
    if Text.isBlank ch then .succeed c i.readChar.2
    else .fail c i (.here i .separatorExpected none)

def recordPlace (composed : NodeId) (pending : List NodeId) (next : Option NodeId)
    (c : Context S A) (i : Input) : Attempt S A :=
  .succeed (c.record (.afterValue composed pending next) (.point i.position)) i

def without (member : NodeId) (pending : List NodeId) : List NodeId := pending.filter (· != member)

def takeValues (r : Readers S A) (id : NodeId) (members : Composed) :
    List NodeId → List NodeId → Context S A → Input → Progress S A
  | [], pending, c, i => ⟨.succeed c i, pending, [], false⟩
  | next :: later, pending, c, i =>
    match i.peekWord with
    | none => ⟨.succeed c i, pending, next :: later, false⟩
    | some word =>
      if (members.pendingFlag word.asText pending).isSome then
        ⟨.succeed c i, pending, next :: later, true⟩
      else
        let pending := without next pending
        let attempt := ((r.take next c i).andThen takeSeparator).andThen
          (recordPlace id pending later.head?)
        match attempt.fault with
        | none => takeValues r id members later pending attempt.context attempt.input
        | some _ => ⟨attempt, pending, later, false⟩

-- Takes one value behind its flag; the line stands right behind the flag, which began at `start`.
def takeFlagged (r : Readers S A) (id : NodeId) (start : Nat) (member : NodeId)
    (pending : List NodeId) (c : Context S A) (i : Input) : Attempt S A :=
  if !i.hasMore then
    .fail (c.record (.flagValue id none) ⟨start, i.position⟩) i
      (.here i (.flagValueExpected (r.name member)) none)
  else
    let atValue := (takeSeparator c i).andThen fun c i =>
      .succeed (c.record (.flagValue id (some member)) ⟨start, i.position⟩) i
    (atValue.andThen (r.take member)).andThen fun c i =>
      if i.hasMore then (takeSeparator c i).andThen (recordPlace id pending none)
      else .succeed c i

def takeFlags (r : Readers S A) (id : NodeId) (members : Composed) :
    Nat → List NodeId → Context S A → Input → Attempt S A × List NodeId
  | 0, pending, c, i => (.succeed c i, pending)
  | n + 1, pending, c, i =>
    let (word, j) := i.readWord
    match word.bind fun w => members.pendingFlag w.asText pending with
    -- Any other word is left for what follows, and so is the white space before it.
    | none => (.succeed c i, pending)
    | some member =>
      let pending := without member pending
      let attempt := takeFlagged r id i.position member pending c j
      match attempt.fault with
      | none => takeFlags r id members n pending attempt.context attempt.input
      | some _ => (attempt, pending)

def unset? (r : Readers S A) (pending sequence : List NodeId) : Option Unset :=
  if pending.isEmpty then none
  else some
    { continues := pending.length == sequence.length && !sequence.isEmpty
      pending := pending.map r.name
      sequence := sequence.map r.name }

def noteUnset (r : Readers S A) (pending sequence : List NodeId) (c : Context S A) (i : Input) :
    Attempt S A :=
  match unset? r pending sequence with
  | some u => .succeed (c.annotate none (.unset u)) i
  | none => .succeed c i

-- Reads all values of a composed argument. Every flag settles one member, so there are no more flags than
-- pending members.
def read (r : Readers S A) (id : NodeId) (members : Composed) (c : Context S A) (i : Input) :
    Attempt S A :=
  let place := c.record (.afterValue id members.sequence members.sequence.head?) (.point i.position)
  let values := takeValues r id members members.sequence members.sequence place i
  match values.attempt.fault with
  | some _ => values.attempt
  | none =>
    let (attempt, pending) :=
      if values.flagged then
        takeFlags r id members values.pending.length values.pending values.attempt.context
          values.attempt.input
      else (values.attempt, values.pending)
    attempt.andThen (noteUnset r pending values.sequence)

end Composed

def Node.matchComposed (g : Grammar S A) (n : Node S A) (id : NodeId) (members : Composed)
    (c : Context S A) (i : Input) : Attempt S A :=
  ((members.read g id c i).andThen n.settle).asMalformed

end CommandGrammar
