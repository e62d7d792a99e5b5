import CommandGrammar.Parsing.Composed

/-!
Parsing a line. Every child that may match the next word is tried on its own; the first branch that
redirects or is a composed argument decides, and otherwise the best of the branches that matched.
-/

set_option autoImplicit false

namespace CommandGrammar

structure Parse (S A : Type) where
  context : Context S A
  rest : Input
  faults : List (NodeId × Fault)

namespace Parse

variable {S A : Type}

def isComplete (p : Parse S A) : Bool := !p.rest.hasMore && p.faults.isEmpty

-- Parses that read the whole line come first, then those without complaints.
def betterThan (p q : Parse S A) : Bool :=
  if p.rest.hasMore == q.rest.hasMore then p.faults.isEmpty && !q.faults.isEmpty
  else !p.rest.hasMore

def best : List (Parse S A) → Option (Parse S A)
  | [] => none
  | p :: rest =>
    match best rest with
    | none => some p
    | some q => some (if q.betterThan p then q else p)

end Parse

inductive Trial (S A : Type) where
  -- The branch decides, whatever the other children do.
  | decided (p : Parse S A)
  -- The branch decides with a complaint, which comes behind those about the children before.
  | stuck (c : Context S A) (i : Input) (f : Fault)
  | matched (p : Parse S A)
  | rejected (f : Fault)

namespace Grammar

variable {S A : Type}

def tryChild (g : Grammar S A) (below : NodeId → Context S A → Input → Parse S A)
    (c : Context S A) (i : Input) (id : NodeId) : Trial S A :=
  let n := g.node id
  match n.composed? with
  | some members =>
    let attempt := n.matchComposed g id members c i
    match attempt.fault with
    | none => .decided ⟨attempt.context, attempt.input, []⟩
    | some f => .stuck attempt.context attempt.input f
  | none =>
    let attempt := n.matchChild id c i
    match attempt.fault with
    | some f => .rejected f
    | none =>
      if !attempt.input.hasMore then .matched ⟨attempt.context, attempt.input, []⟩
      else
        -- Exactly one character separates a word from the next; further blanks belong to that one.
        let next := attempt.input.readChar.2
        match n.redirect with
        | none => .matched (below id attempt.context next)
        | some target =>
          let p := below target (attempt.context.freshChild target next.position) next
          .decided { p with context := attempt.context.redirectTo p.context }

def tryChildren (attempt : NodeId → Trial S A) (c : Context S A) (i : Input) :
    List NodeId → List (NodeId × Fault) → List (Parse S A) → Parse S A
  | [], faults, found => (Parse.best found).getD ⟨c, i, faults⟩
  | id :: rest, faults, found =>
    match attempt id with
    | .decided p => p
    | .stuck c i f => ⟨c, i, faults ++ [(id, f)]⟩
    | .matched p => tryChildren attempt c i rest faults (found ++ [p])
    | .rejected f => tryChildren attempt c i rest (faults ++ [(id, f)]) found

def candidates (g : Grammar S A) (id : NodeId) (source : S) (i : Input) : List NodeId :=
  (g.relevant id i).filter fun child => (g.node child).usableBy source

def parseWithin (g : Grammar S A) : Nat → NodeId → Context S A → Input → Parse S A
  | 0, _, c, i => ⟨c, i, []⟩
  | depth + 1, id, c, i =>
    tryChildren (g.tryChild (g.parseWithin depth) c i) c i (g.candidates id c.source i) [] []

-- Parses what follows a node. Each word takes a position at least, so the line cannot go
-- deeper than it is long.
def parseBelow (g : Grammar S A) (id : NodeId) (c : Context S A) (i : Input) : Parse S A :=
  g.parseWithin (i.length - i.position + 1) id c i

def parse (g : Grammar S A) (source : S) (i : Input) : Parse S A :=
  g.parseBelow .root (.start source .root i.position) i

end Grammar

structure MatchedSpan where
  span : Span
  name : String
  isLiteral : Bool
  deriving DecidableEq, Repr

namespace Parse

variable {S A : Type}

-- The complaint that keeps the line from being run. A single one stands for itself; several make an
-- unknown command where nothing matched, and else an incorrect argument where reading stopped.
def check (p : Parse S A) : Except Fault Unit :=
  if p.isComplete then .ok ()
  else match p.faults with
    | [(_, only)] => .error only
    | _ =>
      if p.context.span.isEmpty then .error (.unknownCommand p.rest)
      else .error (.incorrect p.rest none)

def matchedSpans (g : Grammar S A) (p : Parse S A) : List MatchedSpan :=
  p.context.frames.flatMap fun frame =>
    frame.steps.filterMap fun step =>
      step.matched.node?.map fun id => ⟨step.span, (g.node id).name, (g.node id).isLiteral⟩

end Parse

end CommandGrammar
