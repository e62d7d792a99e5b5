import CommandGrammar.Parsing.Parse

/-!
Running a parsed line, in waves. A context that redirects leads to contexts of the next wave, one for every
source its modifier answers with; any other context runs its action.
-/

set_option autoImplicit false

namespace CommandGrammar

structure Run (E α : Type) where
  events : List E
  result : Except Fault α

namespace Run

variable {E α β : Type}

def done (a : α) : Run E α := ⟨[], .ok a⟩

def fail (f : Fault) : Run E α := ⟨[], .error f⟩

def andThen (r : Run E α) (next : α → Run E β) : Run E β :=
  match r.result with
  | .ok a => ⟨r.events ++ (next a).events, (next a).result⟩
  | .error f => ⟨r.events, .error f⟩

@[simp] theorem andThen_done (a : α) (next : α → Run E β) : (done a).andThen next = next a := rfl

@[simp] theorem andThen_fail (f : Fault) (next : α → Run E β) :
    (fail f).andThen next = fail f := rfl

end Run

namespace Context

variable {S A : Type}

def lastNode? (g : Grammar S A) (c : Context S A) : Option (Node S A) :=
  c.toView.lastNode?.bind g.node?

def modifier? (g : Grammar S A) (c : Context S A) : Option (Context S A → Except Fault (List S)) :=
  (c.lastNode? g).bind fun n => n.modifier

def isForked (g : Grammar S A) (c : Context S A) : Bool :=
  ((c.lastNode? g).map fun n => n.forked).getD false

-- The sources a context redirects with. In a fork, failing means having none.
def redirectedSources (g : Grammar S A) (c : Context S A) : Except Fault (List S) :=
  match c.modifier? g with
  | none => .ok [c.source]
  | some modifier =>
    match modifier c with
    | .ok sources => .ok sources
    | .error f => if c.isForked g then .ok [] else .error f

def runAs (c : Context S A) (i : Input) (source : S) : Context S A :=
  { c.onBehalfOf source with input := some i }

end Context

namespace Execution

variable {S A E : Type}

structure Wave (S A : Type) where
  next : List (Context S A)
  count : Nat

def runAction (i : Input) (perform : Context S A → Action A → Run E Unit) (c : Context S A) :
    Run E (Wave S A) :=
  match c.action with
  | some action => (perform c action).andThen fun _ => .done ⟨[], 1⟩
  | none => .fail (.nothingRan i)

def runContext (g : Grammar S A) (i : Input) (perform : Context S A → Action A → Run E Unit)
    (c : Context S A) : Run E (Wave S A) :=
  match c.child? with
  | none => runAction i perform c
  | some child =>
    if !c.executesChild then runAction i perform c
    else if child.steps.isEmpty then .done ⟨[], 0⟩
    else match c.redirectedSources g with
      | .ok sources => .done ⟨sources.map (child.runAs i), 0⟩
      | .error f => .fail f

def runWave (g : Grammar S A) (i : Input) (perform : Context S A → Action A → Run E Unit) :
    List (Context S A) → Run E (Wave S A)
  | [] => .done ⟨[], 0⟩
  | c :: rest =>
    (runContext g i perform c).andThen fun first =>
      (runWave g i perform rest).andThen fun others =>
        .done ⟨first.next ++ others.next, first.count + others.count⟩

def runWaves (g : Grammar S A) (i : Input) (perform : Context S A → Action A → Run E Unit) :
    Nat → List (Context S A) → Run E Nat
  | 0, _ => .done 0
  | _, [] => .done 0
  | n + 1, wave =>
    (runWave g i perform wave).andThen fun first =>
      (runWaves g i perform n first.next).andThen fun later => .done (first.count + later)

end Execution

-- Runs a parsed line and counts the actions that ran. An incomplete line does not run, and a line for
-- which nothing ran has failed. There is a wave for every frame at most.
def Parse.execute {S A E : Type} (g : Grammar S A) (perform : Context S A → Action A → Run E Unit)
    (p : Parse S A) : Run E Nat :=
  match p.check with
  | .error f => .fail f
  | .ok () =>
    let top := p.context.runAs p.rest p.context.source
    (Execution.runWaves g p.rest perform top.frames.length [top]).andThen fun count =>
      if count = 0 then .fail (.nothingRan p.rest) else .done count

end CommandGrammar
