import CommandGrammar.Span
import CommandGrammar.Input.Word

/-!
What reading a line has found out so far. A `View` holds what was matched, a `Frame` adds on whose
behalf and what is to be done, and a `Context` is a frame followed by those it redirected to.
-/

set_option autoImplicit false

namespace CommandGrammar

abbrev NodeId := Nat

namespace NodeId

def root : NodeId := 0

end NodeId

/-- What a recorded span stands for: a node of the grammar, or a place inside a composed argument. A
place after a value offers the flags of the pending members and values of the next one, a flag offers
values of its member. -/
inductive Matched where
  | node (id : NodeId)
  | afterValue (composed : NodeId) (pending : List NodeId) (next : Option NodeId)
  | flagValue (composed : NodeId) (member : Option NodeId)
  deriving DecidableEq, Repr

namespace Matched

def node? : Matched → Option NodeId
  | .node id => some id
  | _ => none

def composed? : Matched → Option NodeId
  | .node _ => none
  | .afterValue composed _ _ => some composed
  | .flagValue composed _ => some composed

def isPlace : Matched → Bool
  | .node _ => false
  | _ => true

end Matched

structure Step where
  matched : Matched
  span : Span
  deriving DecidableEq, Repr

structure Binding where
  name : String
  value : Value
  span : Span
  deriving DecidableEq, Repr

/-- The members of a composed argument left without a value: all of them in order of declaration, and those
of the positional part that was not reached. More plain values would be taken while `continues`. -/
structure Unset where
  continues : Bool
  pending : List String
  sequence : List String
  deriving DecidableEq, Repr

inductive Remark where
  | value (v : Value)
  | unset (u : Unset)
  deriving DecidableEq, Repr

structure Note where
  name : Option String
  remark : Remark
  deriving DecidableEq, Repr

structure View where
  span : Span
  steps : List Step
  arguments : List Binding
  notes : List Note
  deriving DecidableEq, Repr

namespace View

def empty (position : Nat) (notes : List Note) : View := ⟨Span.point position, [], [], notes⟩

def record (v : View) (matched : Matched) (span : Span) : View :=
  { v with span := v.span.cover span, steps := v.steps ++ [⟨matched, span⟩] }

def bind (v : View) (name : String) (value : Value) (span : Span) : View :=
  { v with arguments := v.arguments ++ [⟨name, value, span⟩] }

def annotate (v : View) (name : Option String) (remark : Remark) : View :=
  { v with notes := v.notes ++ [⟨name, remark⟩] }

def value? (v : View) (name : String) : Option Value :=
  (v.arguments.reverse.find? (·.name == name)).map Binding.value

def argument? {β : Type} (v : View) (select : Value → Option β) (name : String) : Option β :=
  (v.arguments.reverse.filter (·.name == name)).findSome? fun b => select b.value

def argumentOf? {β : Type} (v : View) (select : Value → Option β) : Option β :=
  v.arguments.reverse.findSome? fun b => select b.value

def note? {β : Type} (v : View) (select : Remark → Option β) (name : String) : Option β :=
  (v.notes.reverse.filter (·.name == some name)).findSome? fun n => select n.remark

def noteOf? {β : Type} (v : View) (select : Remark → Option β) : Option β :=
  v.notes.reverse.findSome? fun n => select n.remark

def unset? (v : View) : Option Unset :=
  v.noteOf? fun
    | .unset u => some u
    | .value _ => none

-- The newest node, places inside composed arguments left aside.
def lastNode? (v : View) : Option NodeId := v.steps.reverse.findSome? (·.matched.node?)

end View

inductive Action (A : Type) where
  | help
  | custom (a : A)
  deriving DecidableEq, Repr

structure Frame (S A : Type) extends View where
  source : S
  root : NodeId
  action : Option (Action A)
  -- Whether nodes without an action of their own keep the one settled before them.
  inherits : Bool
  -- Whether running the frame means running the one it redirects to.
  executesChild : Bool

namespace Frame

variable {S A : Type}

def start (source : S) (root : NodeId) (position : Nat) (notes : List Note) : Frame S A :=
  { View.empty position notes with
    source, root, action := none, inherits := false, executesChild := true }

end Frame

/-- A frame and those after it, each redirected to by the one before. The line is there only
while actions run. -/
structure Context (S A : Type) extends Frame S A where
  redirected : List (Frame S A)
  input : Option Input

namespace Context

variable {S A : Type}

def ofFrame (frame : Frame S A) : Context S A := { frame with redirected := [], input := none }

def start (source : S) (root : NodeId) (position : Nat) : Context S A :=
  ofFrame (Frame.start source root position [])

def updateView (c : Context S A) (f : View → View) : Context S A := { c with toView := f c.toView }

def record (c : Context S A) (matched : Matched) (span : Span) : Context S A :=
  c.updateView (·.record matched span)

def bind (c : Context S A) (name : String) (value : Value) (span : Span) : Context S A :=
  c.updateView (·.bind name value span)

def annotate (c : Context S A) (name : Option String) (remark : Remark) : Context S A :=
  c.updateView (·.annotate name remark)

def withAction (c : Context S A) (action : Option (Action A)) : Context S A := { c with action }

def frames (c : Context S A) : List (Frame S A) := c.toFrame :: c.redirected

def hasChild (c : Context S A) : Bool := !c.redirected.isEmpty

def child? (c : Context S A) : Option (Context S A) :=
  match c.redirected with
  | [] => none
  | frame :: rest => some { frame with redirected := rest, input := none }

def redirectTo (c child : Context S A) : Context S A := { c with redirected := child.frames }

-- A new context for what follows a redirection. Of what was found only the notes go along.
def freshChild (c : Context S A) (root : NodeId) (position : Nat) : Context S A :=
  ofFrame (Frame.start c.source root position c.notes)

def onBehalfOf (c : Context S A) (source : S) : Context S A := { c with source }

@[simp] theorem frames_child {c d : Context S A} (h : c.child? = some d) :
    d.frames = c.redirected := by
  unfold child? at h
  split at h <;> simp_all [frames]
  subst h
  exact ⟨rfl, rfl⟩

end Context

end CommandGrammar
