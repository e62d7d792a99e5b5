import CommandGrammar.Argument.Basic

set_option autoImplicit false

namespace CommandGrammar

def NameIndex : Type := String → Option NodeId

namespace NameIndex

def empty : NameIndex := fun _ => none

def find? (index : NameIndex) (name : String) : Option NodeId := index name

def insert (index : NameIndex) (name : String) (id : NodeId) : NameIndex :=
  fun n => if n = name then some id else index n

def dropNode (index : NameIndex) (id : NodeId) : NameIndex :=
  fun n => (index n).filter (· != id)

-- Of several entries with one name the last counts.
def ofList (entries : List (String × NodeId)) : NameIndex :=
  entries.foldl (fun index e => index.insert e.1 e.2) empty

@[simp] theorem find?_empty (name : String) : empty.find? name = none := rfl

@[simp] theorem find?_insert (index : NameIndex) (name other : String) (id : NodeId) :
    (index.insert name id).find? other = if other = name then some id else index.find? other := rfl

@[simp] theorem find?_dropNode (index : NameIndex) (id : NodeId) (name : String) :
    (index.dropNode id).find? name = (index.find? name).filter (· != id) := rfl

@[ext] theorem ext {a b : NameIndex} (h : ∀ name, a.find? name = b.find? name) : a = b := funext h

end NameIndex

/-- What a node without an action of its own does to one settled before it: keep it from here on, drop
it from here on, or follow the setting in force. -/
inductive Inheritance where
  | keep
  | drop
  | follow
  deriving DecidableEq, Repr

def Inheritance.ofBool : Bool → Inheritance
  | true => .keep
  | false => .drop

def Inheritance.setting? : Inheritance → Option Bool
  | .keep => some true
  | .drop => some false
  | .follow => none

structure Attributes (S A : Type) where
  requirement : Option (S → Bool) := none
  -- Settles the action once the node has matched, without knowing the source.
  choose : Option (View → Except Fault (Action A)) := none
  redirect : Option NodeId := none
  -- The sources a redirection runs with.
  modifier : Option (Context S A → Except Fault (List S)) := none
  -- Whether a failing modifier drops the branch only.
  forked : Bool := false
  inheritance : Inheritance := .follow
  executesChild : Bool := true
  description : Option String := none

structure Composed where
  sequence : List NodeId
  byName : NameIndex

namespace Composed

def ofMembers (members : List (String × NodeId)) : Composed :=
  ⟨members.map Prod.snd, .ofList members⟩

def pendingFlag (c : Composed) (word : String) (pending : List NodeId) : Option NodeId :=
  match word.toList with
  | '-' :: '-' :: name => (c.byName.find? (String.ofList name)).filter (· ∈ pending)
  | _ => none

end Composed

inductive Role (S A : Type) where
  | root
  | literal (name : String)
  | argument (name : String) (type : ArgumentType S A)
  | composed (members : Composed)

/-- The two indexes hold the children by name: all of them, and the literals among them. -/
structure Node (S A : Type) extends Attributes S A where
  role : Role S A
  children : List NodeId := []
  byName : NameIndex := .empty
  literals : NameIndex := .empty

namespace Node

variable {S A : Type}

def ofRole (role : Role S A) (attributes : Attributes S A) : Node S A := { attributes with role }

def blankRoot : Node S A := ofRole .root {}

def name (n : Node S A) : String :=
  match n.role with
  | .literal name => name
  | .argument name _ => name
  | _ => ""

def isRoot (n : Node S A) : Bool :=
  match n.role with
  | .root => true
  | _ => false

def isLiteral (n : Node S A) : Bool :=
  match n.role with
  | .literal _ => true
  | _ => false

def isArgument (n : Node S A) : Bool :=
  match n.role with
  | .argument _ _ => true
  | _ => false

def composed? (n : Node S A) : Option Composed :=
  match n.role with
  | .composed members => some members
  | _ => none

def isComposed (n : Node S A) : Bool := n.composed?.isSome

def hasAction (n : Node S A) : Bool := n.choose.isSome

def usableBy (n : Node S A) (source : S) : Bool := n.requirement.all (· source)

end Node

end CommandGrammar
