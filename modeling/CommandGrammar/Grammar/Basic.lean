import CommandGrammar.Grammar.Node

set_option autoImplicit false

namespace CommandGrammar

structure Grammar (S A : Type) where
  nodes : List (Node S A)

namespace Grammar

variable {S A : Type}

def empty : Grammar S A := ⟨[.blankRoot]⟩

def node? (g : Grammar S A) (id : NodeId) : Option (Node S A) := g.nodes[id]?

def node (g : Grammar S A) (id : NodeId) : Node S A := (g.node? id).getD .blankRoot

def nodeCount (g : Grammar S A) : Nat := g.nodes.length

def hasCommands (g : Grammar S A) : Bool := !(g.node .root).children.isEmpty

def find? (g : Grammar S A) (path : List String) : Option NodeId :=
  path.foldlM (fun id name => (g.node id).byName.find? name) NodeId.root

-- The children to try for the next word: the literal that is the word, or else the arguments, or
-- else all children.
def relevant (g : Grammar S A) (id : NodeId) (i : Input) : List NodeId :=
  match i.peekWord.bind fun w => (g.node id).literals.find? w.asText with
  | some child => [child]
  | none =>
    match (g.node id).children.filter fun child => (g.node child).isArgument with
    | [] => (g.node id).children
    | arguments => arguments

def listedBefore (g : Grammar S A) (a b : NodeId) : Bool :=
  let m := g.node a
  let n := g.node b
  if m.isLiteral == n.isLiteral then Text.lowercase m.name ≤ Text.lowercase n.name
  else m.isLiteral

def listedChildren (g : Grammar S A) (id : NodeId) : List NodeId :=
  Order.sort g.listedBefore (g.node id).children

@[simp] theorem nodeCount_empty : (empty : Grammar S A).nodeCount = 1 := rfl

theorem node_of_node? {g : Grammar S A} {id : NodeId} {n : Node S A} (h : g.node? id = some n) :
    g.node id = n := by
  simp [node, h]

end Grammar

end CommandGrammar
