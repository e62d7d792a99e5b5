import CommandGrammar.Grammar.Basic

set_option autoImplicit false

namespace CommandGrammar

inductive Blueprint (S A : Type) where
  | literal (name : String) (attributes : Attributes S A) (children : List (Blueprint S A))
  | argument (name : String) (type : ArgumentType S A) (attributes : Attributes S A)
      (children : List (Blueprint S A))
  | composed (members : List (Blueprint S A)) (attributes : Attributes S A)
      (children : List (Blueprint S A))

namespace Blueprint

variable {S A : Type}

def name : Blueprint S A → String
  | literal name _ _ => name
  | argument name _ _ _ => name
  | composed _ _ _ => ""

def attributes : Blueprint S A → Attributes S A
  | literal _ attributes _ => attributes
  | argument _ _ attributes _ => attributes
  | composed _ attributes _ => attributes

end Blueprint

inductive RegistrationError where
  | unknownNode (id : NodeId)
  -- Members of a composed argument are plain arguments without children.
  | composedMember (name : String)
  -- A composed argument ends its branch.
  | composedParent (id : NodeId)
  deriving DecidableEq, Repr

def RegistrationError.message : RegistrationError → String
  | .unknownNode id => "unknown node #" ++ toString id
  | .composedMember name => "composed argument member '" ++ name ++ "' is not an argument node"
  | .composedParent id =>
    "node #" ++ toString id ++ " is a composed argument and cannot take children"

-- Takes a child in, in the place of the one that had its name, or else behind the others.
def Node.adopt {S A : Type} (parent child : Node S A) (id : NodeId) : Node S A :=
  let cleared :=
    match parent.byName.find? child.name with
    | some previous =>
      { parent with
        children := parent.children.replace previous id
        literals := parent.literals.dropNode previous }
    | none => { parent with children := parent.children ++ [id] }
  { cleared with
    byName := parent.byName.insert child.name id
    literals :=
      if child.isLiteral then cleared.literals.insert child.name id else cleared.literals }

namespace Grammar

variable {S A : Type}

def push (g : Grammar S A) (n : Node S A) : Grammar S A × NodeId :=
  (⟨g.nodes ++ [n]⟩, g.nodeCount)

def update (g : Grammar S A) (id : NodeId) (f : Node S A → Node S A) : Grammar S A :=
  ⟨g.nodes.modify id f⟩

def attach (g : Grammar S A) (parent child : NodeId) : Grammar S A :=
  g.update parent (·.adopt (g.node child) child)

def checkParent (g : Grammar S A) (parent : NodeId) : Except RegistrationError Unit :=
  match g.node? parent with
  | none => .error (.unknownNode parent)
  | some n => if n.isComposed then .error (.composedParent parent) else .ok ()

def checkRedirect (g : Grammar S A) (attributes : Attributes S A) : Except RegistrationError Unit :=
  match attributes.redirect with
  | none => .ok ()
  | some target => if (g.node? target).isSome then .ok () else .error (.unknownNode target)

-- A registration that may have failed. The grammar keeps what was added before the failure.
abbrev Registered (S A α : Type) : Type := Grammar S A × Except RegistrationError α

def Registered.andThen {α β : Type} (r : Registered S A α)
    (next : Grammar S A → α → Registered S A β) : Registered S A β :=
  match r with
  | (g, .ok a) => next g a
  | (g, .error e) => (g, .error e)

def addMember (g : Grammar S A) : Blueprint S A → Registered S A (String × NodeId)
  | .argument name type attributes [] =>
    match g.checkRedirect attributes with
    | .error e => (g, .error e)
    | .ok () =>
      let (g, id) := g.push (.ofRole (.argument name type) attributes)
      (g, .ok (name, id))
  | other => (g, .error (.composedMember other.name))

def addMembers (g : Grammar S A) : List (Blueprint S A) → Registered S A (List (String × NodeId))
  | [] => (g, .ok [])
  | b :: rest => Registered.andThen (g.addMember b) fun g entry =>
      Registered.andThen (g.addMembers rest) fun g entries => (g, .ok (entry :: entries))

def place (g : Grammar S A) (parent : NodeId) (attributes : Attributes S A)
    (role : Grammar S A → Registered S A (Role S A)) : Registered S A NodeId :=
  match g.checkParent parent with
  | .error e => (g, .error e)
  | .ok () =>
    match g.checkRedirect attributes with
    | .error e => (g, .error e)
    | .ok () =>
      Registered.andThen (role g) fun g role =>
        let (g, id) := g.push (.ofRole role attributes)
        (g.attach parent id, .ok id)

mutual

def register (g : Grammar S A) (parent : NodeId) : Blueprint S A → Registered S A NodeId
  | .literal name attributes children =>
    Registered.andThen (g.place parent attributes fun g => (g, .ok (.literal name)))
      fun g id => registerBelow g id children
  | .argument name type attributes children =>
    Registered.andThen (g.place parent attributes fun g => (g, .ok (.argument name type)))
      fun g id => registerBelow g id children
  | .composed members attributes children =>
    Registered.andThen (g.place parent attributes fun g =>
        Registered.andThen (g.addMembers members) fun g entries =>
          (g, .ok (.composed (.ofMembers entries))))
      fun g id => registerBelow g id children

def registerBelow (g : Grammar S A) (parent : NodeId) :
    List (Blueprint S A) → Registered S A NodeId
  | [] => (g, .ok parent)
  | b :: rest =>
    Registered.andThen (register g parent b) fun g _ => registerBelow g parent rest

end

@[simp] theorem nodeCount_push (g : Grammar S A) (n : Node S A) :
    (g.push n).1.nodeCount = g.nodeCount + 1 := by
  simp [push, nodeCount]

@[simp] theorem snd_push (g : Grammar S A) (n : Node S A) : (g.push n).2 = g.nodeCount := rfl

@[simp] theorem nodeCount_update (g : Grammar S A) (id : NodeId) (f : Node S A → Node S A) :
    (g.update id f).nodeCount = g.nodeCount := by
  simp [update, nodeCount]

@[simp] theorem nodeCount_attach (g : Grammar S A) (parent child : NodeId) :
    (g.attach parent child).nodeCount = g.nodeCount := by
  simp [attach]

end Grammar

end CommandGrammar
