import CommandGrammar.Parsing.Parse

set_option autoImplicit false

namespace CommandGrammar

namespace Usage

variable {S A : Type}

def line (path mark : String) (description : Option String) : String :=
  path ++ mark ++ (match description with
    | some text => "  -  " ++ text
    | none => "") ++ "\n"

def spaces (n : Nat) : String := String.ofList (List.replicate n ' ')

def label (n : Node S A) : String :=
  match n.role with
  | .argument name _ => "<" ++ name ++ ">"
  | _ => n.name

def composedLines (path : String) (description : Option String) (members : List (Node S A)) :
    List String :=
  let width := (members.map fun m => m.name.length).foldl max 0
  let positional := " ".intercalate (members.map fun m => "<" ++ m.name ++ ">")
  line (path ++ positional) "" description :: members.map fun m =>
    let pad := spaces (width - m.name.length)
    spaces path.length ++ "--" ++ m.name ++ pad ++ " <" ++ m.name ++ ">" ++
      (match m.description with
        | some text => pad ++ "     " ++ text
        | none => "") ++ "\n"

def briefLine (path : String) (n : Node S A) : String :=
  line path (if !n.hasAction || n.redirect.isSome then "  ..." else "") n.description

def ownLines (path : String) (n : Node S A) : List String :=
  if n.hasAction then
    line path "" n.description ::
      (if n.redirect.isSome then [line path " ..." n.description] else [])
  else if n.description.isSome || n.redirect.isSome then [line path " ..." n.description]
  else []

def brief (g : Grammar S A) (source : S) (path : String) (id : NodeId) : List String :=
  let n := g.node id
  if !n.usableBy source then []
  else match n.composed? with
    | some members => composedLines path n.description (members.sequence.map g.node)
    | none => [briefLine (path ++ label n) n]

def fullWithin (g : Grammar S A) (source : S) : Nat → String → NodeId → List String
  | 0, _, _ => []
  | depth + 1, path, id =>
    let n := g.node id
    if !n.usableBy source then []
    else match n.composed? with
      | some members => composedLines path n.description (members.sequence.map g.node)
      | none =>
        let path := path ++ label n
        ownLines path n ++
          (g.listedChildren id).flatMap (fullWithin g source depth (path ++ " "))

def full (g : Grammar S A) (source : S) (path : String) (id : NodeId) : List String :=
  fullWithin g source g.nodeCount path id

def lines (g : Grammar S A) (source : S) (path : String) (id : NodeId) : List String :=
  let n := g.node id
  -- The root has no text of its own, so nothing separates the path from its children.
  if n.isRoot then
    if n.usableBy source then ownLines path n ++ (g.listedChildren id).flatMap (brief g source path)
    else []
  else full g source path id

def trimNewlines (s : String) : String :=
  String.ofList (s.toList.reverse.dropWhile (· == '\n')).reverse

def render (g : Grammar S A) (source : S) (path : String) (id : NodeId) : String :=
  trimNewlines (String.join (lines g source path id))

end Usage

namespace Frame

variable {S A : Type}

-- The node that usage is asked for, and where its text begins: a composed argument, or the node that
-- matched last, or the node the frame was read from.
def usageTarget (f : Frame S A) : NodeId × Nat :=
  let composed := f.steps.findSome? fun step =>
    step.matched.composed?.map fun id => (id, step.span.start)
  let last := f.steps.getLast?.bind fun step =>
    step.matched.node?.map fun id => (id, step.span.start)
  (composed.or last).getD (f.root, f.span.start)

end Frame

namespace Grammar

variable {S A : Type}

def usage (g : Grammar S A) (id : NodeId) (source : S) : String := Usage.render g source "" id

def usageAt (g : Grammar S A) (c : Context S A) (i : Input) (source : S) : String :=
  let (target, stop) := (c.redirected.getLast?.getD c.toFrame).usageTarget
  Usage.render g source (i.textBetween c.span.start stop) target

end Grammar

def Parse.usage {S A : Type} (g : Grammar S A) (p : Parse S A) : String :=
  g.usageAt p.context p.rest p.context.source

end CommandGrammar
