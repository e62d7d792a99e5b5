import CommandGrammar.Proofs.Grammar.Reachable
import CommandGrammar.Proofs.Parsing.Branching
import CommandGrammar.Proofs.Parsing.Growth

set_option autoImplicit false

namespace CommandGrammar

section Renumbering

variable (f : NodeId → NodeId)

def Matched.renumber : Matched → Matched
  | .node id => .node (f id)
  | .afterValue composed pending next => .afterValue (f composed) (pending.map f) (next.map f)
  | .flagValue composed member => .flagValue (f composed) (member.map f)

def Step.renumber (s : Step) : Step := { s with matched := s.matched.renumber f }

def View.renumber (v : View) : View := { v with steps := v.steps.map (·.renumber f) }

variable {S A : Type}

def Frame.renumber (frame : Frame S A) : Frame S A :=
  { frame with toView := frame.toView.renumber f, root := f frame.root }

def Context.renumber (c : Context S A) : Context S A :=
  { c with toFrame := c.toFrame.renumber f, redirected := c.redirected.map (·.renumber f) }

def Attempt.renumber (a : Attempt S A) : Attempt S A := { a with context := a.context.renumber f }

def Progress.renumber (p : Progress S A) : Progress S A :=
  ⟨p.attempt.renumber f, p.pending.map f, p.sequence.map f, p.flagged⟩

def Parse.renumber (p : Parse S A) : Parse S A :=
  ⟨p.context.renumber f, p.rest, p.faults.map fun e => (f e.1, e.2)⟩

def Trial.renumber : Trial S A → Trial S A
  | .decided p => .decided (p.renumber f)
  | .stuck c i e => .stuck (c.renumber f) i e
  | .matched p => .matched (p.renumber f)
  | .rejected e => .rejected e

end Renumbering

variable {S A : Type} {f : NodeId → NodeId} {g h : Grammar S A} {inside : NodeId → Prop}

namespace Context

variable (c : Context S A)

theorem renumber_record (matched : Matched) (span : Span) :
    (c.renumber f).record (matched.renumber f) span = (c.record matched span).renumber f := by
  simp [renumber, record, updateView, View.record, Frame.renumber, View.renumber, Step.renumber]

theorem renumber_bind (name : String) (value : Value) (span : Span) :
    (c.renumber f).bind name value span = (c.bind name value span).renumber f := rfl

theorem renumber_freshChild (root : NodeId) (position : Nat) :
    (c.renumber f).freshChild (f root) position = (c.freshChild root position).renumber f := rfl

end Context

namespace Attempt

theorem renumber_andThen (a : Attempt S A) {next next' : Context S A → Input → Attempt S A}
    (onward : ∀ c i, next' (c.renumber f) i = (next c i).renumber f) :
    (a.renumber f).andThen next' = (a.andThen next).renumber f := by
  obtain ⟨c, i, fault⟩ := a
  cases fault with
  | none => exact onward c i
  | some e => rfl

theorem renumber_asMalformed (a : Attempt S A) :
    (a.renumber f).asMalformed = a.asMalformed.renumber f := rfl

end Attempt

/-- One grammar inside another under new numbers. Its nodes refer to each other only, and no argument
type and no action tells by the numbers what was found. -/
structure Grammar.Embeds (g h : Grammar S A) (f : NodeId → NodeId) (inside : NodeId → Prop) : Prop where
  injective : Function.Injective f
  node? : ∀ id, inside id → h.node? (f id) = (g.node? id).map (·.renumber f)
  children : ∀ id, inside id → ∀ child ∈ (g.node id).children, inside child
  members : ∀ id members, inside id → (g.node id).role = .composed members →
    ∀ m ∈ members.sequence, inside m
  redirect : ∀ id target, inside id → (g.node id).redirect = some target → inside target
  read : ∀ id name type, inside id → (g.node id).role = .argument name type →
    ∀ i c, type.read i (c.renumber f) = type.read i c
  choose : ∀ id choose, inside id → (g.node id).choose = some choose →
    ∀ v, choose (v.renumber f) = choose v

theorem matchLiteral_renumber (id : NodeId) (name : String) (c : Context S A) (i : Input) :
    matchLiteral (f id) name (c.renumber f) i = (matchLiteral id name c i).renumber f := by
  simp only [matchLiteral]
  split
  · exact congrArg (Attempt.succeed · _) (c.renumber_record (.node id) _)
  · rfl

theorem matchArgument_renumber (id : NodeId) (name : String) {type : ArgumentType S A}
    (read : ∀ i (c : Context S A), type.read i (c.renumber f) = type.read i c) (c : Context S A)
    (i : Input) :
    matchArgument (f id) name type (c.renumber f) i = (matchArgument id name type c i).renumber f := by
  simp only [matchArgument, recordArgument, read]
  split
  · rw [Context.renumber_bind]
    exact congrArg (Attempt.succeed · _) (Context.renumber_record _ (.node id) _)
  · rfl
  · rfl

theorem endWord_renumber (c : Context S A) (i : Input) :
    Node.endWord (c.renumber f) i = (Node.endWord c i).renumber f := by
  unfold Node.endWord
  split <;> rfl

namespace Grammar.Embeds

variable {id : NodeId} (embeds : g.Embeds h f inside)
include embeds

theorem node_eq (known : inside id) : h.node (f id) = (g.node id).renumber f := by
  rw [Grammar.node, Grammar.node, embeds.node? id known]
  cases g.node? id <;> rfl

theorem name_eq (known : inside id) : (h.node (f id)).name = (g.node id).name := by
  rw [embeds.node_eq known, name_renumber]

theorem matchWord_eq (known : inside id) (c : Context S A) (i : Input) :
    (h.node (f id)).matchWord (f id) (c.renumber f) i = ((g.node id).matchWord id c i).renumber f := by
  rw [embeds.node_eq known]
  cases role : (g.node id).role with
  | root => simp only [Node.matchWord, Node.renumber, role]; rfl
  | literal name =>
    simp only [Node.matchWord, Node.renumber, role]
    exact matchLiteral_renumber id name c i
  | argument name type =>
    simp only [Node.matchWord, Node.renumber, role]
    exact matchArgument_renumber id name (embeds.read id name type known role) c i
  | composed members => simp only [Node.matchWord, Node.renumber, role]; rfl

theorem settle_eq (known : inside id) (c : Context S A) (i : Input) :
    (h.node (f id)).settle (c.renumber f) i = ((g.node id).settle c i).renumber f := by
  rw [embeds.node_eq known]
  have choose := embeds.choose id
  simp only [Node.settle, Node.renumber]
  cases chosen : (g.node id).choose with
  | none =>
    by_cases keeps : (g.node id).inheritance.setting?.getD c.inherits = true
    · have keeps' : (g.node id).inheritance.setting?.getD (c.renumber f).inherits = true := keeps
      simp only [keeps, keeps', if_true]
      rfl
    · have keeps' : ¬ (g.node id).inheritance.setting?.getD (c.renumber f).inherits = true := keeps
      simp only [keeps, keeps']
      rfl
  | some action =>
    have same : action (c.renumber f).toView = action c.toView :=
      choose action known chosen c.toView
    simp only [same]
    cases action c.toView <;> rfl

theorem matchChild_eq (known : inside id) (c : Context S A) (i : Input) :
    (h.node (f id)).matchChild (f id) (c.renumber f) i = ((g.node id).matchChild id c i).renumber f := by
  rw [Node.matchChild, embeds.matchWord_eq known,
    Attempt.renumber_andThen _ endWord_renumber,
    Attempt.renumber_andThen _ (embeds.settle_eq known), Attempt.renumber_asMalformed]
  rfl

end Grammar.Embeds

namespace Composed

variable {id : NodeId} {members : Composed}

theorem takeSeparator_renumber (c : Context S A) (i : Input) :
    takeSeparator (c.renumber f) i = (takeSeparator c i).renumber f := by
  unfold takeSeparator
  split
  · rfl
  · split <;> rfl

theorem recordPlace_renumber (composed : NodeId) (pending : List NodeId) (next : Option NodeId)
    (c : Context S A) (i : Input) :
    recordPlace (f composed) (pending.map f) (next.map f) (c.renumber f) i =
      (recordPlace composed pending next c i).renumber f :=
  congrArg (Attempt.succeed · i) (c.renumber_record (.afterValue composed pending next) _)

theorem without_map (injective : Function.Injective f) (m : NodeId) (pending : List NodeId) :
    without (f m) (pending.map f) = (without m pending).map f := by
  have same (id : NodeId) : (f id != f m) = (id != m) := by
    rw [Bool.eq_iff_iff, bne_iff_ne, bne_iff_ne, injective.ne_iff]
  simp only [without, List.filter_map, Function.comp_def, same]

theorem pendingFlag_map (injective : Function.Injective f) (word : String) (pending : List NodeId) :
    (members.map f).pendingFlag word (pending.map f) = (members.pendingFlag word pending).map f := by
  unfold pendingFlag
  split
  · rename_i name _
    rw [Composed.map, NameIndex.find?_map]
    cases members.byName.find? (String.ofList name) with
    | none => rfl
    | some m => by_cases member : m ∈ pending <;> simp [Option.filter, member, injective.eq_iff]
  · rfl

end Composed

namespace Grammar.Embeds

open Composed

variable {id : NodeId} {members : Composed} (embeds : g.Embeds h f inside)
include embeds

theorem takeValues_eq {rest : List NodeId} (known : ∀ m ∈ rest, inside m) (pending : List NodeId)
    (c : Context S A) (i : Input) :
    takeValues h (f id) (members.map f) (rest.map f) (pending.map f) (c.renumber f) i =
      (takeValues g id members rest pending c i).renumber f := by
  induction rest generalizing pending c i with
  | nil => rfl
  | cons next later ih =>
    have known' := fun m member => known m (List.mem_cons_of_mem _ member)
    rw [List.map_cons, takeValues, takeValues]
    cases i.peekWord with
    | none => rfl
    | some word =>
      simp only [pendingFlag_map embeds.injective, Option.isSome_map]
      split
      · rfl
      · have head : (later.map f).head? = later.head?.map f := List.head?_map
        rw [embeds.matchWord_eq (known next (by simp)), Attempt.renumber_andThen _ takeSeparator_renumber,
          without_map embeds.injective, head,
          Attempt.renumber_andThen _ (recordPlace_renumber id (without next pending) later.head?)]
        generalize (((g.node next).matchWord next c i).andThen takeSeparator).andThen
          (recordPlace id (without next pending) later.head?) = a
        obtain ⟨d, j, fault⟩ := a
        cases fault with
        | some e => rfl
        | none => exact ih known' (without next pending) d j

theorem takeFlagged_eq {member : NodeId} (known : inside member) (start : Nat) (pending : List NodeId)
    (c : Context S A) (i : Input) :
    takeFlagged h (f id) start (f member) (pending.map f) (c.renumber f) i =
      (takeFlagged g id start member pending c i).renumber f := by
  have flagged (c : Context S A) (i : Input) :
      Attempt.succeed ((c.renumber f).record (.flagValue (f id) (some (f member))) ⟨start, i.position⟩) i =
        (Attempt.succeed (c.record (.flagValue id (some member)) ⟨start, i.position⟩) i).renumber f :=
    congrArg (Attempt.succeed · i) (c.renumber_record (.flagValue id (some member)) _)
  simp only [takeFlagged, embeds.name_eq known]
  split
  · exact congrArg (Attempt.fail · _ _) (c.renumber_record (.flagValue id none) _)
  · rw [takeSeparator_renumber, Attempt.renumber_andThen _ flagged,
      Attempt.renumber_andThen _ (embeds.matchWord_eq known)]
    refine Attempt.renumber_andThen _ fun c i => ?_
    split
    · rw [takeSeparator_renumber]
      exact Attempt.renumber_andThen _ (recordPlace_renumber id pending none)
    · rfl

theorem takeFlags_eq (n : Nat) {pending : List NodeId} (known : ∀ m ∈ pending, inside m)
    (c : Context S A) (i : Input) :
    takeFlags h (f id) (members.map f) n (pending.map f) (c.renumber f) i =
      ((takeFlags g id members n pending c i).1.renumber f,
        (takeFlags g id members n pending c i).2.map f) := by
  induction n generalizing pending c i with
  | zero => rfl
  | succ n ih =>
    have found : (i.readWord.1.bind fun w => (members.map f).pendingFlag w.asText (pending.map f)) =
        (i.readWord.1.bind fun w => members.pendingFlag w.asText pending).map f := by
      simp only [pendingFlag_map embeds.injective]
      cases i.readWord.1 <;> rfl
    simp only [takeFlags, found]
    cases flag : i.readWord.1.bind fun w => members.pendingFlag w.asText pending with
    | none => rfl
    | some m =>
      obtain ⟨word, -, pends⟩ := Option.bind_eq_some_iff.mp flag
      simp only [Option.map_some]
      rw [without_map embeds.injective, embeds.takeFlagged_eq (known m (mem_of_pendingFlag pends))]
      generalize takeFlagged g id i.position m (without m pending) c i.readWord.2 = a
      obtain ⟨d, j, fault⟩ := a
      cases fault with
      | some e => rfl
      | none => exact ih (fun m member => known m (List.mem_filter.mp member).1) d j

theorem noteUnset_eq {pending sequence : List NodeId} (known : ∀ m ∈ pending, inside m)
    (known' : ∀ m ∈ sequence, inside m) (c : Context S A) (i : Input) :
    noteUnset h (pending.map f) (sequence.map f) (c.renumber f) i =
      (noteUnset g pending sequence c i).renumber f := by
  have names {ids : List NodeId} (known : ∀ m ∈ ids, inside m) :
      (ids.map f).map (fun id => (h.node id).name) = ids.map fun id => (g.node id).name := by
    rw [List.map_map]
    exact List.map_congr_left fun m member => embeds.name_eq (known m member)
  have same : unset? h.readers (pending.map f) (sequence.map f) = unset? g.readers pending sequence := by
    simp only [unset?, names known, names known', List.isEmpty_map, List.length_map]
  rw [noteUnset, noteUnset, same]
  cases unset? g.readers pending sequence <;> rfl

theorem read_eq (known : ∀ m ∈ members.sequence, inside m) (c : Context S A) (i : Input) :
    (members.map f).read h (f id) (c.renumber f) i = (members.read g id c i).renumber f := by
  have head : (members.map f).sequence.head? = members.sequence.head?.map f := List.head?_map
  have place : (c.renumber f).record (.afterValue (f id) (members.map f).sequence
      (members.map f).sequence.head?) (.point i.position) =
        (c.record (.afterValue id members.sequence members.sequence.head?) (.point i.position)).renumber f := by
    rw [head]
    exact c.renumber_record (.afterValue id members.sequence members.sequence.head?) _
  have fewer := takeValues_subset g id members members.sequence members.sequence
    (c.record (.afterValue id members.sequence members.sequence.head?) (.point i.position)) i
  simp only [Composed.read, place]
  rw [show (members.map f).sequence = members.sequence.map f from rfl,
    embeds.takeValues_eq known]
  generalize takeValues g.readers id members members.sequence members.sequence _ i = p at fewer
  obtain ⟨⟨d, j, fault⟩, pending, sequence, flagged⟩ := p
  cases fault with
  | some e => rfl
  | none =>
    have known' := fun m member => known m (fewer.1 member)
    have sequence' := fun m member => known m (fewer.2 member)
    cases flagged with
    | false => exact embeds.noteUnset_eq known' sequence' d j
    | true =>
      have left : ∀ m ∈ (takeFlags g id members pending.length pending d j).2, inside m :=
        fun m member => known' m (takeFlags_subset g id members _ pending d j member)
      have flags : takeFlags h (f id) (members.map f) pending.length (pending.map f) (d.renumber f) j =
          ((takeFlags g id members pending.length pending d j).1.renumber f,
            (takeFlags g id members pending.length pending d j).2.map f) :=
        embeds.takeFlags_eq _ known' d j
      simp only [Progress.renumber, Attempt.renumber, if_true, List.length_map, flags]
      exact Attempt.renumber_andThen _ (embeds.noteUnset_eq left sequence')

end Grammar.Embeds

namespace Parse

theorem renumber_betterThan (p q : Parse S A) :
    (p.renumber f).betterThan (q.renumber f) = p.betterThan q := by
  simp only [betterThan, renumber, List.isEmpty_map]

end Parse

theorem Node.composed?_renumber (n : Node S A) :
    (n.renumber f).composed? = n.composed?.map (·.map f) := by
  cases role : n.role <;> simp [renumber, composed?, role]

namespace Grammar

theorem tryChildren_renumber {attempt attempt' : NodeId → Trial S A} {children : List NodeId}
    (same : ∀ id ∈ children, attempt' (f id) = (attempt id).renumber f) (c : Context S A) (i : Input)
    (faults : List (NodeId × Fault)) (found : List (Parse S A)) :
    tryChildren attempt' (c.renumber f) i (children.map f) (faults.map fun e => (f e.1, e.2))
        (found.map (·.renumber f)) =
      (tryChildren attempt c i children faults found).renumber f := by
  induction children generalizing faults found with
  | nil =>
    rw [List.map_nil, tryChildren, tryChildren, Parse.best_map Parse.renumber_betterThan]
    cases Parse.best found <;> rfl
  | cons id rest ih =>
    have later := ih fun id member => same id (List.mem_cons_of_mem _ member)
    rw [List.map_cons, tryChildren, tryChildren, same id (by simp)]
    cases attempt id with
    | decided p => rfl
    | stuck d j e => simp [Trial.renumber, Parse.renumber]
    | matched p => simpa [Trial.renumber] using later faults (found ++ [p])
    | rejected e => simpa [Trial.renumber] using later (faults ++ [(id, e)]) found

namespace Embeds

variable {id : NodeId} (embeds : g.Embeds h f inside)
include embeds

theorem matchComposed_eq (known : inside id) {members : Composed}
    (composed : (g.node id).role = .composed members) (c : Context S A) (i : Input) :
    (h.node (f id)).matchComposed h (f id) (members.map f) (c.renumber f) i =
      ((g.node id).matchComposed g id members c i).renumber f := by
  rw [Node.matchComposed, embeds.read_eq (embeds.members id members known composed),
    Attempt.renumber_andThen _ (embeds.settle_eq known), Attempt.renumber_asMalformed]
  rfl

theorem tryChild_eq {below below' : NodeId → Context S A → Input → Parse S A}
    (deeper : ∀ id, inside id → ∀ c i, below' (f id) (c.renumber f) i = (below id c i).renumber f)
    (known : inside id) (c : Context S A) (i : Input) :
    h.tryChild below' (c.renumber f) i (f id) = (g.tryChild below c i id).renumber f := by
  have shape : (h.node (f id)).composed? = (g.node id).composed?.map (·.map f) := by
    rw [embeds.node_eq known, Node.composed?_renumber]
  have redirect : (h.node (f id)).redirect = (g.node id).redirect.map f := by
    rw [embeds.node_eq known]
    rfl
  simp only [tryChild, shape, redirect]
  cases composed : (g.node id).composed? with
  | some members =>
    have role : (g.node id).role = .composed members := by
      cases role : (g.node id).role <;> simp_all [Node.composed?]
    simp only [Option.map_some, embeds.matchComposed_eq known role]
    generalize (g.node id).matchComposed g id members c i = a
    obtain ⟨d, j, fault⟩ := a
    cases fault <;> rfl
  | none =>
    simp only [Option.map_none, embeds.matchChild_eq known]
    generalize (g.node id).matchChild id c i = a
    obtain ⟨d, j, fault⟩ := a
    cases fault with
    | some e => rfl
    | none =>
      cases more : j.hasMore with
      | false => simp only [Attempt.renumber, more, Bool.not_false, if_true]; rfl
      | true =>
        simp only [Attempt.renumber, more, Bool.not_true, Bool.false_eq_true, if_false]
        cases target : (g.node id).redirect with
        | none => exact congrArg Trial.matched (deeper id known d _)
        | some target' =>
          have inside' := embeds.redirect id target' known target
          simp only [Option.map_some, Context.renumber_freshChild, deeper target' inside']
          rfl

theorem relevant_eq (known : inside id) (i : Input) :
    h.relevant (f id) i = (g.relevant id i).map f := by
  have arguments : ((g.node id).children.map f).filter (fun child => (h.node child).isArgument) =
      ((g.node id).children.filter fun child => (g.node child).isArgument).map f := by
    rw [List.filter_map]
    refine congrArg (List.map f) (List.filter_congr fun child member => ?_)
    rw [Function.comp_apply, embeds.node_eq (embeds.children id known child member)]
    cases role : (g.node child).role <;> simp [Node.isArgument, Node.renumber, role]
  have literal : (i.peekWord.bind fun w => (h.node (f id)).literals.find? w.asText) =
      (i.peekWord.bind fun w => (g.node id).literals.find? w.asText).map f := by
    rw [embeds.node_eq known]
    cases i.peekWord <;> rfl
  have children : (h.node (f id)).children = (g.node id).children.map f := by
    rw [embeds.node_eq known]
    rfl
  rw [relevant, relevant, literal, children, arguments]
  cases i.peekWord.bind fun w => (g.node id).literals.find? w.asText with
  | some child => rfl
  | none => cases (g.node id).children.filter fun child => (g.node child).isArgument <;> rfl

theorem usableBy_eq (known : inside id) (source : S) :
    (h.node (f id)).usableBy source = (g.node id).usableBy source := by
  rw [embeds.node_eq known]
  rfl

theorem filter_usableBy {children : List NodeId} (known : ∀ child ∈ children, inside child)
    (source : S) :
    (children.map f).filter (fun child => (h.node child).usableBy source) =
      (children.filter fun child => (g.node child).usableBy source).map f := by
  rw [List.filter_map]
  exact congrArg (List.map f)
    (List.filter_congr fun child member => embeds.usableBy_eq (known child member) source)

theorem parseWithin_succ {depth : Nat}
    (deeper : ∀ id, inside id → ∀ c i,
      h.parseWithin depth (f id) (c.renumber f) i = (g.parseWithin depth id c i).renumber f)
    {c : Context S A} {i : Input}
    (tried : h.candidates (f id) c.source i = (g.candidates id c.source i).map f)
    (known : ∀ child ∈ g.candidates id c.source i, inside child) :
    h.parseWithin (depth + 1) (f id) (c.renumber f) i =
      (g.parseWithin (depth + 1) id c i).renumber f := by
  have source : (c.renumber f).source = c.source := rfl
  rw [parseWithin, parseWithin, source, tried]
  exact tryChildren_renumber
    (fun child member => embeds.tryChild_eq deeper (known child member) c i) c i [] []

theorem parseWithin_eq (sound : g.Sound) (depth : Nat) (known : inside id) (c : Context S A)
    (i : Input) :
    h.parseWithin depth (f id) (c.renumber f) i = (g.parseWithin depth id c i).renumber f := by
  induction depth generalizing id c i with
  | zero => rfl
  | succ depth ih =>
    have relevant' (child : NodeId) (member : child ∈ g.relevant id i) : inside child :=
      embeds.children id known child (sound.mem_children_of_mem_relevant member)
    -- Only nodes inside are tried, and requirements are moved along with their nodes.
    refine embeds.parseWithin_succ (fun id known c i => ih known c i) ?_
      fun child member => relevant' child (List.mem_filter.mp member).1
    rw [candidates, candidates, embeds.relevant_eq known, embeds.filter_usableBy relevant']

theorem parse_eq (sound : g.Sound) (root : f .root = .root) {source : S} {i : Input}
    (relevant : h.relevant .root i = (g.relevant .root i).map f)
    (known : ∀ child ∈ g.relevant .root i, inside child) :
    h.parse source i = (g.parse source i).renumber f := by
  have tried : h.candidates (f .root) source i = (g.candidates .root source i).map f := by
    rw [candidates, candidates, root, relevant, embeds.filter_usableBy known]
  have below : h.parseWithin (i.length - i.position + 1) (f .root)
      ((Context.start source .root i.position).renumber f) i =
        (g.parseWithin (i.length - i.position + 1) .root (.start source .root i.position) i).renumber f :=
    embeds.parseWithin_succ
      (fun id known c j => embeds.parseWithin_eq sound (i.length - i.position) known c j) tried
      fun child member => known child (List.mem_filter.mp member).1
  have start : (Context.start source .root i.position : Context S A).renumber f =
      .start source .root i.position := by
    simp [Context.start, Context.ofFrame, Frame.start, View.empty, Context.renumber, Frame.renumber,
      View.renumber, root]
  rw [root, start] at below
  exact below

end Embeds

end Grammar

end CommandGrammar
