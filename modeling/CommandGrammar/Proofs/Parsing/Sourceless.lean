import CommandGrammar.Proofs.Parsing.Branching
import CommandGrammar.Proofs.Parsing.Findings
import CommandGrammar.Proofs.Parsing.Shift

set_option autoImplicit false

namespace CommandGrammar

section ReadFor

variable {S A : Type} (t : S)

def Frame.readFor (f : Frame S A) : Frame S A := { f with source := t }

def Context.readFor (c : Context S A) : Context S A :=
  { c with toFrame := c.toFrame.readFor t, redirected := c.redirected.map (·.readFor t) }

def Attempt.readFor (a : Attempt S A) : Attempt S A := { a with context := a.context.readFor t }

def Progress.readFor (p : Progress S A) : Progress S A := { p with attempt := p.attempt.readFor t }

def Parse.readFor (p : Parse S A) : Parse S A := { p with context := p.context.readFor t }

def Trial.readFor : Trial S A → Trial S A
  | .decided p => .decided (p.readFor t)
  | .stuck c i f => .stuck (c.readFor t) i f
  | .matched p => .matched (p.readFor t)
  | .rejected f => .rejected f

end ReadFor

def Grammar.SourceBlind {S A : Type} (g : Grammar S A) : Prop :=
  ∀ id name type, (g.node id).role = .argument name type →
    ∀ i c t, type.read i (c.readFor t) = type.read i c

variable {S A : Type} {g : Grammar S A} {s t : S}

theorem Grammar.sourceBlind_of_builtin
    (builtin : ∀ id name type, (g.node id).role = .argument name type → type.IsBuiltin) :
    g.SourceBlind := by
  intro id name type role i c t
  cases builtin id name type role <;> rfl

namespace Attempt

variable (a : Attempt S A)

theorem readFor_andThen {next : Context S A → Input → Attempt S A}
    (onward : ∀ c i, next (c.readFor t) i = (next c i).readFor t) :
    (a.readFor t).andThen next = (a.andThen next).readFor t := by
  obtain ⟨c, i, fault⟩ := a
  cases fault with
  | none => exact onward c i
  | some f => rfl

theorem readFor_asMalformed : (a.readFor t).asMalformed = a.asMalformed.readFor t := rfl

end Attempt

theorem matchLiteral_readFor (id : NodeId) (name : String) (c : Context S A) (i : Input) :
    matchLiteral id name (c.readFor t) i = (matchLiteral id name c i).readFor t := by
  simp only [matchLiteral]
  split <;> rfl

theorem matchArgument_readFor (id : NodeId) (name : String) {type : ArgumentType S A}
    (read : ∀ i (c : Context S A) t, type.read i (c.readFor t) = type.read i c) (c : Context S A)
    (i : Input) :
    matchArgument id name type (c.readFor t) i = (matchArgument id name type c i).readFor t := by
  simp only [matchArgument, recordArgument, read]
  split <;> rfl

namespace Node

theorem endWord_readFor (c : Context S A) (i : Input) :
    endWord (c.readFor t) i = (endWord c i).readFor t := by
  unfold endWord
  split <;> rfl

theorem settle_readFor (n : Node S A) (c : Context S A) (i : Input) :
    n.settle (c.readFor t) i = (n.settle c i).readFor t := by
  have view : (c.readFor t).toView = c.toView := rfl
  have inherits : (c.readFor t).inherits = c.inherits := rfl
  simp only [settle, view, inherits]
  split
  · split <;> rfl
  · by_cases keeps : n.inheritance.setting?.getD c.inherits = true
    · simp only [keeps, if_true]
      rfl
    · simp only [keeps]
      rfl

end Node

namespace Composed

theorem takeSeparator_readFor (c : Context S A) (i : Input) :
    takeSeparator (c.readFor t) i = (takeSeparator c i).readFor t := by
  unfold takeSeparator
  split
  · rfl
  · split <;> rfl

theorem recordPlace_readFor (composed : NodeId) (pending : List NodeId) (next : Option NodeId)
    (c : Context S A) (i : Input) :
    recordPlace composed pending next (c.readFor t) i =
      (recordPlace composed pending next c i).readFor t := rfl

theorem noteUnset_readFor (g : Grammar S A) (pending sequence : List NodeId) (c : Context S A)
    (i : Input) : noteUnset g pending sequence (c.readFor t) i =
      (noteUnset g pending sequence c i).readFor t := by
  unfold noteUnset
  split <;> rfl

end Composed

namespace Grammar.SourceBlind

open Composed

variable (blind : g.SourceBlind)
include blind

theorem matchWord_readFor (id : NodeId) (c : Context S A) (i : Input) :
    (g.node id).matchWord id (c.readFor t) i = ((g.node id).matchWord id c i).readFor t := by
  unfold Node.matchWord
  cases role : (g.node id).role with
  | root | composed => rfl
  | literal name => exact matchLiteral_readFor id name c i
  | argument name type => exact matchArgument_readFor id name (blind id name type role) c i

theorem matchChild_readFor (id : NodeId) (c : Context S A) (i : Input) :
    (g.node id).matchChild id (c.readFor t) i = ((g.node id).matchChild id c i).readFor t := by
  rw [Node.matchChild, blind.matchWord_readFor, Attempt.readFor_andThen _ Node.endWord_readFor,
    Attempt.readFor_andThen _ (g.node id).settle_readFor, Attempt.readFor_asMalformed]
  rfl

theorem takeValues_readFor (id : NodeId) (members : Composed) (rest pending : List NodeId)
    (c : Context S A) (i : Input) :
    takeValues g id members rest pending (c.readFor t) i =
      (takeValues g id members rest pending c i).readFor t := by
  induction rest generalizing pending c i with
  | nil => rfl
  | cons next later ih =>
    rw [takeValues, takeValues]
    cases i.peekWord with
    | none => rfl
    | some word =>
      simp only
      split
      · rfl
      · rw [blind.matchWord_readFor, Attempt.readFor_andThen _ takeSeparator_readFor,
          Attempt.readFor_andThen _ (recordPlace_readFor id (without next pending) later.head?)]
        generalize (((g.node next).matchWord next c i).andThen takeSeparator).andThen
          (recordPlace id (without next pending) later.head?) = a
        obtain ⟨d, j, fault⟩ := a
        cases fault with
        | some f => rfl
        | none => exact ih (without next pending) d j

theorem takeFlagged_readFor (id : NodeId) (start : Nat) (member : NodeId) (pending : List NodeId)
    (c : Context S A) (i : Input) :
    takeFlagged g id start member pending (c.readFor t) i =
      (takeFlagged g id start member pending c i).readFor t := by
  simp only [takeFlagged]
  split
  · rfl
  · rw [takeSeparator_readFor, Attempt.readFor_andThen, Attempt.readFor_andThen _
      (blind.matchWord_readFor member)]
    · apply Attempt.readFor_andThen
      intro c i
      split
      · rw [takeSeparator_readFor]
        exact Attempt.readFor_andThen _ (recordPlace_readFor id pending none)
      · rfl
    · intro c i
      rfl

theorem takeFlags_readFor (id : NodeId) (members : Composed) (n : Nat) (pending : List NodeId)
    (c : Context S A) (i : Input) :
    takeFlags g id members n pending (c.readFor t) i =
      ((takeFlags g id members n pending c i).1.readFor t, (takeFlags g id members n pending c i).2) := by
  induction n generalizing pending c i with
  | zero => rfl
  | succ n ih =>
    simp only [takeFlags]
    cases i.readWord.1.bind fun w => members.pendingFlag w.asText pending with
    | none => rfl
    | some member =>
      simp only
      rw [blind.takeFlagged_readFor]
      generalize takeFlagged g id i.position member (without member pending) c i.readWord.2 = a
      obtain ⟨d, j, fault⟩ := a
      cases fault with
      | some f => rfl
      | none => exact ih (without member pending) d j

theorem read_readFor (id : NodeId) (members : Composed) (c : Context S A) (i : Input) :
    members.read g id (c.readFor t) i = (members.read g id c i).readFor t := by
  have place : (c.readFor t).record (.afterValue id members.sequence members.sequence.head?)
      (.point i.position) = (c.record (.afterValue id members.sequence members.sequence.head?)
        (.point i.position)).readFor t := rfl
  simp only [Composed.read, place, blind.takeValues_readFor]
  generalize takeValues g.readers id members members.sequence members.sequence _ i = p
  obtain ⟨⟨d, j, fault⟩, pending, sequence, flagged⟩ := p
  cases fault with
  | some f => rfl
  | none =>
    cases flagged with
    | false => exact noteUnset_readFor g pending sequence d j
    | true =>
      simp only [Progress.readFor, Attempt.readFor, if_true, blind.takeFlags_readFor]
      exact Attempt.readFor_andThen _ (noteUnset_readFor g _ sequence)

theorem matchComposed_readFor (id : NodeId) (members : Composed) (c : Context S A) (i : Input) :
    (g.node id).matchComposed g id members (c.readFor t) i =
      ((g.node id).matchComposed g id members c i).readFor t := by
  rw [Node.matchComposed, blind.read_readFor, Attempt.readFor_andThen _ (g.node id).settle_readFor,
    Attempt.readFor_asMalformed]
  rfl

end Grammar.SourceBlind

namespace Grammar

theorem tryChildren_readFor {attempt attempt' : NodeId → Trial S A} {children : List NodeId}
    (same : ∀ id ∈ children, attempt' id = (attempt id).readFor t) (c : Context S A) (i : Input)
    (faults : List (NodeId × Fault)) (found : List (Parse S A)) :
    tryChildren attempt' (c.readFor t) i children faults (found.map (·.readFor t)) =
      (tryChildren attempt c i children faults found).readFor t := by
  induction children generalizing faults found with
  | nil =>
    have alike (p q : Parse S A) : (p.readFor t).betterThan (q.readFor t) = p.betterThan q := rfl
    rw [tryChildren, tryChildren, Parse.best_map alike]
    cases Parse.best found <;> rfl
  | cons id rest ih =>
    have later := ih fun id member => same id (List.mem_cons_of_mem _ member)
    rw [tryChildren, tryChildren, same id (by simp)]
    cases attempt id with
    | decided p => rfl
    | stuck d j f => rfl
    | matched p => simpa [Trial.readFor] using later faults (found ++ [p])
    | rejected f => exact later (faults ++ [(id, f)]) found

namespace SourceBlind

variable (blind : g.SourceBlind)
include blind

theorem tryChild_readFor {below : NodeId → Context S A → Input → Parse S A}
    (deeper : ∀ id c i, c.source = s → below id (c.readFor t) i = (below id c i).readFor t)
    {c : Context S A} (source : c.source = s) (i : Input) (id : NodeId) :
    g.tryChild below (c.readFor t) i id = (g.tryChild below c i id).readFor t := by
  simp only [tryChild]
  cases (g.node id).composed? with
  | some members =>
    simp only [blind.matchComposed_readFor]
    generalize (g.node id).matchComposed g id members c i = a
    obtain ⟨d, j, fault⟩ := a
    cases fault <;> rfl
  | none =>
    have kept : ((g.node id).matchChild id c i).fault = none →
        ((g.node id).matchChild id c i).context.source = c.source := Node.source_matchChild
    simp only [blind.matchChild_readFor]
    generalize (g.node id).matchChild id c i = a at kept
    obtain ⟨d, j, fault⟩ := a
    cases fault with
    | some f => rfl
    | none =>
      have source : d.source = s := (kept rfl).trans source
      simp only [Attempt.readFor]
      by_cases more : j.hasMore = true
      · simp only [more]
        cases (g.node id).redirect with
        | none => exact congrArg Trial.matched (deeper id d _ source)
        | some target =>
          have fresh := deeper target (d.freshChild target j.readChar.2.position) j.readChar.2 source
          have fresh' : (d.readFor t).freshChild target j.readChar.2.position =
              (d.freshChild target j.readChar.2.position).readFor t := rfl
          simp only [fresh', fresh]
          rfl
      · simp only [more]
        rfl

theorem parseWithin_readFor (same : ∀ id, (g.node id).usableBy t = (g.node id).usableBy s)
    (depth : Nat) (id : NodeId) {c : Context S A} (source : c.source = s) (i : Input) :
    g.parseWithin depth id (c.readFor t) i = (g.parseWithin depth id c i).readFor t := by
  induction depth generalizing id c i with
  | zero => rfl
  | succ depth ih =>
    -- Both sources are let through to the same children.
    have tried : g.candidates id (c.readFor t).source i = g.candidates id c.source i := by
      rw [source]
      exact List.filter_congr fun child _ => same child
    rw [parseWithin, parseWithin, tried]
    have each (child : NodeId) : g.tryChild (g.parseWithin depth) (c.readFor t) i child =
        (g.tryChild (g.parseWithin depth) c i child).readFor t :=
      blind.tryChild_readFor (fun id c i source => ih id source i) source i child
    exact tryChildren_readFor (fun child _ => each child) c i [] []

/-- Two sources that all requirements answer alike find the same on any line: the same nodes and values in
the same places, the same notes, the same complaints where reading stopped, the same frames behind
redirections and the same actions. Only the source that the frames are kept for is another. -/
theorem parse_readFor (same : ∀ id, (g.node id).usableBy t = (g.node id).usableBy s) (i : Input) :
    g.parse t i = (g.parse s i).readFor t := by
  have start : (Context.start t .root i.position : Context S A) =
      (Context.start s .root i.position).readFor t := rfl
  rw [parse, start]
  exact blind.parseWithin_readFor same (i.length - i.position + 1) .root rfl i

end SourceBlind

end Grammar

theorem Demo.parse_readFor_bob :
    grammar.SourceBlind ∧
      (∀ id, (grammar.node id).usableBy ⟨"bob", false⟩ = (grammar.node id).usableBy ⟨"alice", false⟩) ∧
      grammar.parse ⟨"bob", false⟩ (.ofText "as alice whoami") =
        (grammar.parse ⟨"alice", false⟩ (.ofText "as alice whoami")).readFor ⟨"bob", false⟩ := by
  have blind := Grammar.sourceBlind_of_builtin readsPlaceFree_grammar.builtin
  have same : ∀ id, (grammar.node id).usableBy ⟨"bob", false⟩ =
      (grammar.node id).usableBy ⟨"alice", false⟩ := by
    intro id
    match id with
    | 0 | 1 | 2 | 3 | 4 | 5 | 6 | 7 | 8 | 9 | 10 | 11 | 12 | 13 | 14 | 15 => rfl
    | _ + 16 => rfl
  exact ⟨blind, same, blind.parse_readFor same (.ofText "as alice whoami")⟩

end CommandGrammar
