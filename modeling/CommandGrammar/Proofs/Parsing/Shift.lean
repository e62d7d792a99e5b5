import Mathlib.Data.List.Forall2
import CommandGrammar.Demo.Commands
import CommandGrammar.Proofs.Input.Twin
import CommandGrammar.Proofs.Parsing.Descent

set_option autoImplicit false

namespace CommandGrammar

def Span.shift (d : Nat) (a : Span) : Span := ⟨a.start + d, a.stop + d⟩

def Step.shift (d : Nat) (s : Step) : Step := { s with span := s.span.shift d }

def Binding.shift (d : Nat) (b : Binding) : Binding := { b with span := b.span.shift d }

def View.shift (d : Nat) (v : View) : View :=
  { v with
    span := v.span.shift d
    steps := v.steps.map (·.shift d)
    arguments := v.arguments.map (·.shift d) }

variable {S A : Type} {d : Nat}

def Frame.shift (d : Nat) (f : Frame S A) : Frame S A := { f with toView := f.toView.shift d }

def Context.shift (d : Nat) (c : Context S A) : Context S A :=
  { c.toFrame.shift d with redirected := c.redirected.map (·.shift d), input := none }

theorem Span.shift_cover (a b : Span) : (a.cover b).shift d = (a.shift d).cover (b.shift d) := by
  simp [shift, cover, Nat.add_min_add_right, Nat.add_max_add_right]

namespace Context

variable (c : Context S A)

theorem shift_record (matched : Matched) (span : Span) :
    (c.record matched span).shift d = (c.shift d).record matched (span.shift d) := by
  simp [shift, record, updateView, View.record, Frame.shift, View.shift, Span.shift_cover, Step.shift]

theorem shift_bind (name : String) (value : Value) (span : Span) :
    (c.bind name value span).shift d = (c.shift d).bind name value (span.shift d) := by
  simp [shift, bind, updateView, View.bind, Frame.shift, View.shift, Binding.shift]

@[simp] theorem shift_inherits : (c.shift d).inherits = c.inherits := rfl

@[simp] theorem shift_executesChild : (c.shift d).executesChild = c.executesChild := rfl

theorem shift_freshChild (root : NodeId) (position : Nat) :
    (c.freshChild root position).shift d = (c.shift d).freshChild root (position + d) := rfl

end Context

structure Grammar.ReadsPlaceFree (g : Grammar S A) : Prop where
  builtin : ∀ id name type, (g.node id).role = .argument name type → type.IsBuiltin
  choose : ∀ id choose, (g.node id).choose = some choose → ∀ v d, choose (v.shift d) = choose v

structure Grammar.PlaceFree (g : Grammar S A) : Prop where
  builtin : ∀ id name type, (g.node id).role = .argument name type → type.IsBuiltin
  choose : ∀ id choose, (g.node id).choose = some choose → ∀ v d, choose (v.shift d) = choose v
  modifier : ∀ id modifier, (g.node id).modifier = some modifier →
    ∀ c d line, modifier { c.shift d with input := line } = modifier c

theorem Grammar.PlaceFree.reads {g : Grammar S A} (free : g.PlaceFree) : g.ReadsPlaceFree :=
  ⟨free.builtin, free.choose⟩

theorem Demo.readsPlaceFree_grammar : grammar.ReadsPlaceFree := by
  refine ⟨?_, ?_⟩
  · intro id name type role
    match id with
    | 2 =>
      cases role
      exact .rest
    | 4 | 6 | 7 | 12 =>
      cases role
      exact .string
    | 8 =>
      cases role
      exact .choice _
    | 0 | 1 | 3 | 5 | 9 | 10 | 11 | 13 | 14 | 15 => cases role
    | _ + 16 => cases role
  · intro id choose chosen v d
    match id with
    | 2 | 3 | 4 | 9 | 10 | 14 | 15 =>
      cases chosen
      rfl
    | 0 | 1 | 5 | 6 | 7 | 8 | 11 | 12 | 13 => cases chosen
    | _ + 16 => cases chosen

variable {g : Grammar S A} {c : Context S A} {i j : Input} {id : NodeId}

inductive Attempt.Twin (d : Nat) : Attempt S A → Attempt S A → Prop
  | succeed (c : Context S A) {i j : Input} : i.Twin d j → Twin d (.succeed c i) (.succeed (c.shift d) j)
  | fail (c : Context S A) {i j : Input} (e f : Fault) :
    i.Twin d j → Twin d (.fail c i e) (.fail (c.shift d) j f)

namespace Attempt.Twin

variable {a b : Attempt S A}

theorem andThen (first : a.Twin d b) {next next' : Context S A → Input → Attempt S A}
    (onward : ∀ c i j, i.Twin d j → (next c i).Twin d (next' (c.shift d) j)) :
    (a.andThen next).Twin d (b.andThen next') := by
  cases first with
  | succeed c h => exact onward c _ _ h
  | fail c e f h => exact .fail c e f h

theorem asMalformed (h : a.Twin d b) : a.asMalformed.Twin d b.asMalformed := by
  cases h with
  | succeed c h => exact .succeed c h
  | fail c e f h => exact .fail c _ _ h

end Attempt.Twin

theorem Input.Twin.span {i' j' : Input} (h : i.Twin d j) (h' : i'.Twin d j') :
    (⟨j.position, j'.position⟩ : Span) = Span.shift d ⟨i.position, i'.position⟩ := by
  rw [h.position, h'.position]
  rfl

theorem matchLiteral_twin (id : NodeId) (name : String) (c : Context S A) (h : i.Twin d j) :
    (matchLiteral id name c i).Twin d (matchLiteral id name (c.shift d) j) := by
  obtain ⟨same, next⟩ := h.readWord
  simp only [matchLiteral, same]
  split
  · rw [h.span next, ← Context.shift_record]
    exact .succeed _ next
  · exact .fail c _ _ h

theorem matchArgument_twin (id : NodeId) (name : String) {type : ArgumentType S A}
    (builtin : type.IsBuiltin) (c : Context S A) (h : i.Twin d j) :
    (matchArgument id name type c i).Twin d (matchArgument id name type (c.shift d) j) := by
  have alike := builtin.read_alike h c (c.shift d)
  simp only [matchArgument, recordArgument]
  generalize type.read i c = r at alike
  generalize type.read j (c.shift d) = s at alike
  cases alike with
  | ok taken v =>
    have next : (Reading.advance ⟨taken, .ok v⟩ i).Twin d (Reading.advance ⟨taken, .ok v⟩ j) :=
      h.seek taken
    simp only [h.span next, ← Context.shift_bind, ← Context.shift_record]
    exact .succeed _ next
  | error n m e f => cases e <;> cases f <;> exact .fail c _ _ h

theorem endWord_twin (c : Context S A) (h : i.Twin d j) :
    (Node.endWord c i).Twin d (Node.endWord (c.shift d) j) := by
  simp only [Node.endWord, h.hasMore, h.peek]
  split
  · exact .fail c _ _ h
  · exact .succeed c h

namespace Grammar.ReadsPlaceFree

theorem matchWord_twin (free : g.ReadsPlaceFree) (id : NodeId) (c : Context S A) (h : i.Twin d j) :
    ((g.node id).matchWord id c i).Twin d ((g.node id).matchWord id (c.shift d) j) := by
  unfold Node.matchWord
  cases role : (g.node id).role with
  | root => exact .succeed c h
  | literal name => exact matchLiteral_twin id name c h
  | argument name type => exact matchArgument_twin id name (free.builtin id name type role) c h
  | composed members => exact .succeed c h

theorem settle_twin (free : g.ReadsPlaceFree) (id : NodeId) (c : Context S A) (h : i.Twin d j) :
    ((g.node id).settle c i).Twin d ((g.node id).settle (c.shift d) j) := by
  simp only [Node.settle, Context.shift_inherits, Context.shift_executesChild]
  cases choose : (g.node id).choose with
  | none =>
    by_cases keeps : (g.node id).inheritance.setting?.getD c.inherits = true
    · simp only [keeps, if_true]
      exact .succeed _ h
    · simp only [keeps]
      exact .succeed _ h
  | some f =>
    have same : f (c.shift d).toView = f c.toView := free.choose id f choose c.toView d
    simp only [same]
    cases f c.toView with
    | ok action => exact .succeed _ h
    | error e => exact .fail _ e e h

theorem matchChild_twin (free : g.ReadsPlaceFree) (id : NodeId) (c : Context S A) (h : i.Twin d j) :
    ((g.node id).matchChild id c i).Twin d ((g.node id).matchChild id (c.shift d) j) := by
  have word := free.matchWord_twin id c h
  have ended := word.andThen fun c _ _ h => endWord_twin c h
  exact (ended.andThen fun c _ _ h => free.settle_twin id c h).asMalformed

end Grammar.ReadsPlaceFree

namespace Composed

theorem takeSeparator_twin (c : Context S A) (h : i.Twin d j) :
    (takeSeparator c i).Twin d (takeSeparator (c.shift d) j) := by
  simp only [takeSeparator, h.peek]
  cases i.peek with
  | none => exact .succeed c h
  | some ch =>
    simp only
    split
    · exact .succeed c h.readChar.2
    · exact .fail c _ _ h

theorem recordPlace_twin (composed : NodeId) (pending : List NodeId) (next : Option NodeId)
    (c : Context S A) (h : i.Twin d j) :
    (recordPlace composed pending next c i).Twin d (recordPlace composed pending next (c.shift d) j) := by
  have place : Span.point j.position = (Span.point i.position).shift d := h.span h
  rw [recordPlace, recordPlace, place, ← Context.shift_record]
  exact .succeed _ h

structure ProgressTwin (d : Nat) (p q : Progress S A) : Prop where
  attempt : p.attempt.Twin d q.attempt
  pending : q.pending = p.pending
  sequence : q.sequence = p.sequence
  flagged : q.flagged = p.flagged

theorem takeValues_twin (free : g.ReadsPlaceFree) (id : NodeId) (members : Composed)
    (sequence pending : List NodeId) (c : Context S A) (h : i.Twin d j) :
    ProgressTwin d (takeValues g id members sequence pending c i)
      (takeValues g id members sequence pending (c.shift d) j) := by
  induction sequence generalizing pending c i j with
  | nil => exact ⟨.succeed c h, rfl, rfl, rfl⟩
  | cons m later ih =>
    simp only [takeValues, h.peekWord]
    cases i.peekWord with
    | none => exact ⟨.succeed c h, rfl, rfl, rfl⟩
    | some word =>
      simp only
      split
      case isTrue => exact ⟨.succeed c h, rfl, rfl, rfl⟩
      case isFalse =>
        have value := ((free.matchWord_twin m c h).andThen fun c _ _ h => takeSeparator_twin c h).andThen
          fun c _ _ h => recordPlace_twin id (without m pending) later.head? c h
        generalize (((g.node m).matchWord m c i).andThen takeSeparator).andThen _ = a at value ⊢
        generalize (((g.node m).matchWord m (c.shift d) j).andThen takeSeparator).andThen _ = b
          at value ⊢
        cases value with
        | succeed c h => exact ih _ c h
        | fail c e f h => exact ⟨.fail c e f h, rfl, rfl, rfl⟩

theorem takeFlagged_twin (free : g.ReadsPlaceFree) (id member : NodeId) (pending : List NodeId)
    (c : Context S A) {i₀ j₀ : Input} (h₀ : i₀.Twin d j₀) (h : i.Twin d j) :
    (takeFlagged g id i₀.position member pending c i).Twin d
      (takeFlagged g id j₀.position member pending (c.shift d) j) := by
  simp only [takeFlagged, h.hasMore]
  split
  · rw [h₀.span h, ← Context.shift_record]
    exact .fail _ _ _ h
  · refine .andThen (.andThen (.andThen (takeSeparator_twin c h) ?_) ?_) ?_
    · intro c i j h
      rw [h₀.span h, ← Context.shift_record]
      exact .succeed _ h
    · exact fun c i j h => free.matchWord_twin member c h
    · intro c i j h
      rw [h.hasMore]
      split
      · exact (takeSeparator_twin c h).andThen fun c _ _ h => recordPlace_twin id pending none c h
      · exact .succeed c h

theorem takeFlags_twin (free : g.ReadsPlaceFree) (id : NodeId) (members : Composed) (n : Nat)
    (pending : List NodeId) (c : Context S A) (h : i.Twin d j) :
    (takeFlags g id members n pending c i).1.Twin d
        (takeFlags g id members n pending (c.shift d) j).1 ∧
      (takeFlags g id members n pending (c.shift d) j).2 =
        (takeFlags g id members n pending c i).2 := by
  induction n generalizing pending c i j with
  | zero => exact ⟨.succeed c h, rfl⟩
  | succ n ih =>
    obtain ⟨same, next⟩ := h.readWord
    simp only [takeFlags, same]
    cases i.readWord.1.bind fun w => members.pendingFlag w.asText pending with
    | none => exact ⟨.succeed c h, rfl⟩
    | some member =>
      simp only
      have value := takeFlagged_twin free id member (without member pending) c h next
      generalize takeFlagged g id i.position member (without member pending) c i.readWord.2 = a
        at value ⊢
      generalize takeFlagged g id j.position member (without member pending) (c.shift d) j.readWord.2 = b
        at value ⊢
      cases value with
      | succeed c h => exact ih _ c h
      | fail c e f h => exact ⟨.fail c e f h, rfl⟩

theorem noteUnset_twin (pending sequence : List NodeId) (c : Context S A) (h : i.Twin d j) :
    (noteUnset g pending sequence c i).Twin d (noteUnset g pending sequence (c.shift d) j) := by
  unfold noteUnset
  cases unset? g.readers pending sequence with
  | none => exact .succeed c h
  | some u => exact .succeed _ h

theorem read_twin (free : g.ReadsPlaceFree) (id : NodeId) (members : Composed) (c : Context S A)
    (h : i.Twin d j) : (members.read g id c i).Twin d (members.read g id (c.shift d) j) := by
  have place : Span.point j.position = (Span.point i.position).shift d := h.span h
  simp only [read, place, ← Context.shift_record]
  have values := takeValues_twin free id members members.sequence members.sequence
    (c.record (.afterValue id members.sequence members.sequence.head?) (.point i.position)) h
  generalize takeValues g.readers id members members.sequence members.sequence _ i = p at values ⊢
  generalize takeValues g.readers id members members.sequence members.sequence _ j = q at values ⊢
  obtain ⟨a, pending, sequence, flagged⟩ := p
  obtain ⟨b, pending', sequence', flagged'⟩ := q
  obtain ⟨attempt, rfl, rfl, rfl⟩ := values
  cases attempt with
  | fail c e f h => exact .fail c e f h
  | succeed c h =>
    cases flagged' with
    | false => exact noteUnset_twin pending' sequence' c h
    | true =>
      obtain ⟨twin, left⟩ := takeFlags_twin free id members pending'.length pending' c h
      simp only [if_true, left]
      exact twin.andThen fun c _ _ h => noteUnset_twin _ sequence' c h

end Composed

structure Parse.Twin (d : Nat) (p q : Parse S A) : Prop where
  context : q.context = p.context.shift d
  rest : p.rest.Twin d q.rest
  faults : q.faults.map Prod.fst = p.faults.map Prod.fst

theorem Parse.isEmpty_faults_congr {p q : Parse S A}
    (same : q.faults.map Prod.fst = p.faults.map Prod.fst) : q.faults.isEmpty = p.faults.isEmpty := by
  rw [← List.isEmpty_map (f := Prod.fst), same, List.isEmpty_map]

namespace Parse.Twin

variable {p q p' q' : Parse S A}

theorem isComplete (h : p.Twin d q) : q.isComplete = p.isComplete := by
  rw [Parse.isComplete, Parse.isComplete, h.rest.hasMore, isEmpty_faults_congr h.faults]

theorem betterThan (h : p.Twin d q) (h' : p'.Twin d q') : q.betterThan q' = p.betterThan p' := by
  simp only [Parse.betterThan, h.rest.hasMore, h'.rest.hasMore, isEmpty_faults_congr h.faults,
    isEmpty_faults_congr h'.faults]

theorem best {ps qs : List (Parse S A)} (h : List.Forall₂ (Twin d) ps qs) :
    Option.Rel (Twin d) (Parse.best ps) (Parse.best qs) := by
  induction h with
  | nil => exact .none
  | @cons p q ps qs first _ ih =>
    simp only [Parse.best]
    generalize Parse.best ps = u at ih ⊢
    generalize Parse.best qs = v at ih ⊢
    cases ih with
    | none => exact .some first
    | some other =>
      simp only [other.betterThan first]
      split
      · exact .some other
      · exact .some first

end Parse.Twin

inductive Trial.Twin (d : Nat) : Trial S A → Trial S A → Prop
  | decided {p q : Parse S A} : p.Twin d q → Twin d (.decided p) (.decided q)
  | stuck (c : Context S A) {i j : Input} (e f : Fault) :
    i.Twin d j → Twin d (.stuck c i e) (.stuck (c.shift d) j f)
  | matched {p q : Parse S A} : p.Twin d q → Twin d (.matched p) (.matched q)
  | rejected (e f : Fault) : Twin d (.rejected e) (.rejected f)

namespace Grammar

theorem tryChildren_twin {attempt attempt' : NodeId → Trial S A}
    (same : ∀ id, (attempt id).Twin d (attempt' id)) (c : Context S A) (h : i.Twin d j)
    (children : List NodeId) {faults faults' : List (NodeId × Fault)}
    (blamed : faults'.map Prod.fst = faults.map Prod.fst) {found found' : List (Parse S A)}
    (alike : List.Forall₂ (Parse.Twin d) found found') :
    (tryChildren attempt c i children faults found).Twin d
      (tryChildren attempt' (c.shift d) j children faults' found') := by
  induction children generalizing faults faults' found found' with
  | nil =>
    have best := Parse.Twin.best alike
    simp only [tryChildren]
    generalize Parse.best found = u at best ⊢
    generalize Parse.best found' = v at best ⊢
    cases best with
    | none => exact ⟨rfl, h, blamed⟩
    | some twin => exact twin
  | cons id rest ih =>
    have trial := same id
    simp only [tryChildren]
    generalize attempt id = t at trial ⊢
    generalize attempt' id = u at trial ⊢
    cases trial with
    | decided twin => exact twin
    | stuck c e f h => exact ⟨rfl, h, by simp [blamed]⟩
    | matched twin => exact ih blamed (List.rel_append alike (.cons twin .nil))
    | rejected e f => exact ih (by simp [blamed]) alike

namespace ReadsPlaceFree

theorem tryChild_twin (free : g.ReadsPlaceFree) {below below' : NodeId → Context S A → Input → Parse S A}
    (deeper : ∀ id c i j, i.Twin d j → (below id c i).Twin d (below' id (c.shift d) j))
    (c : Context S A) (h : i.Twin d j) (id : NodeId) :
    (g.tryChild below c i id).Twin d (g.tryChild below' (c.shift d) j id) := by
  simp only [tryChild]
  cases (g.node id).composed? with
  | some members =>
    have attempt := ((Composed.read_twin free id members c h).andThen fun c _ _ h =>
      free.settle_twin id c h).asMalformed
    simp only [Node.matchComposed]
    generalize (((members.read g id c i).andThen _).asMalformed : Attempt S A) = a at attempt ⊢
    generalize (((members.read g id (c.shift d) j).andThen _).asMalformed : Attempt S A) = b
      at attempt ⊢
    cases attempt with
    | succeed c h => exact .decided ⟨rfl, h, rfl⟩
    | fail c e f h => exact .stuck c e f h
  | none =>
    have attempt := free.matchChild_twin id c h
    simp only
    generalize (g.node id).matchChild id c i = a at attempt ⊢
    generalize (g.node id).matchChild id (c.shift d) j = b at attempt ⊢
    cases attempt with
    | fail c e f h => exact .rejected e f
    | @succeed c i j h =>
      simp only [Attempt.succeed, h.hasMore]
      by_cases more : i.hasMore = true
      · simp only [more, Bool.not_true, Bool.false_eq_true, if_false]
        have next := h.readChar.2
        cases (g.node id).redirect with
        | none => exact .matched (deeper id c _ _ next)
        | some target =>
          have p := deeper target (c.freshChild target i.readChar.2.position) _ _ next
          rw [Context.shift_freshChild, ← next.position] at p
          exact .decided ⟨congrArg (c.shift d).redirectTo p.context, p.rest, p.faults⟩
      · simp only [more, Bool.not_false, if_true]
        exact .matched ⟨rfl, h, rfl⟩

theorem parseWithin_twin (free : g.ReadsPlaceFree) (depth : Nat) (id : NodeId) (c : Context S A)
    (h : i.Twin d j) : (g.parseWithin depth id c i).Twin d (g.parseWithin depth id (c.shift d) j) := by
  induction depth generalizing id c i j with
  | zero => exact ⟨rfl, h, rfl⟩
  | succ depth ih =>
    have same : g.candidates id (c.shift d).source j = g.candidates id c.source i := by
      rw [candidates, candidates, relevant_congr g id h.peekWord]
      rfl
    simp only [parseWithin, same]
    exact tryChildren_twin (free.tryChild_twin (fun id c i j h => ih id c h) c h) c h _ rfl .nil

theorem parseBelow_twin (free : g.ReadsPlaceFree) (id : NodeId) (c : Context S A) (h : i.Twin d j) :
    (g.parseBelow id c i).Twin d (g.parseBelow id (c.shift d) j) := by
  rw [parseBelow, parseBelow, h.toEnd]
  exact free.parseWithin_twin _ id c h

end ReadsPlaceFree

end Grammar

end CommandGrammar
