import CommandGrammar.Proofs.Parsing.Growth

set_option autoImplicit false

namespace CommandGrammar

variable {S A : Type} {c : Context S A} {i : Input} {id : NodeId}

structure Context.Stable (P : Context S A → Prop) : Prop where
  record : ∀ c matched span, P c → P (c.record matched span)
  bind : ∀ c name value span, P c → P (c.bind name value span)
  annotate : ∀ c name remark, P c → P (c.annotate name remark)

namespace Context.Stable

variable {P : Context S A → Prop} {g : Grammar S A} {members : Composed}

theorem andThen {a : Attempt S A} {next : Context S A → Input → Attempt S A} (first : P a.context)
    (onward : ∀ d j, P d → P (next d j).context) : P (a.andThen next).context := by
  unfold Attempt.andThen
  split
  · exact onward _ _ first
  · exact first

variable (stable : Stable P)
include stable

theorem matchWord (n : Node S A) (id : NodeId) (holds : P c) : P (n.matchWord id c i).context := by
  unfold Node.matchWord
  split
  · simp only [matchLiteral]
    split
    · exact stable.record _ _ _ holds
    · exact holds
  · simp only [matchArgument, recordArgument]
    split
    · exact stable.record _ _ _ (stable.bind _ _ _ _ holds)
    · exact holds
    · exact holds
  · exact holds

omit stable in
theorem takeSeparator (holds : P c) : P (Composed.takeSeparator c i).context := by
  rwa [Composed.context_takeSeparator]

theorem recordPlace (id : NodeId) (pending : List NodeId) (next : Option NodeId) (holds : P c) :
    P (Composed.recordPlace id pending next c i).context := stable.record _ _ _ holds

theorem takeValues (g : Grammar S A) (id : NodeId) (members : Composed) (rest pending : List NodeId)
    (i : Input) (holds : P c) :
    P (Composed.takeValues g id members rest pending c i).attempt.context := by
  induction rest generalizing pending c i with
  | nil => exact holds
  | cons next later ih =>
    rw [Composed.takeValues]
    cases i.peekWord with
    | none => exact holds
    | some word =>
      simp only
      split
      · exact holds
      · have tried : P ((((g.node next).matchWord next c i).andThen Composed.takeSeparator).andThen
            (Composed.recordPlace id (Composed.without next pending) later.head?)).context :=
          andThen (andThen (stable.matchWord _ _ holds) fun _ _ => takeSeparator)
            fun _ _ => stable.recordPlace _ _ _
        generalize (((g.node next).matchWord next c i).andThen Composed.takeSeparator).andThen
          (Composed.recordPlace id (Composed.without next pending) later.head?) = a at tried
        cases a.fault with
        | some f => exact tried
        | none => exact ih _ _ tried

theorem takeFlagged (g : Grammar S A) (id : NodeId) (start : Nat) (member : NodeId)
    (pending : List NodeId) (i : Input) (holds : P c) :
    P (Composed.takeFlagged g id start member pending c i).context := by
  unfold Composed.takeFlagged
  split
  · exact stable.record _ _ _ holds
  · have atValue : P ((Composed.takeSeparator c i).andThen fun c i =>
        .succeed (c.record (.flagValue id (some member)) ⟨start, i.position⟩) i).context :=
      andThen (takeSeparator holds) fun d j => stable.record d _ _
    apply andThen (andThen atValue fun d j => stable.matchWord _ _)
    intro d j found
    split
    · exact andThen (takeSeparator found) fun _ _ => stable.recordPlace _ _ _
    · exact found

theorem takeFlags (g : Grammar S A) (id : NodeId) (members : Composed) (n : Nat) (pending : List NodeId)
    (i : Input) (holds : P c) :
    P (Composed.takeFlags g id members n pending c i).1.context := by
  induction n generalizing pending c i with
  | zero => exact holds
  | succ n ih =>
    simp only [Composed.takeFlags]
    cases i.readWord.1.bind fun w => members.pendingFlag w.asText pending with
    | none => exact holds
    | some member =>
      have tried := stable.takeFlagged g id i.position member (Composed.without member pending)
        i.readWord.2 holds
      simp only
      generalize Composed.takeFlagged g id i.position member (Composed.without member pending) c
        i.readWord.2 = a at tried
      cases a.fault with
      | some f => exact tried
      | none => exact ih _ _ tried

theorem noteUnset (pending sequence : List NodeId) (holds : P c) :
    P (Composed.noteUnset g pending sequence c i).context := by
  unfold Composed.noteUnset
  split
  · exact stable.annotate _ _ _ holds
  · exact holds

theorem read (g : Grammar S A) (id : NodeId) (members : Composed) (i : Input) (holds : P c) :
    P (members.read g id c i).context := by
  have values := stable.takeValues g id members members.sequence members.sequence i
    (stable.record c (.afterValue id members.sequence members.sequence.head?) (.point i.position) holds)
  simp only [Composed.read]
  split
  · exact values
  · split
    · exact andThen (stable.takeFlags _ _ _ _ _ _ values) fun _ _ => stable.noteUnset _ _
    · exact andThen values fun _ _ => stable.noteUnset _ _

end Context.Stable

def Attempt.Finds (c : Context S A) (a : Attempt S A) : Prop :=
  ∃ view, a.context = { c with toView := view }

theorem Context.stable_finds (c : Context S A) :
    Stable fun d => ∃ view, d = { c with toView := view } := by
  constructor
  · rintro _ matched span ⟨view, rfl⟩
    exact ⟨view.record matched span, rfl⟩
  · rintro _ name value span ⟨view, rfl⟩
    exact ⟨view.bind name value span, rfl⟩
  · rintro _ name remark ⟨view, rfl⟩
    exact ⟨view.annotate name remark, rfl⟩

theorem Context.stable_extends (c : Context S A) :
    Stable fun d : Context S A => c.steps <+: d.steps ∧ c.arguments <+: d.arguments := by
  constructor
  · intro d matched span ⟨steps, arguments⟩
    exact ⟨steps.trans (List.prefix_append _ _), arguments⟩
  · intro d name value span ⟨steps, arguments⟩
    exact ⟨steps, arguments.trans (List.prefix_append _ _)⟩
  · exact fun _ _ _ kept => kept

namespace Attempt.Finds

variable {a : Attempt S A}

theorem action_eq (finds : a.Finds c) : a.context.action = c.action := by
  obtain ⟨view, found⟩ := finds
  rw [found]

theorem source_eq (finds : a.Finds c) : a.context.source = c.source := by
  obtain ⟨view, found⟩ := finds
  rw [found]

theorem redirected_eq (finds : a.Finds c) : a.context.redirected = c.redirected := by
  obtain ⟨view, found⟩ := finds
  rw [found]

theorem inherits_eq (finds : a.Finds c) : a.context.inherits = c.inherits := by
  obtain ⟨view, found⟩ := finds
  rw [found]

theorem executesChild_eq (finds : a.Finds c) : a.context.executesChild = c.executesChild := by
  obtain ⟨view, found⟩ := finds
  rw [found]

end Attempt.Finds

theorem Node.finds_matchWord (n : Node S A) (id : NodeId) (c : Context S A) (i : Input) :
    (n.matchWord id c i).Finds c :=
  c.stable_finds.matchWord n id ⟨c.toView, rfl⟩

theorem Composed.finds_read (g : Grammar S A) (id : NodeId) (members : Composed) (c : Context S A)
    (i : Input) : (members.read g id c i).Finds c :=
  c.stable_finds.read g id members i ⟨c.toView, rfl⟩

theorem Node.action_settle (n : Node S A) (c : Context S A) (i : Input) {action : Action A}
    (settled : (n.settle c i).context.action = some action) :
    c.action = some action ∨ ∃ choose view, n.choose = some choose ∧ choose view = .ok action := by
  simp only [settle] at settled
  cases chosen : n.choose with
  | some choose =>
    simp only [chosen] at settled
    cases answer : choose c.toView with
    | ok own =>
      simp only [answer, Attempt.succeed, Context.withAction] at settled
      exact .inr ⟨choose, c.toView, rfl, by rw [answer, Option.some.inj settled]⟩
    | error f =>
      simp only [answer, Attempt.fail] at settled
      exact .inl settled
  | none =>
    simp only [chosen, Attempt.succeed, Context.withAction] at settled
    split at settled
    · exact .inl settled
    · simp at settled

theorem Node.source_matchChild {n : Node S A} (matched : (n.matchChild id c i).fault = none) :
    (n.matchChild id c i).context.source = c.source := by
  have word := (n.finds_matchWord id c i).source_eq
  rw [context_matchChild matched, (n.adds_settle _ _).1.source, word]

theorem Node.redirected_matchChild {n : Node S A} (matched : (n.matchChild id c i).fault = none) :
    (n.matchChild id c i).context.redirected = c.redirected := by
  have word := (n.finds_matchWord id c i).redirected_eq
  rw [context_matchChild matched, (n.adds_settle _ _).2, word]

end CommandGrammar
