import CommandGrammar.Proofs.Input.Text
import CommandGrammar.Proofs.Parsing.Descent
import CommandGrammar.Proofs.Spans

set_option autoImplicit false

namespace CommandGrammar

namespace Span

def Between : Nat → Nat → List Span → Prop
  | low, high, [] => low ≤ high
  | low, high, s :: rest => low ≤ s.start ∧ s.start ≤ s.stop ∧ Between s.stop high rest

variable {low mid high : Nat} {spans others : List Span}

theorem Between.of_le (h : Between mid high spans) (le : low ≤ mid) : Between low high spans := by
  cases spans with
  | nil => exact Nat.le_trans le h
  | cons s rest => exact ⟨Nat.le_trans le h.1, h.2⟩

theorem Between.append (h : Between low mid spans) (h' : Between mid high others) :
    Between low high (spans ++ others) := by
  induction spans generalizing low with
  | nil => exact h'.of_le h
  | cons s rest ih => exact ⟨h.1, h.2.1, ih h.2.2⟩

theorem Between.le (h : Between low high spans) : low ≤ high := by
  induction spans generalizing low with
  | nil => exact h
  | cons s rest ih => exact Nat.le_trans (Nat.le_trans h.1 h.2.1) (ih h.2.2)

theorem Between.bounds (h : Between low high spans) :
    ∀ s ∈ spans, low ≤ s.start ∧ s.start ≤ s.stop ∧ s.stop ≤ high := by
  induction spans generalizing low with
  | nil => simp
  | cons s rest ih =>
    intro t member
    rcases List.mem_cons.mp member with rfl | member
    · exact ⟨h.1, h.2.1, h.2.2.le⟩
    · obtain ⟨behind, proper, within⟩ := ih h.2.2 t member
      exact ⟨Nat.le_trans (Nat.le_trans h.1 h.2.1) behind, proper, within⟩

theorem Between.pairwise (h : Between low high spans) :
    spans.Pairwise fun s t => s.stop ≤ t.start := by
  induction spans generalizing low with
  | nil => exact .nil
  | cons s rest ih => exact .cons (fun t member => (h.2.2.bounds t member).1) (ih h.2.2)

end Span

variable {S A : Type} {kind : Matched → Prop} {c : Context S A} {i j : Input} {id : NodeId}

structure Frame.Adds (f : Frame S A) (new : List Step) (f' : Frame S A) : Prop where
  source : f'.source = f.source
  root : f'.root = f.root
  steps : f'.steps = f.steps ++ new
  span : f'.span = (new.map Step.span).foldl Span.cover f.span

theorem Frame.Adds.refl (f : Frame S A) : f.Adds [] f := ⟨rfl, rfl, by simp, rfl⟩

theorem Frame.Adds.trans {f f' f'' : Frame S A} {new new' : List Step} (first : f.Adds new f')
    (second : f'.Adds new' f'') : f.Adds (new ++ new') f'' := by
  refine ⟨second.source.trans first.source, second.root.trans first.root, ?_, ?_⟩
  · rw [second.steps, first.steps, List.append_assoc]
  · rw [second.span, first.span, List.map_append, List.foldl_append]

theorem Frame.Adds.isHull {f f' : Frame S A} {new : List Step} (adds : f.Adds new f') :
    f'.span.IsHull (f.span :: new.map Step.span) :=
  adds.span ▸ Span.isHull_foldl_cover _ _

theorem Frame.Adds.covers {f f' : Frame S A} {new : List Step} (adds : f.Adds new f')
    (covers : ∀ s ∈ f.steps, s.span.stop ≤ f.span.stop) :
    ∀ s ∈ f'.steps, s.span.stop ≤ f'.span.stop := by
  intro s member
  rw [adds.steps] at member
  rcases List.mem_append.mp member with old | late
  · exact Nat.le_trans (covers s old) (adds.isHull.encloses _ List.mem_cons_self).2
  · exact (adds.isHull.encloses _ (List.mem_cons_of_mem _ (List.mem_map_of_mem late))).2

theorem Context.adds_record (c : Context S A) (matched : Matched) (span : Span) :
    c.toFrame.Adds [⟨matched, span⟩] (c.record matched span).toFrame := ⟨rfl, rfl, rfl, rfl⟩

/-- What an attempt records: steps of one kind, in order, from where it began to where it stopped. A
failed attempt keeps what it had recorded. -/
structure Attempt.Records (kind : Matched → Prop) (c : Context S A) (i : Input) (a : Attempt S A) :
    Prop where
  reached : i.Reaches a.input
  redirected : a.context.redirected = c.redirected
  added : ∃ new, c.toFrame.Adds new a.context.toFrame ∧ (∀ s ∈ new, kind s.matched) ∧
    Span.Between i.position a.input.position (new.map Step.span)

namespace Attempt.Records

variable {a b : Attempt S A}

theorem moved (reached : i.Reaches a.input) (same : c.toFrame.Adds [] a.context.toFrame)
    (redirected : a.context.redirected = c.redirected) : a.Records kind c i :=
  ⟨reached, redirected, [], same, by simp, reached.forward⟩

theorem stay (laid : i.Laid) (fault : Option Fault) : (⟨c, i, fault⟩ : Attempt S A).Records kind c i :=
  moved laid.refl (.refl _) rfl

theorem record {matched : Matched} (proper : kind matched) (reached : i.Reaches j)
    (fault : Option Fault) :
    (⟨c.record matched ⟨i.position, j.position⟩, j, fault⟩ : Attempt S A).Records kind c i :=
  ⟨reached, rfl, _, c.adds_record _ _, by simpa using proper,
    Nat.le_refl _, reached.forward, Nat.le_refl _⟩

theorem trans (first : a.Records kind c i) (second : b.Records kind a.context a.input) :
    b.Records kind c i := by
  obtain ⟨new, adds, proper, ordered⟩ := first.added
  obtain ⟨new', adds', proper', ordered'⟩ := second.added
  refine ⟨first.reached.trans second.reached, second.redirected.trans first.redirected,
    new ++ new', adds.trans adds', ?_, ?_⟩
  · intro s member
    rcases List.mem_append.mp member with early | late
    · exact proper s early
    · exact proper' s late
  · rw [List.map_append]
    exact ordered.append ordered'

theorem andThen {next : Context S A → Input → Attempt S A} (first : a.Records kind c i)
    (onward : ∀ d j, i.Reaches j → (next d j).Records kind d j) :
    (a.andThen next).Records kind c i := by
  unfold Attempt.andThen
  split
  · exact first.trans (onward _ _ first.reached)
  · exact first

theorem asMalformed (h : a.Records kind c i) : a.asMalformed.Records kind c i :=
  ⟨h.reached, h.redirected, h.added⟩

end Attempt.Records

theorem records_matchLiteral (laid : i.Laid) (name : String) (c : Context S A)
    (proper : kind (.node id)) : (matchLiteral id name c i).Records kind c i := by
  simp only [matchLiteral]
  split
  · exact .record proper laid.reaches_readWord none
  · exact .stay laid _

theorem matchLiteral_of_shows {name : String} {left : List Char} (shows : i.Shows (name.toList ++ left))
    (present : name ≠ "") (solid : ∀ ch ∈ name.toList, Text.isBlank ch = false)
    (ends : ∀ ch ∈ left.head?, Text.isBlank ch = true) (id : NodeId) (c : Context S A) :
    matchLiteral id name c i =
      .succeed (c.record (.node id) ⟨i.position, i.position + name.length⟩)
        { i with position := i.position + name.length } := by
  have present : name.toList ≠ [] := by simpa using present
  have word := shows.readWord_eq
  rw [Input.firstWord_append present solid ends, String.ofList_toList, String.length_toList] at word
  simp [matchLiteral, word, Word.asText]

theorem Context.adds_bind_record (c : Context S A) (name : String) (value : Value) (matched : Matched)
    (span : Span) :
    c.toFrame.Adds [⟨matched, span⟩] ((c.bind name value span).record matched span).toFrame :=
  ⟨rfl, rfl, rfl, rfl⟩

theorem records_matchArgument (laid : i.Laid) (name : String) (type : ArgumentType S A)
    (c : Context S A) (proper : kind (.node id)) :
    (matchArgument id name type c i).Records kind c i := by
  have reached := Reading.reaches_advance laid (type.read i c)
  simp only [matchArgument, recordArgument]
  split
  · exact ⟨reached, rfl, _, c.adds_bind_record _ _ _ _, by simpa using proper,
      Nat.le_refl _, reached.forward, Nat.le_refl _⟩
  · exact .stay laid _
  · exact .stay laid _

namespace Node

theorem records_matchWord (laid : i.Laid) (n : Node S A) (c : Context S A) (proper : kind (.node id)) :
    (n.matchWord id c i).Records kind c i := by
  unfold matchWord
  split
  · exact records_matchLiteral laid _ c proper
  · exact records_matchArgument laid _ _ c proper
  · exact .stay laid _

theorem context_endWord (c : Context S A) (i : Input) : (endWord c i).context = c := by
  unfold endWord
  split <;> rfl

theorem adds_settle (n : Node S A) (c : Context S A) (i : Input) :
    c.toFrame.Adds [] (n.settle c i).context.toFrame ∧
      (n.settle c i).context.redirected = c.redirected := by
  have kept {d : Context S A} (view : d.toView = c.toView) (source : d.source = c.source)
      (root : d.root = c.root) (redirected : d.redirected = c.redirected) :
      c.toFrame.Adds [] d.toFrame ∧ d.redirected = c.redirected :=
    ⟨⟨source, root, by rw [view, List.append_nil], by rw [view]; rfl⟩, redirected⟩
  simp only [settle]
  split
  · split <;> exact kept rfl rfl rfl rfl
  · simp only [Attempt.succeed]
    split <;> exact kept rfl rfl rfl rfl

theorem settle_of_ok {n : Node S A} {c : Context S A}
    (settles : ∀ choose, n.choose = some choose → ∃ action, choose c.toView = .ok action) (i : Input) :
    ∃ d, n.settle c i = .succeed d i ∧ d.toView = c.toView ∧ d.source = c.source ∧ d.root = c.root ∧
      d.executesChild = (c.executesChild && n.executesChild) ∧
      ∀ choose action, n.choose = some choose → choose c.toView = .ok action →
        d.action = some action := by
  simp only [settle]
  cases choose : n.choose with
  | some f =>
    obtain ⟨action, chosen⟩ := settles f choose
    simp only [chosen]
    refine ⟨_, rfl, rfl, rfl, rfl, rfl, ?_⟩
    rintro _ other ⟨⟩ same
    exact congrArg some (Except.ok.inj (chosen.symm.trans same))
  | none =>
    refine ⟨_, rfl, ?_⟩
    split <;> exact ⟨rfl, rfl, rfl, rfl, by simp⟩

theorem records_settle (laid : i.Laid) (n : Node S A) (c : Context S A) :
    (n.settle c i).Records kind c i := by
  obtain ⟨adds, redirected⟩ := n.adds_settle c i
  exact .moved (by rw [input_settle]; exact laid.refl) adds redirected

theorem adds_matchWord {n : Node S A} (proper : n.isRoot = false) (plain : n.composed? = none)
    (matched : (n.matchWord id c i).fault = none) :
    c.toFrame.Adds [⟨.node id, ⟨i.position, (n.matchWord id c i).input.position⟩⟩]
        (n.matchWord id c i).context.toFrame ∧
      (n.matchWord id c i).context.redirected = c.redirected := by
  unfold matchWord at matched ⊢
  cases role : n.role with
  | root => simp [isRoot, role] at proper
  | composed members => simp [composed?, role] at plain
  | literal name =>
    simp only [role, matchLiteral] at matched ⊢
    split at matched
    case isTrue found =>
      rw [if_pos found]
      exact ⟨c.adds_record _ _, rfl⟩
    case isFalse => simp [Attempt.fail] at matched
  | argument name type =>
    simp only [role, matchArgument, recordArgument] at matched ⊢
    cases answer : (type.read i c).answer with
    | ok value => exact ⟨c.adds_bind_record _ _ _ _, rfl⟩
    | error e => cases e <;> simp [answer, Attempt.fail] at matched

theorem input_matchChild (n : Node S A) (id : NodeId) (c : Context S A) (i : Input) :
    (n.matchChild id c i).input = (n.matchWord id c i).input := by
  have kept {a : Attempt S A} {next : Context S A → Input → Attempt S A}
      (stays : ∀ d j, (next d j).input = j) : (a.andThen next).input = a.input := by
    unfold Attempt.andThen
    split
    · exact stays _ _
    · rfl
  exact (kept n.input_settle).trans (kept input_endWord)

theorem matchChild_fault_eq_none {n : Node S A} : (n.matchChild id c i).fault = none ↔
    (n.matchWord id c i).fault = none ∧
      (endWord (n.matchWord id c i).context (n.matchWord id c i).input).fault = none ∧
      (n.settle (n.matchWord id c i).context (n.matchWord id c i).input).fault = none := by
  simp only [matchChild, Attempt.asMalformed, Option.map_eq_none_iff, Attempt.andThen]
  cases word : (n.matchWord id c i).fault with
  | some f => simp [word]
  | none =>
    cases ended : (endWord (n.matchWord id c i).context (n.matchWord id c i).input).fault with
    | some f => simp [ended]
    | none => simp [context_endWord, input_endWord]

theorem context_matchChild {n : Node S A} (matched : (n.matchChild id c i).fault = none) :
    (n.matchChild id c i).context =
      (n.settle (n.matchWord id c i).context (n.matchWord id c i).input).context := by
  obtain ⟨word, ended, -⟩ := matchChild_fault_eq_none.mp matched
  simp only [matchChild, Attempt.asMalformed, Attempt.andThen, word, ended, context_endWord,
    input_endWord]

theorem adds_matchChild {n : Node S A} (proper : n.isRoot = false) (plain : n.composed? = none)
    (matched : (n.matchChild id c i).fault = none) :
    c.toFrame.Adds [⟨.node id, ⟨i.position, (n.matchChild id c i).input.position⟩⟩]
        (n.matchChild id c i).context.toFrame ∧
      (n.matchChild id c i).context.redirected = c.redirected := by
  have word := (matchChild_fault_eq_none.mp matched).1
  obtain ⟨adds, redirected⟩ := adds_matchWord proper plain word
  obtain ⟨adds', redirected'⟩ :=
    n.adds_settle (n.matchWord id c i).context (n.matchWord id c i).input
  rw [context_matchChild matched, input_matchChild]
  exact ⟨adds.trans adds', redirected'.trans redirected⟩

end Node

namespace Composed

variable {g : Grammar S A} {members : Composed}

def Belongs (members : Composed) (id : NodeId) (m : Matched) : Prop :=
  m.composed? = some id ∨ ∃ member ∈ members.sequence, m = .node member

theorem records_takeSeparator (laid : i.Laid) (c : Context S A) :
    (takeSeparator c i).Records kind c i :=
  .moved (reaches_takeSeparator laid c) (by rw [context_takeSeparator]; exact .refl _)
    (by rw [context_takeSeparator])

theorem records_recordPlace (laid : i.Laid) (pending : List NodeId) (next : Option NodeId)
    (c : Context S A) : (recordPlace id pending next c i).Records (members.Belongs id) c i :=
  .record (.inl rfl) laid.refl none

theorem takeValues_subset (g : Grammar S A) (id : NodeId) (members : Composed) (rest pending : List NodeId)
    (c : Context S A) (i : Input) :
    (takeValues g id members rest pending c i).pending ⊆ pending ∧
      (takeValues g id members rest pending c i).sequence ⊆ rest := by
  induction rest generalizing pending c i with
  | nil => exact ⟨fun _ member => member, fun _ member => member⟩
  | cons next later ih =>
    rw [takeValues]
    cases i.peekWord with
    | none => exact ⟨fun _ member => member, fun _ member => member⟩
    | some word =>
      simp only
      split
      · exact ⟨fun _ member => member, fun _ member => member⟩
      · generalize (((g.node next).matchWord next c i).andThen takeSeparator).andThen
          (recordPlace id (without next pending) later.head?) = a
        have fewer : without next pending ⊆ pending := List.filter_sublist.subset
        have others : later ⊆ next :: later := fun _ member => List.mem_cons_of_mem _ member
        cases a.fault with
        | some f => exact ⟨fewer, others⟩
        | none =>
          obtain ⟨left, unread⟩ := ih (without next pending) a.context a.input
          exact ⟨List.Subset.trans left fewer, List.Subset.trans unread others⟩

theorem records_takeValues (g : Grammar S A) (id : NodeId) (laid : i.Laid) {rest : List NodeId}
    (known : rest ⊆ members.sequence) (pending : List NodeId) (c : Context S A) :
    (takeValues g id members rest pending c i).attempt.Records (members.Belongs id) c i := by
  induction rest generalizing pending c i with
  | nil => exact .stay laid _
  | cons next later ih =>
    have member : next ∈ members.sequence := known (by simp)
    rw [takeValues]
    cases i.peekWord with
    | none => exact .stay laid _
    | some word =>
      simp only
      split
      · exact .stay laid _
      · have tried : ((((g.node next).matchWord next c i).andThen takeSeparator).andThen
            (recordPlace id (without next pending) later.head?)).Records (members.Belongs id) c i :=
          (((g.node next).records_matchWord laid c (.inr ⟨next, member, rfl⟩)).andThen
            fun d j reached => records_takeSeparator (reached.laid laid) d).andThen
            fun d j reached => records_recordPlace (reached.laid laid) _ _ d
        generalize (((g.node next).matchWord next c i).andThen takeSeparator).andThen
          (recordPlace id (without next pending) later.head?) = a at tried
        cases a.fault with
        | some f => exact tried
        | none =>
          exact tried.trans (ih (tried.reached.laid laid)
            (fun m inside => known (List.mem_cons_of_mem _ inside)) (without next pending) a.context)

theorem records_takeFlagged (laid : i.Laid) (reached : i.Reaches j) {member : NodeId}
    (known : member ∈ members.sequence) (pending : List NodeId) (c : Context S A) :
    (takeFlagged g id i.position member pending c j).Records (members.Belongs id) c i := by
  unfold takeFlagged
  split
  · exact .record (.inl rfl) reached _
  · have separated := reaches_takeSeparator (reached.laid laid) c
    have atValue : ((takeSeparator c j).andThen fun c i' =>
        .succeed (c.record (.flagValue id (some member)) ⟨i.position, i'.position⟩) i').Records
          (members.Belongs id) c i := by
      unfold Attempt.andThen
      rw [context_takeSeparator]
      split
      · exact .record (.inl rfl) (reached.trans separated) none
      · exact .moved (reached.trans separated) (by rw [context_takeSeparator]; exact .refl _)
          (by rw [context_takeSeparator])
    refine (atValue.andThen fun d k onward =>
      (g.node member).records_matchWord (onward.laid laid) d (.inr ⟨member, known, rfl⟩)).andThen
        fun d k onward => ?_
    split
    · exact (records_takeSeparator (onward.laid laid) d).andThen fun e l behind =>
        records_recordPlace (behind.laid (onward.laid laid)) _ _ e
    · exact .stay (onward.laid laid) _

theorem mem_of_pendingFlag {word : String} {pending : List NodeId} {m : NodeId}
    (flag : members.pendingFlag word pending = some m) : m ∈ pending := by
  unfold pendingFlag at flag
  split at flag
  · exact of_decide_eq_true (Option.filter_eq_some_iff.mp flag).2
  · simp at flag

theorem takeFlags_subset (g : Grammar S A) (id : NodeId) (members : Composed) (n : Nat)
    (pending : List NodeId) (c : Context S A) (i : Input) :
    (takeFlags g id members n pending c i).2 ⊆ pending := by
  induction n generalizing pending c i with
  | zero => exact fun _ member => member
  | succ n ih =>
    simp only [takeFlags]
    cases i.readWord.1.bind fun w => members.pendingFlag w.asText pending with
    | none => exact fun _ member => member
    | some m =>
      have fewer : without m pending ⊆ pending := List.filter_sublist.subset
      simp only
      generalize takeFlagged g id i.position m (without m pending) c i.readWord.2 = a
      cases a.fault with
      | some f => exact fewer
      | none => exact List.Subset.trans (ih (without m pending) a.context a.input) fewer

theorem records_takeFlags (laid : i.Laid) (n : Nat) {pending : List NodeId}
    (known : pending ⊆ members.sequence) (c : Context S A) :
    (takeFlags g id members n pending c i).1.Records (members.Belongs id) c i := by
  induction n generalizing pending c i with
  | zero => exact .stay laid _
  | succ n ih =>
    rw [takeFlags]
    simp only [Input.fst_readWord]
    cases flag : i.peekWord.bind fun word => members.pendingFlag word.asText pending with
    | none => exact .stay laid _
    | some m =>
      obtain ⟨word, -, flag⟩ := Option.bind_eq_some_iff.mp flag
      have tried : (takeFlagged g id i.position m (without m pending) c i.readWord.2).Records
          (members.Belongs id) c i :=
        records_takeFlagged laid laid.reaches_readWord (known (mem_of_pendingFlag flag)) _ c
      simp only
      generalize takeFlagged g id i.position m (without m pending) c i.readWord.2 = a at tried
      cases a.fault with
      | some f => exact tried
      | none =>
        exact tried.trans (ih (tried.reached.laid laid)
          (fun m inside => known (List.mem_filter.mp inside).1) a.context)

theorem records_noteUnset (laid : i.Laid) (pending sequence : List NodeId) (c : Context S A) :
    (noteUnset g pending sequence c i).Records kind c i := by
  unfold noteUnset
  split
  · exact .moved laid.refl ⟨rfl, rfl, (List.append_nil _).symm, rfl⟩ rfl
  · exact .stay laid _

def firstPlace (members : Composed) (id : NodeId) (i : Input) : Step :=
  ⟨.afterValue id members.sequence members.sequence.head?, .point i.position⟩

theorem records_read (laid : i.Laid) (c : Context S A) :
    (members.read g id c i).Records (members.Belongs id)
      (c.record (members.firstPlace id i).matched (members.firstPlace id i).span) i := by
  have all : members.sequence ⊆ members.sequence := fun _ member => member
  have values := records_takeValues g id laid all members.sequence
    (c.record (members.firstPlace id i).matched (members.firstPlace id i).span)
  have known := (takeValues_subset g id members members.sequence members.sequence
    (c.record (members.firstPlace id i).matched (members.firstPlace id i).span) i).1
  have onward := values.reached.laid laid
  simp only [read]
  split
  · exact values
  · refine values.trans ?_
    split
    · exact (records_takeFlags onward _ known _).andThen fun d j reached =>
        records_noteUnset (reached.laid onward) _ _ d
    · rename_i ok _
      simp only [Attempt.andThen, ok]
      exact records_noteUnset onward _ _ _

end Composed

theorem Node.records_matchComposed (g : Grammar S A) (members : Composed) (id : NodeId)
    (laid : i.Laid) (n : Node S A) (c : Context S A) :
    (n.matchComposed g id members c i).Records (members.Belongs id)
      (c.record (members.firstPlace id i).matched (members.firstPlace id i).span) i :=
  ((Composed.records_read laid c).andThen fun d _ reached =>
    n.records_settle (reached.laid laid) d).asMalformed

end CommandGrammar
