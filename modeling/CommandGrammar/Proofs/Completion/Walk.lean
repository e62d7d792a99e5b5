import CommandGrammar.Completion.Query
import CommandGrammar.Proofs.Parsing.Agreement
import CommandGrammar.Proofs.Parsing.Trail

/-!
Reading a line of a grammar in which at most one child of a node can match. Such a line is walked word by
word, and as far as a walk goes it is decided by the characters that it passes.
-/

set_option autoImplicit false

namespace CommandGrammar

variable {S A : Type}

structure Grammar.Plain (g : Grammar S A) : Prop where
  uncomposed : ∀ id, (g.node id).composed? = none
  narrow : ∀ id, ∀ a ∈ (g.node id).children, ∀ b ∈ (g.node id).children,
    (g.node a).isArgument = true → (g.node b).isArgument = true → a = b
  builtin : ∀ id name type, (g.node id).role = .argument name type → type.IsBuiltin

/-- The place on a line where the children of a node are tried. -/
structure Stand (S A : Type) where
  node : NodeId
  context : Context S A
  input : Input

namespace Stand

def start (source : S) (i : Input) : Stand S A := ⟨.root, .start source .root i.position, i⟩

def parse (g : Grammar S A) (s : Stand S A) : Parse S A := g.parseBelow s.node s.context s.input

def tried (g : Grammar S A) (s : Stand S A) (child : NodeId) : Attempt S A :=
  (g.node child).matchChild child s.context s.input

structure Takes (g : Grammar S A) (s : Stand S A) (child : NodeId) : Prop where
  candidate : child ∈ g.candidates s.node s.context.source s.input
  matched : (s.tried g child).fault = none

def next (g : Grammar S A) (s : Stand S A) (child : NodeId) : Stand S A :=
  let a := s.tried g child
  let j := a.input.readChar.2
  match (g.node child).redirect with
  | none => ⟨child, a.context, j⟩
  | some target => ⟨target, a.context.freshChild target j.position, j⟩

structure Ready (s : Stand S A) : Prop where
  text : ∃ left, s.input.Shows left
  free : s.context.redirected = []
  behind : Query.behind s.context.toView s.context.root = ⟨.node s.node, s.input.position⟩
  newest : (s.context.steps.getLast?.map Step.matched).getD (.node s.context.root) = .node s.node
  begun : s.context.span.start ≤ s.input.position
  covered : s.context.span.stop ≤ s.input.position
  separated : s.context.steps ≠ [] → s.context.span.stop < s.input.position
  passed : ∀ step ∈ s.context.steps, step.span.stop < s.input.position

/-- From stand to stand over words that end before a position. -/
inductive Walk (g : Grammar S A) (k : Nat) : Stand S A → Stand S A → Prop
  | here (s : Stand S A) : Walk g k s s
  | step {s t : Stand S A} {child : NodeId} : s.Takes g child →
      (s.tried g child).input.position < k → Walk g k (s.next g child) t → Walk g k s t

def Settled (g : Grammar S A) (k : Nat) (s : Stand S A) : Prop :=
  ∀ child, s.Takes g child → k ≤ (s.tried g child).input.position

structure Agree (k : Nat) (s t : Stand S A) : Prop where
  node : t.node = s.node
  context : t.context = s.context
  input : s.input.Agree k t.input

variable {g : Grammar S A} {s t : Stand S A} {child : NodeId} {k : Nat}

theorem Ready.laid (ready : s.Ready) : s.input.Laid := by
  obtain ⟨left, shows⟩ := ready.text
  exact shows.laid

theorem ready_start (source : S) (line : String) : (start (A := A) source (.ofText line)).Ready where
  text := ⟨_, Input.shows_ofText line⟩
  free := rfl
  behind := rfl
  newest := rfl
  begun := Nat.le_refl _
  covered := Nat.le_refl _
  separated := fun some => absurd rfl some
  passed := fun _ member => absurd member List.not_mem_nil

theorem input_next (g : Grammar S A) (s : Stand S A) (child : NodeId) :
    (s.next g child).input = (s.tried g child).input.readChar.2 := by
  unfold next
  split <;> rfl

theorem Ready.reaches_tried (ready : s.Ready) (g : Grammar S A) (child : NodeId) :
    s.input.Reaches (s.tried g child).input :=
  (g.node child).reaches_matchChild ready.laid child s.context

theorem Ready.position_next (ready : s.Ready) (more : (s.tried g child).input.hasMore = true) :
    (s.next g child).input.position = (s.tried g child).input.position + 1 := by
  obtain ⟨left, shows⟩ := ready.text
  have shows := shows.reaches (ready.reaches_tried g child)
  rw [input_next, shows.readChar_eq]
  rw [shows.hasMore_eq] at more
  cases left : left.drop ((s.tried g child).input.position - s.input.position) with
  | nil => simp [left] at more
  | cons ch rest => simp

theorem Ready.reaches_next (ready : s.Ready) (g : Grammar S A) (child : NodeId) :
    s.input.Reaches (s.next g child).input := by
  have reached := ready.reaches_tried g child
  rw [input_next]
  exact reached.trans (reached.laid ready.laid).reaches_readChar

theorem Takes.mem_children (takes : s.Takes g child) (sound : g.Sound) :
    child ∈ (g.node s.node).children :=
  sound.mem_children_of_mem_candidates takes.candidate

theorem Ready.hasMore (ready : s.Ready) (within : k ≤ s.input.length)
    (before : (s.tried g child).input.position < k) : (s.tried g child).input.hasMore = true := by
  have length := (ready.reaches_tried g child).length
  rw [Input.hasMore, decide_eq_true_iff]
  omega

theorem Agree.symm (agree : s.Agree k t) : t.Agree k s :=
  ⟨agree.node.symm, agree.context.symm, agree.input.symm⟩

theorem Agree.next (agree : (s.tried g child).Agree k (t.tried g child))
    (before : (s.tried g child).input.position < k) : (s.next g child).Agree k (t.next g child) := by
  obtain ⟨ch, read, read'⟩ := agree.input.readChar before
  have onward := agree.input.advance (n := 1) before
  simp only [Stand.next, read, read', agree.context]
  split
  · exact ⟨rfl, rfl, onward⟩
  · refine ⟨rfl, ?_, onward⟩
    simp only [agree.input.position]

theorem peekWord_of_matchLiteral {name : String} {c : Context S A} {i : Input}
    (matched : (matchLiteral child name c i).fault = none) :
    i.peekWord.map Word.asText = some name := by
  simp only [matchLiteral, Input.fst_readWord] at matched
  cases peeked : i.peekWord with
  | none => simp [peeked, Attempt.fail] at matched
  | some word =>
    simp only [peeked, Option.isSome_some, Option.map_some, Option.getD_some, Bool.true_and] at matched
    split at matched
    case isTrue same => rw [Option.map_some, beq_iff_eq.mp same]
    case isFalse => simp [Attempt.fail] at matched

theorem context_parse_of_idle (plain : g.Plain) (idle : ∀ child, ¬ s.Takes g child) :
    (s.parse g).context = s.context := by
  have route : g.Route s.node s.context s.input (s.parse g) := g.route_parseBelow _ _ _
  generalize s.parse g = p at route ⊢
  cases route with
  | stop faults => rfl
  | @composed _ child _ _ _ _ _ composed => simp [plain.uncomposed child] at composed
  | ended takes => exact absurd ⟨takes.tried, takes.matched⟩ (idle _)
  | deeper takes => exact absurd ⟨takes.tried, takes.matched⟩ (idle _)
  | redirect takes => exact absurd ⟨takes.tried, takes.matched⟩ (idle _)

section Plain

variable (sound : g.Sound) (plain : g.Plain)
include sound plain

theorem Takes.adds (takes : s.Takes g child) :
    s.context.toFrame.Adds [⟨.node child, ⟨s.input.position, (s.tried g child).input.position⟩⟩]
        (s.tried g child).context.toFrame ∧
      (s.tried g child).context.redirected = s.context.redirected :=
  Node.adds_matchChild (sound.isRoot_of_mem_children (takes.mem_children sound))
    (plain.uncomposed child) takes.matched

theorem Takes.source_next (takes : s.Takes g child) :
    (s.next g child).context.source = s.context.source := by
  have same := (takes.adds sound plain).1.source
  unfold next
  split <;> exact same

theorem Takes.span_tried (takes : s.Takes g child) (ready : s.Ready) :
    (s.tried g child).context.span.start ≤ s.input.position ∧
      (s.tried g child).context.span.stop = (s.tried g child).input.position := by
  have span := (takes.adds sound plain).1.span
  have reached := (ready.reaches_tried g child).forward
  have begun := ready.begun
  have covered := ready.covered
  simp only [List.map_cons, List.map_nil, List.foldl_cons, List.foldl_nil, Span.cover] at span
  rw [span]
  simp only
  omega

theorem Ready.next (ready : s.Ready) (takes : s.Takes g child)
    (more : (s.tried g child).input.hasMore = true) : (s.next g child).Ready := by
  obtain ⟨left, shows⟩ := ready.text
  have text := shows.reaches (ready.reaches_next g child)
  have position := ready.position_next more
  have reached := (ready.reaches_tried g child).forward
  obtain ⟨adds, redirected⟩ := takes.adds sound plain
  obtain ⟨begun, stop⟩ := takes.span_tried sound plain ready
  have steps := adds.steps
  unfold Stand.next at text position ⊢
  cases redirect : (g.node child).redirect with
  | none =>
    simp only [redirect] at text position ⊢
    have further : (s.tried g child).context.span.stop < (s.tried g child).input.readChar.2.position := by
      rw [position, stop]
      exact Nat.lt_succ_self _
    refine ⟨⟨_, text⟩, redirected.trans ready.free, ?_, ?_, ?_, Nat.le_of_lt further,
      fun _ => further, ?_⟩
    · simp only [Query.behind, steps, List.getLast?_concat, Matched.isPlace, position]
      rfl
    · rw [steps, List.getLast?_concat]
      rfl
    · exact Nat.le_trans begun (Nat.le_trans reached (stop ▸ Nat.le_of_lt further))
    · intro step member
      rw [steps, List.mem_append, List.mem_singleton] at member
      rw [position]
      rcases member with old | rfl
      · exact Nat.lt_of_lt_of_le (ready.passed step old) (Nat.le_succ_of_le reached)
      · exact Nat.lt_succ_self _
  | some target =>
    simp only [redirect] at text ⊢
    exact ⟨⟨_, text⟩, rfl, rfl, rfl, Nat.le_refl _, Nat.le_refl _, fun some => absurd rfl some,
      fun _ member => absurd member List.not_mem_nil⟩

theorem Takes.relevant_eq (takes : s.Takes g child) :
    g.relevant s.node s.input = [child] := by
  have member := takes.mem_children sound
  have indexed := sound.indexed_node s.node
  have among := (List.mem_filter.mp takes.candidate).1
  have word := (Node.matchChild_fault_eq_none.mp takes.matched).1
  unfold Node.matchWord at word
  cases role : (g.node child).role with
  | root => exact absurd (sound.isRoot_of_mem_children member) (by simp [Node.isRoot, role])
  | composed members => exact absurd (plain.uncomposed child) (by simp [Node.composed?, role])
  | literal name =>
    simp only [role] at word
    obtain ⟨w, peeked, same⟩ := Option.map_eq_some_iff.mp (peekWord_of_matchLiteral word)
    have known := (indexed.literals name child).mpr ⟨member, role⟩
    exact Grammar.relevant_of_literal peeked (same ▸ known)
  | argument name type =>
    unfold Grammar.relevant at among ⊢
    split
    case h_1 literal known =>
      simp only [known, List.mem_singleton] at among
      rw [among]
    case h_2 unknown =>
      have argument : (g.node child).isArgument = true := by simp [Node.isArgument, role]
      have alone : (g.node s.node).children.filter (fun other => (g.node other).isArgument) =
          [child] := by
        calc (g.node s.node).children.filter (fun other => (g.node other).isArgument)
            = (g.node s.node).children.filter (· == child) := by
              refine List.filter_congr fun other sibling => ?_
              rw [Bool.eq_iff_iff, beq_iff_eq]
              refine ⟨fun other_ => plain.narrow _ other sibling child member other_ argument, ?_⟩
              rintro rfl
              exact argument
          _ = List.replicate ((g.node s.node).children.count child) child := List.filter_beq child
          _ = [child] := by rw [List.count_eq_one_of_mem indexed.nodup member, List.replicate_one]
      rw [alone]

theorem Takes.candidates_eq (takes : s.Takes g child) :
    g.candidates s.node s.context.source s.input = [child] := by
  have usable := (List.mem_filter.mp takes.candidate).2
  simp [Grammar.candidates, takes.relevant_eq sound plain, usable]

section Parse

variable (ready : s.Ready) (takes : s.Takes g child)
include ready takes

theorem parse_of_not_hasMore (ended : (s.tried g child).input.hasMore = false) :
    s.parse g = ⟨(s.tried g child).context, (s.tried g child).input, []⟩ := by
  rw [parse, g.parseBelow_eq ready.laid, takes.candidates_eq sound plain, Grammar.tryChildren,
    Grammar.tryChild_ended (plain.uncomposed child) takes.matched ended]
  rfl

theorem parse_of_redirect_eq_none (more : (s.tried g child).input.hasMore = true)
    (stays : (g.node child).redirect = none) : s.parse g = (s.next g child).parse g := by
  rw [parse, g.parseBelow_eq ready.laid, takes.candidates_eq sound plain, Grammar.tryChildren,
    Grammar.tryChild_below (plain.uncomposed child) takes.matched more stays]
  simp only [Grammar.tryChildren, parse, next, stays]
  rfl

theorem parse_of_redirect {target : NodeId} (more : (s.tried g child).input.hasMore = true)
    (redirect : (g.node child).redirect = some target) :
    s.parse g = { (s.next g child).parse g with
      context := (s.tried g child).context.redirectTo ((s.next g child).parse g).context } := by
  rw [parse, g.parseBelow_eq ready.laid, takes.candidates_eq sound plain, Grammar.tryChildren,
    Grammar.tryChild_redirect (plain.uncomposed child) takes.matched more redirect]
  simp only [parse, next, redirect]
  rfl

end Parse

namespace Walk

theorem reaches (walk : Walk g k s t) (ready : s.Ready) (within : k ≤ s.input.length) :
    t.Ready ∧ s.input.Reaches t.input ∧ t.context.source = s.context.source ∧
      (s.input.position ≤ k → t.input.position ≤ k) := by
  induction walk with
  | here s => exact ⟨ready, ready.laid.refl, rfl, fun le => le⟩
  | @step s t child takes before walk ih =>
    have more := ready.hasMore within before
    have next := ready.reaches_next g child
    obtain ⟨ready', onward, source, bound⟩ := ih (ready.next sound plain takes more)
      (next.length ▸ within)
    refine ⟨ready', next.trans onward, source.trans (takes.source_next sound plain), fun _ => ?_⟩
    exact bound (ready.position_next more ▸ before)

theorem exists_settled (ready : s.Ready) (within : k ≤ s.input.length) :
    ∃ t, Walk g k s t ∧ t.Settled g k := by
  induction left : k - s.input.position using Nat.strongRecOn generalizing s with
  | ind left ih =>
    by_cases settled : s.Settled g k
    · exact ⟨s, .here s, settled⟩
    · unfold Settled at settled
      push Not at settled
      obtain ⟨child, takes, before⟩ := settled
      have more := ready.hasMore within before
      have further := (ready.reaches_tried g child).forward
      have position := ready.position_next more
      obtain ⟨t, walk, settled⟩ := ih (k - (s.next g child).input.position) (by omega)
        (ready.next sound plain takes more) ((ready.reaches_next g child).length ▸ within) rfl
      exact ⟨t, .step takes before walk, settled⟩

end Walk

theorem Agree.takes (agree : s.Agree k t) (ready : s.Ready) (takes : s.Takes g child)
    (before : (s.tried g child).input.position < k) :
    t.Takes g child ∧ (s.tried g child).Agree k (t.tried g child) := by
  obtain ⟨left, shows⟩ := ready.text
  have builtin := plain.builtin child
  have more := ready.hasMore agree.input.le_length before
  have tried : (s.tried g child).Agree k (t.tried g child) := by
    rw [tried, tried, agree.context]
    exact Node.matchChild_agree builtin agree.input takes.matched before
  have word := Node.readWord_le_matchChild builtin shows
    (sound.isRoot_of_mem_children (takes.mem_children sound)) (plain.uncomposed child)
    takes.matched more
  have same : t.input.peekWord = s.input.peekWord :=
    (agree.input.readWord (Nat.lt_of_le_of_lt word before)).1
  refine ⟨⟨?_, tried.fault.trans takes.matched⟩, tried⟩
  rw [agree.node, agree.context, Grammar.candidates, g.relevant_congr _ same]
  exact takes.candidate

theorem Walk.agree (walk : Walk g k s t) (ready : s.Ready) {s' : Stand S A}
    (agree : s.Agree k s') : ∃ t', Walk g k s' t' ∧ t.Agree k t' := by
  induction walk generalizing s' with
  | here s => exact ⟨s', .here s', agree⟩
  | @step s t child takes before walk ih =>
    have more := ready.hasMore agree.input.le_length before
    obtain ⟨takes', tried⟩ := agree.takes sound plain ready takes before
    obtain ⟨t', walk', agree'⟩ := ih (ready.next sound plain takes more) (Agree.next tried before)
    exact ⟨t', .step takes' (tried.input.position ▸ before) walk', agree'⟩

theorem Settled.agree (settled : s.Settled g k) (ready : t.Ready) (agree : s.Agree k t) :
    t.Settled g k := by
  intro child takes
  by_contra before
  rw [Nat.not_le] at before
  obtain ⟨takes', tried⟩ := agree.symm.takes sound plain ready takes before
  have late := settled child takes'
  rw [tried.input.position] at late
  exact absurd before (Nat.not_lt_of_le late)

end Plain

end Stand

end CommandGrammar
