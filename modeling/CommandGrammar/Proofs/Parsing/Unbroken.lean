import CommandGrammar.Completion.Query
import CommandGrammar.Proofs.Composed.Ensures
import CommandGrammar.Proofs.Parsing.WordStarts

set_option autoImplicit false

namespace CommandGrammar

variable {S A : Type}

namespace Frame

structure Unbroken (start : Nat) (f : Frame S A) : Prop where
  started : ∃ notes, (Frame.start f.source f.root start notes).Adds f.steps f
  begins : f.span.start = start
  ends : f.span.stop = (f.steps.getLast?.map (·.span.stop)).getD start
  gapless : f.steps ≠ [] → ∀ position, f.span.contains position = true →
    ∃ s ∈ f.steps, s.span.contains position = true

-- The last position at which the next step leaves no gap.
def onward (f : Frame S A) : Nat := if f.steps = [] then f.span.stop else f.span.stop + 1

/-- Frames that follow one another, the first of them started at a position, and each further one right
behind the separator at which the one before ends. -/
inductive Seamless : Nat → List (Frame S A) → Prop
  | last {start : Nat} {f : Frame S A} : f.Unbroken start → Seamless start [f]
  | redirect {start : Nat} {f : Frame S A} {frames : List (Frame S A)} : f.Unbroken start →
    f.steps ≠ [] → Seamless (f.span.stop + 1) frames → Seamless start (f :: frames)

variable {start : Nat} {f f' : Frame S A} {s : Step}

theorem unbroken_start (source : S) (root : NodeId) (notes : List Note) :
    (Frame.start source root start notes : Frame S A).Unbroken start :=
  ⟨⟨notes, .refl _⟩, rfl, rfl, fun some => absurd rfl some⟩

namespace Unbroken

theorem le (unbroken : f.Unbroken start) : start ≤ f.span.stop := by
  obtain ⟨notes, adds⟩ := unbroken.started
  exact (adds.isHull.encloses _ List.mem_cons_self).2

theorem congr (unbroken : f.Unbroken start) (adds : f.Adds [] f') : f'.Unbroken start := by
  have steps : f'.steps = f.steps := by simp [adds.steps]
  have span : f'.span = f.span := by simp [adds.span]
  obtain ⟨notes, begun⟩ := unbroken.started
  have started := begun.trans adds
  rw [List.append_nil] at started
  refine ⟨⟨notes, ?_⟩, ?_, ?_, ?_⟩
  · rwa [adds.source, adds.root, steps]
  · rw [span, unbroken.begins]
  · rw [span, steps, unbroken.ends]
  · rw [span, steps]
    exact unbroken.gapless

theorem concat (unbroken : f.Unbroken start) (adds : f.Adds [s] f') (behind : f.span.stop ≤ s.span.start)
    (near : s.span.start ≤ f.onward) (proper : s.span.start ≤ s.span.stop) : f'.Unbroken start := by
  have span : f'.span = f.span.cover s.span := adds.span
  have begins := unbroken.begins
  have le := unbroken.le
  obtain ⟨notes, begun⟩ := unbroken.started
  refine ⟨⟨notes, ?_⟩, ?_, ?_, ?_⟩
  · rw [adds.source, adds.root, adds.steps]
    exact begun.trans adds
  · simp only [span, Span.cover]
    omega
  · simp only [span, Span.cover, adds.steps, List.getLast?_concat, Option.map_some, Option.getD_some]
    omega
  · intro _ position contains
    simp only [span, Span.contains_iff, Span.cover, adds.steps] at contains ⊢
    by_cases inside : s.span.start ≤ position
    · exact ⟨s, List.mem_concat_self, inside, by omega⟩
    · -- The position lies before the step, hence within the steps there were.
      by_cases none : f.steps = []
      · have ends := unbroken.ends
        simp only [onward, none, if_true, List.getLast?_nil, Option.map_none, Option.getD_none] at near ends
        omega
      · rw [onward, if_neg none] at near
        obtain ⟨t, recorded, covers⟩ := unbroken.gapless none position
          ((Span.contains_iff _ _).mpr ⟨by omega, by omega⟩)
        exact ⟨t, List.mem_append_left _ recorded, (Span.contains_iff _ _).mp covers⟩

end Unbroken

end Frame

section Recorded

variable {g : Grammar S A} {cs : List Char} {start : Nat} {id m : NodeId} {members : Composed}
  {c d : Context S A} {i j : Input}

structure Context.Recorded (start : Nat) (c : Context S A) : Prop where
  unbroken : c.toFrame.Unbroken start
  some : c.steps ≠ []

def Context.Meets (cs : List Char) (c : Context S A) (i : Input) : Prop :=
  i.Holds cs ∧ i.position = c.span.stop

namespace Context.Recorded

theorem of_adds {s : Step} (unbroken : c.toFrame.Unbroken start) (adds : c.toFrame.Adds [s] d.toFrame)
    (behind : c.span.stop ≤ s.span.start) (near : s.span.start ≤ c.onward)
    (proper : s.span.start ≤ s.span.stop) : d.Recorded start ∧ d.span.stop = s.span.stop := by
  have unbroken := unbroken.concat adds behind near proper
  have ends := unbroken.ends
  simp only [adds.steps, List.getLast?_concat, Option.map_some, Option.getD_some] at ends
  exact ⟨⟨unbroken, by simp [adds.steps]⟩, ends⟩

theorem step (recorded : c.Recorded start) {matched : Matched} {from_ : Nat} (holds : i.Holds cs)
    (adds : c.toFrame.Adds [⟨matched, ⟨from_, i.position⟩⟩] d.toFrame) (behind : c.span.stop ≤ from_)
    (near : from_ ≤ c.span.stop + 1) (proper : from_ ≤ i.position) :
    d.Recorded start ∧ d.Meets cs i := by
  have near : from_ ≤ c.onward := by simpa [Frame.onward, recorded.some] using near
  obtain ⟨recorded, ends⟩ := of_adds recorded.unbroken adds behind near proper
  exact ⟨recorded, holds, ends.symm⟩

end Context.Recorded

theorem Node.matchWord_recorded (n : Node S A) (id : NodeId) (recorded : c.Recorded start)
    (meets : c.Meets cs i) : (n.matchWord id c i).Ensures (Context.Recorded start) (Context.Meets cs) := by
  obtain ⟨holds, here⟩ := meets
  have taken {d : Context S A} {j : Input} (reached : i.Reaches j)
      (adds : c.toFrame.Adds [⟨.node id, ⟨i.position, j.position⟩⟩] d.toFrame) :
      (Attempt.succeed d j).Ensures (Context.Recorded start) (Context.Meets cs) := by
    have step := recorded.step (holds.reaches reached) adds (by omega) (by omega) reached.forward
    exact .succeed step.1 step.2
  unfold Node.matchWord
  cases n.role with
  | root | composed => exact .succeed recorded ⟨holds, here⟩
  | literal name =>
    simp only [matchLiteral]
    split
    · exact taken holds.laid.reaches_readWord (c.adds_record _ _)
    · exact .fail recorded _
  | argument name type =>
    simp only [matchArgument, recordArgument]
    cases (type.read i c).answer with
    | ok value =>
      exact taken (Reading.reaches_advance holds.laid (type.read i c)) (c.adds_bind_record _ _ _ _)
    | error e => cases e <;> exact .fail recorded _

namespace Composed

theorem takeSeparator_near {P : Context S A → Prop} (keeps : P c) (holds : i.Holds cs) :
    (takeSeparator c i).Ensures P fun d j =>
      d = c ∧ j.Holds cs ∧ i.position ≤ j.position ∧ j.position ≤ i.position + 1 := by
  have reached := holds.laid.reaches_readChar
  have near : i.readChar.2.position ≤ i.position + 1 := by
    rw [holds.readChar_eq]
    exact Nat.add_le_add_left (Nat.min_le_left _ _) _
  unfold takeSeparator
  cases i.peek with
  | none => exact .succeed keeps ⟨rfl, holds, by omega, by omega⟩
  | some ch =>
    simp only
    split
    · exact .succeed keeps ⟨rfl, holds.reaches reached, reached.forward, near⟩
    · exact .fail keeps _

theorem place_recorded (recorded : c.Recorded start) (meets : c.Meets cs i) (pending : List NodeId)
    (next : Option NodeId) :
    ((takeSeparator c i).andThen (recordPlace id pending next)).Ensures (Context.Recorded start)
      (Context.Meets cs) := by
  obtain ⟨holds, here⟩ := meets
  refine (takeSeparator_near recorded holds).andThen fun d j recorded => ?_
  rintro ⟨rfl, holds, behind, near⟩
  have step := recorded.step holds (d.adds_record (.afterValue id pending next) (.point j.position))
    (by omega) (by omega) (Nat.le_refl _)
  exact .succeed step.1 step.2

theorem takeFlagged_recorded (recorded : c.Recorded start) (meets : c.Meets cs i) (reached : i.Reaches j)
    (pending : List NodeId) :
    (takeFlagged g id i.position m pending c j).Ensures (Context.Recorded start) (Context.Meets cs) := by
  obtain ⟨holds, here⟩ := meets
  have forward := reached.forward
  unfold takeFlagged
  split
  · have step := recorded.step (holds.reaches reached)
      (c.adds_record (.flagValue id none) ⟨i.position, j.position⟩) (by omega) (by omega) forward
    exact .fail step.1 _
  · have atValue : ((takeSeparator c j).andThen fun c k =>
        .succeed (c.record (.flagValue id (some m)) ⟨i.position, k.position⟩) k).Ensures
          (Context.Recorded start) (Context.Meets cs) := by
      refine (takeSeparator_near recorded (holds.reaches reached)).andThen fun d k recorded => ?_
      rintro ⟨rfl, holds, behind, -⟩
      have step := recorded.step holds
        (d.adds_record (.flagValue id (some m)) ⟨i.position, k.position⟩) (by omega) (by omega) (by omega)
      exact .succeed step.1 step.2
    have value := atValue.andThen fun d k recorded meets =>
      (g.node m).matchWord_recorded m recorded meets
    refine value.andThen fun d k recorded meets => ?_
    split
    · exact place_recorded recorded meets _ _
    · exact .succeed recorded meets

theorem keeps_recorded (g : Grammar S A) (id : NodeId) (members : Composed) (start : Nat)
    (cs : List Char) : Keeps g id members (Context.Recorded start) (Context.Meets cs) where
  value m _ pending next c i _ recorded meets := by
    rw [Attempt.andThen_assoc]
    exact ((g.node m).matchWord_recorded m recorded meets).andThen fun d j recorded meets =>
      place_recorded recorded meets pending next
  flag m _ pending c i _ recorded meets :=
    takeFlagged_recorded recorded meets meets.1.laid.reaches_readWord pending
  note c unset recorded :=
    ⟨recorded.unbroken.congr ⟨rfl, rfl, (List.append_nil _).symm, rfl⟩, recorded.some⟩

end Composed

structure Context.Goes (start : Nat) (cs : List Char) (c : Context S A) (i : Input) : Prop where
  unbroken : c.toFrame.Unbroken start
  free : c.redirected = []
  holds : i.Holds cs
  faces : i.position = c.onward

namespace Context.Goes

variable {child : NodeId} (goes : c.Goes start cs i)
include goes

theorem behind : c.span.stop ≤ i.position := by
  rw [goes.faces, Frame.onward]
  split <;> omega

theorem unbroken_matchComposed (n : Node S A) :
    (n.matchComposed g id members c i).context.toFrame.Unbroken start := by
  obtain ⟨recorded, ends⟩ := Context.Recorded.of_adds goes.unbroken
    (c.adds_record (members.firstPlace id i).matched (members.firstPlace id i).span) goes.behind
    goes.faces.le (Nat.le_refl _)
  have read := (Composed.keeps_recorded g id members start cs).read recorded ⟨goes.holds, ends.symm⟩
  simp only [Node.matchComposed, Attempt.asMalformed, Attempt.andThen]
  split
  · exact read.unbroken.congr (n.adds_settle _ _).1
  · exact read.unbroken

theorem recorded_matchChild (sound : g.Sound) (takes : g.Takes id c i child) :
    let a := (g.node child).matchChild child c i
    a.context.Recorded start ∧ a.context.Meets cs a.input ∧ a.context.redirected = [] := by
  intro a
  have reached : i.Reaches a.input := (g.node child).reaches_matchChild goes.holds.laid child c
  obtain ⟨recorded, ends⟩ := Context.Recorded.of_adds goes.unbroken (takes.adds sound) goes.behind
    goes.faces.le reached.forward
  exact ⟨recorded, ⟨goes.holds.reaches reached, ends.symm⟩,
    (Node.redirected_matchChild takes.matched).trans goes.free⟩

end Context.Goes

theorem Grammar.Route.seamless (sound : g.Sound) {p : Parse S A} (route : g.Route id c i p)
    (goes : c.Goes start cs i) : Frame.Seamless start p.context.frames := by
  have alone {start : Nat} {d : Context S A} (unbroken : d.toFrame.Unbroken start) (free : d.redirected = []) :
      Frame.Seamless start d.frames := by
    rw [Context.frames, free]
    exact .last unbroken
  induction route generalizing start with
  | stop faults => exact alone goes.unbroken goes.free
  | @composed id child c i members faults tried composed told =>
    have records := (g.node child).records_matchComposed g members child goes.holds.laid c
    exact alone (goes.unbroken_matchComposed _) (records.redirected.trans goes.free)
  | ended takes last =>
    obtain ⟨recorded, -, free⟩ := goes.recorded_matchChild sound takes
    exact alone recorded.unbroken free
  | @deeper id child c i p takes more stays rest ih =>
    obtain ⟨recorded, ⟨holds, here⟩, free⟩ := goes.recorded_matchChild sound takes
    obtain ⟨next, position⟩ := holds.readChar_next (holds.position_lt more)
    refine ih ⟨recorded.unbroken, free, next, ?_⟩
    rw [position, here, Frame.onward, if_neg recorded.some]
  | @redirect id child target c i p takes more redirect rest ih =>
    obtain ⟨recorded, ⟨holds, here⟩, -⟩ := goes.recorded_matchChild sound takes
    obtain ⟨next, position⟩ := holds.readChar_next (holds.position_lt more)
    have below : Frame.Seamless (((g.node child).matchChild child c i).context.span.stop + 1)
        p.context.frames := by
      rw [← here, ← position]
      exact ih ⟨Frame.unbroken_start _ _ _, rfl, next, rfl⟩
    exact .redirect recorded.unbroken recorded.some below

end Recorded

namespace Query

def recorded? (position : Nat) (previous : Matched) (steps : List Step) : Option Query :=
  (((previous :: steps.map Step.matched).zip steps).find? fun e => e.2.span.contains position).map
    fun (before, step) => if step.matched.isPlace then step.asQuery else ⟨before, step.span.start⟩

theorem recorded?_cons (position : Nat) (previous : Matched) (step : Step) (rest : List Step) :
    recorded? position previous (step :: rest) =
      if step.span.contains position then
        some (if step.matched.isPlace then step.asQuery else ⟨previous, step.span.start⟩)
      else recorded? position step.matched rest := by
  cases inside : step.span.contains position <;> simp [recorded?, inside]

theorem within_eq (fallback position : Nat) (previous : Matched) (steps : List Step) :
    within fallback position previous steps = (recorded? position previous steps).getD
      ⟨(steps.getLast?.map Step.matched).getD previous, fallback⟩ := by
  induction steps generalizing previous with
  | nil => rfl
  | cons step rest ih =>
    rw [within, recorded?_cons, ih]
    split
    · split <;> rfl
    · simp [List.getLast?_cons]

theorem recorded?_eq_none_iff {position : Nat} {previous : Matched} {steps : List Step} :
    recorded? position previous steps = none ↔ ∀ s ∈ steps, s.span.contains position = false := by
  induction steps generalizing previous with
  | nil => simp [recorded?]
  | cons step rest ih =>
    rw [recorded?_cons]
    cases inside : step.span.contains position <;> simp [inside, ih]

end Query

namespace Frame

variable {start : Nat} {f : Frame S A} {frames : List (Frame S A)}

theorem Seamless.exists_unbroken (seamless : Seamless start frames) (among : f ∈ frames) :
    ∃ start, f.Unbroken start := by
  induction seamless with
  | last unbroken => exact ⟨_, List.mem_singleton.mp among ▸ unbroken⟩
  | redirect unbroken _ _ ih =>
    rcases List.mem_cons.mp among with rfl | later
    · exact ⟨_, unbroken⟩
    · exact ih later

theorem Unbroken.recorded?_eq_none_iff (unbroken : f.Unbroken start) {position : Nat}
    (inside : f.span.contains position = true) :
    Query.recorded? position (.node f.root) f.steps = none ↔ f.steps = [] := by
  rw [Query.recorded?_eq_none_iff]
  constructor
  · intro outside
    by_contra some
    obtain ⟨s, recorded, covers⟩ := unbroken.gapless some position inside
    simp [outside s recorded] at covers
  · intro none
    simp [none]

theorem Unbroken.upTo?_eq (unbroken : f.Unbroken start) {position : Nat}
    (inside : f.span.contains position = true) :
    Query.upTo? position f = some ((Query.recorded? position (.node f.root) f.steps).getD
      ⟨.node f.root, f.span.start⟩) := by
  obtain ⟨behind, within⟩ := (Span.contains_iff _ _).mp inside
  rw [Query.upTo?, if_neg (Nat.not_lt.mpr behind), if_pos within, Query.within_eq]
  cases found : Query.recorded? position (.node f.root) f.steps with
  | some query => rfl
  | none => simp [(unbroken.recorded?_eq_none_iff inside).mp found]

end Frame

namespace Grammar

variable {g : Grammar S A}

/-- The frames of a parse leave no gap, whatever number of positions its arguments take. A position
within a frame is therefore completed by the first step around it, and by the root of the frame only if
nothing is recorded. -/
theorem Reachable.parse_seamless (reachable : g.Reachable) (source : S) (line : String) :
    let frames := (g.parse source (.ofText line)).context.frames
    Frame.Seamless 0 frames ∧ ∀ f ∈ frames, ∀ position, f.span.contains position = true →
      Query.upTo? position f = some ((Query.recorded? position (.node f.root) f.steps).getD
        ⟨.node f.root, f.span.start⟩) ∧
      (Query.recorded? position (.node f.root) f.steps = none ↔ f.steps = []) := by
  intro frames
  have goes : (Context.start source .root (Input.ofText line).position : Context S A).Goes 0 line.toList
      (.ofText line) :=
    ⟨Frame.unbroken_start source .root [], rfl, Input.holds_ofText line, rfl⟩
  have seamless : Frame.Seamless 0 frames :=
    (g.route_parse source (.ofText line)).seamless reachable.sound goes
  refine ⟨seamless, fun f among position inside => ?_⟩
  obtain ⟨start, unbroken⟩ := seamless.exists_unbroken among
  exact ⟨unbroken.upTo?_eq inside, unbroken.recorded?_eq_none_iff inside⟩

end Grammar

theorem Demo.everyone_move_seamless :
    let frames :=
      (grammar.parse ⟨"console", true⟩ (.ofText " everyone  move home --speed fas")).context.frames
    grammar.Reachable ∧
      frames.map (fun f => f.steps.map Step.span) =
        [[⟨0, 9⟩], [⟨10, 15⟩, ⟨16, 16⟩, ⟨16, 20⟩, ⟨21, 21⟩, ⟨21, 29⟩]] ∧
      Frame.Seamless 0 frames ∧ ∀ f ∈ frames, ∀ position, f.span.contains position = true →
        Query.upTo? position f = some ((Query.recorded? position (.node f.root) f.steps).getD
          ⟨.node f.root, f.span.start⟩) ∧
        (Query.recorded? position (.node f.root) f.steps = none ↔ f.steps = []) :=
  ⟨reachable_grammar, by decide +kernel, reachable_grammar.parse_seamless _ _⟩

end CommandGrammar
