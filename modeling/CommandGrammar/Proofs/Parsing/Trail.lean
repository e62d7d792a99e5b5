import CommandGrammar.Proofs.Grammar.Reachable
import CommandGrammar.Proofs.Parsing.Route

set_option autoImplicit false

namespace CommandGrammar

variable {S A : Type}

namespace Grammar

/-- Steps recorded below a node between two positions, and the frames behind a redirection. -/
inductive Trail (g : Grammar S A) : NodeId → Nat → Nat → List Step → List (Frame S A) → Prop
  | stop {id : NodeId} {start stop : Nat} : start ≤ stop → g.Trail id start stop [] []
  | step {id child : NodeId} {start mid next stop : Nat} {steps : List Step}
      {frames : List (Frame S A)} : child ∈ (g.node id).children →
      (g.node child).composed? = none → start ≤ mid → mid ≤ next →
      g.Trail child next stop steps frames →
      g.Trail id start stop (⟨.node child, ⟨start, mid⟩⟩ :: steps) frames
  | composed {id child : NodeId} {members : Composed} {i : Input} {stop : Nat} {steps : List Step} :
      child ∈ (g.node id).children → (g.node child).composed? = some members →
      (∀ s ∈ steps, members.Belongs child s.matched) →
      Span.Between i.position stop (steps.map Step.span) →
      g.Trail id i.position stop (members.firstPlace child i :: steps) []
  | redirect {id child : NodeId} {start mid next stop : Nat} {f : Frame S A}
      {frames : List (Frame S A)} : child ∈ (g.node id).children →
      (g.node child).composed? = none → (g.node child).redirect = some f.root →
      start ≤ mid → mid < next → g.Trail f.root next stop f.steps frames →
      g.Trail id start stop [⟨.node child, ⟨start, mid⟩⟩] (f :: frames)

inductive Path (g : Grammar S A) : NodeId → List NodeId → NodeId → Prop
  | here (id : NodeId) : g.Path id [] id
  | child {id child last : NodeId} {nodes : List NodeId} : child ∈ (g.node id).children →
      (g.node child).composed? = none → g.Path child nodes last → g.Path id (child :: nodes) last

-- What is recorded for a composed argument below a node: a place first, and then its own places and members.
def Closing (g : Grammar S A) (last : NodeId) (matched : List Matched) : Prop :=
  ∃ child ∈ (g.node last).children, ∃ members, (g.node child).composed? = some members ∧
    ∃ place rest, matched = place :: rest ∧ place.composed? = some child ∧
      ∀ m ∈ rest, members.Belongs child m

def Walks (g : Grammar S A) (root : NodeId) (matched : List Matched) : Prop :=
  ∃ nodes last closing, g.Path root nodes last ∧ matched = nodes.map .node ++ closing ∧
    (closing = [] ∨ g.Closing last closing)

def WalksTo (g : Grammar S A) (root : NodeId) (matched : List Matched) (target : NodeId) : Prop :=
  ∃ nodes last, g.Path root nodes last ∧ nodes ≠ [] ∧ matched = nodes.map .node ∧
    (g.node last).redirect = some target

section Shape

variable {g : Grammar S A} {id : NodeId} {start stop : Nat} {steps : List Step}
  {frames : List (Frame S A)}

namespace Trail

theorem between (trail : g.Trail id start stop steps frames) :
    Span.Between start stop
      (steps.map Step.span ++ frames.flatMap fun f => f.steps.map Step.span) := by
  induction trail with
  | stop le => exact le
  | step _ _ proper onward _ ih => exact ⟨Nat.le_refl _, proper, ih.of_le onward⟩
  | composed _ _ _ ordered =>
    rw [List.flatMap_nil, List.append_nil]
    exact ⟨Nat.le_refl _, Nat.le_refl _, ordered⟩
  | redirect _ _ _ proper onward _ ih =>
    exact ⟨Nat.le_refl _, proper, ih.of_le (Nat.le_of_lt onward)⟩

theorem walks (trail : g.Trail id start stop steps frames) :
    g.Walks id (steps.map Step.matched) := by
  induction trail with
  | stop => exact ⟨[], _, [], .here _, rfl, .inl rfl⟩
  | @step id child _ _ _ _ _ _ member plain _ _ _ ih =>
    obtain ⟨nodes, last, closing, path, same, closes⟩ := ih
    refine ⟨child :: nodes, last, closing, .child member plain path, ?_, closes⟩
    rw [List.map_cons, same]
    rfl
  | @composed id child members steps _ _ member composed own _ =>
    refine ⟨[], id, _, .here id, rfl, .inr ⟨child, member, members, composed, _, _, rfl, rfl, ?_⟩⟩
    simpa using own
  | @redirect id child _ _ _ _ _ _ member plain =>
    exact ⟨[child], child, [], .child member plain (.here _), rfl, .inl rfl⟩

theorem walks_frames (trail : g.Trail id start stop steps frames) :
    ∀ f ∈ frames, g.Walks f.root (f.steps.map Step.matched) := by
  induction trail with
  | stop => simp
  | step _ _ _ _ _ ih => exact ih
  | composed => simp
  | redirect _ _ _ _ _ trail ih =>
    intro f member
    rcases List.mem_cons.mp member with rfl | later
    · exact trail.walks
    · exact ih f later

theorem walksTo {f : Frame S A} (trail : g.Trail id start stop steps (f :: frames)) :
    g.WalksTo id (steps.map Step.matched) f.root := by
  generalize behind : f :: frames = redirected at trail
  induction trail with
  | stop => simp at behind
  | @step id child _ _ _ _ _ _ member plain _ _ _ ih =>
    obtain ⟨nodes, last, path, -, same, redirect⟩ := ih behind
    refine ⟨child :: nodes, last, .child member plain path, by simp, ?_, redirect⟩
    rw [List.map_cons, same]
    rfl
  | composed => simp at behind
  | @redirect id child _ _ _ _ _ _ member plain redirect =>
    obtain ⟨rfl, -⟩ := List.cons_eq_cons.mp behind
    exact ⟨[child], child, .child member plain (.here _), by simp, rfl, redirect⟩

theorem walksTo_frames (trail : g.Trail id start stop steps frames) :
    frames.IsChain fun f f' => g.WalksTo f.root (f.steps.map Step.matched) f'.root := by
  induction trail with
  | stop => exact .nil
  | step _ _ _ _ _ ih => exact ih
  | composed => exact .nil
  | @redirect id child _ _ _ _ f frames _ _ _ _ _ trail ih =>
    cases frames with
    | nil => exact .singleton f
    | cons f' frames => exact .cons_cons trail.walksTo ih

end Trail

end Shape

end Grammar

namespace Grammar

variable {g : Grammar S A} {id child : NodeId} {c d : Context S A} {i j : Input}

structure Traces (g : Grammar S A) (id : NodeId) (c : Context S A) (i : Input) (d : Context S A)
    (j : Input) : Prop where
  reached : i.Reaches j
  trail : ∃ new, c.toFrame.Adds new d.toFrame ∧
    g.Trail id i.position j.position new d.redirected ∧ (new = [] → d = c)

namespace Traces

theorem stay (laid : i.Laid) (free : c.redirected = []) : g.Traces id c i c i := by
  refine ⟨laid.refl, [], .refl _, ?_, fun _ => rfl⟩
  rw [free]
  exact .stop (Nat.le_refl _)

theorem tried_composed (laid : i.Laid) (free : c.redirected = [])
    (member : child ∈ (g.node id).children) {members : Composed}
    (composed : (g.node child).composed? = some members) :
    g.Traces id c i ((g.node child).matchComposed g child members c i).context
      ((g.node child).matchComposed g child members c i).input := by
  have records := (g.node child).records_matchComposed g members child laid c
  obtain ⟨new, adds, own, ordered⟩ := records.added
  refine ⟨records.reached, members.firstPlace child i :: new,
    (c.adds_record _ _).trans adds, ?_, by simp⟩
  rw [records.redirected.trans free]
  exact .composed member composed own ordered

section Word

variable (sound : g.Sound) (laid : i.Laid) (takes : g.Takes id c i child)
include sound laid takes

theorem tried_ended (free : c.redirected = []) :
    g.Traces id c i ((g.node child).matchChild child c i).context
      ((g.node child).matchChild child c i).input := by
  have reached := (g.node child).reaches_matchChild laid child c
  refine ⟨reached, _, takes.adds sound, ?_, by simp⟩
  rw [Node.redirected_matchChild takes.matched, free]
  exact .step (takes.mem_children sound) takes.plain reached.forward (Nat.le_refl _)
    (.stop (Nat.le_refl _))

theorem tried_below
    (below : g.Traces child ((g.node child).matchChild child c i).context
      ((g.node child).matchChild child c i).input.readChar.2 d j) : g.Traces id c i d j := by
  have reached := (g.node child).reaches_matchChild laid child c
  have separated := (reached.laid laid).reaches_readChar
  obtain ⟨new, adds, trail, -⟩ := below.trail
  exact ⟨(reached.trans separated).trans below.reached, _, (takes.adds sound).trans adds,
    .step (takes.mem_children sound) takes.plain reached.forward separated.forward trail, by simp⟩

theorem tried_redirect (more : ((g.node child).matchChild child c i).input.hasMore = true)
    {target : NodeId} (redirect : (g.node child).redirect = some target)
    (below : g.Traces target
      (((g.node child).matchChild child c i).context.freshChild target
        ((g.node child).matchChild child c i).input.readChar.2.position)
      ((g.node child).matchChild child c i).input.readChar.2 d j) :
    g.Traces id c i (((g.node child).matchChild child c i).context.redirectTo d) j := by
  have reached := (g.node child).reaches_matchChild laid child c
  have separated := (reached.laid laid).reaches_readChar
  have further := (reached.laid laid).readChar_lt more
  obtain ⟨new, adds, trail, -⟩ := below.trail
  have root : d.root = target := adds.root
  have steps : d.steps = new := adds.steps
  refine ⟨(reached.trans separated).trans below.reached, _, takes.adds sound, ?_, by simp⟩
  rw [← root, ← steps] at trail
  exact .redirect (takes.mem_children sound) takes.plain (root ▸ redirect) reached.forward further
    trail

end Word

end Traces

theorem Route.traces (sound : g.Sound) {p : Parse S A} (route : g.Route id c i p) (laid : i.Laid)
    (free : c.redirected = []) : g.Traces id c i p.context p.rest := by
  induction route with
  | stop faults => exact .stay laid free
  | composed tried composed =>
    exact .tried_composed laid free (sound.mem_children_of_mem_candidates tried) composed
  | ended takes => exact .tried_ended sound laid takes free
  | @deeper id child c i p takes more stays rest ih =>
    have next := (g.reaches_next laid c child).laid laid
    have kept := (Node.redirected_matchChild takes.matched).trans free
    exact .tried_below sound laid takes (ih next kept)
  | @redirect id child target c i p takes more redirect rest ih =>
    have next := (g.reaches_next laid c child).laid laid
    exact .tried_redirect sound laid takes more redirect (ih next rfl)

theorem Sound.traces_parseBelow (sound : g.Sound) (id : NodeId) (laid : i.Laid)
    (free : c.redirected = []) :
    g.Traces id c i (g.parseBelow id c i).context (g.parseBelow id c i).rest :=
  (g.route_parseBelow id c i).traces sound laid free

theorem Sound.traces_parse (sound : g.Sound) (source : S) (laid : i.Laid) :
    g.Traces .root (.start source .root i.position) i (g.parse source i).context
      (g.parse source i).rest :=
  sound.traces_parseBelow .root laid rfl

theorem Sound.source_parse (sound : g.Sound) (source : S) (laid : i.Laid) :
    (g.parse source i).context.source = source := by
  obtain ⟨-, new, adds, -⟩ := sound.traces_parse source laid
  exact adds.source

end Grammar

structure Parse.FollowsTree (g : Grammar S A) (i : Input) (p : Parse S A) : Prop where
  line : p.rest.segments = i.segments
  within : p.rest.position ≤ i.length
  ordered : Span.Between i.position p.rest.position
    (p.context.frames.flatMap fun f => f.steps.map Step.span)
  root : p.context.root = .root
  walks : ∀ f ∈ p.context.frames, g.Walks f.root (f.steps.map Step.matched)
  redirects : p.context.frames.IsChain fun f f' =>
    g.WalksTo f.root (f.steps.map Step.matched) f'.root
  matchedSpans : (p.matchedSpans g).Pairwise fun a b => a.span.stop ≤ b.span.start

namespace Grammar

variable {g : Grammar S A}

theorem pairwise_matchedSpans {p : Parse S A}
    (ordered : (p.context.frames.flatMap fun f => f.steps.map Step.span).Pairwise
      fun s t => s.stop ≤ t.start) :
    (p.matchedSpans g).Pairwise fun a b => a.span.stop ≤ b.span.start := by
  have kept (steps : List Step) : ((steps.filterMap fun step => step.matched.node?.map fun id =>
      (⟨step.span, (g.node id).name, (g.node id).isLiteral⟩ : MatchedSpan)).map MatchedSpan.span).Sublist
        (steps.map Step.span) := by
    induction steps with
    | nil => exact .slnil
    | cons s rest ih =>
      cases matched : s.matched.node? with
      | none => simpa [matched] using ih.cons s.span
      | some id => simpa [matched] using ih
  have spans : ((p.matchedSpans g).map MatchedSpan.span).Sublist
      (p.context.frames.flatMap fun f => f.steps.map Step.span) := by
    rw [Parse.matchedSpans, List.map_flatMap]
    induction p.context.frames with
    | nil => exact .slnil
    | cons f rest ih => exact (kept f.steps).append ih
  exact List.pairwise_map.mp (ordered.sublist spans)

theorem Sound.walks_parse (sound : g.Sound) (source : S) {i : Input} (laid : i.Laid) :
    ∀ f ∈ (g.parse source i).context.frames, g.Walks f.root (f.steps.map Step.matched) := by
  obtain ⟨-, new, adds, trail, -⟩ := sound.traces_parse source laid
  have root : (g.parse source i).context.root = .root := adds.root
  have steps : (g.parse source i).context.steps = new := adds.steps
  rw [← steps] at trail
  intro f member
  rcases List.mem_cons.mp member with rfl | later
  · exact root ▸ trail.walks
  · exact trail.walks_frames f later

theorem Reachable.parse_followsTree (reachable : g.Reachable) (source : S) (r : Rendering)
    (values : List Value) (n : Nat) :
    (g.parse source ((Input.ofValues r values).seek n)).FollowsTree g
      ((Input.ofValues r values).seek n) := by
  generalize line : (Input.ofValues r values).seek n = i
  have laid : i.Laid := line ▸ Input.laid_ofValues r values n
  obtain ⟨reached, new, adds, trail, -⟩ := reachable.sound.traces_parse source laid
  have root : (g.parse source i).context.root = .root := adds.root
  have steps : (g.parse source i).context.steps = new := adds.steps
  rw [← steps] at trail
  have ordered := trail.between
  refine ⟨reached.segments, reached.within, ordered, root,
    reachable.sound.walks_parse source laid, ?_, pairwise_matchedSpans ordered.pairwise⟩
  rw [Context.frames]
  cases redirected : (g.parse source i).context.redirected with
  | nil => exact .singleton _
  | cons f rest =>
    rw [redirected] at trail
    exact .cons_cons (root ▸ trail.walksTo) trail.walksTo_frames

end Grammar

theorem Demo.everyone_move_followsTree :
    let i := (Input.ofValues .standard [.ofString "everyone move home --speed fast"]).seek 0
    let p := grammar.parse ⟨"console", true⟩ i
    p.FollowsTree grammar i ∧
      p.context.frames.map (fun f => f.steps.map Step.span) =
        [[⟨0, 8⟩], [⟨9, 13⟩, ⟨14, 14⟩, ⟨14, 18⟩, ⟨19, 19⟩, ⟨19, 27⟩, ⟨27, 31⟩]] :=
  ⟨reachable_grammar.parse_followsTree _ _ _ _, by decide +kernel⟩

end CommandGrammar
