import CommandGrammar.Proofs.Grammar.Reachable
import CommandGrammar.Proofs.Parsing.Route

set_option autoImplicit false

namespace CommandGrammar

variable {S A : Type}

-- The nodes that matched as children. A composed argument counts once, and what it recorded does not.
def Matched.children : List Matched → List NodeId
  | [] => []
  | .node id :: rest => id :: children rest
  | .afterValue composed _ _ :: _ => [composed]
  | .flagValue composed _ :: _ => [composed]

theorem Matched.children_append (nodes : List NodeId) (rest : List Matched) :
    children (nodes.map .node ++ rest) = nodes ++ children rest := by
  induction nodes with
  | nil => rfl
  | cons id nodes ih => rw [List.map_cons, List.cons_append, children, ih, List.cons_append]

def Frame.children (f : Frame S A) : List NodeId := Matched.children (f.steps.map Step.matched)

def Grammar.inheritsBehind (g : Grammar S A) (nodes : List NodeId) : Bool :=
  (nodes.reverse.findSome? fun n => (g.node n).inheritance.setting?).getD false

def Grammar.KeepsBehind (g : Grammar S A) (k : Nat) (nodes : List NodeId) : Prop :=
  ∀ longer, longer <+: nodes → k < longer.length → g.inheritsBehind longer = true

-- What had been found when a child matched, given the children before it. A composed argument is the last
-- child, and it matches when all of it has been read.
def Frame.viewBehind (g : Grammar S A) (f : Frame S A) (before : List NodeId) (n : NodeId) : View :=
  if (g.node n).isComposed then f.toView
  else
    let steps := f.steps.take (before ++ [n]).length
    { span := Span.coverAll (steps.map Step.span)
      steps
      arguments := f.arguments.take ((before ++ [n]).countP fun m => (g.node m).isArgument)
      notes := [] }

structure Frame.Settled (g : Grammar S A) (f : Frame S A) : Prop where
  idle : (∀ n ∈ f.children, (g.node n).choose = none) → f.action = none
  chosen : ∀ before n after choose, f.children = before ++ n :: after →
    (g.node n).choose = some choose → (∀ m ∈ after, (g.node m).choose = none) →
    (g.KeepsBehind (before ++ [n]).length f.children →
      ∃ action, choose (f.viewBehind g before n) = .ok action ∧ f.action = some action) ∧
    (¬ g.KeepsBehind (before ++ [n]).length f.children → f.action = none)
  executesChild : f.executesChild = false ↔ ∃ n ∈ f.children, (g.node n).executesChild = false

namespace Grammar

variable (g : Grammar S A)

theorem inheritsBehind_concat (nodes : List NodeId) (m : NodeId) :
    g.inheritsBehind (nodes ++ [m]) =
      (g.node m).inheritance.setting?.getD (g.inheritsBehind nodes) := by
  rw [inheritsBehind, inheritsBehind, List.reverse_append, List.reverse_singleton, List.singleton_append,
    List.findSome?_cons]
  cases (g.node m).inheritance.setting? <;> rfl

theorem keepsBehind_concat {k : Nat} {nodes : List NodeId} (within : k ≤ nodes.length) (m : NodeId) :
    g.KeepsBehind k (nodes ++ [m]) ↔
      g.KeepsBehind k nodes ∧ g.inheritsBehind (nodes ++ [m]) = true := by
  constructor
  · intro keeps
    refine ⟨fun longer front => keeps longer (front.trans (List.prefix_append _ _)), ?_⟩
    exact keeps _ List.prefix_rfl (by simpa using Nat.lt_succ_of_le within)
  · rintro ⟨keeps, last⟩ longer front further
    rcases List.prefix_concat_iff.mp front with rfl | front
    · exact last
    · exact keeps longer front further

theorem keepsBehind_all (nodes : List NodeId) : g.KeepsBehind nodes.length nodes :=
  fun _ front further => absurd front.length_le (Nat.not_le_of_lt further)

end Grammar

structure Node.SettlesTo (n : Node S A) (f f' : Frame S A) : Prop where
  view : f'.toView = f.toView
  inherits : f'.inherits = n.inheritance.setting?.getD f.inherits
  executesChild : f'.executesChild = (f.executesChild && n.executesChild)
  chosen : ∀ choose, n.choose = some choose →
    ∃ action, choose f'.toView = .ok action ∧ f'.action = some action
  unchosen : n.choose = none → f'.action = if f'.inherits then f.action else none

theorem Node.settlesTo_settle {n : Node S A} {c : Context S A} {i : Input}
    (settled : (n.settle c i).fault = none) : n.SettlesTo c.toFrame (n.settle c i).context.toFrame := by
  simp only [settle] at settled ⊢
  cases chooses : n.choose with
  | some choose =>
    simp only [chooses] at settled ⊢
    cases answer : choose c.toView with
    | ok action =>
      refine ⟨rfl, rfl, rfl, ?_, by simp [chooses]⟩
      intro other same
      obtain rfl : choose = other := Option.some.inj (chooses.symm.trans same)
      exact ⟨action, answer, rfl⟩
    | error f => simp [answer, Attempt.fail] at settled
  | none =>
    simp only [Attempt.succeed]
    cases inherits : n.inheritance.setting?.getD c.inherits <;>
      exact ⟨rfl, inherits.symm, rfl, by simp [chooses], fun _ => rfl⟩

namespace Frame

variable {g : Grammar S A} {f d f' : Frame S A} {nodes : List NodeId} {m : NodeId}

theorem Settled.step (settled : f.Settled g) (children : f.children = nodes)
    (inherits : f.inherits = g.inheritsBehind nodes) (children' : f'.children = nodes ++ [m])
    (earlier : ∀ before n, before ++ [n] <+: nodes → f'.viewBehind g before n = f.viewBehind g before n)
    (action : d.action = f.action) (same : d.inherits = f.inherits)
    (executes : d.executesChild = f.executesChild) (settles : (g.node m).SettlesTo d f')
    (own : f'.viewBehind g nodes m = f'.toView) :
    f'.Settled g ∧ f'.inherits = g.inheritsBehind (nodes ++ [m]) := by
  have inherits' : f'.inherits = g.inheritsBehind (nodes ++ [m]) := by
    rw [settles.inherits, same, inherits, g.inheritsBehind_concat]
  have passes (silent : (g.node m).choose = none) :
      f'.action = if g.inheritsBehind (nodes ++ [m]) then f.action else none := by
    rw [settles.unchosen silent, inherits', action]
  refine ⟨⟨?_, ?_, ?_⟩, inherits'⟩
  · intro silent
    rw [children'] at silent
    have before := settled.idle fun n member => silent n (by simp [← children, member])
    rw [passes (silent m (by simp)), before, ite_self]
  · intro before n after choose split chooses silent
    rw [children'] at split ⊢
    rcases List.eq_nil_or_concat after with rfl | ⟨after, last, rfl⟩
    · -- The new child chooses the action itself.
      obtain ⟨rfl, same⟩ := List.append_inj' split rfl
      obtain rfl := List.singleton_inj.mp same
      obtain ⟨action, answer, new⟩ := settles.chosen choose chooses
      exact ⟨fun _ => ⟨action, own ▸ answer, new⟩, fun drops => absurd (g.keepsBehind_all _) drops⟩
    · -- The choice was made before, and the new child keeps it or drops it.
      have split : nodes ++ [m] = (before ++ n :: after) ++ [last] := by simpa using split
      obtain ⟨old, same⟩ := List.append_inj' split rfl
      obtain rfl := List.singleton_inj.mp same
      obtain ⟨kept, dropped⟩ := settled.chosen before n after choose (children.trans old) chooses
        fun m member => silent m (by simp [member])
      have front : before ++ [n] <+: nodes := ⟨after, by simp [old]⟩
      rw [g.keepsBehind_concat front.length_le, passes (silent m (by simp)), earlier before n front]
      rw [children] at kept dropped
      refine ⟨fun ⟨keeps, last⟩ => ?_, fun drops => ?_⟩
      · rw [if_pos last]
        exact kept keeps
      · by_cases last : g.inheritsBehind (nodes ++ [m]) = true
        · rw [if_pos last]
          exact dropped fun keeps => drops ⟨keeps, last⟩
        · exact if_neg last
  · rw [children', settles.executesChild, executes, Bool.and_eq_false_iff, settled.executesChild, children]
    simp only [List.mem_append, List.mem_singleton]
    constructor
    · rintro (⟨n, member, stops⟩ | stops)
      · exact ⟨n, .inl member, stops⟩
      · exact ⟨m, .inr rfl, stops⟩
    · rintro ⟨n, member | rfl, stops⟩
      · exact .inl ⟨n, member, stops⟩
      · exact .inr stops

structure Tallies (g : Grammar S A) (nodes : List NodeId) (position : Nat) (f : Frame S A) : Prop where
  steps : f.steps.map Step.matched = nodes.map Matched.node
  plain : ∀ n ∈ nodes, (g.node n).isComposed = false
  arguments : f.arguments.length = nodes.countP fun n => (g.node n).isArgument
  notes : f.notes = []
  span : f.span = if f.steps = [] then .point position else Span.coverAll (f.steps.map Step.span)

structure Underway (g : Grammar S A) (nodes : List NodeId) (position : Nat) (f : Frame S A) : Prop
    extends f.Tallies g nodes position where
  inherits : f.inherits = g.inheritsBehind nodes
  settled : f.Settled g

theorem underway_start (g : Grammar S A) (source : S) (root : NodeId) (position : Nat) :
    (Frame.start source root position [] : Frame S A).Underway g [] position := by
  have none : (Frame.start source root position [] : Frame S A).children = [] := rfl
  refine ⟨⟨rfl, by simp, rfl, rfl, rfl⟩, rfl, fun _ => rfl, by simp [none], ?_⟩
  rw [none]
  exact ⟨fun stops => absurd stops (by simp [start]), by simp⟩

section Tally

variable {position : Nat}

theorem Tallies.length_steps (tallies : f.Tallies g nodes position) : f.steps.length = nodes.length := by
  simpa using congrArg List.length tallies.steps

theorem Tallies.of_view (tallies : f.Tallies g nodes position) (same : f'.toView = f.toView) :
    f'.Tallies g nodes position := by
  obtain ⟨steps, plain, arguments, notes, span⟩ := tallies
  exact ⟨by rwa [same], plain, by rwa [same], by rwa [same], by rwa [same]⟩

theorem Tallies.children_append (tallies : f.Tallies g nodes position) {new : List Step}
    (steps : f'.steps = f.steps ++ new) :
    f'.children = nodes ++ Matched.children (new.map Step.matched) := by
  rw [children, steps, List.map_append, tallies.steps, Matched.children_append]

theorem Tallies.children_eq (tallies : f.Tallies g nodes position) : f.children = nodes := by
  simpa [Matched.children] using tallies.children_append (List.append_nil f.steps).symm

theorem Tallies.viewBehind_eq (tallies : f.Tallies g nodes position) (steps : f.steps <+: f'.steps)
    (arguments : f.arguments <+: f'.arguments) {before : List NodeId} {n : NodeId}
    (front : before ++ [n] <+: nodes) : f'.viewBehind g before n = f.viewBehind g before n := by
  have plain : (g.node n).isComposed = false := tallies.plain n (front.subset (by simp))
  have fewer : (before ++ [n]).length ≤ f.steps.length := tallies.length_steps ▸ front.length_le
  have bound : (before ++ [n]).countP (fun m => (g.node m).isArgument) ≤ f.arguments.length :=
    tallies.arguments ▸ front.sublist.countP_le
  obtain ⟨later, steps⟩ := steps
  obtain ⟨others, arguments⟩ := arguments
  simp only [viewBehind, plain, Bool.false_eq_true, if_false, ← steps, ← arguments,
    List.take_append_of_le_length fewer, List.take_append_of_le_length bound]

theorem Tallies.viewBehind_last (tallies : f.Tallies g (nodes ++ [m]) position) :
    f.viewBehind g nodes m = f.toView := by
  have plain : (g.node m).isComposed = false := tallies.plain m (by simp)
  have some : f.steps ≠ [] := fun none => by simpa [none] using tallies.steps
  have span := tallies.span
  rw [if_neg some] at span
  simp only [viewBehind, plain, Bool.false_eq_true, if_false, ← tallies.length_steps, List.take_length,
    ← tallies.arguments, ← span, ← tallies.notes]

end Tally

end Frame

section Children

variable {g : Grammar S A} {id child : NodeId} {c : Context S A} {i : Input} {nodes : List NodeId}

theorem Node.found_matchWord {n : Node S A} (proper : n.isRoot = false) (plain : n.composed? = none)
    (matched : (n.matchWord id c i).fault = none) :
    (n.matchWord id c i).context.notes = c.notes ∧
      (n.matchWord id c i).context.arguments.length =
        c.arguments.length + if n.isArgument then 1 else 0 := by
  unfold matchWord at matched ⊢
  cases role : n.role with
  | root => simp [isRoot, role] at proper
  | composed members => simp [composed?, role] at plain
  | literal name =>
    simp only [role, matchLiteral] at matched ⊢
    split <;> simp [isArgument, role, Attempt.succeed, Attempt.fail, Context.record, Context.updateView,
      View.record]
  | argument name type =>
    simp only [role, matchArgument, recordArgument] at matched ⊢
    cases answer : (type.read i c).answer with
    | ok value =>
      simp [isArgument, role, Attempt.succeed, Context.record, Context.updateView, View.record,
        Context.bind, View.bind]
    | error e => cases e <;> simp [answer, Attempt.fail] at matched

theorem Frame.Tallies.matchWord (tallies : c.toFrame.Tallies g nodes i.position)
    (proper : (g.node child).isRoot = false) (plain : (g.node child).composed? = none)
    (laid : i.Laid) (matched : ((g.node child).matchWord child c i).fault = none) (position : Nat) :
    ((g.node child).matchWord child c i).context.toFrame.Tallies g (nodes ++ [child]) position := by
  have forward := ((g.node child).reaches_matchWord laid child c).forward
  have adds := (Node.adds_matchWord proper plain matched).1
  obtain ⟨notes, arguments⟩ := Node.found_matchWord proper plain matched
  generalize ((g.node child).matchWord child c i).context = d at adds notes arguments ⊢
  generalize ((g.node child).matchWord child c i).input.position = stop at adds forward
  refine ⟨?_, ?_, ?_, notes.trans tallies.notes, ?_⟩
  · rw [adds.steps, List.map_append, tallies.steps, List.map_append]
    rfl
  · intro n member
    rcases List.mem_append.mp member with old | new
    · exact tallies.plain n old
    · simp [List.mem_singleton.mp new, Node.isComposed, plain]
  · rw [arguments, tallies.arguments, List.countP_append, List.countP_singleton]
  · have span := tallies.span
    rw [if_neg (by simp [adds.steps]), adds.steps, adds.span, List.map_append]
    by_cases first : c.steps = []
    · rw [if_pos first] at span
      simp [first, span, Span.coverAll, Span.cover, Span.point, forward]
    · rw [if_neg first] at span
      rw [List.map_singleton, Span.coverAll_concat (by simpa using first), span]
      rfl

theorem Frame.Underway.take (sound : g.Sound) (laid : i.Laid)
    (underway : c.toFrame.Underway g nodes i.position) (takes : g.Takes id c i child) (position : Nat) :
    ((g.node child).matchChild child c i).context.toFrame.Underway g (nodes ++ [child]) position := by
  obtain ⟨word, -, settled⟩ := Node.matchChild_fault_eq_none.mp takes.matched
  have proper := sound.isRoot_of_mem_children (takes.mem_children sound)
  have tallies := underway.toTallies.matchWord proper takes.plain laid word position
  have finds := (g.node child).finds_matchWord child c i
  have grows := c.stable_extends.matchWord (g.node child) child (i := i)
    ⟨List.prefix_rfl, List.prefix_rfl⟩
  have settles := Node.settlesTo_settle settled
  rw [Node.context_matchChild takes.matched]
  have tallies := tallies.of_view settles.view
  have stepped := underway.settled.step underway.children_eq underway.inherits tallies.children_eq
    (fun before n => underway.viewBehind_eq (by rw [settles.view]; exact grows.1)
      (by rw [settles.view]; exact grows.2))
    finds.action_eq finds.inherits_eq finds.executesChild_eq settles tallies.viewBehind_last
  exact ⟨tallies, stepped.2, stepped.1⟩

theorem Node.context_matchComposed {n : Node S A} {members : Composed}
    (matched : (n.matchComposed g child members c i).fault = none) :
    (n.settle (members.read g child c i).context (members.read g child c i).input).fault = none ∧
      (n.matchComposed g child members c i).context =
        (n.settle (members.read g child c i).context (members.read g child c i).input).context := by
  simp only [matchComposed, Attempt.asMalformed, Option.map_eq_none_iff, Attempt.andThen] at matched ⊢
  cases read : (members.read g child c i).fault with
  | none => simpa [read] using matched
  | some f => simp [read] at matched

theorem Frame.Underway.settled_matchComposed (laid : i.Laid)
    (underway : c.toFrame.Underway g nodes i.position) {members : Composed}
    (composed : (g.node child).composed? = some members)
    (matched : ((g.node child).matchComposed g child members c i).fault = none) :
    ((g.node child).matchComposed g child members c i).context.toFrame.Settled g := by
  have finds := Composed.finds_read g child members c i
  have grows := c.stable_extends.read g child members i
    ⟨List.prefix_rfl, List.prefix_rfl⟩
  have records : (members.read g child c i).Records (members.Belongs child)
      (c.record (members.firstPlace child i).matched (members.firstPlace child i).span) i :=
    Composed.records_read laid c
  obtain ⟨new, adds, -⟩ := records.added
  have steps := ((c.adds_record _ _).trans adds).steps
  obtain ⟨settled, context⟩ := Node.context_matchComposed matched
  have settles := Node.settlesTo_settle settled
  rw [context]
  refine (underway.settled.step underway.children_eq underway.inherits ?_ ?_ finds.action_eq
    finds.inherits_eq finds.executesChild_eq settles ?_).1
  · rw [← settles.view] at steps
    exact underway.children_append steps
  · exact fun before n => underway.viewBehind_eq (by rw [settles.view]; exact grows.1)
      (by rw [settles.view]; exact grows.2)
  · simp [Frame.viewBehind, Node.isComposed, composed]

end Children

namespace Grammar

variable {g : Grammar S A} {id : NodeId} {c : Context S A} {i : Input} {nodes : List NodeId}
  {p : Parse S A}

theorem Route.settled (sound : g.Sound) (route : g.Route id c i p) (laid : i.Laid)
    (free : c.redirected = []) (underway : c.toFrame.Underway g nodes i.position)
    (clean : p.faults = []) : ∀ f ∈ p.context.frames, f.Settled g := by
  simp only [Context.frames, List.forall_mem_cons]
  induction route generalizing nodes with
  | stop faults => exact ⟨underway.settled, by simp [free]⟩
  | @composed id child c i members faults tried composed told =>
    have kept := ((g.node child).records_matchComposed g members child laid c).redirected.trans free
    exact ⟨underway.settled_matchComposed laid composed (told.mp clean), by simp [kept]⟩
  | @ended id child c i takes last =>
    have kept := (Node.redirected_matchChild takes.matched).trans free
    exact ⟨(underway.take sound laid takes 0).settled, by simp [kept]⟩
  | @deeper id child c i p takes more stays rest ih =>
    have next := (g.reaches_next laid c child).laid laid
    exact ih next ((Node.redirected_matchChild takes.matched).trans free)
      (underway.take sound laid takes _) clean
  | @redirect id child target c i p takes more redirect rest ih =>
    have next := (g.reaches_next laid c child).laid laid
    have here := underway.take sound laid takes 0
    -- Nothing has been noted, so that nothing is handed on.
    have fresh := Frame.underway_start g ((g.node child).matchChild child c i).context.source target
      ((g.node child).matchChild child c i).input.readChar.2.position
    rw [← here.notes] at fresh
    exact ⟨here.settled, List.forall_mem_cons.mpr (ih next rfl fresh clean)⟩

end Grammar

/-- In a parse of the whole line every frame carries the action that the last of its children has chosen, if
the children behind it inherit, and none otherwise; and it runs its child unless one of its own forbids it. -/
theorem Grammar.Reachable.parse_settled {g : Grammar S A} (reachable : g.Reachable) (source : S)
    (r : Rendering) (values : List Value) (n : Nat)
    (complete : (g.parse source ((Input.ofValues r values).seek n)).isComplete = true) :
    ∀ f ∈ (g.parse source ((Input.ofValues r values).seek n)).context.frames, f.Settled g := by
  have laid := Input.laid_ofValues r values n
  simp only [Parse.isComplete, Bool.and_eq_true, List.isEmpty_iff] at complete
  exact (g.route_parse source _).settled reachable.sound laid rfl
    (Frame.underway_start g source .root _) complete.2

def Demo.sayings : Grammar User Deed :=
  (Grammar.empty.register .root
    (.literal "say" { doing .echo none with inheritance := .keep }
      [.literal "it" {} [.literal "not" { inheritance := .drop } []]])).1

theorem Demo.say_it_settled :
    let said := sayings.parse ⟨"console", true⟩ ((Input.ofValues .standard [.ofString "say it"]).seek 0)
    let dropped :=
      sayings.parse ⟨"console", true⟩ ((Input.ofValues .standard [.ofString "say it not"]).seek 0)
    (said.isComplete = true ∧ (∀ f ∈ said.context.frames, f.Settled sayings) ∧
        said.context.action = some (.custom .echo)) ∧
      dropped.isComplete = true ∧ (∀ f ∈ dropped.context.frames, f.Settled sayings) ∧
        dropped.context.action = none := by
  have reachable : sayings.Reachable := .register .root _ .empty
  have complete : (sayings.parse ⟨"console", true⟩
      ((Input.ofValues .standard [.ofString "say it"]).seek 0)).isComplete = true := by decide +kernel
  have complete' : (sayings.parse ⟨"console", true⟩
      ((Input.ofValues .standard [.ofString "say it not"]).seek 0)).isComplete = true := by
    decide +kernel
  exact ⟨⟨complete, reachable.parse_settled _ _ _ _ complete, by decide +kernel⟩,
    complete', reachable.parse_settled _ _ _ _ complete', by decide +kernel⟩

end CommandGrammar
