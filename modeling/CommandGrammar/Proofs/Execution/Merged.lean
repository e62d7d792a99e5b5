import CommandGrammar.Proofs.Execution.Mirror
import CommandGrammar.Proofs.Parsing.Merged
import CommandGrammar.Proofs.Parsing.Trail

set_option autoImplicit false

namespace CommandGrammar

variable {S A E : Type} {f : NodeId → NodeId} {g h first second : Grammar S A}
  {inside : NodeId → Prop} {i : Input}

namespace Grammar

theorem HasCommand.lt {id : NodeId} (command : g.HasCommand id) : id < g.nodeCount := by
  obtain ⟨n, found, -⟩ := command
  exact node?_lt found

theorem Path.hasCommand (sound : g.Sound) {root last id : NodeId} {nodes : List NodeId}
    (path : g.Path root nodes last) (member : id ∈ nodes) : g.HasCommand id := by
  induction path with
  | here => simp at member
  | child known _ _ ih =>
    rcases List.mem_cons.mp member with rfl | later
    · exact (sound.indexed_node _).commands _ known
    · exact ih later

theorem Sound.hasCommand_member (sound : g.Sound) {id m : NodeId} {members : Composed}
    (composed : (g.node id).role = .composed members) (member : m ∈ members.sequence) :
    g.HasCommand m := by
  obtain ⟨entries, rfl, -, arguments⟩ := sound.declared_node composed
  obtain ⟨e, inside, rfl⟩ := List.mem_map.mp member
  obtain ⟨type, n, found, role⟩ := arguments e inside
  exact ⟨n, found, by simp [Node.isRoot, role]⟩

theorem Walks.hasCommand (sound : g.Sound) {root id : NodeId} {matched : List Matched}
    (walks : g.Walks root matched) (member : .node id ∈ matched) : g.HasCommand id := by
  obtain ⟨nodes, last, closing, path, rfl, closes⟩ := walks
  rcases List.mem_append.mp member with step | own
  · obtain ⟨node, there, same⟩ := List.mem_map.mp step
    exact path.hasCommand sound (Matched.node.inj same ▸ there)
  · rcases closes with rfl | ⟨child, -, members, composed, place, rest, rfl, first, others⟩
    · simp at own
    · have role : (g.node child).role = .composed members := by
        cases role : (g.node child).role <;> simp_all [Node.composed?]
      rcases List.mem_cons.mp own with rfl | later
      · simp [Matched.composed?] at first
      · rcases others _ later with belongs | ⟨m, member, same⟩
        · simp [Matched.composed?] at belongs
        · exact Matched.node.inj same ▸ sound.hasCommand_member role member

end Grammar

theorem View.mem_of_lastNode? {v : View} {id : NodeId} (last : v.lastNode? = some id) :
    .node id ∈ v.steps.map Step.matched := by
  obtain ⟨step, member, node⟩ := List.exists_of_findSome?_eq_some last
  refine List.mem_map.mpr ⟨step, List.mem_reverse.mp member, ?_⟩
  cases matched : step.matched <;> simp_all [Matched.node?]

theorem View.lastNode?_renumber (v : View) : (v.renumber f).lastNode? = v.lastNode?.map f := by
  have node (s : Step) : (s.renumber f).matched.node? = s.matched.node?.map f := by
    obtain ⟨matched, span⟩ := s
    cases matched <;> rfl
  simp only [renumber, lastNode?, ← List.map_reverse, List.findSome?_map, Function.comp_def, node]
  induction v.steps.reverse with
  | nil => rfl
  | cons s rest ih =>
    simp only [List.findSome?_cons, ih]
    cases s.matched.node? <;> rfl

def Context.Knows (inside : NodeId → Prop) (c : Context S A) : Prop :=
  ∀ frame ∈ c.frames, ∀ id, frame.lastNode? = some id → inside id

theorem Context.Knows.mono {c : Context S A} {known : NodeId → Prop} (knows : c.Knows known)
    (among : ∀ id, known id → inside id) : c.Knows inside :=
  fun frame member id last => among id (knows frame member id last)

namespace Grammar.Embeds

variable (embeds : g.Embeds h f inside)
include embeds

theorem lastNode?_eq {c : Context S A} (known : ∀ id, c.toView.lastNode? = some id → inside id) :
    (c.renumber f).lastNode? h = (c.lastNode? g).map (·.renumber f) := by
  have last : (c.renumber f).toView.lastNode? = c.toView.lastNode?.map f :=
    View.lastNode?_renumber c.toView
  rw [Context.lastNode?, Context.lastNode?, last]
  cases node : c.toView.lastNode? with
  | none => rfl
  | some id => exact embeds.node? id (known id node)

theorem redirectedSources_eq
    (modifiers : ∀ id modifier, inside id → (g.node id).modifier = some modifier →
      ∀ c, modifier (c.renumber f) = modifier c)
    {c : Context S A} (known : ∀ id, c.toView.lastNode? = some id → inside id) :
    (c.renumber f).redirectedSources h = c.redirectedSources g := by
  have last := embeds.lastNode?_eq known
  have modifier' : (c.renumber f).modifier? h = c.modifier? g := by
    rw [Context.modifier?, Context.modifier?, last]
    cases c.lastNode? g <;> rfl
  have forked : (c.renumber f).isForked h = c.isForked g := by
    rw [Context.isForked, Context.isForked, last]
    cases c.lastNode? g <;> rfl
  simp only [Context.redirectedSources, modifier', forked]
  cases modifier : c.modifier? g with
  | none => rfl
  | some m =>
    obtain ⟨n, node, settles⟩ := Option.bind_eq_some_iff.mp modifier
    obtain ⟨id, ended, found⟩ := Option.bind_eq_some_iff.mp node
    have same : m (c.renumber f) = m c :=
      modifiers id m (known id ended) (by rw [node_of_node? found, settles]) c
    simp only [same]

theorem mirrors
    (modifiers : ∀ id modifier, inside id → (g.node id).modifier = some modifier →
      ∀ c, modifier (c.renumber f) = modifier c) (i : Input) :
    Execution.Mirrors g h i i fun c d => c.Knows inside ∧ d = c.renumber f where
  child := by
    rintro c - ⟨knows, rfl⟩
    cases frames : c.redirected with
    | nil =>
      have ends : c.child? = none ∧ (c.renumber f).child? = none := by
        simp [Context.child?, Context.renumber, frames]
      rw [ends.1, ends.2]
      exact .none
    | cons frame rest =>
      have child : c.child? = some { frame with redirected := rest, input := none } := by
        simp [Context.child?, frames]
      have child' : (c.renumber f).child? =
          some { frame.renumber f with redirected := rest.map (·.renumber f), input := none } := by
        simp [Context.child?, Context.renumber, frames]
      rw [child, child']
      refine .some ⟨fun other member => knows other (List.mem_cons_of_mem _ ?_), rfl⟩
      rw [frames]
      exact member
  executesChild := by rintro c - ⟨-, rfl⟩; rfl
  steps := by rintro c - ⟨-, rfl⟩; exact List.isEmpty_map
  handed := by
    rintro c - ⟨knows, rfl⟩ s
    exact embeds.redirectedSources_eq modifiers (c := c.runAs i s) (knows c.toFrame (by simp [Context.frames]))

end Grammar.Embeds

namespace Parse

theorem isComplete_renumber (p : Parse S A) : (p.renumber f).isComplete = p.isComplete := by
  simp only [isComplete, renumber, List.isEmpty_map]

theorem check_renumber (p : Parse S A) : (p.renumber f).check = p.check := by
  have span : (p.renumber f).context.span = p.context.span := rfl
  have rest : (p.renumber f).rest = p.rest := rfl
  have faults : (p.renumber f).faults = p.faults.map fun e => (f e.1, e.2) := rfl
  rw [check, check, isComplete_renumber, span, rest, faults]
  cases p.faults with
  | nil => rfl
  | cons e others => cases others <;> rfl

theorem execute_renumber (embeds : g.Embeds h f inside)
    (modifiers : ∀ id modifier, inside id → (g.node id).modifier = some modifier →
      ∀ c, modifier (c.renumber f) = modifier c)
    {perform : Context S A → Action A → Run E Unit}
    (acts : ∀ c a, perform (c.renumber f) a = perform c a) {p : Parse S A}
    (knows : p.context.Knows inside) :
    (p.renumber f).execute h perform = p.execute g perform := by
  have rest : (p.renumber f).rest = p.rest := rfl
  cases complete : p.isComplete with
  | false =>
    obtain ⟨fault, failing⟩ := check_of_not_isComplete complete
    simp only [execute, check_renumber, failing]
  | true =>
    have mirrors := embeds.mirrors modifiers p.rest
    have alike : p.context.Knows inside ∧ (p.renumber f).context = p.context.renumber f := ⟨knows, rfl⟩
    obtain ⟨m, lands⟩ := p.context.exists_landsAt
    have failures : (p.renumber f).failuresAbove h m = p.failuresAbove g m :=
      mirrors.failuresAbove_eq alike _ m
    have sources : (p.renumber f).sourcesAt h m = p.sourcesAt g m := mirrors.sourcesAt_eq alike _ m
    have context := (mirrors.descend alike m).2
    have action : ((p.renumber f).context.descend m).action = (p.context.descend m).action := by
      rw [context]
      rfl
    have runs (s : S) (a : Action A) :
        perform (((p.renumber f).context.descend m).runAs p.rest s) a =
          perform ((p.context.descend m).runAs p.rest s) a := by
      rw [context]
      exact acts ((p.context.descend m).runAs p.rest s) a
    rw [execute_eq_landing h perform ((isComplete_renumber p).trans complete)
        (mirrors.landsAt alike lands),
      execute_eq_landing g perform complete lands, failures, sources, rest]
    simp only [Execution.landing, action, runs]

end Parse

namespace Grammar

def ObliviousModifiers (g : Grammar S A) : Prop :=
  ∀ id modifier, (g.node id).modifier = some modifier →
    ∀ f (c : Context S A), modifier (c.renumber f) = modifier c

theorem Sound.knows_parse (sound : g.Sound) (source : S) (laid : i.Laid) :
    (g.parse source i).context.Knows g.HasCommand :=
  fun frame member _ last =>
    (sound.walks_parse source laid frame member).hasCommand sound (View.mem_of_lastNode? last)

/-- A line that begins with a command of one grammar is parsed by the merged grammar as by that one, under
the numbers that its nodes have there. It runs alike if modifiers and actions do not tell by the numbers
of nodes what was found; a line of the first grammar, whose numbers stay, runs alike in any case. -/
theorem Reachable.parse_merge (hf : first.Reachable) (hs : second.Reachable)
    (away : ∀ id, (first.node id).redirect ≠ some .root)
    (away' : ∀ id, (second.node id).redirect ≠ some .root) (oblivious : second.Oblivious) (source : S)
    (line : String) {word : Word} (next : (Input.ofText line).peekWord = some word) :
    let merged := first.merge second
    let q := merged.parse source (.ofText line)
    (second.HasLiteral word.asText →
      let p := second.parse source (.ofText line)
      q = p.renumber (moved (first.nodeCount - 1)) ∧
        (second.ObliviousModifiers → ∀ (E : Type) (perform : Context S A → Action A → Run E Unit),
          (∀ f c a, perform (c.renumber f) a = perform c a) →
          q.execute merged perform = p.execute second perform)) ∧
    (first.HasLiteral word.asText →
      (∀ other ∈ (second.node .root).children, (second.node other).name ≠ word.asText) →
      let p := first.parse source (.ofText line)
      q = p ∧ ∀ (E : Type) (perform : Context S A → Action A → Run E Unit),
        q.execute merged perform = p.execute first perform) := by
  intro merged q
  have ff := hf.sound
  have fs := hs.sound
  have laid : (Input.ofText line).Laid := (Input.shows_ofText line).laid
  refine ⟨?_, ?_⟩
  · intro literal p
    have parsed := ff.parse_merge_second fs away' oblivious source next literal
    refine ⟨parsed, fun modifiers E perform acts => ?_⟩
    have knows := (fs.knows_parse source laid).mono fun id command => fs.ne_root command
    have runs := Parse.execute_renumber (embeds_second ff fs away' oblivious)
      (fun id modifier _ known c => modifiers id modifier known _ c) (acts _) knows
    rwa [← parsed] at runs
  · intro literal free p
    have parsed := ff.parse_merge_first hf.forest fs away source next literal free
    refine ⟨parsed, fun E perform => ?_⟩
    have knows := (ff.knows_parse source laid).mono fun id command =>
      (⟨ff.ne_root command, command.lt⟩ : id ≠ .root ∧ id < first.nodeCount)
    have runs := Parse.execute_renumber (embeds_first second ff hf.forest away)
      (fun id modifier _ _ c => congrArg modifier c.renumber_same)
      (fun c a => congrArg (perform · a) c.renumber_same) knows
    rw [Parse.renumber_same] at runs
    exact (congrArg (Parse.execute merged perform) parsed).trans runs

end Grammar

namespace Demo

def speaking : Grammar User Deed :=
  [Blueprint.literal "echo" {} [.argument "text" .rest (doing .echo none) []],
    .literal "say" { redirect := some 1 } []].foldl
      (fun g command => (g.register .root command).1) .empty

theorem oblivious_speaking : speaking.Oblivious := by
  refine ⟨?_, ?_⟩
  · intro id name type role f i c
    match id with
    | 0 | 1 | 3 => cases role
    | 2 =>
      cases role
      rfl
    | _ + 4 => cases role
  · intro id choose chosen f v
    match id with
    | 0 | 1 | 3 => cases chosen
    | 2 =>
      cases chosen
      rfl
    | _ + 4 => cases chosen

def speak (c : Context User Deed) (_ : Action Deed) : Run String Unit :=
  printed ((c.argument? Value.string? "text").getD "")

theorem parse_merge_speaking :
    let merged := greeting.merge speaking
    let q := merged.parse ⟨"console", true⟩ (.ofText "say hi there")
    let p := speaking.parse ⟨"console", true⟩ (.ofText "say hi there")
    q = p.renumber (Grammar.moved 1) ∧ q.execute merged speak = p.execute speaking speak ∧
      p.context.frames.map (fun f => f.steps.map Step.matched) = [[.node 3], [.node 2]] ∧
      merged.parse ⟨"console", true⟩ (.ofText "greet") =
        greeting.parse ⟨"console", true⟩ (.ofText "greet") := by
  have reachable : speaking.Reachable := Grammar.Reachable.empty.foldl_register .root _
  have reachable' : greeting.Reachable := .register _ _ .empty
  have away (id : NodeId) : (greeting.node id).redirect ≠ some .root := by
    match id with
    | 0 | 1 => decide
    | _ + 2 => exact nofun
  have away' (id : NodeId) : (speaking.node id).redirect ≠ some .root := by
    match id with
    | 0 | 1 | 2 | 3 => decide
    | _ + 4 => exact nofun
  have saying : (Input.ofText "say hi there").peekWord = some (.text "say") := by decide
  have greeted : (Input.ofText "greet").peekWord = some (.text "greet") := by decide
  have say := reachable'.parse_merge reachable away away' oblivious_speaking ⟨"console", true⟩
    "say hi there" saying
  have greet := reachable'.parse_merge reachable away away' oblivious_speaking ⟨"console", true⟩
    "greet" greeted
  have modifiers : speaking.ObliviousModifiers := by
    intro id modifier known
    match id with
    | 0 | 1 | 2 | 3 => cases known
    | _ + 4 => cases known
  obtain ⟨parsed, runs⟩ := say.1 ⟨3, by decide, rfl⟩
  refine ⟨parsed, runs modifiers _ speak fun _ _ _ => rfl, by decide +kernel, ?_⟩
  exact (greet.2 ⟨1, by decide, rfl⟩ (by decide)).1

end Demo

end CommandGrammar
