import CommandGrammar.Proofs.Execution.Levels
import CommandGrammar.Proofs.Grammar.Forest
import CommandGrammar.Proofs.Parsing.Leading

set_option autoImplicit false

namespace CommandGrammar

variable {S A E : Type} {g : Grammar S A} {r : NodeId} {source : S} {d : Nat}

namespace Frame

theorem usageTarget_shift (f : Frame S A) :
    (f.shift d).usageTarget = (f.usageTarget.1, f.usageTarget.2 + d) := by
  have placed (found : Option NodeId) (s : Step) :
      (found.map fun id => (id, (s.shift d).span.start)) =
        (found.map fun id => (id, s.span.start)).map fun t => (t.1, t.2 + d) := by
    rw [Option.map_map]
    rfl
  have composed : (f.steps.map (·.shift d)).findSome? (fun step =>
      step.matched.composed?.map fun id => (id, step.span.start)) =
        (f.steps.findSome? fun step => step.matched.composed?.map fun id =>
          (id, step.span.start)).map fun t => (t.1, t.2 + d) := by
    rw [List.findSome?_map, List.map_findSome?]
    exact congrArg (List.findSome? · f.steps) (funext fun step => placed step.matched.composed? step)
  have last : ((f.steps.map (·.shift d)).getLast?.bind fun step =>
      step.matched.node?.map fun id => (id, step.span.start)) =
        (f.steps.getLast?.bind fun step => step.matched.node?.map fun id =>
          (id, step.span.start)).map fun t => (t.1, t.2 + d) := by
    rw [List.getLast?_map, Option.bind_map, Option.map_bind]
    exact congrArg (f.steps.getLast?.bind ·) (funext fun step => placed step.matched.node? step)
  simp only [usageTarget, shift, View.shift, composed, last, ← Option.map_or]
  generalize Option.or _ _ = target
  cases target <;> rfl

end Frame

theorem Grammar.usageAt_shift (g : Grammar S A) (c : Context S A) {i j : Input}
    (typed : ∀ start stop, j.textBetween (start + d) (stop + d) = i.textBetween start stop) (source : S) :
    g.usageAt (c.shift d) j source = g.usageAt c i source := by
  have target : ((c.shift d).redirected.getLast?.getD (c.shift d).toFrame).usageTarget =
      ((c.redirected.getLast?.getD c.toFrame).usageTarget.1,
        (c.redirected.getLast?.getD c.toFrame).usageTarget.2 + d) := by
    rw [← Frame.usageTarget_shift]
    show ((c.redirected.map (·.shift d)).getLast?.getD (c.toFrame.shift d)).usageTarget = _
    rw [List.getLast?_map]
    cases c.redirected.getLast? <;> rfl
  simp only [usageAt, target]
  exact congrArg (Usage.render g source · _) (typed _ _)

structure Grammar.OffersHelp (g : Grammar S A) (r : NodeId) : Prop where
  child : r ∈ (g.node .root).children
  role : (g.node r).role = .literal "help"
  attributes : (g.node r).toAttributes = Blueprint.help.attributes

namespace Grammar.OffersHelp

theorem choose_eq (help : g.OffersHelp r) : (g.node r).choose = some fun _ => .ok .help :=
  congrArg Attributes.choose help.attributes

theorem executesChild_eq (help : g.OffersHelp r) : (g.node r).executesChild = false :=
  congrArg Attributes.executesChild help.attributes

theorem forwards (help : g.OffersHelp r) (source : S) : g.Forwards r "help" source where
  child := help.child
  role := help.role
  present := by decide
  solid := Input.solid_of_all (by decide)
  usable := by
    have requirement : (g.node r).requirement = none := congrArg Attributes.requirement help.attributes
    rw [Node.usableBy, requirement]
    rfl
  settles := by
    rw [help.choose_eq]
    rintro _ ⟨⟩
    exact ⟨.help, rfl⟩
  redirect := congrArg Attributes.redirect help.attributes

theorem stops (help : g.OffersHelp r) {c : Context S A} (opens : g.Opens r "help" source c) :
    c.action = some .help ∧ c.executesChild = false :=
  ⟨opens.action _ _ help.choose_eq rfl, opens.executesChild.trans help.executesChild_eq⟩

end Grammar.OffersHelp

namespace Grammar

theorem Sound.register_literal (sound : g.Sound) (name : String) {attributes : Attributes S A}
    (known : ∀ target, attributes.redirect = some target → target < g.nodeCount) :
    let registered := g.register .root (.literal name attributes [])
    let new := registered.1.node g.nodeCount
    registered.2 = .ok g.nodeCount ∧ g.nodeCount ∈ (registered.1.node .root).children ∧
      new.role = .literal name ∧ new.toAttributes = attributes := by
  obtain ⟨n, found, root⟩ := sound.root
  have plain : n.isComposed = false := by
    cases role : n.role <;> simp_all [Node.isRoot, Node.isComposed, Node.composed?]
  have parent : g.checkParent .root = .ok () := by simp [checkParent, found, plain]
  have target : g.checkRedirect attributes = .ok () := by
    unfold checkRedirect
    cases redirect : attributes.redirect with
    | none => rfl
    | some target => simp [node?, List.getElem?_eq_getElem (known target redirect)]
  have placed : g.register .root (.literal name attributes []) =
      ((g.push (.ofRole (.literal name) attributes)).1.attach .root g.nodeCount,
        .ok g.nodeCount) := by
    rw [Grammar.register, Grammar.place, parent]
    simp only [target]
    rfl
  have added := node?_push_self g (.ofRole (.literal name) attributes)
  have grown : (g.push (.ofRole (.literal name) attributes)).1.Sound :=
    sound.push (by simp) attributes
  have below := (node?_push_of_lt (.ofRole (.literal name) attributes) (node?_lt found)).trans found
  rw [placed]
  generalize (g.push (.ofRole (.literal name) attributes)).1 = h at added grown below ⊢
  have here : (h.attach .root g.nodeCount).node .root =
      (h.node .root).adopt (h.node g.nodeCount) g.nodeCount := by
    rw [node, node?_attach, below, node_of_node? below]
    rfl
  refine ⟨rfl, ?_, ?_, ?_⟩
  · rw [here]
    exact ((grown.indexed_node .root).mem_children_adopt _).mpr (.inl rfl)
  · rw [role_attach, node_of_node? added]
    rfl
  · rw [toAttributes_attach, node_of_node? added]
    rfl

theorem Sound.register_help (sound : g.Sound) :
    (g.register .root .help).2 = .ok g.nodeCount ∧
      (g.register .root .help).1.OffersHelp g.nodeCount := by
  have known (target : NodeId)
      (redirect : (Blueprint.help : Blueprint S A).attributes.redirect = some target) :
      target < g.nodeCount := by
    cases redirect
    exact sound.nodeCount_pos
  obtain ⟨ok, child, role, attributes⟩ := sound.register_literal "help" known
  exact ⟨ok, child, role, attributes⟩

theorem Sound.textBetween_parse_behind (sound : g.Sound) (source : S) (text line : String)
    (start stop : Nat) :
    (g.parse source (.ofText (text ++ line))).rest.textBetween (start + text.length)
        (stop + text.length) =
      (g.parse source (.ofText line)).rest.textBetween start stop := by
  have behind := (sound.traces_parse source (Input.shows_ofText (text ++ line)).laid).reached
  have alone := (sound.traces_parse source (Input.shows_ofText line).laid).reached
  rw [Input.textBetween_congr behind.segments, Input.textBetween_congr alone.segments,
    Input.textBetween_ofText_append]

theorem Sound.parse_help (sound : g.Sound) (free : g.ReadsPlaceFree) (help : g.OffersHelp r)
    (source : S) (line : String) :
    let p := g.parse source (.ofText line)
    let q := g.parse source (.ofText ("help " ++ line))
    q.isComplete = p.isComplete ∧ q.context.source = source ∧ q.context.isFinal = true ∧
      q.context.action = some .help ∧ q.context.child? = some (p.context.shift "help ".length) := by
  intro p q
  obtain ⟨c, tail, opens, twin, parsed⟩ := sound.parse_forwards free (help.forwards source) line
  obtain ⟨action, stays⟩ := help.stops opens
  have parsed : q = { tail with context := c.redirectTo tail.context } := parsed
  rw [parsed]
  refine ⟨twin.isComplete, opens.source, ?_, action, ?_⟩
  · simp [Context.isFinal, Context.redirectTo, stays]
  · show (c.redirectTo tail.context).child? = _
    rw [twin.context]
    rfl

end Grammar

namespace Shell

variable (s : Shell S A E)

theorem helpText_eq {p q : Parse S A} (child : q.context.child? = some (p.context.shift d))
    (typed : ∀ start stop, q.rest.textBetween (start + d) (stop + d) = p.rest.textBetween start stop)
    (kept : p.context.source = source) :
    s.helpText (q.context.runAs q.rest source) = p.usage s.grammar := by
  rw [Parse.usage, kept, ← s.grammar.usageAt_shift p.context typed]
  simp only [helpText, Context.child?_runAs, child]
  rfl

/-- Asking for help on a line that reads completely shows the usage of that line to the source, once.
The help action is all that runs, and as it runs so whichever grammar redirections are looked up in,
none of them is asked. -/
theorem run_help (reachable : s.grammar.Reachable) (free : s.grammar.ReadsPlaceFree)
    (help : s.grammar.OffersHelp r) (source : S) (line : String)
    (complete : (s.parse source (.ofText line)).isComplete = true) :
    let p := s.parse source (.ofText line)
    let q := s.parse source (.ofText ("help " ++ line))
    s.run source (.ofText ("help " ++ line)) = ⟨s.showHelp source (p.usage s.grammar), .ok 1⟩ ∧
      ∀ (g : Grammar S A) (E' : Type) (perform : Context S A → Action A → Run E' Unit),
        q.execute g perform =
          (perform (q.context.runAs q.rest source) .help).andThen fun _ => .done 1 := by
  intro p q
  obtain ⟨same, kept, final, action, child⟩ :=
    reachable.sound.parse_help free help source line
  have runs (g : Grammar S A) (E' : Type) (perform : Context S A → Action A → Run E' Unit) :
      q.execute g perform =
        (perform (q.context.runAs q.rest source) .help).andThen fun _ => .done 1 := by
    have run := Parse.execute_of_isFinal g perform (same.trans complete) final action
    rwa [kept] at run
  refine ⟨?_, runs⟩
  have text : s.helpText (q.context.runAs q.rest source) = p.usage s.grammar :=
    s.helpText_eq child (reachable.sound.textBetween_parse_behind source "help " line)
      (reachable.sound.source_parse source (Input.shows_ofText line).laid)
  show q.execute s.grammar s.perform = _
  rw [runs, ← text]
  simp only [perform, Run.andThen, Run.done, List.append_nil]
  rfl

end Shell

namespace Demo

theorem offersHelp_grammar : grammar.OffersHelp 15 := by
  have before : ((commands.take 7).foldl (fun g command => (g.register .root command).1)
      (Grammar.empty : Grammar User Deed)).Reachable := Grammar.Reachable.empty.foldl_register .root _
  exact before.sound.register_help.2

-- On the way to the command are a redirection to another user, a further help command, and a fork.
theorem help_whoami :
    let line := "as bob help everyone whoami"
    ((shell {}).parse ⟨"console", true⟩ (.ofText line)).isComplete = true ∧
      (shell {}).run ⟨"console", true⟩ (.ofText ("help " ++ line)) = ⟨[line], .ok 1⟩ := by
  intro line
  have complete : ((shell {}).parse ⟨"console", true⟩ (.ofText line)).isComplete = true := by
    decide +kernel
  have text : ((shell {}).parse ⟨"console", true⟩ (.ofText line)).usage (shell {}).grammar = line := by
    decide +kernel
  obtain ⟨run, -⟩ := (shell {}).run_help reachable_grammar readsPlaceFree_grammar offersHelp_grammar
    ⟨"console", true⟩ line complete
  rw [text] at run
  exact ⟨complete, run⟩

end Demo

end CommandGrammar
