import CommandGrammar.Proofs.Grammar.Reachable
import CommandGrammar.Proofs.Input.Words
import CommandGrammar.Proofs.Parsing.Route

set_option autoImplicit false

namespace CommandGrammar

variable {S A : Type}

structure Grammar.NamesLiteral (g : Grammar S A) (id : NodeId) (i : Input) (child : NodeId) : Prop where
  member : child ∈ (g.node id).children
  named : ∃ name, (g.node child).role = .literal name ∧ i.peekWord.map Word.asText = some name

def Node.Chooses (n : Node S A) (view : View) : Prop :=
  ∀ choose, n.choose = some choose → ∃ action, choose view = .ok action

theorem Node.settle_fault_eq_none {n : Node S A} {c : Context S A} {i : Input} :
    (n.settle c i).fault = none ↔ n.Chooses c.toView := by
  simp only [settle, Chooses]
  cases n.choose with
  | none => simp [Attempt.succeed]
  | some choose =>
    simp only [Option.some.injEq, forall_eq']
    cases choose c.toView <;> simp [Attempt.succeed, Attempt.fail]

namespace Grammar.NamesLiteral

variable {g : Grammar S A} {id child : NodeId} {i : Input} {c : Context S A}

theorem composed?_eq_none (names : g.NamesLiteral id i child) : (g.node child).composed? = none := by
  obtain ⟨name, role, -⟩ := names.named
  simp [Node.composed?, role]

theorem relevant (sound : g.Sound) (names : g.NamesLiteral id i child) : g.relevant id i = [child] := by
  obtain ⟨name, role, word⟩ := names.named
  obtain ⟨w, next, rfl⟩ := Option.map_eq_some_iff.mp word
  have known := ((sound.indexed_node id).literals w.asText child).mpr ⟨names.member, role⟩
  exact relevant_of_literal next known

theorem eq_of_mem_candidates (sound : g.Sound) (names : g.NamesLiteral id i child) {source : S}
    {other : NodeId} (tried : other ∈ g.candidates id source i) : other = child := by
  have relevant := (List.mem_filter.mp tried).1
  rw [names.relevant sound] at relevant
  exact List.mem_singleton.mp relevant

theorem matchWord (names : g.NamesLiteral id i child) (c : Context S A) :
    (g.node child).matchWord child c i =
      .succeed (c.record (.node child) ⟨i.position, i.readWord.2.position⟩) i.readWord.2 := by
  obtain ⟨name, role, word⟩ := names.named
  obtain ⟨w, next, rfl⟩ := Option.map_eq_some_iff.mp word
  simp [Node.matchWord, role, matchLiteral, next]

theorem input_matchChild (names : g.NamesLiteral id i child) (c : Context S A) :
    ((g.node child).matchChild child c i).input = i.readWord.2 := by
  rw [Node.input_matchChild, names.matchWord c]
  rfl

theorem fault_matchChild (row : i.IsRow) (names : g.NamesLiteral id i child) (c : Context S A) :
    ((g.node child).matchChild child c i).fault = none ↔
      (g.node child).Chooses
        (c.record (.node child) ⟨i.position, i.readWord.2.position⟩).toView := by
  obtain ⟨name, role, word⟩ := names.named
  obtain ⟨w, next, -⟩ := Option.map_eq_some_iff.mp word
  have ends (d : Context S A) : (Node.endWord d i.readWord.2).fault = none := by
    unfold Node.endWord
    cases more : i.readWord.2.hasMore with
    | false => rfl
    | true =>
      obtain ⟨ch, found, blank⟩ := row.blank_behind_word next more
      simp [found, blank, Attempt.succeed]
  simp only [Node.matchChild_fault_eq_none, names.matchWord c, Attempt.succeed, ends,
    Node.settle_fault_eq_none, true_and]

theorem steps_matchChild (sound : g.Sound) (names : g.NamesLiteral id i child)
    (matched : ((g.node child).matchChild child c i).fault = none) :
    ((g.node child).matchChild child c i).context.steps =
      (c.record (.node child) ⟨i.position, i.readWord.2.position⟩).steps := by
  have proper := sound.isRoot_of_mem_children names.member
  have adds := (Node.adds_matchChild proper names.composed?_eq_none matched).1
  rw [adds.steps, names.input_matchChild c]
  rfl

end Grammar.NamesLiteral

namespace Grammar

variable {g : Grammar S A} {id child : NodeId} {i line : Input} {c : Context S A} {p : Parse S A}

theorem parseBelow_of_takes (sound : g.Sound) (laid : i.Laid) (takes : g.Takes id c i child)
    (only : g.candidates id c.source i = [child]) :
    ((g.node child).matchChild child c i).context.steps <+: (g.parseBelow id c i).context.steps ∧
      ((g.node child).matchChild child c i).input.Reaches (g.parseBelow id c i).rest := by
  have reached := (g.node child).reaches_matchChild laid child c
  have onward := (reached.laid laid).reaches_readChar
  rw [g.parseBelow_eq laid, only]
  simp only [tryChildren]
  cases more : ((g.node child).matchChild child c i).input.hasMore with
  | false =>
    rw [tryChild_ended takes.plain takes.matched more]
    exact ⟨List.prefix_rfl, (reached.laid laid).refl⟩
  | true =>
    cases redirect : (g.node child).redirect with
    | none =>
      rw [tryChild_below takes.plain takes.matched more redirect]
      obtain ⟨kept, further⟩ := (g.route_parseBelow child
        ((g.node child).matchChild child c i).context _).onward sound (onward.laid (reached.laid laid))
      exact ⟨kept, onward.trans further⟩
    | some target =>
      rw [tryChild_redirect takes.plain takes.matched more redirect]
      obtain ⟨-, further⟩ := (g.route_parseBelow target
        (((g.node child).matchChild child c i).context.freshChild target _) _).onward sound
          (onward.laid (reached.laid laid))
      exact ⟨List.prefix_rfl, onward.trans further⟩

structure SettlesLiteral (g : Grammar S A) (id : NodeId) (c : Context S A) (i : Input) (child : NodeId) :
    Prop where
  taken : (g.node child).usableBy c.source = true →
    (g.node child).Chooses (c.record (.node child) ⟨i.position, i.readWord.2.position⟩).toView →
    (c.record (.node child) ⟨i.position, i.readWord.2.position⟩).steps <+:
        (g.parseBelow id c i).context.steps ∧
      i.readWord.2.Reaches (g.parseBelow id c i).rest
  stuck : (g.node child).usableBy c.source = true →
    ¬ (g.node child).Chooses (c.record (.node child) ⟨i.position, i.readWord.2.position⟩).toView →
    ∃ f, ((g.node child).matchChild child c i).fault = some f ∧
      g.parseBelow id c i = ⟨c, i, [(child, f)]⟩
  unusable : (g.node child).usableBy c.source = false → g.parseBelow id c i = ⟨c, i, []⟩

theorem NamesLiteral.settles (sound : g.Sound) (row : i.IsRow) (names : g.NamesLiteral id i child)
    (c : Context S A) : g.SettlesLiteral id c i child := by
  have laid := row.laid
  have only : g.candidates id c.source i =
      [child].filter fun child => (g.node child).usableBy c.source := by
    rw [candidates, names.relevant sound]
  have plain := names.composed?_eq_none
  have matched := names.fault_matchChild row c
  constructor
  · intro usable chooses
    have only : g.candidates id c.source i = [child] := by simp [only, usable]
    have takes : g.Takes id c i child := ⟨by simp [only], plain, matched.mpr chooses⟩
    have onward := parseBelow_of_takes sound laid takes only
    rwa [names.steps_matchChild sound takes.matched, names.input_matchChild c] at onward
  · intro usable refuses
    obtain ⟨f, fault⟩ := Option.ne_none_iff_exists'.mp (mt matched.mp refuses)
    refine ⟨f, fault, ?_⟩
    have only : g.candidates id c.source i = [child] := by simp [only, usable]
    rw [g.parseBelow_eq laid, only, tryChildren, tryChild_rejected plain fault]
    rfl
  · intro unusable
    have only : g.candidates id c.source i = [] := by simp [only, unusable]
    rw [g.parseBelow_eq laid, only]
    rfl

end Grammar

-- Wherever all steps before one are nodes, so that the children of the last were tried there, and the next
-- word is the name of a literal among them, the step is that literal, which takes the word.
def Frame.LiteralsFirst (g : Grammar S A) (line : Input) (f : Frame S A) : Prop :=
  ∀ before s after, ∀ nodes : List NodeId, f.steps = before ++ s :: after →
    before.map Step.matched = nodes.map Matched.node →
    ∀ child, g.NamesLiteral (nodes.getLast?.getD f.root) (line.seek s.span.start) child →
      s = ⟨.node child, ⟨s.span.start, (line.seek s.span.start).readWord.2.position⟩⟩

def Frame.StandsAt (f : Frame S A) (id : NodeId) : Prop :=
  ∃ nodes : List NodeId,
    f.steps.map Step.matched = nodes.map Matched.node ∧ nodes.getLast?.getD f.root = id

section Frames

variable {g : Grammar S A} {id child : NodeId} {line : Input} {f f' : Frame S A} {s : Step}
  {new : List Step}

theorem Frame.StandsAt.node {span : Span} (stands : f.StandsAt id)
    (adds : f.Adds [⟨.node child, span⟩] f') : f'.StandsAt child := by
  obtain ⟨nodes, same, -⟩ := stands
  refine ⟨nodes ++ [child], ?_, by simp⟩
  rw [adds.steps, List.map_append, List.map_append, same]
  rfl

theorem Frame.literalsFirst_start (source : S) (root : NodeId) (position : Nat) (notes : List Note) :
    (Frame.start source root position notes : Frame S A).LiteralsFirst g line := by
  intro before s after nodes split
  simp [Frame.start, View.empty] at split

theorem Frame.standsAt_start (source : S) (root : NodeId) (position : Nat) (notes : List Note) :
    (Frame.start source root position notes : Frame S A).StandsAt root :=
  ⟨[], rfl, rfl⟩

theorem Frame.LiteralsFirst.adds (first : f.LiteralsFirst g line) (stands : f.StandsAt id)
    (adds : f.Adds (s :: new) f') (places : new = [] ∨ s.matched.node? = none)
    (here : ∀ child, g.NamesLiteral id (line.seek s.span.start) child →
      s = ⟨.node child, ⟨s.span.start, (line.seek s.span.start).readWord.2.position⟩⟩) :
    f'.LiteralsFirst g line := by
  intro before t after nodes split only child names
  rw [adds.root] at names
  rw [adds.steps] at split
  obtain ⟨standing, same, rfl⟩ := stands
  rcases List.append_eq_append_iff.mp split with ⟨more, rfl, behind⟩ | ⟨rest, old, behind⟩
  · cases more with
    | nil =>
      obtain ⟨rfl, -⟩ := List.cons_eq_cons.mp behind
      rw [List.append_nil] at only
      have equal : standing = nodes :=
        List.map_injective_iff.mpr (fun _ _ h => Matched.node.inj h) (same.symm.trans only)
      exact here child (equal ▸ names)
    | cons first more =>
      -- The step would be among the nodes before, with others behind it.
      obtain ⟨rfl, rfl⟩ := List.cons_eq_cons.mp behind
      rcases places with none | place
      · simp at none
      · have node : s.matched ∈ nodes.map Matched.node := by
          rw [← only]
          simp
        obtain ⟨n, -, same⟩ := List.mem_map.mp node
        simp [← same, Matched.node?] at place
  · cases rest with
    | nil =>
      obtain ⟨rfl, -⟩ := List.cons_eq_cons.mp behind
      rw [List.append_nil] at old
      subst old
      have equal : standing = nodes :=
        List.map_injective_iff.mpr (fun _ _ h => Matched.node.inj h) (same.symm.trans only)
      exact here child (equal ▸ names)
    | cons first rest =>
      obtain ⟨rfl, -⟩ := List.cons_eq_cons.mp behind
      exact first before t rest nodes old only child names

end Frames

namespace Grammar

variable {g : Grammar S A} {id child : NodeId} {i line : Input} {c : Context S A} {p : Parse S A}

theorem Takes.literalsFirst (sound : g.Sound) (reached : line.Reaches i) (takes : g.Takes id c i child)
    (stands : c.toFrame.StandsAt id) (first : c.toFrame.LiteralsFirst g line) :
    ((g.node child).matchChild child c i).context.toFrame.StandsAt child ∧
      ((g.node child).matchChild child c i).context.toFrame.LiteralsFirst g line := by
  have adds := takes.adds sound
  refine ⟨stands.node adds, first.adds stands adds (.inl rfl) fun literal names => ?_⟩
  have names : g.NamesLiteral id i literal := reached.seek_eq ▸ names
  obtain rfl := names.eq_of_mem_candidates sound takes.tried
  simp only [reached.seek_eq, names.input_matchChild c]

theorem literalsFirst_matchComposed (sound : g.Sound) (laid : line.Laid) (reached : line.Reaches i)
    {members : Composed} (tried : child ∈ g.candidates id c.source i)
    (composed : (g.node child).composed? = some members) (stands : c.toFrame.StandsAt id)
    (first : c.toFrame.LiteralsFirst g line) :
    ((g.node child).matchComposed g child members c i).context.toFrame.LiteralsFirst g line := by
  obtain ⟨new, adds, -, -⟩ :=
    ((g.node child).records_matchComposed g members child (reached.laid laid) c).added
  apply first.adds stands ((c.adds_record _ _).trans adds) (.inr rfl)
  intro literal names
  have names : g.NamesLiteral id i literal := reached.seek_eq ▸ names
  obtain rfl := names.eq_of_mem_candidates sound tried
  simp [names.composed?_eq_none] at composed

theorem Route.literalsFirst (sound : g.Sound) (route : g.Route id c i p) (laid : line.Laid)
    (reached : line.Reaches i) (stands : c.toFrame.StandsAt id)
    (first : ∀ f ∈ c.frames, f.LiteralsFirst g line) :
    ∀ f ∈ p.context.frames, f.LiteralsFirst g line := by
  simp only [Context.frames, List.forall_mem_cons] at first ⊢
  induction route with
  | stop faults => exact first
  | @composed id child c i members faults tried composed told =>
    have kept := ((g.node child).records_matchComposed g members child (reached.laid laid) c).redirected
    rw [kept]
    exact ⟨literalsFirst_matchComposed sound laid reached tried composed stands first.1, first.2⟩
  | @ended id child c i takes last =>
    rw [Node.redirected_matchChild takes.matched]
    exact ⟨(takes.literalsFirst sound reached stands first.1).2, first.2⟩
  | @deeper id child c i p takes more stays rest ih =>
    have next := reached.trans (g.reaches_next (reached.laid laid) c child)
    obtain ⟨stands, here⟩ := takes.literalsFirst sound reached stands first.1
    apply ih next stands
    rw [Node.redirected_matchChild takes.matched]
    exact ⟨here, first.2⟩
  | @redirect id child target c i p takes more redirect rest ih =>
    have next := reached.trans (g.reaches_next (reached.laid laid) c child)
    have here := (takes.literalsFirst sound reached stands first.1).2
    have later := ih next (Frame.standsAt_start _ _ _ _)
      ⟨Frame.literalsFirst_start _ _ _ _, by simp [Context.freshChild, Context.ofFrame]⟩
    exact ⟨here, List.forall_mem_cons.mpr later⟩

end Grammar

/-- Below any node and at any place of any line, a literal that is named by the next word is matched there
if the source may use it and its action can be settled, and otherwise nothing is. In what is found in the
end nothing else stands where a literal was named. -/
theorem Grammar.Reachable.literals_first {g : Grammar S A} (reachable : g.Reachable) (r : Rendering)
    (values : List Value) (n : Nat) :
    let i := (Input.ofValues r values).seek n
    (∀ id child c, g.NamesLiteral id i child → g.SettlesLiteral id c i child) ∧
    ∀ source, ∀ f ∈ (g.parse source i).context.frames, f.LiteralsFirst g i := by
  intro i
  have sound := reachable.sound
  have laid : i.Laid := Input.laid_ofValues r values n
  refine ⟨fun id child c names => names.settles sound (Input.isRow_ofValues r values n) c, ?_⟩
  intro source
  apply (g.route_parse source i).literalsFirst sound laid laid.refl (Frame.standsAt_start _ _ _ _)
  simpa [Context.frames, Context.start, Context.ofFrame] using Frame.literalsFirst_start _ _ _ _

def Demo.greeters : Grammar User Deed :=
  (Grammar.empty.register .root
    (.literal "greet" {}
      [.literal "all" (doing .greetSelf none) [], .argument "name" .word (doing .greet none) []])).1

theorem Demo.greet_all_first :
    let line := Input.ofValues .standard [.ofString "greet", .ofString "all"]
    let p := greeters.parse ⟨"console", true⟩ (line.seek 0)
    greeters.SettlesLiteral 1 (.start ⟨"console", true⟩ 1 6) (line.seek 6) 2 ∧
      (∀ f ∈ p.context.frames, f.LiteralsFirst greeters (line.seek 0)) ∧
      p.context.steps.map Step.matched = [.node 1, .node 2] := by
  have reachable : greeters.Reachable := .register .root _ .empty
  refine ⟨(reachable.literals_first .standard _ 6).1 1 2 _ ?_,
    (reachable.literals_first .standard _ 0).2 _, by decide +kernel⟩
  exact ⟨by decide, "all", rfl, by decide⟩

end CommandGrammar
