import CommandGrammar.Proofs.Execution.Levels
import CommandGrammar.Proofs.Grammar.Forest
import CommandGrammar.Proofs.Parsing.Findings
import CommandGrammar.Proofs.Parsing.Trail

set_option autoImplicit false

namespace CommandGrammar

variable {S A : Type} {c : Context S A} {i : Input} {id : NodeId}

inductive Grammar.Admits (g : Grammar S A) (source : S) : Matched → Prop
  | child {parent id : NodeId} : id ∈ (g.node parent).children →
    (g.node id).usableBy source = true → g.Admits source (.node id)
  | place {parent owner : NodeId} {matched : Matched} : owner ∈ (g.node parent).children →
    (g.node owner).usableBy source = true → matched.composed? = some owner → g.Admits source matched
  | member {parent owner m : NodeId} {members : Composed} : owner ∈ (g.node parent).children →
    (g.node owner).usableBy source = true → (g.node owner).composed? = some members →
    m ∈ members.sequence → g.Admits source (.node m)

def Frame.Chosen (g : Grammar S A) (f : Frame S A) (id : NodeId) (action : Action A) : Prop :=
  (∃ s ∈ f.steps, s.matched.node? = some id ∨ s.matched.composed? = some id) ∧
    ∃ choose view, (g.node id).choose = some choose ∧ choose view = .ok action

structure Frame.Admitted (g : Grammar S A) (source : S) (f : Frame S A) : Prop where
  onBehalf : f.source = source
  steps : ∀ s ∈ f.steps, g.Admits source s.matched
  action : ∀ action, f.action = some action →
    ∃ id, (g.node id).usableBy source = true ∧ f.Chosen g id action

namespace Frame.Admitted

variable {g : Grammar S A} {source : S} {f f' : Frame S A} {new : List Step}

theorem start (g : Grammar S A) (source : S) (root : NodeId) (position : Nat) (notes : List Note) :
    (Frame.start source root position notes : Frame S A).Admitted g source :=
  ⟨rfl, fun _ member => absurd member List.not_mem_nil, by simp [Frame.start]⟩

theorem adds (admitted : f.Admitted g source) (id : NodeId) (adds : f.Adds new f')
    (proper : ∀ s ∈ new, g.Admits source s.matched) (usable : (g.node id).usableBy source = true)
    (recorded : ∃ s ∈ new, s.matched.node? = some id ∨ s.matched.composed? = some id)
    (chosen : ∀ action, f'.action = some action → f.action = some action ∨
      ∃ choose view, (g.node id).choose = some choose ∧ choose view = .ok action) :
    f'.Admitted g source := by
  refine ⟨adds.source.trans admitted.onBehalf, ?_, ?_⟩
  · intro s member
    rw [adds.steps, List.mem_append] at member
    rcases member with old | new
    · exact admitted.steps s old
    · exact proper s new
  · intro action settled
    rcases chosen action settled with old | own
    · obtain ⟨before, usable', ⟨s, member, same⟩, own⟩ := admitted.action action old
      exact ⟨before, usable', ⟨s, by simp [adds.steps, member], same⟩, own⟩
    · obtain ⟨s, member, same⟩ := recorded
      exact ⟨id, usable, ⟨s, by simp [adds.steps, member], same⟩, own⟩

section Child

variable {parent : NodeId} (admitted : c.toFrame.Admitted g source)
  (child : id ∈ (g.node parent).children) (usable : (g.node id).usableBy source = true)
include admitted child usable

theorem matchChild (sound : g.Sound) (plain : (g.node id).composed? = none)
    (matched : ((g.node id).matchChild id c i).fault = none) :
    ((g.node id).matchChild id c i).context.toFrame.Admitted g source := by
  have adds := (Node.adds_matchChild (sound.isRoot_of_mem_children child) plain matched).1
  apply admitted.adds id adds
  · simpa using Grammar.Admits.child child usable
  · exact usable
  · exact ⟨_, List.mem_cons_self, .inl rfl⟩
  · intro action settled
    rw [Node.context_matchChild matched] at settled
    have word := ((g.node id).finds_matchWord id c i).action_eq
    rw [← word]
    exact (g.node id).action_settle _ _ settled

theorem matchComposed (laid : i.Laid) {members : Composed}
    (composed : (g.node id).composed? = some members) :
    ((g.node id).matchComposed g id members c i).context.toFrame.Admitted g source := by
  obtain ⟨new, adds, own, -⟩ :=
    ((g.node id).records_matchComposed g members id laid c).added
  apply admitted.adds id ((c.adds_record _ _).trans adds)
  · intro s member
    rcases List.mem_append.mp member with first | later
    · rw [List.mem_singleton.mp first]
      exact .place child usable rfl
    · rcases own s later with place | ⟨m, inside, same⟩
      · exact .place child usable place
      · rw [same]
        exact .member child usable composed inside
  · exact usable
  · exact ⟨_, List.mem_cons_self, .inr rfl⟩
  · intro action settled
    have finds := (Composed.finds_read g id members c i).action_eq
    simp only [Node.matchComposed, Attempt.asMalformed, Attempt.andThen] at settled
    cases fault : (members.read g id c i).fault with
    | none =>
      simp only [fault] at settled
      rw [← finds]
      exact (g.node id).action_settle _ _ settled
    | some f =>
      simp only [fault] at settled
      exact .inl (finds ▸ settled)

end Child

end Frame.Admitted

namespace Grammar

variable {g : Grammar S A} {source : S}

theorem Route.admitted (sound : g.Sound) {p : Parse S A} (route : g.Route id c i p) (laid : i.Laid)
    (free : c.redirected = []) (admitted : c.toFrame.Admitted g source) :
    ∀ f ∈ p.context.frames, f.Admitted g source := by
  have usable {id child : NodeId} {c : Context S A} {i : Input} (admitted : c.toFrame.Admitted g source)
      (tried : child ∈ g.candidates id c.source i) : (g.node child).usableBy source = true := by
    rw [← admitted.onBehalf]
    exact (List.mem_filter.mp tried).2
  simp only [Context.frames, List.forall_mem_cons]
  induction route with
  | stop faults => exact ⟨admitted, by simp [free]⟩
  | @composed id child c i members faults tried composed =>
    have ended := admitted.matchComposed (sound.mem_children_of_mem_candidates tried)
      (usable admitted tried) laid composed
    have kept := ((g.node child).records_matchComposed g members child laid c).redirected.trans free
    exact ⟨ended, by simp [kept]⟩
  | @ended id child c i takes =>
    have matched := admitted.matchChild (takes.mem_children sound) (usable admitted takes.tried)
      sound takes.plain takes.matched
    have kept := (Node.redirected_matchChild takes.matched).trans free
    exact ⟨matched, by simp [kept]⟩
  | @deeper id child c i p takes more stays rest ih =>
    have matched := admitted.matchChild (takes.mem_children sound) (usable admitted takes.tried)
      sound takes.plain takes.matched
    have next := (g.reaches_next laid c child).laid laid
    exact ih next ((Node.redirected_matchChild takes.matched).trans free) matched
  | @redirect id child target c i p takes more redirect rest ih =>
    have matched := admitted.matchChild (takes.mem_children sound) (usable admitted takes.tried)
      sound takes.plain takes.matched
    have next := (g.reaches_next laid c child).laid laid
    -- The frame behind a redirection is read for the source of the one before it.
    have fresh : (((g.node child).matchChild child c i).context.freshChild target
        ((g.node child).matchChild child c i).input.readChar.2.position).toFrame.Admitted g source := by
      rw [← matched.onBehalf]
      exact .start g _ _ _ _
    exact ⟨matched, List.forall_mem_cons.mpr (ih next rfl fresh)⟩

theorem Sound.admitted_parseWithin (sound : g.Sound) (depth : Nat) (id : NodeId) (laid : i.Laid)
    (free : c.redirected = []) (admitted : c.toFrame.Admitted g source) :
    ∀ f ∈ (g.parseWithin depth id c i).context.frames, f.Admitted g source :=
  (g.route_parseWithin depth id c i).admitted sound laid free admitted

end Grammar

structure Frame.Permitted (g : Grammar S A) (source : S) (f : Frame S A) : Prop where
  onBehalf : f.source = source
  children : ∀ s ∈ f.steps, ∀ id parent, s.matched = .node id → id ∈ (g.node parent).children →
    (g.node id).usableBy source = true
  places : ∀ s ∈ f.steps, ∀ id, s.matched.composed? = some id → (g.node id).usableBy source = true
  members : ∀ s ∈ f.steps, ∀ id, s.matched = .node id →
    (∀ parent, id ∉ (g.node parent).children) →
    ∃ owner members, (g.node owner).usableBy source = true ∧
      (g.node owner).composed? = some members ∧ id ∈ members.sequence
  action : ∀ action, f.action = some action →
    ∃ id, (g.node id).usableBy source = true ∧ f.Chosen g id action

theorem Frame.Admitted.permitted {g : Grammar S A} (forest : g.Forest) {source : S} {f : Frame S A}
    (admitted : f.Admitted g source) : f.Permitted g source := by
  refine ⟨admitted.onBehalf, ?_, ?_, ?_, admitted.action⟩
  · intro s member id parent same child
    have admits := admitted.steps s member
    rw [same] at admits
    cases admits with
    | child _ usable => exact usable
    | place _ _ place => simp [Matched.composed?] at place
    | @member _ owner _ members _ _ composed inside =>
      have role := Node.role_of_composed? composed
      exact absurd child (forest.apart owner members role id inside parent)
  · intro s member id place
    cases admits : s.matched with
    | node m => simp [Matched.composed?, admits] at place
    | _ =>
      have proper := admitted.steps s member
      rw [admits] at place proper
      cases proper with
      | place _ usable own =>
        obtain rfl := Option.some.inj (own.symm.trans place)
        exact usable
  · intro s member id same stray
    have admits := admitted.steps s member
    rw [same] at admits
    cases admits with
    | child child _ => exact absurd child (stray _)
    | place _ _ place => simp [Matched.composed?] at place
    | member _ usable composed inside => exact ⟨_, _, usable, composed, inside⟩

theorem Context.toFrame_descend_mem (c : Context S A) (m : Nat) :
    (c.descend m).toFrame ∈ c.frames := by
  induction m generalizing c with
  | zero => simp [frames]
  | succ m ih =>
    cases child : c.child? with
    | none => simp [descend, child, frames]
    | some d =>
      rw [descend_succ child]
      have below := ih d
      rw [frames_child child] at below
      exact List.mem_cons_of_mem _ below

namespace Run

variable {E : Type}

theorem InTurn.exists_of_mem {runs : List (Run E Unit)} {total : Run E Nat} (turn : InTurn runs total)
    {e : E} (member : e ∈ total.events) : ∃ r ∈ runs, e ∈ r.events := by
  rcases turn with ⟨-, rfl⟩ | ⟨before, failing, after, f, rfl, -, -, rfl⟩
  · exact List.mem_flatMap.mp member
  · rcases List.mem_append.mp member with early | last
    · obtain ⟨r, inside, event⟩ := List.mem_flatMap.mp early
      exact ⟨r, by simp [inside], event⟩
    · exact ⟨failing, by simp, last⟩

end Run

namespace Parse

variable {E : Type}

theorem exists_of_mem_execute (g : Grammar S A) (perform : Context S A → Action A → Run E Unit)
    (p : Parse S A) {e : E} (member : e ∈ (p.execute g perform).events) :
    ∃ m s action, (p.context.descend m).action = some action ∧
      e ∈ (perform ((p.context.descend m).runAs p.rest s) action).events := by
  cases complete : p.isComplete with
  | false =>
    obtain ⟨f, check⟩ := check_of_not_isComplete complete
    simp [execute, check, Run.fail] at member
  | true =>
    obtain ⟨m, lands⟩ := p.context.exists_landsAt
    have runs := runsAt_of_landsAt g perform complete lands
    cases failing : p.failuresAbove g m with
    | cons f rest =>
      rw [runs.fails f (by simp [failing])] at member
      simp [Run.fail] at member
    | nil =>
      by_cases idle : p.sourcesAt g m = [] ∨ (p.context.descend m).action = none
      · rw [runs.nothing_ran failing idle] at member
        simp [Run.fail] at member
      · rw [not_or] at idle
        obtain ⟨action, chosen⟩ := Option.ne_none_iff_exists'.mp idle.2
        obtain ⟨r, inside, event⟩ :=
          (runs.in_turn action failing idle.1 chosen).exists_of_mem member
        obtain ⟨s, -, rfl⟩ := List.mem_map.mp inside
        exact ⟨m, s, action, chosen, event⟩

end Parse

/-- Whatever the line, its parse has recorded nothing that its source may not use; and whatever running it
does, an action did that all frames above lead to, and the source may use what these recorded as well. -/
theorem Grammar.Reachable.parse_permitted {g : Grammar S A} (reachable : g.Reachable) (source : S)
    (r : Rendering) (values : List Value) (n : Nat) :
    let p := g.parse source ((Input.ofValues r values).seek n)
    (∀ f ∈ p.context.frames, f.Permitted g source) ∧
    ∀ (E : Type) (perform : Context S A → Action A → Run E Unit) (e : E),
      e ∈ (p.execute g perform).events →
      ∃ m s action, (p.context.descend m).action = some action ∧
        e ∈ (perform ((p.context.descend m).runAs p.rest s) action).events ∧
        ∀ k ≤ m, (p.context.descend k).toFrame.Permitted g source := by
  intro p
  have laid := Input.laid_ofValues r values n
  have permitted : ∀ f ∈ p.context.frames, f.Permitted g source := fun f member =>
    (reachable.sound.admitted_parseWithin _ .root laid rfl
      (Frame.Admitted.start g source .root _ []) f member).permitted reachable.forest
  refine ⟨permitted, ?_⟩
  intro E perform e member
  obtain ⟨m, s, action, chosen, event⟩ := p.exists_of_mem_execute g perform member
  exact ⟨m, s, action, chosen, event, fun k _ => permitted _ (p.context.toFrame_descend_mem k)⟩

theorem Demo.everyone_shutdown_permitted :
    let p := grammar.parse ⟨"console", true⟩
      ((Input.ofValues .standard [.ofString "everyone shutdown"]).seek 0)
    (∀ f ∈ p.context.frames, f.Permitted grammar ⟨"console", true⟩) ∧
      (p.execute grammar (shell {}).perform).events = ["Shutting down", "Shutting down"] :=
  ⟨(reachable_grammar.parse_permitted _ _ _ _).1, by decide +kernel⟩

end CommandGrammar
