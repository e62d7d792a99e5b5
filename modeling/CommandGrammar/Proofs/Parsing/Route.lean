import CommandGrammar.Proofs.Grammar.Soundness
import CommandGrammar.Proofs.Parsing.Branching
import CommandGrammar.Proofs.Parsing.Findings

set_option autoImplicit false

namespace CommandGrammar

variable {S A : Type}

namespace Grammar

structure Takes (g : Grammar S A) (id : NodeId) (c : Context S A) (i : Input) (child : NodeId) : Prop where
  tried : child ∈ g.candidates id c.source i
  plain : (g.node child).composed? = none
  matched : ((g.node child).matchChild child c i).fault = none

/-- The branch that a parse below a node has taken. Where it stops without a child the complaints may be
any, and a composed argument leaves one if it has failed. -/
inductive Route (g : Grammar S A) : NodeId → Context S A → Input → Parse S A → Prop
  | stop {id : NodeId} {c : Context S A} {i : Input} (faults : List (NodeId × Fault)) :
    g.Route id c i ⟨c, i, faults⟩
  | composed {id child : NodeId} {c : Context S A} {i : Input} {members : Composed}
      {faults : List (NodeId × Fault)} : child ∈ g.candidates id c.source i →
    (g.node child).composed? = some members →
    (faults = [] ↔ ((g.node child).matchComposed g child members c i).fault = none) →
    g.Route id c i ⟨((g.node child).matchComposed g child members c i).context,
      ((g.node child).matchComposed g child members c i).input, faults⟩
  | ended {id child : NodeId} {c : Context S A} {i : Input} : g.Takes id c i child →
    ((g.node child).matchChild child c i).input.hasMore = false →
    g.Route id c i ⟨((g.node child).matchChild child c i).context,
      ((g.node child).matchChild child c i).input, []⟩
  | deeper {id child : NodeId} {c : Context S A} {i : Input} {p : Parse S A} : g.Takes id c i child →
    ((g.node child).matchChild child c i).input.hasMore = true → (g.node child).redirect = none →
    g.Route child ((g.node child).matchChild child c i).context
      ((g.node child).matchChild child c i).input.readChar.2 p →
    g.Route id c i p
  | redirect {id child target : NodeId} {c : Context S A} {i : Input} {p : Parse S A} :
    g.Takes id c i child → ((g.node child).matchChild child c i).input.hasMore = true →
    (g.node child).redirect = some target →
    g.Route target
      (((g.node child).matchChild child c i).context.freshChild target
        ((g.node child).matchChild child c i).input.readChar.2.position)
      ((g.node child).matchChild child c i).input.readChar.2 p →
    g.Route id c i
      { p with context := ((g.node child).matchChild child c i).context.redirectTo p.context }

end Grammar

def Trial.Gives (P : Parse S A → Prop) : Trial S A → Prop
  | .decided p => P p
  | .stuck c i _ => ∀ faults, faults ≠ [] → P ⟨c, i, faults⟩
  | .matched p => P p
  | .rejected _ => True

namespace Grammar

variable {g : Grammar S A} {id child : NodeId} {c : Context S A} {i : Input} {p : Parse S A}

theorem tryChildren_gives {P : Parse S A → Prop} {trial : NodeId → Trial S A} {tried : List NodeId}
    (stays : ∀ faults, P ⟨c, i, faults⟩) (gives : ∀ child ∈ tried, (trial child).Gives P)
    (faults : List (NodeId × Fault)) {found : List (Parse S A)} (known : ∀ p ∈ found, P p) :
    P (tryChildren trial c i tried faults found) := by
  induction tried generalizing faults found with
  | nil =>
    rw [tryChildren]
    cases best : Parse.best found with
    | none => exact stays faults
    | some p =>
      obtain ⟨before, after, rfl, -⟩ := Parse.best_eq_some best
      exact known p (by simp)
  | cons child rest ih =>
    have first := gives child (by simp)
    have later := fun b member => gives b (List.mem_cons_of_mem _ member)
    rw [tryChildren]
    cases outcome : trial child with
    | decided p => exact (outcome ▸ first : (Trial.decided p).Gives P)
    | stuck d j f => exact (outcome ▸ first : (Trial.stuck d j f).Gives P) _ (by simp)
    | rejected f => exact ih later _ known
    | matched p =>
      have new : P p := (outcome ▸ first : (Trial.matched p).Gives P)
      refine ih later _ fun q member => ?_
      rcases List.mem_append.mp member with old | same
      · exact known q old
      · exact List.mem_singleton.mp same ▸ new

theorem route_tryChild {below : NodeId → Context S A → Input → Parse S A}
    (routes : ∀ id c i, g.Route id c i (below id c i)) (tried : child ∈ g.candidates id c.source i) :
    (g.tryChild below c i child).Gives (g.Route id c i) := by
  cases composed : (g.node child).composed? with
  | some members =>
    rw [tryChild_composed composed]
    cases fault : ((g.node child).matchComposed g child members c i).fault with
    | none => exact .composed tried composed (by simp [fault])
    | some f => exact fun faults some => .composed tried composed (by simp [fault, some])
  | none =>
    cases fault : ((g.node child).matchChild child c i).fault with
    | some f =>
      rw [tryChild_rejected composed fault]
      trivial
    | none =>
      have takes : g.Takes id c i child := ⟨tried, composed, fault⟩
      cases more : ((g.node child).matchChild child c i).input.hasMore with
      | false =>
        rw [tryChild_ended composed fault more]
        exact .ended takes more
      | true =>
        cases redirect : (g.node child).redirect with
        | none =>
          rw [tryChild_below composed fault more redirect]
          exact .deeper takes more redirect (routes _ _ _)
        | some target =>
          rw [tryChild_redirect composed fault more redirect]
          exact .redirect takes more redirect (routes _ _ _)

theorem route_parseWithin (g : Grammar S A) (depth : Nat) (id : NodeId) (c : Context S A) (i : Input) :
    g.Route id c i (g.parseWithin depth id c i) := by
  induction depth generalizing id c i with
  | zero => exact .stop []
  | succ depth ih =>
    rw [parseWithin]
    exact tryChildren_gives .stop (fun child tried => route_tryChild ih tried) [] (by simp)

theorem route_parseBelow (g : Grammar S A) (id : NodeId) (c : Context S A) (i : Input) :
    g.Route id c i (g.parseBelow id c i) :=
  g.route_parseWithin _ id c i

theorem route_parse (g : Grammar S A) (source : S) (i : Input) :
    g.Route .root (.start source .root i.position) i (g.parse source i) :=
  g.route_parseBelow .root _ i

theorem Sound.mem_children_of_mem_candidates (sound : g.Sound) {source : S}
    (member : child ∈ g.candidates id source i) : child ∈ (g.node id).children :=
  sound.mem_children_of_mem_relevant (List.mem_filter.mp member).1

theorem Takes.mem_children (sound : g.Sound) (takes : g.Takes id c i child) :
    child ∈ (g.node id).children :=
  sound.mem_children_of_mem_candidates takes.tried

theorem Takes.adds (sound : g.Sound) (takes : g.Takes id c i child) :
    c.toFrame.Adds [⟨.node child, ⟨i.position, ((g.node child).matchChild child c i).input.position⟩⟩]
      ((g.node child).matchChild child c i).context.toFrame :=
  (Node.adds_matchChild (sound.isRoot_of_mem_children (takes.mem_children sound)) takes.plain
    takes.matched).1

theorem reaches_next (laid : i.Laid) (c : Context S A) (child : NodeId) :
    i.Reaches ((g.node child).matchChild child c i).input.readChar.2 := by
  have reached := (g.node child).reaches_matchChild laid child c
  exact reached.trans (reached.laid laid).reaches_readChar

theorem Route.reaches (route : g.Route id c i p) (laid : i.Laid) : i.Reaches p.rest := by
  induction route with
  | stop faults => exact laid.refl
  | @composed id child c i members faults tried composed told =>
    exact ((g.node child).records_matchComposed g members child laid c).reached
  | @ended id child c i takes last => exact (g.node child).reaches_matchChild laid child c
  | @deeper id child c i p takes more stays rest ih =>
    have next := g.reaches_next laid c child
    exact next.trans (ih (next.laid laid))
  | @redirect id child target c i p takes more redirect rest ih =>
    have next := g.reaches_next laid c child
    exact next.trans (ih (next.laid laid))

theorem Route.onward (sound : g.Sound) (route : g.Route id c i p) (laid : i.Laid) :
    c.steps <+: p.context.steps ∧ i.Reaches p.rest := by
  refine ⟨?_, route.reaches laid⟩
  induction route with
  | stop faults => exact List.prefix_rfl
  | @composed id child c i members faults tried composed told =>
    obtain ⟨new, adds, -, -⟩ := ((g.node child).records_matchComposed g members child laid c).added
    rw [((c.adds_record _ _).trans adds).steps]
    exact List.prefix_append _ _
  | @ended id child c i takes last =>
    rw [(takes.adds sound).steps]
    exact List.prefix_append _ _
  | @deeper id child c i p takes more stays rest ih =>
    have kept := ih ((g.reaches_next laid c child).laid laid)
    rw [(takes.adds sound).steps] at kept
    exact (List.prefix_append _ _).trans kept
  | @redirect id child target c i p takes more redirect rest ih =>
    change c.steps <+: ((g.node child).matchChild child c i).context.steps
    rw [(takes.adds sound).steps]
    exact List.prefix_append _ _

end Grammar

end CommandGrammar
