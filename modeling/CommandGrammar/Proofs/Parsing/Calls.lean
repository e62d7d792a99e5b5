import CommandGrammar.Demo.Commands
import CommandGrammar.Proofs.Parsing.Findings
import CommandGrammar.Proofs.Parsing.Trail

set_option autoImplicit false

namespace CommandGrammar

variable {S A : Type}

structure Call (S A : Type) where
  node : NodeId
  context : Context S A
  input : Input

namespace Grammar

variable (g : Grammar S A)

def callBehind (a : Attempt S A) (child : NodeId) : Call S A :=
  let next := a.input.readChar.2
  match (g.node child).redirect with
  | none => ⟨child, a.context, next⟩
  | some target => ⟨target, a.context.freshChild target next.position, next⟩

def call? (c : Context S A) (i : Input) (child : NodeId) : Option (Call S A) :=
  if (g.node child).isComposed then none
  else
    let a := (g.node child).matchChild child c i
    if a.fault.isNone && a.input.hasMore then some (g.callBehind a child) else none

def callsFor (c : Context S A) (i : Input) : List NodeId → List (Call S A)
  | [] => []
  | child :: rest =>
    (g.call? c i child).toList ++ if g.decides c i child then [] else callsFor c i rest

def calls (k : Call S A) : List (Call S A) :=
  g.callsFor k.context k.input (g.candidates k.node k.context.source k.input)

def answer (below : NodeId → Context S A → Input → Parse S A) (k : Call S A) : Parse S A :=
  tryChildren (g.tryChild below k.context k.input) k.context k.input
    (g.candidates k.node k.context.source k.input) [] []

/-- A call ends with a parse, calls being inside one another to the given depth at most. -/
inductive Ends (g : Grammar S A) : Nat → Call S A → Parse S A → Prop
  | call {depth : Nat} {k : Call S A} {below : NodeId → Context S A → Input → Parse S A} :
    (∀ k' ∈ g.calls k, g.Ends depth k' (below k'.node k'.context k'.input)) →
    g.Ends (depth + 1) k (g.answer below k)

end Grammar

namespace Grammar

section Trials

variable {g : Grammar S A} {below below' : NodeId → Context S A → Input → Parse S A}
  {c : Context S A} {i : Input} {child : NodeId} {k : Call S A}

theorem call?_eq_some : g.call? c i child = some k ↔
    (g.node child).composed? = none ∧ ((g.node child).matchChild child c i).fault = none ∧
      ((g.node child).matchChild child c i).input.hasMore = true ∧
      g.callBehind ((g.node child).matchChild child c i) child = k := by
  simp [call?, Node.isComposed, and_assoc]

theorem input_callBehind (a : Attempt S A) : (g.callBehind a child).input = a.input.readChar.2 := by
  unfold callBehind
  cases (g.node child).redirect <;> rfl

theorem tryChild_congr_call
    (same : ∀ k, g.call? c i child = some k →
      below k.node k.context k.input = below' k.node k.context k.input) :
    g.tryChild below c i child = g.tryChild below' c i child := by
  cases composed : (g.node child).composed? with
  | some members => rw [tryChild_composed composed, tryChild_composed composed]
  | none =>
    cases fault : ((g.node child).matchChild child c i).fault with
    | some f => rw [tryChild_rejected composed fault, tryChild_rejected composed fault]
    | none =>
      cases more : ((g.node child).matchChild child c i).input.hasMore with
      | false => rw [tryChild_ended composed fault more, tryChild_ended composed fault more]
      | true =>
        have asked := same _ (call?_eq_some.mpr ⟨composed, fault, more, rfl⟩)
        cases redirect : (g.node child).redirect with
        | none =>
          simp only [callBehind, redirect] at asked
          rw [tryChild_below composed fault more redirect, tryChild_below composed fault more redirect,
            asked]
        | some target =>
          simp only [callBehind, redirect] at asked
          simp only [tryChild_redirect composed fault more redirect, asked]

theorem settled?_isSome_of_decides (decides : g.decides c i child = true) :
    (g.tryChild below c i child).settled?.isSome = true := by
  cases composed : (g.node child).composed? with
  | some members =>
    rw [tryChild_composed composed]
    split <;> rfl
  | none =>
    simp only [Grammar.decides, isMatch, attempt, Node.isComposed, composed, Option.isSome_none,
      Bool.false_or, Bool.and_eq_true, Option.isNone_iff_eq_none, Option.isSome_iff_exists] at decides
    obtain ⟨⟨matched, more⟩, target, redirect⟩ := decides
    rw [tryChild_redirect composed matched more redirect]
    rfl

theorem tryChildren_congr_calls {tried : List NodeId}
    (same : ∀ k ∈ g.callsFor c i tried,
      below k.node k.context k.input = below' k.node k.context k.input)
    (faults : List (NodeId × Fault)) (found : List (Parse S A)) :
    tryChildren (g.tryChild below c i) c i tried faults found =
      tryChildren (g.tryChild below' c i) c i tried faults found := by
  induction tried generalizing faults found with
  | nil => rfl
  | cons child rest ih =>
    have first : g.tryChild below c i child = g.tryChild below' c i child := by
      apply tryChild_congr_call
      intro k asked
      apply same k
      simp [callsFor, asked]
    have later (undecided : g.decides c i child ≠ true) := ih fun k member =>
      same k (by simp [callsFor, undecided, member])
    rw [tryChildren, tryChildren, first]
    by_cases decides : g.decides c i child = true
    · have settled : (g.tryChild below' c i child).settled?.isSome = true :=
        settled?_isSome_of_decides decides
      cases trial : g.tryChild below' c i child <;> simp [trial, Trial.settled?] at settled ⊢
    · cases g.tryChild below' c i child <;> simp [later decides]

end Trials

variable {g : Grammar S A} {k k' : Call S A}

theorem answer_congr {below below' : NodeId → Context S A → Input → Parse S A}
    (same : ∀ k' ∈ g.calls k,
      below k'.node k'.context k'.input = below' k'.node k'.context k'.input) :
    g.answer below k = g.answer below' k :=
  tryChildren_congr_calls same [] []

theorem exists_of_mem_callsFor {c : Context S A} {i : Input} {tried : List NodeId}
    (member : k ∈ g.callsFor c i tried) : ∃ child ∈ tried, g.call? c i child = some k := by
  induction tried with
  | nil => simp [callsFor] at member
  | cons child rest ih =>
    rw [callsFor, List.mem_append, Option.mem_toList] at member
    rcases member with here | later
    · exact ⟨child, by simp, here⟩
    · split at later
      · simp at later
      · obtain ⟨other, inside, asked⟩ := ih later
        exact ⟨other, by simp [inside], asked⟩

theorem reaches_of_call? {c : Context S A} {i : Input} {child : NodeId} (laid : i.Laid)
    (asked : g.call? c i child = some k) : i.Reaches k.input ∧ i.position < k.input.position := by
  obtain ⟨-, -, more, rfl⟩ := call?_eq_some.mp asked
  have reached := (g.node child).reaches_matchChild laid child c
  rw [input_callBehind]
  exact ⟨g.reaches_next laid c child,
    Nat.lt_of_le_of_lt reached.forward ((reached.laid laid).readChar_lt more)⟩

theorem reaches_of_mem_calls (laid : k.input.Laid) (member : k' ∈ g.calls k) :
    k.input.Reaches k'.input ∧ k.input.position < k'.input.position := by
  obtain ⟨child, -, asked⟩ := exists_of_mem_callsFor member
  exact reaches_of_call? laid asked

theorem length_le_of_isChain {ks : List (Call S A)} (laid : k.input.Laid)
    (chain : (k :: ks).IsChain fun k k' => k' ∈ g.calls k) :
    k.input.position + ks.length ≤ k.input.length := by
  induction ks generalizing k with
  | nil => simpa using laid.position_le
  | cons k' ks ih =>
    rw [List.isChain_cons_cons] at chain
    obtain ⟨reached, further⟩ := reaches_of_mem_calls laid chain.1
    -- Every call in the chain has taken at least one position more.
    have rest := ih (reached.laid laid) chain.2
    rw [reached.length] at rest
    simp only [List.length_cons]
    omega

theorem answer_parseBelow (laid : k.input.Laid) :
    g.answer g.parseBelow k = g.parseBelow k.node k.context k.input :=
  (g.parseBelow_eq laid k.node k.context).symm

theorem ends_parseBelow {depth : Nat} (laid : k.input.Laid)
    (enough : k.input.length - k.input.position < depth) :
    g.Ends depth k (g.parseBelow k.node k.context k.input) := by
  induction depth generalizing k with
  | zero => omega
  | succ depth ih =>
    rw [← answer_parseBelow laid]
    apply Ends.call
    intro k' member
    obtain ⟨reached, further⟩ := reaches_of_mem_calls laid member
    have length := reached.length
    have within := reached.within
    exact ih (reached.laid laid) (by omega)

theorem Ends.eq_parseBelow {depth : Nat} {p : Parse S A} (ends : g.Ends depth k p)
    (laid : k.input.Laid) : p = g.parseBelow k.node k.context k.input := by
  induction ends with
  | @call depth k below _ ih =>
    rw [← answer_parseBelow laid]
    apply answer_congr
    intro k' member
    exact ih k' member ((reaches_of_mem_calls laid member).1.laid laid)

structure Hops (i : Input) (c : Context S A) (j : Input) : Prop where
  reached : i.Reaches j
  length_redirected : i.position + c.redirected.length ≤ j.position

section Redirections

variable {id : NodeId} {c : Context S A} {i : Input}

theorem Hops.stay (laid : i.Laid) (free : c.redirected = []) : Hops i c i :=
  ⟨laid.refl, by simp [free]⟩

theorem Route.hops {p : Parse S A} (route : g.Route id c i p) (laid : i.Laid) (free : c.redirected = []) :
    Hops i p.context p.rest := by
  induction route with
  | stop faults => exact .stay laid free
  | @composed id child c i members =>
    have records := (g.node child).records_matchComposed g members child laid c
    have kept : ((g.node child).matchComposed g child members c i).context.redirected = [] :=
      records.redirected.trans free
    exact ⟨records.reached, by simpa [kept] using records.reached.forward⟩
  | @ended id child c i takes =>
    have reached := (g.node child).reaches_matchChild laid child c
    have kept := (Node.redirected_matchChild takes.matched).trans free
    exact ⟨reached, by simpa [kept] using reached.forward⟩
  | @deeper id child c i p takes more stays rest ih =>
    have next := g.reaches_next laid c child
    have hops := ih (next.laid laid) ((Node.redirected_matchChild takes.matched).trans free)
    have forward := next.forward
    have within := hops.length_redirected
    exact ⟨next.trans hops.reached, by omega⟩
  | @redirect id child target c i p takes more redirect rest ih =>
    have reached := (g.node child).reaches_matchChild laid child c
    have further := Nat.lt_of_le_of_lt reached.forward ((reached.laid laid).readChar_lt more)
    have next := g.reaches_next laid c child
    have hops := ih (next.laid laid) rfl
    have within := hops.length_redirected
    refine ⟨next.trans hops.reached, ?_⟩
    -- The frame behind the redirection counts for the separator in front of it.
    simp only [Context.redirectTo, Context.frames, List.length_cons]
    omega

theorem hops_parseWithin (depth : Nat) (id : NodeId) (laid : i.Laid) (free : c.redirected = []) :
    Hops i (g.parseWithin depth id c i).context (g.parseWithin depth id c i).rest :=
  (g.route_parseWithin depth id c i).hops laid free

end Redirections

/-- In whatever circles redirections go, each call stands further on in the line than the one that
makes it, parsing ends with what it answers and with nothing else, and it has redirected at most once
for each position. -/
theorem parse_ends (g : Grammar S A) (r : Rendering) (values : List Value) (n : Nat) :
    let i := (Input.ofValues r values).seek n
    (∀ id c, ∀ k ∈ g.calls ⟨id, c, i⟩,
      i.position < k.input.position ∧ k.input = i.seek k.input.position) ∧
    (∀ id c ks, List.IsChain (fun k k' => k' ∈ g.calls k) (⟨id, c, i⟩ :: ks) →
      (⟨id, c, i⟩ :: ks).length ≤ i.length - i.position + 1) ∧
    (∀ id c, g.Ends (i.length - i.position + 1) ⟨id, c, i⟩ (g.parseBelow id c i)) ∧
    (∀ id c depth p, g.Ends depth ⟨id, c, i⟩ p → p = g.parseBelow id c i) ∧
    ∀ source, (g.parse source i).context.redirected.length ≤ i.length - i.position := by
  intro i
  have laid : i.Laid := Input.laid_ofValues r values n
  refine ⟨?_, ?_, ?_, ?_, ?_⟩
  · intro id c k member
    obtain ⟨reached, further⟩ := reaches_of_mem_calls (k := ⟨id, c, i⟩) laid member
    exact ⟨further, reached.seek_eq.symm⟩
  · intro id c ks chain
    have depth := length_le_of_isChain laid chain
    simp only [List.length_cons] at depth ⊢
    omega
  · intro id c
    exact ends_parseBelow (k := ⟨id, c, i⟩) laid (Nat.lt_succ_self _)
  · intro id c depth p ends
    exact ends.eq_parseBelow laid
  · intro source
    have hops := hops_parseWithin (g := g) (c := .start source .root i.position)
      (i.length - i.position + 1) .root laid rfl
    have within := hops.reached.within
    have redirections : i.position + (g.parse source i).context.redirected.length ≤
        (g.parse source i).rest.position := hops.length_redirected
    have rest : (g.parse source i).rest.position ≤ i.length := within
    omega

example :
    let i := Input.ofValues .standard [.ofString "everyone everyone", .ofString "", .ofString "whoami"]
    let p := Demo.grammar.parse ⟨"console", true⟩ i
    p.isComplete = true ∧ p.context.frames.map (fun f => f.span) = [⟨0, 8⟩, ⟨9, 17⟩, ⟨18, 26⟩] := by
  decide +kernel

end Grammar

end CommandGrammar
