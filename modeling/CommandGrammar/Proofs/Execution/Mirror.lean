import CommandGrammar.Proofs.Execution.Levels

set_option autoImplicit false

namespace CommandGrammar.Execution

variable {S A : Type} {g h : Grammar S A} {i j : Input} {alike : Context S A → Context S A → Prop}
  {c d : Context S A}

structure Mirrors (g h : Grammar S A) (i j : Input) (alike : Context S A → Context S A → Prop) :
    Prop where
  child : ∀ {c d}, alike c d → Option.Rel alike c.child? d.child?
  executesChild : ∀ {c d}, alike c d → d.executesChild = c.executesChild
  steps : ∀ {c d}, alike c d → d.steps.isEmpty = c.steps.isEmpty
  handed : ∀ {c d}, alike c d → ∀ s,
    (d.runAs j s).redirectedSources h = (c.runAs i s).redirectedSources g

namespace Mirrors

variable (mirrors : Mirrors g h i j alike)
include mirrors

theorem descend (same : alike c d) (k : Nat) : alike (c.descend k) (d.descend k) := by
  induction k generalizing c d with
  | zero => exact same
  | succ k ih =>
    have below := mirrors.child same
    rw [Context.descend, Context.descend]
    cases child : c.child? <;> cases child' : d.child? <;> rw [child, child'] at below <;> cases below
    · exact same
    · rename_i related
      exact ih related

theorem isFinal (same : alike c d) : d.isFinal = c.isFinal := by
  have more (c : Context S A) : c.hasChild = c.child?.isSome := by
    cases frames : c.redirected <;> simp [Context.hasChild, Context.child?, frames]
  have below := mirrors.child same
  rw [Context.isFinal, Context.isFinal, mirrors.executesChild same, more, more]
  cases child : c.child? <;> cases child' : d.child? <;> rw [child, child'] at below <;> cases below
  rfl

theorem landsAt (same : alike c d) {m : Nat} (lands : c.LandsAt m) : d.LandsAt m := by
  refine ⟨?_, fun k below => ?_⟩
  · rw [mirrors.isFinal (mirrors.descend same m)]
    exact lands.1
  · rw [mirrors.isFinal (mirrors.descend same k)]
    exact lands.2 k below

theorem sourcesBelow_eq (same : alike c d) (sources : List S) :
    sourcesBelow h j d sources = sourcesBelow g i c sources := by
  simp only [Execution.sourcesBelow_eq, mirrors.steps (mirrors.descend same 1), mirrors.handed same]

theorem failuresBelow_eq (same : alike c d) (sources : List S) :
    failuresBelow h j d sources = failuresBelow g i c sources := by
  simp only [Execution.failuresBelow_eq, mirrors.steps (mirrors.descend same 1), mirrors.handed same]

theorem sourcesAt_eq (same : alike c d) (sources : List S) (k : Nat) :
    sourcesAt h j d sources k = sourcesAt g i c sources k := by
  induction k with
  | zero => rfl
  | succ k ih => rw [sourcesAt, sourcesAt, ih, mirrors.sourcesBelow_eq (mirrors.descend same k)]

theorem failuresAbove_eq (same : alike c d) (sources : List S) (m : Nat) :
    failuresAbove h j d sources m = failuresAbove g i c sources m := by
  simp only [failuresAbove, mirrors.sourcesAt_eq same,
    mirrors.failuresBelow_eq (mirrors.descend same _)]

end Mirrors

end CommandGrammar.Execution
