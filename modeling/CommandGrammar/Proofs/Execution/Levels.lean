import Mathlib.Logic.ExistsUnique
import CommandGrammar.Demo.Commands

/-!
The waves of a run against the levels of its redirect chain. All contexts of a wave are one context of
the chain on behalf of several sources, so a run comes down to lists of sources, one for every level.
-/

set_option autoImplicit false

namespace CommandGrammar

namespace Run

variable {E : Type}

def sequence : List (Run E Unit) → Run E Nat
  | [] => .done 0
  | r :: rest => r.andThen fun _ => (sequence rest).andThen fun n => .done (n + 1)

def InTurn (runs : List (Run E Unit)) (total : Run E Nat) : Prop :=
  ((∀ r ∈ runs, r.result = .ok ()) ∧ total = ⟨runs.flatMap (·.events), .ok runs.length⟩) ∨
  ∃ before failing after f, runs = before ++ failing :: after ∧
    (∀ r ∈ before, r.result = .ok ()) ∧ failing.result = .error f ∧
    total = ⟨before.flatMap (·.events) ++ failing.events, .error f⟩

theorem sequence_inTurn (runs : List (Run E Unit)) : InTurn runs (sequence runs) := by
  induction runs with
  | nil => exact .inl ⟨by simp, rfl⟩
  | cons r rest ih =>
    cases h : r.result with
    | error f =>
      refine .inr ⟨[], r, rest, f, rfl, by simp, h, ?_⟩
      simp [sequence, andThen, h]
    | ok _ =>
      rcases ih with ⟨passing, total⟩ | ⟨before, failing, after, f, split, passing, fails, total⟩
      · refine .inl ⟨by simpa [h] using passing, ?_⟩
        simp [sequence, andThen, h, total, done]
      · refine .inr ⟨r :: before, failing, after, f, by simp [split], by simpa [h] using passing,
          fails, ?_⟩
        simp [sequence, andThen, h, total]

theorem InTurn.counted {runs : List (Run E Unit)} {total : Run E Nat} (h : InTurn runs total)
    (present : runs ≠ []) (f : Fault) :
    (total.andThen fun count => if count = 0 then .fail f else .done count) = total := by
  rcases h with ⟨-, rfl⟩ | ⟨before, failing, after, g, -, -, -, rfl⟩
  · have positive : runs.length ≠ 0 := by simpa using present
    simp [andThen, positive, done]
  · rfl

theorem InTurn.total_eq {runs : List (Run E Unit)} {total : Run E Nat} (h : InTurn runs total)
    (passing : ∀ r ∈ runs, r.result = .ok ()) : total = ⟨runs.flatMap (·.events), .ok runs.length⟩ := by
  rcases h with ⟨-, rfl⟩ | ⟨before, failing, after, f, rfl, -, fails, -⟩
  · rfl
  · exact absurd (fails.symm.trans (passing failing (by simp))) (by simp)

theorem andThen_done_self {α : Type} (r : Run E α) : (r.andThen fun a => .done a) = r := by
  obtain ⟨events, result⟩ := r
  cases result <;> simp [andThen, done]

end Run

namespace Context

variable {S A : Type}

def descend (c : Context S A) : Nat → Context S A
  | 0 => c
  | k + 1 =>
    match c.child? with
    | none => c
    | some child => child.descend k

def isFinal (c : Context S A) : Bool := !(c.hasChild && c.executesChild)

def LandsAt (c : Context S A) (m : Nat) : Prop :=
  (c.descend m).isFinal = true ∧ ∀ k < m, (c.descend k).isFinal = false

def redirecting? (g : Grammar S A) (c : Context S A) : Option (Node S A) :=
  (c.steps.filterMap (·.matched.node?)).getLast?.bind g.node?

theorem redirecting?_eq (g : Grammar S A) (c : Context S A) : c.redirecting? g = c.lastNode? g := by
  rw [redirecting?, lastNode?, View.lastNode?, List.getLast?_eq_head?_reverse, ← List.filterMap_reverse,
    List.head?_filterMap]

@[simp] theorem descend_zero (c : Context S A) : c.descend 0 = c := by simp [descend]

theorem descend_succ {c d : Context S A} (h : c.child? = some d) (k : Nat) :
    c.descend (k + 1) = d.descend k := by
  simp [descend, h]

theorem length_redirected {c d : Context S A} (h : c.child? = some d) :
    c.redirected.length = d.redirected.length + 1 := by
  rw [← frames_child h]
  rfl

theorem child_of_not_final {c : Context S A} (h : c.isFinal = false) :
    ∃ d, c.child? = some d ∧ c.executesChild = true := by
  simp only [isFinal, hasChild, Bool.not_eq_false', Bool.and_eq_true] at h
  cases frames : c.redirected with
  | nil => simp [frames] at h
  | cons frame rest =>
    exact ⟨{ frame with redirected := rest, input := none }, by simp [child?, frames], h.2⟩

theorem exists_landsAt (c : Context S A) : ∃ m, c.LandsAt m := by
  induction n : c.redirected.length generalizing c with
  | zero =>
    refine ⟨0, ?_, by simp⟩
    simp [isFinal, hasChild, List.length_eq_zero_iff.mp n]
  | succ n ih =>
    by_cases final : c.isFinal = true
    · exact ⟨0, by simpa using final, by simp⟩
    · rw [Bool.not_eq_true] at final
      obtain ⟨d, child, -⟩ := child_of_not_final final
      obtain ⟨m, last, earlier⟩ := ih d (by have := length_redirected child; omega)
      refine ⟨m + 1, by rwa [descend_succ child], ?_⟩
      intro k below
      cases k with
      | zero => simpa using final
      | succ k => rw [descend_succ child]; exact earlier k (by omega)

theorem LandsAt.below {c d : Context S A} {m : Nat} (h : c.LandsAt (m + 1))
    (child : c.child? = some d) : d.LandsAt m := by
  refine ⟨by simpa [descend_succ child] using h.1, ?_⟩
  intro k below
  simpa [descend_succ child] using h.2 (k + 1) (by omega)

theorem LandsAt.unique {c : Context S A} {m n : Nat} (h : c.LandsAt m) (h' : c.LandsAt n) : m = n := by
  rcases Nat.lt_trichotomy m n with before | same | behind
  · exact absurd h.1 (by simp [h'.2 m before])
  · exact same
  · exact absurd h'.1 (by simp [h.2 n behind])

@[simp] theorem child?_runAs (c : Context S A) (i : Input) (source : S) :
    (c.runAs i source).child? = c.child? := rfl

end Context

namespace Execution

variable {S A E : Type}

-- What is answered for a source where a context redirects. Without a modifier that is the source itself; a
-- modifier sees the context on behalf of the source.
def answerFor (g : Grammar S A) (i : Input) (c : Context S A) (s : S) : Except Fault (List S) :=
  match (c.redirecting? g).bind fun n => n.modifier with
  | none => .ok [s]
  | some modifier => modifier { c with source := s, input := some i }

def sourcesBelow (g : Grammar S A) (i : Input) (c : Context S A) (sources : List S) : List S :=
  if (c.descend 1).steps.isEmpty then []
  else sources.flatMap fun s =>
    match answerFor g i c s with
    | .ok handed => handed
    | .error _ => []

def failuresBelow (g : Grammar S A) (i : Input) (c : Context S A) (sources : List S) : List Fault :=
  if (c.descend 1).steps.isEmpty || (c.redirecting? g).any (fun n => n.forked) then []
  else sources.filterMap fun s =>
    match answerFor g i c s with
    | .ok _ => none
    | .error f => some f

def sourcesAt (g : Grammar S A) (i : Input) (c : Context S A) (sources : List S) : Nat → List S
  | 0 => sources
  | k + 1 => sourcesBelow g i (c.descend k) (sourcesAt g i c sources k)

def failuresAbove (g : Grammar S A) (i : Input) (c : Context S A) (sources : List S) (m : Nat) :
    List Fault :=
  (List.range m).flatMap fun k => failuresBelow g i (c.descend k) (sourcesAt g i c sources k)

variable (g : Grammar S A) (i : Input)

theorem redirectedSources_runAs (c : Context S A) (s : S) :
    (c.runAs i s).redirectedSources g =
      match answerFor g i c s with
      | .ok sources => .ok sources
      | .error f => if (c.redirecting? g).any (fun n => n.forked) then .ok [] else .error f := by
  have same : (c.runAs i s).lastNode? g = c.redirecting? g := (c.redirecting?_eq g).symm
  have forks : (c.runAs i s).isForked g = (c.redirecting? g).any (fun n => n.forked) := by
    rw [Context.isForked, same]
    cases c.redirecting? g <;> rfl
  rw [Context.redirectedSources, Context.modifier?, same, forks, answerFor]
  cases (c.redirecting? g).bind fun n => n.modifier with
  | none => rfl
  | some modifier => rfl

theorem sourcesBelow_eq (c : Context S A) (sources : List S) :
    sourcesBelow g i c sources =
      if (c.descend 1).steps.isEmpty then []
      else sources.flatMap fun s =>
        match (c.runAs i s).redirectedSources g with
        | .ok handed => handed
        | .error _ => [] := by
  simp only [sourcesBelow, redirectedSources_runAs]
  congr 2
  funext s
  cases answerFor g i c s with
  | ok handed => rfl
  | error f => cases (c.redirecting? g).any (fun n => n.forked) <;> rfl

theorem failuresBelow_eq (c : Context S A) (sources : List S) :
    failuresBelow g i c sources =
      if (c.descend 1).steps.isEmpty then []
      else sources.filterMap fun s =>
        match (c.runAs i s).redirectedSources g with
        | .ok _ => none
        | .error f => some f := by
  simp only [failuresBelow, redirectedSources_runAs]
  cases forks : (c.redirecting? g).any (fun n => n.forked) with
  | true =>
    simp only [Bool.or_true, if_true]
    split
    · rfl
    · refine (List.filterMap_eq_nil_iff.mpr fun s _ => ?_).symm
      cases answerFor g i c s <;> rfl
  | false =>
    simp only [Bool.or_false]
    congr 2
    funext s
    cases answerFor g i c s <;> rfl

theorem sourcesAt_succ {c d : Context S A} (h : c.child? = some d) (sources : List S) (k : Nat) :
    sourcesAt g i c sources (k + 1) = sourcesAt g i d (sourcesBelow g i c sources) k := by
  induction k with
  | zero => simp [sourcesAt]
  | succ k ih => rw [sourcesAt, ih, Context.descend_succ h, sourcesAt]

theorem failuresAbove_succ {c d : Context S A} (h : c.child? = some d) (sources : List S) (m : Nat) :
    failuresAbove g i c sources (m + 1) =
      failuresBelow g i c sources ++ failuresAbove g i d (sourcesBelow g i c sources) m := by
  simp only [failuresAbove, List.range_succ_eq_map, List.flatMap_cons, List.flatMap_map]
  simp only [sourcesAt_succ g i h, Context.descend_succ h]
  simp [sourcesAt]

variable (perform : Context S A → Action A → Run E Unit)

theorem runWaves_succ (n : Nat) (wave : List (Context S A)) :
    runWaves g i perform (n + 1) wave =
      (runWave g i perform wave).andThen fun first =>
        (runWaves g i perform n first.next).andThen fun later => .done (first.count + later) := by
  cases wave with
  | nil => cases n <;> rfl
  | cons c rest => rfl

theorem runWaves_nil (n : Nat) : runWaves g i perform n [] = .done 0 := by
  cases n <;> rfl

theorem runContext_final {c : Context S A} (h : c.isFinal = true) (s : S) :
    runContext g i perform (c.runAs i s) = runAction i perform (c.runAs i s) := by
  cases child : c.child? with
  | none => simp [runContext, child]
  | some d =>
    have stays : c.executesChild = false := by
      cases frames : c.redirected with
      | nil => simp [Context.child?, frames] at child
      | cons frame rest => simpa [Context.isFinal, Context.hasChild, frames] using h
    have same : (c.runAs i s).executesChild = c.executesChild := rfl
    simp [runContext, child, same, stays]

theorem runContext_redirecting {c d : Context S A} (child : c.child? = some d)
    (executes : c.executesChild = true) (s : S) :
    runContext g i perform (c.runAs i s) =
      if d.steps.isEmpty then .done ⟨[], 0⟩
      else match (c.runAs i s).redirectedSources g with
        | .ok sources => .done ⟨sources.map (d.runAs i), 0⟩
        | .error f => .fail f := by
  have same : (c.runAs i s).executesChild = true := executes
  cases answer : (c.runAs i s).redirectedSources g <;>
    simp only [runContext, Context.child?_runAs, child, same, answer, Bool.not_true,
      Bool.false_eq_true, if_false]

theorem runWave_redirecting {c d : Context S A} (child : c.child? = some d)
    (executes : c.executesChild = true) (sources : List S) :
    runWave g i perform (sources.map (c.runAs i)) =
      match (failuresBelow g i c sources).head? with
      | some f => .fail f
      | none => .done ⟨(sourcesBelow g i c sources).map (d.runAs i), 0⟩ := by
  have below : c.descend 1 = d := by simp [Context.descend_succ child]
  rw [failuresBelow_eq, sourcesBelow_eq, below]
  induction sources with
  | nil => simp [runWave]
  | cons s rest ih =>
    rw [List.map_cons, runWave, ih, runContext_redirecting g i perform child executes]
    by_cases empty : d.steps.isEmpty = true
    · simp [empty]
    · cases answer : (c.runAs i s).redirectedSources g with
      | error f => simp [empty, answer]
      | ok handed =>
        simp only [empty, answer, List.filterMap_cons, List.flatMap_cons, List.map_append,
          Bool.false_eq_true, if_false]
        generalize rest.filterMap _ = failures
        cases failures <;> simp

theorem runWave_of_action_none {c : Context S A} (final : c.isFinal = true)
    (action : c.action = none) (s : S) (rest : List S) :
    runWave g i perform (c.runAs i s :: rest.map (c.runAs i)) = .fail (.nothingRan i) := by
  have same : (c.runAs i s).action = none := action
  simp [runWave, runContext_final g i perform final, runAction, same]

theorem runWave_of_action {c : Context S A} (final : c.isFinal = true) {a : Action A}
    (action : c.action = some a) (sources : List S) :
    runWave g i perform (sources.map (c.runAs i)) =
      (Run.sequence (sources.map fun s => perform (c.runAs i s) a)).andThen fun n =>
        .done ⟨[], n⟩ := by
  induction sources with
  | nil => rfl
  | cons s rest ih =>
    have same : (c.runAs i s).action = some a := action
    rw [List.map_cons, runWave, runContext_final g i perform final, ih, List.map_cons, Run.sequence,
      runAction, same]
    cases first : (perform (c.runAs i s) a).result with
    | error f => simp [Run.andThen, first]
    | ok _ =>
      cases others : (Run.sequence (rest.map fun s => perform (c.runAs i s) a)).result with
      | error f => simp [Run.andThen, Run.done, first, others]
      | ok n => simp [Run.andThen, Run.done, first, others, Nat.add_comm]

def landing (c : Context S A) (sources : List S) : Run E Nat :=
  match c.action, sources with
  | _, [] => .done 0
  | none, _ :: _ => .fail (.nothingRan i)
  | some a, _ :: _ => .sequence (sources.map fun s => perform (c.runAs i s) a)

theorem landing_of_action {c : Context S A} {a : Action A} (action : c.action = some a)
    {sources : List S} (present : sources ≠ []) :
    landing i perform c sources = .sequence (sources.map fun s => perform (c.runAs i s) a) := by
  cases sources with
  | nil => exact absurd rfl present
  | cons s rest => simp [landing, action]

theorem runWaves_final {c : Context S A} (final : c.isFinal = true) (sources : List S) (n : Nat) :
    runWaves g i perform (n + 1) (sources.map (c.runAs i)) = landing i perform c sources := by
  cases sources with
  | nil =>
    rw [List.map_nil, runWaves_nil]
    cases action : c.action <;> simp [landing]
  | cons s rest =>
    rw [runWaves_succ]
    cases action : c.action with
    | none => simp [runWave_of_action_none g i perform final action, landing, action]
    | some a =>
      rw [runWave_of_action g i perform final action,
        landing_of_action i perform action (List.cons_ne_nil _ _)]
      generalize Run.sequence _ = runs
      obtain ⟨events, result⟩ := runs
      cases result <;> simp [Run.andThen, Run.done, runWaves_nil]

-- The induction goes along the chain; the list of sources is what carries it.
theorem runWaves_eq_landing {c : Context S A} {m n : Nat} (lands : c.LandsAt m)
    (enough : c.redirected.length < n) (sources : List S) :
    runWaves g i perform n (sources.map (c.runAs i)) =
      match (failuresAbove g i c sources m).head? with
      | some f => .fail f
      | none => landing i perform (c.descend m) (sourcesAt g i c sources m) := by
  induction m generalizing c n sources with
  | zero =>
    obtain ⟨n, rfl⟩ : ∃ k, n = k + 1 := ⟨n - 1, by omega⟩
    simpa [failuresAbove, sourcesAt] using
      runWaves_final g i perform (by simpa using lands.1) sources n
  | succ m ih =>
    obtain ⟨n, rfl⟩ : ∃ k, n = k + 1 := ⟨n - 1, by omega⟩
    obtain ⟨d, child, executes⟩ := Context.child_of_not_final (by simpa using lands.2 0 (by omega))
    have shorter := Context.length_redirected child
    rw [runWaves_succ, runWave_redirecting g i perform child executes,
      failuresAbove_succ g i child, sourcesAt_succ g i child, Context.descend_succ child]
    cases failing : (failuresBelow g i c sources).head? with
    | some f =>
      have first : (failuresBelow g i c sources ++
          failuresAbove g i d (sourcesBelow g i c sources) m).head? = some f := by
        simp [List.head?_append, failing]
      simp [first]
    | none =>
      have none : failuresBelow g i c sources = [] := List.head?_eq_none_iff.mp failing
      simp only [none, List.nil_append, Run.andThen_done, Nat.zero_add]
      rw [Run.andThen_done_self]
      exact ih (lands.below child) (by omega) _

end Execution

namespace Parse

open Execution

variable {S A E : Type}

def sourcesAt (g : Grammar S A) (p : Parse S A) (m : Nat) : List S :=
  Execution.sourcesAt g p.rest p.context [p.context.source] m

def failuresAbove (g : Grammar S A) (p : Parse S A) (m : Nat) : List Fault :=
  Execution.failuresAbove g p.rest p.context [p.context.source] m

/-- A run told by the level at which it lands: a failure above decides it before any action has run, and
otherwise the action of that level runs for its sources in order. -/
structure RunsAt (g : Grammar S A) (perform : Context S A → Action A → Run E Unit) (p : Parse S A)
    (m : Nat) : Prop where
  lands : p.context.LandsAt m
  fails : ∀ f, (p.failuresAbove g m).head? = some f → p.execute g perform = .fail f
  nothing_ran : p.failuresAbove g m = [] →
    p.sourcesAt g m = [] ∨ (p.context.descend m).action = none →
    p.execute g perform = .fail (.nothingRan p.rest)
  in_turn : ∀ a, p.failuresAbove g m = [] → p.sourcesAt g m ≠ [] →
    (p.context.descend m).action = some a →
    Run.InTurn
      ((p.sourcesAt g m).map fun s =>
        perform { p.context.descend m with source := s, input := some p.rest } a)
      (p.execute g perform)

theorem check_of_not_isComplete {p : Parse S A} (incomplete : p.isComplete = false) :
    ∃ f, p.check = .error f := by
  simp only [check, incomplete, Bool.false_eq_true, if_false]
  split
  · exact ⟨_, rfl⟩
  · split <;> exact ⟨_, rfl⟩

theorem execute_eq_landing (g : Grammar S A) (perform : Context S A → Action A → Run E Unit)
    {p : Parse S A} (complete : p.isComplete = true) {m : Nat} (lands : p.context.LandsAt m) :
    p.execute g perform =
      match (p.failuresAbove g m).head? with
      | some f => .fail f
      | none =>
        (landing p.rest perform (p.context.descend m) (p.sourcesAt g m)).andThen fun count =>
          if count = 0 then .fail (.nothingRan p.rest) else .done count := by
  have check : p.check = .ok () := by simp [check, complete]
  have waves : runWaves g p.rest perform (p.context.runAs p.rest p.context.source).frames.length
      [p.context.runAs p.rest p.context.source] = _ :=
    runWaves_eq_landing g p.rest perform lands (Nat.lt_succ_self _) [p.context.source]
  simp only [execute, check, waves]
  cases failing : (p.failuresAbove g m).head? with
  | none => rw [failuresAbove] at failing; rw [failing]; rfl
  | some f => rw [failuresAbove] at failing; rw [failing]; rfl

theorem runsAt_of_landsAt (g : Grammar S A) (perform : Context S A → Action A → Run E Unit)
    {p : Parse S A} (complete : p.isComplete = true) {m : Nat} (lands : p.context.LandsAt m) :
    p.RunsAt g perform m := by
  have run := execute_eq_landing g perform complete lands
  refine ⟨lands, ?_, ?_, ?_⟩
  · intro f failing
    rw [run, failing]
  · intro passing idle
    rw [run, passing, List.head?_nil]
    -- Without sources nothing runs, and with sources there is no action to run.
    cases sources : p.sourcesAt g m with
    | nil => simp [landing]
    | cons s rest =>
      have idle : (p.context.descend m).action = none := by simpa [sources] using idle
      simp [landing, idle]
  · intro a passing present action
    rw [run, passing, List.head?_nil]
    simp only [landing_of_action p.rest perform action present]
    have turn := Run.sequence_inTurn
      ((p.sourcesAt g m).map fun s => perform ((p.context.descend m).runAs p.rest s) a)
    rw [turn.counted (by simpa using present)]
    exact turn

theorem execute_of_isComplete (g : Grammar S A) (perform : Context S A → Action A → Run E Unit)
    (p : Parse S A) (complete : p.isComplete = true) : ∃! m, p.RunsAt g perform m := by
  obtain ⟨m, lands⟩ := p.context.exists_landsAt
  exact ⟨m, runsAt_of_landsAt g perform complete lands, fun n runs => runs.lands.unique lands⟩

theorem execute_of_isFinal (g : Grammar S A) (perform : Context S A → Action A → Run E Unit)
    {p : Parse S A} (complete : p.isComplete = true) (final : p.context.isFinal = true) {a : Action A}
    (action : p.context.action = some a) :
    p.execute g perform =
      (perform (p.context.runAs p.rest p.context.source) a).andThen fun _ => .done 1 := by
  have lands : p.context.LandsAt 0 := ⟨final, fun k below => absurd below (Nat.not_lt_zero k)⟩
  have run : p.execute g perform =
      (landing p.rest perform p.context [p.context.source]).andThen fun count =>
        if count = 0 then .fail (.nothingRan p.rest) else .done count :=
    execute_eq_landing g perform complete lands
  rw [run, landing_of_action p.rest perform action (List.cons_ne_nil _ _)]
  simp only [List.map_cons, List.map_nil, Run.sequence, Run.andThen_done]
  generalize perform (p.context.runAs p.rest p.context.source) a = first
  obtain ⟨events, result⟩ := first
  cases result <;> simp [Run.andThen, Run.done]

end Parse

namespace Demo

def awake (c : Context User Deed) : Except Fault (List User) :=
  if c.source.name = "bob" then .error (.failed "bob is asleep" none) else .ok [c.source]

-- Literals that hand a line on: to three users, to whoever of them is awake, or to nobody.
def relays : Grammar User Deed :=
  [Blueprint.literal "all"
      { redirect := some .root
        modifier := some fun _ => .ok (["alice", "bob", "carol"].map .actingAs) } [],
    .literal "awake" { redirect := some .root, forked := true, modifier := some awake } [],
    .literal "strict" { redirect := some .root, modifier := some awake } [],
    .literal "nobody" { redirect := some .root, modifier := some fun _ => .ok [] } [],
    .literal "whoami" (doing .whoami none) []].foldl
      (fun g command => (g.register .root command).1) .empty

def runner (c : Context User Deed) (_ : Action Deed) : Run String Unit := printed c.source.name

end Demo

-- Bob drops out of the fork, and fails the line where there is none.
theorem Demo.relays_runsAt :
    let parse (line : String) := relays.parse ⟨"console", true⟩ (.ofText line)
    (∃ m, (parse "all awake whoami").RunsAt relays runner m ∧ m = 2 ∧
        (parse "all awake whoami").sourcesAt relays m = [.actingAs "alice", .actingAs "carol"]) ∧
      (parse "all awake whoami").execute relays runner = ⟨["alice", "carol"], .ok 2⟩ ∧
      (parse "all strict whoami").execute relays runner = .fail (.failed "bob is asleep" none) ∧
      (parse "nobody whoami").execute relays runner = .fail (.nothingRan (parse "nobody whoami").rest) := by
  intro parse
  have landing (line : String) (m : Nat) (complete : (parse line).isComplete = true)
      (lands : (parse line).context.LandsAt m) : (parse line).RunsAt relays runner m := by
    obtain ⟨n, runs, -⟩ := (parse line).execute_of_isComplete relays runner complete
    rwa [runs.lands.unique lands] at runs
  have all := landing "all awake whoami" 2 (by decide) (by unfold Context.LandsAt; decide)
  have strict := landing "all strict whoami" 2 (by decide) (by unfold Context.LandsAt; decide)
  have nobody := landing "nobody whoami" 1 (by decide) (by unfold Context.LandsAt; decide)
  have awake : (parse "all awake whoami").sourcesAt relays 2 = [.actingAs "alice", .actingAs "carol"] :=
    by decide
  refine ⟨⟨2, all, rfl, awake⟩, ?_, strict.fails _ (by decide), nobody.nothing_ran (by decide) (by decide)⟩
  have turn := all.in_turn (.custom .whoami) (by decide) (by decide) (by decide)
  rw [awake] at turn
  exact turn.total_eq (by simp [runner, printed])

end CommandGrammar
