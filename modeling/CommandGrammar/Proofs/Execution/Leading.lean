import CommandGrammar.Proofs.Execution.Mirror
import CommandGrammar.Proofs.Grammar.Reachable
import CommandGrammar.Proofs.Parsing.Leading

set_option autoImplicit false

namespace CommandGrammar

variable {S A E : Type} {g : Grammar S A} {i j : Input} {d : Nat}

namespace Context

theorem child?_shift (c : Context S A) : (c.shift d).child? = c.child?.map (·.shift d) := by
  cases frames : c.redirected with
  | nil => simp [child?, shift, frames]
  | cons frame rest =>
    simp only [child?, shift, frames, List.map_cons, Option.map_some]

theorem isEmpty_steps_shift (c : Context S A) : (c.shift d).steps.isEmpty = c.steps.isEmpty := by
  simp [shift, Frame.shift, View.shift]

theorem lastNode?_shift (v : View) : (v.shift d).lastNode? = v.lastNode? := by
  simp [View.shift, View.lastNode?, List.findSome?_map, ← List.map_reverse, Function.comp_def, Step.shift]

theorem redirectedSources_shift (free : g.PlaceFree) (c : Context S A) (s : S) :
    ((c.shift d).runAs j s).redirectedSources g = (c.runAs i s).redirectedSources g := by
  have last : ((c.shift d).runAs j s).lastNode? g = (c.runAs i s).lastNode? g :=
    congrArg (·.bind g.node?) (lastNode?_shift c.toView)
  have modifiers : ((c.shift d).runAs j s).modifier? g = (c.runAs i s).modifier? g :=
    congrArg (·.bind fun n => n.modifier) last
  have forks : ((c.shift d).runAs j s).isForked g = (c.runAs i s).isForked g := by
    rw [isForked, isForked, last]
  simp only [redirectedSources, modifiers, forks]
  cases modifier : (c.runAs i s).modifier? g with
  | none => rfl
  | some f =>
    obtain ⟨n, node, known⟩ := Option.bind_eq_some_iff.mp modifier
    obtain ⟨id, -, found⟩ := Option.bind_eq_some_iff.mp node
    have same : f ((c.shift d).runAs j s) = f (c.runAs i s) :=
      free.modifier id f (by rw [Grammar.node_of_node? found, known]) (c.runAs i s) d (some j)
    simp only [same]

end Context

theorem Grammar.PlaceFree.mirrors (free : g.PlaceFree) (d : Nat) (i j : Input) :
    Execution.Mirrors g g i j fun c c' => c' = c.shift d where
  child := by
    rintro c - rfl
    rw [Context.child?_shift]
    cases c.child? with
    | none => exact .none
    | some below => exact .some rfl
  executesChild := by rintro c - rfl; rfl
  steps := by rintro c - rfl; exact c.isEmpty_steps_shift
  handed := by rintro c - rfl s; exact c.redirectedSources_shift free s

theorem Run.InTurn.length_eq {runs : List (Run E Unit)} {total : Run E Nat} {n : Nat}
    (h : InTurn runs total) (ok : total.result = .ok n) : n = runs.length := by
  rcases h with ⟨-, rfl⟩ | ⟨before, failing, after, f, -, -, -, rfl⟩
  · exact (Except.ok.inj ok).symm
  · exact absurd ok (by simp)

theorem Run.InTurn.passing {runs : List (Run E Unit)} {total : Run E Nat} {n : Nat}
    (h : InTurn runs total) (ok : total.result = .ok n) : ∀ r ∈ runs, r.result = .ok () := by
  rcases h with ⟨passing, -⟩ | ⟨before, failing, after, f, -, -, -, rfl⟩
  · exact passing
  · exact absurd ok (by simp)

namespace Parse

variable {perform : Context S A → Action A → Run E Unit} {p q : Parse S A} {n : Nat}

theorem isComplete_of_execute (ok : (p.execute g perform).result = .ok n) : p.isComplete = true := by
  by_contra incomplete
  obtain ⟨f, checked⟩ := check_of_not_isComplete (Bool.not_eq_true _ ▸ incomplete)
  simp [execute, checked, Run.fail] at ok

theorem RunsAt.of_ok {m : Nat} (h : p.RunsAt g perform m) (ok : (p.execute g perform).result = .ok n) :
    p.failuresAbove g m = [] ∧ p.sourcesAt g m ≠ [] ∧ ∃ a, (p.context.descend m).action = some a := by
  have passing : p.failuresAbove g m = [] := by
    cases failing : (p.failuresAbove g m).head? with
    | none => exact List.head?_eq_none_iff.mp failing
    | some f => simp [h.fails f failing, Run.fail] at ok
  have busy : ¬ (p.sourcesAt g m = [] ∨ (p.context.descend m).action = none) := by
    intro idle
    simp [h.nothing_ran passing idle, Run.fail] at ok
  rw [not_or] at busy
  exact ⟨passing, busy.1, Option.ne_none_iff_exists'.mp busy.2⟩

variable {r : NodeId} {name : String} {source : S}

theorem Follows.handsOn (leads : g.LeadsBack r name source) (h : q.Follows r name source p)
    (steps : p.context.steps ≠ []) :
    Execution.failuresBelow g q.rest q.context [source] = [] ∧
      Execution.sourcesBelow g q.rest q.context [source] = [source] := by
  have stays : (q.context.runAs q.rest source).modifier? g = none := by
    have last : (q.context.runAs q.rest source).lastNode? g = g.node? r := by
      show q.context.toView.lastNode?.bind g.node? = _
      rw [h.view]
      rfl
    rw [Context.modifier?, last]
    cases found : g.node? r with
    | none => rfl
    | some n =>
      have modifier := leads.modifier
      rw [Grammar.node_of_node? found] at modifier
      exact modifier
  have handed : (q.context.runAs q.rest source).redirectedSources g = .ok [source] := by
    simp only [Context.redirectedSources, stays]
    rfl
  have present : (q.context.descend 1).steps.isEmpty = false := by
    rw [Context.descend_succ h.child, Context.descend_zero, Context.isEmpty_steps_shift]
    simpa using steps
  simp [Execution.failuresBelow_eq, Execution.sourcesBelow_eq, handed, present]

theorem Follows.inTurn (free : g.PlaceFree) (leads : g.LeadsBack r name source)
    (h : q.Follows r name source p) (same : p.context.source = source) (steps : p.context.steps ≠ [])
    (ok : (p.execute g perform).result = .ok n) :
    ∃ (c : Context S A) (a : Action A) (sources : List S), n = sources.length ∧
      Run.InTurn (sources.map fun s => perform (c.runAs p.rest s) a) (p.execute g perform) ∧
      Run.InTurn (sources.map fun s => perform ((c.shift (name.length + 1)).runAs q.rest s) a)
        (q.execute g perform) := by
  have complete := isComplete_of_execute ok
  obtain ⟨m, lands⟩ := p.context.exists_landsAt
  have run := runsAt_of_landsAt g perform complete lands
  obtain ⟨passing, present, a, action⟩ := run.of_ok ok
  have mirrors := free.mirrors (name.length + 1) p.rest q.rest
  -- The literal is one level more, and the levels below it mirror those of the line alone.
  have lands' : q.context.LandsAt (m + 1) := by
    have below := mirrors.landsAt rfl lands
    refine ⟨by rw [Context.descend_succ h.child]; exact below.1, fun k before => ?_⟩
    cases k with
    | zero =>
      rw [Context.descend_zero, Context.isFinal, h.executesChild]
      have child := h.child
      cases frames : q.context.redirected with
      | nil => simp [Context.child?, frames] at child
      | cons frame rest => simp [Context.hasChild, frames]
    | succ k =>
      rw [Context.descend_succ h.child]
      exact below.2 k (by omega)
  have run' := runsAt_of_landsAt g perform (h.isComplete.trans complete) lands'
  obtain ⟨noneFail, handed⟩ := h.handsOn leads steps
  have passing' : q.failuresAbove g (m + 1) = [] := by
    rw [Parse.failuresAbove, h.source, Execution.failuresAbove_succ g q.rest h.child, noneFail, handed,
      mirrors.failuresAbove_eq rfl, List.nil_append]
    rw [Parse.failuresAbove, same] at passing
    exact passing
  have sources : q.sourcesAt g (m + 1) = p.sourcesAt g m := by
    rw [Parse.sourcesAt, Parse.sourcesAt, h.source, same, Execution.sourcesAt_succ g q.rest h.child,
      handed, mirrors.sourcesAt_eq rfl]
  have context : q.context.descend (m + 1) = (p.context.descend m).shift (name.length + 1) := by
    rw [Context.descend_succ h.child, mirrors.descend rfl m]
  have turn := run.in_turn a passing present action
  have turn' := run'.in_turn a passing' (by rwa [sources]) (by rw [context]; exact action)
  rw [sources, context] at turn'
  refine ⟨p.context.descend m, a, p.sourcesAt g m, ?_, turn, turn'⟩
  rw [turn.length_eq ok, List.length_map]

theorem steps_ne_nil_of_execute (sound : g.Sound) {line : Input} (laid : line.Laid)
    (ok : ((g.parse source line).execute g perform).result = .ok n) :
    (g.parse source line).context.source = source ∧ (g.parse source line).context.steps ≠ [] := by
  have complete := isComplete_of_execute ok
  obtain ⟨m, lands⟩ := (g.parse source line).context.exists_landsAt
  obtain ⟨-, -, a, action⟩ := (runsAt_of_landsAt g perform complete lands).of_ok ok
  obtain ⟨new, adds, -, unchanged⟩ := (sound.traces_parse source laid).trail
  have steps : (g.parse source line).context.steps = new := adds.steps
  refine ⟨adds.source, fun none => ?_⟩
  have same : (g.parse source line).context = .start source .root line.position :=
    unchanged (steps.symm.trans none)
  rw [same] at lands action
  cases m with
  | zero => exact absurd action (by simp [Context.start, Context.ofFrame, Frame.start])
  | succ m => exact absurd (lands.2 0 (by omega)) (by simp [Context.isFinal, Context.hasChild,
      Context.start, Context.ofFrame])

end Parse

/-- A line behind a literal that leads back to the root is parsed as it is alone, only further on. Where
it runs alone, the same action then runs for the same sources. Commands may look at where they stand, and
only a command that failed for it can keep the longer line from running. -/
theorem Grammar.Reachable.parse_behind_literal {g : Grammar S A} (reachable : g.Reachable)
    (free : g.PlaceFree) {r : NodeId} {name : String} {source : S}
    (leads : g.LeadsBack r name source) (line : String) :
    let p := g.parse source (.ofText line)
    let q := g.parse source (.ofText (name ++ " " ++ line))
    q.Follows r name source p ∧ q.isComplete = p.isComplete ∧
      ∀ (E : Type) (perform : Context S A → Action A → Run E Unit) (n : Nat),
        (p.execute g perform).result = .ok n →
        ∃ (c : Context S A) (a : Action A) (sources : List S), n = sources.length ∧
          Run.InTurn (sources.map fun s => perform (c.runAs p.rest s) a) (p.execute g perform) ∧
          Run.InTurn (sources.map fun s => perform ((c.shift (name.length + 1)).runAs q.rest s) a)
            (q.execute g perform) ∧
          ((∀ s ∈ sources, (perform (c.runAs p.rest s) a).result = .ok () →
              (perform ((c.shift (name.length + 1)).runAs q.rest s) a).result = .ok ()) →
            (q.execute g perform).result = .ok n) := by
  intro p q
  have follows := reachable.sound.parse_follows free.reads leads line
  refine ⟨follows, follows.isComplete, fun E perform n ok => ?_⟩
  obtain ⟨same, steps⟩ := Parse.steps_ne_nil_of_execute reachable.sound (Input.shows_ofText line).laid ok
  obtain ⟨c, a, sources, count, turn, turn'⟩ := follows.inTurn free leads same steps ok
  refine ⟨c, a, sources, count, turn, turn', fun steady => ?_⟩
  have alone := turn.passing ok
  rw [count, ← List.length_map (fun s => perform ((c.shift (name.length + 1)).runAs q.rest s) a)]
  refine congrArg Run.result (turn'.total_eq fun run member => ?_)
  obtain ⟨s, handed, rfl⟩ := List.mem_map.mp member
  exact steady s handed (alone _ (List.mem_map_of_mem handed))

namespace Demo

def quietly : Grammar User Deed :=
  [Blueprint.literal "quietly" { redirect := some .root } [],
    .literal "echo" {} [.argument "text" .rest (doing .echo none) []]].foldl
      (fun g command => (g.register .root command).1) .empty

theorem placeFree_quietly : quietly.PlaceFree := by
  refine ⟨?_, ?_, ?_⟩
  · intro id name type role
    match id with
    | 0 | 1 | 2 => cases role
    | 3 =>
      cases role
      exact .rest
    | _ + 4 => cases role
  · intro id choose chosen v d
    match id with
    | 0 | 1 | 2 => cases chosen
    | 3 =>
      cases chosen
      rfl
    | _ + 4 => cases chosen
  · intro id modifier present
    match id with
    | 0 | 1 | 2 | 3 => cases present
    | _ + 4 => cases present

theorem leadsBack_quietly : quietly.LeadsBack 1 "quietly" ⟨"console", true⟩ where
  child := by decide
  role := rfl
  present := by decide
  solid := Input.solid_of_all (by decide)
  usable := rfl
  settles := fun choose chosen => by cases chosen
  executesChild := rfl
  modifier := rfl
  redirect := rfl

end Demo

theorem Demo.quietly_echo :
    let p := quietly.parse ⟨"console", true⟩ (.ofText "echo hi")
    let q := quietly.parse ⟨"console", true⟩ (.ofText ("quietly" ++ " " ++ "echo hi"))
    q.Follows 1 "quietly" ⟨"console", true⟩ p ∧
      (p.execute quietly runner).result = .ok 1 ∧
      (q.execute quietly runner).result = .ok 1 := by
  have reachable : quietly.Reachable := Grammar.Reachable.empty.foldl_register .root _
  obtain ⟨follows, -, runs⟩ :=
    reachable.parse_behind_literal placeFree_quietly leadsBack_quietly "echo hi"
  have alone : ((quietly.parse ⟨"console", true⟩ (.ofText "echo hi")).execute quietly
      runner).result = .ok 1 := by decide +kernel
  obtain ⟨c, a, sources, -, -, -, same⟩ := runs _ _ 1 alone
  exact ⟨follows, alone, same fun _ _ _ => rfl⟩

-- Echoes short lines only, which is to look at the line as a whole.
def Demo.brief (c : Context User Deed) (_ : Action Deed) : Run String Unit :=
  if c.input.any fun line => line.length > 10 then .fail (.failed "line too long" none)
  else printed ((c.argument? Value.string? "text").getD "")

theorem Demo.quietly_echo_too_long :
    let p := quietly.parse ⟨"console", true⟩ (.ofText "echo hi")
    let q := quietly.parse ⟨"console", true⟩ (.ofText ("quietly" ++ " " ++ "echo hi"))
    quietly.Reachable ∧ quietly.PlaceFree ∧ quietly.LeadsBack 1 "quietly" ⟨"console", true⟩ ∧
      (p.execute quietly brief).events = ["hi"] ∧ (p.execute quietly brief).result = .ok 1 ∧
      (q.execute quietly brief).events = [] ∧
      (q.execute quietly brief).result = .error (.failed "line too long" none) :=
  ⟨Grammar.Reachable.empty.foldl_register .root _, placeFree_quietly, leadsBack_quietly,
    by decide +kernel, by decide +kernel, by decide +kernel, by decide +kernel⟩

end CommandGrammar
