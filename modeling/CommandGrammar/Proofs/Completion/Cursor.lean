import CommandGrammar.Proofs.Completion.Offers
import CommandGrammar.Proofs.Completion.Walk

set_option autoImplicit false

namespace CommandGrammar

variable {S A : Type}

namespace Query

variable {x fallback : Nat}

theorem within_of_passed {before after : List Step} {step : Step} (previous : Matched)
    (passed : ∀ s ∈ before, s.span.stop < x) (inside : step.span.contains x = true)
    (node : step.matched.isPlace = false) :
    within fallback x previous (before ++ step :: after) =
      ⟨(before.getLast?.map Step.matched).getD previous, step.span.start⟩ := by
  induction before generalizing previous with
  | nil => simp [within, inside, node]
  | cons s rest ih =>
    have outside : s.span.contains x = false := by
      rw [Bool.eq_false_iff, Ne, Span.contains_iff]
      have := passed s (by simp)
      omega
    rw [List.cons_append, within, outside, if_neg (by simp),
      ih s.matched fun t member => passed t (List.mem_cons_of_mem _ member), List.getLast?_cons]
    cases rest.getLast? <;> rfl

theorem upTo?_eq_none {f : Frame S A} (begun : f.span.start ≤ x) (behind : f.span.stop < x) :
    upTo? x f = none := by
  rw [upTo?, if_neg (Nat.not_lt_of_le begun), if_neg (Nat.not_le_of_lt behind)]

theorem upTo?_eq_some {f : Frame S A} (begun : f.span.start ≤ x) (inside : x ≤ f.span.stop) :
    upTo? x f = some (within f.span.start x (.node f.root) f.steps) := by
  rw [upTo?, if_neg (Nat.not_lt_of_le begun), if_pos inside]

end Query

namespace Context

variable {x : Nat} {c d : Context S A}

theorem queryAt_of_upTo? {query : Query} (found : Query.upTo? x c.toFrame = some query) :
    c.queryAt x = query := by
  unfold queryAt
  cases c.redirected <;> simp [Query.atFrame, found]

theorem queryAt_redirectTo (passed : Query.upTo? x c.toFrame = none) :
    (c.redirectTo d).queryAt x = d.queryAt x := by
  show Query.atFrame x c.toFrame (d.toFrame :: d.redirected) = _
  rw [Query.atFrame, passed]
  rfl

end Context

namespace Stand

variable {g : Grammar S A} {s t : Stand S A} {child : NodeId} {x : Nat}

section Plain

variable (sound : g.Sound) (plain : g.Plain) (ready : s.Ready)
include sound plain ready

theorem Takes.adds_parse (takes : s.Takes g child) :
    ∃ after, (s.tried g child).context.toFrame.Adds after (s.parse g).context.toFrame := by
  cases more : (s.tried g child).input.hasMore with
  | false =>
    rw [parse_of_not_hasMore sound plain ready takes more]
    exact ⟨[], .refl _⟩
  | true =>
    cases redirect : (g.node child).redirect with
    | none =>
      have next := ready.next sound plain takes more
      obtain ⟨after, adds, -⟩ :=
        (sound.traces_parseBelow (s.next g child).node next.laid next.free).trail
      have same : (s.next g child).context = (s.tried g child).context := by
        simp only [Stand.next, redirect]
      rw [parse_of_redirect_eq_none sound plain ready takes more redirect, ← same]
      exact ⟨after, adds⟩
    | some target =>
      rw [parse_of_redirect sound plain ready takes more redirect]
      exact ⟨[], .refl _⟩

theorem queryAt_of_settled (settled : s.Settled g x) (behind : s.input.position ≤ x) :
    (s.parse g).context.queryAt x = ⟨.node s.node, s.input.position⟩ := by
  have begun := Nat.le_trans ready.begun behind
  by_cases idle : ∀ child, ¬ s.Takes g child
  · rw [context_parse_of_idle plain idle, ← ready.behind]
    by_cases inside : x ≤ s.context.span.stop
    · -- Only a frame without steps reaches up to the stand.
      have empty : s.context.steps = [] := by
        by_contra some
        exact absurd (ready.separated some) (Nat.not_lt_of_le (Nat.le_trans behind inside))
      rw [Context.queryAt_of_upTo? (Query.upTo?_eq_some begun inside), empty, Query.behind, empty]
      rfl
    · unfold Context.queryAt
      rw [ready.free, Query.atFrame, Query.upTo?_eq_none begun (Nat.lt_of_not_le inside)]
      rfl
  · -- The child's word reaches up to the position, so its step is the one around it.
    push Not at idle
    obtain ⟨child, takes⟩ := idle
    obtain ⟨after, adds⟩ := takes.adds_parse sound plain ready
    have taken := (takes.adds sound plain).1
    obtain ⟨start, stop⟩ := takes.span_tried sound plain ready
    obtain ⟨earlier, later⟩ := adds.isHull.encloses _ List.mem_cons_self
    have late := settled child takes
    have whole := Query.upTo?_eq_some (x := x) (f := (s.parse g).context.toFrame) (by omega) (by omega)
    have root : (s.parse g).context.root = s.context.root := adds.root.trans taken.root
    have steps : (s.parse g).context.steps = s.context.steps ++
        ⟨.node child, ⟨s.input.position, (s.tried g child).input.position⟩⟩ :: after := by
      rw [adds.steps, taken.steps, List.append_assoc]
      rfl
    rw [Context.queryAt_of_upTo? whole, steps, Query.within_of_passed _
      (fun step member => Nat.lt_of_lt_of_le (ready.passed step member) behind)
      ((Span.contains_iff _ _).mpr ⟨behind, late⟩) rfl, root, ready.newest]

theorem Walk.queryAt (walk : Walk g x s t) (settled : t.Settled g x)
    (behind : s.input.position ≤ x) (within : x ≤ s.input.length) :
    (s.parse g).context.queryAt x = ⟨.node t.node, t.input.position⟩ := by
  induction walk with
  | here s => exact queryAt_of_settled sound plain ready settled behind
  | @step s t child takes before walk ih =>
    have more := ready.hasMore within before
    have position := ready.position_next more
    have onward := ih (ready.next sound plain takes more) settled (position ▸ before)
      ((ready.reaches_next g child).length ▸ within)
    cases redirect : (g.node child).redirect with
    | none => rwa [parse_of_redirect_eq_none sound plain ready takes more redirect]
    | some target =>
      rw [parse_of_redirect sound plain ready takes more redirect]
      obtain ⟨begun, stop⟩ := takes.span_tried sound plain ready
      rw [Context.queryAt_redirectTo
        (Query.upTo?_eq_none (Nat.le_trans begun behind) (stop.symm ▸ before))]
      exact onward

end Plain

end Stand

namespace Input

theorem agree_ofText {cs cs' : List Char} {k : Nat} (same : cs'.take k = cs.take k)
    (within : k ≤ cs.length) :
    (ofText (String.ofList cs)).Agree k (ofText (String.ofList cs')) := by
  have shown {cs : List Char} : (ofText (String.ofList cs)).Shows (cs.take k ++ cs.drop k) := by
    rw [List.take_append_drop]
    simpa using shows_ofText (String.ofList cs)
  refine ⟨rfl, cs.take k, cs.drop k, cs'.drop k, ?_, shown, same ▸ shown⟩
  show 0 + (cs.take k).length = k
  rw [List.length_take, Nat.min_eq_left within, Nat.zero_add]

end Input

namespace Stand

variable {g : Grammar S A} {s : Stand S A}

theorem agree_start (source : S) {i j : Input} {k : Nat} (agree : i.Agree k j) :
    (start (A := A) source i).Agree k (start source j) :=
  ⟨rfl, by rw [start, start, agree.position], agree⟩

theorem Ready.parse_line (ready : s.Ready) (sound : g.Sound) :
    (s.parse g).rest.segments = s.input.segments ∧
      (s.parse g).context.source = s.context.source := by
  obtain ⟨reached, new, adds, -⟩ := sound.traces_parseBelow s.node ready.laid ready.free
  exact ⟨reached.segments, adds.source⟩

end Stand

namespace Grammar

variable {g : Grammar S A}

theorem Reachable.suggest_take (reachable : g.Reachable) (plain : g.Plain) (settings : Settings)
    (source : S) (line : String) {cursor : Nat} (within : cursor ≤ line.length) :
    ∃ completions,
      (g.parse source (.ofText line)).suggest g settings cursor = some completions ∧
      (g.parse source (.ofText (String.ofList (line.toList.take cursor)))).suggest g settings cursor =
        some completions := by
  have sound := reachable.sound
  obtain ⟨cs, rfl⟩ : ∃ cs, line = String.ofList cs := ⟨line.toList, (String.ofList_toList).symm⟩
  rw [String.toList_ofList]
  rw [String.length_ofList] at within
  have whole : (cs.take cursor).take cursor = cs.take cursor := by
    rw [List.take_take, Nat.min_self]
  have lines := Input.agree_ofText whole within
  have ready := Stand.ready_start (A := A) source (String.ofList cs)
  have ready' := Stand.ready_start (A := A) source (String.ofList (cs.take cursor))
  have agree := Stand.agree_start (A := A) source lines
  obtain ⟨t, walk, settled⟩ := Stand.Walk.exists_settled sound plain ready lines.le_length
  obtain ⟨t', walk', stands⟩ := walk.agree sound plain ready agree
  have stood := (walk'.reaches sound plain ready' lines.symm.le_length).1
  have settled' := settled.agree sound plain stood stands
  have query := walk.queryAt sound plain ready settled (Nat.zero_le _) lines.le_length
  have query' := walk'.queryAt sound plain ready' settled' (Nat.zero_le _) lines.symm.le_length
  rw [stands.node, stands.input.position] at query'
  obtain ⟨segments, same⟩ := ready.parse_line sound
  obtain ⟨segments', same'⟩ := ready'.parse_line sound
  obtain ⟨completions, -, offered⟩ := g.suggest_eq plain.builtin settings source t.node
    t.input.position cursor
    (String.ofList ((cs.take cursor).drop (min t.input.position cursor)))
  refine ⟨completions, offered _ same query ?_, offered _ same' query' ?_⟩
  · exact (Input.textBetween_congr segments _ _).trans (Input.textBetween_ofText cs _ _)
  · have typed := Input.textBetween_ofText (cs.take cursor) (min t.input.position cursor) cursor
    rw [whole] at typed
    exact (Input.textBetween_congr segments' _ _).trans typed

end Grammar

namespace Demo

def plainly : Grammar User Deed :=
  (commands.eraseIdx 2).foldl (fun g command => (g.register .root command).1) .empty

theorem plain_plainly : plainly.Plain := by
  refine ⟨?_, ?_, ?_⟩
  · intro id
    match id with
    | 0 | 1 | 2 | 3 | 4 | 5 | 6 | 7 | 8 | 9 | 10 => rfl
    | _ + 11 => rfl
  · intro id
    match id with
    | 0 | 1 | 2 | 3 | 4 | 5 | 6 | 7 | 8 | 9 | 10 => decide
    | _ + 11 => exact fun _ member => absurd member List.not_mem_nil
  · intro id name type role
    match id with
    | 2 =>
      cases role
      exact .rest
    | 4 | 7 =>
      cases role
      exact .string
    | 0 | 1 | 3 | 5 | 6 | 8 | 9 | 10 => cases role
    | _ + 11 => cases role

end Demo

theorem Demo.suggest_greet : ∃ completions,
    (plainly.parse ⟨"console", true⟩ (.ofText "as bob greet alice")).suggest plainly {} 9 =
      some completions ∧
    (plainly.parse ⟨"console", true⟩ (.ofText (String.ofList
      ("as bob greet alice".toList.take 9)))).suggest plainly {} 9 = some completions ∧
    completions.list.map Candidate.text = ["greet"] := by
  have reachable : plainly.Reachable := Grammar.Reachable.empty.foldl_register .root _
  obtain ⟨completions, whole, front⟩ :=
    reachable.suggest_take plain_plainly {} ⟨"console", true⟩ "as bob greet alice"
      (by decide : 9 ≤ "as bob greet alice".length)
  have texts : ((plainly.parse ⟨"console", true⟩ (.ofText "as bob greet alice")).suggest plainly {} 9).map
      (fun completions => completions.list.map Candidate.text) = some ["greet"] := by decide +kernel
  rw [whole] at texts
  exact ⟨completions, whole, front, Option.some.inj texts⟩

end CommandGrammar
