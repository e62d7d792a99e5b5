import CommandGrammar.Proofs.Completion.Silence
import CommandGrammar.Proofs.Composed.Turns

set_option autoImplicit false

namespace CommandGrammar

variable {S A : Type}

namespace Composed

variable {g : Grammar S A} {id : NodeId} {members : Composed} {c : Context S A} {i : Input} {s s' : Stage}

structure Stage.Reflects (s : Stage) (members : Composed) (before : List Step) : Prop where
  pending : s.pending = members.unsetBehind before
  flagged : s.flagged = flaggedBehind before
  inTurn : s.flagged = false → s.sequence = s.pending

namespace Stage.Reflects

variable {before : List Step}

theorem valid (reflects : s.Reflects members before) (proper : members.Proper g) : s.Valid :=
  ⟨by rw [reflects.pending]; exact proper.nodup.filter _, reflects.inTurn⟩

theorem start (members : Composed) : Reflects ⟨false, members.sequence, members.sequence⟩ members [] :=
  ⟨by simp [unsetBehind], rfl, fun _ => rfl⟩

theorem place (reflects : s.Reflects members before) (owner : NodeId) (pending : List NodeId)
    (next : Option NodeId) (span : Span) :
    s.Reflects members (before ++ [⟨.afterValue owner pending next, span⟩]) :=
  ⟨by simpa [unsetBehind] using reflects.pending,
    by simpa [flaggedBehind, Matched.isFlag] using reflects.flagged, reflects.inTurn⟩

theorem turn (reflects : s.Reflects members before) {a : Attempt S A} {m : NodeId} {taken : List Step}
    (turned : Turned id s c i a s' m taken)
    (value : ∀ k, .node k ∈ taken.map Step.matched ↔ k = m)
    (flags : flaggedBehind taken = s'.flagged) : s'.Reflects members (before ++ taken) := by
  refine ⟨?_, ?_, turned.valid.inTurn⟩
  · rw [turned.pending, reflects.pending, without, unsetBehind, List.filter_filter, unsetBehind]
    refine List.filter_congr fun k _ => ?_
    rw [List.map_append, Bool.eq_iff_iff]
    simp [value k, and_comm]
  · rw [flaggedBehind, List.any_append, ← flaggedBehind, ← flaggedBehind, flags, ← reflects.flagged]
    cases flagged : s.flagged with
    | false => rfl
    | true => rw [turned.flagged flagged, Bool.true_or]

end Stage.Reflects

def EveryPlace (P : List Step → Step → Prop) : List Step → List Step → Prop
  | _, [] => True
  | before, p :: rest => (p.matched.isBetween = true → P before p) ∧ EveryPlace P (before ++ [p]) rest

namespace EveryPlace

variable {P : List Step → Step → Prop} {before plain rest : List Step}

theorem append (none : ∀ x ∈ plain, x.matched.isBetween = false)
    (later : EveryPlace P (before ++ plain) rest) : EveryPlace P before (plain ++ rest) := by
  induction plain generalizing before with
  | nil => simpa using later
  | cons x plain ih =>
    refine ⟨fun between => ?_, ih (fun y member => none y (List.mem_cons_of_mem _ member)) ?_⟩
    · rw [none x (by simp)] at between
      exact absurd between (by simp)
    · rwa [List.append_assoc]

theorem of_plain (none : ∀ x ∈ plain, x.matched.isBetween = false) : EveryPlace P before plain := by
  have ended : EveryPlace P (before ++ plain) [] := trivial
  simpa using append none ended

theorem of_split (every : EveryPlace P before rest) {mid after : List Step} {p : Step}
    (split : rest = mid ++ p :: after) (between : p.matched.isBetween = true) : P (before ++ mid) p := by
  subst split
  induction mid generalizing before with
  | nil => simpa using every.1 between
  | cons x mid ih => simpa using ih every.2

end EveryPlace

/-- A place records the stage that reading goes on from: it carries the pending members, and the next
one in turn unless a flag has been taken. -/
structure PlaceOf (g : Grammar S A) (id : NodeId) (members : Composed) (c₀ : Context S A) (i₀ : Input)
    (a : Attempt S A) (before : List Step) (p : Step) : Prop where
  matched : p.matched = .afterValue id (members.unsetBehind before)
    (if flaggedBehind before then none else (members.unsetBehind before).head?)
  goesOn : ∃ s d j, s.Reflects members before ∧ d.steps = c₀.steps ++ before ++ [p] ∧
    p.span = .point j.position ∧ i₀.Reaches j ∧ a = readOn g id members s d j

theorem everyPlace_readOn (c₀ : Context S A) {i₀ : Input} (proper : members.Proper g) (row : i₀.IsRow)
    {before : List Step} (reflects : s.Reflects members before) (steps : c.steps = c₀.steps ++ before)
    (reached : i₀.Reaches i) {a : Attempt S A} (read : a = readOn g id members s c i) :
    ∃ new, a.context.steps = c.steps ++ new ∧
      EveryPlace (PlaceOf g id members c₀ i₀ a) before new := by
  -- A turn settles one member, so that fewer are pending behind it.
  induction left : s.pending.length using Nat.strongRecOn generalizing s c i before with
  | ind left ih =>
    have equation := readOn_eq g id members (reflects.valid proper) c i
    rw [← read] at equation
    cases turned : turn g id members s c i with
    | none =>
      simp only [turned] at equation
      exact ⟨[], by rw [equation, steps_noteUnset, List.append_nil], trivial⟩
    | some result =>
      obtain ⟨b, s'⟩ := result
      simp only [turned] at equation
      have known : s.pending ⊆ members.sequence := by
        rw [reflects.pending]
        exact List.filter_sublist.subset
      obtain ⟨m, taken, turned⟩ :=
        (reflects.valid proper).turned proper (reached.isRow row) known turned
      have further := reached.trans turned.reached
      rcases turned.recorded with ⟨steps', ended⟩ | ⟨ok, value, flags, steps'⟩
      · refine ⟨taken, ?_, EveryPlace.of_plain turned.plain⟩
        rw [equation, ← steps']
        by_cases ok : b.fault = none
        · -- The line has ended, so that nothing else is read.
          have silent : turn g id members s' b.context b.input = none := by
            rw [turn, (further.isRow row).peekWord_eq_none (ended ok)]
            rfl
          rw [Attempt.andThen_of_ok ok, readOn_eq g id members turned.valid, silent, steps_noteUnset]
        · rw [Attempt.andThen_of_failed ok]
      · rw [Attempt.andThen_of_ok ok] at equation
        have stage := reflects.turn turned value flags
        have fewer := length_without_lt turned.member
        rw [← turned.pending, left] at fewer
        have behind : b.context.steps = c₀.steps ++ (before ++ taken ++
            [⟨.afterValue id s'.pending (if s'.flagged then none else s'.pending.head?),
              .point b.input.position⟩]) := by
          rw [steps', steps]
          simp only [List.append_assoc]
        obtain ⟨new, rest, every⟩ := ih _ fewer (stage.place _ _ _ _) behind further equation rfl
        refine ⟨taken ++ _ :: new, ?_, EveryPlace.append turned.plain ⟨fun _ => ⟨?_, ?_⟩, every⟩⟩
        · rw [rest, steps']
          simp only [List.append_assoc, List.singleton_append]
        · rw [← stage.pending, ← stage.flagged]
        · refine ⟨s', b.context, b.input, stage, ?_, rfl, further, equation⟩
          rw [behind]
          simp only [List.append_assoc]

theorem text_mem_flags {pending : List NodeId} {start : Nat} {text : String} :
    text ∈ (g.flags pending "" start).list.map Candidate.text ↔ ∃ m ∈ pending, g.flag m = text := by
  have begins (m : NodeId) : Text.startsWith (g.flag m) "" = true := by simp [Text.startsWith]
  have some (m : NodeId) : g.flag m ≠ "" := by simp [Grammar.flag]
  constructor
  · intro offered
    obtain ⟨candidate, listed, rfl⟩ := List.mem_map.mp offered
    have entry := Completions.mem_of_mem_ofCandidates listed
    rw [Draft.entries_offerAll] at entry
    obtain ⟨item, kept, rfl⟩ :=
      List.mem_map.mp ((List.mem_append.mp entry).resolve_left (by simp [Draft.blank]))
    obtain ⟨m, inside, rfl⟩ := List.mem_map.mp (List.mem_filter.mp kept).1
    exact ⟨m, (List.mem_filter.mp inside).1, rfl⟩
  · rintro ⟨m, member, rfl⟩
    have offered : _ ∈ (g.flags pending "" start).list.map Candidate.key :=
      Grammar.flag_mem_flags member (begins m) (some m)
    obtain ⟨candidate, listed, key⟩ := List.mem_map.mp offered
    exact List.mem_map.mpr ⟨candidate, listed, congrArg Prod.fst key⟩

theorem completePlace_untyped (owner : NodeId) (pending : List NodeId) (next : Option NodeId)
    (c : Context S A) (start : Nat) :
    g.completePlace (.afterValue owner pending next) c (.blank "" start) =
      match next with
      | none => .offered (g.flags pending "" start)
      | some m => (g.complete m c (.blank "" start)).withFlags (g.flags pending "" start) := by
  have dashes : (Text.startsWith "--" "" || Text.startsWith "" "--") = true := by decide
  cases next with
  | none => exact Grammar.completePlace_last dashes
  | some m => exact Grammar.completePlace_next m dashes

/-- Whatever a composed argument reads, also where it fails midway, each place between values carries the
members without a value before it, and the next one in turn unless a flag was taken. The stage that
reading goes on from there takes a word as a flag just if the place offers it. -/
theorem read_places (reachable : g.Reachable) (role : (g.node id).role = .composed members)
    (distinct : (members.sequence.map fun m => (g.node m).name).Nodup) (r : Rendering)
    (values : List Value) (n : Nat) (c : Context S A) :
    let i := (Input.ofValues r values).seek n
    let a := members.read g id c i
    ∀ before owner pending next span after,
      a.context.steps = c.steps ++ before ++ ⟨.afterValue owner pending next, span⟩ :: after →
      owner = id ∧ pending = members.unsetBehind before ∧
      next = (if flaggedBehind before then none else pending.head?) ∧
      (∀ d start, g.completePlace (.afterValue owner pending next) d (.blank "" start) =
        match next with
        | none => .offered (g.flags pending "" start)
        | some m => (g.complete m d (.blank "" start)).withFlags (g.flags pending "" start)) ∧
      ∃ (s : Stage) (d : Context S A), s.Reflects members before ∧
        d.steps = c.steps ++ before ++ [⟨.afterValue owner pending next, span⟩] ∧
        span = .point span.start ∧ a = readOn g id members s d (i.seek span.start) ∧
        ∀ (j : Input) start name, j.IsRow → j.peekWord.map Word.asText = some ("--" ++ name) →
          ("--" ++ name ∈ (g.flags pending "" start).list.map Candidate.text ↔
            TakesFlag g id members s d j) := by
  intro i a before owner pending next span after split
  have proper := (reachable.declared role).proper distinct
  have row : i.IsRow := Input.isRow_ofValues r values n
  have first : ∃ new, a.context.steps = c.steps ++ new ∧
      EveryPlace (PlaceOf g id members c i a) [] new := by
    obtain ⟨new, steps, every⟩ := everyPlace_readOn c proper row
      ((Stage.Reflects.start members).place id members.sequence members.sequence.head?
        (.point i.position)) rfl row.laid.refl (read_eq_readOn g id members c i)
    refine ⟨members.firstPlace id i :: new, ?_, fun _ => ⟨?_, ?_⟩, every⟩
    · exact steps.trans (List.append_assoc _ _ _)
    · simp [firstPlace, unsetBehind, flaggedBehind]
    · exact ⟨_, _, i, .start members, by rw [List.append_nil]; rfl, rfl, row.laid.refl, rfl⟩
  obtain ⟨new, steps, every⟩ := first
  rw [steps, List.append_assoc, List.append_cancel_left_eq] at split
  obtain ⟨matched, s, d, j, reflects, here, point, reached, rest⟩ := every.of_split split rfl
  simp only [Matched.afterValue.injEq, List.nil_append] at matched reflects here point
  obtain ⟨rfl, rfl, rfl⟩ := matched
  subst point
  refine ⟨rfl, rfl, rfl, completePlace_untyped _ _ _, s, d, reflects, here, rfl, ?_, ?_⟩
  · rw [Span.point, reached.seek_eq]
    exact rest
  · intro k start name line word
    have known : s.pending ⊆ members.sequence := by
      rw [reflects.pending]
      exact List.filter_sublist.subset
    rw [text_mem_flags, takesFlag_iff proper (reflects.valid proper) known line word, reflects.pending]

end Composed

theorem Demo.move_places :
    ∃ before after s d,
      (moveMembers.read grammar.readers 9 (.start ⟨"console", true⟩ .root 0)
        ((Input.ofValues .standard [.ofString "move home --speed fast"]).seek 5)).context.steps =
          (Context.start ⟨"console", true⟩ .root 0 : Context User Deed).steps ++ before ++
            ⟨.afterValue 9 [7, 8] (some 7), .point 10⟩ :: after ∧
      [7, 8] = moveMembers.unsetBehind before ∧ s.Reflects moveMembers before ∧
      Composed.TakesFlag grammar 9 moveMembers s d
        (((Input.ofValues .standard [.ofString "move home --speed fast"]).seek 5).seek 10) := by
  have role : (grammar.node 9).role = .composed moveMembers := Node.role_of_isComposed (by decide) _
  have distinct : (moveMembers.sequence.map fun m => (grammar.node m).name).Nodup := by decide
  have placed : ∃ before after,
      (moveMembers.read grammar.readers 9 (.start ⟨"console", true⟩ .root 0)
        ((Input.ofValues .standard [.ofString "move home --speed fast"]).seek 5)).context.steps =
          (Context.start ⟨"console", true⟩ .root 0 : Context User Deed).steps ++ before ++
            ⟨.afterValue 9 [7, 8] (some 7), .point 10⟩ :: after :=
    ⟨(moveMembers.read grammar.readers 9 (.start ⟨"console", true⟩ .root 0)
        ((Input.ofValues .standard [.ofString "move home --speed fast"]).seek 5)).context.steps.take 2,
      (moveMembers.read grammar.readers 9 (.start ⟨"console", true⟩ .root 0)
        ((Input.ofValues .standard [.ofString "move home --speed fast"]).seek 5)).context.steps.drop 3,
      by decide +kernel⟩
  -- Taken apart so that nothing below evaluates the reading again.
  obtain ⟨before, after, split⟩ := placed
  have row := Input.isRow_ofValues .standard [.ofString "move home --speed fast"] 10
  have word : (((Input.ofValues .standard [.ofString "move home --speed fast"]).seek 5).seek 10).peekWord.map
      Word.asText = some ("--" ++ "speed") := by decide +kernel
  have offered : "--" ++ "speed" ∈ (grammar.flags [7, 8] "" 10).list.map Candidate.text := by
    decide +kernel
  obtain ⟨-, pending, -, -, s, d, reflects, -, -, -, flags⟩ :=
    Composed.read_places reachable_grammar role distinct .standard
      [.ofString "move home --speed fast"] 5 (.start ⟨"console", true⟩ .root 0)
      before 9 [7, 8] (some 7) (.point 10) after split
  exact ⟨before, after, s, d, split, pending, reflects, (flags _ 10 "speed" row word).mp offered⟩

end CommandGrammar
