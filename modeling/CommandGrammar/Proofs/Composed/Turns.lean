import CommandGrammar.Proofs.Composed.Reading
import CommandGrammar.Proofs.Input.Words
import CommandGrammar.Proofs.Parsing.Findings

set_option autoImplicit false

namespace CommandGrammar

variable {S A : Type}

namespace Attempt

variable {a : Attempt S A}

theorem andThen_of_ok (ok : a.fault = none) (next : Context S A → Input → Attempt S A) :
    a.andThen next = next a.context a.input := by
  simp only [andThen, ok]

theorem andThen_of_failed (failed : a.fault ≠ none) (next : Context S A → Input → Attempt S A) :
    a.andThen next = a := by
  obtain ⟨f, fault⟩ := Option.ne_none_iff_exists'.mp failed
  simp only [andThen, fault]

theorem andThen_assoc (a : Attempt S A) (next later : Context S A → Input → Attempt S A) :
    (a.andThen next).andThen later = a.andThen fun c i => (next c i).andThen later := by
  obtain ⟨c, i, fault⟩ := a
  cases fault <;> rfl

end Attempt

namespace Matched

def isBetween : Matched → Bool
  | .afterValue _ _ _ => true
  | _ => false

def isFlag : Matched → Bool
  | .flagValue _ _ => true
  | _ => false

end Matched

namespace Composed

/-- How far a composed argument has been read: whether a flag has been taken, the members left without a
value, and those of the positional part that were not reached. -/
structure Stage where
  flagged : Bool
  pending : List NodeId
  sequence : List NodeId

section Reading

variable (g : Grammar S A) (id : NodeId) (members : Composed)

def readOn (s : Stage) (c : Context S A) (i : Input) : Attempt S A :=
  if s.flagged then
    let (attempt, pending) := takeFlags g id members s.pending.length s.pending c i
    attempt.andThen (noteUnset g pending s.sequence)
  else
    let values := takeValues g id members s.sequence s.pending c i
    match values.attempt.fault with
    | some _ => values.attempt
    | none =>
      let (attempt, pending) :=
        if values.flagged then
          takeFlags g id members values.pending.length values.pending values.attempt.context
            values.attempt.input
        else (values.attempt, values.pending)
      attempt.andThen (noteUnset g pending values.sequence)

def turn (s : Stage) (c : Context S A) (i : Input) : Option (Attempt S A × Stage) :=
  i.peekWord.bind fun word =>
    match members.pendingFlag word.asText s.pending with
    | some m =>
      some (takeFlagged g id i.position m (without m s.pending) c i.readWord.2,
        ⟨true, without m s.pending, s.sequence⟩)
    | none =>
      match s.flagged, s.sequence with
      | false, next :: later =>
        some ((((g.node next).matchWord next c i).andThen takeSeparator).andThen
            (recordPlace id (without next s.pending) later.head?),
          ⟨false, without next s.pending, later⟩)
      | _, _ => none

end Reading

structure Stage.Valid (s : Stage) : Prop where
  nodup : s.pending.Nodup
  inTurn : s.flagged = false → s.sequence = s.pending

variable {g : Grammar S A} {id : NodeId} {members : Composed} {c : Context S A} {i : Input} {s s' : Stage}

theorem read_eq_readOn (g : Grammar S A) (id : NodeId) (members : Composed) (c : Context S A)
    (i : Input) :
    members.read g id c i =
      readOn g id members ⟨false, members.sequence, members.sequence⟩
        (c.record (members.firstPlace id i).matched (members.firstPlace id i).span) i := rfl

theorem length_without {m : NodeId} {pending : List NodeId} (nodup : pending.Nodup)
    (member : m ∈ pending) : (without m pending).length + 1 = pending.length := by
  rw [without, ← nodup.erase_eq_filter, List.length_erase_of_mem member]
  exact Nat.sub_add_cancel (List.length_pos_of_mem member)

theorem nodup_without (m : NodeId) {pending : List NodeId} (nodup : pending.Nodup) :
    (without m pending).Nodup := nodup.filter _

theorem pendingFlag_nil (word : String) : members.pendingFlag word [] = none := by
  unfold pendingFlag
  split
  · simp
  · rfl

theorem readOn_flagged (g : Grammar S A) (id : NodeId) (members : Composed) {pending : List NodeId}
    (nodup : pending.Nodup) (sequence : List NodeId) (c : Context S A) (i : Input) :
    readOn g id members ⟨true, pending, sequence⟩ c i =
      match i.peekWord.bind fun word => members.pendingFlag word.asText pending with
      | some m => (takeFlagged g id i.position m (without m pending) c i.readWord.2).andThen
          (readOn g id members ⟨true, without m pending, sequence⟩)
      | none => noteUnset g pending sequence c i := by
  simp only [readOn, if_true]
  cases flag : i.peekWord.bind fun word => members.pendingFlag word.asText pending with
  | none =>
    cases pending with
    | nil => rfl
    | cons first rest =>
      simp only [List.length_cons, takeFlags, Input.fst_readWord, flag]
      rfl
  | some m =>
    obtain ⟨word, -, known⟩ := Option.bind_eq_some_iff.mp flag
    have length := length_without nodup (mem_of_pendingFlag known)
    simp only [← length, takeFlags, Input.fst_readWord, flag]
    generalize takeFlagged g id i.position m (without m pending) c i.readWord.2 = a
    cases fault : a.fault <;> simp [Attempt.andThen, fault, readOn]

theorem readOn_eq (g : Grammar S A) (id : NodeId) (members : Composed) (valid : s.Valid)
    (c : Context S A) (i : Input) :
    readOn g id members s c i =
      match turn g id members s c i with
      | some (a, s') => a.andThen (readOn g id members s')
      | none => noteUnset g s.pending s.sequence c i := by
  obtain ⟨flagged, pending, sequence⟩ := s
  cases flagged with
  | true =>
    rw [readOn_flagged g id members valid.nodup]
    simp only [turn]
    cases i.peekWord with
    | none => rfl
    | some word =>
      simp only [Option.bind_some]
      cases members.pendingFlag word.asText pending <;> rfl
  | false =>
    obtain rfl : sequence = pending := valid.inTurn rfl
    simp only [readOn, Bool.false_eq_true, if_false, turn]
    cases sequence with
    | nil => cases i.peekWord <;> simp [takeValues, pendingFlag_nil, Attempt.succeed, Attempt.andThen]
    | cons next later =>
      rw [takeValues]
      cases peeked : i.peekWord with
      | none => rfl
      | some word =>
        simp only [Option.bind_some]
        cases flag : members.pendingFlag word.asText (next :: later) with
        | some m =>
          -- What is left to read is what follows a flag already.
          have flagged := readOn_flagged g id members valid.nodup (next :: later) c i
          simp only [readOn, if_true, peeked, Option.bind_some, flag] at flagged
          simp only [Option.isSome_some, if_true]
          exact flagged
        | none =>
          simp only [Option.isSome_none, Bool.false_eq_true, if_false]
          generalize (((g.node next).matchWord next c i).andThen takeSeparator).andThen
            (recordPlace id (without next (next :: later)) later.head?) = a
          cases fault : a.fault <;> simp [Attempt.andThen, fault, readOn]

section Steps

variable {m : NodeId}

theorem steps_argument {name : String} {type : ArgumentType S A}
    (role : (g.node m).role = .argument name type) (c : Context S A) (i : Input) :
    (((g.node m).matchWord m c i).fault ≠ none ∧ ((g.node m).matchWord m c i).context = c) ∨
      (((g.node m).matchWord m c i).fault = none ∧
        ∃ span, ((g.node m).matchWord m c i).context.steps = c.steps ++ [⟨.node m, span⟩]) := by
  simp only [Node.matchWord, role, matchArgument, recordArgument]
  cases (type.read i c).answer with
  | ok value => exact .inr ⟨rfl, _, rfl⟩
  | error e => cases e <;> exact .inl ⟨by simp [Attempt.fail], rfl⟩

theorem steps_separated (id : NodeId) (pending : List NodeId) (next : Option NodeId)
    (c : Context S A) (i : Input) :
    let a := (takeSeparator c i).andThen (recordPlace id pending next)
    (a.fault ≠ none ∧ a.context.steps = c.steps) ∨
      (a.fault = none ∧
        a.context.steps = c.steps ++ [⟨.afterValue id pending next, .point a.input.position⟩]) := by
  have context := context_takeSeparator c i
  by_cases ok : (takeSeparator c i).fault = none
  · simp only [Attempt.andThen_of_ok ok, context]
    exact .inr ⟨rfl, rfl⟩
  · simp only [Attempt.andThen_of_failed ok, context]
    exact .inl ⟨ok, trivial⟩

theorem steps_value {name : String} {type : ArgumentType S A}
    (role : (g.node m).role = .argument name type) (id : NodeId) (pending : List NodeId)
    (next : Option NodeId) (c : Context S A) (i : Input) :
    let a := (((g.node m).matchWord m c i).andThen takeSeparator).andThen (recordPlace id pending next)
    (a.fault ≠ none ∧ ∃ new, a.context.steps = c.steps ++ new ∧ ∀ x ∈ new, x.matched = .node m) ∨
      (a.fault = none ∧ ∃ span, a.context.steps =
        c.steps ++ [⟨.node m, span⟩, ⟨.afterValue id pending next, .point a.input.position⟩]) := by
  simp only [Attempt.andThen_assoc]
  rcases steps_argument role c i with ⟨failed, same⟩ | ⟨ok, span, steps⟩
  · simp only [Attempt.andThen_of_failed failed, same]
    exact .inl ⟨failed, [], by simp, by simp⟩
  · simp only [Attempt.andThen_of_ok ok]
    generalize (g.node m).matchWord m c i = b at steps
    rcases steps_separated id pending next b.context b.input with ⟨failed, same⟩ | ⟨ok, place⟩
    · exact .inl ⟨failed, [⟨.node m, span⟩], same.trans steps, by simp⟩
    · exact .inr ⟨ok, span, by rw [place, steps, List.append_assoc]; rfl⟩

theorem steps_takeFlagged {name : String} {type : ArgumentType S A}
    (role : (g.node m).role = .argument name type) (id : NodeId) (start : Nat) (pending : List NodeId)
    (c : Context S A) (separated : i.hasMore = true → ∃ ch, i.peek = some ch ∧ Text.isBlank ch = true) :
    let a := takeFlagged g id start m pending c i
    ∃ member stop later,
      a.context.steps = c.steps ++ ⟨.flagValue id member, ⟨start, stop⟩⟩ :: later ∧
      ((∀ x ∈ later, x.matched = .node m) ∧ (a.fault = none → a.input.hasMore = false) ∨
        a.fault = none ∧ member = some m ∧ ∃ span, later =
          [⟨.node m, span⟩, ⟨.afterValue id pending none, .point a.input.position⟩]) := by
  cases more : i.hasMore with
  | false =>
    simp only [takeFlagged, more, Bool.not_false, if_true]
    exact ⟨none, i.position, [], rfl, .inl ⟨by simp, by simp [Attempt.fail]⟩⟩
  | true =>
    obtain ⟨ch, found, blank⟩ := separated more
    have taken : takeSeparator c i = .succeed c i.readChar.2 := by simp [takeSeparator, found, blank]
    simp only [takeFlagged, more, Bool.not_true, Bool.false_eq_true, if_false, taken,
      Attempt.andThen_succeed]
    generalize recorded : c.record (.flagValue id (some m)) ⟨start, i.readChar.2.position⟩ = d
    have flag : d.steps = c.steps ++ [⟨.flagValue id (some m), ⟨start, i.readChar.2.position⟩⟩] := by
      rw [← recorded]
      rfl
    rcases steps_argument role d i.readChar.2 with ⟨failed, same⟩ | ⟨ok, span, steps⟩
    · simp only [Attempt.andThen_of_failed failed, same]
      exact ⟨_, _, [], flag, .inl ⟨by simp, fun ok => absurd ok failed⟩⟩
    · simp only [Attempt.andThen_of_ok ok]
      generalize (g.node m).matchWord m d i.readChar.2 = b at steps
      have value : b.context.steps = c.steps ++
          [⟨.flagValue id (some m), ⟨start, i.readChar.2.position⟩⟩, ⟨.node m, span⟩] := by
        rw [steps, flag, List.append_assoc]
        rfl
      cases ended : b.input.hasMore with
      | false =>
        simp only [Bool.false_eq_true, if_false]
        exact ⟨_, _, [⟨.node m, span⟩], value, .inl ⟨by simp, fun _ => ended⟩⟩
      | true =>
        simp only [if_true]
        rcases steps_separated id pending none b.context b.input with
          ⟨failed, same⟩ | ⟨ok, place⟩
        · exact ⟨_, _, [⟨.node m, span⟩], same.trans value,
            .inl ⟨by simp, fun ok => absurd ok failed⟩⟩
        · refine ⟨_, i.readChar.2.position, _, ?_, .inr ⟨ok, rfl, span, rfl⟩⟩
          rw [place, value, List.append_assoc]
          rfl

end Steps

def unsetBehind (members : Composed) (before : List Step) : List NodeId :=
  members.sequence.filter fun m => .node m ∉ before.map Step.matched

def flaggedBehind (before : List Step) : Bool := before.any fun s => s.matched.isFlag

structure Turned (id : NodeId) (s : Stage) (c : Context S A) (i : Input) (a : Attempt S A) (s' : Stage)
    (m : NodeId) (taken : List Step) : Prop where
  reached : i.Reaches a.input
  member : m ∈ s.pending
  pending : s'.pending = without m s.pending
  valid : s'.Valid
  flagged : s.flagged = true → s'.flagged = true
  plain : ∀ x ∈ taken, x.matched.isBetween = false
  recorded : (a.context.steps = c.steps ++ taken ∧ (a.fault = none → a.input.hasMore = false)) ∨
    (a.fault = none ∧ (∀ k, .node k ∈ taken.map Step.matched ↔ k = m) ∧
      flaggedBehind taken = s'.flagged ∧
      a.context.steps = c.steps ++ taken ++
        [⟨.afterValue id s'.pending (if s'.flagged then none else s'.pending.head?),
          .point a.input.position⟩])

section Turns

variable (proper : members.Proper g) (row : i.IsRow)
include proper row

theorem Stage.Valid.turned_flag (valid : s.Valid) (known : s.pending ⊆ members.sequence) {word : Word}
    (peeked : i.peekWord = some word) {m : NodeId}
    (flag : members.pendingFlag word.asText s.pending = some m) (c : Context S A) :
    ∃ taken, Turned id s c i (takeFlagged g id i.position m (without m s.pending) c i.readWord.2)
      ⟨true, without m s.pending, s.sequence⟩ m taken := by
  have member := mem_of_pendingFlag flag
  obtain ⟨type, role⟩ := proper.arguments m (known member)
  have laid := row.laid
  have reached :
      i.Reaches (takeFlagged g id i.position m (without m s.pending) c i.readWord.2).input :=
    (records_takeFlagged laid laid.reaches_readWord (known member) _ c).reached
  have valid' : Stage.Valid ⟨true, without m s.pending, s.sequence⟩ :=
    ⟨nodup_without m valid.nodup, by simp⟩
  obtain ⟨value, stop, later, steps, rest⟩ := steps_takeFlagged role id i.position
    (without m s.pending) c (row.blank_behind_word peeked)
  rcases rest with ⟨own, ended⟩ | ⟨ok, rfl, span, rfl⟩
  · refine ⟨_, reached, member, rfl, valid', fun _ => rfl, ?_, .inl ⟨steps, ended⟩⟩
    simp only [List.forall_mem_cons]
    exact ⟨rfl, fun x inside => by rw [own x inside]; rfl⟩
  · refine ⟨[⟨.flagValue id (some m), ⟨i.position, stop⟩⟩, ⟨.node m, span⟩], reached, member, rfl,
      valid', fun _ => rfl, by simp [Matched.isBetween], .inr ⟨ok, by simp, rfl, ?_⟩⟩
    rw [steps, List.append_assoc]
    rfl

theorem Stage.Valid.turned_value {next : NodeId} {later : List NodeId}
    (valid : Stage.Valid ⟨false, next :: later, next :: later⟩) (known : next ∈ members.sequence)
    (c : Context S A) :
    ∃ taken, Turned id ⟨false, next :: later, next :: later⟩ c i
      ((((g.node next).matchWord next c i).andThen takeSeparator).andThen
        (recordPlace id (without next (next :: later)) later.head?))
      ⟨false, without next (next :: later), later⟩ next taken := by
  obtain ⟨type, role⟩ := proper.arguments next known
  have member : next ∈ next :: later := List.mem_cons_self
  have nodup : (next :: later).Nodup := valid.nodup
  have left : without next (next :: later) = later := by
    rw [without, ← nodup.erase_eq_filter, List.erase_cons_head]
  have reached := (g.node next).reaches_matchWord row.laid next c
  have reached : i.Reaches ((((g.node next).matchWord next c i).andThen takeSeparator).andThen
      (recordPlace id (without next (next :: later)) later.head?)).input :=
    Attempt.reaches_andThen (Attempt.reaches_andThen reached fun d j onward =>
      onward.trans (reaches_takeSeparator (onward.laid row.laid) d)) fun _ _ onward => onward
  have valid' : Stage.Valid ⟨false, without next (next :: later), later⟩ :=
    ⟨nodup_without next nodup, fun _ => left.symm⟩
  rcases steps_value role id (without next (next :: later)) later.head? c i with
    ⟨failed, new, steps, own⟩ | ⟨ok, span, steps⟩
  · refine ⟨new, reached, member, rfl, valid', by simp, ?_, .inl ⟨steps, ?_⟩⟩
    · exact fun x inside => by rw [own x inside]; rfl
    · exact fun ok => absurd ok failed
  · refine ⟨[⟨.node next, span⟩], reached, member, rfl, valid', by simp,
      by simp [Matched.isBetween], .inr ⟨ok, by simp, rfl, ?_⟩⟩
    rw [steps, List.append_assoc, left]
    rfl

theorem Stage.Valid.turned (valid : s.Valid) (known : s.pending ⊆ members.sequence) {a : Attempt S A}
    (turned : turn g id members s c i = some (a, s')) : ∃ m taken, Turned id s c i a s' m taken := by
  obtain ⟨word, peeked, turned⟩ := Option.bind_eq_some_iff.mp turned
  cases flag : members.pendingFlag word.asText s.pending with
  | some m =>
    simp only [flag, Option.some.injEq, Prod.mk.injEq] at turned
    obtain ⟨rfl, rfl⟩ := turned
    exact ⟨m, valid.turned_flag proper row known peeked flag c⟩
  | none =>
    obtain ⟨flagged, pending, sequence⟩ := s
    cases flagged with
    | true => simp [flag] at turned
    | false =>
      obtain rfl : sequence = pending := valid.inTurn rfl
      cases sequence with
      | nil => simp [flag] at turned
      | cons next later =>
        simp only [flag, Option.some.injEq, Prod.mk.injEq] at turned
        obtain ⟨rfl, rfl⟩ := turned
        exact ⟨next, valid.turned_value proper row (known List.mem_cons_self) c⟩

end Turns

theorem steps_noteUnset (g : Grammar S A) (pending sequence : List NodeId) (c : Context S A) (i : Input) :
    (noteUnset g pending sequence c i).context.steps = c.steps := by
  unfold noteUnset
  split <;> rfl

theorem stable_readOn {P : Context S A → Prop} (stable : Context.Stable P) (g : Grammar S A) (id : NodeId)
    (members : Composed) (s : Stage) (i : Input) (holds : P c) :
    P (readOn g id members s c i).context := by
  simp only [readOn]
  split
  · exact Context.Stable.andThen (stable.takeFlags _ _ _ _ _ _ holds) fun _ _ => stable.noteUnset _ _
  · have values := stable.takeValues g id members s.sequence s.pending i holds
    split
    · exact values
    · split
      · exact Context.Stable.andThen (stable.takeFlags _ _ _ _ _ _ values) fun _ _ => stable.noteUnset _ _
      · exact Context.Stable.andThen values fun _ _ => stable.noteUnset _ _

theorem steps_andThen_readOn {a : Attempt S A} {new : List Step}
    (recorded : a.context.steps = c.steps ++ new) (g : Grammar S A) (id : NodeId) (members : Composed)
    (s : Stage) :
    ∃ later, (a.andThen (readOn g id members s)).context.steps = c.steps ++ (new ++ later) := by
  by_cases ok : a.fault = none
  · obtain ⟨later, same⟩ := (stable_readOn a.context.stable_extends g id members s a.input
      ⟨List.prefix_rfl, List.prefix_rfl⟩).1
    exact ⟨later, by rw [Attempt.andThen_of_ok ok, ← same, recorded, List.append_assoc]⟩
  · exact ⟨[], by rw [Attempt.andThen_of_failed ok, recorded, List.append_nil]⟩

def TakesFlag (g : Grammar S A) (id : NodeId) (members : Composed) (s : Stage) (c : Context S A)
    (i : Input) : Prop :=
  ∃ member stop later, (readOn g id members s c i).context.steps =
    c.steps ++ ⟨.flagValue id member, ⟨i.position, stop⟩⟩ :: later

section Flags

variable (proper : members.Proper g) (valid : s.Valid) (known : s.pending ⊆ members.sequence)
  {word : Word} (peeked : i.peekWord = some word)
include proper valid known peeked

theorem takesFlag_of_pendingFlag (row : i.IsRow) {m : NodeId}
    (flag : members.pendingFlag word.asText s.pending = some m) (c : Context S A) :
    TakesFlag g id members s c i := by
  have equation := readOn_eq g id members valid c i
  simp only [turn, peeked, Option.bind_some, flag] at equation
  obtain ⟨type, role⟩ := proper.arguments m (known (mem_of_pendingFlag flag))
  obtain ⟨value, stop, rest, steps, -⟩ := steps_takeFlagged role id i.position (without m s.pending) c
    (row.blank_behind_word peeked)
  obtain ⟨later, same⟩ :=
    steps_andThen_readOn steps g id members ⟨true, without m s.pending, s.sequence⟩
  exact ⟨value, stop, rest ++ later, by rw [equation, same]; rfl⟩

theorem not_takesFlag_of_pendingFlag (none : members.pendingFlag word.asText s.pending = none)
    (c : Context S A) : ¬ TakesFlag g id members s c i := by
  have equation := readOn_eq g id members valid c i
  simp only [turn, peeked, Option.bind_some, none] at equation
  rintro ⟨value, stop, rest, steps⟩
  have silent (pending sequence : List NodeId) :
      readOn g id members s c i ≠ noteUnset g pending sequence c i := by
    intro same
    rw [same, steps_noteUnset] at steps
    simp at steps
  obtain ⟨flagged, pending, sequence⟩ := s
  cases flagged with
  | true => exact silent _ _ equation
  | false =>
    cases sequence with
    | nil => exact silent _ _ equation
    | cons next later =>
      have inside : next ∈ members.sequence := known (valid.inTurn rfl ▸ List.mem_cons_self)
      obtain ⟨type, role⟩ := proper.arguments next inside
      dsimp only at equation
      -- A value in turn records its own member first, if anything.
      rcases steps_value role id (without next pending) later.head? c i with
        ⟨failed, new, own, only⟩ | ⟨-, span, own⟩
      · rw [equation, Attempt.andThen_of_failed failed, own, List.append_cancel_left_eq] at steps
        simpa using only ⟨.flagValue id value, ⟨i.position, stop⟩⟩ (by simp [steps])
      · obtain ⟨more, same⟩ :=
          steps_andThen_readOn own g id members ⟨false, without next pending, later⟩
        rw [equation, same, List.append_cancel_left_eq] at steps
        simp at steps

end Flags

theorem takesFlag_iff (proper : members.Proper g) (valid : s.Valid) (known : s.pending ⊆ members.sequence)
    (row : i.IsRow) {name : String} (next : i.peekWord.map Word.asText = some ("--" ++ name))
    (c : Context S A) :
    TakesFlag g id members s c i ↔ ∃ m ∈ s.pending, g.flag m = "--" ++ name := by
  obtain ⟨word, peeked, text⟩ := Option.map_eq_some_iff.mp next
  cases flag : members.pendingFlag word.asText s.pending with
  | some m =>
    obtain ⟨member, -, named⟩ := proper.pendingFlag_eq_some.mp flag
    exact iff_of_true (takesFlag_of_pendingFlag proper valid known peeked row flag c)
      ⟨m, member, named.symm.trans text⟩
  | none =>
    apply iff_of_false (not_takesFlag_of_pendingFlag proper valid known peeked flag c)
    rintro ⟨m, member, named⟩
    have found := proper.pendingFlag_eq_some.mpr ⟨member, known member, text.trans named.symm⟩
    exact absurd (found.symm.trans flag) (by simp)

end Composed

end CommandGrammar
