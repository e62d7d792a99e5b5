import CommandGrammar.Proofs.Execution.Levels
import CommandGrammar.Proofs.Input.Shown
import CommandGrammar.Proofs.Parsing.Literals
import CommandGrammar.Proofs.Parsing.Shift

set_option autoImplicit false

namespace CommandGrammar

namespace Input

variable {i j : Input}

theorem Laid.length_line (h : i.Laid) : i.line.length = i.length := by
  rw [h.line_eq, String.length_ofList, h.length_shown]

theorem line_congr (same : j.segments = i.segments) : j.line = i.line := by
  rw [line, line, textBetween_congr same, length, length, same]

end Input

structure Fault.IsAbout (line : Input) (f : Fault) : Prop where
  malformed : f.isMalformed = true
  quotes : f.line? = some line.line
  points : ∃ q, f.position? = some q ∧ q ≤ line.line.length

section Lines

variable {line i j : Input} {f : Fault}

theorem Fault.isAbout_here (laid : line.Laid) (same : j.segments = line.segments)
    (within : j.position ≤ line.length) (complaint : Complaint) (cause : Option String) :
    (Fault.here j complaint cause).IsAbout line :=
  ⟨rfl, congrArg some (Input.line_congr same), j.position, rfl, laid.length_line ▸ within⟩

theorem Input.Reaches.isAbout (reached : line.Reaches j) (laid : line.Laid) (complaint : Complaint)
    (cause : Option String) : (Fault.here j complaint cause).IsAbout line :=
  Fault.isAbout_here laid reached.segments reached.within complaint cause

namespace Quoted

theorem error_of_map {α β : Type} {r : Except Fault α} {g : α → β} (failed : r.map g = .error f) :
    r = .error f := by
  cases r with
  | ok a => simp [Except.map] at failed
  | error e => exact congrArg Except.error (Except.error.inj failed)

theorem isAbout_bodyWithin (laid : line.Laid) {quote : Char} {n : Nat} {escaped : Bool}
    (reached : line.Reaches i) (failed : (bodyWithin quote n escaped i).1 = .error f) :
    f.IsAbout line := by
  induction n generalizing escaped i with
  | zero =>
    obtain rfl := Except.error.inj failed
    exact reached.isAbout laid _ _
  | succ n ih =>
    have next := reached.trans (reached.laid laid).reaches_readChar
    rw [bodyWithin] at failed
    generalize i.readChar = read at failed next
    obtain ⟨found, j⟩ := read
    cases found with
    | none =>
      obtain rfl := Except.error.inj failed
      exact next.isAbout laid _ _
    | some ch =>
      simp only at failed
      split at failed
      · split at failed
        · exact ih next (error_of_map failed)
        · obtain rfl := Except.error.inj failed
          -- The complaint goes back to the character that was read last.
          have within : (j.seek (j.position - 1)).position ≤ line.length :=
            next.length ▸ Nat.min_le_right _ _
          have same : (j.seek (j.position - 1)).segments = line.segments := next.segments
          exact Fault.isAbout_here laid same within _ _
      · split at failed
        · exact ih next failed
        · split at failed
          · simp at failed
          · exact ih next (error_of_map failed)

theorem isAbout_read (laid : line.Laid) (reached : line.Reaches i) (failed : (read i).1 = .error f) :
    f.IsAbout line := by
  have start := reached.trans (reached.laid laid).reaches_skipBlanks
  have word := start.trans (start.laid laid).reaches_readWord
  simp only [read] at failed
  split at failed
  · obtain rfl := Except.error.inj failed
    exact start.isAbout laid _ _
  · split at failed
    · have opened := start.trans (start.laid laid).reaches_readChar
      exact isAbout_bodyWithin laid opened (error_of_map failed)
    · generalize i.skipBlanks.readWord = read at failed word
      obtain ⟨found, j⟩ := read
      cases found with
      | none =>
        obtain rfl := Except.error.inj failed
        exact word.isAbout laid _ _
      | some w => simp at failed

end Quoted

variable {S A : Type} {c : Context S A} {id : NodeId}

theorem ArgumentType.IsBuiltin.isAbout {type : ArgumentType S A} (builtin : type.IsBuiltin)
    (laid : line.Laid) (reached : line.Reaches i) (failed : (type.read i c).answer = .error (.fault f)) :
    f.IsAbout line := by
  have word := reached.trans (reached.laid laid).reaches_readWord
  cases builtin with
  | word =>
    simp only [ArgumentType.word] at failed
    generalize i.readWord = read at failed word
    obtain ⟨found, j⟩ := read
    cases found with
    | none =>
      obtain rfl := Rejection.fault.inj (Except.error.inj failed)
      exact word.isAbout laid _ _
    | some w => simp [Reading.between] at failed
  | rest =>
    simp only [ArgumentType.rest] at failed
    split at failed
    · obtain rfl := Rejection.fault.inj (Except.error.inj failed)
      exact reached.isAbout laid _ _
    · simp [Reading.between] at failed
  | string =>
    simp only [ArgumentType.string, Reading.between] at failed
    split at failed
    · simp at failed
    · rename_i e answer
      obtain rfl := Rejection.fault.inj (Except.error.inj failed)
      exact Quoted.isAbout_read laid reached answer
  | choice choices =>
    simp only [ArgumentType.choice] at failed
    split at failed
    · simp [Reading.between] at failed
    · obtain rfl := Rejection.fault.inj (Except.error.inj failed)
      exact reached.isAbout laid _ _

structure Attempt.StaysOn (line : Input) (a : Attempt S A) : Prop where
  reached : line.Reaches a.input
  complains : ∀ f, a.fault = some f → f.IsAbout line

namespace Attempt.StaysOn

variable {a : Attempt S A}

theorem succeed (reached : line.Reaches i) : (Attempt.succeed c i).StaysOn line :=
  ⟨reached, by simp [Attempt.succeed]⟩

theorem fail (reached : line.Reaches i) (about : f.IsAbout line) : (Attempt.fail c i f).StaysOn line :=
  ⟨reached, by simpa [Attempt.fail] using about⟩

theorem andThen {next : Context S A → Input → Attempt S A} (first : a.StaysOn line)
    (onward : ∀ d j, line.Reaches j → (next d j).StaysOn line) : (a.andThen next).StaysOn line := by
  unfold Attempt.andThen
  split
  · exact onward _ _ first.reached
  · exact first

theorem asMalformed (h : a.StaysOn line) : a.asMalformed.StaysOn line := by
  refine ⟨h.reached, fun f kept => ?_⟩
  obtain ⟨own, fault, rfl⟩ := Option.map_eq_some_iff.mp kept
  have about := h.complains own fault
  rwa [Fault.asMalformed_of_isMalformed _ _ about.malformed]

end Attempt.StaysOn

structure Grammar.Plainspoken (g : Grammar S A) : Prop where
  builtin : ∀ id name type, (g.node id).role = .argument name type → type.IsBuiltin
  chooses : ∀ id view, (g.node id).Chooses view

section Nodes

variable {g : Grammar S A} (laid : line.Laid) (plain : g.Plainspoken)
include laid

theorem matchLiteral_staysOn (reached : line.Reaches i) (name : String) (c : Context S A) :
    (matchLiteral id name c i).StaysOn line := by
  simp only [matchLiteral]
  split
  · exact .succeed (reached.trans (reached.laid laid).reaches_readWord)
  · exact .fail reached (reached.isAbout laid _ _)

theorem endWord_staysOn (reached : line.Reaches i) (c : Context S A) :
    (Node.endWord c i).StaysOn line := by
  unfold Node.endWord
  split
  · exact .fail reached (reached.isAbout laid _ _)
  · exact .succeed reached

theorem takeSeparator_staysOn (reached : line.Reaches i) (c : Context S A) :
    (Composed.takeSeparator c i).StaysOn line := by
  unfold Composed.takeSeparator
  split
  · exact .succeed reached
  · split
    · exact .succeed (reached.trans (reached.laid laid).reaches_readChar)
    · exact .fail reached (reached.isAbout laid _ _)

omit laid in
theorem noteUnset_staysOn (reached : line.Reaches i) (pending sequence : List NodeId)
    (c : Context S A) : (Composed.noteUnset g pending sequence c i).StaysOn line := by
  unfold Composed.noteUnset
  split <;> exact .succeed reached

include plain

theorem matchWord_staysOn (reached : line.Reaches i) (child : NodeId) (c : Context S A) :
    ((g.node child).matchWord id c i).StaysOn line := by
  unfold Node.matchWord
  split
  · exact matchLiteral_staysOn laid reached _ c
  · rename_i name type role
    have builtin := plain.builtin child name type role
    simp only [matchArgument, recordArgument]
    split
    · exact .succeed (reached.trans (Reading.reaches_advance (reached.laid laid) _))
    · rename_i f answer
      exact .fail reached (builtin.isAbout laid reached answer)
    · exact .fail reached (reached.isAbout laid _ _)
  · exact .succeed reached

omit laid in
theorem settle_staysOn (reached : line.Reaches i) (child : NodeId) (c : Context S A) :
    ((g.node child).settle c i).StaysOn line := by
  have settled : ((g.node child).settle c i).fault = none :=
    Node.settle_fault_eq_none.mpr (plain.chooses child c.toView)
  exact ⟨by rwa [Node.input_settle], by simp [settled]⟩

theorem matchChild_staysOn (reached : line.Reaches i) (child : NodeId) (c : Context S A) :
    ((g.node child).matchChild id c i).StaysOn line := by
  have word : (((g.node child).matchWord id c i).andThen Node.endWord).StaysOn line :=
    (matchWord_staysOn laid plain reached child c).andThen
      fun d j reached => endWord_staysOn laid reached d
  exact (word.andThen fun d j reached => settle_staysOn plain reached child d).asMalformed

theorem takeValues_staysOn (members : Composed) (rest pending : List NodeId) (reached : line.Reaches i)
    (c : Context S A) : (Composed.takeValues g id members rest pending c i).attempt.StaysOn line := by
  induction rest generalizing pending c i with
  | nil => exact .succeed reached
  | cons next later ih =>
    rw [Composed.takeValues]
    cases i.peekWord with
    | none => exact .succeed reached
    | some word =>
      simp only
      split
      · exact .succeed reached
      · have value : ((((g.node next).matchWord next c i).andThen Composed.takeSeparator).andThen
            (Composed.recordPlace id (Composed.without next pending) later.head?)).StaysOn line :=
          ((matchWord_staysOn laid plain reached next c).andThen
            fun d j reached => takeSeparator_staysOn laid reached d).andThen fun _ _ => .succeed
        split
        · exact ih _ value.reached _
        · exact value

theorem takeFlagged_staysOn (start : Nat) (member : NodeId) (pending : List NodeId)
    (reached : line.Reaches i) (c : Context S A) :
    (Composed.takeFlagged g id start member pending c i).StaysOn line := by
  unfold Composed.takeFlagged
  split
  · exact .fail reached (reached.isAbout laid _ _)
  · have atValue : ((Composed.takeSeparator c i).andThen fun c i =>
        .succeed (c.record (.flagValue id (some member)) ⟨start, i.position⟩) i).StaysOn line :=
      (takeSeparator_staysOn laid reached c).andThen fun _ _ => .succeed
    refine (atValue.andThen fun d j reached => matchWord_staysOn laid plain reached member d).andThen ?_
    intro d j reached
    split
    · exact (takeSeparator_staysOn laid reached d).andThen fun _ _ => .succeed
    · exact .succeed reached

theorem takeFlags_staysOn (members : Composed) (n : Nat) (pending : List NodeId)
    (reached : line.Reaches i) (c : Context S A) :
    (Composed.takeFlags g id members n pending c i).1.StaysOn line := by
  induction n generalizing pending c i with
  | zero => exact .succeed reached
  | succ n ih =>
    simp only [Composed.takeFlags]
    split
    · exact .succeed reached
    · rename_i member _
      have word := reached.trans (reached.laid laid).reaches_readWord
      have value : (Composed.takeFlagged g id i.position member
          (Composed.without member pending) c i.readWord.2).StaysOn line :=
        takeFlagged_staysOn laid plain i.position member _ word c
      split
      · exact ih _ value.reached _
      · exact value

theorem read_staysOn (members : Composed) (reached : line.Reaches i) (c : Context S A) :
    (members.read g id c i).StaysOn line := by
  have values : (Composed.takeValues g id members members.sequence members.sequence
      (c.record (.afterValue id members.sequence members.sequence.head?) (.point i.position)) i
      ).attempt.StaysOn line :=
    takeValues_staysOn laid plain members members.sequence members.sequence reached _
  simp only [Composed.read]
  split
  · exact values
  · split
    · exact (takeFlags_staysOn laid plain members _ _ values.reached _).andThen
        fun d j reached => noteUnset_staysOn reached _ _ d
    · exact values.andThen fun d j reached => noteUnset_staysOn reached _ _ d

theorem matchComposed_staysOn (members : Composed) (reached : line.Reaches i) (child : NodeId)
    (c : Context S A) : ((g.node child).matchComposed g id members c i).StaysOn line :=
  ((read_staysOn laid plain members reached c).andThen
    fun d _ reached => settle_staysOn plain reached child d).asMalformed

end Nodes

end Lines

variable {S A : Type}

def Trial.Complains (P : Fault → Prop) : Trial S A → Prop
  | .decided p => ∀ e ∈ p.faults, P e.2
  | .stuck _ _ f => P f
  | .matched p => ∀ e ∈ p.faults, P e.2
  | .rejected f => P f

namespace Grammar

variable {g : Grammar S A} {P : Fault → Prop} {line i : Input} {c : Context S A}

theorem tryChildren_complains {trial : NodeId → Trial S A} {tried : List NodeId}
    (each : ∀ child ∈ tried, (trial child).Complains P) {faults : List (NodeId × Fault)}
    (known : ∀ e ∈ faults, P e.2) {found : List (Parse S A)}
    (matched : ∀ p ∈ found, ∀ e ∈ p.faults, P e.2) :
    ∀ e ∈ (tryChildren trial c i tried faults found).faults, P e.2 := by
  induction tried generalizing faults found with
  | nil =>
    rw [tryChildren]
    cases best : Parse.best found with
    | none => exact known
    | some p =>
      obtain ⟨before, after, rfl, -⟩ := Parse.best_eq_some best
      exact matched p (by simp)
  | cons child rest ih =>
    have first := each child (by simp)
    have later := fun b member => each b (List.mem_cons_of_mem _ member)
    have further (f : Fault) (holds : P f) : ∀ e ∈ faults ++ [(child, f)], P e.2 := by
      intro e member
      rcases List.mem_append.mp member with old | new
      · exact known e old
      · exact List.mem_singleton.mp new ▸ holds
    rw [tryChildren]
    cases outcome : trial child with
    | decided p => exact (outcome ▸ first : (Trial.decided p).Complains P)
    | stuck d j f => exact further f (outcome ▸ first : (Trial.stuck d j f).Complains P)
    | rejected f =>
      exact ih later (further f (outcome ▸ first : (Trial.rejected f : Trial S A).Complains P)) matched
    | matched p =>
      have new : (Trial.matched p).Complains P := outcome ▸ first
      refine ih later known fun q member => ?_
      rcases List.mem_append.mp member with old | same
      · exact matched q old
      · exact List.mem_singleton.mp same ▸ new

theorem tryChild_complains {below : NodeId → Context S A → Input → Parse S A} {child : NodeId}
    (own : ∀ f, (g.attempt c i child).fault = some f → P f)
    (deeper : ∀ id d, ∀ e ∈ (below id d ((g.node child).matchChild child c i).input.readChar.2).faults,
      P e.2) : (g.tryChild below c i child).Complains P := by
  unfold attempt at own
  cases composed : (g.node child).composed? with
  | some members =>
    simp only [composed] at own
    rw [tryChild_composed composed]
    cases fault : ((g.node child).matchComposed g child members c i).fault with
    | none => simp [Trial.Complains]
    | some f => exact own f fault
  | none =>
    simp only [composed] at own
    cases fault : ((g.node child).matchChild child c i).fault with
    | some f =>
      rw [tryChild_rejected composed fault]
      exact own f fault
    | none =>
      cases more : ((g.node child).matchChild child c i).input.hasMore with
      | false =>
        rw [tryChild_ended composed fault more]
        simp [Trial.Complains]
      | true =>
        cases redirect : (g.node child).redirect with
        | none =>
          rw [tryChild_below composed fault more redirect]
          exact deeper _ _
        | some target =>
          rw [tryChild_redirect composed fault more redirect]
          exact deeper _ _

theorem parseWithin_complains (laid : line.Laid)
    (own : ∀ c i child f, line.Reaches i → (g.attempt c i child).fault = some f → P f) (depth : Nat)
    (id : NodeId) (c : Context S A) (reached : line.Reaches i) :
    ∀ e ∈ (g.parseWithin depth id c i).faults, P e.2 := by
  induction depth generalizing id c i with
  | zero => simp [parseWithin]
  | succ depth ih =>
    rw [parseWithin]
    refine tryChildren_complains (fun child _ => ?_) (by simp) (by simp)
    have next := reached.trans (g.reaches_next (reached.laid laid) c child)
    exact tryChild_complains (fun f => own c i child f reached) fun id d => ih id d next

theorem isMalformed_attempt (g : Grammar S A) (c : Context S A) (i : Input) (child : NodeId) {f : Fault}
    (fault : (g.attempt c i child).fault = some f) : f.isMalformed = true := by
  have told {a : Attempt S A} (fault : a.asMalformed.fault = some f) : f.isMalformed = true := by
    obtain ⟨own, -, rfl⟩ := Option.map_eq_some_iff.mp fault
    exact own.isMalformed_asMalformed a.input
  unfold attempt at fault
  split at fault
  · exact told fault
  · exact told fault

theorem Plainspoken.isAbout_attempt (plain : g.Plainspoken) (laid : line.Laid) (c : Context S A)
    (child : NodeId) {f : Fault} (reached : line.Reaches i)
    (fault : (g.attempt c i child).fault = some f) : f.IsAbout line := by
  unfold attempt at fault
  split at fault
  · exact (matchComposed_staysOn laid plain _ reached child c).complains f fault
  · exact (matchChild_staysOn laid plain reached child c).complains f fault

end Grammar

namespace Parse

variable {p : Parse S A}

theorem check_eq_ok : p.check = .ok () ↔ p.isComplete = true := by
  constructor
  · intro ok
    by_contra incomplete
    obtain ⟨f, refused⟩ := check_of_not_isComplete (Bool.not_eq_true _ ▸ incomplete)
    simp [refused] at ok
  · intro complete
    simp [check, complete]

theorem isMalformed_check (malformed : ∀ e ∈ p.faults, e.2.isMalformed = true) {f : Fault}
    (refused : p.check = .error f) : f.isMalformed = true := by
  simp only [check] at refused
  split at refused
  · simp at refused
  · split at refused
    · rename_i id only faults
      obtain rfl := Except.error.inj refused
      exact malformed (id, only) (by simp [faults])
    · split at refused <;> (obtain rfl := Except.error.inj refused; rfl)

theorem execute_of_check_eq_error {f : Fault} (refused : p.check = .error f) {E : Type}
    (g : Grammar S A) (perform : Context S A → Action A → Run E Unit) : p.execute g perform = .fail f := by
  simp only [execute, refused]

end Parse

/-- Only complaints about the line are kept, whatever goes wrong. With the arguments of the library and
actions that can always be chosen each of them quotes the line and points to a place on it. A line that
was not read as a whole comes to such a complaint, whatever redirections and actions there are. -/
theorem Grammar.parse_complains (g : Grammar S A) (source : S) (r : Rendering) (values : List Value)
    (n : Nat) :
    let i := (Input.ofValues r values).seek n
    let p := g.parse source i
    (g.Plainspoken → ∀ e ∈ p.faults, e.2.IsAbout i) ∧
      (∀ e ∈ p.faults, e.2.isMalformed = true) ∧
      (p.check = .ok () ↔ p.isComplete = true) ∧
      (p.isComplete = false → ∃ f, p.check = .error f ∧ f.isMalformed = true ∧
        ∀ (E : Type) (g' : Grammar S A) (perform : Context S A → Action A → Run E Unit),
          p.execute g' perform = .fail f) := by
  intro i p
  have laid : i.Laid := Input.laid_ofValues r values n
  have malformed : ∀ e ∈ p.faults, e.2.isMalformed = true :=
    parseWithin_complains laid (fun c j child f _ => g.isMalformed_attempt c j child) _ _ _ laid.refl
  refine ⟨fun plain => ?_, malformed, Parse.check_eq_ok, fun incomplete => ?_⟩
  · exact parseWithin_complains laid (fun c j child f => plain.isAbout_attempt laid c child) _ _ _
      laid.refl
  · obtain ⟨f, refused⟩ := Parse.check_of_not_isComplete incomplete
    exact ⟨f, refused, Parse.isMalformed_check malformed refused,
      fun E g' perform => Parse.execute_of_check_eq_error refused g' perform⟩

theorem Demo.plainspoken_grammar : grammar.Plainspoken := by
  refine ⟨readsPlaceFree_grammar.builtin, fun id view choose chosen => ?_⟩
  match id with
  | 2 | 3 | 4 | 9 | 10 | 14 | 15 =>
    cases chosen
    exact ⟨_, rfl⟩
  | 0 | 1 | 5 | 6 | 7 | 8 | 11 | 12 | 13 => cases chosen
  | _ + 16 => cases chosen

theorem Demo.move_complains :
    let i := (Input.ofValues .standard [.ofString "move a", .unit, .ofString "\"b\\\""]).seek 0
    let p := grammar.parse ⟨"console", true⟩ i
    let f : Fault := .malformed .quoteEndExpected 13 "move a   \"b\\\"" none
    grammar.Plainspoken ∧ p.isComplete = false ∧ p.faults = [(9, f)] ∧ f.IsAbout i ∧
      ∀ (E : Type) (g' : Grammar User Deed) (perform : Context User Deed → Action Deed → Run E Unit),
        p.execute g' perform = .fail f := by
  intro i p f
  obtain ⟨about, -, -, refused⟩ := grammar.parse_complains ⟨"console", true⟩ .standard
    [.ofString "move a", .unit, .ofString "\"b\\\""] 0
  have incomplete : p.isComplete = false := by decide +kernel
  have faults : p.faults = [(9, f)] := by decide +kernel
  have kept : (9, f) ∈ p.faults := faults ▸ List.mem_singleton_self _
  have check : p.check = .error f := by decide +kernel
  obtain ⟨f', same, -, runs⟩ := refused incomplete
  obtain rfl : f = f' := Except.error.inj (check.symm.trans same)
  exact ⟨plainspoken_grammar, incomplete, faults, about plainspoken_grammar _ kept, runs⟩

end CommandGrammar
