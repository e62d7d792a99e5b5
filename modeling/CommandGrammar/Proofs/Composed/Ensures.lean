import CommandGrammar.Proofs.Parsing.Growth

set_option autoImplicit false

namespace CommandGrammar

variable {S A : Type}

namespace Attempt

structure Ensures (P : Context S A → Prop) (Q : Context S A → Input → Prop) (a : Attempt S A) : Prop where
  keeps : P a.context
  stands : a.fault = none → Q a.context a.input

namespace Ensures

variable {P : Context S A → Prop} {Q R : Context S A → Input → Prop} {a : Attempt S A}
  {c : Context S A} {i : Input}

theorem succeed (keeps : P c) (stands : Q c i) : (Attempt.succeed c i).Ensures P Q :=
  ⟨keeps, fun _ => stands⟩

theorem fail (keeps : P c) (f : Fault) : (Attempt.fail c i f).Ensures P Q :=
  ⟨keeps, fun ok => by simp [Attempt.fail] at ok⟩

theorem andThen {next : Context S A → Input → Attempt S A} (first : a.Ensures P Q)
    (onward : ∀ c i, P c → Q c i → (next c i).Ensures P R) : (a.andThen next).Ensures P R := by
  unfold Attempt.andThen
  cases fault : a.fault with
  | none => exact onward _ _ first.keeps (first.stands fault)
  | some f => exact ⟨first.keeps, fun ok => by simp [fault] at ok⟩

end Ensures

end Attempt

namespace Composed

structure Keeps (g : Grammar S A) (id : NodeId) (members : Composed) (P : Context S A → Prop)
    (Q : Context S A → Input → Prop) : Prop where
  value : ∀ m ∈ members.sequence, ∀ pending next c i, i.peekWord.isSome = true → P c → Q c i →
    ((((g.node m).matchWord m c i).andThen takeSeparator).andThen
      (recordPlace id pending next)).Ensures P Q
  flag : ∀ m ∈ members.sequence, ∀ pending c i, i.peekWord.isSome = true → P c → Q c i →
    (takeFlagged g id i.position m pending c i.readWord.2).Ensures P Q
  note : ∀ c unset, P c → P (c.annotate none unset)

namespace Keeps

variable {g : Grammar S A} {id : NodeId} {members : Composed} {P : Context S A → Prop}
  {Q : Context S A → Input → Prop} {c : Context S A} {i : Input} (keeps : Keeps g id members P Q)
include keeps

theorem takeValues {rest : List NodeId} (known : rest ⊆ members.sequence) (pending : List NodeId)
    (holds : P c) (stands : Q c i) :
    (takeValues g id members rest pending c i).attempt.Ensures P Q := by
  induction rest generalizing pending c i with
  | nil => exact .succeed holds stands
  | cons next later ih =>
    rw [Composed.takeValues]
    cases peeked : i.peekWord with
    | none => exact .succeed holds stands
    | some word =>
      simp only
      split
      · exact .succeed holds stands
      · have tried := keeps.value next (known List.mem_cons_self) (without next pending) later.head? c i
          (by simp [peeked]) holds stands
        generalize (((g.node next).matchWord next c i).andThen takeSeparator).andThen
          (recordPlace id (without next pending) later.head?) = a at tried
        cases fault : a.fault with
        | some f => exact tried
        | none =>
          exact ih (fun m inside => known (List.mem_cons_of_mem _ inside)) _ tried.keeps
            (tried.stands fault)

theorem takeFlags (n : Nat) {pending : List NodeId} (known : pending ⊆ members.sequence) (holds : P c)
    (stands : Q c i) : (takeFlags g id members n pending c i).1.Ensures P Q := by
  induction n generalizing pending c i with
  | zero => exact .succeed holds stands
  | succ n ih =>
    rw [Composed.takeFlags]
    simp only [Input.fst_readWord]
    cases flag : i.peekWord.bind fun word => members.pendingFlag word.asText pending with
    | none => exact .succeed holds stands
    | some m =>
      obtain ⟨word, peeked, flag⟩ := Option.bind_eq_some_iff.mp flag
      have tried := keeps.flag m (known (mem_of_pendingFlag flag)) (without m pending) c i
        (by simp [peeked]) holds stands
      simp only
      generalize takeFlagged g id i.position m (without m pending) c i.readWord.2 = a at tried
      cases fault : a.fault with
      | some f => exact tried
      | none =>
        exact ih (fun m inside => known (List.mem_filter.mp inside).1) tried.keeps (tried.stands fault)

theorem noteUnset (pending sequence : List NodeId) (holds : P c) :
    P (noteUnset g pending sequence c i).context := by
  unfold Composed.noteUnset
  split
  · exact keeps.note _ _ holds
  · exact holds

theorem read (holds : P (c.record (members.firstPlace id i).matched (members.firstPlace id i).span))
    (stands : Q (c.record (members.firstPlace id i).matched (members.firstPlace id i).span) i) :
    P (members.read g id c i).context := by
  have values := keeps.takeValues (fun _ member => member) members.sequence holds stands
  have known := (takeValues_subset g id members members.sequence members.sequence
    (c.record (members.firstPlace id i).matched (members.firstPlace id i).span) i).1
  have noted {a : Attempt S A} (pending sequence : List NodeId) (kept : a.Ensures P Q) :
      P (a.andThen (Composed.noteUnset g pending sequence)).context := by
    unfold Attempt.andThen
    split
    · exact keeps.noteUnset _ _ kept.keeps
    · exact kept.keeps
  simp only [Composed.read]
  split
  · exact values.keeps
  · rename_i ok
    split
    · exact noted _ _ (keeps.takeFlags _ known values.keeps (values.stands ok))
    · exact noted _ _ values

end Keeps

end Composed

end CommandGrammar
