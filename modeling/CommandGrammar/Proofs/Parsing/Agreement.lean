import CommandGrammar.Proofs.Input.Agreement
import CommandGrammar.Proofs.Parsing.Growth

set_option autoImplicit false

namespace CommandGrammar

variable {S A : Type} {k : Nat} {i j : Input} {id : NodeId} {c : Context S A} {n : Node S A}

structure Attempt.Agree (k : Nat) (a b : Attempt S A) : Prop where
  context : b.context = a.context
  fault : b.fault = a.fault
  input : a.input.Agree k b.input

theorem matchLiteral_agree {name : String} (h : i.Agree k j)
    (ok : (matchLiteral id name c i).fault = none)
    (before : (matchLiteral id name c i).input.position < k) :
    (matchLiteral id name c i).Agree k (matchLiteral id name c j) := by
  simp only [matchLiteral] at ok before ⊢
  split at ok
  case isFalse => simp [Attempt.fail] at ok
  case isTrue found =>
    rw [if_pos found] at before ⊢
    obtain ⟨word, next⟩ := h.readWord before
    rw [word, if_pos found, h.position, next.position]
    exact ⟨rfl, rfl, next⟩

theorem matchArgument_agree {name : String} {type : ArgumentType S A} (builtin : type.IsBuiltin)
    (h : i.Agree k j) (ok : (matchArgument id name type c i).fault = none)
    (before : (matchArgument id name type c i).input.position < k) :
    (matchArgument id name type c i).Agree k (matchArgument id name type c j) := by
  simp only [matchArgument, recordArgument] at ok before ⊢
  cases answer : (type.read i c).answer with
  | error e => cases e <;> simp [answer, Attempt.fail] at ok
  | ok value =>
    simp only [answer] at before ⊢
    have same := builtin.read_agree h c c answer before
    have next := h.seek before
    simp only [same, answer]
    have position : ((type.read i c).advance j).position = ((type.read i c).advance i).position :=
      next.position
    rw [h.position, position]
    exact ⟨rfl, rfl, next⟩

namespace Node

theorem matchWord_agree
    (builtin : ∀ name type, n.role = .argument name type → type.IsBuiltin) (h : i.Agree k j)
    (ok : (n.matchWord id c i).fault = none) (before : (n.matchWord id c i).input.position < k) :
    (n.matchWord id c i).Agree k (n.matchWord id c j) := by
  unfold matchWord at ok before ⊢
  cases role : n.role with
  | root | composed => exact ⟨rfl, rfl, h⟩
  | literal name =>
    simp only [role] at ok before
    exact matchLiteral_agree h ok before
  | argument name type =>
    simp only [role] at ok before
    exact matchArgument_agree (builtin name type role) h ok before

theorem endWord_agree (h : i.Agree k j) (before : i.position < k) (ok : (endWord c i).fault = none) :
    (endWord c j).fault = none := by
  obtain ⟨more, more'⟩ := h.hasMore before
  simp only [endWord, more, more', h.peek_eq before] at ok ⊢
  split at ok
  case isTrue => simp [Attempt.fail] at ok
  case isFalse blank => rw [if_neg blank]; rfl

theorem settle_agree (h : i.Agree k j) (n : Node S A) (c : Context S A) :
    (n.settle c i).Agree k (n.settle c j) := by
  simp only [settle]
  split
  · split <;> exact ⟨rfl, rfl, h⟩
  · exact ⟨rfl, rfl, h⟩

theorem matchChild_agree
    (builtin : ∀ name type, n.role = .argument name type → type.IsBuiltin) (h : i.Agree k j)
    (ok : (n.matchChild id c i).fault = none) (before : (n.matchChild id c i).input.position < k) :
    (n.matchChild id c i).Agree k (n.matchChild id c j) := by
  obtain ⟨word, ended, settled⟩ := matchChild_fault_eq_none.mp ok
  rw [input_matchChild] at before
  have same := matchWord_agree builtin h word before
  have settles := settle_agree same.input n (n.matchWord id c i).context
  have ok' : (n.matchChild id c j).fault = none := by
    refine matchChild_fault_eq_none.mpr ⟨same.fault.trans word, ?_, ?_⟩
    · rw [same.context]
      exact endWord_agree same.input before ended
    · rw [same.context]
      exact settles.fault.trans settled
  refine ⟨?_, ok'.trans ok.symm, ?_⟩
  · rw [context_matchChild ok', context_matchChild ok, same.context]
    exact settles.context
  · rw [input_matchChild, input_matchChild]
    exact same.input

theorem readWord_le_matchChild
    (builtin : ∀ name type, n.role = .argument name type → type.IsBuiltin) {left : List Char}
    (shows : i.Shows left) (proper : n.isRoot = false) (plain : n.composed? = none)
    (ok : (n.matchChild id c i).fault = none)
    (more : (n.matchChild id c i).input.hasMore = true) :
    i.readWord.2.position ≤ (n.matchChild id c i).input.position := by
  obtain ⟨word, ended, -⟩ := matchChild_fault_eq_none.mp ok
  rw [input_matchChild] at more ⊢
  unfold matchWord at word more ended ⊢
  cases role : n.role with
  | root => simp [isRoot, role] at proper
  | composed members => simp [composed?, role] at plain
  | literal name =>
    simp only [role, matchLiteral] at word ⊢
    split at word
    case isTrue found => rw [if_pos found]; exact Nat.le_refl _
    case isFalse => simp [Attempt.fail] at word
  | argument name type =>
    simp only [role, matchArgument, recordArgument] at word more ended ⊢
    cases answer : (type.read i c).answer with
    | error e => cases e <;> simp [answer, Attempt.fail] at word
    | ok value =>
      simp only [answer, Attempt.succeed] at more ended ⊢
      rw [endWord, more, Bool.true_and] at ended
      split at ended
      case isTrue => simp [Attempt.fail] at ended
      case isFalse blank =>
        cases next : ((type.read i c).advance i).peek with
        | none => simp [next] at blank
        | some ch =>
          exact (builtin name type role).readWord_le shows c answer next (by simpa [next] using blank)

end Node

end CommandGrammar
