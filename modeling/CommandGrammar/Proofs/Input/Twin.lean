import CommandGrammar.Proofs.Input.Text

set_option autoImplicit false

namespace CommandGrammar

namespace Input

structure Twin (d : Nat) (i j : Input) : Prop where
  position : j.position = i.position + d
  left : ∃ left, i.Shows left ∧ j.Shows left

namespace Twin

variable {d : Nat} {i j : Input}

theorem advance (h : i.Twin d j) {left : List Char} (hi : i.Shows left) (hj : j.Shows left) {n : Nat}
    (within : n ≤ left.length) :
    Twin d { i with position := i.position + n } { j with position := j.position + n } := by
  have moved := h.position
  exact ⟨by simp only; omega, left.drop n, hi.advance within, hj.advance within⟩

theorem hasMore (h : i.Twin d j) : j.hasMore = i.hasMore := by
  obtain ⟨left, hi, hj⟩ := h.left
  rw [hi.hasMore_eq, hj.hasMore_eq]

theorem peek (h : i.Twin d j) : j.peek = i.peek := by
  obtain ⟨left, hi, hj⟩ := h.left
  rw [hi.peek_eq, hj.peek_eq]

theorem toEnd (h : i.Twin d j) : j.length - j.position = i.length - i.position := by
  obtain ⟨left, hi, hj⟩ := h.left
  rw [hi.length_eq, hj.length_eq]
  omega

theorem readChar (h : i.Twin d j) : j.readChar.1 = i.readChar.1 ∧ i.readChar.2.Twin d j.readChar.2 := by
  obtain ⟨left, hi, hj⟩ := h.left
  rw [hi.readChar_eq, hj.readChar_eq]
  exact ⟨rfl, h.advance hi hj (Nat.min_le_right _ _)⟩

theorem readWord (h : i.Twin d j) : j.readWord.1 = i.readWord.1 ∧ i.readWord.2.Twin d j.readWord.2 := by
  obtain ⟨left, hi, hj⟩ := h.left
  rw [hi.readWord_eq, hj.readWord_eq]
  exact ⟨rfl, h.advance hi hj (firstWord_le left)⟩

theorem peekWord (h : i.Twin d j) : j.peekWord = i.peekWord := by
  rw [← fst_readWord, ← fst_readWord, h.readWord.1]

theorem remaining (h : i.Twin d j) : j.remaining = i.remaining := by
  obtain ⟨left, hi, hj⟩ := h.left
  rw [hi.remaining_eq, hj.remaining_eq]

theorem skipBlanks (h : i.Twin d j) : i.skipBlanks.Twin d j.skipBlanks := by
  obtain ⟨left, hi, hj⟩ := h.left
  rw [hi.skipBlanks_eq, hj.skipBlanks_eq]
  exact h.advance hi hj (List.takeWhile_sublist _).length_le

theorem seek (h : i.Twin d j) (n : Nat) :
    (i.seek (i.position + n)).Twin d (j.seek (j.position + n)) := by
  obtain ⟨left, hi, hj⟩ := h.left
  have clipped {k : Input} (hk : k.Shows left) :
      k.seek (k.position + n) = { k with position := k.position + min n left.length } := by
    rw [Input.seek, hk.length_eq, Nat.add_min_add_left]
  rw [clipped hi, clipped hj]
  exact h.advance hi hj (Nat.min_le_right _ _)

theorem seek_length (h : i.Twin d j) : (i.seek i.length).Twin d (j.seek j.length) := by
  obtain ⟨left, hi, hj⟩ := h.left
  have atEnd := h.seek left.length
  rwa [← hi.length_eq, ← hj.length_eq] at atEnd

end Twin

inductive Alike {α : Type} (d : Nat) : Except Fault α × Input → Except Fault α × Input → Prop
  | ok (a : α) {i j : Input} : i.Twin d j → Alike d (.ok a, i) (.ok a, j)
  | error (e f : Fault) (i j : Input) : Alike d (.error e, i) (.error f, j)

theorem Alike.map {α β : Type} {d : Nat} {r s : Except Fault α × Input} (h : Alike d r s) (f : α → β) :
    Alike d (r.1.map f, r.2) (s.1.map f, s.2) := by
  cases h with
  | ok a twin => exact .ok (f a) twin
  | error e f i j => exact .error e f i j

end Input

namespace Quoted

variable {d : Nat} {i j : Input}

theorem bodyWithin_alike (quote : Char) (n : Nat) (escaped : Bool) (h : i.Twin d j) :
    Input.Alike d (bodyWithin quote n escaped i) (bodyWithin quote n escaped j) := by
  induction n generalizing escaped i j with
  | zero => exact .error _ _ _ _
  | succ n ih =>
    obtain ⟨same, next⟩ := h.readChar
    rw [bodyWithin, bodyWithin]
    generalize i.readChar = r at same next
    generalize j.readChar = s at same next
    obtain ⟨found, i'⟩ := r
    obtain ⟨found', j'⟩ := s
    obtain rfl : found' = found := same
    cases found' with
    | none => exact .error _ _ _ _
    | some c =>
      simp only
      split
      · split
        · exact (ih false next).map _
        · exact .error _ _ _ _
      · split
        · exact ih true next
        · split
          · exact .ok [] next
          · exact (ih false next).map _

theorem body_alike (quote : Char) (h : i.Twin d j) :
    Input.Alike d (body quote i) (body quote j) := by
  rw [body, body, h.toEnd]
  exact bodyWithin_alike quote _ false h

theorem read_alike (h : i.Twin d j) : Input.Alike d (read i) (read j) := by
  have start := h.skipBlanks
  simp only [read, start.peek]
  cases i.skipBlanks.peek with
  | none => exact .error _ _ _ _
  | some c =>
    simp only
    split
    · exact (body_alike c start.readChar.2).map _
    · obtain ⟨same, next⟩ := start.readWord
      generalize i.skipBlanks.readWord = r at same next
      generalize j.skipBlanks.readWord = s at same next
      obtain ⟨found, i'⟩ := r
      obtain ⟨found', j'⟩ := s
      obtain rfl : found' = found := same
      cases found' with
      | none => exact .error _ _ _ _
      | some w => exact .ok w.asText next

end Quoted

inductive Reading.Alike : Reading → Reading → Prop
  | ok (taken : Nat) (v : Value) : Alike ⟨taken, .ok v⟩ ⟨taken, .ok v⟩
  | error (n m : Nat) (e f : Rejection) : Alike ⟨n, .error e⟩ ⟨m, .error f⟩

variable {S A : Type} {d : Nat} {i j i' j' : Input}

theorem Input.Twin.between (h : i.Twin d j) (h' : i'.Twin d j') (v : Value) :
    Reading.Alike (.between i i' (.ok v)) (.between j j' (.ok v)) := by
  have same : j'.position - j.position = i'.position - i.position := by
    rw [h.position, h'.position, Nat.add_sub_add_right]
  rw [Reading.between, Reading.between, same]
  exact .ok _ v

inductive ArgumentType.IsBuiltin : ArgumentType S A → Prop
  | word : IsBuiltin word
  | rest : IsBuiltin rest
  | string : IsBuiltin string
  | choice (choices : List (String × Value)) : IsBuiltin (choice choices)

theorem ArgumentType.IsBuiltin.read_alike {type : ArgumentType S A} (builtin : type.IsBuiltin)
    (h : i.Twin d j) (c c' : Context S A) : Reading.Alike (type.read i c) (type.read j c') := by
  obtain ⟨same, next⟩ := h.readWord
  cases builtin with
  | word =>
    simp only [ArgumentType.word]
    generalize i.readWord = r at same next
    generalize j.readWord = s at same next
    obtain ⟨found, i'⟩ := r
    obtain ⟨found', j'⟩ := s
    obtain rfl : found' = found := same
    cases found' with
    | none => exact .error _ _ _ _
    | some w => exact h.between next w.value
  | rest =>
    simp only [ArgumentType.rest, h.remaining]
    split
    · exact .error _ _ _ _
    · exact h.between h.seek_length _
  | string =>
    simp only [ArgumentType.string]
    have alike := Quoted.read_alike h
    generalize Quoted.read i = r at alike
    generalize Quoted.read j = s at alike
    cases alike with
    | ok text next => exact h.between next _
    | error e f => exact .error _ _ _ _
  | choice choices =>
    simp only [ArgumentType.choice]
    generalize i.readWord = r at same next
    generalize j.readWord = s at same next
    obtain ⟨found, i'⟩ := r
    obtain ⟨found', j'⟩ := s
    obtain rfl : found' = found := same
    simp only
    cases found'.bind fun w => ArgumentType.chosen? choices w.asText with
    | none => exact .error _ _ _ _
    | some v => exact h.between next v

end CommandGrammar
