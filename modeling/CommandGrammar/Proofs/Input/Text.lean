import CommandGrammar.Argument.Quoted
import CommandGrammar.Proofs.Input.Spelling

set_option autoImplicit false

namespace CommandGrammar.Input

def Shows (i : Input) (left : List Char) : Prop :=
  ∃ passed, i = ⟨(ofText (String.ofList (passed ++ left))).segments, passed.length⟩

theorem shows_ofText (s : String) : (ofText s).Shows s.toList :=
  ⟨[], by simp [ofText, ofValues]⟩

theorem solid_of_all {word : List Char} (all : (word.all fun ch => !Text.isBlank ch) = true) :
    ∀ ch ∈ word, Text.isBlank ch = false := by
  simpa using all

namespace Shows

variable {i : Input} {left : List Char}

theorem holds (h : i.Shows left) : ∃ cs, i.Holds cs ∧ cs.drop i.position = left := by
  obtain ⟨passed, rfl⟩ := h
  have spells := (holds_ofText (String.ofList (passed ++ left))).spells
  rw [String.toList_ofList] at spells
  exact ⟨passed ++ left, ⟨spells, by simp⟩, by simp⟩

theorem length_eq (h : i.Shows left) : i.length = i.position + left.length := by
  obtain ⟨cs, holds, rfl⟩ := h.holds
  rw [holds.length_eq, List.length_drop, Nat.add_sub_cancel' holds.position_le]

theorem hasMore_eq (h : i.Shows left) : i.hasMore = !left.isEmpty := by
  obtain ⟨cs, holds, rfl⟩ := h.holds
  exact holds.hasMore_eq

theorem laid (h : i.Shows left) : i.Laid := by
  obtain ⟨cs, holds, -⟩ := h.holds
  exact holds.laid

theorem advance (h : i.Shows left) {n : Nat} (within : n ≤ left.length) :
    ({ i with position := i.position + n } : Input).Shows (left.drop n) := by
  obtain ⟨passed, rfl⟩ := h
  refine ⟨passed ++ left.take n, ?_⟩
  rw [List.append_assoc, List.take_append_drop]
  simp [within]

theorem reaches (h : i.Shows left) {j : Input} (reached : i.Reaches j) :
    j.Shows (left.drop (j.position - i.position)) := by
  have within := reached.within
  have moved := h.advance (n := j.position - i.position) (by rw [h.length_eq] at within; omega)
  rw [Nat.add_sub_cancel' reached.forward] at moved
  rwa [← reached.segments] at moved

theorem peek_eq (h : i.Shows left) : i.peek = left.head? := by
  obtain ⟨cs, holds, rfl⟩ := h.holds
  exact holds.peek_eq

theorem readChar_eq (h : i.Shows left) :
    i.readChar = (left.head?, { i with position := i.position + min 1 left.length }) := by
  obtain ⟨cs, holds, rfl⟩ := h.holds
  exact holds.readChar_eq

theorem readChar_cons {ch : Char} (h : i.Shows (ch :: left)) :
    i.readChar = (some ch, { i with position := i.position + 1 }) := by
  simp [h.readChar_eq]

theorem readWord_eq (h : i.Shows left) :
    i.readWord = ((firstWord left).1, { i with position := i.position + (firstWord left).2 }) := by
  obtain ⟨cs, holds, rfl⟩ := h.holds
  exact holds.readWord_eq

theorem remaining_eq (h : i.Shows left) : i.remaining = String.ofList left := by
  obtain ⟨cs, holds, rfl⟩ := h.holds
  exact holds.remaining_eq

theorem skipBlanks_eq (h : i.Shows left) :
    i.skipBlanks = { i with position := i.position + (left.takeWhile Text.isBlank).length } := by
  obtain ⟨cs, holds, rfl⟩ := h.holds
  exact holds.skipBlanks_eq

end Shows

theorem textBetween_congr {i j : Input} (same : j.segments = i.segments) (start stop : Nat) :
    j.textBetween start stop = i.textBetween start stop := by
  simp only [textBetween, same]

theorem textBetween_ofText (cs : List Char) (start stop : Nat) :
    (ofText (String.ofList cs)).textBetween start stop = String.ofList ((cs.take stop).drop start) := by
  have typed := (holds_ofText (String.ofList cs)).textBetween_eq start stop
  rwa [String.toList_ofList] at typed

theorem textBetween_ofText_append (text line : String) (start stop : Nat) :
    (ofText (text ++ line)).textBetween (start + text.length) (stop + text.length) =
      (ofText line).textBetween start stop := by
  rw [(holds_ofText _).textBetween_eq, (holds_ofText _).textBetween_eq, String.toList_append,
    ← String.length_toList, Nat.add_comm stop, Nat.add_comm start, List.take_length_add_append,
    List.drop_length_add_append]

theorem length_ofText (s : String) : (ofText s).length = s.length := by
  rw [(holds_ofText s).length_eq, String.length_toList]

end CommandGrammar.Input
