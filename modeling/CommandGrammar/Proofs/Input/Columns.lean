import CommandGrammar.Fault
import CommandGrammar.Proofs.Input.Shown

set_option autoImplicit false

namespace CommandGrammar

def Rendering.shown (r : Rendering) (v : Value) : String := if r.text v = "" then " " else r.text v

namespace Input

variable {i : Input}

theorem shown_content (r : Rendering) (v : Value) (start stop : Nat) :
    Segment.shown ⟨start, stop, .content (.ofValue r v)⟩ = (r.shown v).toList := by
  by_cases empty : r.text v = "" <;> simp [Segment.shown, Content.ofValue, Rendering.shown, empty]

theorem shown_layoutFrom (r : Rendering) (p : Nat) (values : List Value) :
    (layoutFrom r p values).flatMap Segment.shown = (" ".intercalate (values.map r.shown)).toList := by
  fun_induction layoutFrom r p values with
  | case1 p => rfl
  | case2 p v c =>
    rw [List.flatMap_cons, shown_content]
    simp [Segment.shown]
  | case3 p v w rest c stop ih =>
    rw [List.flatMap_cons, List.flatMap_cons, shown_content, ih]
    simp [Segment.shown, String.intercalate_cons_cons]

namespace Laid

theorem textBetween_append (h : i.Laid) {a b c : Nat} (first : a ≤ b) (second : b ≤ c) :
    i.textBetween a b ++ i.textBetween b c = i.textBetween a c := by
  obtain ⟨n, rfl⟩ := Nat.exists_eq_add_of_le first
  obtain ⟨m, rfl⟩ := Nat.exists_eq_add_of_le second
  have width : a + n + m - a = n + m := by omega
  rw [h.textBetween_eq, h.textBetween_eq, h.textBetween_eq, ← String.ofList_append, List.drop_take,
    List.drop_take, List.drop_take, Nat.add_sub_cancel_left, Nat.add_sub_cancel_left, width, List.take_add,
    List.drop_drop]

theorem textBetween_line (h : i.Laid) (start stop : Nat) :
    i.textBetween start stop =
      String.ofList ((i.line.toList.take (min stop i.length)).drop start) := by
  rw [h.textBetween_eq, h.line_eq, String.toList_ofList, ← h.length_shown, ← List.take_take,
    List.take_length]

theorem caret?_here (h : i.Laid) (complaint : Complaint) (cause : Option String) :
    ∃ front behind : String, i.line = front ++ behind ∧ front.length = i.position ∧
      (Fault.here i complaint cause).caret? =
        some (front ++ behind ++ "\n" ++ String.ofList (List.replicate front.length ' ') ++ "^") := by
  have line : i.line = i.textBetween 0 i.position ++ i.textBetween i.position i.length :=
    (h.textBetween_append (Nat.zero_le _) h.position_le).symm
  have column : (i.textBetween 0 i.position).length = i.position :=
    h.length_textBetween h.position_le
  refine ⟨_, _, line, column, ?_⟩
  rw [← line, column]
  rfl

end Laid

/-- A line shows its values with a space between any two, a character for each position. Parts that meet
make up one part, and the place that is reached is a column of the line. -/
theorem columns_ofValues (r : Rendering) (values : List Value) (n : Nat) :
    let i := (ofValues r values).seek n
    i.line = " ".intercalate (values.map r.shown) ∧ i.line.length = i.length ∧
      (∀ start stop, i.textBetween start stop =
        String.ofList ((i.line.toList.take (min stop i.length)).drop start)) ∧
      (∀ a b c, a ≤ b → b ≤ c → i.textBetween a b ++ i.textBetween b c = i.textBetween a c) ∧
      i.position ≤ i.line.length ∧
      ∀ complaint cause, ∃ front behind : String, i.line = front ++ behind ∧
        front.length = i.position ∧ (Fault.here i complaint cause).caret? =
          some (front ++ behind ++ "\n" ++ String.ofList (List.replicate front.length ' ') ++ "^") := by
  intro i
  have laid : i.Laid := laid_ofValues r values n
  have shown : i.shown = (" ".intercalate (values.map r.shown)).toList := shown_layoutFrom r 0 values
  have length : i.line.length = i.length := by
    rw [laid.line_eq, String.length_ofList, laid.length_shown]
  refine ⟨?_, length, laid.textBetween_line, ?_, ?_, laid.caret?_here⟩
  · rw [laid.line_eq, shown, String.ofList_toList]
  · intro a b c first second
    exact laid.textBetween_append first second
  · rw [length]
    exact laid.position_le

example : ((ofValues .standard [.ofString "a", .unit, .ofString "", .unit]).textBetween 3 100) = "    " := by
  decide

end Input

end CommandGrammar
