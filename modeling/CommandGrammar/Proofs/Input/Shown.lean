import CommandGrammar.Proofs.Input.Tiling

set_option autoImplicit false

namespace CommandGrammar.Input

def Segment.shown (s : Segment) : List Char :=
  match s.body with
  | .content c => if c.chars.isEmpty then [' '] else c.chars
  | .separator => [' ']
  | .tail => []

def shown (i : Input) : List Char := i.segments.flatMap Segment.shown

theorem drop_take_append (front rest : List Char) (start stop : Nat) :
    ((front ++ rest).take stop).drop start =
      (front.take stop).drop start ++ (rest.take (stop - front.length)).drop (start - front.length) := by
  rw [List.take_append, List.drop_append, List.length_take]
  congr 1
  -- Where the cut ends in the first text, nothing of the second is left.
  by_cases beyond : front.length ≤ stop
  · rw [Nat.min_eq_right beyond]
  · rw [Nat.sub_eq_zero_of_le (Nat.le_of_not_le beyond)]
    simp

namespace Segment

theorem length_shown_content (p : Nat) (c : Content) :
    (shown ⟨p, p + c.width, .content c⟩).length = c.width := by
  cases chars : c.chars <;> simp [shown, Content.width, chars]

theorem slice_eq {s : Segment} (width : s.stop = s.start + s.shown.length) (start stop : Nat) :
    s.slice start stop = (s.shown.take (stop - s.start)).drop (start - s.start) := by
  by_cases outside : s.stop ≤ start ∨ stop ≤ s.start
  · simp only [slice, Bool.or_eq_true, decide_eq_true_eq, outside, if_true]
    refine (List.drop_eq_nil_of_le ?_).symm
    rw [List.length_take]
    omega
  · simp only [slice, Bool.or_eq_true, decide_eq_true_eq, outside, if_false]
    -- A segment of one position lies within the span as a whole.
    have whole (one : s.shown = [' ']) :
        (s.shown.take (stop - s.start)).drop (start - s.start) = [' '] ∧
          start ≤ s.start ∧ s.stop ≤ stop := by
      rw [one, List.length_singleton] at width
      have begun : start - s.start = 0 := by omega
      rw [one, begun, List.take_of_length_le (by rw [List.length_singleton]; omega)]
      exact ⟨rfl, by omega, by omega⟩
    obtain ⟨first, last, body⟩ := s
    cases body with
    | tail => simp [shown]
    | separator => exact (whole rfl).1.symm
    | content c =>
      cases empty : c.chars.isEmpty with
      | false => simp [shown, empty]
      | true =>
        obtain ⟨same, begun, ended⟩ := whole (by simp [shown, empty])
        simp only [empty, same, if_true, begun, ended, decide_true, Bool.and_self]

end Segment

namespace Tiles

variable {p e : Nat} {segments : List Segment}

theorem length_shown (h : Tiles p e segments) :
    p + (segments.flatMap Segment.shown).length = e := by
  induction h with
  | tail p => rfl
  | @content p e rest c tiles ih =>
    rw [List.flatMap_cons, List.length_append, Segment.length_shown_content, ← Nat.add_assoc, ih]
  | separator tiles ih =>
    rw [List.flatMap_cons, List.length_append, ← Nat.add_assoc]
    exact ih

theorem slices_eq (h : Tiles p e segments) (start stop : Nat) :
    segments.flatMap (·.slice start stop) =
      ((segments.flatMap Segment.shown).take (stop - p)).drop (start - p) := by
  induction h with
  | tail p => simp [Segment.slice, Segment.shown]
  | @content p e rest c tiles ih =>
    have width := Segment.length_shown_content p c
    rw [List.flatMap_cons, List.flatMap_cons, drop_take_append, ih,
      Segment.slice_eq (by rw [width]), width, Nat.sub_sub, Nat.sub_sub]
  | @separator p e rest tiles ih =>
    rw [List.flatMap_cons, List.flatMap_cons, drop_take_append, ih, Segment.slice_eq rfl,
      Nat.sub_sub, Nat.sub_sub]
    rfl

end Tiles

namespace Laid

variable {i : Input}

theorem length_shown (h : i.Laid) : i.shown.length = i.length := by
  have total := h.tiles.length_shown
  rwa [Nat.zero_add] at total

theorem textBetween_eq (h : i.Laid) (start stop : Nat) :
    i.textBetween start stop = String.ofList ((i.shown.take stop).drop start) := by
  rw [textBetween]
  split
  case isTrue none =>
    rw [List.drop_eq_nil_of_le (by rw [List.length_take]; omega)]
  case isFalse =>
    have cut := h.tiles.slices_eq start stop
    rw [Nat.sub_zero, Nat.sub_zero] at cut
    rw [cut, shown]

theorem line_eq (h : i.Laid) : i.line = String.ofList i.shown := by
  rw [line, h.textBetween_eq, ← h.length_shown, List.take_length, List.drop_zero]

theorem length_textBetween (h : i.Laid) {start stop : Nat} (within : stop ≤ i.length) :
    (i.textBetween start stop).length = stop - start := by
  rw [h.textBetween_eq, String.length_ofList, List.length_drop, List.length_take, h.length_shown]
  omega

theorem line_split (h : i.Laid) {start stop : Nat} (order : start ≤ stop) :
    i.line = i.textBetween 0 start ++ i.textBetween start stop ++ i.textBetween stop i.length := by
  have front : (i.shown.take stop).take start = i.shown.take start := by
    rw [List.take_take, Nat.min_eq_left order]
  rw [h.line_eq, h.textBetween_eq, h.textBetween_eq, h.textBetween_eq, ← h.length_shown,
    List.take_length, List.drop_zero, ← String.ofList_append, ← String.ofList_append, ← front,
    List.take_append_drop, List.take_append_drop]

end Laid

end CommandGrammar.Input
