import CommandGrammar.Input.Word

set_option autoImplicit false

namespace CommandGrammar.Input

theorem Segment.isBefore_of_ne_tail {start stop position : Nat} {body : Body} (solid : body ≠ .tail) :
    isBefore ⟨start, stop, body⟩ position = decide (stop ≤ position) := by
  cases body <;> simp_all [isBefore, isTail]

/-- Segments without gaps from one position to another, where the tail stands. -/
inductive Tiles : Nat → Nat → List Segment → Prop
  | tail (p : Nat) : Tiles p p [⟨p, p, .tail⟩]
  | content {p e : Nat} {rest : List Segment} (c : Content) :
    Tiles (p + c.width) e rest → Tiles p e (⟨p, p + c.width, .content c⟩ :: rest)
  | separator {p e : Nat} {rest : List Segment} :
    Tiles (p + 1) e rest → Tiles p e (⟨p, p + 1, .separator⟩ :: rest)

theorem tiles_layoutFrom (r : Rendering) (p : Nat) (values : List Value) :
    ∃ e, Tiles p e (layoutFrom r p values) := by
  fun_induction layoutFrom r p values with
  | case1 p => exact ⟨p, .tail p⟩
  | case2 p v c => exact ⟨p + c.width, .content c (.tail _)⟩
  | case3 p v w rest c stop ih =>
    obtain ⟨e, tiles⟩ := ih
    exact ⟨e, .content c (.separator tiles)⟩

namespace Tiles

variable {p e position : Nat} {segments : List Segment}

theorem ne_nil (h : Tiles p e segments) : segments ≠ [] := by
  cases h <;> simp

theorem row_induction {motive : (p : Nat) → (segments : List Segment) → Tiles p e segments → Prop}
    (tail : motive e [⟨e, e, .tail⟩] (.tail e))
    (step : ∀ p w body rest (row : Tiles p e (⟨p, p + w, body⟩ :: rest)) (tiles : Tiles (p + w) e rest),
      0 < w → body ≠ .tail → motive (p + w) rest tiles → motive p _ row)
    (h : Tiles p e segments) : motive p segments h := by
  induction h with
  | tail p => exact tail
  | content c tiles ih => exact step _ _ _ _ _ tiles c.width_pos (by simp) (ih tail step)
  | separator tiles ih => exact step _ _ _ _ _ tiles Nat.one_pos (by simp) (ih tail step)

theorem getLast?_eq (h : Tiles p e segments) : segments.getLast? = some ⟨e, e, .tail⟩ := by
  induction h using row_induction with
  | tail => rfl
  | step p w body rest row tiles positive solid ih => rwa [List.getLast?_cons_of_ne_nil tiles.ne_nil]

theorem getLast?_start (h : Tiles p e segments) :
    (segments.getLast?.map Segment.start).getD 0 = e := by
  simp [h.getLast?_eq]

theorem le (h : Tiles p e segments) : p ≤ e := by
  induction h using row_induction with
  | tail => exact Nat.le_refl e
  | step p w body rest row tiles positive solid ih => omega

theorem bounds (h : Tiles p e segments) : ∀ s ∈ segments, p ≤ s.start ∧ s.start ≤ s.stop ∧ s.stop ≤ e := by
  induction h using row_induction with
  | tail => simp
  | step p w body rest row tiles positive solid ih =>
    have le := tiles.le
    intro s member
    rcases List.mem_cons.mp member with rfl | later
    · exact ⟨Nat.le_refl _, Nat.le_add_right _ _, le⟩
    · obtain ⟨behind, proper, within⟩ := ih s later
      exact ⟨by omega, proper, within⟩

def Ahead (position : Nat) (segments : List Segment) : Prop :=
  ∀ s ∈ segments.head?, s.isBefore position = false

theorem ahead_cons {s : Segment} :
    Ahead position (s :: segments) ↔ s.isBefore position = false := by
  simp [Ahead]

theorem ahead_tail : Ahead position [⟨p, p, .tail⟩] := by
  simp [ahead_cons, Segment.isBefore, Segment.isTail]

theorem ahead_of_ne_tail {stop : Nat} {body : Body} (solid : body ≠ .tail) :
    Ahead position (⟨p, stop, body⟩ :: segments) ↔ position < stop := by
  simp [ahead_cons, Segment.isBefore_of_ne_tail solid]

theorem ahead_content {c : Content} :
    Ahead position (⟨p, p + c.width, .content c⟩ :: segments) ↔ position < p + c.width :=
  ahead_of_ne_tail (by simp)

theorem ahead_separator :
    Ahead position (⟨p, p + 1, .separator⟩ :: segments) ↔ position < p + 1 :=
  ahead_of_ne_tail (by simp)

theorem ahead_of_le (h : Tiles p e segments) (le : position ≤ p) : Ahead position segments := by
  induction h using row_induction with
  | tail => exact ahead_tail
  | step p w body rest row tiles positive solid ih => exact (ahead_of_ne_tail solid).mpr (by omega)

theorem dropWhile (h : Tiles p e segments) (position : Nat) :
    ∃ q, Tiles q e (segments.dropWhile (·.isBefore position)) ∧
      Ahead position (segments.dropWhile (·.isBefore position)) := by
  induction h using row_induction with
  | tail =>
    have stays : Ahead position [⟨e, e, .tail⟩] := ahead_tail
    simp only [List.dropWhile, ahead_cons.mp stays]
    exact ⟨e, .tail e, stays⟩
  | step p w body rest row tiles positive solid ih =>
    cases before : Segment.isBefore ⟨p, p + w, body⟩ position with
    | true => simpa [List.dropWhile, before] using ih
    | false =>
      simp only [List.dropWhile, before]
      exact ⟨p, row, ahead_cons.mpr before⟩

theorem nextIn_bounds (h : Tiles p e segments) (ahead : Ahead position segments)
    (le : position ≤ e) :
    position ≤ (nextIn position segments).2 ∧ (nextIn position segments).2 ≤ e ∧
      (position < e → position < (nextIn position segments).2) := by
  induction h with
  | tail p => exact ⟨le, Nat.le_refl _, fun lt => lt⟩
  | @content p e segments c rest ih =>
    have inside := ahead_content.mp ahead
    have bound := rest.le
    simp only [nextIn, Segment.offset]
    cases left : c.chars.drop (min (position - p) c.chars.length) with
    | nil => simpa only [left] using ih (rest.ahead_of_le (by omega)) le
    | cons ch others =>
      have some := congrArg List.length left
      simp only [List.length_drop, List.length_cons] at some
      have width : c.chars.length ≤ c.width := Nat.le_max_left _ _
      simp only
      omega
  | @separator p e segments rest ih =>
    have inside := ahead_separator.mp ahead
    have bound := rest.le
    simp only [nextIn]
    omega

theorem wordIn_bounds (h : Tiles p e segments) (ahead : Ahead position segments)
    (le : position ≤ e) :
    position ≤ (wordIn position segments).2 ∧ (wordIn position segments).2 ≤ e := by
  induction h with
  | tail p => exact ⟨le, Nat.le_refl _⟩
  | @content p e segments c rest ih =>
    have inside := ahead_content.mp ahead
    have bound := rest.le
    have width : c.chars.length ≤ c.width := Nat.le_max_left _ _
    simp only [wordIn]
    split
    · simp only
      omega
    · split
      · exact ih (rest.ahead_of_le (by omega)) le
      · rename_i letters
        simp only [Segment.offset] at letters ⊢
        generalize hc : c.chars.drop (min (position - p) c.chars.length) = left at letters ⊢
        have total := congrArg List.length hc
        have blanks := (List.takeWhile_sublist (l := left) Text.isBlank).length_le
        have word := (List.takeWhile_sublist (l := left.drop (left.takeWhile Text.isBlank).length)
          fun ch => !Text.isBlank ch).length_le
        have present : ((left.drop (left.takeWhile Text.isBlank).length).takeWhile
            fun ch => !Text.isBlank ch).length ≠ 0 := by
          simpa using letters
        simp only [List.length_drop] at total word
        omega
  | @separator p e segments rest ih =>
    have inside := ahead_separator.mp ahead
    exact ih (rest.ahead_of_le (by omega)) le

end Tiles

structure Laid (i : Input) : Prop where
  tiles : Tiles 0 i.length i.segments
  position_le : i.position ≤ i.length

theorem laid_ofValues (r : Rendering) (values : List Value) (n : Nat) :
    ((ofValues r values).seek n).Laid := by
  obtain ⟨e, tiles⟩ := tiles_layoutFrom r 0 values
  have length : ((ofValues r values).seek n).length = e := tiles.getLast?_start
  exact ⟨length ▸ tiles, Nat.min_le_right _ _⟩

structure Reaches (i j : Input) : Prop where
  segments : j.segments = i.segments
  forward : i.position ≤ j.position
  within : j.position ≤ i.length

variable {i j k : Input}

theorem Laid.refl (h : i.Laid) : i.Reaches i := ⟨rfl, Nat.le_refl _, h.position_le⟩

theorem Reaches.length (h : i.Reaches j) : j.length = i.length := by
  simp only [Input.length, h.segments]

theorem Reaches.trans (h : i.Reaches j) (h' : j.Reaches k) : i.Reaches k :=
  ⟨h'.segments.trans h.segments, Nat.le_trans h.forward h'.forward, h.length ▸ h'.within⟩

theorem Reaches.seek_eq (h : i.Reaches j) : i.seek j.position = j := by
  obtain ⟨segments, position⟩ := j
  obtain rfl : segments = i.segments := h.segments
  simp only [seek, Nat.min_eq_left h.within]

theorem Reaches.laid (h : i.Reaches j) (laid : i.Laid) : j.Laid := by
  refine ⟨?_, ?_⟩
  · rw [h.length, h.segments]
    exact laid.tiles
  · rw [h.length]
    exact h.within

theorem Laid.reaches_seek (h : i.Laid) {n : Nat} (le : i.position ≤ n) : i.Reaches (i.seek n) :=
  ⟨rfl, Nat.le_min.mpr ⟨le, h.position_le⟩, Nat.min_le_right _ _⟩

theorem Laid.reaches_readChar (h : i.Laid) : i.Reaches i.readChar.2 := by
  obtain ⟨q, tiles, ahead⟩ := h.tiles.dropWhile i.position
  obtain ⟨forward, within, -⟩ := tiles.nextIn_bounds ahead h.position_le
  exact ⟨rfl, forward, within⟩

theorem Laid.readChar_lt (h : i.Laid) (more : i.hasMore = true) :
    i.position < i.readChar.2.position := by
  obtain ⟨q, tiles, ahead⟩ := h.tiles.dropWhile i.position
  obtain ⟨-, -, advance⟩ := tiles.nextIn_bounds ahead h.position_le
  exact advance (by simpa [hasMore] using more)

theorem Laid.reaches_readWord (h : i.Laid) : i.Reaches i.readWord.2 := by
  obtain ⟨q, tiles, ahead⟩ := h.tiles.dropWhile i.position
  obtain ⟨forward, within⟩ := tiles.wordIn_bounds ahead h.position_le
  exact ⟨rfl, forward, within⟩

theorem Laid.reaches_skipBlanks (h : i.Laid) : i.Reaches i.skipBlanks := by
  have skips (n : Nat) : ∀ {j : Input}, i.Reaches j → i.Reaches (j.skipBlanksWithin n) := by
    induction n with
    | zero => exact fun reached => reached
    | succ n ih =>
      intro j reached
      rw [skipBlanksWithin]
      split
      · exact ih (reached.trans (reached.laid h).reaches_readChar)
      · exact reached
  exact skips _ h.refl

end CommandGrammar.Input
