import CommandGrammar.Proofs.Input.Shown

set_option autoImplicit false

namespace CommandGrammar.Input

section FirstWord

def firstWord (left : List Char) : Option Word × Nat :=
  let blanks := left.takeWhile Text.isBlank
  let letters := (left.drop blanks.length).takeWhile fun ch => !Text.isBlank ch
  if letters = [] then (none, left.length)
  else (some (.text (String.ofList letters)), blanks.length + letters.length)

theorem firstWord_le (left : List Char) : (firstWord left).2 ≤ left.length := by
  have blanks := (List.takeWhile_sublist (l := left) Text.isBlank).length_le
  have letters := (List.takeWhile_sublist (l := left.drop (left.takeWhile Text.isBlank).length)
    fun ch => !Text.isBlank ch).length_le
  rw [List.length_drop] at letters
  simp only [firstWord]
  split
  · exact Nat.le_refl _
  · simp only
    omega

theorem firstWord_append {word left : List Char} (present : word ≠ [])
    (solid : ∀ ch ∈ word, Text.isBlank ch = false)
    (ends : ∀ ch ∈ left.head?, Text.isBlank ch = true) :
    firstWord (word ++ left) = (some (.text (String.ofList word)), word.length) := by
  obtain ⟨ch, rest, rfl⟩ := List.exists_cons_of_ne_nil present
  have first : Text.isBlank ch = false := solid ch (by simp)
  have letters : (ch :: rest ++ left).takeWhile (fun ch => !Text.isBlank ch) = ch :: rest := by
    rw [List.takeWhile_append_of_pos (by simpa using solid)]
    cases left with
    | nil => simp
    | cons blank left => simp [ends blank (by simp)]
  have blanks : (ch :: rest ++ left).takeWhile Text.isBlank = [] := by simp [first]
  simp only [firstWord, blanks, List.length_nil, List.drop_zero, letters]
  simp

theorem firstWord_append_of_blank {blanks : List Char} (blank : ∀ ch ∈ blanks, Text.isBlank ch = true)
    (left : List Char) :
    firstWord (blanks ++ left) = ((firstWord left).1, blanks.length + (firstWord left).2) := by
  simp only [firstWord, List.takeWhile_append_of_pos blank, List.length_append,
    List.drop_length_add_append]
  split
  · rfl
  · simp only [Nat.add_assoc]

theorem isBlank_of_drop_takeWhile {left rest : List Char} {first : Char}
    (begun : left.drop (left.takeWhile Text.isBlank).length = first :: rest) :
    Text.isBlank first = false := by
  induction left with
  | nil => simp at begun
  | cons ch left ih =>
    cases blank : Text.isBlank ch with
    | true => exact ih (by simpa [blank] using begun)
    | false =>
      obtain ⟨rfl, -⟩ : ch = first ∧ left = rest := by simpa [blank] using begun
      exact blank

theorem firstWord_append_of_ends {left others : List Char}
    (ends : ∀ ch ∈ others.head?, Text.isBlank ch = true) :
    let blanks := left.takeWhile Text.isBlank
    let letters := (left.drop blanks.length).takeWhile fun ch => !Text.isBlank ch
    firstWord (left ++ others) =
      if letters = [] then ((firstWord others).1, left.length + (firstWord others).2)
      else (some (.text (String.ofList letters)), blanks.length + letters.length) := by
  intro blanks letters
  have passed : blanks ++ left.drop blanks.length = left :=
    List.prefix_iff_eq_append.mp (List.takeWhile_prefix _)
  have blank : ∀ ch ∈ blanks, Text.isBlank ch = true := List.all_eq_true.mp List.all_takeWhile
  cases begun : left.drop blanks.length with
  | nil =>
    have all : blanks = left := by rwa [begun, List.append_nil] at passed
    have none : letters = [] := by simp only [letters, begun, List.takeWhile_nil]
    rw [if_pos none, firstWord_append_of_blank (all ▸ blank)]
  | cons first rest =>
    have present : letters ≠ [] := by
      simp only [letters, begun]
      simp [isBlank_of_drop_takeWhile begun]
    have solid : ∀ ch ∈ letters, Text.isBlank ch = false := by
      simpa using List.all_eq_true.mp (List.all_takeWhile (p := fun ch => !Text.isBlank ch)
        (l := left.drop blanks.length))
    let behind := (left.drop blanks.length).dropWhile fun ch => !Text.isBlank ch
    have word : letters ++ behind = left.drop blanks.length := List.takeWhile_append_dropWhile
    have stops : ∀ ch ∈ (behind ++ others).head?, Text.isBlank ch = true := by
      have after := List.head?_dropWhile_not (fun ch => !Text.isBlank ch) (left.drop blanks.length)
      cases ended : (left.drop blanks.length).dropWhile fun ch => !Text.isBlank ch with
      | nil => simpa [behind, ended] using ends
      | cons ch rest =>
        rw [ended] at after
        simpa [behind, ended] using after
    rw [if_neg present, ← passed, List.append_assoc, firstWord_append_of_blank blank, ← word,
      List.append_assoc, firstWord_append present solid stops]

end FirstWord

/-- Segments that spell out a text from some position on. Behind a value there is white space or the
end, so that no word goes on in the next value. -/
inductive Spells : Nat → List Char → List Segment → Prop
  | tail (p : Nat) : Spells p [] [⟨p, p, .tail⟩]
  | content {p : Nat} {cs : List Char} {rest : List Segment} (c : Content) :
    c.isObject = false → c.chars ≠ [] → (∀ ch ∈ cs.head?, Text.isBlank ch = true) →
    Spells (p + c.width) cs rest → Spells p (c.chars ++ cs) (⟨p, p + c.width, .content c⟩ :: rest)
  | separator {p : Nat} {cs : List Char} {rest : List Segment} :
    Spells (p + 1) cs rest → Spells p (' ' :: cs) (⟨p, p + 1, .separator⟩ :: rest)

theorem Content.width_eq {c : Content} (present : c.chars ≠ []) : c.width = c.chars.length :=
  Nat.max_eq_left (List.length_pos_iff.mpr present)

namespace Spells

variable {p position : Nat} {cs : List Char} {segments : List Segment}

theorem tiles (h : Spells p cs segments) : Tiles p (p + cs.length) segments := by
  induction h with
  | tail p => exact .tail p
  | content c _ present _ _ ih =>
    rw [List.length_append, ← Nat.add_assoc, ← Content.width_eq present]
    exact .content c ih
  | separator _ ih =>
    rw [List.length_cons, Nat.add_comm _ 1, ← Nat.add_assoc]
    exact .separator ih

theorem dropWhile_of_ahead (ahead : Tiles.Ahead position segments) :
    segments.dropWhile (·.isBefore position) = segments := by
  cases segments with
  | nil => rfl
  | cons s rest => simp [Tiles.ahead_cons.mp ahead]

theorem dropWhile (h : Spells p cs segments) (behind : p ≤ position)
    (within : position ≤ p + cs.length) :
    ∃ q ds, Spells q ds (segments.dropWhile (·.isBefore position)) ∧
      Tiles.Ahead position (segments.dropWhile (·.isBefore position)) ∧ q ≤ position ∧
      position ≤ q + ds.length ∧ ds.drop (position - q) = cs.drop (position - p) := by
  induction h with
  | tail p =>
    rw [dropWhile_of_ahead Tiles.ahead_tail]
    exact ⟨p, [], .tail p, Tiles.ahead_tail, behind, within, rfl⟩
  | @content p cs rest c plain present ends spells ih =>
    by_cases inside : position < p + c.width
    · have ahead : Tiles.Ahead position (⟨p, p + c.width, .content c⟩ :: rest) :=
        Tiles.ahead_content.mpr inside
      rw [dropWhile_of_ahead ahead]
      exact ⟨p, _, .content c plain present ends spells, ahead, behind, within, rfl⟩
    · have passed : Segment.isBefore ⟨p, p + c.width, .content c⟩ position = true := by
        simpa [Segment.isBefore, Segment.isTail] using inside
      have width := Content.width_eq present
      rw [List.length_append] at within
      obtain ⟨q, ds, spelled, ahead, le, reach, left⟩ := ih (by omega) (by omega)
      have later : (c.chars ++ cs).drop (position - p) = cs.drop (position - (p + c.width)) := by
        rw [width, List.drop_append, List.drop_eq_nil_of_le (by omega), List.nil_append, Nat.sub_sub]
      simp only [List.dropWhile, passed, later]
      exact ⟨q, ds, spelled, ahead, le, reach, left⟩
  | @separator p cs rest spells ih =>
    by_cases inside : position < p + 1
    · have ahead : Tiles.Ahead position (⟨p, p + 1, .separator⟩ :: rest) :=
        Tiles.ahead_separator.mpr inside
      rw [dropWhile_of_ahead ahead]
      exact ⟨p, _, .separator spells, ahead, behind, within, rfl⟩
    · have passed : Segment.isBefore ⟨p, p + 1, .separator⟩ position = true := by
        simpa [Segment.isBefore, Segment.isTail] using inside
      rw [List.length_cons] at within
      obtain ⟨q, ds, spelled, ahead, le, reach, left⟩ := ih (by omega) (by omega)
      have later : (' ' :: cs).drop (position - p) = cs.drop (position - (p + 1)) := by
        have one : position - p = position - (p + 1) + 1 := by omega
        rw [one, List.drop_succ_cons]
      simp only [List.dropWhile, passed, later]
      exact ⟨q, ds, spelled, ahead, le, reach, left⟩

theorem offset_eq {c : Content} {rest : List Segment} (present : c.chars ≠ [])
    (ahead : Tiles.Ahead position (⟨p, p + c.width, .content c⟩ :: rest)) :
    Segment.offset ⟨p, p + c.width, .content c⟩ c position = position - p ∧
      position - p < c.chars.length := by
  have inside := Tiles.ahead_content.mp ahead
  have some := List.length_pos_iff.mpr present
  rw [Content.width_eq present] at inside
  have lt : position - p < c.chars.length := by omega
  exact ⟨Nat.min_eq_left (Nat.le_of_lt lt), lt⟩

theorem drop_append_eq {c : Content} (inside : position - p < c.chars.length) :
    (c.chars ++ cs).drop (position - p) = c.chars.drop (position - p) ++ cs :=
  List.drop_append_of_le_length (Nat.le_of_lt inside)

theorem charIn_eq (h : Spells p cs segments) (ahead : Tiles.Ahead position segments) (k : Nat) :
    charIn position segments k = (cs.drop (position - p))[k]? := by
  induction h generalizing k with
  | tail p => simp [charIn]
  | @content p cs rest c plain present ends spells ih =>
    obtain ⟨offset, inside⟩ := offset_eq present ahead
    have before := Tiles.ahead_content.mp ahead
    have later := ih (spells.tiles.ahead_of_le (Nat.le_of_lt before))
    rw [Nat.sub_eq_zero_of_le (Nat.le_of_lt before), List.drop_zero] at later
    simp only [charIn, offset, later, drop_append_eq inside, List.getElem?_append]
  | @separator p cs rest spells ih =>
    have before := Tiles.ahead_separator.mp ahead
    have later := ih (spells.tiles.ahead_of_le (Nat.le_of_lt before))
    rw [Nat.sub_eq_zero_of_le (Nat.le_of_lt before), List.drop_zero] at later
    rw [Nat.sub_eq_zero_of_le (Nat.le_of_lt_succ before), List.drop_zero]
    cases k with
    | zero => simp [charIn]
    | succ k => simp [charIn, later]

theorem nextIn_eq (h : Spells p cs segments) (ahead : Tiles.Ahead position segments)
    (within : position ≤ p + cs.length) :
    nextIn position segments = ((cs.drop (position - p)).head?,
      p + (position - p) + min 1 (cs.drop (position - p)).length) := by
  cases h with
  | tail p =>
    have ended : position - p = 0 := Nat.sub_eq_zero_of_le within
    simp [nextIn, ended]
  | @content p cs rest c plain present ends spells =>
    obtain ⟨offset, inside⟩ := offset_eq present ahead
    obtain ⟨ch, others, left⟩ := List.exists_cons_of_length_pos
      (l := c.chars.drop (position - p)) (by rw [List.length_drop]; omega)
    simp [nextIn, offset, drop_append_eq inside, left]
  | @separator p cs rest spells =>
    have before := Tiles.ahead_separator.mp ahead
    simp [nextIn, Nat.sub_eq_zero_of_le (Nat.le_of_lt_succ before)]

theorem wordIn_eq (h : Spells p cs segments) (ahead : Tiles.Ahead position segments)
    (within : position ≤ p + cs.length) :
    wordIn position segments = ((firstWord (cs.drop (position - p))).1,
      p + (position - p) + (firstWord (cs.drop (position - p))).2) := by
  induction h with
  | tail p =>
    have ended : position - p = 0 := Nat.sub_eq_zero_of_le within
    simp [wordIn, firstWord, ended]
  | @content p cs rest c plain present ends spells ih =>
    obtain ⟨offset, inside⟩ := offset_eq present ahead
    have before := Tiles.ahead_content.mp ahead
    have later := ih (spells.tiles.ahead_of_le (Nat.le_of_lt before)) (by omega)
    rw [Nat.sub_eq_zero_of_le (Nat.le_of_lt before), List.drop_zero] at later
    have end_ : p + c.width = p + (position - p) + (c.chars.drop (position - p)).length := by
      rw [Content.width_eq present, List.length_drop]
      omega
    simp only [wordIn, plain, offset, drop_append_eq inside, Bool.false_and, Bool.false_eq_true,
      if_false, List.isEmpty_iff, firstWord_append_of_ends ends]
    split
    · rw [later, end_]
      simp only [Nat.add_zero, Nat.add_assoc]
    · simp only [Nat.add_assoc]
  | @separator p cs rest spells ih =>
    have before := Tiles.ahead_separator.mp ahead
    rw [List.length_cons] at within
    have later := ih (spells.tiles.ahead_of_le (Nat.le_of_lt before)) (by omega)
    rw [Nat.sub_eq_zero_of_le (Nat.le_of_lt before), List.drop_zero] at later
    rw [Nat.sub_eq_zero_of_le (Nat.le_of_lt_succ before), List.drop_zero]
    have blank : ∀ ch ∈ [' '], Text.isBlank ch = true := by simp
    have shifted := firstWord_append_of_blank blank cs
    rw [List.singleton_append] at shifted
    simp [wordIn, later, shifted, Nat.add_assoc]

theorem shown_eq (h : Spells p cs segments) : segments.flatMap Segment.shown = cs := by
  induction h with
  | tail p => rfl
  | @content p cs rest c plain present ends spells ih =>
    have full : c.chars.isEmpty = false := by simpa using present
    simp [Segment.shown, full, ih]
  | @separator p cs rest spells ih => simp [Segment.shown, ih]

end Spells

structure Holds (i : Input) (cs : List Char) : Prop where
  spells : Spells 0 cs i.segments
  position_le : i.position ≤ cs.length

namespace Holds

variable {i : Input} {cs : List Char}

theorem length_eq (h : i.Holds cs) : i.length = cs.length := by
  have start := h.spells.tiles.getLast?_start
  rwa [Nat.zero_add] at start

theorem hasMore_eq (h : i.Holds cs) : i.hasMore = !(cs.drop i.position).isEmpty := by
  rw [hasMore, h.length_eq, Bool.eq_iff_iff]
  simp

theorem laid (h : i.Holds cs) : i.Laid := by
  have tiles := h.spells.tiles
  rw [Nat.zero_add, ← h.length_eq] at tiles
  exact ⟨tiles, h.length_eq ▸ h.position_le⟩

theorem move (h : i.Holds cs) {n : Nat} (within : n ≤ cs.length) :
    ({ i with position := n } : Input).Holds cs :=
  ⟨h.spells, within⟩

theorem advance (h : i.Holds cs) {n : Nat} (within : n ≤ (cs.drop i.position).length) :
    ({ i with position := i.position + n } : Input).Holds cs := by
  have le := h.position_le
  rw [List.length_drop] at within
  exact h.move (by omega)

theorem ahead (h : i.Holds cs) :
    ∃ q ds, Spells q ds i.ahead ∧ Tiles.Ahead i.position i.ahead ∧ q ≤ i.position ∧
      i.position ≤ q + ds.length ∧ ds.drop (i.position - q) = cs.drop i.position := by
  have le := h.position_le
  exact h.spells.dropWhile (Nat.zero_le _) (by omega)

theorem peekAt_eq (h : i.Holds cs) (k : Nat) : i.peekAt k = (cs.drop i.position)[k]? := by
  obtain ⟨q, ds, spells, ahead, -, -, left⟩ := h.ahead
  rw [peekAt, spells.charIn_eq ahead, left]

theorem peek_eq (h : i.Holds cs) : i.peek = (cs.drop i.position).head? := by
  rw [peek, h.peekAt_eq, List.head?_eq_getElem?]

theorem readChar_eq (h : i.Holds cs) :
    i.readChar = ((cs.drop i.position).head?,
      { i with position := i.position + min 1 (cs.drop i.position).length }) := by
  obtain ⟨q, ds, spells, ahead, behind, within, left⟩ := h.ahead
  rw [readChar, spells.nextIn_eq ahead within, left, Nat.add_sub_cancel' behind]

theorem readWord_eq (h : i.Holds cs) :
    i.readWord = ((firstWord (cs.drop i.position)).1,
      { i with position := i.position + (firstWord (cs.drop i.position)).2 }) := by
  obtain ⟨q, ds, spells, ahead, behind, within, left⟩ := h.ahead
  rw [readWord, spells.wordIn_eq ahead within, left, Nat.add_sub_cancel' behind]

theorem skipBlanks_eq (h : i.Holds cs) :
    i.skipBlanks =
      { i with position := i.position + ((cs.drop i.position).takeWhile Text.isBlank).length } := by
  have within (n : Nat) (enough : (cs.drop i.position).length ≤ n) : i.skipBlanksWithin n =
      { i with position := i.position + ((cs.drop i.position).takeWhile Text.isBlank).length } := by
    induction n generalizing i with
    | zero =>
      rw [List.length_eq_zero_iff.mp (Nat.le_zero.mp enough)]
      rfl
    | succ n ih =>
      rw [skipBlanksWithin, h.peek_eq]
      cases left : cs.drop i.position with
      | nil => rfl
      | cons ch rest =>
        rw [left] at enough
        cases blank : Text.isBlank ch with
        | false => simp [blank]
        | true =>
          have next := h.advance (n := 1) (by simp [left])
          have later : cs.drop (i.position + 1) = rest := by rw [← List.drop_drop, left]; rfl
          have read : i.readChar.2 = { i with position := i.position + 1 } := by
            simp [h.readChar_eq, left]
          rw [read, ih next (by simpa [later] using enough)]
          simp [blank, later, Nat.add_assoc, Nat.add_comm 1]
  have rest : i.length - i.position = (cs.drop i.position).length := by
    rw [h.length_eq, List.length_drop]
  rw [skipBlanks, rest]
  exact within _ (Nat.le_refl _)

theorem textBetween_eq (h : i.Holds cs) (start stop : Nat) :
    i.textBetween start stop = String.ofList ((cs.take stop).drop start) := by
  rw [h.laid.textBetween_eq, shown, h.spells.shown_eq]

theorem remaining_eq (h : i.Holds cs) : i.remaining = String.ofList (cs.drop i.position) := by
  rw [remaining, h.textBetween_eq, h.length_eq, List.take_length]

theorem line_eq (h : i.Holds cs) : i.line = String.ofList cs := by
  rw [line, h.textBetween_eq, h.length_eq, List.take_length, List.drop_zero]

end Holds

section Layout

variable {r : Rendering}

def spelling (r : Rendering) (values : List Value) : String := " ".intercalate (values.map r.text)

theorem toList_spelling_cons (v w : Value) (rest : List Value) :
    (spelling r (v :: w :: rest)).toList =
      (r.text v).toList ++ ' ' :: (spelling r (w :: rest)).toList := by
  simp [spelling, String.intercalate_cons_cons]

theorem spells_layoutFrom {values : List Value} (p : Nat)
    (textual : ∀ v ∈ values, r.isText v = true ∧ r.text v ≠ "") :
    Spells p (spelling r values).toList (layoutFrom r p values) := by
  have plain {v : Value} (member : v ∈ values) : (Content.ofValue r v).isObject = false := by
    simp [Content.ofValue, (textual v member).1]
  have present {v : Value} (member : v ∈ values) : (Content.ofValue r v).chars ≠ [] := by
    simpa [Content.ofValue] using (textual v member).2
  fun_induction layoutFrom r p values with
  | case1 p => exact .tail p
  | case2 p v c =>
    have spelled : (spelling r [v]).toList = c.chars ++ [] := by
      simp [spelling, c, Content.ofValue]
    rw [spelled]
    exact .content c (plain (by simp)) (present (by simp)) (by simp) (.tail _)
  | case3 p v w rest c stop ih =>
    have later := ih (fun v member => textual v (.tail _ member))
      (fun member => plain (.tail _ member)) (fun member => present (.tail _ member))
    rw [toList_spelling_cons]
    exact .content c (plain (by simp)) (present (by simp)) (by simp) (.separator later)

theorem holds_ofValues {values : List Value}
    (textual : ∀ v ∈ values, r.isText v = true ∧ r.text v ≠ "") :
    (ofValues r values).Holds (spelling r values).toList :=
  ⟨spells_layoutFrom 0 textual, Nat.zero_le _⟩

theorem holds_ofText (s : String) : (ofText s).Holds s.toList := by
  by_cases empty : s = ""
  · subst empty
    have none : (ofValues .standard []).Holds (spelling .standard []).toList :=
      holds_ofValues (by simp)
    exact none
  · have single : (ofValues .standard [.ofString s]).Holds (spelling .standard [.ofString s]).toList :=
      holds_ofValues (by simpa [Rendering.standard, Value.ofString] using empty)
    simpa [ofText, empty, spelling, Rendering.standard, Value.ofString] using single

end Layout

end CommandGrammar.Input
