import Mathlib.Data.List.Chain
import CommandGrammar.Proofs.Input.Spelling

set_option autoImplicit false

namespace CommandGrammar

namespace Text

def words (cs : List Char) : List (List Char) := (cs.splitOnP isBlank).filter (· ≠ [])

@[simp] theorem words_nil : words [] = [] := by simp [words]

theorem words_append_cons (cs : List Char) {ch : Char} (blank : isBlank ch = true) (rest : List Char) :
    words (cs ++ ch :: rest) = words cs ++ words rest := by
  rw [words, List.splitOnP_append_cons cs rest blank, List.filter_append]
  rfl

theorem words_append_of_blank {blanks : List Char} (blank : ∀ ch ∈ blanks, isBlank ch = true)
    (rest : List Char) : words (blanks ++ rest) = words rest := by
  induction blanks with
  | nil => rfl
  | cons ch blanks ih =>
    have first : isBlank ch = true := blank ch (by simp)
    have others := ih fun other member => blank other (List.mem_cons_of_mem _ member)
    have split := words_append_cons [] first (blanks ++ rest)
    rw [words_nil, List.nil_append, List.nil_append] at split
    rw [List.cons_append, split, others]

theorem words_of_solid {word : List Char} (present : word ≠ [])
    (solid : ∀ ch ∈ word, isBlank ch = false) : words word = [word] := by
  simp [words, List.splitOnP_eq_singleton solid, present]

structure Begins (cs blanks letters rest : List Char) : Prop where
  split : cs = blanks ++ (letters ++ rest)
  blank : ∀ ch ∈ blanks, isBlank ch = true
  solid : ∀ ch ∈ letters, isBlank ch = false
  stops : ∀ ch ∈ rest.head?, isBlank ch = true
  ended : letters = [] → rest = []

theorem begins (cs : List Char) :
    let blanks := cs.takeWhile isBlank
    let letters := (cs.drop blanks.length).takeWhile fun ch => !isBlank ch
    Begins cs blanks letters (cs.drop (blanks.length + letters.length)) := by
  intro blanks letters
  have passed : blanks ++ cs.drop blanks.length = cs :=
    List.prefix_iff_eq_append.mp (List.takeWhile_prefix _)
  have word : letters ++ (cs.drop blanks.length).drop letters.length = cs.drop blanks.length :=
    List.prefix_iff_eq_append.mp (List.takeWhile_prefix _)
  have behind : (cs.drop blanks.length).drop letters.length =
      (cs.drop blanks.length).dropWhile fun ch => !isBlank ch :=
    List.append_cancel_left (word.trans List.takeWhile_append_dropWhile.symm)
  rw [← List.drop_drop]
  refine ⟨by rw [word, passed], List.all_eq_true.mp List.all_takeWhile, ?_, ?_, ?_⟩
  · simpa using List.all_eq_true.mp (List.all_takeWhile (p := fun ch => !isBlank ch)
      (l := cs.drop blanks.length))
  · rw [behind]
    intro ch first
    have stops := List.head?_dropWhile_not (fun ch => !isBlank ch) (cs.drop blanks.length)
    rw [Option.mem_def.mp first] at stops
    simpa using stops
  · intro none
    cases begun : cs.drop blanks.length with
    | nil => simp
    | cons first others => simp [letters, begun, Input.isBlank_of_drop_takeWhile begun] at none

theorem Begins.words_eq {cs blanks letters rest : List Char} (h : Begins cs blanks letters rest) :
    words cs = if letters = [] then [] else letters :: words rest := by
  rw [h.split, words_append_of_blank h.blank]
  by_cases none : letters = []
  · simp [none, h.ended none]
  · rw [if_neg none]
    have stops := h.stops
    cases rest with
    | nil => rw [List.append_nil, words_of_solid none h.solid, words_nil]
    | cons ch others =>
      have blank : isBlank ch = true := stops ch rfl
      have skipped : words (ch :: others) = words others := by
        simpa using words_append_cons [] blank others
      rw [words_append_cons letters blank, words_of_solid none h.solid, skipped]
      rfl

end Text

namespace Input

def Content.wordsBehind (c : Content) (passed : Nat) : List Word :=
  if c.isObject && passed == 0 then [.object c.value c.text]
  else (Text.words (c.chars.drop passed)).map fun word => .text (String.ofList word)

-- The words of a row of values of which some positions have been passed: those left of the value that the
-- position is in, or stands right behind, and all words of the values after it.
def wordsBehind (r : Rendering) : Nat → List Value → List Word
  | _, [] => []
  | passed, v :: rest =>
    let c := Content.ofValue r v
    if passed ≤ c.width then
      c.wordsBehind passed ++ rest.flatMap fun w => (Content.ofValue r w).wordsBehind 0
    -- One more position separates the value from the next.
    else wordsBehind r (passed - (c.width + 1)) rest

theorem wordsBehind_zero (r : Rendering) (values : List Value) :
    wordsBehind r 0 values = values.flatMap fun w => (Content.ofValue r w).wordsBehind 0 := by
  cases values <;> simp [wordsBehind]

theorem Content.wordsBehind_width (c : Content) : c.wordsBehind c.width = [] := by
  have passed : c.chars.drop c.width = [] := List.drop_eq_nil_of_le (Nat.le_max_left _ _)
  simp [Content.wordsBehind, passed, Nat.ne_of_gt c.width_pos]

section Values

variable {start position : Nat} {c : Content} {segments : List Segment}

theorem wordIn_content (inside : position < start + c.width) (segments : List Segment) :
    (c.wordsBehind (position - start) = [] ∧
      wordIn position (⟨start, start + c.width, .content c⟩ :: segments) = wordIn position segments) ∨
    ∃ w n, position - start < n ∧ n ≤ c.width ∧
      wordIn position (⟨start, start + c.width, .content c⟩ :: segments) = (some w, start + n) ∧
      c.wordsBehind (position - start) = w :: c.wordsBehind n ∧
      (n < c.width → ∃ ch, c.chars[n]? = some ch ∧ Text.isBlank ch = true) := by
  have positive := c.width_pos
  have offset : Segment.offset ⟨start, start + c.width, .content c⟩ c position = position - start := by
    have width : c.width = max c.chars.length 1 := rfl
    simp only [Segment.offset]
    omega
  simp only [wordIn, offset]
  by_cases whole : (c.isObject && position - start == 0) = true
  · have first : position - start = 0 := by simp_all
    rw [if_pos whole]
    refine .inr ⟨.object c.value c.text, c.width, by omega, Nat.le_refl _, rfl, ?_, by omega⟩
    rw [c.wordsBehind_width, Content.wordsBehind, if_pos whole]
  · rw [if_neg whole, Content.wordsBehind, if_neg whole]
    have begins := Text.begins (c.chars.drop (position - start))
    simp only at begins
    generalize (c.chars.drop (position - start)).takeWhile Text.isBlank = blanks at begins ⊢
    generalize ((c.chars.drop (position - start)).drop blanks.length).takeWhile
      (fun ch => !Text.isBlank ch) = letters at begins ⊢
    rw [List.drop_drop] at begins
    rw [begins.words_eq]
    by_cases none : letters = []
    · simp [none]
    · have some := List.length_pos_iff.mpr none
      have total := congrArg List.length begins.split
      simp only [List.length_append, List.length_drop] at total
      have width : c.chars.length ≤ c.width := Nat.le_max_left _ _
      right
      refine ⟨.text (String.ofList letters), position - start + (blanks.length + letters.length),
        by omega, by omega, ?_, ?_, ?_⟩
      · simp only [List.isEmpty_iff, none, if_false]
        congr 1
        omega
      · have later : position - start + (blanks.length + letters.length) ≠ 0 := by omega
        simp [none, Content.wordsBehind]
      · intro before
        have inside : position - start + (blanks.length + letters.length) < c.chars.length := by
          rw [Content.width] at before
          omega
        have stops := begins.stops
        rw [List.head?_drop, List.getElem?_eq_getElem inside] at stops
        exact ⟨_, List.getElem?_eq_getElem inside, stops _ rfl⟩

def EndsAt (segments : List Segment) (stop q : Nat) : Prop :=
  q = stop ∨ ∃ ch, charIn q (segments.dropWhile (·.isBefore q)) 0 = some ch ∧
    Text.isBlank ch = true

theorem EndsAt.cons {s : Segment} {stop q : Nat} (ends : EndsAt segments stop q)
    (passed : s.isBefore q = true) : EndsAt (s :: segments) stop q := by
  simpa only [EndsAt, List.dropWhile, passed] using ends

inductive NextWord (r : Rendering) (start stop : Nat) (values : List Value) (segments : List Segment)
    (position : Nat) : Option Word × Nat → Prop
  | none : wordsBehind r (position - start) values = [] →
    NextWord r start stop values segments position (none, stop)
  | some {w : Word} {q : Nat} : position < q → start < q → q ≤ stop →
    wordsBehind r (position - start) values = w :: wordsBehind r (q - start) values →
    EndsAt segments stop q → NextWord r start stop values segments position (some w, q)

section First

variable {r : Rendering} {v : Value} {rest : List Value} {stop : Nat}

theorem wordsBehind_inside (named : Content.ofValue r v = c) (inside : position ≤ start + c.width) :
    wordsBehind r (position - start) (v :: rest) =
      c.wordsBehind (position - start) ++ wordsBehind r 0 rest := by
  rw [wordsBehind, named, if_pos (by omega), wordsBehind_zero]

theorem wordsBehind_beyond (named : Content.ofValue r v = c) (beyond : start + c.width < position) :
    wordsBehind r (position - start) (v :: rest) =
      wordsBehind r (position - (start + c.width + 1)) rest := by
  rw [wordsBehind, named, if_neg (by omega)]
  congr 1
  omega

theorem wordsBehind_spent (named : Content.ofValue r v = c) (inside : position ≤ start + c.width)
    (none : c.wordsBehind (position - start) = []) :
    wordsBehind r (position - start) (v :: rest) =
      wordsBehind r (position - (start + c.width + 1)) rest := by
  have skip : position - (start + c.width + 1) = 0 := by omega
  rw [wordsBehind_inside named inside, none, List.nil_append, skip]

theorem NextWord.onward (named : Content.ofValue r v = c)
    (spent : wordsBehind r (position - start) (v :: rest) =
      wordsBehind r (position - (start + c.width + 1)) rest) {found : Option Word × Nat}
    (later : NextWord r (start + c.width + 1) stop rest segments position found) :
    NextWord r start stop (v :: rest) (⟨start, start + c.width, .content c⟩ :: segments) position
      found := by
  cases later with
  | none empty => exact .none (spent.trans empty)
  | @some w q further begun within words ends =>
    refine .some further (by omega) within ?_ (ends.cons ?_)
    · rw [spent, words, wordsBehind_beyond named (by omega)]
    · rw [Segment.isBefore_of_ne_tail (by simp), decide_eq_true_eq]
      omega

theorem NextWord.separated {found : Option Word × Nat}
    (later : NextWord r (start + 1) stop rest segments position found) :
    NextWord r (start + 1) stop rest (⟨start, start + 1, .separator⟩ :: segments) position found := by
  cases later with
  | none empty => exact .none empty
  | some further begun within words ends =>
    refine .some further begun within words (ends.cons ?_)
    rw [Segment.isBefore_of_ne_tail (by simp), decide_eq_true_eq]
    omega

theorem NextWord.value (named : Content.ofValue r v = c) (tiles : Tiles (start + c.width) stop segments)
    (inside : position ≤ start + c.width) (ends : EndsAt segments stop (start + c.width))
    (later : NextWord r (start + c.width + 1) stop rest segments position
      (wordIn position segments)) :
    NextWord r start stop (v :: rest) (⟨start, start + c.width, .content c⟩ :: segments) position
      (wordIn position
        ((⟨start, start + c.width, .content c⟩ :: segments).dropWhile (·.isBefore position))) := by
  by_cases before : position < start + c.width
  · rw [Spells.dropWhile_of_ahead (Tiles.ahead_content.mpr before)]
    rcases wordIn_content before segments with
      ⟨none, same⟩ | ⟨w, n, further, within, same, words, blank⟩
    · rw [same]
      exact later.onward named (wordsBehind_spent named inside none)
    · have behind : start + n - start = n := Nat.add_sub_cancel_left _ _
      have all : wordsBehind r (position - start) (v :: rest) =
          w :: wordsBehind r (start + n - start) (v :: rest) := by
        rw [wordsBehind_inside named inside, wordsBehind_inside named (by omega), words, behind,
          List.cons_append]
      rw [same]
      refine .some (by omega) (by omega) (Nat.le_trans (by omega) tiles.le) all ?_
      by_cases whole : n = c.width
      · rw [whole]
        exact ends.cons (by simp [Segment.isBefore_of_ne_tail])
      · obtain ⟨ch, found, blank⟩ := blank (by omega)
        obtain ⟨lt, rfl⟩ := List.getElem?_eq_some_iff.mp found
        have offset : Segment.offset ⟨start, start + c.width, .content c⟩ c (start + n) = n := by
          simp only [Segment.offset]
          omega
        refine .inr ⟨_, ?_, blank⟩
        rw [Spells.dropWhile_of_ahead (Tiles.ahead_content.mpr (by omega))]
        simp [charIn, offset, Nat.sub_pos_of_lt lt]
  · have stands : position = start + c.width := by omega
    have passed : Segment.isBefore ⟨start, start + c.width, .content c⟩ position = true := by
      simp [Segment.isBefore_of_ne_tail, stands]
    have none : c.wordsBehind (position - start) = [] := by
      rw [stands, Nat.add_sub_cancel_left, c.wordsBehind_width]
    simp only [List.dropWhile, passed]
    rw [Spells.dropWhile_of_ahead (tiles.ahead_of_le inside)]
    exact later.onward named (wordsBehind_spent named inside none)

end First

theorem Tiles.of_content {a b stop : Nat} (tiles : Tiles start stop (⟨a, b, .content c⟩ :: segments)) :
    b = start + c.width ∧ Tiles (start + c.width) stop segments := by
  cases tiles with
  | content _ rest => exact ⟨rfl, rest⟩

theorem Tiles.of_separator {a b stop : Nat} (tiles : Tiles start stop (⟨a, b, .separator⟩ :: segments)) :
    Tiles (start + 1) stop segments := by
  cases tiles with
  | separator rest => exact rest

theorem nextWord_layoutFrom (r : Rendering) (values : List Value) {stop : Nat}
    (tiles : Tiles start stop (layoutFrom r start values)) (within : position ≤ stop) :
    NextWord r start stop values (layoutFrom r start values) position
      (wordIn position ((layoutFrom r start values).dropWhile (·.isBefore position))) := by
  fun_induction layoutFrom r start values with
  | case1 start =>
    obtain rfl : start = stop := by simpa using tiles.getLast?_start
    rw [Spells.dropWhile_of_ahead Tiles.ahead_tail]
    exact .none rfl
  | case2 start v c =>
    have tiles := tiles.of_content.2
    obtain rfl : start + c.width = stop := by simpa using tiles.getLast?_start
    exact .value rfl tiles within (.inl rfl) (.none rfl)
  | case3 start v w rest c behind ih =>
    have named : Content.ofValue r v = c := rfl
    have separated := tiles.of_content.2
    have fresh : Tiles (behind + 1) stop _ := separated.of_separator
    have later := (ih fresh).separated
    by_cases inside : position ≤ behind
    · rw [Spells.dropWhile_of_ahead (fresh.ahead_of_le (by omega))] at later
      have space : EndsAt (⟨behind, behind + 1, .separator⟩ :: layoutFrom r (behind + 1) (w :: rest)) stop
          behind := by
        refine .inr ⟨' ', ?_, Text.isBlank_space⟩
        rw [Spells.dropWhile_of_ahead (separated.ahead_of_le (Nat.le_refl _))]
        rfl
      exact .value named separated inside space later
    · -- The first value and the separator have been passed.
      have passed : Segment.isBefore ⟨start, behind, .content c⟩ position = true := by
        rw [Segment.isBefore_of_ne_tail (by simp), decide_eq_true_eq]
        omega
      have passed' : Segment.isBefore ⟨behind, behind + 1, .separator⟩ position = true := by
        rw [Segment.isBefore_of_ne_tail (by simp), decide_eq_true_eq]
        omega
      simp only [List.dropWhile, passed, passed']
      exact later.onward named (wordsBehind_beyond named (by omega))

end Values

def IsRow (i : Input) : Prop := ∃ r values n, i = (ofValues r values).seek n

theorem isRow_ofValues (r : Rendering) (values : List Value) (n : Nat) :
    ((ofValues r values).seek n).IsRow := ⟨r, values, n, rfl⟩

section Rows

variable {i j : Input}

theorem IsRow.laid (row : i.IsRow) : i.Laid := by
  obtain ⟨r, values, n, rfl⟩ := row
  exact laid_ofValues r values n

theorem Reaches.isRow (reached : i.Reaches j) (row : i.IsRow) : j.IsRow := by
  obtain ⟨r, values, n, rfl⟩ := row
  exact ⟨r, values, j.position, reached.seek_eq.symm⟩

theorem nextWord_readWord {r : Rendering} {values : List Value} (row : i.segments = layout r values)
    (laid : i.Laid) :
    NextWord r 0 i.length values i.segments i.position (i.readWord.1, i.readWord.2.position) := by
  have tiles : Tiles 0 i.length (layoutFrom r 0 values) := by
    rw [← layout, ← row]
    exact laid.tiles
  have next := nextWord_layoutFrom r values tiles laid.position_le
  rw [← layout, ← row] at next
  exact next

theorem IsRow.blank_behind_word (row : i.IsRow) {w : Word} (word : i.peekWord = some w)
    (more : i.readWord.2.hasMore = true) : ∃ ch, i.readWord.2.peek = some ch ∧ Text.isBlank ch = true := by
  have laid := row.laid
  obtain ⟨r, values, n, rfl⟩ := row
  have next := nextWord_readWord (i := (ofValues r values).seek n) rfl laid
  generalize (ofValues r values).seek n = i at word more next laid
  rw [fst_readWord, word] at next
  cases next with
  | some _ _ _ _ ends =>
    rcases ends with last | blank
    · have inside : i.readWord.2.position < i.length := of_decide_eq_true more
      omega
    · exact blank

theorem IsRow.peekWord_eq_none (row : i.IsRow) (ended : i.hasMore = false) : i.peekWord = none := by
  have laid := row.laid
  obtain ⟨r, values, n, rfl⟩ := row
  have next := nextWord_readWord (i := (ofValues r values).seek n) rfl laid
  generalize (ofValues r values).seek n = i at ended next
  rw [fst_readWord] at next
  cases word : i.peekWord with
  | none => rfl
  | some w =>
    rw [word] at next
    cases next with
    | some further _ within =>
      have stop : ¬ i.position < i.length := of_decide_eq_false ended
      omega

end Rows

inductive Drains : Input → List (Word × Nat) → Input → Prop
  | done {i j : Input} : i.readWord = (none, j) → Drains i [] j
  | word {i j k : Input} {w : Word} {reads : List (Word × Nat)} : i.readWord = (some w, j) →
    Drains j reads k → Drains i ((w, j.position) :: reads) k

theorem exists_drains {r : Rendering} {values : List Value} {i : Input}
    (row : i.segments = layout r values) (laid : i.Laid) :
    ∃ reads, i.Drains reads (i.seek i.length) ∧
      reads.map Prod.fst = wordsBehind r i.position values ∧
      (i.position :: reads.map Prod.snd).IsChain (· < ·) := by
  -- Every word leads further on, so fewer positions are left behind it.
  induction left : i.length - i.position using Nat.strongRecOn generalizing i with
  | ind _ ih =>
    have next := nextWord_readWord row laid
    have reached := laid.reaches_readWord
    have ended : i.seek i.length = i.readWord.2.seek i.readWord.2.length := by
      rw [seek, seek, reached.length, reached.segments]
    generalize read : i.readWord = found at next reached ended
    obtain ⟨word, j⟩ := found
    generalize place : j.position = q at next
    cases next with
    | none empty =>
      have arrived : j.seek j.length = j := by
        rw [seek, reached.length, Nat.min_self, ← place]
      exact ⟨[], ended ▸ arrived.symm ▸ .done read, empty.symm, .singleton _⟩
    | @some w q further _ _ words =>
      subst place
      have further : i.position < j.position := further
      have length : j.length = i.length := reached.length
      have within : j.position ≤ i.length := reached.within
      obtain ⟨reads, drains, same, chain⟩ :=
        ih (j.length - j.position) (by omega) (reached.segments.trans row) (reached.laid laid) rfl
      refine ⟨(w, j.position) :: reads, ended ▸ .word read drains, ?_, .cons_cons further chain⟩
      rw [List.map_cons, same]
      exact words.symm

/-- Whatever values make up a line and wherever reading begins, the words that can be taken one after the
other are those behind the position, each of them leads further on, and with none left the line has been
read. What the next word is can be told without taking it. -/
theorem drains_ofValues (r : Rendering) (values : List Value) (n : Nat) :
    let i := (ofValues r values).seek n
    (∃ reads, i.Drains reads (i.seek i.length) ∧
      reads.map Prod.fst = wordsBehind r i.position values ∧
      (i.position :: reads.map Prod.snd).IsChain (· < ·)) ∧
    ∀ j : Input, j.peekWord = j.readWord.1 :=
  ⟨exists_drains rfl (laid_ofValues r values n), fun _ => rfl⟩

example : wordsBehind .standard 1
    [.integer ⟨true, .w32⟩ (-15), .ofString " to  b", .unit, .ofString " \t"] =
      [.text "15", .text "to", .text "b", .object .unit ""] := by
  decide

end Input

end CommandGrammar
