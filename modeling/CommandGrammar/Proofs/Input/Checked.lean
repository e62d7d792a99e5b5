import CommandGrammar.Proofs.Input.Characters
import CommandGrammar.Proofs.Input.Seams

/-!
Reading a line by indices. The segment of a position is found by halving, characters are taken and parts cut
out by their indices, and what is left is told by subtraction. Every such access is checked. None of them goes
out of bounds on a line that is laid out, and what is read is what reading by lists gives.
-/

set_option autoImplicit false

namespace CommandGrammar.Input

/-- What an access may run over: an index, the ends of a part, a difference, or the turns of a loop. -/
inductive Overrun where
  | index
  | part
  | difference
  | turns
  deriving DecidableEq, Repr

namespace Checked

variable {α : Type}

def item (xs : List α) (k : Nat) : Except Overrun α :=
  match xs[k]? with
  | some x => .ok x
  | none => .error .index

def part (xs : List α) (start stop : Nat) : Except Overrun (List α) :=
  if start ≤ stop ∧ stop ≤ xs.length then .ok ((xs.take stop).drop start) else .error .part

def minus (a b : Nat) : Except Overrun Nat := if b ≤ a then .ok (a - b) else .error .difference

theorem item_eq {xs : List α} {k : Nat} (inside : k < xs.length) : item xs k = .ok xs[k] := by
  simp [item, inside]

theorem part_eq {xs : List α} {start stop : Nat} (order : start ≤ stop) (inside : stop ≤ xs.length) :
    part xs start stop = .ok ((xs.take stop).drop start) := if_pos ⟨order, inside⟩

theorem minus_eq {a b : Nat} (le : b ≤ a) : minus a b = .ok (a - b) := if_pos le

theorem ok_bind {β : Type} (x : α) (next : α → Except Overrun β) : (Except.ok x >>= next) = next x := rfl

def boundary (holds : α → Bool) (xs : List α) (low high : Nat) : Except Overrun Nat :=
  if low < high then
    let middle := (low + high) / 2
    item xs middle >>= fun x =>
      if holds x then boundary holds xs (middle + 1) high else boundary holds xs low middle
  else .ok low
termination_by high - low

def search (test : Char → Bool) (cs : List Char) : List Nat → Except Overrun (Option Nat)
  | [] => .ok none
  | k :: rest => do if test (← item cs k) then .ok (some k) else search test cs rest

theorem boundary_eq {holds : α → Bool} {xs : List α} {k low high : Nat}
    (split : ∀ j x, xs[j]? = some x → (holds x = true ↔ j < k)) (above : low ≤ k) (below : k ≤ high)
    (inside : high ≤ xs.length) : boundary holds xs low high = .ok k := by
  fun_induction boundary holds xs low high with
  | case1 low high order middle lower upper =>
    have middle_lt : middle < xs.length := by omega
    have found := split middle _ (List.getElem?_eq_getElem middle_lt)
    rw [item_eq middle_lt, ok_bind]
    split
    · rename_i passes
      exact lower (found.mp passes) below inside
    · rename_i fails
      exact upper above (by simpa [fails] using found) (by omega)
  | case2 low high order => rw [Nat.le_antisymm above (by omega)]

theorem boundary_eq_takeWhile {holds : α → Bool} {xs : List α}
    (ordered : xs.Pairwise fun x y => holds y = true → holds x = true) :
    boundary holds xs 0 xs.length = .ok (xs.takeWhile holds).length := by
  refine boundary_eq ?_ (Nat.zero_le _) (List.takeWhile_sublist _).length_le (Nat.le_refl _)
  induction xs with
  | nil => simp
  | cons first rest ih =>
    obtain ⟨earlier, ordered⟩ := List.pairwise_cons.mp ordered
    intro j x found
    cases passes : holds first with
    | true =>
      cases j with
      | zero => simp_all
      | succ j => simpa [passes] using ih ordered j x (by simpa using found)
    | false =>
      cases j with
      | zero => simp_all
      | succ j =>
        have fails : holds x ≠ true := fun passed => by
          simp [earlier x (List.mem_of_getElem? found) passed] at passes
        simp [passes, fails]

theorem search_eq {test : Char → Bool} {cs : List Char} {start : Nat} (inside : start ≤ cs.length) :
    search test cs (List.range' start (cs.length - start)) =
      let stop := start + ((cs.drop start).takeWhile fun ch => !test ch).length
      .ok (if stop < cs.length then some stop else none) := by
  generalize left : cs.length - start = n
  induction n generalizing start with
  | zero =>
    have ended : start = cs.length := by omega
    simp [search, ended]
  | succ n ih =>
    have begun : start < cs.length := by omega
    have next : start + 1 ≤ cs.length := begun
    have later := ih next (by omega)
    rw [List.range'_succ, search, item_eq begun, ok_bind, List.drop_eq_getElem_cons begun]
    cases passes : test cs[start] with
    | true =>
      simp only [passes, if_true, List.takeWhile_cons, Bool.not_true, Bool.false_eq_true, if_false,
        List.length_nil, Nat.add_zero, begun]
    | false =>
      simp only [later, passes, Bool.false_eq_true, if_false, Bool.not_false, List.takeWhile_cons,
        if_true, List.length_cons]
      rw [Nat.add_right_comm, Nat.add_assoc]

theorem found_getD {stop total : Nat} (within : stop ≤ total) :
    (if stop < total then some stop else none).getD total = stop := by
  split
  · rfl
  · rw [Option.getD_none]
    omega

theorem part_takeWhile {holds : α → Bool} {xs front : List α} {start : Nat} (inside : start ≤ xs.length)
    (taken : (xs.drop start).takeWhile holds = front) :
    start + front.length ≤ xs.length ∧ part xs start (start + front.length) = .ok front := by
  have leads : front <+: xs.drop start := taken ▸ List.takeWhile_prefix holds
  have room := leads.length_le
  rw [List.length_drop] at room
  have stop : start + front.length ≤ xs.length := by omega
  refine ⟨stop, ?_⟩
  rw [part_eq (Nat.le_add_right _ _) stop, List.drop_take, Nat.add_sub_cancel_left,
    ← List.prefix_iff_eq_take.mp leads]

end Checked

open Checked

def locate? (i : Input) : Except Overrun Nat := do
  let passed ← boundary (fun s => decide (s.stop ≤ i.position)) i.segments 0 i.segments.length
  .ok (min passed (i.segments.length - 1))

def ahead? (i : Input) : Except Overrun (List Segment) := do
  part i.segments (← i.locate?) i.segments.length

def charIn? (position : Nat) : List Segment → Nat → Except Overrun (Option Char)
  | [], _ => .ok none
  | s :: rest, k =>
    match s.body with
    | .content c => do
      let before := s.offset c position
      let available ← minus c.chars.length before
      if k < available then .ok (some (← item c.chars (before + k)))
      else charIn? position rest (← minus k available)
    | .separator => if k = 0 then .ok (some ' ') else do charIn? position rest (← minus k 1)
    | .tail => .ok none

def peekAt? (i : Input) (k : Nat) : Except Overrun (Option Char) := do
  charIn? i.position (← i.ahead?) k

def nextIn? (position : Nat) : List Segment → Except Overrun (Option Char × Nat)
  | [] => .ok (none, position)
  | s :: rest =>
    match s.body with
    | .content c =>
      let before := s.offset c position
      if before < c.chars.length then do .ok (some (← item c.chars before), s.start + before + 1)
      else nextIn? position rest
    | .separator => .ok (some ' ', s.stop)
    | .tail => .ok (none, s.start)

def readChar? (i : Input) : Except Overrun (Option Char × Input) := do
  let (c, position) ← nextIn? i.position (← i.ahead?)
  .ok (c, { i with position })

def skipBlanksWithin? : Nat → Input → Except Overrun Input
  | 0, _ => .error .turns
  | n + 1, i => do
    if (← i.peekAt? 0).any Text.isBlank then skipBlanksWithin? n (← i.readChar?).2 else .ok i

def skipBlanks? (i : Input) : Except Overrun Input := i.skipBlanksWithin? (i.length - i.position + 1)

def wordIn? (position : Nat) : List Segment → Except Overrun (Option Word × Nat)
  | [] => .ok (none, position)
  | s :: rest =>
    match s.body with
    | .content c =>
      let before := s.offset c position
      if c.isObject && before == 0 then .ok (some (.object c.value c.text), s.stop)
      else do
        let places (start : Nat) := List.range' start (c.chars.length - start)
        match ← search (fun ch => !Text.isBlank ch) c.chars (places before) with
        | none => wordIn? position rest
        | some start =>
          let stop := (← search Text.isBlank c.chars (places start)).getD c.chars.length
          let letters ← part c.chars start stop
          .ok (some (.text (String.ofList letters)), s.start + stop)
    | .separator => wordIn? position rest
    | .tail => .ok (none, s.start)

def readWord? (i : Input) : Except Overrun (Option Word × Input) := do
  let (word, position) ← wordIn? i.position (← i.ahead?)
  .ok (word, { i with position })

def slices? (start stop : Nat) : List Segment → Except Overrun (List Char)
  | [] => .ok []
  | s :: rest =>
    if s.isBefore start then slices? start stop rest
    else if stop ≤ s.start then .ok []
    else
      match s.body with
      | .content c => do
        let here ←
          if c.chars.isEmpty then .ok (if start ≤ s.start && s.stop ≤ stop then [' '] else [])
          else do
            let first := start - s.start
            let last := min (← minus stop s.start) c.chars.length
            if first < last then part c.chars first last else .ok []
        .ok (here ++ (← slices? start stop rest))
      | .separator => do .ok (' ' :: (← slices? start stop rest))
      | .tail => .ok []

def textBetween? (i : Input) (start stop : Nat) : Except Overrun String :=
  if stop ≤ start then .ok "" else do .ok (String.ofList (← slices? start stop i.segments))

def perform? (i : Input) : Request → Except Overrun (Answer × Input)
  | .peek => do .ok (.char (← i.peekAt? 0), i)
  | .peekAt k => do .ok (.char (← i.peekAt? k), i)
  | .readChar => do
    let (c, j) ← i.readChar?
    .ok (.char c, j)
  | .skipBlanks => do .ok (.done, ← i.skipBlanks?)
  | .peekWord => do .ok (.word (← i.readWord?).1, i)
  | .readWord => do
    let (word, j) ← i.readWord?
    .ok (.word word, j)
  | .seek position => .ok (.done, i.seek position)
  | .textBetween start stop => do .ok (.text (← i.textBetween? start stop), i)
  | .remaining => do .ok (.text (← i.textBetween? i.position i.length), i)
  | .line => do .ok (.text (← i.textBetween? 0 i.length), i)
  | .length => .ok (.number i.length, i)
  | .hasMore => .ok (.truth i.hasMore, i)

def run? : Input → List Request → Except Overrun (List (Answer × Nat) × Input)
  | i, [] => .ok ([], i)
  | i, request :: rest => do
    let (answer, j) ← i.perform? request
    let (answers, last) ← j.run? rest
    .ok ((answer, j.position) :: answers, last)

section Segments

variable {p e position : Nat} {segments : List Segment}

theorem charIn?_eq (position : Nat) (segments : List Segment) (k : Nat) :
    charIn? position segments k = .ok (charIn position segments k) := by
  induction segments generalizing k with
  | nil => rfl
  | cons s rest ih =>
    cases body : s.body with
    | content c =>
      have within : s.offset c position ≤ c.chars.length := Nat.min_le_right _ _
      simp only [charIn?, charIn, body, minus_eq within, ok_bind, List.length_drop]
      split
      · have inside : s.offset c position + k < c.chars.length := by omega
        rw [item_eq inside, ok_bind, List.getElem?_drop, List.getElem?_eq_getElem inside]
      · rw [minus_eq (by omega), ok_bind, ih]
    | separator =>
      cases k with
      | zero => simp [charIn?, charIn, body]
      | succ k =>
        simp only [charIn?, charIn, body, Nat.add_one_ne_zero, if_false]
        rw [minus_eq (by omega), ok_bind, Nat.add_sub_cancel, ih]
    | tail => simp [charIn?, charIn, body]

theorem nextIn?_eq (position : Nat) (segments : List Segment) :
    nextIn? position segments = .ok (nextIn position segments) := by
  induction segments with
  | nil => rfl
  | cons s rest ih =>
    cases body : s.body with
    | content c =>
      simp only [nextIn?, nextIn, body]
      by_cases inside : s.offset c position < c.chars.length
      · rw [if_pos inside, item_eq inside, ok_bind, List.drop_eq_getElem_cons inside]
      · rw [if_neg inside, ih, List.drop_eq_nil_of_le (Nat.le_of_not_lt inside)]
    | separator | tail => simp [nextIn?, nextIn, body]

theorem wordIn?_eq (position : Nat) (segments : List Segment) :
    wordIn? position segments = .ok (wordIn position segments) := by
  induction segments with
  | nil => rfl
  | cons s rest ih =>
    cases body : s.body with
    | separator => simp [wordIn?, wordIn, body, ih]
    | tail => simp [wordIn?, wordIn, body]
    | content c =>
      have within : s.offset c position ≤ c.chars.length := Nat.min_le_right _ _
      simp only [wordIn?, wordIn, body, search_eq within, ok_bind, Bool.not_not]
      split
      · rfl
      generalize s.offset c position = before at within ⊢
      generalize blanks_eq : ((c.chars.drop before).takeWhile Text.isBlank) = blanks
      generalize letters_eq : ((c.chars.drop before).drop blanks.length).takeWhile
        (fun ch => !Text.isBlank ch) = letters
      rw [List.drop_drop] at letters_eq
      by_cases inside : before + blanks.length < c.chars.length
      · -- A word begins behind the blanks.
        have begun := List.drop_eq_getElem_cons inside
        have behind : (c.chars.drop before).drop ((c.chars.drop before).takeWhile Text.isBlank).length =
            c.chars[before + blanks.length] :: c.chars.drop (before + blanks.length + 1) := by
          rw [blanks_eq, List.drop_drop, begun]
        have solid := isBlank_of_drop_takeWhile behind
        have present : letters ≠ [] := by
          rw [← letters_eq, begun, List.takeWhile_cons_of_pos (by simp [solid])]
          exact List.cons_ne_nil _ _
        obtain ⟨room, word⟩ := part_takeWhile (Nat.le_of_lt inside) letters_eq
        simp only [if_pos inside, search_eq (Nat.le_of_lt inside), ok_bind, letters_eq, found_getD room,
          word]
        rw [if_neg (by simpa using present)]
        simp only [Nat.add_assoc]
      · have ended : c.chars.drop (before + blanks.length) = [] :=
          List.drop_eq_nil_of_le (Nat.le_of_not_lt inside)
        rw [if_neg inside, ih, ← letters_eq, ended]
        rfl

namespace Tiles

theorem pairwise_stop (h : Tiles p e segments) : segments.Pairwise fun s t => s.stop ≤ t.stop := by
  induction h using row_induction with
  | tail => simp
  | step p w body rest row tiles positive solid ih =>
    refine List.pairwise_cons.mpr ⟨fun t member => ?_, ih⟩
    obtain ⟨behind, proper, -⟩ := tiles.bounds t member
    exact behind.trans proper

theorem min_passed (h : Tiles p e segments) (position : Nat) :
    min (segments.takeWhile fun s => decide (s.stop ≤ position)).length (segments.length - 1) =
      (segments.takeWhile (·.isBefore position)).length := by
  induction h using row_induction with
  | tail => simp [Segment.isBefore, Segment.isTail]
  | step p w body rest row tiles positive solid ih =>
    have some := List.length_pos_iff.mpr tiles.ne_nil
    have before : Segment.isBefore ⟨p, p + w, body⟩ position = decide (p + w ≤ position) :=
      Segment.isBefore_of_ne_tail solid
    rw [List.takeWhile_cons, List.takeWhile_cons, before]
    split
    · simp only [List.length_cons]
      omega
    · simp

theorem slices?_eq (h : Tiles p e segments) (start stop : Nat) :
    slices? start stop segments = .ok (segments.flatMap (·.slice start stop)) := by
  induction h using row_induction with
  | tail =>
    simp only [slices?, Segment.isBefore, Segment.isTail, Bool.not_true, Bool.and_false,
      Bool.false_eq_true, if_false]
    split <;> simp [Segment.slice]
  | step p w body rest row tiles positive solid ih =>
    rw [slices?, Segment.isBefore_of_ne_tail solid, List.flatMap_cons]
    by_cases before : p + w ≤ start
    · simp [before, ih, Segment.slice]
    by_cases beyond : stop ≤ p
    · -- All further segments lie behind the span as well.
      have nothing : ((⟨p, p + w, body⟩ : Segment) :: rest).flatMap (·.slice start stop) = [] := by
        refine List.flatMap_eq_nil_iff.mpr fun s member => ?_
        have behind := beyond.trans (row.bounds s member).1
        simp [Segment.slice, behind]
      rw [List.flatMap_cons] at nothing
      simp [before, beyond, nothing]
    · cases body with
      | tail => exact absurd rfl solid
      | separator => simp [before, beyond, ih, Segment.slice, ok_bind]
      | content c =>
        simp only [before, beyond, decide_false, Bool.false_eq_true, if_false, ih, Segment.slice,
          Bool.or_self]
        split
        · rfl
        · rw [minus_eq (by omega), ok_bind, List.take_eq_take_min]
          split
          · rename_i within
            rw [part_eq (Nat.le_of_lt within) (Nat.min_le_right _ _)]
            rfl
          · rename_i empty
            rw [List.drop_eq_nil_of_le (by rw [List.length_take]; omega)]
            rfl

end Tiles

end Segments

namespace Laid

variable {i : Input}

theorem locate?_eq (h : i.Laid) :
    i.locate? = .ok (i.segments.takeWhile (·.isBefore i.position)).length := by
  have ordered : i.segments.Pairwise fun s t =>
      decide (t.stop ≤ i.position) = true → decide (s.stop ≤ i.position) = true :=
    h.tiles.pairwise_stop.imp fun le => by simpa using le.trans
  rw [locate?, boundary_eq_takeWhile ordered, ok_bind, h.tiles.min_passed]

theorem ahead?_eq (h : i.Laid) : i.ahead? = .ok i.ahead := by
  have front := List.takeWhile_prefix (l := i.segments) (·.isBefore i.position)
  have split : i.segments.drop (i.segments.takeWhile (·.isBefore i.position)).length = i.ahead :=
    List.append_cancel_left
      ((List.prefix_iff_eq_append.mp front).trans List.takeWhile_append_dropWhile.symm)
  rw [ahead?, h.locate?_eq, ok_bind, part_eq front.length_le (Nat.le_refl _), List.take_length, split]

theorem peekAt?_eq (h : i.Laid) (k : Nat) : i.peekAt? k = .ok (i.peekAt k) := by
  rw [peekAt?, h.ahead?_eq, ok_bind, charIn?_eq, peekAt]

theorem readChar?_eq (h : i.Laid) : i.readChar? = .ok i.readChar := by
  rw [readChar?, h.ahead?_eq, ok_bind, nextIn?_eq, ok_bind, readChar]

theorem readWord?_eq (h : i.Laid) : i.readWord? = .ok i.readWord := by
  rw [readWord?, h.ahead?_eq, ok_bind, wordIn?_eq, ok_bind, readWord]

theorem textBetween?_eq (h : i.Laid) (start stop : Nat) :
    i.textBetween? start stop = .ok (i.textBetween start stop) := by
  rw [textBetween?, textBetween, h.tiles.slices?_eq]
  split <;> rfl

theorem hasMore_of_peek (h : i.Laid) {ch : Char} (peeked : i.peek = some ch) : i.hasMore = true := by
  have within := h.reaches_readChar.within
  rw [peek, h.peekAt_eq] at peeked
  rw [h.readChar_eq] at within
  cases left : i.left with
  | nil => simp [left] at peeked
  | cons first rest =>
    have behind : i.position ≤ first.2 := le_of_mem_left (by simp [left])
    simp only [left] at within
    simp only [hasMore, decide_eq_true_eq]
    omega

theorem skipBlanksWithin?_eq (h : i.Laid) {n : Nat} (enough : i.length - i.position ≤ n) :
    i.skipBlanksWithin? (n + 1) = .ok (i.skipBlanksWithin n) := by
  induction n generalizing i with
  | zero =>
    have ended : i.peek = none := by
      cases peeked : i.peek with
      | none => rfl
      | some ch =>
        have more := h.hasMore_of_peek peeked
        simp only [hasMore, decide_eq_true_eq] at more
        omega
    rw [skipBlanksWithin?, h.peekAt?_eq, ok_bind, ← peek, ended]
    rfl
  | succ n ih =>
    rw [skipBlanksWithin?, h.peekAt?_eq, ok_bind, ← peek, skipBlanksWithin, h.readChar?_eq, ok_bind]
    split
    · rename_i blank
      obtain ⟨ch, peeked⟩ : ∃ ch, i.peek = some ch := by
        cases peeked : i.peek with
        | none => simp [peeked] at blank
        | some ch => exact ⟨ch, rfl⟩
      have further := h.readChar_lt (h.hasMore_of_peek peeked)
      exact ih (h.reaches_readChar.laid h) (by rw [length_readChar]; omega)
    · rfl

theorem skipBlanks?_eq (h : i.Laid) : i.skipBlanks? = .ok i.skipBlanks :=
  h.skipBlanksWithin?_eq (Nat.le_refl _)

theorem perform?_eq (h : i.Laid) (request : Request) : i.perform? request = .ok (i.perform request) := by
  cases request with
  | peek | peekAt => simp only [perform?, perform, h.peekAt?_eq, ok_bind, peek]
  | readChar => simp only [perform?, perform, h.readChar?_eq, ok_bind]
  | skipBlanks => simp only [perform?, perform, h.skipBlanks?_eq, ok_bind]
  | peekWord | readWord => simp only [perform?, perform, h.readWord?_eq, ok_bind, fst_readWord]
  | textBetween | remaining | line =>
    simp only [perform?, perform, h.textBetween?_eq, ok_bind, remaining, line]
  | seek | length | hasMore => rfl

theorem perform (h : i.Laid) (request : Request) :
    (i.perform request).2.segments = i.segments ∧ (i.perform request).2.Laid := by
  cases request with
  | readChar => exact ⟨rfl, h.reaches_readChar.laid h⟩
  | readWord => exact ⟨rfl, h.reaches_readWord.laid h⟩
  | skipBlanks => exact ⟨h.reaches_skipBlanks.segments, h.reaches_skipBlanks.laid h⟩
  | seek position => exact ⟨rfl, h.tiles, Nat.min_le_right _ _⟩
  | _ => exact ⟨rfl, h⟩

theorem run?_eq (h : i.Laid) (requests : List Request) :
    ∃ j, i.run? requests = .ok (i.transcript requests, j) ∧ j.segments = i.segments ∧ j.Laid := by
  induction requests generalizing i with
  | nil => exact ⟨i, rfl, rfl, h⟩
  | cons request rest ih =>
    obtain ⟨kept, laid⟩ := h.perform request
    obtain ⟨j, run, same, onward⟩ := ih laid
    refine ⟨j, ?_, same.trans kept, onward⟩
    simp only [run?, transcript, h.perform?_eq, ok_bind, run]

end Laid

end CommandGrammar.Input
