import Mathlib.Data.List.Chain
import CommandGrammar.Proofs.Input.Columns

set_option autoImplicit false

namespace CommandGrammar.Input

-- The positions of the empty values in a row that begins at a position.
def emptyPlaces (r : Rendering) : Nat → List Value → List Nat
  | _, [] => []
  | p, v :: rest =>
    let later := emptyPlaces r (p + (Content.ofValue r v).width + 1) rest
    if r.text v = "" then p :: later else later

/-- Taking characters until none is left: each with its position, right behind which the line stands
once it has been taken, and the line that remains. -/
inductive Spends : Input → List (Char × Nat) → Input → Prop
  | done {i j : Input} : i.readChar = (none, j) → Spends i [] j
  | char {i j k : Input} {ch : Char} {q : Nat} {found : List (Char × Nat)} :
    i.readChar = (some ch, j) → j.position = q + 1 → Spends j found k → Spends i ((ch, q) :: found) k

def Segment.letters (s : Segment) : List (Char × Nat) :=
  match s.body with
  | .content c => c.chars.zipIdx s.start
  | .separator => [(' ', s.start)]
  | .tail => []

@[simp] theorem Segment.letters_content (p e : Nat) (c : Content) :
    letters ⟨p, e, .content c⟩ = c.chars.zipIdx p := rfl

@[simp] theorem Segment.letters_separator (p e : Nat) : letters ⟨p, e, .separator⟩ = [(' ', p)] := rfl

theorem Segment.drop_offset (s : Segment) (c : Content) (position : Nat) :
    c.chars.drop (s.offset c position) = c.chars.drop (position - s.start) := by
  by_cases inside : position - s.start ≤ c.chars.length
  · rw [offset, Nat.min_eq_left inside]
  · rw [offset, Nat.min_eq_right (Nat.le_of_not_le inside), List.drop_length,
      List.drop_eq_nil_of_le (Nat.le_of_not_le inside)]

theorem Content.lt_of_mem_letters {c : Content} {p : Nat} {e : Char × Nat}
    (member : e ∈ c.chars.zipIdx p) : e.2 < p + c.width :=
  (List.snd_lt_add_of_mem_zipIdx member).trans_le (Nat.add_le_add_left (Nat.le_max_left _ _) p)

def letters (i : Input) : List (Char × Nat) := i.segments.flatMap Segment.letters

def lettersFrom (position : Nat) (found : List (Char × Nat)) : List (Char × Nat) :=
  found.filter fun e => position ≤ e.2

section Positions

variable {position : Nat} {found : List (Char × Nat)}

theorem lettersFrom_append (front rest : List (Char × Nat)) :
    lettersFrom position (front ++ rest) = lettersFrom position front ++ lettersFrom position rest :=
  List.filter_append ..

theorem lettersFrom_eq_self (later : ∀ e ∈ found, position ≤ e.2) :
    lettersFrom position found = found :=
  List.filter_eq_self.mpr fun e member => decide_eq_true (later e member)

theorem lettersFrom_eq_nil (passed : ∀ e ∈ found, e.2 < position) : lettersFrom position found = [] :=
  List.filter_eq_nil_iff.mpr fun e member => by simpa using passed e member

theorem lettersFrom_zipIdx (cs : List Char) (p : Nat) :
    lettersFrom position (cs.zipIdx p) = (cs.drop (position - p)).zipIdx (p + (position - p)) := by
  induction cs generalizing p with
  | nil => simp [lettersFrom]
  | cons ch cs ih =>
    by_cases before : position ≤ p
    · rw [Nat.sub_eq_zero_of_le before]
      exact lettersFrom_eq_self fun e member => before.trans (List.le_snd_of_mem_zipIdx member)
    · have skip : position - p = position - (p + 1) + 1 := by omega
      have rest := ih (p + 1)
      rw [lettersFrom] at rest ⊢
      rw [List.zipIdx_cons, List.filter_cons_of_neg (by simpa using before), rest, skip,
        List.drop_succ_cons, Nat.add_right_comm, Nat.add_assoc]

end Positions

namespace Tiles

variable {p e position : Nat} {segments : List Segment}

theorem le_of_mem_letters (h : Tiles p e segments) :
    ∀ x ∈ segments.flatMap Segment.letters, p ≤ x.2 := by
  induction h with
  | tail p => simp [Segment.letters]
  | @content p e rest c tiles ih =>
    intro x member
    rcases List.mem_append.mp (List.flatMap_cons ▸ member) with here | later
    · exact List.le_snd_of_mem_zipIdx here
    · exact (Nat.le_add_right _ _).trans (ih x later)
  | @separator p e rest tiles ih =>
    intro x member
    rcases List.mem_append.mp (List.flatMap_cons ▸ member) with here | later
    · exact Nat.le_of_eq (congrArg Prod.snd (List.mem_singleton.mp here)).symm
    · exact (Nat.le_succ p).trans (ih x later)

theorem pairwise_letters (h : Tiles p e segments) :
    (segments.flatMap Segment.letters).Pairwise fun x y => x.2 < y.2 := by
  induction h with
  | tail p => exact .nil
  | @content p e rest c tiles ih =>
    rw [List.flatMap_cons]
    refine List.pairwise_append.mpr ⟨?_, ih, ?_⟩
    · have places : ((c.chars.zipIdx p).map Prod.snd).Pairwise (· < ·) := by
        rw [List.zipIdx_map_snd]
        exact List.pairwise_lt_range'
      exact List.pairwise_map.mp places
    · intro x here y later
      exact (Content.lt_of_mem_letters here).trans_le (tiles.le_of_mem_letters y later)
  | @separator p e rest tiles ih =>
    rw [List.flatMap_cons]
    exact List.pairwise_cons.mpr ⟨fun y later => tiles.le_of_mem_letters y later, ih⟩

theorem nextIn_eq (h : Tiles p e segments) (ahead : Ahead position segments) :
    nextIn position segments =
      match lettersFrom position (segments.flatMap Segment.letters) with
      | [] => (none, e)
      | (ch, q) :: _ => (some ch, q + 1) := by
  induction h with
  | tail p => rfl
  | @content p e rest c tiles ih =>
    have inside := ahead_content.mp ahead
    have later := ih (tiles.ahead_of_le (Nat.le_of_lt inside))
    rw [List.flatMap_cons, lettersFrom_append, Segment.letters_content, lettersFrom_zipIdx]
    simp only [nextIn, Segment.drop_offset]
    cases left : c.chars.drop (position - p) with
    | nil => exact later
    | cons ch others =>
      have some := congrArg List.length left
      simp only [List.length_drop, List.length_cons] at some
      have offset : min (position - p) c.chars.length = position - p := Nat.min_eq_left (by omega)
      simp [Segment.offset, offset]
  | @separator p e rest tiles ih =>
    have inside := ahead_separator.mp ahead
    rw [List.flatMap_cons, lettersFrom_append, Segment.letters_separator,
      lettersFrom_eq_self (by simp; omega)]
    rfl

theorem charIn_eq (h : Tiles p e segments) (ahead : Ahead position segments) (k : Nat) :
    charIn position segments k =
      ((lettersFrom position (segments.flatMap Segment.letters)).map Prod.fst)[k]? := by
  induction h generalizing k with
  | tail p => rfl
  | @content p e rest c tiles ih =>
    have inside := ahead_content.mp ahead
    have later := ih (tiles.ahead_of_le (Nat.le_of_lt inside))
    rw [List.flatMap_cons, lettersFrom_append, Segment.letters_content, lettersFrom_zipIdx,
      List.map_append, List.zipIdx_map_fst, List.getElem?_append]
    simp only [charIn, Segment.drop_offset, later]
  | @separator p e rest tiles ih =>
    have inside := ahead_separator.mp ahead
    have later := ih (tiles.ahead_of_le (Nat.le_of_lt inside))
    rw [List.flatMap_cons, lettersFrom_append, Segment.letters_separator,
      lettersFrom_eq_self (by simp; omega)]
    cases k with
    | zero => rfl
    | succ k => exact later k

theorem lettersFrom_dropWhile (h : Tiles p e segments) (position : Nat) :
    lettersFrom position ((segments.dropWhile (·.isBefore position)).flatMap Segment.letters) =
      lettersFrom position (segments.flatMap Segment.letters) := by
  induction h with
  | tail p => simp [Segment.isBefore, Segment.isTail]
  | @content p e rest c tiles ih =>
    rw [List.dropWhile_cons]
    split
    · rename_i before
      have passed : p + c.width ≤ position := by simpa [Segment.isBefore, Segment.isTail] using before
      have spent : lettersFrom position (c.chars.zipIdx p) = [] :=
        lettersFrom_eq_nil fun x member => (Content.lt_of_mem_letters member).trans_le passed
      rw [ih, List.flatMap_cons, lettersFrom_append, Segment.letters_content, spent, List.nil_append]
    · rfl
  | @separator p e rest tiles ih =>
    rw [List.dropWhile_cons]
    split
    · rename_i before
      have passed : p + 1 ≤ position := by simpa [Segment.isBefore, Segment.isTail] using before
      have spent : lettersFrom position [(' ', p)] = [] :=
        lettersFrom_eq_nil (by simpa using Nat.lt_of_succ_le passed)
      rw [ih, List.flatMap_cons, lettersFrom_append, Segment.letters_separator, spent, List.nil_append]
    · rfl

end Tiles

variable {i : Input}

def left (i : Input) : List (Char × Nat) := lettersFrom i.position i.letters

theorem le_of_mem_left {e : Char × Nat} (member : e ∈ i.left) : i.position ≤ e.2 :=
  of_decide_eq_true (List.mem_filter.mp member).2

namespace Laid

theorem peekAt_eq (h : i.Laid) (k : Nat) : i.peekAt k = (i.left.map Prod.fst)[k]? := by
  obtain ⟨q, tiles, ahead⟩ := h.tiles.dropWhile i.position
  rw [peekAt, Input.ahead, tiles.charIn_eq ahead, h.tiles.lettersFrom_dropWhile, left, letters]

theorem readChar_eq (h : i.Laid) :
    i.readChar = match i.left with
      | [] => (none, i.seek i.length)
      | (ch, q) :: _ => (some ch, { i with position := q + 1 }) := by
  obtain ⟨q, tiles, ahead⟩ := h.tiles.dropWhile i.position
  have next := tiles.nextIn_eq ahead
  rw [h.tiles.lettersFrom_dropWhile] at next
  simp only [readChar, Input.ahead, next, left, letters]
  cases lettersFrom i.position (i.segments.flatMap Segment.letters) with
  | nil => simp [seek]
  | cons first rest => rfl

theorem pairwise_left (h : i.Laid) : i.left.Pairwise fun x y => x.2 < y.2 :=
  h.tiles.pairwise_letters.filter _

theorem left_behind (h : i.Laid) {ch : Char} {q : Nat} {rest : List (Char × Nat)}
    (begun : i.left = (ch, q) :: rest) : left { i with position := q + 1 } = rest := by
  have within : i.position ≤ q := le_of_mem_left (e := (ch, q)) (by simp [begun])
  have ordered := h.pairwise_left
  rw [begun] at ordered
  have later : ∀ e ∈ rest, q < e.2 := (List.pairwise_cons.mp ordered).1
  have further : lettersFrom (q + 1) i.letters = lettersFrom (q + 1) i.left := by
    rw [left, lettersFrom, lettersFrom, lettersFrom, List.filter_filter]
    refine List.filter_congr fun e _ => ?_
    rw [← Bool.decide_and, decide_eq_decide]
    omega
  change lettersFrom (q + 1) i.letters = rest
  rw [further, begun, lettersFrom, List.filter_cons_of_neg (by simp)]
  exact lettersFrom_eq_self later

theorem spends (h : i.Laid) : i.Spends i.left (i.seek i.length) := by
  generalize begun : i.left = found
  induction found generalizing i with
  | nil =>
    have read := h.readChar_eq
    rw [begun] at read
    exact .done read
  | cons first rest ih =>
    obtain ⟨ch, q⟩ := first
    have read := h.readChar_eq
    rw [begun] at read
    have reached := h.reaches_readChar
    rw [read] at reached
    exact .char read rfl (ih (reached.laid h) (h.left_behind begun))

end Laid

section Rows

variable {r : Rendering}

theorem le_of_mem_emptyPlaces {p q : Nat} {values : List Value} (member : q ∈ emptyPlaces r p values) :
    p ≤ q := by
  induction values generalizing p with
  | nil => simp [emptyPlaces] at member
  | cons v rest ih =>
    rw [emptyPlaces] at member
    split at member
    · rcases List.mem_cons.mp member with rfl | later
      · exact Nat.le_refl _
      · have := ih later
        omega
    · have := ih member
      omega

theorem filter_shown (v : Value) (p : Nat) {later : List Nat}
    (far : ∀ q ∈ later, p + (Content.ofValue r v).width < q) :
    ((r.shown v).toList.zipIdx p).filter
        (fun e => e.2 ∉ if r.text v = "" then p :: later else later) =
      (Content.ofValue r v).chars.zipIdx p := by
  by_cases empty : r.text v = ""
  · simp [Rendering.shown, Content.ofValue, empty]
  · rw [Rendering.shown, if_neg empty, if_neg empty]
    refine List.filter_eq_self.mpr fun e member => decide_eq_true fun empty => ?_
    exact absurd (far e.2 empty) (Nat.not_lt_of_le (Content.lt_of_mem_letters member).le)

theorem letters_layoutFrom (p : Nat) (values : List Value) :
    (((layoutFrom r p values).flatMap Segment.shown).zipIdx p).filter
        (fun e => e.2 ∉ emptyPlaces r p values) =
      (layoutFrom r p values).flatMap Segment.letters := by
  fun_induction layoutFrom r p values with
  | case1 p => rfl
  | case2 p v c =>
    have value : ((r.shown v).toList.zipIdx p).filter
        (fun e => e.2 ∉ if r.text v = "" then [p] else []) = c.chars.zipIdx p :=
      filter_shown v p (by simp)
    rw [List.flatMap_cons, shown_content]
    simpa [emptyPlaces, Segment.shown, Segment.letters] using value
  | case3 p v w rest c stop ih =>
    have width : (r.shown v).toList.length = c.width := by
      rw [← shown_content r v p (p + c.width)]
      exact Segment.length_shown_content p c
    have row : emptyPlaces r p (v :: w :: rest) = if r.text v = ""
        then p :: emptyPlaces r (stop + 1) (w :: rest) else emptyPlaces r (stop + 1) (w :: rest) := rfl
    have far : ∀ q ∈ emptyPlaces r (stop + 1) (w :: rest), stop < q :=
      fun q member => le_of_mem_emptyPlaces member
    generalize emptyPlaces r (stop + 1) (w :: rest) = later at row far ih
    have value : ((r.shown v).toList.zipIdx p).filter
        (fun e => e.2 ∉ emptyPlaces r p (v :: w :: rest)) = c.chars.zipIdx p :=
      row ▸ filter_shown v p far
    -- Behind the value it does not matter whether it is empty.
    have behind (cs : List Char) : (cs.zipIdx stop).filter
        (fun e => e.2 ∉ emptyPlaces r p (v :: w :: rest)) =
          (cs.zipIdx stop).filter fun e => e.2 ∉ later := by
      refine List.filter_congr fun e member => ?_
      have further : p < e.2 :=
        (Nat.lt_add_of_pos_right c.width_pos).trans_le (List.le_snd_of_mem_zipIdx member)
      rw [row]
      split <;> simp [Nat.ne_of_gt further]
    have space : stop ∉ later := fun member => Nat.lt_irrefl _ (far stop member)
    rw [List.flatMap_cons, shown_content, List.zipIdx_append, List.filter_append, width, behind, value]
    simpa [Segment.shown, List.zipIdx_cons, space] using ih

end Rows

/-- Taking character after character gives what the line shows from the position on, without the spaces
that stand for empty values, and looking ahead sees exactly these characters. -/
theorem spends_ofValues (r : Rendering) (values : List Value) (n : Nat) :
    let i := (ofValues r values).seek n
    let found := ((i.textBetween i.position i.length).toList.zipIdx i.position).filter
      fun e => e.2 ∉ emptyPlaces r 0 values
    i.Spends found (i.seek i.length) ∧
      (i.position :: found.map fun e => e.2 + 1).IsChain (· < ·) ∧
      ∀ k, i.peekAt k = (found.map Prod.fst)[k]? := by
  intro i found
  have laid : i.Laid := laid_ofValues r values n
  have same : found = i.left := by
    have given : (i.shown.zipIdx 0).filter (fun e => e.2 ∉ emptyPlaces r 0 values) = i.letters :=
      letters_layoutFrom 0 values
    have shown : (i.textBetween i.position i.length).toList = i.shown.drop i.position := by
      rw [laid.textBetween_eq, String.toList_ofList, ← laid.length_shown, List.take_length]
    have cut : lettersFrom i.position (i.shown.zipIdx 0) =
        (i.shown.drop i.position).zipIdx i.position := by
      rw [lettersFrom_zipIdx, Nat.sub_zero, Nat.zero_add]
    simp only [found, shown, left, ← given, ← cut, lettersFrom, List.filter_filter, Bool.and_comm]
  rw [same]
  refine ⟨laid.spends, ?_, laid.peekAt_eq⟩
  refine (List.pairwise_cons.mpr ⟨?_, ?_⟩).isChain
  · intro stop member
    obtain ⟨e, inside, rfl⟩ := List.mem_map.mp member
    exact Nat.lt_succ_of_le (le_of_mem_left inside)
  · exact List.pairwise_map.mpr (laid.pairwise_left.imp Nat.succ_lt_succ)

example :
    let i := (ofValues .standard [.ofString "a", .unit, .ofString "b", .ofString ""]).seek 2
    i.textBetween i.position i.length = "  b  " ∧ emptyPlaces .standard 0 i.values = [2, 6] ∧
      i.left = [(' ', 3), ('b', 4), (' ', 5)] := by
  decide

end CommandGrammar.Input
