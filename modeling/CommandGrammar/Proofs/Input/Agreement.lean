import CommandGrammar.Proofs.Input.Twin

set_option autoImplicit false

namespace CommandGrammar

namespace Input

theorem takeWhile_append_congr {p : Char → Bool} {front rest : List Char}
    (ends : ((front ++ rest).takeWhile p).length < front.length) (rest' : List Char) :
    (front ++ rest').takeWhile p = (front ++ rest).takeWhile p := by
  rw [List.takeWhile_append] at ends
  rw [List.takeWhile_append, List.takeWhile_append]
  split at ends
  case isTrue =>
    rw [List.length_append] at ends
    omega
  case isFalse short => rw [if_neg short, if_neg short]

theorem firstWord_append_congr {front rest : List Char}
    (ends : (firstWord (front ++ rest)).2 < front.length) (rest' : List Char) :
    firstWord (front ++ rest') = firstWord (front ++ rest) := by
  simp only [firstWord] at ends ⊢
  split at ends
  case isTrue =>
    rw [List.length_append] at ends
    omega
  case isFalse begun =>
    have short := Nat.lt_of_le_of_lt (Nat.le_add_right _ _) ends
    rw [takeWhile_append_congr short rest']
    generalize ((front ++ rest).takeWhile Text.isBlank).length = b at ends begun short ⊢
    have dropped (rest : List Char) : (front ++ rest).drop b = front.drop b ++ rest :=
      List.drop_append_of_le_length (Nat.le_of_lt short)
    rw [dropped] at ends begun ⊢
    have inside : ((front.drop b ++ rest).takeWhile fun ch => !Text.isBlank ch).length <
        (front.drop b).length := by
      rw [List.length_drop]
      omega
    have letters := takeWhile_append_congr inside rest'
    rw [dropped, letters, if_neg begun, if_neg begun]

theorem firstWord_le_of_isBlank {left rest : List Char} {first ch : Char} {n : Nat}
    (begun : left.drop (left.takeWhile Text.isBlank).length = first :: rest)
    (behind : (left.takeWhile Text.isBlank).length ≤ n) (found : left[n]? = some ch)
    (blank : Text.isBlank ch = true) : (firstWord left).2 ≤ n := by
  have solid := isBlank_of_drop_takeWhile begun
  have there : (first :: rest)[n - (left.takeWhile Text.isBlank).length]? = some ch := by
    rw [← begun, List.getElem?_drop, Nat.add_sub_cancel' behind, found]
  have short {xs : List Char} {m : Nat} (at_ : xs[m]? = some ch) :
      (xs.takeWhile fun ch => !Text.isBlank ch).length ≤ m := by
    induction xs generalizing m with
    | nil => simp
    | cons x xs ih =>
      cases m with
      | zero =>
        obtain rfl : x = ch := by simpa using at_
        simp [blank]
      | succ m =>
        have tail := ih (m := m) (by simpa using at_)
        rw [List.takeWhile_cons]
        split <;> simp [tail]
  have letters := short there
  simp only [firstWord, begun]
  rw [if_neg (by simp [solid])]
  omega

structure Agree (k : Nat) (i j : Input) : Prop where
  position : j.position = i.position
  shown : ∃ front rest rest', i.position + front.length = k ∧ i.Shows (front ++ rest) ∧
    j.Shows (front ++ rest')

namespace Agree

variable {k : Nat} {i j : Input}

theorem symm (h : i.Agree k j) : j.Agree k i := by
  obtain ⟨front, rest, rest', reach, hi, hj⟩ := h.shown
  exact ⟨h.position.symm, front, rest', rest, by rw [h.position, reach], hj, hi⟩

theorem advance (h : i.Agree k j) {n : Nat} (within : i.position + n ≤ k) :
    ({ i with position := i.position + n } : Input).Agree k
      { j with position := j.position + n } := by
  obtain ⟨front, rest, rest', reach, hi, hj⟩ := h.shown
  have short : n ≤ front.length := by omega
  have front' (rest : List Char) : (front ++ rest).drop n = front.drop n ++ rest :=
    List.drop_append_of_le_length short
  refine ⟨by rw [h.position], front.drop n, rest, rest', ?_, ?_, ?_⟩
  · simp only [List.length_drop]
    omega
  · exact front' rest ▸ hi.advance (by simp; omega)
  · exact front' rest' ▸ hj.advance (by simp; omega)

section Before

variable (h : i.Agree k j)
include h

theorem front_cons (before : i.position < k) :
    ∃ ch left left', i.Shows (ch :: left) ∧ j.Shows (ch :: left') := by
  obtain ⟨front, rest, rest', reach, hi, hj⟩ := h.shown
  cases front with
  | nil => simp only [List.length_nil] at reach; omega
  | cons ch front => exact ⟨ch, front ++ rest, front ++ rest', hi, hj⟩

theorem peek_eq (before : i.position < k) : j.peek = i.peek := by
  obtain ⟨ch, left, left', hi, hj⟩ := h.front_cons before
  rw [hi.peek_eq, hj.peek_eq]
  rfl

theorem hasMore (before : i.position < k) : i.hasMore = true ∧ j.hasMore = true := by
  obtain ⟨ch, left, left', hi, hj⟩ := h.front_cons before
  rw [hi.hasMore_eq, hj.hasMore_eq]
  exact ⟨rfl, rfl⟩

theorem le_length : k ≤ i.length := by
  obtain ⟨front, rest, rest', reach, hi, -⟩ := h.shown
  rw [hi.length_eq, List.length_append]
  omega

theorem readChar (before : i.position < k) :
    ∃ ch, i.readChar = (some ch, { i with position := i.position + 1 }) ∧
      j.readChar = (some ch, { j with position := j.position + 1 }) := by
  obtain ⟨ch, left, left', hi, hj⟩ := h.front_cons before
  exact ⟨ch, by simp [hi.readChar_eq], by simp [hj.readChar_eq]⟩

theorem readWord (before : i.readWord.2.position < k) :
    j.readWord.1 = i.readWord.1 ∧ i.readWord.2.Agree k j.readWord.2 := by
  obtain ⟨front, rest, rest', reach, hi, hj⟩ := h.shown
  rw [hi.readWord_eq] at before ⊢
  simp only at before
  have ends : (firstWord (front ++ rest)).2 < front.length := by omega
  have same := firstWord_append_congr ends rest'
  rw [hj.readWord_eq, same]
  exact ⟨rfl, h.advance (by omega)⟩

theorem skipBlanks (before : i.skipBlanks.position < k) : i.skipBlanks.Agree k j.skipBlanks := by
  obtain ⟨front, rest, rest', reach, hi, hj⟩ := h.shown
  rw [hi.skipBlanks_eq] at before ⊢
  simp only at before
  have ends : ((front ++ rest).takeWhile Text.isBlank).length < front.length := by omega
  have same := takeWhile_append_congr ends rest'
  rw [hj.skipBlanks_eq, same]
  exact h.advance (by omega)

theorem seek {n : Nat} (before : (i.seek (i.position + n)).position < k) :
    (i.seek (i.position + n)).Agree k (j.seek (j.position + n)) := by
  have reach := h.le_length
  have reach' := h.symm.le_length
  have short : i.position + n < k := by
    simp only [Input.seek, Nat.min_def] at before
    split at before <;> omega
  have clipped {l : Input} (within : l.position + n ≤ l.length) :
      l.seek (l.position + n) = { l with position := l.position + n } := by
    rw [Input.seek, Nat.min_eq_left within]
  rw [clipped (by omega), clipped (by rw [h.position]; omega)]
  exact h.advance (Nat.le_of_lt short)

end Before

end Agree

end Input

namespace Quoted

variable {k : Nat} {i j : Input}

theorem bodyWithin_of_ok {quote : Char} {n : Nat} {escaped : Bool} {text : List Char} {i' : Input}
    (ok : bodyWithin quote n escaped i = (.ok text, i')) :
    ∃ m ch i₁, n = m + 1 ∧ i.readChar = (some ch, i₁) ∧
      ((i' = i₁ ∧ ∀ n' j j₁, j.readChar = (some ch, j₁) →
          bodyWithin quote (n' + 1) escaped j = (.ok text, j₁)) ∨
        ∃ escaped' text', bodyWithin quote m escaped' i₁ = (.ok text', i') ∧
          ∀ n' j j₁ j', j.readChar = (some ch, j₁) →
            bodyWithin quote n' escaped' j₁ = (.ok text', j') →
            bodyWithin quote (n' + 1) escaped j = (.ok text, j')) := by
  -- What is read behind a character has that character put in front, and nothing else.
  have kept {r : Except Fault (List Char) × Input} {f : List Char → List Char}
      (same : (r.1.map f, r.2) = (.ok text, i')) : ∃ text', r = (.ok text', i') ∧ text = f text' := by
    obtain ⟨answer, j⟩ := r
    cases answer with
    | error e => simp [Except.map] at same
    | ok text' =>
      simp only [Except.map, Prod.mk.injEq, Except.ok.injEq] at same
      obtain ⟨rfl, rfl⟩ := same
      exact ⟨text', rfl, rfl⟩
  cases n with
  | zero => simp [bodyWithin] at ok
  | succ m =>
    rw [bodyWithin] at ok
    rcases read : i.readChar with ⟨found, i₁⟩
    cases found with
    | none => simp [read] at ok
    | some ch =>
      refine ⟨m, ch, i₁, rfl, rfl, ?_⟩
      simp only [read] at ok
      cases escaped with
      | true =>
        simp only [if_true] at ok
        split at ok
        case isTrue known =>
          obtain ⟨text', same, rfl⟩ := kept ok
          refine .inr ⟨false, text', same, fun n' j j₁ j' read' ok' => ?_⟩
          simp [bodyWithin, read', known, ok', Except.map]
        case isFalse => simp at ok
      | false =>
        simp only [Bool.false_eq_true, if_false] at ok
        split at ok
        case isTrue slash =>
          refine .inr ⟨true, text, ok, fun n' j j₁ j' read' ok' => ?_⟩
          simp [bodyWithin, read', slash, ok']
        case isFalse plain =>
          split at ok
          case isTrue closing =>
            obtain ⟨rfl, rfl⟩ : [] = text ∧ i₁ = i' := by simpa using ok
            refine .inl ⟨rfl, fun n' j j₁ read' => ?_⟩
            simp [bodyWithin, read', plain, closing]
          case isFalse other =>
            obtain ⟨text', same, rfl⟩ := kept ok
            refine .inr ⟨false, text', same, fun n' j j₁ j' read' ok' => ?_⟩
            simp [bodyWithin, read', plain, other, ok', Except.map]

theorem bodyWithin_reaches {quote : Char} {n : Nat} {escaped : Bool} {text left : List Char}
    {i' : Input} (shows : i.Shows left) (ok : bodyWithin quote n escaped i = (.ok text, i')) :
    i.Reaches i' ∧ i.position < i'.position := by
  induction n generalizing escaped text i left with
  | zero => simp [bodyWithin] at ok
  | succ n ih =>
    obtain ⟨m, ch, i₁, same, read, next⟩ := bodyWithin_of_ok ok
    obtain rfl : n = m := Nat.succ.inj same
    have reached := shows.laid.reaches_readChar
    rw [shows.readChar_eq] at read reached
    obtain ⟨found, rfl⟩ := Prod.mk.inj read
    cases left with
    | nil => simp at found
    | cons first left =>
      have moved := shows.advance (n := min 1 (first :: left).length) (Nat.min_le_right _ _)
      rcases next with ⟨rfl, -⟩ | ⟨escaped', text', ok', -⟩
      · exact ⟨reached, by simp⟩
      · obtain ⟨onward, further⟩ := ih moved ok'
        exact ⟨reached.trans onward, Nat.lt_of_le_of_lt reached.forward further⟩

theorem bodyWithin_agree {quote : Char} {n n' : Nat} {escaped : Bool} {text : List Char} {i' : Input}
    (h : i.Agree k j) (ok : bodyWithin quote n escaped i = (.ok text, i')) (within : i'.position ≤ k)
    (enough : i'.position ≤ i.position + n') :
    ∃ j', bodyWithin quote n' escaped j = (.ok text, j') ∧ i'.Agree k j' := by
  induction n generalizing n' escaped text i j with
  | zero => simp [bodyWithin] at ok
  | succ n ih =>
    obtain ⟨front, rest, rest', -, hi, -⟩ := h.shown
    have further := (bodyWithin_reaches hi ok).2
    obtain ⟨n', rfl⟩ : ∃ m, n' = m + 1 := ⟨n' - 1, by omega⟩
    obtain ⟨m, ch, i₁, same, read, next⟩ := bodyWithin_of_ok ok
    obtain rfl : n = m := Nat.succ.inj same
    obtain ⟨ch', read₁, read'⟩ := h.readChar (by omega)
    rw [read₁, Prod.mk.injEq, Option.some.injEq] at read
    obtain ⟨rfl, rfl⟩ := read
    have moved := h.advance (n := 1) (by omega)
    rcases next with ⟨rfl, closes⟩ | ⟨escaped', text', ok', onward⟩
    · exact ⟨_, closes n' j _ read', moved⟩
    · have enough : i'.position ≤ i.position + 1 + n' := by omega
      obtain ⟨j', ok'', agree⟩ := ih moved ok' enough
      exact ⟨j', onward n' j _ j' read' ok'', agree⟩

theorem body_agree {quote : Char} {text : List Char} {i' : Input} (h : i.Agree k j)
    (ok : body quote i = (.ok text, i')) (within : i'.position ≤ k) :
    ∃ j', body quote j = (.ok text, j') ∧ i'.Agree k j' := by
  have reach := h.symm.le_length
  have same := h.position
  exact bodyWithin_agree h ok within (by omega)

theorem read_of_ok {left : List Char} (shows : i.Shows left) {text : String} {i' : Input}
    (ok : read i = (.ok text, i')) :
    (∃ first rest, left.drop (left.takeWhile Text.isBlank).length = first :: rest) ∧
      i.Reaches i' ∧ i.skipBlanks.position ≤ i'.position := by
  have within := (List.takeWhile_sublist (l := left) Text.isBlank).length_le
  have start := shows.advance within
  rw [← shows.skipBlanks_eq] at start
  have reached : i.Reaches i.skipBlanks := by
    rw [shows.skipBlanks_eq]
    exact ⟨rfl, Nat.le_add_right _ _, by simp only [shows.length_eq]; omega⟩
  simp only [read, start.peek_eq] at ok
  cases begun : left.drop (left.takeWhile Text.isBlank).length with
  | nil => simp [begun] at ok
  | cons first rest =>
    rw [begun] at start
    simp only [begun, List.head?_cons] at ok
    refine ⟨⟨first, rest, rfl⟩, ?_⟩
    split at ok
    case isTrue quoted =>
      have next := start.laid.reaches_readChar
      have moved := start.advance (n := 1) (by simp)
      have read : i.skipBlanks.readChar.2 =
          { i.skipBlanks with position := i.skipBlanks.position + 1 } := by
        simp [start.readChar_eq]
      rcases body : Quoted.body first i.skipBlanks.readChar.2 with ⟨answer, j⟩
      rw [body] at ok
      cases answer with
      | error e => simp [Except.map] at ok
      | ok text =>
        obtain ⟨-, rfl⟩ := Prod.mk.inj ok
        rw [read] at body next
        have onward := (bodyWithin_reaches moved body).1
        exact ⟨(reached.trans next).trans onward, (next.trans onward).forward⟩
    case isFalse =>
      have next := start.laid.reaches_readWord
      rcases word : i.skipBlanks.readWord with ⟨found, j⟩
      rw [word] at ok next
      cases found with
      | none => simp at ok
      | some w =>
        obtain ⟨-, rfl⟩ := Prod.mk.inj ok
        exact ⟨reached.trans next, next.forward⟩

theorem read_agree (h : i.Agree k j) {text : String} {i' : Input} (ok : read i = (.ok text, i'))
    (before : i'.position < k) : ∃ j', read j = (.ok text, j') ∧ i'.Agree k j' := by
  obtain ⟨front, rest, rest', -, hi, -⟩ := h.shown
  obtain ⟨-, -, behind⟩ := read_of_ok hi ok
  have early := Nat.lt_of_le_of_lt behind before
  have start := h.skipBlanks early
  simp only [read, start.peek_eq early] at ok ⊢
  cases peek : i.skipBlanks.peek with
  | none => simp [peek] at ok
  | some first =>
    simp only [peek] at ok ⊢
    split at ok
    case isTrue quoted =>
      rw [if_pos quoted]
      obtain ⟨ch, read, read'⟩ := start.readChar early
      have moved := start.advance (n := 1) early
      rcases inside : body first i.skipBlanks.readChar.2 with ⟨answer, l⟩
      rw [inside] at ok
      cases answer with
      | error e => simp [Except.map] at ok
      | ok text =>
        obtain ⟨same, rfl⟩ := Prod.mk.inj ok
        rw [read] at inside
        obtain ⟨l', inside', agree⟩ := body_agree moved inside (Nat.le_of_lt before)
        rw [read', inside']
        exact ⟨l', by rw [← same], agree⟩
    case isFalse plain =>
      rw [if_neg plain]
      rcases word : i.skipBlanks.readWord with ⟨found, l⟩
      rw [word] at ok
      cases found with
      | none => simp at ok
      | some w =>
        obtain ⟨same, rfl⟩ := Prod.mk.inj ok
        have agree := start.readWord (by rwa [word])
        rcases word' : j.skipBlanks.readWord with ⟨found', l'⟩
        rw [word, word'] at agree
        obtain ⟨rfl, agree⟩ := agree
        exact ⟨l', by rw [← same], agree⟩

end Quoted

variable {S A : Type} {k : Nat} {i j i' j' : Input}

theorem Reading.advance_between (reached : i.Reaches i') (answer : Except Rejection Value) :
    (Reading.between i i' answer).advance i = i' := by
  rw [between, advance, Nat.add_sub_cancel' reached.forward]
  exact reached.seek_eq

theorem Reading.between_agree (h : i.Agree k j) (h' : i'.Agree k j') (answer : Except Rejection Value) :
    Reading.between j j' answer = .between i i' answer := by
  rw [between, between, h.position, h'.position]

namespace ArgumentType.IsBuiltin

variable {type : ArgumentType S A} {v : Value}

theorem read_agree (builtin : type.IsBuiltin) (h : i.Agree k j) (c c' : Context S A)
    (ok : (type.read i c).answer = .ok v) (before : ((type.read i c).advance i).position < k) :
    type.read j c' = type.read i c := by
  obtain ⟨front, rest, rest', -, hi, -⟩ := h.shown
  have word := hi.laid.reaches_readWord
  cases builtin with
  | word =>
    simp only [ArgumentType.word] at ok before ⊢
    rcases read : i.readWord with ⟨found, i'⟩
    rw [read] at word
    cases found with
    | none => simp [read, Reading.between] at ok
    | some w =>
      simp only [read, Reading.advance_between word] at before
      have agree := h.readWord (by rwa [read])
      rcases read' : j.readWord with ⟨found', j'⟩
      rw [read, read'] at agree
      obtain ⟨rfl, agree⟩ := agree
      exact Reading.between_agree h agree _
  | rest =>
    simp only [ArgumentType.rest] at ok before
    have reach := h.le_length
    split at ok
    case isTrue => simp [Reading.between] at ok
    case isFalse present =>
      rw [if_neg present, Reading.advance_between (hi.laid.reaches_seek hi.laid.position_le)] at before
      simp only [Input.seek, Nat.min_self] at before
      omega
  | string =>
    simp only [ArgumentType.string] at ok before ⊢
    rcases read : Quoted.read i with ⟨answer, i'⟩
    cases answer with
    | error e => simp [read, Reading.between] at ok
    | ok text =>
      obtain ⟨-, reached, -⟩ := Quoted.read_of_ok hi read
      simp only [read, Reading.advance_between reached] at before
      obtain ⟨j', read', agree⟩ := Quoted.read_agree h read before
      rw [read']
      exact Reading.between_agree h agree _
  | choice choices =>
    simp only [ArgumentType.choice] at ok before ⊢
    rcases read : i.readWord with ⟨found, i'⟩
    rw [read] at word
    simp only [read] at ok before ⊢
    cases chosen : found.bind fun w => chosen? choices w.asText with
    | none => simp [chosen, Reading.between] at ok
    | some value =>
      simp only [chosen, Reading.advance_between word] at before ⊢
      have agree := h.readWord (by rwa [read])
      rcases read' : j.readWord with ⟨found', j'⟩
      rw [read, read'] at agree
      obtain ⟨rfl, agree⟩ := agree
      simp only [chosen]
      exact Reading.between_agree h agree _

theorem readWord_le (builtin : type.IsBuiltin) {left : List Char} (shows : i.Shows left)
    (c : Context S A) (ok : (type.read i c).answer = .ok v) {ch : Char}
    (next : ((type.read i c).advance i).peek = some ch) (blank : Text.isBlank ch = true) :
    i.readWord.2.position ≤ ((type.read i c).advance i).position := by
  have word := shows.laid.reaches_readWord
  cases builtin with
  | word =>
    simp only [ArgumentType.word] at ok ⊢
    rcases read : i.readWord with ⟨found, i'⟩
    rw [read] at word
    cases found with
    | none => simp [read, Reading.between] at ok
    | some w => exact Nat.le_of_eq (congrArg Input.position (Reading.advance_between word _).symm)
  | rest =>
    simp only [ArgumentType.rest] at ok ⊢
    split at ok
    case isTrue => simp [Reading.between] at ok
    case isFalse present =>
      rw [if_neg present,
        Reading.advance_between (shows.laid.reaches_seek shows.laid.position_le)]
      simpa only [Input.seek, Nat.min_self] using word.within
  | string =>
    simp only [ArgumentType.string] at ok next ⊢
    rcases read : Quoted.read i with ⟨answer, i'⟩
    cases answer with
    | error e => simp [read, Reading.between] at ok
    | ok text =>
      obtain ⟨⟨first, rest, begun⟩, reached, behind⟩ := Quoted.read_of_ok shows read
      simp only [read, Reading.advance_between reached] at next ⊢
      rw [(shows.reaches reached).peek_eq, List.head?_drop] at next
      rw [shows.skipBlanks_eq] at behind
      have forward := reached.forward
      have end_ := Input.firstWord_le_of_isBlank begun (Nat.le_sub_of_add_le' behind) next blank
      rw [shows.readWord_eq]
      exact Nat.add_le_of_le_sub' forward end_
  | choice choices =>
    simp only [ArgumentType.choice] at ok ⊢
    rcases read : i.readWord with ⟨found, i'⟩
    rw [read] at word
    simp only [read] at ok ⊢
    cases chosen : found.bind fun w => chosen? choices w.asText with
    | none => simp [chosen, Reading.between] at ok
    | some value => simp only [Reading.advance_between word, Nat.le_refl]

end ArgumentType.IsBuiltin

end CommandGrammar
