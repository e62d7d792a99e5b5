import CommandGrammar.Demo.Commands
import CommandGrammar.Proofs.Input.Agreement

set_option autoImplicit false

namespace CommandGrammar

open Input

namespace Quoted

def encodeChar (quote c : Char) : List Char := if c = quote ∨ c = '\\' then ['\\', c] else [c]

def encode (quote : Char) (text : List Char) : List Char := text.flatMap (encodeChar quote)

inductive Means (quote : Char) : List Char → List Char → Prop
  | nil : Means quote [] []
  | plain {c : Char} {body text : List Char} : c ≠ quote → c ≠ '\\' → Means quote body text →
    Means quote (c :: body) (c :: text)
  | escaped {c : Char} {body text : List Char} : c = quote ∨ c = '\\' → Means quote body text →
    Means quote ('\\' :: c :: body) (c :: text)

inductive Stop (quote : Char) : List Char → Prop
  | closed (rest : List Char) : Stop quote (quote :: rest)
  | ended : Stop quote []
  | slash : Stop quote ['\\']
  | misescaped {c : Char} (rest : List Char) : c ≠ quote → c ≠ '\\' → Stop quote ('\\' :: c :: rest)

section

variable {quote : Char} {body text left rest blanks : List Char} {i : Input}

theorem means_encode (quote : Char) (text : List Char) : Means quote (encode quote text) text := by
  induction text with
  | nil => exact .nil
  | cons c rest ih =>
    rw [encode, List.flatMap_cons, encodeChar]
    split
    case isTrue special => exact .escaped special ih
    case isFalse ordinary =>
      rw [not_or] at ordinary
      exact .plain ordinary.1 ordinary.2 ih

theorem exists_body (quote : Char) : ∀ inner : List Char,
    ∃ body text left, inner = body ++ left ∧ Means quote body text ∧ Stop quote left
  | [] => ⟨[], [], [], rfl, .nil, .ended⟩
  | [c] => by
    by_cases closing : c = quote
    · exact ⟨[], [], [c], rfl, .nil, closing ▸ .closed []⟩
    by_cases slash : c = '\\'
    · exact ⟨[], [], [c], rfl, .nil, slash ▸ .slash⟩
    · exact ⟨[c], [c], [], rfl, .plain closing slash .nil, .ended⟩
  | c :: d :: rest => by
    by_cases closing : c = quote
    · exact ⟨[], [], c :: d :: rest, rfl, .nil, closing ▸ .closed _⟩
    by_cases slash : c = '\\'
    · subst slash
      by_cases special : d = quote ∨ d = '\\'
      · obtain ⟨body, text, left, rfl, means, stop⟩ := exists_body quote rest
        exact ⟨'\\' :: d :: body, d :: text, left, rfl, .escaped special means, stop⟩
      · rw [not_or] at special
        exact ⟨[], [], '\\' :: d :: rest, rfl, .nil, .misescaped rest special.1 special.2⟩
    · obtain ⟨body, text, left, same, means, stop⟩ := exists_body quote (d :: rest)
      exact ⟨c :: body, c :: text, left, by rw [same, List.cons_append],
        .plain closing slash means, stop⟩

def behind (text : List Char) (r : Except Fault (List Char) × Input) : Except Fault (List Char) × Input :=
  (r.1.map (text ++ ·), r.2)

@[simp] theorem behind_nil (r : Except Fault (List Char) × Input) : behind [] r = r := by
  obtain ⟨answer, j⟩ := r
  cases answer <;> rfl

@[simp] theorem behind_behind (front text : List Char) (r : Except Fault (List Char) × Input) :
    behind front (behind text r) = behind (front ++ text) r := by
  obtain ⟨answer, j⟩ := r
  cases answer <;> simp [behind, Except.map]

theorem bodyWithin_plain {c : Char} (other : c ≠ quote) (other' : c ≠ '\\')
    (shows : i.Shows (c :: left)) (n : Nat) :
    bodyWithin quote (n + 1) false i =
      behind [c] (bodyWithin quote n false { i with position := i.position + 1 }) := by
  rw [bodyWithin, shows.readChar_cons]
  simp [other, other', behind]

theorem bodyWithin_slash (shows : i.Shows ('\\' :: left)) (n : Nat) :
    bodyWithin quote (n + 1) false i =
      bodyWithin quote n true { i with position := i.position + 1 } := by
  rw [bodyWithin, shows.readChar_cons]
  simp

theorem bodyWithin_escaped {c : Char} (special : c = quote ∨ c = '\\')
    (shows : i.Shows (c :: left)) (n : Nat) :
    bodyWithin quote (n + 1) true i =
      behind [c] (bodyWithin quote n false { i with position := i.position + 1 }) := by
  rw [bodyWithin, shows.readChar_cons]
  simp [special, behind]

theorem bodyWithin_misescaped {c : Char} (other : c ≠ quote) (other' : c ≠ '\\')
    (shows : i.Shows (c :: left)) (n : Nat) :
    bodyWithin quote (n + 1) true i = (.error (.here i (.invalidEscape c) none), i) := by
  have back : ({ i with position := i.position + 1 } : Input).seek i.position = i :=
    shows.laid.refl.seek_eq
  rw [bodyWithin, shows.readChar_cons]
  simp [other, other', back]

theorem bodyWithin_closed (distinct : quote ≠ '\\') (shows : i.Shows (quote :: left)) (n : Nat) :
    bodyWithin quote (n + 1) false i = (.ok [], { i with position := i.position + 1 }) := by
  rw [bodyWithin, shows.readChar_cons]
  simp [distinct]

theorem bodyWithin_ended (shows : i.Shows []) (n : Nat) (escaped : Bool) :
    bodyWithin quote n escaped i = (.error (.here i .quoteEndExpected none), i) := by
  cases n with
  | zero => rfl
  | succ n =>
    rw [bodyWithin, shows.readChar_eq]
    rfl

theorem bodyWithin_append (means : Means quote body text) (shows : i.Shows (body ++ left)) (n : Nat) :
    bodyWithin quote (n + body.length) false i =
      behind text (bodyWithin quote n false { i with position := i.position + body.length }) := by
  induction means generalizing i with
  | nil => simp
  | @plain c body text other other' _ ih =>
    have next := ih (shows.advance (n := 1) (by simp))
    rw [List.length_cons, ← Nat.add_assoc, bodyWithin_plain other other' shows, next, behind_behind]
    simp [Nat.add_assoc, Nat.add_comm 1]
  | @escaped c body text special _ ih =>
    have second := shows.advance (n := 1) (by simp)
    have next := ih (second.advance (n := 1) (by simp))
    rw [List.length_cons, List.length_cons, ← Nat.add_assoc, ← Nat.add_assoc, bodyWithin_slash shows,
      bodyWithin_escaped special second, next, behind_behind]
    simp [Nat.add_assoc, Nat.add_comm 2]

section Body

variable (shows : i.Shows (body ++ left)) (means : Means quote body text)
include shows means

theorem body_eq :
    Quoted.body quote i =
      behind text (bodyWithin quote (left.length + 1) false
        { i with position := i.position + body.length }) := by
  have total : i.length - i.position + 1 = left.length + 1 + body.length := by
    rw [shows.length_eq, List.length_append]
    omega
  rw [Quoted.body, total, bodyWithin_append means shows]

theorem body_closed (distinct : quote ≠ '\\') (closed : left = quote :: rest) :
    Quoted.body quote i = (.ok text, { i with position := i.position + body.length + 1 }) := by
  have stop := shows.advance (n := body.length) (by simp)
  rw [List.drop_left, closed] at stop
  rw [body_eq shows means, bodyWithin_closed distinct stop]
  simp [behind, Except.map]

theorem body_ended (ended : left = [] ∨ left = ['\\']) :
    let j := { i with position := i.length }
    Quoted.body quote i = (.error (.here j .quoteEndExpected none), j) := by
  have total := shows.length_eq
  have stop := shows.advance (n := body.length) (by simp)
  rw [List.drop_left] at stop
  rw [body_eq shows means]
  rcases ended with rfl | rfl
  · rw [bodyWithin_ended stop, total]
    simp [behind, Except.map]
  · rw [bodyWithin_slash stop, bodyWithin_ended (stop.advance (n := 1) (by simp)), total]
    simp [behind, Except.map, Nat.add_assoc]

theorem body_misescaped {c : Char} (other : c ≠ quote) (other' : c ≠ '\\')
    (misescaped : left = '\\' :: c :: rest) :
    let j := { i with position := i.position + body.length + 1 }
    Quoted.body quote i = (.error (.here j (.invalidEscape c) none), j) := by
  have stop := shows.advance (n := body.length) (by simp)
  rw [List.drop_left, misescaped] at stop
  have second := stop.advance (n := 1) (by simp)
  rw [body_eq shows means, misescaped, List.length_cons, bodyWithin_slash stop,
    bodyWithin_misescaped other other' second]
  rfl

end Body

theorem isBlank_of_isQuote (isQuote : isQuote quote = true) : Text.isBlank quote = false := by
  simp only [Quoted.isQuote, Bool.or_eq_true, beq_iff_eq] at isQuote
  rcases isQuote with rfl | rfl <;> decide

theorem ne_slash_of_isQuote (isQuote : isQuote quote = true) : quote ≠ '\\' := by
  rintro rfl
  contradiction

theorem shows_behind_quote (shows : i.Shows (blanks ++ quote :: left)) :
    ({ i with position := i.position + blanks.length + 1 } : Input).Shows left := by
  have start := shows.advance (n := blanks.length) (by simp)
  rw [List.drop_left] at start
  exact start.advance (n := 1) (by simp)

section Read

variable (isQuote : isQuote quote = true) (blank : ∀ ch ∈ blanks, Text.isBlank ch = true)
include isQuote blank

theorem read_eq (shows : i.Shows (blanks ++ quote :: left)) :
    read i = ((Quoted.body quote { i with position := i.position + blanks.length + 1 }).1.map String.ofList,
      (Quoted.body quote { i with position := i.position + blanks.length + 1 }).2) := by
  have skipped : (blanks ++ quote :: left).takeWhile Text.isBlank = blanks := by
    rw [List.takeWhile_append_of_pos blank, List.takeWhile_cons_of_neg (by simp [isBlank_of_isQuote isQuote]),
      List.append_nil]
  have start := shows.advance (n := blanks.length) (by simp)
  rw [List.drop_left] at start
  have begun : i.skipBlanks = { i with position := i.position + blanks.length } := by
    rw [shows.skipBlanks_eq, skipped]
  rw [read, begun, start.peek_eq]
  simp [isQuote, start.readChar_cons]

end Read

section String

variable {S A : Type} (isQuote : Quoted.isQuote quote = true)
  (blank : ∀ ch ∈ blanks, Text.isBlank ch = true) (shows : i.Shows (blanks ++ quote :: (body ++ left)))
  (means : Means quote body text) (c : Context S A)
include isQuote blank shows means

theorem string_read_closed (closed : left = quote :: rest) :
    (ArgumentType.string.read i c).answer = .ok (.ofString (String.ofList text)) ∧
      ((ArgumentType.string.read i c).advance i).position =
        i.position + blanks.length + 1 + body.length + 1 := by
  have inside := shows_behind_quote shows
  have found := body_closed inside means (ne_slash_of_isQuote isQuote) closed
  have total := inside.length_eq
  have reached : i.Reaches { i with position := i.position + blanks.length + 1 + body.length + 1 } := by
    refine ⟨rfl, by simp only; omega, ?_⟩
    simp only [closed, List.length_append, List.length_cons, Input.length] at total ⊢
    omega
  have read : ArgumentType.string.read i c =
      .between i { i with position := i.position + blanks.length + 1 + body.length + 1 }
        (.ok (.ofString (String.ofList text))) := by
    simp only [ArgumentType.string, read_eq isQuote blank shows, found, Except.map]
  rw [read, Reading.advance_between reached]
  exact ⟨rfl, rfl⟩

theorem string_read_ended (ended : left = [] ∨ left = ['\\']) :
    (ArgumentType.string.read i c).answer =
      .error (.fault (.malformed .quoteEndExpected i.length i.line none)) := by
  have found := body_ended (shows_behind_quote shows) means ended
  simp only [ArgumentType.string, read_eq isQuote blank shows, found, Except.map]
  rfl

theorem string_read_misescaped {ch : Char} (other : ch ≠ quote) (other' : ch ≠ '\\')
    (misescaped : left = '\\' :: ch :: rest) :
    (ArgumentType.string.read i c).answer =
      .error (.fault (.malformed (.invalidEscape ch) (i.position + blanks.length + 1 + body.length + 1)
        i.line none)) := by
  have found := body_misescaped (shows_behind_quote shows) means other other' misescaped
  simp only [ArgumentType.string, read_eq isQuote blank shows, found, Except.map]
  rfl

end String

section Answers

variable {S A : Type} {inner : List Char} (isQuote : Quoted.isQuote quote = true)
  (blank : ∀ ch ∈ blanks, Text.isBlank ch = true) (shows : i.Shows (blanks ++ quote :: inner))
  (c : Context S A)
include isQuote blank shows

theorem string_read_ok_iff (v : Value) :
    (ArgumentType.string.read i c).answer = .ok v ↔ ∃ body text rest, inner = body ++ quote :: rest ∧
      Means quote body text ∧ v = .ofString (String.ofList text) ∧
        ((ArgumentType.string.read i c).advance i).position =
          i.position + blanks.length + 1 + body.length + 1 := by
  constructor
  · intro ok
    obtain ⟨body, text, left, rfl, means, stop⟩ := exists_body quote inner
    cases stop with
    | closed rest =>
      obtain ⟨answer, position⟩ := string_read_closed isQuote blank shows means c rfl
      exact ⟨body, text, rest, rfl, means, (Except.ok.inj (answer.symm.trans ok)).symm, position⟩
    | ended => simp [string_read_ended isQuote blank shows means c (.inl rfl)] at ok
    | slash => simp [string_read_ended isQuote blank shows means c (.inr rfl)] at ok
    | misescaped rest other other' =>
      simp [string_read_misescaped isQuote blank shows means c other other' rfl] at ok
  · rintro ⟨body, text, rest, rfl, means, rfl, -⟩
    exact (string_read_closed isQuote blank shows means c rfl).1

theorem string_read_error_iff (r : Rejection) :
    (ArgumentType.string.read i c).answer = .error r ↔ ∃ body text, Means quote body text ∧
      ((inner = body ∨ inner = body ++ ['\\']) ∧
          r = .fault (.malformed .quoteEndExpected i.length i.line none) ∨
        ∃ ch rest, inner = body ++ '\\' :: ch :: rest ∧ ch ≠ quote ∧ ch ≠ '\\' ∧
          r = .fault (.malformed (.invalidEscape ch)
            (i.position + blanks.length + 1 + body.length + 1) i.line none)) := by
  constructor
  · intro error
    obtain ⟨body, text, left, rfl, means, stop⟩ := exists_body quote inner
    refine ⟨body, text, means, ?_⟩
    cases stop with
    | closed rest => simp [(string_read_closed isQuote blank shows means c rfl).1] at error
    | ended =>
      have answer := string_read_ended isQuote blank shows means c (.inl rfl)
      exact .inl ⟨.inl (List.append_nil body), Except.error.inj (error.symm.trans answer)⟩
    | slash =>
      have answer := string_read_ended isQuote blank shows means c (.inr rfl)
      exact .inl ⟨.inr rfl, Except.error.inj (error.symm.trans answer)⟩
    | misescaped rest other other' =>
      have answer := string_read_misescaped isQuote blank shows means c other other' rfl
      exact .inr ⟨_, rest, rfl, other, other', Except.error.inj (error.symm.trans answer)⟩
  · rintro ⟨body, text, means, ⟨rfl | rfl, rfl⟩ | ⟨ch, rest, rfl, other, other', rfl⟩⟩
    · exact string_read_ended isQuote blank (by rwa [List.append_nil]) means c (.inl rfl)
    · exact string_read_ended isQuote blank shows means c (.inr rfl)
    · exact string_read_misescaped isQuote blank shows means c other other' rfl

end Answers

end

/-- Behind any blanks a text in quotes is read just if a backslash goes before every quote and backslash
in it and before nothing else. Otherwise the complaint is about the end of the line, where the closing
quote is missing, or about the character behind a backslash that should not have one. -/
theorem string_read_iff {S A : Type} {quote : Char} (isQuote : Quoted.isQuote quote = true)
    {blanks : List Char} (blank : ∀ ch ∈ blanks, Text.isBlank ch = true) (passed inner : List Char)
    (c : Context S A) :
    let line := String.ofList (passed ++ (blanks ++ quote :: inner))
    let i := (Input.ofText line).seek passed.length
    let opened := passed.length + blanks.length + 1
    let reading := ArgumentType.string.read i c
    (∀ text rest, inner = encode quote text ++ quote :: rest →
        reading.answer = .ok (.ofString (String.ofList text)) ∧
          (reading.advance i).position = opened + (encode quote text).length + 1) ∧
      (∀ v, reading.answer = .ok v ↔ ∃ body text rest, inner = body ++ quote :: rest ∧
        Means quote body text ∧ v = .ofString (String.ofList text) ∧
          (reading.advance i).position = opened + body.length + 1) ∧
      ∀ r, reading.answer = .error r ↔ ∃ body text, Means quote body text ∧
        ((inner = body ∨ inner = body ++ ['\\']) ∧
            r = .fault (.malformed .quoteEndExpected line.length line none) ∨
          ∃ ch rest, inner = body ++ '\\' :: ch :: rest ∧ ch ≠ quote ∧ ch ≠ '\\' ∧
            r = .fault (.malformed (.invalidEscape ch) (opened + body.length + 1) line none)) := by
  intro line i opened reading
  have place : i.position = passed.length := Nat.min_eq_left (by simp [line, length_ofText])
  have start : i = { ofText line with position := passed.length } := congrArg (Input.mk _) place
  have shows : i.Shows (blanks ++ quote :: inner) := by
    have whole := shows_ofText line
    rw [String.toList_ofList] at whole
    rw [start]
    simpa [ofText, ofValues] using whole.advance (n := passed.length) (by simp)
  have shown : i.line = line := (holds_ofText line).line_eq.trans String.ofList_toList
  have length : i.length = line.length := length_ofText line
  have ok := string_read_ok_iff isQuote blank shows c
  have error := string_read_error_iff isQuote blank shows c
  rw [place] at ok
  rw [place, shown, length] at error
  refine ⟨?_, ok, error⟩
  rintro text rest rfl
  have answer := string_read_closed isQuote blank shows (means_encode quote text) c rfl
  rwa [place] at answer

end Quoted

namespace Demo

theorem string_read_escaped :
    let i := (Input.ofText "say \t'it\\'s \"so\"'now").seek 3
    let reading := ArgumentType.string.read i (.start ⟨"console", true⟩ .root 0 : Context User Deed)
    Quoted.isQuote '\x27' = true ∧ (∀ ch ∈ [' ', '\t'], Text.isBlank ch = true) ∧
      reading.answer = .ok (.ofString "it's \"so\"") ∧ (reading.advance i).position = 17 := by
  have isQuote : Quoted.isQuote '\x27' = true := by decide
  have blank : ∀ ch ∈ [' ', '\t'], Text.isBlank ch = true := List.all_eq_true.mp (by decide)
  obtain ⟨closed, -⟩ := Quoted.string_read_iff isQuote blank "say".toList "it\\'s \"so\"'now".toList
    (.start ⟨"console", true⟩ .root 0 : Context User Deed)
  obtain ⟨answer, position⟩ := closed "it's \"so\"".toList "now".toList (by decide)
  have line : String.ofList ("say".toList ++ ([' ', '\t'] ++ '\x27' :: "it\\'s \"so\"'now".toList)) =
      "say \t'it\\'s \"so\"'now" := by decide
  have place : "say".toList.length = 3 := by decide
  have width : 3 + [' ', '\t'].length + 1 + (Quoted.encode '\x27' "it's \"so\"".toList).length + 1 = 17 := by
    decide
  rw [line, place, String.ofList_toList] at answer
  rw [line, place, width] at position
  exact ⟨isQuote, blank, answer, position⟩

end Demo

end CommandGrammar
