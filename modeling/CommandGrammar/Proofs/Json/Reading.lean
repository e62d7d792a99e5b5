set_option autoImplicit false

namespace CommandGrammar.Json

def hexValue? (c : Char) : Option Nat :=
  if '0' ≤ c ∧ c ≤ '9' then some (c.toNat - 48)
  else if 'a' ≤ c ∧ c ≤ 'f' then some (c.toNat - 87)
  else if 'A' ≤ c ∧ c ≤ 'F' then some (c.toNat - 55)
  else none

def hexNumber? (digits : List Char) : Option Nat :=
  (digits.mapM hexValue?).map fun values => values.foldl (16 * · + ·) 0

def escaped? : Char → Option Char
  | '\x22' => some '\x22'
  | '\\' => some '\\'
  | '/' => some '/'
  | 'b' => some '\x08'
  | 'f' => some '\x0c'
  | 'n' => some '\n'
  | 'r' => some '\r'
  | 't' => some '\t'
  | _ => none

-- Reads a string that is open up to its closing quote. The answer is a number for each character, or two
-- for one that is escaped as a surrogate pair, and what is left of the text.
def readUnits : List Char → Option (List Nat × List Char)
  | [] => none
  | '\x22' :: rest => some ([], rest)
  | '\\' :: 'u' :: a :: b :: c :: d :: rest =>
    (hexNumber? [a, b, c, d]).bind fun unit =>
      (readUnits rest).map fun (units, behind) => (unit :: units, behind)
  | '\\' :: letter :: rest =>
    (escaped? letter).bind fun c =>
      (readUnits rest).map fun (units, behind) => (c.toNat :: units, behind)
  | c :: rest =>
    if c.toNat < 0x20 then none
    else (readUnits rest).map fun (units, behind) => (c.toNat :: units, behind)

def isHigh (unit : Nat) : Bool := 0xd800 ≤ unit && unit < 0xdc00

def isLow (unit : Nat) : Bool := 0xdc00 ≤ unit && unit < 0xe000

def ofUnits : List Nat → Option (List Char)
  | [] => some []
  | [unit] => if isHigh unit || isLow unit then none else some [.ofNat unit]
  | unit :: next :: rest =>
    if isHigh unit then
      if isLow next then
        (ofUnits rest).map (Char.ofNat (0x10000 + 0x400 * (unit - 0xd800) + (next - 0xdc00)) :: ·)
      else none
    else if isLow unit then none
    else (ofUnits (next :: rest)).map (Char.ofNat unit :: ·)

def readString (text : List Char) : Option (String × List Char) :=
  (readUnits text).bind fun (units, behind) =>
    (ofUnits units).map fun cs => (String.ofList cs, behind)

def isWhite (c : Char) : Bool := c == ' ' || c == '\t' || c == '\n' || c == '\r'

def behind? (sign : Char) (text : List Char) : Option (List Char) :=
  match text.dropWhile isWhite with
  | [] => none
  | c :: rest => if c == sign then some rest else none

def endsObject (text : List Char) : Bool :=
  match behind? '\x7d' text with
  | some rest => rest.all isWhite
  | none => false

def readField (text : String) : Option (String × String) := do
  let text ← behind? '\x7b' text.toList
  let text ← behind? '\x22' text
  let (name, text) ← readString text
  let text ← behind? ':' text
  let text ← behind? '\x22' text
  let (value, text) ← readString text
  if endsObject text then some (name, value) else none

example : readField "\x7b \"path\" : \"a\\\\b\\u0041\\ud83d\\ude00\" \x7d\n" =
    some ("path", "a\\bA😀") := by
  decide +kernel

section Characters

theorem not_surrogate (c : Char) : isHigh c.toNat = false ∧ isLow c.toNat = false := by
  have valid : c.toNat < 0xd800 ∨ 0xdfff < c.toNat ∧ c.toNat < 0x110000 := c.valid
  simp only [isHigh, isLow, Bool.and_eq_false_iff, decide_eq_false_iff_not]
  omega

theorem ofUnits_toNat (cs : List Char) : ofUnits (cs.map Char.toNat) = some cs := by
  induction cs with
  | nil => rfl
  | cons c rest ih =>
    cases rest with
    | nil => simp [ofUnits, not_surrogate, Char.ofNat_toNat]
    | cons next rest =>
      rw [List.map_cons] at ih
      simp [ofUnits, not_surrogate, ih, Char.ofNat_toNat]

theorem readUnits_plain {c : Char} (quote : c ≠ '\x22') (slash : c ≠ '\\') (rest : List Char) :
    readUnits (c :: rest) =
      if c.toNat < 0x20 then none
      else (readUnits rest).map fun (units, behind) => (c.toNat :: units, behind) := by
  rw [readUnits.eq_def]
  split <;> simp_all

end Characters

section Room

def room (unit : Nat) : Nat := if unit = 0x22 ∨ unit = 0x5c then 2 else 1

def roomFor : List Nat → Nat
  | [] => 0
  | unit :: rest => room unit + roomFor rest

def Holds (text : List Char) (units : List Nat) (behind : List Char) : Prop :=
  ∃ body, text = body ++ '\x22' :: behind ∧ roomFor units ≤ body.length

variable {text behind : List Char} {units : List Nat} {c : Char} {unit : Nat}

theorem room_le (unit : Nat) : room unit ≤ 2 := by
  unfold room
  split <;> omega

theorem one_le_room (unit : Nat) : 1 ≤ room unit := by
  unfold room
  split <;> omega

theorem room_plain (quote : c ≠ '\x22') (slash : c ≠ '\\') : room c.toNat = 1 := by
  have number (d : Char) (other : c ≠ d) : c.toNat ≠ d.toNat := fun same => other (Char.toNat_inj.mp same)
  have hq : c.toNat ≠ 0x22 := number '\x22' quote
  have hs : c.toNat ≠ 0x5c := number '\\' slash
  simp [room, hq, hs]

theorem room_ofNat_le (unit : Nat) : room (Char.ofNat unit).toNat ≤ room unit := by
  by_cases valid : unit.isValidChar
  · rw [Char.ofNat, dif_pos valid]
    exact Nat.le_refl _
  · rw [Char.ofNat, dif_neg valid]
    exact one_le_room unit

theorem Holds.before (front : List Char) (fits : room unit ≤ front.length)
    (holds : Holds text units behind) : Holds (front ++ text) (unit :: units) behind := by
  obtain ⟨body, rfl, le⟩ := holds
  refine ⟨front ++ body, by simp, ?_⟩
  simp only [roomFor, List.length_append]
  omega

theorem holds_readUnits (read : readUnits text = some (units, behind)) : Holds text units behind := by
  fun_induction readUnits text generalizing units behind with
  | case1 => cases read
  | case2 rest =>
    cases read
    exact ⟨[], rfl, Nat.le_refl 0⟩
  | case3 a b c d rest ih =>
    simp only [Option.bind_eq_some_iff, Option.map_eq_some_iff] at read
    obtain ⟨unit, -, ⟨units, behind⟩, read, ⟨⟩⟩ := read
    exact (ih read).before ['\\', 'u', a, b, c, d] (Nat.le_trans (room_le _) (by simp))
  | case4 letter rest _ ih =>
    simp only [Option.bind_eq_some_iff, Option.map_eq_some_iff] at read
    obtain ⟨c, -, ⟨units, behind⟩, read, ⟨⟩⟩ := read
    exact (ih read).before ['\\', letter] (room_le _)
  | case5 c rest _ control => cases read
  | case6 c rest quote _ letter _ ih =>
    simp only [Option.map_eq_some_iff] at read
    obtain ⟨⟨units, behind⟩, read, ⟨⟩⟩ := read
    have slash : c ≠ '\\' := by
      rintro rfl
      cases rest with
      | nil => simp [readUnits] at read
      | cons next rest => exact letter next rest rfl rfl
    exact (ih read).before [c] (Nat.le_of_eq (room_plain quote slash))

theorem room_ofUnits {cs : List Char} (joined : ofUnits units = some cs) :
    roomFor (cs.map Char.toNat) ≤ roomFor units := by
  fun_induction ofUnits units generalizing cs with
  | case1 => cases joined; exact Nat.le_refl 0
  | case2 => cases joined
  | case3 unit =>
    cases joined
    simpa [roomFor] using room_ofNat_le unit
  | case4 unit next rest _ _ ih =>
    -- The two numbers of a pair have at least the room that any character takes.
    obtain ⟨cs, below, rfl⟩ := Option.map_eq_some_iff.mp joined
    have pair := room_le (Char.ofNat (0x10000 + 0x400 * (unit - 0xd800) + (next - 0xdc00))).toNat
    have le := ih below
    have high := one_le_room unit
    have low := one_le_room next
    simp only [List.map_cons, roomFor]
    omega
  | case5 => cases joined
  | case6 => cases joined
  | case7 unit next rest _ _ ih =>
    obtain ⟨cs, below, rfl⟩ := Option.map_eq_some_iff.mp joined
    exact Nat.add_le_add (room_ofNat_le unit) (ih below)

theorem holds_readString {s : String} (read : readString text = some (s, behind)) :
    Holds text (s.toList.map Char.toNat) behind := by
  simp only [readString, Option.bind_eq_some_iff, Option.map_eq_some_iff] at read
  obtain ⟨⟨units, behind⟩, read, cs, joined, ⟨⟩⟩ := read
  obtain ⟨body, text_eq, le⟩ := holds_readUnits read
  rw [String.toList_ofList]
  exact ⟨body, text_eq, Nat.le_trans (room_ofUnits joined) le⟩

theorem quote_notMem_of_all_isWhite (white : text.all isWhite = true) : '\x22' ∉ text := fun member =>
  absurd (List.all_eq_true.mp white _ member) (by decide)

theorem quote_notMem_of_endsObject (ends : endsObject text = true) : '\x22' ∉ text := by
  have front : '\x22' ∉ text.takeWhile isWhite :=
    quote_notMem_of_all_isWhite List.all_takeWhile
  rw [← List.takeWhile_append_dropWhile (p := isWhite) (l := text), List.mem_append]
  unfold endsObject behind? at ends
  cases left : text.dropWhile isWhite with
  | nil => simpa using front
  | cons c rest =>
    rw [left] at ends
    by_cases brace : c = '\x7d'
    · subst brace
      simpa [front] using quote_notMem_of_all_isWhite ends
    · simp [brace] at ends

end Room

end CommandGrammar.Json
