import CommandGrammar.Demo.Session
import CommandGrammar.Proofs.Json.Reading

set_option autoImplicit false

namespace CommandGrammar.Demo

open Json

variable {cs rest behind : List Char}

theorem room_flatMap_escapeQuote (cs : List Char) :
    roomFor (cs.map Char.toNat) = (cs.flatMap escapeQuote).length + cs.count '\\' := by
  induction cs with
  | nil => rfl
  | cons c cs ih =>
    simp only [List.map_cons, roomFor, ih, List.flatMap_cons, List.length_append, List.count_cons]
    by_cases quote : c = '\x22'
    · subst quote
      simp [escapeQuote, room]
      omega
    by_cases slash : c = '\\'
    · subst slash
      simp [escapeQuote, room]
      omega
    simp [escapeQuote, room_plain quote slash, quote, slash]
    omega

theorem readUnits_escapeQuote {c : Char} (slash : c ≠ '\\') (rest : List Char) :
    readUnits (escapeQuote c ++ rest) =
      if c.toNat < 0x20 then none
      else (readUnits rest).map fun (units, behind) => (c.toNat :: units, behind) := by
  by_cases quote : c = '\x22'
  · subst quote
    rfl
  · simp [escapeQuote, quote, readUnits_plain quote slash]

theorem readUnits_flatMap_escapeQuote (slash : '\\' ∉ cs) (rest : List Char) :
    readUnits (cs.flatMap escapeQuote ++ '\x22' :: rest) =
      if cs.all (0x20 ≤ ·.toNat) then some (cs.map Char.toNat, rest) else none := by
  induction cs with
  | nil => simp [readUnits]
  | cons c cs ih =>
    simp only [List.mem_cons, not_or] at slash
    rw [List.flatMap_cons, List.append_assoc, readUnits_escapeQuote (Ne.symm slash.1), ih slash.2,
      List.all_cons]
    by_cases control : c.toNat < 0x20
    · simp [control, Nat.not_le.mpr control]
    · have printed : 0x20 ≤ c.toNat := Nat.not_lt.mp control
      cases cs.all (0x20 ≤ ·.toNat) <;> simp [control, printed]

theorem eq_of_last_quote {front front' : List Char}
    (same : front ++ '\x22' :: rest = front' ++ '\x22' :: behind)
    (last : '\x22' ∉ rest) (last' : '\x22' ∉ behind) : front = front' := by
  -- Were one front longer than the other, its quote would lie in what must hold none.
  rcases List.append_eq_append_iff.mp same with ⟨between, whole, part⟩ | ⟨between, whole, part⟩
  · cases between with
    | nil => simpa using whole.symm
    | cons c between =>
      rw [List.cons_append, List.cons.injEq] at part
      exact absurd (part.2 ▸ List.mem_append_right _ List.mem_cons_self) last
  · cases between with
    | nil => simpa using whole
    | cons c between =>
      rw [List.cons_append, List.cons.injEq] at part
      exact absurd (part.2 ▸ List.mem_append_right _ List.mem_cons_self) last'

theorem backslash_notMem_of_read {message : String} (last : '\x22' ∉ rest)
    (read : readString (message.toList.flatMap escapeQuote ++ '\x22' :: rest) = some (message, behind))
    (ends : endsObject behind = true) : '\\' ∉ message.toList := by
  -- To be read back a backslash needs two characters, and only one is written for it.
  obtain ⟨body, same, le⟩ := holds_readString read
  have whole := eq_of_last_quote same last (quote_notMem_of_endsObject ends)
  rw [room_flatMap_escapeQuote, ← whole] at le
  exact List.count_eq_zero.mp (by omega)

theorem readField_reportError (message : String) :
    readField (reportError .json false message) =
      (readString (message.toList.flatMap escapeQuote ++ '\x22' :: ['\x7d', '\n'])).bind
        fun (value, text) => if endsObject text then some ("error", value) else none := by
  have name (rest : List Char) :
      readString ('e' :: 'r' :: 'r' :: 'o' :: 'r' :: '\x22' :: rest) = some ("error", rest) := rfl
  have text : (reportError .json false message).toList =
      '\x7b' :: '\x22' :: 'e' :: 'r' :: 'r' :: 'o' :: 'r' :: '\x22' :: ':' :: ' ' :: '\x22' ::
        (message.toList.flatMap escapeQuote ++ '\x22' :: ['\x7d', '\n']) := by
    simp [reportError]
  simp [readField, text, behind?, isWhite, name]

/-- A report is read back as an object whose one field is the error and holds the message, just if the message
has no backslash and no control character. -/
theorem readField_reportError_iff (message : String) :
    readField (reportError .json false message) = some ("error", message) ↔
      ∀ c ∈ message.toList, c ≠ '\\' ∧ 0x20 ≤ c.toNat := by
  rw [readField_reportError]
  constructor
  · intro read
    obtain ⟨⟨value, behind⟩, read, ends⟩ := Option.bind_eq_some_iff.mp read
    simp only [Option.ite_none_right_eq_some, Option.some.injEq, Prod.mk.injEq, true_and] at ends
    obtain ⟨ends, same⟩ := ends
    rw [same] at read
    have slash := backslash_notMem_of_read (by decide) read ends
    rw [readString, readUnits_flatMap_escapeQuote slash] at read
    cases printed : message.toList.all (0x20 ≤ ·.toNat) with
    | true =>
      refine fun c member => ⟨fun same => slash (same ▸ member), ?_⟩
      simpa using List.all_eq_true.mp printed c member
    | false => simp [printed] at read
  · intro plain
    have slash : '\\' ∉ message.toList := fun member => (plain _ member).1 rfl
    have ends : endsObject ['\x7d', '\n'] = true := by decide
    have printed : message.toList.all (0x20 ≤ ·.toNat) = true :=
      List.all_eq_true.mpr fun c member => decide_eq_true (plain c member).2
    have read : readString (message.toList.flatMap escapeQuote ++ '\x22' :: ['\x7d', '\n']) =
        some (message, ['\x7d', '\n']) := by
      rw [readString, readUnits_flatMap_escapeQuote slash, if_pos printed]
      simp [ofUnits_toNat]
    simp only [read, Option.bind_some, ends, if_true]

theorem respond_missing_path :
    let message := "could not read 'no\\such': No such file or directory (os error 2)"
    let options : Options :=
      { output := .json, quiet := false, config := some "no\\such", suggestTimeoutMs := none,
        user := "console", operator := false }
    (answer Json.pretty (fun path => Settings.ofFile path (.error .missing)) options .run none ["whoami"]
        "").stderr = reportError .json false message ∧
      readField (reportError .json false message) = none := by
  decide +kernel

end CommandGrammar.Demo
