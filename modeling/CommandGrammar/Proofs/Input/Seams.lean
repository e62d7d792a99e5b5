import CommandGrammar.Proofs.Input.Spelling

set_option autoImplicit false

namespace CommandGrammar.Input

inductive Request where
  | peek
  | peekAt (k : Nat)
  | readChar
  | skipBlanks
  | peekWord
  | readWord
  | seek (position : Nat)
  | textBetween (start stop : Nat)
  | remaining
  | line
  | length
  | hasMore

inductive Answer where
  | char (c : Option Char)
  | word (w : Option Word)
  | text (s : String)
  | number (n : Nat)
  | truth (b : Bool)
  | done
  deriving DecidableEq, Repr

def perform (i : Input) : Request → Answer × Input
  | .peek => (.char i.peek, i)
  | .peekAt k => (.char (i.peekAt k), i)
  | .readChar => (.char i.readChar.1, i.readChar.2)
  | .skipBlanks => (.done, i.skipBlanks)
  | .peekWord => (.word i.peekWord, i)
  | .readWord => (.word i.readWord.1, i.readWord.2)
  | .seek position => (.done, i.seek position)
  | .textBetween start stop => (.text (i.textBetween start stop), i)
  | .remaining => (.text i.remaining, i)
  | .line => (.text i.line, i)
  | .length => (.number i.length, i)
  | .hasMore => (.truth i.hasMore, i)

def transcript : Input → List Request → List (Answer × Nat)
  | _, [] => []
  | i, request :: rest =>
    ((i.perform request).1, (i.perform request).2.position) ::
      transcript (i.perform request).2 rest

def answerOn (cs : List Char) (position : Nat) : Request → Answer × Nat
  | .peek => (.char (cs.drop position).head?, position)
  | .peekAt k => (.char (cs.drop position)[k]?, position)
  | .readChar => (.char (cs.drop position).head?, position + min 1 (cs.drop position).length)
  | .skipBlanks => (.done, position + ((cs.drop position).takeWhile Text.isBlank).length)
  | .peekWord => (.word (firstWord (cs.drop position)).1, position)
  | .readWord =>
    (.word (firstWord (cs.drop position)).1, position + (firstWord (cs.drop position)).2)
  | .seek n => (.done, min n cs.length)
  | .textBetween start stop => (.text (String.ofList ((cs.take stop).drop start)), position)
  | .remaining => (.text (String.ofList (cs.drop position)), position)
  | .line => (.text (String.ofList cs), position)
  | .length => (.number cs.length, position)
  | .hasMore => (.truth !(cs.drop position).isEmpty, position)

def transcriptOn (cs : List Char) : Nat → List Request → List (Answer × Nat)
  | _, [] => []
  | position, request :: rest =>
    answerOn cs position request :: transcriptOn cs (answerOn cs position request).2 rest

namespace Holds

variable {i : Input} {cs : List Char}

theorem peekWord_eq (h : i.Holds cs) : i.peekWord = (firstWord (cs.drop i.position)).1 := by
  rw [← fst_readWord, h.readWord_eq]

theorem perform_eq (h : i.Holds cs) (request : Request) :
    i.perform request = ((answerOn cs i.position request).1,
      { i with position := (answerOn cs i.position request).2 }) := by
  cases request with
  | peek => rw [perform, h.peek_eq]; rfl
  | peekAt k => rw [perform, h.peekAt_eq]; rfl
  | readChar => rw [perform, h.readChar_eq]; rfl
  | skipBlanks => rw [perform, h.skipBlanks_eq]; rfl
  | peekWord => rw [perform, h.peekWord_eq]; rfl
  | readWord => rw [perform, h.readWord_eq]; rfl
  | seek n => rw [perform, seek, h.length_eq]; rfl
  | textBetween start stop => rw [perform, h.textBetween_eq]; rfl
  | remaining => rw [perform, h.remaining_eq]; rfl
  | line => rw [perform, h.line_eq]; rfl
  | length => rw [perform, h.length_eq]; rfl
  | hasMore => rw [perform, h.hasMore_eq]; rfl

theorem position_answerOn_le (h : i.Holds cs) (request : Request) :
    (answerOn cs i.position request).2 ≤ cs.length := by
  have le := h.position_le
  have reach {n : Nat} (within : n ≤ (cs.drop i.position).length) : i.position + n ≤ cs.length :=
    (h.advance within).position_le
  cases request with
  | readChar => exact reach (Nat.min_le_right _ _)
  | skipBlanks => exact reach (List.takeWhile_sublist _).length_le
  | readWord => exact reach (firstWord_le _)
  | seek n => exact Nat.min_le_right _ _
  | _ => exact le

theorem transcript_eq (h : i.Holds cs) (requests : List Request) :
    i.transcript requests = transcriptOn cs i.position requests := by
  induction requests generalizing i with
  | nil => rfl
  | cons request rest ih =>
    have moved := h.move (h.position_answerOn_le request)
    rw [transcript, transcriptOn, h.perform_eq request, ih moved]

end Holds

/-- Where every value is a text with characters, the line answers as the one that joins the texts by single
spaces, request after request. -/
theorem transcript_ofValues (r : Rendering) (values : List Value)
    (textual : ∀ v ∈ values, r.isText v = true ∧ r.text v ≠ "") (requests : List Request) :
    (ofValues r values).transcript requests =
      (ofText (" ".intercalate (values.map r.text))).transcript requests := by
  have split := (holds_ofValues textual).transcript_eq requests
  have joined := (holds_ofText (spelling r values)).transcript_eq requests
  exact split.trans joined.symm

example : (ofValues .standard [.ofString "a", .ofString "", .ofString "b"]).length = 5 ∧
    (ofText "a  b").length = 4 := by decide

theorem transcript_ofValues_blanks :
    (ofValues .standard [.text .owned "give ", .text .constant " \tred  wool"]).transcript
        [.readWord, .peekAt 2, .skipBlanks, .textBetween 2 9, .seek 3, .readWord, .readWord] =
      [(.word (some (.text "give")), 4), (.char (some ' '), 4), (.done, 8),
        (.text "ve   \tr", 8), (.done, 3), (.word (some (.text "e")), 4),
        (.word (some (.text "red")), 11)] := by
  rw [transcript_ofValues .standard _ (by decide)]
  decide

end CommandGrammar.Input
