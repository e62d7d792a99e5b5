import CommandGrammar.Input.Basic

set_option autoImplicit false

namespace CommandGrammar

inductive Word where
  | text (s : String)
  | object (value : Value) (text : String)
  deriving DecidableEq, Repr

namespace Word

def asText : Word → String
  | .text s => s
  | .object _ s => s

def isObject : Word → Bool
  | .text _ => false
  | .object _ _ => true

def value : Word → Value
  | .text s => .ofString s
  | .object v _ => v

end Word

namespace Input

def wordIn (position : Nat) : List Segment → Option Word × Nat
  | [] => (none, position)
  | s :: rest =>
    match s.body with
    | .content c =>
      let before := s.offset c position
      -- Behind its start an object is read like a text.
      if c.isObject && before == 0 then (some (.object c.value c.text), s.stop)
      else
        let ahead := c.chars.drop before
        let blanks := ahead.takeWhile Text.isBlank
        let letters := (ahead.drop blanks.length).takeWhile fun ch => !Text.isBlank ch
        if letters.isEmpty then wordIn position rest
        else (some (.text (String.ofList letters)), s.start + before + blanks.length + letters.length)
    | .separator => wordIn position rest
    | .tail => (none, s.start)

def peekWord (i : Input) : Option Word := (wordIn i.position i.ahead).1

-- Takes the next word. At the very start of an object that is the object; anywhere else white space is
-- skipped and the word ends before the next white space. With none left the position moves to the end.
def readWord (i : Input) : Option Word × Input :=
  let (word, position) := wordIn i.position i.ahead
  (word, { i with position })

@[simp] theorem fst_readWord (i : Input) : i.readWord.1 = i.peekWord := rfl

@[simp] theorem length_readWord (i : Input) : i.readWord.2.length = i.length := rfl

end Input

end CommandGrammar
