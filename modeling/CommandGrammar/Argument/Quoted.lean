import CommandGrammar.Argument.Basic

set_option autoImplicit false

namespace CommandGrammar

namespace Quoted

def isQuote (c : Char) : Bool := c == '\x22' || c == '\x27'

-- Reads what follows the opening quote, up to and with the closing one, taking at most the given
-- number of characters. The flag tells that a backslash came before.
def bodyWithin (quote : Char) : Nat → Bool → Input → Except Fault (List Char) × Input
  | 0, _, i => (.error (.here i .quoteEndExpected none), i)
  | n + 1, escaped, i =>
    match i.readChar with
    | (none, j) => (.error (.here j .quoteEndExpected none), j)
    | (some c, j) =>
      let keep (r : Except Fault (List Char) × Input) := (r.1.map (c :: ·), r.2)
      if escaped then
        if c == quote || c == '\\' then keep (bodyWithin quote n false j)
        else
          -- The complaint is about the character behind the backslash, not about what follows it.
          let k := j.seek (j.position - 1)
          (.error (.here k (.invalidEscape c) none), k)
      else if c == '\\' then bodyWithin quote n true j
      else if c == quote then (.ok [], j)
      else keep (bodyWithin quote n false j)

-- A line cannot give more characters than it has positions left.
def body (quote : Char) (i : Input) : Except Fault (List Char) × Input :=
  bodyWithin quote (i.length - i.position + 1) false i

def read (i : Input) : Except Fault String × Input :=
  let start := i.skipBlanks
  match start.peek with
  | none => (.error (.incorrect start none), start)
  | some c =>
    if isQuote c then
      let (answer, j) := body c start.readChar.2
      (answer.map String.ofList, j)
    else match start.readWord with
      | (some w, j) => (.ok w.asText, j)
      | (none, j) => (.error (.here j .argumentExpected none), j)

end Quoted

def ArgumentType.string {S A : Type} : ArgumentType S A where
  read i _ :=
    let (answer, j) := Quoted.read i
    .between i j (match answer with
      | .ok s => .ok (.ofString s)
      | .error f => .error (.fault f))

end CommandGrammar
