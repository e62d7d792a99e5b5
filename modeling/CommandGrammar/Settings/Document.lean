import CommandGrammar.Settings.Basic
import CommandGrammar.Text.Basic

set_option autoImplicit false

namespace CommandGrammar

namespace Settings

inductive Key where
  | suggestionTimeoutMs
  | maxSuggestions
  deriving DecidableEq, Repr

def Key.name : Key → String
  | .suggestionTimeoutMs => "suggestion_timeout_ms"
  | .maxSuggestions => "max_suggestions"

def Key.ofName? (name : String) : Option Key :=
  [Key.suggestionTimeoutMs, .maxSuggestions].find? (·.name == name)

namespace Document

def isSpace (c : Char) : Bool := c == ' ' || c == '\t'

def skipSpaces (cs : List Char) : List Char := cs.dropWhile isSpace

def isPlain (c : Char) : Bool := c == '\t' || (0x20 ≤ c.toNat && c.toNat != 0x7F)

def digitValue? (base : Nat) (c : Char) : Option Nat :=
  let n := c.toNat
  let value :=
    if '0'.toNat ≤ n && n ≤ '9'.toNat then some (n - '0'.toNat)
    else if 'a'.toNat ≤ n && n ≤ 'f'.toNat then some (n - 'a'.toNat + 10)
    else if 'A'.toNat ≤ n && n ≤ 'F'.toNat then some (n - 'A'.toNat + 10)
    else none
  value.filter (· < base)

-- Digits of a number, the flag telling whether one came right before. A single underscore may stand
-- between two digits.
def digitsFrom (base : Nat) : Nat → Bool → List Char → Option Nat
  | value, afterDigit, [] => if afterDigit then some value else none
  | value, afterDigit, '_' :: rest => if afterDigit then digitsFrom base value false rest else none
  | value, _, c :: rest =>
    match digitValue? base c with
    | some d => digitsFrom base (value * base + d) true rest
    | none => none

def decimal? : List Char → Option Nat
  | ['0'] => some 0
  | '0' :: _ => none
  | cs => digitsFrom 10 0 false cs

def integer? : List Char → Option Int
  | '0' :: 'x' :: cs => (digitsFrom 16 0 false cs).map Int.ofNat
  | '0' :: 'o' :: cs => (digitsFrom 8 0 false cs).map Int.ofNat
  | '0' :: 'b' :: cs => (digitsFrom 2 0 false cs).map Int.ofNat
  | '+' :: cs => (decimal? cs).map Int.ofNat
  | '-' :: cs => (decimal? cs).map fun n => -(n : Int)
  | cs => (decimal? cs).map Int.ofNat

def amount? (cs : List Char) : Option Nat :=
  match integer? cs with
  | some n => if 0 ≤ n && n < Nat.pow 2 63 then some n.toNat else none
  | none => none

def isBareKey (c : Char) : Bool := c.isAlphanum || c == '_' || c == '-'

def isScalar (n : Nat) : Bool := n < 0xD800 || (0xE000 ≤ n && n < 0x110000)

def codePoint? (digits : List Char) (count : Nat) : Option Char :=
  if digits.length == count && !digits.contains '_' then
    match digitsFrom 16 0 false digits with
    | some n => if isScalar n then some (Char.ofNat n) else none
    | none => none
  else none

def quotedKey : Nat → List Char → Option (List Char × List Char)
  | 0, _ => none
  | _, [] => none
  | n + 1, c :: rest =>
    let keep (d : Char) (rest : List Char) := (quotedKey n rest).map fun r => (d :: r.1, r.2)
    if c == '\x22' then some ([], rest)
    else if c == '\\' then
      match rest with
      | 'b' :: rest => keep '\x08' rest
      | 't' :: rest => keep '\t' rest
      | 'n' :: rest => keep '\n' rest
      | 'f' :: rest => keep '\x0c' rest
      | 'r' :: rest => keep '\r' rest
      | '\x22' :: rest => keep '\x22' rest
      | '\\' :: rest => keep '\\' rest
      | 'u' :: rest => (codePoint? (rest.take 4) 4).bind fun d => keep d (rest.drop 4)
      | 'U' :: rest => (codePoint? (rest.take 8) 8).bind fun d => keep d (rest.drop 8)
      | _ => none
    else if isPlain c then keep c rest
    else none

def key? (cs : List Char) : Option (Key × List Char) :=
  let spelled :=
    match cs with
    | '\x22' :: rest => quotedKey rest.length rest
    | '\x27' :: rest =>
      match rest.dropWhile (· != '\x27') with
      | _ :: after => some (rest.takeWhile (· != '\x27'), after)
      | [] => none
    | _ => some (cs.takeWhile isBareKey, cs.dropWhile isBareKey)
  spelled.bind fun (name, rest) => (Key.ofName? (String.ofList name)).map (·, rest)

def endsLine (cs : List Char) : Bool :=
  match skipSpaces cs with
  | [] => true
  | '#' :: comment => comment.all isPlain
  | _ => false

def isWordEnd (c : Char) : Bool := isSpace c || c == '#'

def line? (cs : List Char) : Option (Option (Key × Nat)) :=
  if endsLine cs then some none
  else do
    let (key, rest) ← key? (skipSpaces cs)
    match skipSpaces rest with
    | '=' :: rest =>
      let rest := skipSpaces rest
      let amount ← amount? (rest.takeWhile fun c => !isWordEnd c)
      if endsLine (rest.dropWhile fun c => !isWordEnd c) then some (some (key, amount)) else none
    | _ => none

def assign? (s : Settings) : Key × Nat → Option Settings
  | (.suggestionTimeoutMs, n) =>
    if s.suggestionTimeoutMs.isSome then none else some { s with suggestionTimeoutMs := some n }
  | (.maxSuggestions, n) =>
    if s.maxSuggestions.isSome then none else some { s with maxSuggestions := some n }

end Document

open Document in
def ofDocument? (text : String) : Option Settings := do
  let cs := match text.toList with
    | '\ufeff' :: rest => rest
    | cs => cs
  let lines ← (Text.splitLines cs).mapM line?
  (lines.filterMap id).foldlM assign? {}

def ofDocument (text : String) : Except String Settings :=
  match ofDocument? text with
  | some s => .ok s
  | none => .error "not a settings document"

def ofText (text : String) : Except LoadError Settings := loadText ofDocument text

def ofFile (path : String) (contents : Except ReadFailure String) : Except LoadError Settings :=
  loadFile ofDocument path contents

end Settings

end CommandGrammar
