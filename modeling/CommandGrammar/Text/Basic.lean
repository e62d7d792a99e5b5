import CommandGrammar.Text.CaseTable

set_option autoImplicit false

namespace CommandGrammar.Text

def isBlank (c : Char) : Bool :=
  let n := c.toNat
  (9 ≤ n && n ≤ 13) || n == 32 || n == 0x85 || n == 0xA0 || n == 0x1680 ||
    (0x2000 ≤ n && n ≤ 0x200A) || n == 0x2028 || n == 0x2029 || n == 0x202F || n == 0x205F ||
    n == 0x3000

@[simp] theorem isBlank_space : isBlank ' ' = true := by decide

def isAllBlank (s : String) : Bool := s.toList.all isBlank

def splitLines : List Char → List (List Char)
  | [] => [[]]
  | '\r' :: '\n' :: rest => [] :: splitLines rest
  | '\n' :: rest => [] :: splitLines rest
  | c :: rest =>
    match splitLines rest with
    | [] => [[c]]
    | line :: later => (c :: line) :: later

def joinLines (texts : List String) : String := String.join (texts.map (· ++ "\n"))

def CapitalRun.contains (r : CapitalRun) (n : Nat) : Bool :=
  r.first ≤ n && n ≤ r.last && (n - r.first) % r.stride == 0

def findRun (n : Nat) : List CapitalRun → Option CapitalRun
  | [] => none
  | r :: rest => if n < r.first then none else if r.contains n then some r else findRun n rest

def inIntervals (n : Nat) (intervals : List (Nat × Nat)) : Bool :=
  intervals.any fun i => i.1 ≤ n && n ≤ i.2

def isIgnorable (c : Char) : Bool := inIntervals c.toNat ignorableIntervals

def isCased (c : Char) : Bool := inIntervals c.toNat casedIntervals

-- The small form of one character apart from its neighbours. Dotted capital I keeps its dot.
def lowerChar (c : Char) : List Char :=
  if c == 'İ' then ['i', '\u0307']
  else match findRun c.toNat capitalRuns with
    | some r => [Char.ofNat (c.toNat + r.shift).toNat]
    | none => [c]

def startsCased (cs : List Char) : Bool :=
  match cs.dropWhile isIgnorable with
  | [] => false
  | c :: _ => isCased c

-- Lower case of the second list, the first being what precedes it, nearest character first.
def lowerAfter : List Char → List Char → List Char
  | _, [] => []
  | before, c :: rest =>
    if c == 'Σ' then
      (if startsCased before && !startsCased rest then 'ς' else 'σ') :: lowerAfter (c :: before) rest
    else lowerChar c ++ lowerAfter (c :: before) rest

def lowercase (s : String) : String := String.ofList (lowerAfter [] s.toList)

def startsWith (s start : String) : Bool := start.toList.isPrefixOf s.toList

def completes (name typed : String) : Bool := startsWith (lowercase name) (lowercase typed)

end CommandGrammar.Text
