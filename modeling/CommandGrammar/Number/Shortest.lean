/-!
Decimal text of a binary floating point number: of the decimals that read back as the same number,
those with the fewest digits, and of these the nearest. It is always written out in full, without an
exponent.
-/

set_option autoImplicit false

namespace CommandGrammar.Number

structure BinaryFormat where
  fractionBits : Nat
  exponentBits : Nat
  deriving DecidableEq, Repr

def single : BinaryFormat := ⟨23, 8⟩
def double : BinaryFormat := ⟨52, 11⟩

/-- A finite magnitude is `significand · 2 ^ exponent`. The gap to the next number below is half the gap
above when `narrowBelow`. -/
inductive Magnitude where
  | notANumber
  | infinite
  | finite (significand : Nat) (exponent : Int) (narrowBelow : Bool)
  deriving DecidableEq, Repr

namespace BinaryFormat

def isNegative (f : BinaryFormat) (bits : Nat) : Bool :=
  bits / Nat.pow 2 (f.fractionBits + f.exponentBits) % 2 == 1

def magnitude (f : BinaryFormat) (bits : Nat) : Magnitude :=
  let fraction := bits % Nat.pow 2 f.fractionBits
  let biased := bits / Nat.pow 2 f.fractionBits % Nat.pow 2 f.exponentBits
  let least : Int := 2 - Nat.pow 2 (f.exponentBits - 1) - f.fractionBits
  if biased == Nat.pow 2 f.exponentBits - 1 then
    if fraction == 0 then .infinite else .notANumber
  else if biased == 0 then .finite fraction least false
  else .finite (Nat.pow 2 f.fractionBits + fraction) (least + (biased - 1 : Nat))
    (fraction == 0 && biased != 1)

end BinaryFormat

def ratio (n : Nat) (base : Nat) : Int → Nat × Nat
  | .ofNat k => (n * base.pow k, 1)
  | .negSucc k => (n, base.pow (k + 1))

/-- The reals that round to a number: `value`, `low` and `high` over `denominator`, with the ends
counted when `closed`. -/
structure RoundingInterval where
  low : Nat
  value : Nat
  high : Nat
  denominator : Nat
  closed : Bool
  deriving DecidableEq, Repr

namespace RoundingInterval

def ofFinite (significand : Nat) (exponent : Int) (narrowBelow : Bool) : RoundingInterval :=
  let (unit, denominator) := ratio 1 2 (exponent - 2)
  { low := (4 * significand - if narrowBelow then 1 else 2) * unit
    value := 4 * significand * unit
    high := (4 * significand + 2) * unit
    denominator
    closed := significand % 2 == 0 }

def contains (i : RoundingInterval) (n : Nat) (exponent : Int) : Bool :=
  let (num, den) := ratio n 10 exponent
  let x := num * i.denominator
  if i.closed then i.low * den ≤ x && x ≤ i.high * den else i.low * den < x && x < i.high * den

def neighbours (i : RoundingInterval) (exponent : Int) : Nat × Nat × Bool :=
  let (unit, den) := ratio 1 10 exponent
  let step := unit * i.denominator
  let below := i.value * den / step
  (below, below + 1, 2 * (i.value * den - below * step) ≥ step)

def pick (i : RoundingInterval) (exponent : Int) : Option Nat :=
  let (below, above, upperNearer) := i.neighbours exponent
  match i.contains below exponent, i.contains above exponent with
  | true, true => some (if upperNearer then above else below)
  | true, false => some below
  | false, true => some above
  | false, false => none

def search (i : RoundingInterval) : Nat → Int → Nat × Int
  | 0, exponent => (0, exponent)
  | grids + 1, exponent =>
    match i.pick exponent with
    | some n => (n, exponent)
    | none => i.search grids (exponent - 1)

-- Digits and exponent of the shortest decimal. The coarsest grid has a step above the value, the
-- finest one below the width of the interval.
def shortest (i : RoundingInterval) : Nat × Int :=
  let whole := (Nat.toDigits 10 (i.value / i.denominator)).length
  i.search (whole + (Nat.toDigits 10 i.denominator).length + 2) whole

end RoundingInterval

def positional (n : Nat) (exponent : Int) : String :=
  let digits := Nat.toDigits 10 n
  match exponent with
  | .ofNat k => String.ofList (digits ++ List.replicate k '0')
  | .negSucc k =>
    let padded := List.replicate (k + 2 - digits.length) '0' ++ digits
    let whole := padded.length - (k + 1)
    String.ofList (padded.take whole ++ '.' :: padded.drop whole)

def BinaryFormat.render (f : BinaryFormat) (bits : Nat) : String :=
  let sign := if f.isNegative bits then "-" else ""
  match f.magnitude bits with
  | .notANumber => "NaN"
  | .infinite => sign ++ "inf"
  | .finite 0 _ _ => sign ++ "0"
  | .finite m q narrow =>
    let (n, e) := (RoundingInterval.ofFinite m q narrow).shortest
    sign ++ positional n e

end CommandGrammar.Number
