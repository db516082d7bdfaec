/-!
Numbers of the language are doubles. A finite double is a sign and `significand * 2 ^ exponent`.

A program sees its numbers written positionally with the fewest digits that read back. The reals
that round to a double form an interval around it. Of the powers of ten, the largest one with a
multiple in that interval leaves the fewest digits to write, and of its multiples there the nearest
one is taken. A debugging listing marks numbers as fractions and turns to exponents for large and
small ones.
-/

namespace Lox.Number

inductive Shape where
  | nan
  | infinite (negative : Bool)
  | finite (negative : Bool) (significand : Nat) (exponent : Int)
  deriving DecidableEq, Repr

def shapeOfBits (bits : Nat) : Shape :=
  let negative := decide (Nat.pow 2 63 ≤ bits)
  let biased : Nat := bits / Nat.pow 2 52 % 2048
  let fraction := bits % Nat.pow 2 52
  if biased = 2047 then
    if fraction = 0 then .infinite negative else .nan
  else if biased = 0 then .finite negative fraction (-1074)
  else .finite negative (Nat.pow 2 52 + fraction) ((biased : Int) - 1075)

def shape (x : Float) : Shape := shapeOfBits x.toBits.toNat

def halveEven (n k : Nat) : Nat :=
  let divisor := Nat.pow 2 k
  let quotient := n / divisor
  let twice := 2 * (n % divisor)
  if divisor < twice ∨ (divisor = twice ∧ quotient % 2 = 1) then quotient + 1 else quotient

/-- The bits of the double nearest to a positive `n`, were there no largest double. The leading bit
of the significand adds one to the exponent, and so does a carry out of it. -/
def bitsNearest (n : Nat) : Nat :=
  let top := n.log2
  let significand := if top ≤ 52 then n * Nat.pow 2 (52 - top) else halveEven n (top - 52)
  (top + 1022) * Nat.pow 2 52 + significand

def ofNat? (n : Nat) : Option Float :=
  if n = 0 then some (Float.ofBits 0)
  else if bitsNearest n < 2047 * Nat.pow 2 52 then
    some (Float.ofBits (UInt64.ofNat (bitsNearest n)))
  else none

def digitsValue (digits : List Char) : Nat :=
  digits.foldl (fun n c => 10 * n + (c.toNat - '0'.toNat)) 0

structure Decimal where
  digits : Nat
  exponent : Int
  deriving DecidableEq, Repr

/-- The reals that round to a double, in units of `2 ^ exponent`: a quarter of the double's own
unit, so that the halves towards both neighbours are whole. The ends belong to it iff `closed`. -/
structure Interval where
  low : Nat
  middle : Nat
  high : Nat
  exponent : Int
  closed : Bool
  deriving DecidableEq, Repr

-- Below a power of two the neighbours lie twice as close, the smallest exponent apart.
def Interval.around (significand : Nat) (exponent : Int) : Interval where
  low := 4 * significand - (if significand = Nat.pow 2 52 ∧ -1074 < exponent then 1 else 2)
  middle := 4 * significand
  high := 4 * significand + 2
  exponent := exponent - 2
  closed := significand % 2 = 0

-- The interval times its `scale` and `10 ^ t` times its `step` are in one unit.
def Interval.scale (i : Interval) (t : Int) : Nat :=
  Nat.pow 2 i.exponent.toNat * Nat.pow 10 (-t).toNat

def Interval.step (i : Interval) (t : Int) : Nat :=
  Nat.pow 10 t.toNat * Nat.pow 2 (-i.exponent).toNat

def Interval.has (i : Interval) (d : Nat) (t : Int) : Bool :=
  let low := i.low * i.scale t
  let high := i.high * i.scale t
  let point := d * i.step t
  if i.closed then low ≤ point && point ≤ high else low < point && point < high

def Interval.multiple? (i : Interval) (t : Int) : Option Nat :=
  let middle := i.middle * i.scale t
  let step := i.step t
  let d := middle / step
  match i.has d t, i.has (d + 1) t with
  | false, false => none
  | true, false => some d
  | false, true => some (d + 1)
  | true, true =>
    let twice := (2 * d + 1) * step
    if 2 * middle < twice ∨ (2 * middle = twice ∧ d % 2 = 0) then some d else some (d + 1)

def Interval.search (i : Interval) : Nat → Int → Decimal
  | 0, t => ⟨i.middle * i.scale t / i.step t, t⟩
  | n + 1, t =>
    match i.multiple? t with
    | some d => ⟨d, t⟩
    | none => i.search n (t - 1)

-- Some `t` with `2 ^ k ≤ 10 ^ t`, and not far above the least one.
def decimalAbove (k : Int) : Int :=
  if 0 ≤ k then k / 3 + 1 else -(-k * 3 / 10)

/-- The shortest decimal that rounds to `significand * 2 ^ exponent`. The search ends at the latest
where the power of ten divides the number. -/
def shortest (significand : Nat) (exponent : Int) : Decimal :=
  if significand = 0 then ⟨0, 0⟩
  else
    let start := decimalAbove (exponent + significand.log2 + 1)
    (Interval.around significand exponent).search (start - min exponent 0).toNat start

def Decimal.chars (d : Decimal) : List Char := Nat.toDigits 10 d.digits

/-- How many digits stand before the decimal point; if negative, how many zeros stand behind it. -/
def Decimal.point (d : Decimal) : Int := d.chars.length + d.exponent

def Decimal.positional (d : Decimal) : List Char :=
  let digits := d.chars
  if 0 ≤ d.exponent then digits ++ List.replicate d.exponent.toNat '0'
  else if 0 < d.point then digits.take d.point.toNat ++ '.' :: digits.drop d.point.toNat
  else '0' :: '.' :: List.replicate (-d.point).toNat '0' ++ digits

def Decimal.scientific (d : Decimal) : List Char :=
  let exponent := d.point - 1
  let magnitude := Nat.toDigits 10 exponent.natAbs
  let fraction := d.chars.drop 1
  d.chars.take 1 ++ (if fraction.isEmpty then [] else '.' :: fraction) ++
    ['e', if exponent < 0 then '-' else '+'] ++
    List.replicate (2 - magnitude.length) '0' ++ magnitude

def signed (negative : Bool) (digits : List Char) : String :=
  String.ofList (if negative then '-' :: digits else digits)

def display (x : Float) : String :=
  match shape x with
  | .nan => "NaN"
  | .infinite negative => signed negative ['i', 'n', 'f']
  | .finite negative significand exponent =>
    signed negative (shortest significand exponent).positional

def Decimal.listing (d : Decimal) : List Char :=
  if -4 < d.point ∧ d.point ≤ 16 then
    if 0 ≤ d.exponent then d.positional ++ ['.', '0'] else d.positional
  else d.scientific

def listing (x : Float) : String :=
  match shape x with
  | .nan => "nan"
  | .infinite negative => signed negative ['i', 'n', 'f']
  | .finite negative significand exponent =>
    signed negative (shortest significand exponent).listing

end Lox.Number
