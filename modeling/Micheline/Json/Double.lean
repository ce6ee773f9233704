/-
Micheline/Json/Double.lean

The finite binary64 numbers, exactly.  A double is a sign, a significand below `2 ^ 53`
and a power of two; it is in normal form when the significand has 53 bits or the exponent
is the least one.  Rounding a quotient goes to the nearest double, a tie to the even
significand.

Two rules of the document format are stated here, each in exact arithmetic.

* `Double.ofDecimal?` reads `digits * 10 ^ scale` in two roundings: the digits become a
  double, which is multiplied or divided by the double nearest to the power of ten.  A
  division below `10 ^ -308` proceeds by `10 ^ 308` at a time.
* `Double.text` writes the fewest digits that round back to the number, the nearest of
  these to it, in positional form between `10 ^ -5` and `10 ^ 16`.
-/

namespace Micheline

/-- The number `significand * 2 ^ exponent`, or its opposite. -/
structure Double where
  negative : Bool
  significand : Nat
  exponent : Int
  deriving DecidableEq, Repr

namespace Double

/-! ### Rounding -/

def minExponent : Int := -1074

def maxExponent : Int := 971

/-- The significands of doubles are below `2 ^ 53`. -/
def significandBound : Nat := 9007199254740992

/-- The least significand of a double whose exponent could be smaller, `2 ^ 52`. -/
def fullSignificand : Nat := 4503599627370496

/-- Two to the power `e` as a quotient of natural numbers. -/
def powerOfTwo (e : Int) : Nat × Nat :=
  (Nat.pow 2 e.toNat, Nat.pow 2 (-e).toNat)

/-- The integer nearest to `num / den`, the even one of two. -/
def divNearest (num den : Nat) : Nat :=
  let q := num / den
  let r := num % den
  if 2 * r < den then q
  else if den < 2 * r then q + 1
  else if q % 2 = 0 then q else q + 1

/-- The exponent at which `num / den` has 53 bits before the point, if that is no less
than the least one. -/
def exponentOf (num den : Nat) : Int :=
  let e : Int := (num.log2 : Int) - (den.log2 : Int) - 53
  let (up, down) := powerOfTwo e
  let e := if den * up * significandBound ≤ num * down then e + 1 else e
  max e minExponent

/-- The significand and exponent of the double nearest to `num / den`; none if that is
beyond the greatest double. -/
def round? (num den : Nat) : Option (Nat × Int) :=
  if num = 0 then some (0, minExponent)
  else
    let e := exponentOf num den
    let (up, down) := powerOfTwo e
    let m := divNearest (num * down) (den * up)
    -- rounding up may need one bit more
    let (m, e) := if m = significandBound then (fullSignificand, e + 1) else (m, e)
    if e ≤ maxExponent then some (m, e) else none

/-- The size of a double as a quotient of natural numbers. -/
def ratio (significand : Nat) (exponent : Int) : Nat × Nat :=
  let (up, down) := powerOfTwo exponent
  (significand * up, down)

/-! ### Reading a decimal -/

/-- The greatest power of ten that is a double. -/
def maxPower : Nat := 308

/-- `x / 10 ^ power`, rounded; `x` is a significand and an exponent. -/
def divPower (x : Nat × Int) (power : Nat) : Nat × Int :=
  match round? (Nat.pow 10 power) 1 with
  | none => (0, minExponent)
  | some p =>
    let (a, b) := ratio x.1 x.2
    let (c, d) := ratio p.1 p.2
    (round? (a * d) (b * c)).getD (0, minExponent)

/-- `x * 10 ^ power`, rounded; none if it is too large. -/
def mulPower? (x : Nat × Int) (power : Nat) : Option (Nat × Int) := do
  if x.1 = 0 then return x
  guard (power ≤ maxPower)
  let p ← round? (Nat.pow 10 power) 1
  let (a, b) := ratio x.1 x.2
  let (c, d) := ratio p.1 p.2
  round? (a * c) (b * d)

/-- `x / 10 ^ power` in steps of at most `10 ^ 308`, each rounded. -/
def divSteps (x : Nat × Int) (power : Nat) : Nat × Int :=
  if power ≤ maxPower then divPower x power
  else if x.1 = 0 then x
  else divSteps (divPower x maxPower) (power - maxPower)
termination_by power
decreasing_by simp only [maxPower] at *; omega

/-- The double read from `digits * 10 ^ scale`; none beyond the range. -/
def ofDecimal? (negative : Bool) (digits : Nat) (scale : Int) : Option Double := do
  let x ← round? digits 1
  let x ← if 0 ≤ scale then mulPower? x scale.toNat else some (divSteps x (-scale).toNat)
  return ⟨negative, x.1, x.2⟩

/-! ### The fewest digits that read back -/

/-- The decimals that round to a positive double lie between two quotients over one
denominator: `low / den` and `high / den`, with `value / den` the number itself. -/
structure Interval where
  low : Nat
  value : Nat
  high : Nat
  den : Nat
  /-- Whether the ends round to the number too. -/
  closed : Bool

/-- The interval of a double: half a step to either side, and only a quarter below where
the step shrinks. -/
def interval (significand : Nat) (exponent : Int) : Interval :=
  let (up, down) := powerOfTwo exponent
  let below := if significand = fullSignificand ∧ minExponent < exponent then 1 else 2
  { low := (4 * significand - below) * up
    value := 4 * significand * up
    high := (4 * significand + 2) * up
    den := 4 * down
    closed := significand % 2 == 0 }

/-- Whether `digits * 10 ^ scale` lies in the interval. -/
def Interval.contains (i : Interval) (digits : Nat) (scale : Int) : Bool :=
  let x := digits * Nat.pow 10 scale.toNat * i.den
  let unit := Nat.pow 10 (-scale).toNat
  if i.closed then i.low * unit ≤ x && x ≤ i.high * unit
  else i.low * unit < x && x < i.high * unit

/-- Of the two neighbours of the number on the grid of multiples of `10 ^ scale`, the one
in the interval, the nearer if both are, the even one on a tie. -/
def Interval.onGrid? (i : Interval) (scale : Int) : Option Nat :=
  let num := i.value * Nat.pow 10 (-scale).toNat
  let den := i.den * Nat.pow 10 scale.toNat
  let below := num / den
  let r := num % den
  if r = 0 then some below
  else
    -- Zero is no candidate: nothing but zero itself is written as it.
    let lower := i.contains below scale && below != 0
    let upper := i.contains (below + 1) scale
    if lower && upper then
      some (if 2 * r < den then below
        else if den < 2 * r then below + 1
        else if below % 2 = 0 then below else below + 1)
    else if lower then some below
    else if upper then some (below + 1)
    else none

/-- The greatest `k` with `10 ^ k ≤ num / den`, searched downwards from `k`. -/
def decimalExponent (num den : Nat) : (fuel : Nat) → (k : Int) → Int
  | 0, k => k
  | fuel + 1, k =>
    if den * Nat.pow 10 k.toNat ≤ num * Nat.pow 10 (-k).toNat then k
    else decimalExponent num den fuel (k - 1)

/-- The first grid with a hit, from the coarsest on. -/
def shortestFrom (i : Interval) (top : Int) : (tries : Nat) → (count : Nat) → Nat × Int
  | 0, count => (i.value / i.den, top - count)
  | tries + 1, count =>
    let scale := top + 1 - count
    match i.onGrid? scale with
    | some digits => (digits, scale)
    | none => shortestFrom i top tries (count + 1)

/-- A positive number without the zeros at its end, and how many there were. -/
def stripZeros : (fuel : Nat) → Nat → Int → Nat × Int
  | 0, digits, scale => (digits, scale)
  | fuel + 1, digits, scale =>
    if digits % 10 = 0 then stripZeros fuel (digits / 10) (scale + 1) else (digits, scale)

/-- The shortest decimal `digits * 10 ^ scale` that rounds to a positive double. -/
def shortest (significand : Nat) (exponent : Int) : Nat × Int :=
  let i := interval significand exponent
  let top := decimalExponent i.value i.den 640 309
  let (digits, scale) := shortestFrom i top 17 1
  stripZeros 20 digits scale

/-! ### Text -/

/-- The powers of ten of the first digit between which a number is written positionally. -/
def positional (lead : Int) : Bool := -5 ≤ lead && lead < 16

/-- The text of `digits * 10 ^ scale` with `digits` positive: positional with at least one
digit after the point, or one digit before the point and a signed exponent. -/
def decimalText (digits : Nat) (scale : Int) : String :=
  let text := Nat.toDigits 10 digits
  let lead : Int := scale + text.length - 1
  String.ofList <|
    if positional lead then
      if 0 ≤ scale then text ++ List.replicate scale.toNat '0' ++ ['.', '0']
      else if 0 ≤ lead then
        text.take (lead.toNat + 1) ++ ['.'] ++ text.drop (lead.toNat + 1)
      else ['0', '.'] ++ List.replicate (-lead - 1).toNat '0' ++ text
    else
      let fraction := if text.length = 1 then [] else '.' :: text.drop 1
      let sign := if lead < 0 then '-' else '+'
      text.take 1 ++ fraction ++ ['e', sign] ++ Nat.toDigits 10 lead.natAbs

def text (x : Double) : String :=
  let size :=
    if x.significand = 0 then "0.0"
    else
      let (digits, scale) := shortest x.significand x.exponent
      decimalText digits scale
  if x.negative then "-" ++ size else size

end Double

end Micheline
