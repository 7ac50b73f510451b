/-!
# Shortest decimals

A floating-point number stands for an interval of reals, those that round to it.  Its shortest
decimal is the multiple of the highest power of ten inside that interval, and of two such multiples
the one nearer to the number itself.  `Binary.shortest` finds it by exact arithmetic on natural
numbers: for one power of ten after another, from large to small, it tries the two multiples around
the number.

The two multiples can be equally near; `Tie` says which one is meant then.  Which digits are written
where is the business of a format and is not decided here.
-/

namespace BlockGraph.Decimal

/-- Which of two equally near decimals is taken. -/
inductive Tie where
  | up
  | even
deriving DecidableEq

/-- The magnitude of a finite number as `mantissa · 2 ^ exponent`.  A `narrow` number is the
smallest of its binade: the gap below it is half the gap above. -/
structure Binary where
  mantissa : Nat
  exponent : Int
  narrow : Bool
deriving Inhabited

/-- What a floating-point number is. -/
inductive Class where
  | nan
  | infinite (negative : Bool)
  | finite (negative : Bool) (magnitude : Binary)

/-- Reads a number's sign, exponent and mantissa off its bits. -/
def classify (x : Float) : Class :=
  let bits : Nat := x.toBits.toNat
  let negative := decide (bits / Nat.pow 2 63 = 1)
  let biased : Nat := bits / Nat.pow 2 52 % Nat.pow 2 11
  let fraction : Nat := bits % Nat.pow 2 52
  if biased = 2047 then
    if fraction = 0 then .infinite negative else .nan
  else if biased = 0 then
    .finite negative ⟨fraction, -1074, false⟩
  else
    .finite negative ⟨Nat.pow 2 52 + fraction, (biased : Int) - 1075, fraction = 0 ∧ 1 < biased⟩

/-- A decimal `digits · 10 ^ exponent`. -/
structure Digits where
  digits : Nat
  exponent : Int
deriving Inhabited

namespace Binary

/-- The number itself if it is whole. -/
def whole? (b : Binary) : Option Nat :=
  if 0 ≤ b.exponent then some (b.mantissa * Nat.pow 2 b.exponent.toNat)
  else if b.mantissa % Nat.pow 2 (-b.exponent).toNat = 0 then
    some (b.mantissa / Nat.pow 2 (-b.exponent).toNat)
  else none

/-- The number and the two ends of its interval, as numerators over one denominator, on the grid of
multiples of `10 ^ place`. -/
structure Scaled where
  low : Nat
  mid : Nat
  high : Nat
  unit : Nat

/-- The interval reaches half a gap to either side, a quarter below a narrow number. -/
def scale (b : Binary) (place : Int) : Scaled :=
  let quarter := b.exponent - 2
  let up := Nat.pow 2 quarter.toNat * Nat.pow 10 (-place).toNat
  let unit := Nat.pow 2 (-quarter).toNat * Nat.pow 10 place.toNat
  let mid := 4 * b.mantissa
  ⟨(mid - if b.narrow then 1 else 2) * up, mid * up, (mid + 2) * up, unit⟩

/-- Whether the `n`-th multiple of the grid lies in the interval, whose ends belong to it when the
mantissa is even. -/
def Scaled.holds (s : Scaled) (inclusive : Bool) (n : Nat) : Bool :=
  if inclusive then decide (s.low ≤ n * s.unit ∧ n * s.unit ≤ s.high)
  else decide (s.low < n * s.unit ∧ n * s.unit < s.high)

/-- The nearest positive multiple of `10 ^ place` inside the interval. -/
def onGrid? (b : Binary) (tie : Tie) (place : Int) : Option Nat :=
  let s := b.scale place
  let inclusive := b.mantissa % 2 = 0
  let below := s.mid / s.unit
  let above := below + 1
  let rest := 2 * (s.mid % s.unit)
  let takesBelow := decide (0 < below) && s.holds inclusive below
  let takesAbove := s.holds inclusive above
  if takesBelow && takesAbove then
    if rest < s.unit then some below
    else if s.unit < rest then some above
    else if tie = .even ∧ below % 2 = 0 then some below
    else some above
  else if takesBelow then some below
  else if takesAbove then some above
  else none

/-- Tries the given number of places, one after another downwards. -/
def search (b : Binary) (tie : Tie) : Nat → Int → Digits
  | 0, place => ⟨(b.onGrid? tie place).getD 0, place⟩
  | tries + 1, place =>
    match b.onGrid? tie place with
    | some digits => ⟨digits, place⟩
    | none => b.search tie tries (place - 1)

/-- The shortest decimal of a positive number.  The search starts above the number and reaches its
seventeenth digit, where every interval holds a multiple. -/
def shortest (b : Binary) (tie : Tie) : Digits :=
  let place := ((b.mantissa.log2 : Int) + b.exponent) * 30103 / 100000 + 2
  b.search tie 22 place

end Binary

end BlockGraph.Decimal
