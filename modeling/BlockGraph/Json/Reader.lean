import BlockGraph.Json
import BlockGraph.Json.Raw

/-!
# Reading JSON values

Interprets raw JSON: numerals become numbers, strings become texts, and objects keep the last of
members with one key.  Interpretation fails on a numeral too large for a floating-point number, on
a code unit that is half of a character, and on arrays and objects nested deeper than allowed.
-/

namespace BlockGraph

/-! ## Numbers -/

namespace Numeral

/-- The limit of the significands kept exactly. -/
def significandLimit : Nat := Nat.pow 2 64

/-- Adds digits to a significand as long as it stays below the limit; gives the significand and the
digits that did not fit. -/
def accumulate (significand : Nat) : List Nat → Nat × List Nat
  | [] => (significand, [])
  | d :: ds =>
    if significand * 10 + d < significandLimit then accumulate (significand * 10 + d) ds
    else (significand, d :: ds)

/-- Scales by a power of ten in one floating-point step; powers below the smallest are reached in
several.  A number too large fails. -/
def scale : Nat → Float → Int → Option Float
  | 0, x, _ => some x
  | steps + 1, x, exponent =>
    if exponent.natAbs ≤ 308 then
      if 0 ≤ exponent then
        let y := x * Float.ofScientific 1 false exponent.toNat
        if y.isInf then none else some y
      else some (x / Float.ofScientific 1 false exponent.natAbs)
    else if x == 0 then some x
    else if 0 ≤ exponent then none
    else scale steps (x / Float.ofScientific 1 false 308) (exponent + 308)

def signed (negative : Bool) (x : Float) : Float := if negative then -x else x

/-- The largest exponent that is told apart from larger ones. -/
def exponentLimit : Nat := Nat.pow 2 31

def natOf (ds : List Nat) : Nat := ds.foldl (fun n d => 10 * n + d) 0

/-- The floating-point value: the leading digits that fit a significand, scaled. -/
def float? (n : Numeral) : Option Float :=
  let (significand, dropped) := accumulate 0 n.whole
  let (significand', unread) := accumulate significand n.fraction
  let place : Int := (dropped.length : Int) - (n.fraction.length - unread.length : Nat)
  let x := (UInt64.ofNat significand').toFloat
  match n.exponent with
  | none => (scale 4 x place).map (signed n.negative)
  | some (below, ds) =>
    let e := natOf ds
    if exponentLimit ≤ e then
      if significand' = 0 ∨ below then some (signed n.negative 0) else none
    else (scale 4 x (if below then place - e else place + e)).map (signed n.negative)

/-- The value of a numeral.  A numeral without fraction and exponent is an integer if it fits the
range of 64-bit integers; minus zero does not. -/
def value? (n : Numeral) : Option Json :=
  let magnitude := natOf n.whole
  if n.fraction.isEmpty ∧ n.exponent.isNone ∧ ¬n.negative ∧ magnitude < Nat.pow 2 64 then
    some (.int magnitude)
  else if n.fraction.isEmpty ∧ n.exponent.isNone ∧ n.negative ∧
      0 < magnitude ∧ magnitude ≤ Nat.pow 2 63 then
    some (.int (-magnitude))
  else n.float?.map .float

end Numeral

/-! ## Strings -/

namespace Piece

def isHigh (n : Nat) : Bool := 0xD800 ≤ n && n < 0xDC00

def isLow (n : Nat) : Bool := 0xDC00 ≤ n && n < 0xE000

/-- The characters of a string.  A high half has to be followed by a low one, and a low half has to
follow a high one. -/
def assemble : List Piece → Option (List Char)
  | [] => some []
  | char c :: pieces => (assemble pieces).map (c :: ·)
  | unit n :: pieces =>
    if isLow n then none
    else if isHigh n then
      match pieces with
      | unit m :: pieces =>
        if isLow m then
          (assemble pieces).map
            (Char.ofNat (0x10000 + (n - 0xD800) * 0x400 + (m - 0xDC00)) :: ·)
        else none
      | _ => none
    else (assemble pieces).map (Char.ofNat n :: ·)

def text? (pieces : List Piece) : Option String := (assemble pieces).map String.ofList

end Piece

/-! ## Values -/

namespace RawJson

mutual

/-- The value of a raw text that nests arrays and objects at most `depth` deep. -/
def value? (depth : Nat) : RawJson → Option Json
  | null => some .null
  | bool b => some (.bool b)
  | number n => n.value?
  | str pieces => (Piece.text? pieces).map .str
  | arr items => if depth = 0 then none else (itemValues? (depth - 1) items).map .arr
  | obj members =>
    if depth = 0 then none
    else (memberValues? (depth - 1) members).map fun ms => .obj (Dict.ofList ms)

def itemValues? (depth : Nat) : List RawJson → Option (List Json)
  | [] => some []
  | item :: items => do return (← value? depth item) :: (← itemValues? depth items)

def memberValues? (depth : Nat) : List (List Piece × RawJson) → Option (List (String × Json))
  | [] => some []
  | (key, value) :: members => do
    return (← Piece.text? key, ← value? depth value) :: (← memberValues? depth members)

end

/-- How deep arrays and objects may nest in a text. -/
def depthLimit : Nat := 127

end RawJson

namespace Json

/-- Reads a text into a value. -/
def parse? (text : String) : Option Json :=
  (RawJson.parse? text).bind (RawJson.value? RawJson.depthLimit)

end Json

end BlockGraph
