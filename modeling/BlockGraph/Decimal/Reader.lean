/-!
# Reading numbers

`Decimal.parse?` reads a number as people write it: an optional sign, then digits with an optional
point and exponent, or one of the words for infinity and for what is not a number.  The result is
the floating-point number nearest to what is written.
-/

namespace BlockGraph.Decimal

/-- Splits off the leading digits. -/
def takeDigits (cs : List Char) : List Char × List Char :=
  (cs.takeWhile Char.isDigit, cs.dropWhile Char.isDigit)

/-- The value of a list of digits. -/
def natOfDigits (ds : List Char) : Nat :=
  ds.foldl (fun n d => 10 * n + (d.toNat - '0'.toNat)) 0

def infinity : Float := Float.ofBits 0x7FF0000000000000

/-- The number nearest to `mantissa · 10 ^ exponent`.  Magnitudes far outside the range of
floating-point numbers are settled without computing the power. -/
def nearest (mantissa : Nat) (exponent : Int) : Float :=
  let magnitude := (toString mantissa).length + exponent
  if mantissa = 0 then 0
  else if 400 < magnitude then infinity
  else if magnitude < -400 then 0
  else if 0 ≤ exponent then Float.ofScientific mantissa false exponent.toNat
  else Float.ofScientific mantissa true (-exponent).toNat

/-- Reads an exponent: a mark, an optional sign and at least one digit, up to the end. -/
def exponent? : List Char → Option Int
  | [] => some 0
  | mark :: cs =>
    if mark = 'e' ∨ mark = 'E' then
      let (negative, cs) := match cs with
        | '-' :: cs => (true, cs)
        | '+' :: cs => (false, cs)
        | cs => (false, cs)
      let (digits, rest) := takeDigits cs
      if digits.isEmpty ∨ ¬rest.isEmpty then none
      else
        let n : Int := natOfDigits digits
        some (if negative then -n else n)
    else none

/-- Reads a number without sign. -/
def unsigned? (cs : List Char) : Option Float :=
  let word := String.ofList (cs.map Char.toLower)
  if word = "inf" ∨ word = "infinity" then some infinity
  else if word = "nan" then some (Float.ofBits 0x7FF8000000000000)
  else
    let (whole, rest) := takeDigits cs
    let (fraction, rest) := match rest with
      | '.' :: rest => takeDigits rest
      | rest => ([], rest)
    if whole.isEmpty ∧ fraction.isEmpty then none
    else do
      let exponent ← exponent? rest
      return nearest (natOfDigits (whole ++ fraction)) (exponent - fraction.length)

/-- Reads a number. -/
def parse? (text : String) : Option Float :=
  match text.toList with
  | '-' :: cs => (unsigned? cs).map (- ·)
  | '+' :: cs => unsigned? cs
  | cs => unsigned? cs

end BlockGraph.Decimal
