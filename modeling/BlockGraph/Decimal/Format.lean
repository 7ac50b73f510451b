import BlockGraph.Decimal.Shortest

/-!
# Number formats

Two ways to write a floating-point number with its shortest digits.

* `Decimal.plain` never uses an exponent and writes whole numbers without a point.  It is used for
  coordinates and number fields.
* `Decimal.json` marks every number as fractional, by a point or by an exponent, and uses an
  exponent for very small and very large magnitudes.  It is used in JSON text, which has no way to
  write what is not finite.
-/

namespace BlockGraph.Decimal

def zeros (n : Nat) : String := String.ofList (List.replicate n '0')

/-- Writes digits with a decimal point after the first `point` of them; `point` may lie outside the
digits on either side.  Whole numbers get the ending `whole`. -/
def positional (digits : String) (point : Int) (whole : String) : String :=
  let count : Int := digits.length
  if count ≤ point then digits ++ zeros (point - count).toNat ++ whole
  else if 0 < point then
    String.ofList (digits.toList.take point.toNat) ++ "." ++
      String.ofList (digits.toList.drop point.toNat)
  else "0." ++ zeros (-point).toNat ++ digits

/-- Writes digits with one of them before the point and the exponent with its sign. -/
def scientific (digits : String) (exponent : Int) : String :=
  let mark := if exponent < 0 then "e-" else "e+"
  let fraction := String.ofList (digits.toList.drop 1)
  String.ofList (digits.toList.take 1) ++ (if fraction.isEmpty then "" else "." ++ fraction) ++
    mark ++ toString exponent.natAbs

def sign (negative : Bool) : String := if negative then "-" else ""

/-- The text of a number without exponent. -/
def plain (x : Float) : String :=
  match classify x with
  | .nan => "NaN"
  | .infinite negative => sign negative ++ "inf"
  | .finite negative magnitude =>
    if magnitude.mantissa = 0 then sign negative ++ "0"
    else
      let d := magnitude.shortest .up
      let digits := toString d.digits
      sign negative ++ positional digits (digits.length + d.exponent) ""

/-- The text of a number in JSON: positional from `1e-5` up to `1e16`, with an exponent outside. -/
def json (x : Float) : String :=
  match classify x with
  | .nan => "null"
  | .infinite _ => "null"
  | .finite negative magnitude =>
    if magnitude.mantissa = 0 then sign negative ++ "0.0"
    else
      let d := magnitude.shortest .even
      let digits := toString d.digits
      let point := digits.length + d.exponent
      sign negative ++
        if -5 < point ∧ point ≤ 16 then positional digits point ".0"
        else scientific digits (point - 1)

end BlockGraph.Decimal
