import BlockGraph.Text.Quoted

/-!
# Raw JSON

The shape of a JSON text before anything in it is interpreted: numerals are digits, strings are
characters and escaped code units, objects keep every member in the order written.  Reading a text
into this form checks its grammar and nothing else.  What a numeral is worth, whether the units of
a string form characters and how deep a text may nest is asked only of the parts that matter to the
reader; a member that nobody looks at has to be well formed and no more.

Reading spends one unit of its bound per value, item or member, and each of these has at least one
character of its own, so the length of the text is bound enough.
-/

namespace BlockGraph

/-- The parts of a numeral, digit by digit. -/
structure Numeral where
  negative : Bool
  whole : List Nat
  fraction : List Nat
  /-- The sign and the digits of the exponent. -/
  exponent : Option (Bool × List Nat)
deriving Inhabited

/-- A piece of a string: a character, or a code unit written by its number. -/
inductive Piece where
  | char (c : Char)
  | unit (n : Nat)

inductive RawJson where
  | null
  | bool (b : Bool)
  | number (n : Numeral)
  | str (pieces : List Piece)
  | arr (items : List RawJson)
  | obj (members : List (List Piece × RawJson))
deriving Inhabited

namespace RawJson

def isBlank (c : Char) : Bool := c == ' ' || c == '\n' || c == '\t' || c == '\r'

def skipBlanks (cs : List Char) : List Char := cs.dropWhile isBlank

/-! ## Numerals -/

def digits (cs : List Char) : List Nat × List Char :=
  ((cs.takeWhile Char.isDigit).map fun c => c.toNat - '0'.toNat, cs.dropWhile Char.isDigit)

/-- The whole part: a single zero, or digits that do not start with zero. -/
def readWhole (cs : List Char) : Option (List Nat × List Char) :=
  match digits cs with
  | ([], _) => none
  | (0 :: _ :: _, _) => none
  | found => some found

/-- The fraction, at least one digit after a point. -/
def readFraction : List Char → Option (List Nat × List Char)
  | '.' :: cs =>
    match digits cs with
    | ([], _) => none
    | found => some found
  | cs => some ([], cs)

def readSign : List Char → Bool × List Char
  | '-' :: cs => (true, cs)
  | '+' :: cs => (false, cs)
  | cs => (false, cs)

/-- The exponent, a mark, an optional sign and at least one digit. -/
def readExponent (cs : List Char) : Option (Option (Bool × List Nat) × List Char) :=
  match cs with
  | c :: rest =>
    if c = 'e' ∨ c = 'E' then
      match digits (readSign rest).2 with
      | ([], _) => none
      | (found, rest') => some (some ((readSign rest).1, found), rest')
    else some (none, cs)
  | [] => some (none, [])

def readNumeral (cs : List Char) : Option (Numeral × List Char) := do
  let (negative, cs) := match cs with
    | '-' :: cs => (true, cs)
    | cs => (false, cs)
  let (whole, cs) ← readWhole cs
  let (fraction, cs) ← readFraction cs
  let (exponent, cs) ← readExponent cs
  return (⟨negative, whole, fraction, exponent⟩, cs)

/-! ## Strings -/

def hexUnit? (a b c d : Char) : Option Nat := do
  return ((← Text.hexDigit? a) * 16 + (← Text.hexDigit? b)) * 256 + (← Text.hexDigit? c) * 16 +
    (← Text.hexDigit? d)

/-- The character that a backslash and a letter stand for. -/
def shortEscape? (c : Char) : Option Char :=
  if c = '"' ∨ c = '\\' ∨ c = '/' then some c
  else if c = 'b' then some (Char.ofNat 8)
  else if c = 'f' then some (Char.ofNat 12)
  else if c = 'n' then some '\n'
  else if c = 'r' then some '\r'
  else if c = 't' then some '\t'
  else none

/-- The pieces of a string up to its closing quote.  Controls have to be escaped. -/
def readPieces : List Char → Option (List Piece × List Char)
  | [] => none
  | '"' :: cs => some ([], cs)
  | '\\' :: 'u' :: a :: b :: c :: d :: cs => do
    let n ← hexUnit? a b c d
    let (pieces, cs) ← readPieces cs
    return (.unit n :: pieces, cs)
  | '\\' :: c :: cs => do
    let c ← shortEscape? c
    let (pieces, cs) ← readPieces cs
    return (.char c :: pieces, cs)
  | c :: cs =>
    if c.toNat < 32 then none
    else do
      let (pieces, cs) ← readPieces cs
      return (.char c :: pieces, cs)

/-- A member's key and the colon after it. -/
def readKey (cs : List Char) : Option (List Piece × List Char) :=
  match skipBlanks cs with
  | '"' :: cs => do
    let (pieces, cs) ← readPieces cs
    match skipBlanks cs with
    | ':' :: cs => return (pieces, cs)
    | _ => none
  | _ => none

/-! ## Values -/

mutual

def readValue : Nat → List Char → Option (RawJson × List Char)
  | 0, _ => none
  | bound + 1, cs =>
    match skipBlanks cs with
    | 'n' :: 'u' :: 'l' :: 'l' :: cs => some (null, cs)
    | 't' :: 'r' :: 'u' :: 'e' :: cs => some (bool true, cs)
    | 'f' :: 'a' :: 'l' :: 's' :: 'e' :: cs => some (bool false, cs)
    | '"' :: cs => do
      let (pieces, cs) ← readPieces cs
      return (str pieces, cs)
    | '[' :: cs =>
      match skipBlanks cs with
      | ']' :: cs => some (arr [], cs)
      | cs => do
        let (items, cs) ← readItems bound cs
        return (arr items, cs)
    | '\x7b' :: cs =>
      match skipBlanks cs with
      | '\x7d' :: cs => some (obj [], cs)
      | cs => do
        let (members, cs) ← readMembers bound cs
        return (obj members, cs)
    | cs => do
      let (n, cs) ← readNumeral cs
      return (number n, cs)

def readItems : Nat → List Char → Option (List RawJson × List Char)
  | 0, _ => none
  | bound + 1, cs => do
    let (item, cs) ← readValue bound cs
    match skipBlanks cs with
    | ',' :: cs =>
      let (items, cs) ← readItems bound cs
      return (item :: items, cs)
    | ']' :: cs => return ([item], cs)
    | _ => none

def readMembers : Nat → List Char → Option (List (List Piece × RawJson) × List Char)
  | 0, _ => none
  | bound + 1, cs => do
    let (key, cs) ← readKey cs
    let (value, cs) ← readValue bound cs
    match skipBlanks cs with
    | ',' :: cs =>
      let (members, cs) ← readMembers bound cs
      return ((key, value) :: members, cs)
    | '\x7d' :: cs => return ([(key, value)], cs)
    | _ => none

end

/-- Reads a text that holds one value and blanks around it. -/
def parse? (text : String) : Option RawJson := do
  let cs := text.toList
  let (value, rest) ← readValue (2 * cs.length + 2) cs
  if (skipBlanks rest).isEmpty then some value else none

end RawJson

end BlockGraph
