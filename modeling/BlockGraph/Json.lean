import BlockGraph.Decimal.Format
import BlockGraph.Dict

/-!
# JSON values

Field values and extra state of saved blocks are JSON values.  A number is an integer or a
floating-point number, and the two stay apart: `3` and `3.0` are different values.  The members of
an object are ordered by key.

`Json.text` is the compact text of a value.  `Json.same` compares values; floating-point numbers
are compared as numbers, so what is not a number differs from itself.
-/

namespace BlockGraph

inductive Json where
  | null
  | bool (b : Bool)
  | int (n : Int)
  | float (x : Float)
  | str (s : String)
  | arr (items : List Json)
  | obj (members : List (String × Json))
deriving Inhabited

namespace Json

/-! ## Views -/

def asString? : Json → Option String
  | str s => some s
  | _ => none

def asBool? : Json → Option Bool
  | bool b => some b
  | _ => none

/-- The number nearest to any number. -/
def asFloat? : Json → Option Float
  | int n => some (Float.ofInt n)
  | float x => some x
  | _ => none

def asNat? : Json → Option Nat
  | int (.ofNat n) => some n
  | _ => none

def member? (key : String) : Json → Option Json
  | obj members => Dict.get? key members
  | _ => none

/-- The value of a number; what is not finite has none in JSON. -/
def ofFloat (x : Float) : Json :=
  match Decimal.classify x with
  | .finite _ _ => float x
  | _ => null

/-! ## Equality -/

mutual

def same : Json → Json → Bool
  | null, null => true
  | bool a, bool b => a == b
  | int a, int b => a == b
  | float a, float b => a == b
  | str a, str b => a == b
  | arr as, arr bs => sameItems as bs
  | obj as, obj bs => sameMembers as bs
  | _, _ => false

def sameItems : List Json → List Json → Bool
  | [], [] => true
  | a :: as, b :: bs => a.same b && sameItems as bs
  | _, _ => false

def sameMembers : List (String × Json) → List (String × Json) → Bool
  | [], [] => true
  | (k, a) :: as, (l, b) :: bs => k == l && a.same b && sameMembers as bs
  | _, _ => false

end

/-! ## Text -/

/-- The code of a character below the blank, in four hexadecimal digits. -/
def controlCode (n : Nat) : List Char :=
  ['\\', 'u', '0', '0', Nat.digitChar (n / 16), Nat.digitChar (n % 16)]

/-- One character inside a string.  Only quotes, backslashes and controls are escaped. -/
def escapedChar (c : Char) : List Char :=
  if c = '"' then ['\\', '"']
  else if c = '\\' then ['\\', '\\']
  else if c = '\n' then ['\\', 'n']
  else if c = '\r' then ['\\', 'r']
  else if c = '\t' then ['\\', 't']
  else if c.toNat = 8 then ['\\', 'b']
  else if c.toNat = 12 then ['\\', 'f']
  else if c.toNat < 32 then controlCode c.toNat
  else [c]

def stringChars (s : String) : List Char :=
  '"' :: s.toList.flatMap escapedChar ++ ['"']

mutual

/-- The characters of the compact text. -/
def chars : Json → List Char
  | null => ['n', 'u', 'l', 'l']
  | bool true => ['t', 'r', 'u', 'e']
  | bool false => ['f', 'a', 'l', 's', 'e']
  | int n => (toString n).toList
  | float x => (Decimal.json x).toList
  | str s => stringChars s
  | arr [] => ['[', ']']
  | arr (a :: as) => '[' :: a.chars ++ itemsChars as ++ [']']
  | obj [] => ['\x7b', '\x7d']
  | obj ((k, v) :: ms) => '\x7b' :: stringChars k ++ ':' :: v.chars ++ membersChars ms ++ ['\x7d']

/-- Items after the first. -/
def itemsChars : List Json → List Char
  | [] => []
  | a :: as => ',' :: a.chars ++ itemsChars as

/-- Members after the first. -/
def membersChars : List (String × Json) → List Char
  | [] => []
  | (k, v) :: ms => ',' :: stringChars k ++ ':' :: v.chars ++ membersChars ms

end

def text (j : Json) : String := String.ofList j.chars

end Json

end BlockGraph
