import BlockGraph.Decimal.Reader
import BlockGraph.Text.Quoted

/-!
# Option documents

Options are written in TOML, without dates and arrays of tables.  A document is read into
statements, each a table header or a value given to a key, and the statements build a tree of
tables.  Only truth values matter to the options, so every other value is checked for its form and
then forgotten.

A key is defined once.  A table is opened by one header, except that naming a table inside another
(`[a.b]`) only implies the outer one; a table that dotted keys have made is not opened by a header.

Keys have fewer parts, and arrays and inline tables fewer levels, than `depthLimit`.

`Document.parse?` gives the root table of a text, or nothing for a text that is no document.
-/

namespace BlockGraph.Document

/-- How a table came to be. -/
inductive Form where
  | implied
  | header
  | dotted
deriving DecidableEq

/-- What a key stands for. -/
inductive Node where
  | flag (b : Bool)
  | other
  | table (form : Form) (entries : List (String × Node))

abbrev Entries := List (String × Node)

inductive Statement where
  | header (path : List String)
  | assign (path : List String) (value : Node)

/-- The number of levels that is too many. -/
def depthLimit : Nat := 80

/-! ## The tree of tables -/

def lookup (key : String) (entries : Entries) : Option Node :=
  (entries.find? (·.1 == key)).map Prod.snd

def replace (key : String) (node : Node) (entries : Entries) : Entries :=
  entries.map fun e => if e.1 == key then (key, node) else e

/-- Gives a value to a key that has none.  A dotted key ends in a table made by dotted keys; on its
way it may also pass through tables that headers have implied. -/
def assign (value : Node) : List String → Entries → Option Entries
  | [], _ => none
  | [k], entries =>
    match lookup k entries with
    | none => some (entries ++ [(k, value)])
    | some _ => none
  | k :: ks, entries =>
    match lookup k entries with
    | none => (assign value ks []).map fun es => entries ++ [(k, .table .dotted es)]
    | some (.table .dotted es) =>
      (assign value ks es).map fun es => replace k (.table .dotted es) entries
    | some (.table .implied es) =>
      if ks.length = 1 then none
      else (assign value ks es).map fun es => replace k (.table .implied es) entries
    | some _ => none

/-- Opens the table that a header names. -/
def openTable : List String → Entries → Option Entries
  | [], _ => none
  | [k], entries =>
    match lookup k entries with
    | none => some (entries ++ [(k, .table .header [])])
    | some (.table .implied es) => some (replace k (.table .header es) entries)
    | some _ => none
  | k :: ks, entries =>
    match lookup k entries with
    | none => (openTable ks []).map fun es => entries ++ [(k, .table .implied es)]
    | some (.table form es) => (openTable ks es).map fun es => replace k (.table form es) entries
    | some _ => none

/-- Changes the entries of the table at a path. -/
def within (change : Entries → Option Entries) : List String → Entries → Option Entries
  | [], entries => change entries
  | k :: ks, entries =>
    match lookup k entries with
    | some (.table form es) =>
      (within change ks es).map fun es => replace k (.table form es) entries
    | _ => none

/-- Carries out statements; `current` is the path of the table that the last header opened. -/
def build (current : List String) (entries : Entries) : List Statement → Option Entries
  | [] => some entries
  | .header path :: rest => do
    let entries ← openTable path entries
    build path entries rest
  | .assign path value :: rest => do
    let entries ← within (assign value path) current entries
    build current entries rest

/-! ## Blanks, comments and line ends -/

def skipSpaces (cs : List Char) : List Char := cs.dropWhile fun c => c == ' ' || c == '\t'

/-- Characters that may stand in a comment or a string as themselves. -/
def isPlain (c : Char) : Bool := c == '\t' || (32 ≤ c.toNat && c.toNat != 127)

def skipComment : List Char → List Char
  | '#' :: cs => cs.dropWhile isPlain
  | cs => cs

/-- The end of a line: spaces, perhaps a comment, and a line break or the end of the text. -/
def endLine (cs : List Char) : Option (List Char) :=
  match skipComment (skipSpaces cs) with
  | [] => some []
  | '\n' :: cs => some cs
  | '\r' :: '\n' :: cs => some cs
  | _ => none

/-- Skips spaces, comments and line breaks, at most the given number of them. -/
def skipLines : Nat → List Char → List Char
  | 0, cs => cs
  | bound + 1, cs =>
    match skipComment (skipSpaces cs) with
    | '\n' :: cs => skipLines bound cs
    | '\r' :: '\n' :: cs => skipLines bound cs
    | cs => cs

/-- Skips spaces and line breaks. -/
def skipBlank : List Char → List Char
  | ' ' :: cs => skipBlank cs
  | '\t' :: cs => skipBlank cs
  | '\n' :: cs => skipBlank cs
  | '\r' :: '\n' :: cs => skipBlank cs
  | cs => cs

/-! ## Strings -/

/-- The character with the given code. -/
def charOf? (digits : List Char) : Option Char := do
  let n ← digits.foldlM (fun n c => do return 16 * n + (← Text.hexDigit? c)) 0
  if (Char.ofNat n).toNat = n then some (Char.ofNat n) else none

def shortEscape? (c : Char) : Option Char :=
  if c = '"' ∨ c = '\\' then some c
  else if c = 'b' then some (Char.ofNat 8)
  else if c = 'f' then some (Char.ofNat 12)
  else if c = 'n' then some '\n'
  else if c = 'r' then some '\r'
  else if c = 't' then some '\t'
  else none

/-- One escape after its backslash. -/
def readEscape : List Char → Option (Char × List Char)
  | 'u' :: cs => do
    if (cs.take 4).length = 4 then return (← charOf? (cs.take 4), cs.drop 4) else none
  | 'U' :: cs => do
    if (cs.take 8).length = 8 then return (← charOf? (cs.take 8), cs.drop 8) else none
  | c :: cs => do return (← shortEscape? c, cs)
  | [] => none

/-- A string between double quotes, after the first. -/
def readBasic : Nat → List Char → Option (List Char × List Char)
  | 0, _ => none
  | _ + 1, [] => none
  | _ + 1, '"' :: cs => some ([], cs)
  | bound + 1, '\\' :: cs => do
    let (c, cs) ← readEscape cs
    let (rest, cs) ← readBasic bound cs
    return (c :: rest, cs)
  | bound + 1, c :: cs =>
    if isPlain c then do
      let (rest, cs) ← readBasic bound cs
      return (c :: rest, cs)
    else none

/-- A string between single quotes, after the first: nothing is escaped. -/
def readLiteral (cs : List Char) : Option (List Char × List Char) :=
  let content := cs.takeWhile fun c => c != '\x27' && isPlain c
  match cs.drop content.length with
  | '\x27' :: cs => some (content, cs)
  | _ => none

/-- The text that a joined line goes on with, after the backslash at its end. -/
def joinLine (cs : List Char) : Option (List Char) :=
  match skipSpaces cs with
  | '\n' :: cs => some (skipBlank cs)
  | '\r' :: '\n' :: cs => some (skipBlank cs)
  | _ => none

/-- A string over several lines, after its opening quotes.  A backslash at the end of a line joins
it to the next. -/
def skipLong (quote : Char) : Nat → List Char → Option (List Char)
  | 0, _ => none
  | bound + 1, cs =>
    match cs with
    | [] => none
    | '\\' :: cs =>
      if quote = '\x27' then skipLong quote bound cs
      else
        match joinLine cs with
        | some cs => skipLong quote bound cs
        | none => (readEscape cs).bind fun (_, cs) => skipLong quote bound cs
    | c :: d :: e :: cs =>
      if c = quote ∧ d = quote ∧ e = quote then
        -- up to two more quotes belong to the text
        match cs with
        | f :: g :: rest =>
          if f = quote ∧ g = quote then some rest else if f = quote then some (g :: rest)
            else some cs
        | [f] => if f = quote then some [] else some cs
        | [] => some []
      else if isPlain c ∨ c = '\n' ∨ (c = '\r' ∧ d = '\n') then skipLong quote bound (d :: e :: cs)
      else none
    | _ => none

/-! ## Keys -/

def isBare (c : Char) : Bool := c.isAlphanum || c == '_' || c == '-'

def readKeyPart (cs : List Char) : Option (String × List Char) :=
  match cs with
  | '"' :: cs => do
    let (content, cs) ← readBasic (cs.length + 1) cs
    return (String.ofList content, cs)
  | '\x27' :: cs => do
    let (content, cs) ← readLiteral cs
    return (String.ofList content, cs)
  | cs =>
    let content := cs.takeWhile isBare
    if content.isEmpty then none else some (String.ofList content, cs.drop content.length)

/-- Key parts with points between them, at most the given number of them. -/
def readKeyParts : Nat → List Char → Option (List String × List Char)
  | 0, _ => none
  | bound + 1, cs => do
    let (part, cs) ← readKeyPart (skipSpaces cs)
    match skipSpaces cs with
    | '.' :: cs =>
      let (parts, cs) ← readKeyParts bound cs
      return (part :: parts, cs)
    | cs => return ([part], cs)

/-- A key and the spaces around it. -/
def readKey (cs : List Char) : Option (List String × List Char) :=
  readKeyParts (depthLimit - 1) cs

/-! ## Numbers -/

/-- Digits of a base, with single underscores between them. -/
def isDigits (isDigit : Char → Bool) : List Char → Bool
  | [] => false
  | [c] => isDigit c
  | c :: '_' :: cs => isDigit c && isDigits isDigit cs
  | c :: cs => isDigit c && isDigits isDigit cs

def dropSign : List Char → List Char
  | '+' :: cs => cs
  | '-' :: cs => cs
  | cs => cs

/-- Decimal digits that do not start with a zero, or zero itself. -/
def isWhole (cs : List Char) : Bool :=
  isDigits Char.isDigit cs && (cs.length == 1 || cs.head? != some '0')

def natOf (base : Nat) (cs : List Char) : Nat :=
  cs.foldl (fun n c => match Text.hexDigit? c with
    | some d => base * n + d
    | none => n) 0

/-- Integers lie below this limit, and their negatives reach it. -/
def integerLimit : Nat := Nat.pow 2 63

/-- An integer, within the range of 64-bit integers. -/
def isInteger (cs : List Char) : Bool :=
  match cs with
  | '0' :: 'x' :: ds =>
    isDigits (fun c => (Text.hexDigit? c).isSome) ds && decide (natOf 16 ds < integerLimit)
  | '0' :: 'o' :: ds =>
    isDigits (fun c => '0' ≤ c && c ≤ '7') ds && decide (natOf 8 ds < integerLimit)
  | '0' :: 'b' :: ds =>
    isDigits (fun c => c == '0' || c == '1') ds && decide (natOf 2 ds < integerLimit)
  | '-' :: ds => isWhole ds && decide (natOf 10 ds ≤ integerLimit)
  | cs => isWhole (dropSign cs) && decide (natOf 10 (dropSign cs) < integerLimit)

/-- The words for infinity and for what is no number. -/
def isFloatWord (cs : List Char) : Bool :=
  dropSign cs == ['i', 'n', 'f'] || dropSign cs == ['n', 'a', 'n']

def isExponent : List Char → Bool
  | c :: ds => (c == 'e' || c == 'E') && isDigits Char.isDigit (dropSign ds)
  | [] => false

/-- Digits with a fraction or an exponent. -/
def isFractional (cs : List Char) : Bool :=
  let cs := dropSign cs
  let whole := cs.takeWhile fun c => c.isDigit || c == '_'
  isWhole whole &&
    match cs.drop whole.length with
    | '.' :: rest =>
      let fraction := rest.takeWhile fun c => c.isDigit || c == '_'
      let rest := rest.drop fraction.length
      isDigits Char.isDigit fraction && (rest.isEmpty || isExponent rest)
    | rest => isExponent rest

/-- Whether the floating-point number nearest to what is written is positive infinity. -/
def isTooLarge (cs : List Char) : Bool :=
  match Decimal.parse? (String.ofList (cs.filter (· != '_'))) with
  | some x => x.toBits == Decimal.infinity.toBits
  | none => false

/-- A floating-point number.  One written in digits is refused above the range of such numbers, but
not below it. -/
def isFloat (cs : List Char) : Bool := isFloatWord cs || (isFractional cs && !isTooLarge cs)

def isNumberChar (c : Char) : Bool := c.isAlphanum || c == '_' || c == '+' || c == '-' || c == '.'

def skipNumber (cs : List Char) : Option (List Char) :=
  let word := cs.takeWhile isNumberChar
  if isInteger word || isFloat word then some (cs.drop word.length) else none

/-! ## Values -/

mutual

/-- A value.  `depth` is the number of levels of arrays and inline tables it may have. -/
def readValue : Nat → Nat → List Char → Option (Node × List Char)
  | 0, _, _ => none
  | bound + 1, depth, cs =>
    match cs with
    | 't' :: 'r' :: 'u' :: 'e' :: cs => some (.flag true, cs)
    | 'f' :: 'a' :: 'l' :: 's' :: 'e' :: cs => some (.flag false, cs)
    | '"' :: '"' :: '"' :: cs => (skipLong '"' (cs.length + 1) cs).map (.other, ·)
    | '\x27' :: '\x27' :: '\x27' :: cs => (skipLong '\x27' (cs.length + 1) cs).map (.other, ·)
    | '"' :: cs => (readBasic (cs.length + 1) cs).map fun (_, cs) => (.other, cs)
    | '\x27' :: cs => (readLiteral cs).map fun (_, cs) => (.other, cs)
    | '[' :: cs => if depth = 0 then none else (skipItems bound (depth - 1) cs).map (.other, ·)
    | '\x7b' :: cs =>
      if depth = 0 then none
      else
        match skipSpaces cs with
        | '\x7d' :: cs => some (.other, cs)
        | cs => (skipPairs bound (depth - 1) [] cs).map (.other, ·)
    | cs => (skipNumber cs).map (.other, ·)

/-- The items of an array, after its opening bracket or after a comma. -/
def skipItems : Nat → Nat → List Char → Option (List Char)
  | 0, _, _ => none
  | bound + 1, depth, cs =>
    match skipLines (cs.length + 1) cs with
    | ']' :: cs => some cs
    | cs => do
      let (_, cs) ← readValue bound depth cs
      match skipLines (cs.length + 1) cs with
      | ',' :: cs => skipItems bound depth cs
      | ']' :: cs => some cs
      | _ => none

/-- The pairs of an inline table, after its opening brace or after a comma. -/
def skipPairs : Nat → Nat → Entries → List Char → Option (List Char)
  | 0, _, _, _ => none
  | bound + 1, depth, entries, cs => do
    let (path, cs) ← readKey cs
    match cs with
    | '=' :: cs =>
      let (value, cs) ← readValue bound depth (skipSpaces cs)
      let entries ← assign value path entries
      match skipSpaces cs with
      | ',' :: cs => skipPairs bound depth entries cs
      | '\x7d' :: cs => some cs
      | _ => none
    | _ => none

end

/-! ## Documents -/

/-- One statement. -/
def readStatement (cs : List Char) : Option (Statement × List Char) :=
  match cs with
  | '[' :: cs => do
    let (path, cs) ← readKey cs
    match cs with
    | ']' :: cs => return (.header path, cs)
    | _ => none
  | cs => do
    let (path, cs) ← readKey cs
    match cs with
    | '=' :: cs =>
      let (value, cs) ← readValue (2 * cs.length + 2) (depthLimit - 1) (skipSpaces cs)
      return (.assign path value, cs)
    | _ => none

/-- Statements, one on a line, with empty lines and comments between them. -/
def readStatements : Nat → List Char → Option (List Statement)
  | 0, _ => none
  | bound + 1, cs =>
    match skipSpaces (skipLines (cs.length + 1) cs) with
    | [] => some []
    | cs => do
      let (statement, cs) ← readStatement cs
      let cs ← endLine cs
      return statement :: (← readStatements bound cs)

/-- Skips a byte order mark at the start of a text. -/
def skipMark : List Char → List Char
  | '\ufeff' :: cs => cs
  | cs => cs

/-- The entries of the root table. -/
def parse? (text : String) : Option Entries := do
  let statements ← readStatements (text.length + 1) (skipMark text.toList)
  build [] [] statements

end BlockGraph.Document
