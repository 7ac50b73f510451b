import BlockGraph.Json.Reader
import BlockGraph.Proofs.Dict
import Mathlib.Data.List.TakeWhile
import Mathlib.Tactic.SplitIfs

/-!
# The text of a JSON value

Printing a value and reading the text gives the value back.  Reading goes in two steps, and so does
the proof.  `Json.raw` is the shape that the text of a value has: `RawJson.parse?_text` says that
the reader finds it in the text, and `Json.value?_raw` that its value is the value printed.

A numeral ends where the next character cannot belong to it, so reading one back depends on what
follows.  In a text that is a comma, a closing bracket or nothing (`RawJson.Stops`).  Whether the
decimal digits of a floating-point number lead back to the number is a matter of rounding and is
asked of each number by itself (`Json.Restored`).
-/

namespace BlockGraph

variable {c d : Char} {x : Float} {j : Json} {cs rest tail : List Char} {bound n : Nat} {s : String}

namespace RawJson

/-- What may stand after a value in a text. -/
inductive Stops : List Char → Prop
  | nil : Stops []
  | comma {cs : List Char} : Stops (',' :: cs)
  | bracket {cs : List Char} : Stops (']' :: cs)
  | brace {cs : List Char} : Stops ('\x7d' :: cs)

/-! ## Numerals -/

theorem digits_append (ht : Stops tail) :
    digits (cs ++ tail) = ((digits cs).1, (digits cs).2 ++ tail) := by
  induction cs with
  | nil => cases ht <;> rfl
  | cons c cs ih =>
    cases hc : c.isDigit with
    | true =>
      simp only [digits, Prod.mk.injEq] at ih
      simp only [digits, List.cons_append, List.takeWhile_cons, List.dropWhile_cons, hc, if_true,
        List.map_cons, ih]
    | false => simp [digits, hc]

theorem readWhole_append (ht : Stops tail) :
    readWhole (cs ++ tail) = (readWhole cs).map (Prod.map id (· ++ tail)) := by
  rw [readWhole, digits_append ht, readWhole]
  rcases digits cs with ⟨_ | ⟨_ | d, _ | ⟨d', ds⟩⟩, rest⟩ <;> rfl

theorem readFraction_append (ht : Stops tail) :
    readFraction (cs ++ tail) = (readFraction cs).map (Prod.map id (· ++ tail)) := by
  cases cs with
  | nil => cases ht <;> rfl
  | cons c cs =>
    by_cases hc : c = '.'
    · subst hc
      rw [List.cons_append, readFraction, digits_append ht, readFraction]
      rcases digits cs with ⟨_ | ⟨d, ds⟩, rest⟩ <;> rfl
    · simp [readFraction, hc]

theorem readSign_append (ht : Stops tail) :
    readSign (cs ++ tail) = ((readSign cs).1, (readSign cs).2 ++ tail) := by
  cases cs with
  | nil => cases ht <;> rfl
  | cons c cs =>
    by_cases hminus : c = '-'
    · subst hminus
      rfl
    · by_cases hplus : c = '+'
      · subst hplus
        rfl
      · simp [readSign, hminus, hplus]

theorem readExponent_append (ht : Stops tail) :
    readExponent (cs ++ tail) = (readExponent cs).map (Prod.map id (· ++ tail)) := by
  cases cs with
  | nil => cases ht <;> rfl
  | cons c cs =>
    rw [List.cons_append, readExponent, readSign_append ht, digits_append ht, readExponent]
    split
    · rcases digits (readSign cs).2 with ⟨_ | ⟨d, ds⟩, rest⟩ <;> rfl
    · rfl

/-- The parts of a numeral after its sign. -/
def readParts (negative : Bool) (cs : List Char) : Option (Numeral × List Char) :=
  (readWhole cs).bind fun whole => (readFraction whole.2).bind fun fraction =>
    (readExponent fraction.2).bind fun exponent =>
      some (⟨negative, whole.1, fraction.1, exponent.1⟩, exponent.2)

theorem readParts_append (ht : Stops tail) (negative : Bool) :
    readParts negative (cs ++ tail) = (readParts negative cs).map (Prod.map id (· ++ tail)) := by
  unfold readParts
  rw [readWhole_append ht]
  rcases readWhole cs with _ | ⟨whole, cs⟩
  · rfl
  · simp only [Option.map_some, Option.bind_some, Prod.map, id, readFraction_append ht]
    rcases readFraction cs with _ | ⟨fraction, cs⟩
    · rfl
    · simp only [Option.map_some, Option.bind_some, Prod.map, id, readExponent_append ht]
      cases readExponent cs <;> rfl

theorem readNumeral_append (ht : Stops tail) :
    readNumeral (cs ++ tail) = (readNumeral cs).map (Prod.map id (· ++ tail)) := by
  cases cs with
  | nil => cases ht <;> rfl
  | cons c cs =>
    by_cases hc : c = '-'
    · subst hc
      exact readParts_append ht true
    · have hunsigned : ∀ cs : List Char, readNumeral (c :: cs) = readParts false (c :: cs) :=
          fun cs => by
        simp [readNumeral, hc, readParts]
      rw [List.cons_append, hunsigned, ← List.cons_append, readParts_append ht, hunsigned]

/-- A numeral starts with a digit or with the sign. -/
theorem exists_cons_of_readNumeral {n : Numeral} (h : readNumeral cs = some (n, rest)) :
    ∃ c cs', cs = c :: cs' ∧ isBlank c = false ∧ (c = '-' ∨ c.isDigit = true) := by
  cases cs with
  | nil => cases h
  | cons c cs =>
    have hc : c = '-' ∨ c.isDigit = true := by
      by_contra hc
      obtain ⟨hsign, hdigit⟩ := not_or.1 hc
      simp [readNumeral, hsign, readWhole, digits, hdigit] at h
    refine ⟨c, cs, rfl, ?_, hc⟩
    by_contra hblank
    simp only [isBlank, Bool.not_eq_false, Bool.or_eq_true, beq_iff_eq] at hblank
    obtain ((rfl | rfl) | rfl) | rfl := hblank <;> simp at hc

/-! ### Decimal numerals of integers -/

/-- The digits of a number, most significant first. -/
def decimalDigits (n : Nat) : List Nat := (Nat.toDigits 10 n).map fun c => c.toNat - '0'.toNat

theorem isDigit_of_mem_toDigits (hc : c ∈ Nat.toDigits 10 n) : c.isDigit = true :=
  Nat.isDigit_of_mem_toDigits (by decide) (by decide) hc

theorem natOf_decimalDigits (n : Nat) : Numeral.natOf (decimalDigits n) = n := by
  rw [Numeral.natOf, decimalDigits, List.foldl_map]
  exact Nat.ofDigitChars_eq_foldl.symm.trans Nat.ofDigitChars_ten_toDigits

/-- Only zero starts with a zero. -/
theorem head?_decimalDigits (hn : 0 < n) : (decimalDigits n).head? ≠ some 0 := by
  induction n using Nat.strong_induction_on with
  | h n ih =>
    rw [decimalDigits, Nat.toDigits_eq_if (by decide)]
    split
    next hlt =>
      have hdigit : ∀ m < 10, 0 < m → [m.digitChar.toNat - '0'.toNat].head? ≠ some 0 := by decide
      exact hdigit n hlt hn
    next hge =>
      have hhead := ih (n / 10) (by omega) (by omega)
      cases hdigits : Nat.toDigits 10 (n / 10) with
      | nil => exact absurd hdigits Nat.toDigits_ne_nil
      | cons c cs => simpa [decimalDigits, hdigits] using hhead

theorem readWhole_toDigits (n : Nat) :
    readWhole (Nat.toDigits 10 n) = some (decimalDigits n, []) := by
  have hdigits : digits (Nat.toDigits 10 n) = (decimalDigits n, []) := by
    rw [digits, List.takeWhile_eq_self_iff.2 fun c => isDigit_of_mem_toDigits,
      List.dropWhile_eq_nil_iff.2 fun c => isDigit_of_mem_toDigits, decimalDigits]
  have hne : decimalDigits n ≠ [] := by simp [decimalDigits, Nat.toDigits_ne_nil]
  rw [readWhole, hdigits]
  rcases Nat.eq_zero_or_pos n with rfl | hn
  · rfl
  · have hhead := head?_decimalDigits hn
    rcases hds : decimalDigits n with _ | ⟨_ | d, ds⟩
    · exact absurd hds hne
    · exact absurd (by rw [hds]; rfl) hhead
    · rfl

/-- The numeral of an integer. -/
def numeralOf (n : Int) : Numeral := ⟨decide (n < 0), decimalDigits n.natAbs, [], none⟩

theorem readNumeral_toString (n : Int) :
    readNumeral (toString n).toList = some (numeralOf n, []) := by
  cases n with
  | ofNat n =>
    have htext : (toString (Int.ofNat n)).toList = Nat.toDigits 10 n := Nat.toList_repr
    rw [htext, readNumeral]
    · simp [readWhole_toDigits, readFraction, readExponent, numeralOf]
    · intro cs heq
      have hsign : ('-' : Char).isDigit = true := isDigit_of_mem_toDigits (heq ▸ List.mem_cons_self)
      cases hsign
  | negSucc n =>
    have htext : toString (Int.negSucc n) = "-" ++ (n + 1).repr := rfl
    rw [htext, String.toList_append, Nat.toList_repr]
    simp [readNumeral, readWhole_toDigits, readFraction, readExponent, numeralOf]

/-- Integers of 64 bits keep their value. -/
theorem value?_numeralOf {n : Int} (hlow : -(Nat.pow 2 63 : Nat) ≤ n) (hhigh : n < Nat.pow 2 64) :
    (numeralOf n).value? = some (.int n) := by
  simp only [Numeral.value?, numeralOf, natOf_decimalDigits, List.isEmpty_nil, Option.isNone_none,
    true_and, decide_eq_true_eq, Int.not_lt]
  rcases lt_or_ge n 0 with hn | hn
  · rw [if_neg (by omega), if_pos (by omega), Int.ofNat_natAbs_of_nonpos hn.le, Int.neg_neg]
  · rw [if_pos (by omega), Int.natAbs_of_nonneg hn]

/-! ## Strings -/

/-- The piece that stands for a character in a printed text: controls without a name of their own
are written by their number. -/
def pieceOf (c : Char) : Piece :=
  if c.toNat < 32 ∧ c.toNat ∉ [8, 9, 10, 12, 13] then .unit c.toNat else .char c

theorem readPieces_short (hc : c ≠ 'u') (hd : shortEscape? c = some d) (cs : List Char) :
    readPieces ('\\' :: c :: cs) = (readPieces cs).map fun p => (.char d :: p.1, p.2) := by
  rw [readPieces]
  · rw [hd]
    cases readPieces cs <;> rfl
  · rintro a b c' d' cs' hu -
    exact hc hu

theorem readPieces_unit {a b : Char} (hn : hexUnit? a b c d = some n) (cs : List Char) :
    readPieces ('\\' :: 'u' :: a :: b :: c :: d :: cs) =
      (readPieces cs).map fun p => (.unit n :: p.1, p.2) := by
  rw [readPieces, hn]
  cases readPieces cs <;> rfl

theorem readPieces_plain (hquote : c ≠ '"') (hescape : c ≠ '\\') (hc : 32 ≤ c.toNat)
    (cs : List Char) :
    readPieces (c :: cs) = (readPieces cs).map fun p => (.char c :: p.1, p.2) := by
  rw [readPieces]
  · rw [if_neg hc.not_gt]
    cases readPieces cs <;> rfl
  all_goals grind

theorem readPieces_escapedChar (c : Char) (cs : List Char) :
    readPieces (Json.escapedChar c ++ cs) = (readPieces cs).map fun p =>
    (pieceOf c :: p.1, p.2) := by
  have hchar : ∀ {n}, c.toNat = n → c = Char.ofNat n := fun h => h ▸ (Char.ofNat_toNat c).symm
  unfold Json.escapedChar
  split_ifs with hquote hescape hnewline hreturn htab hback hform hcontrol
  · subst hquote
    exact readPieces_short (by decide) rfl cs
  · subst hescape
    exact readPieces_short (by decide) rfl cs
  · subst hnewline
    exact readPieces_short (by decide) rfl cs
  · subst hreturn
    exact readPieces_short (by decide) rfl cs
  · subst htab
    exact readPieces_short (by decide) rfl cs
  · obtain rfl := hchar hback
    exact readPieces_short (by decide) rfl cs
  · obtain rfl := hchar hform
    exact readPieces_short (by decide) rfl cs
  · have hcode : ∀ n < 32, hexUnit? '0' '0' (Nat.digitChar (n / 16)) (Nat.digitChar (n % 16)) =
        some n := by
      decide
    have hpiece : pieceOf c = .unit c.toNat := by
      refine if_pos ⟨hcontrol, ?_⟩
      rintro h
      simp only [List.mem_cons, List.not_mem_nil, or_false] at h
      obtain h | h | h | h | h := h
      · exact hback h
      · exact htab (hchar h)
      · exact hnewline (hchar h)
      · exact hform h
      · exact hreturn (hchar h)
    rw [hpiece]
    exact readPieces_unit (hcode _ hcontrol) cs
  · have hpiece : pieceOf c = .char c := if_neg fun h => hcontrol h.1
    rw [hpiece]
    exact readPieces_plain hquote hescape (Nat.not_lt.1 hcontrol) cs

theorem readPieces_flatMap (s tail : List Char) :
    readPieces (s.flatMap Json.escapedChar ++ '"' :: tail) = some (s.map pieceOf, tail) := by
  induction s with
  | nil => rfl
  | cons c s ih =>
    rw [List.flatMap_cons, List.append_assoc, readPieces_escapedChar, ih]
    rfl

/-- The pieces of a printed string. -/
def piecesOf (s : String) : List Piece := s.toList.map pieceOf

theorem assemble_unit (hlow : Piece.isLow n = false) (hhigh : Piece.isHigh n = false)
    (pieces : List Piece) :
    Piece.assemble (.unit n :: pieces) = (Piece.assemble pieces).map (Char.ofNat n :: ·) := by
  rw [Piece.assemble.eq_def]
  simp [hlow, hhigh]

theorem assemble_map_pieceOf (s : List Char) : Piece.assemble (s.map pieceOf) = some s := by
  induction s with
  | nil => rfl
  | cons c s ih =>
    rw [List.map_cons, pieceOf]
    split
    next hc =>
      have hlow : Piece.isLow c.toNat = false := by
        simp [Piece.isLow]
        omega
      have hhigh : Piece.isHigh c.toNat = false := by
        simp [Piece.isHigh]
        omega
      rw [assemble_unit hlow hhigh, ih, Option.map_some, Char.ofNat_toNat]
    next => simp [Piece.assemble, ih]

@[simp] theorem text?_piecesOf (s : String) : Piece.text? (piecesOf s) = some s := by
  simp [Piece.text?, piecesOf, assemble_map_pieceOf]

end RawJson

/-! ## Floating-point numbers -/

/-- The exponent of a finite number has a bit that is not set. -/
theorem Decimal.exponent_of_isFinite (h : x.isFinite = true) :
    x.toBits.toNat / Nat.pow 2 52 % Nat.pow 2 11 ≠ 2047 := by
  intro hset
  have hfield : @Float.Model.UnpackedFloat.unpackExponent .binary64 x.toModel.toBits.toBitVec =
      -1#11 := by
    apply BitVec.eq_of_toNat_eq
    simp only [Float.Model.UnpackedFloat.unpackExponent, BitVec.toNat_cast, BitVec.extractLsb_toNat,
      Nat.shiftRight_eq_div_pow]
    exact hset
  have hunpack : x.toModel.unpack = ite _ _ _ := if_pos hfield
  have hfinite : x.toModel.unpack.isFinite = true := h
  rw [hunpack] at hfinite
  split at hfinite <;> cases hfinite

/-- A finite number is written as it is. -/
theorem Json.ofFloat_of_isFinite (h : x.isFinite = true) : Json.ofFloat x = .float x := by
  unfold Json.ofFloat Decimal.classify
  simp only [Decimal.exponent_of_isFinite h, if_false]
  by_cases hzero : x.toBits.toNat / Nat.pow 2 52 % Nat.pow 2 11 = 0
  · rw [if_pos hzero]
  · rw [if_neg hzero]

namespace Json

open RawJson

/-- A number that the numeral it is written as stands for. -/
def Restored (x : Float) : Prop :=
  ∃ n, readNumeral (Decimal.json x).toList = some (n, []) ∧ n.value? = some (.float x)

/-- Whether a value is this very number, bit by bit. -/
def isFloat (x : Float) : Json → Bool
  | float y => y = x
  | _ => false

theorem isFloat_iff : j.isFloat x = true ↔ j = .float x := by
  cases j <;> simp [isFloat]

instance : DecidablePred Restored := fun x =>
  decidable_of_iff ((readNumeral (Decimal.json x).toList).any
      (fun p => p.2.isEmpty && p.1.value?.any (isFloat x)) = true) <| by
    simp [Restored, Option.any_eq_true, isFloat_iff]

/-- The numeral that a number is written as. -/
def floatNumeral (x : Float) : Numeral :=
  ((readNumeral (Decimal.json x).toList).map Prod.fst).getD default

theorem Restored.numeral (hx : Restored x) :
    readNumeral (Decimal.json x).toList = some (floatNumeral x, []) ∧
      (floatNumeral x).value? = some (.float x) := by
  obtain ⟨n, hn, hvalue⟩ := hx
  have heq : floatNumeral x = n := by rw [floatNumeral, hn]; rfl
  exact heq ▸ ⟨hn, hvalue⟩

/-! ## The shape of a printed value -/

mutual

/-- The floating-point numbers in a value. -/
def floats : Json → List Float
  | float x => [x]
  | arr items => itemFloats items
  | obj members => memberFloats members
  | _ => []

def itemFloats : List Json → List Float
  | [] => []
  | a :: as => a.floats ++ itemFloats as

def memberFloats : List (String × Json) → List Float
  | [] => []
  | (_, v) :: ms => v.floats ++ memberFloats ms

end

mutual

/-- How deep arrays and objects nest in a value. -/
def depth : Json → Nat
  | arr items => itemDepth items + 1
  | obj members => memberDepth members + 1
  | _ => 0

def itemDepth : List Json → Nat
  | [] => 0
  | a :: as => max a.depth (itemDepth as)

def memberDepth : List (String × Json) → Nat
  | [] => 0
  | (_, v) :: ms => max v.depth (memberDepth ms)

end

mutual

def raw : Json → RawJson
  | null => .null
  | bool b => .bool b
  | int n => .number (numeralOf n)
  | float x => .number (floatNumeral x)
  | str s => .str (piecesOf s)
  | arr items => .arr (rawItems items)
  | obj members => .obj (rawMembers members)

def rawItems : List Json → List RawJson
  | [] => []
  | a :: as => a.raw :: rawItems as

def rawMembers : List (String × Json) → List (List Piece × RawJson)
  | [] => []
  | (k, v) :: ms => (piecesOf k, v.raw) :: rawMembers ms

end

end Json

namespace RawJson

open Json

theorem skipBlanks_cons (hc : isBlank c = false) (cs : List Char) :
    skipBlanks (c :: cs) = c :: cs := by
  simp [skipBlanks, hc]

theorem readValue_numeral {n : Numeral} (h : readNumeral cs = some (n, [])) (ht : Stops tail)
    (bound : Nat) :
    readValue (bound + 1) (cs ++ tail) = some (.number n, tail) := by
  have happend := (readNumeral_append ht).trans (congrArg _ h)
  obtain ⟨c, cs, rfl, hblank, hc⟩ := exists_cons_of_readNumeral h
  rw [List.cons_append] at happend ⊢
  rw [readValue, skipBlanks_cons hblank]
  split
  iterate 6 next heq =>
    obtain rfl := (List.cons.inj heq).1
    simp at hc
  next => simp [happend]

/-- A printed value starts with a character that neither is blank nor closes an array. -/
theorem exists_cons_chars (j : Json) (hj : ∀ x ∈ j.floats, Restored x) :
    ∃ c cs, j.chars = c :: cs ∧ isBlank c = false ∧ c ≠ ']' := by
  have hnumeral : ∀ {cs n}, readNumeral cs = some (n, []) → ∃ c cs', cs = c :: cs' ∧
      isBlank c = false ∧ c ≠ ']' := by
    intro cs n h
    obtain ⟨c, cs, rfl, hblank, hc⟩ := exists_cons_of_readNumeral h
    refine ⟨c, cs, rfl, hblank, ?_⟩
    rintro rfl
    simp at hc
  cases j with
  | null => exact ⟨_, _, rfl, by decide⟩
  | bool b => cases b <;> exact ⟨_, _, rfl, by decide⟩
  | int n => exact hnumeral (readNumeral_toString n)
  | float x => exact hnumeral (hj x (by simp [floats])).numeral.1
  | str s => exact ⟨_, _, rfl, by decide⟩
  | arr items => cases items <;> exact ⟨_, _, rfl, by decide⟩
  | obj members => rcases members with _ | ⟨⟨k, v⟩, ms⟩ <;> exact ⟨_, _, rfl, by decide⟩

theorem readKey_stringChars (k : String) (tail : List Char) :
    readKey (stringChars k ++ ':' :: tail) = some (piecesOf k, tail) := by
  have h := readPieces_flatMap k.toList (':' :: tail)
  have hchars : stringChars k ++ ':' :: tail =
      '"' :: (k.toList.flatMap escapedChar ++ '"' :: ':' :: tail) := by
    simp [stringChars]
  rw [hchars, readKey, skipBlanks_cons (by decide)]
  simp only [h]
  rfl

theorem readValue_array (hblank : isBlank c = false) (hclose : c ≠ ']') (cs : List Char) :
    readValue (bound + 1) ('[' :: c :: cs) = (readItems bound (c :: cs)).map fun p =>
    (.arr p.1, p.2) := by
  have hskip : skipBlanks ('[' :: c :: cs) = '[' :: c :: cs := skipBlanks_cons (by decide) _
  simp only [readValue, hskip, skipBlanks_cons hblank]
  split
  next heq => exact absurd (List.cons.inj heq).1 hclose
  next => cases readItems bound (c :: cs) <;> rfl

theorem readValue_object (hblank : isBlank c = false) (hclose : c ≠ '\x7d') (cs : List Char) :
    readValue (bound + 1) ('\x7b' :: c :: cs) =
      (readMembers bound (c :: cs)).map fun p => (.obj p.1, p.2) := by
  have hskip : skipBlanks ('\x7b' :: c :: cs) = '\x7b' :: c :: cs := skipBlanks_cons (by decide) _
  simp only [readValue, hskip, skipBlanks_cons hblank]
  split
  next heq => exact absurd (List.cons.inj heq).1 hclose
  next => cases readMembers bound (c :: cs) <;> rfl

/-- Within this bound every printed value, item list and member list is read and left behind. -/
structure ReadsBack (bound : Nat) : Prop where
  value : ∀ {j : Json} {tail}, (∀ x ∈ j.floats, Restored x) → 2 * j.chars.length ≤ bound →
    Stops tail → readValue bound (j.chars ++ tail) = some (j.raw, tail)
  items : ∀ {a : Json} {as tail}, (∀ x ∈ itemFloats (a :: as), Restored x) →
    2 * (a.chars.length + (itemsChars as).length) + 1 ≤ bound →
    readItems bound (a.chars ++ (itemsChars as ++ ']' :: tail)) = some (rawItems (a :: as), tail)
  members : ∀ {k} {v : Json} {ms tail}, (∀ x ∈ memberFloats ((k, v) :: ms), Restored x) →
    2 * (v.chars.length + (membersChars ms).length) + 1 ≤ bound →
    readMembers bound (stringChars k ++ ':' :: (v.chars ++ (membersChars ms ++ '\x7d' :: tail))) =
      some (rawMembers ((k, v) :: ms), tail)

namespace ReadsBack

variable {bound : Nat} {tail : List Char}

theorem value_succ (h : ReadsBack bound) (hj : ∀ x ∈ j.floats, Restored x)
    (hbound : 2 * j.chars.length ≤ bound + 1) (ht : Stops tail) :
    readValue (bound + 1) (j.chars ++ tail) = some (j.raw, tail) := by
  cases j with
  | null => rfl
  | bool b => cases b <;> rfl
  | int n => exact readValue_numeral (readNumeral_toString n) ht bound
  | float x => exact readValue_numeral (hj x (by simp [floats])).numeral.1 ht bound
  | str s =>
    have hpieces := readPieces_flatMap s.toList tail
    simp [chars, stringChars, readValue, skipBlanks_cons, isBlank, hpieces, raw, piecesOf]
  | arr items =>
    cases items with
    | nil => rfl
    | cons a as =>
      simp only [floats] at hj
      simp only [chars, List.cons_append, List.length_cons, List.length_append,
        List.length_nil] at hbound
      have hitems : readItems bound (a.chars ++ (itemsChars as ++ ']' :: tail)) = _ :=
        h.items hj (by omega)
      obtain ⟨c, cs, hcs, hblank, hclose⟩ := exists_cons_chars a fun x hx =>
        hj x (by simp [itemFloats, hx])
      rw [hcs] at hitems
      simp only [chars, List.cons_append, List.append_assoc, hcs, List.nil_append] at hitems ⊢
      rw [readValue_array hblank hclose, hitems]
      rfl
  | obj members =>
    rcases members with _ | ⟨⟨k, v⟩, ms⟩
    · rfl
    · simp only [floats] at hj
      simp only [chars, List.cons_append, List.length_cons, List.length_append,
        List.length_nil] at hbound
      have hmembers : readMembers bound
          (stringChars k ++ ':' :: (v.chars ++ (membersChars ms ++ '\x7d' :: tail))) = _ :=
        h.members hj (by omega)
      simp only [stringChars, chars, List.cons_append, List.append_assoc,
        List.nil_append] at hmembers ⊢
      rw [readValue_object (by decide) (by decide), hmembers]
      rfl

theorem items_succ (h : ReadsBack bound) {a : Json} {as : List Json}
    (ha : ∀ x ∈ itemFloats (a :: as), Restored x)
    (hbound : 2 * (a.chars.length + (itemsChars as).length) + 1 ≤ bound + 1) :
    readItems (bound + 1) (a.chars ++ (itemsChars as ++ ']' :: tail)) = some (rawItems (a :: as),
      tail) := by
  simp only [itemFloats, List.forall_mem_append] at ha
  cases as with
  | nil =>
    have hvalue := h.value ha.1 (by omega) (.bracket : Stops (']' :: tail))
    simp [readItems, itemsChars, hvalue, rawItems, skipBlanks_cons, isBlank]
  | cons b bs =>
    simp only [itemsChars, List.cons_append, List.length_cons, List.length_append] at hbound
    have hvalue := h.value ha.1 (by omega)
      (.comma : Stops (',' :: (b.chars ++ (itemsChars bs ++ ']' :: tail))))
    have hitems : readItems bound (b.chars ++ (itemsChars bs ++ ']' :: tail)) = _ :=
      h.items ha.2 (by omega)
    simp [readItems, itemsChars, hvalue, hitems, rawItems, skipBlanks_cons, isBlank]

theorem members_succ (h : ReadsBack bound) {k : String} {v : Json} {ms : List (String × Json)}
    (hv : ∀ x ∈ memberFloats ((k, v) :: ms), Restored x)
    (hbound : 2 * (v.chars.length + (membersChars ms).length) + 1 ≤ bound + 1) :
    readMembers (bound + 1)
      (stringChars k ++ ':' :: (v.chars ++ (membersChars ms ++ '\x7d' :: tail))) =
        some (rawMembers ((k, v) :: ms), tail) := by
  simp only [memberFloats, List.forall_mem_append] at hv
  rcases ms with _ | ⟨⟨l, u⟩, ms⟩
  · have hvalue := h.value hv.1 (by omega) (.brace : Stops ('\x7d' :: tail))
    simp [readMembers, readKey_stringChars, membersChars, hvalue, rawMembers,
      skipBlanks_cons, isBlank]
  · simp only [membersChars, List.cons_append, List.length_cons, List.length_append] at hbound
    have hstops :
      Stops (',' :: (stringChars l ++ ':' :: (u.chars ++ (membersChars ms ++ '\x7d' :: tail)))) :=
      .comma
    have hvalue := h.value hv.1 (by omega) hstops
    have hmembers : readMembers bound
        (stringChars l ++ ':' :: (u.chars ++ (membersChars ms ++ '\x7d' :: tail))) = _ :=
      h.members hv.2 (by omega)
    simp [readMembers, readKey_stringChars, membersChars, hvalue, hmembers, rawMembers,
      skipBlanks_cons, isBlank]

end ReadsBack

theorem readsBack (bound : Nat) : ReadsBack bound := by
  induction bound with
  | zero =>
    refine ⟨fun hj hbound _ => ?_, fun _ hbound => absurd hbound (by omega),
      fun _ hbound => absurd hbound (by omega)⟩
    obtain ⟨c, cs, hcs, -⟩ := exists_cons_chars _ hj
    simp [hcs] at hbound
  | succ bound ih => exact ⟨ih.value_succ, ih.items_succ, ih.members_succ⟩

theorem parse?_text (hj : ∀ x ∈ j.floats, Restored x) : parse? j.text = some j.raw := by
  have h := (readsBack (2 * j.chars.length + 2)).value hj (by omega) .nil
  rw [List.append_nil] at h
  simp only [parse?, text, String.toList_ofList, h]
  rfl

end RawJson

/-! ## Values -/

namespace Json

open RawJson

mutual

/-- A value with integers of 64 bits and with objects in the order of their keys. -/
def Regular : Json → Prop
  | int n => -(Nat.pow 2 63 : Nat) ≤ n ∧ n < Nat.pow 2 64
  | arr items => ItemsRegular items
  | obj members => Dict.Sorted members ∧ MembersRegular members
  | _ => True

def ItemsRegular : List Json → Prop
  | [] => True
  | a :: as => a.Regular ∧ ItemsRegular as

def MembersRegular : List (String × Json) → Prop
  | [] => True
  | (_, v) :: ms => v.Regular ∧ MembersRegular ms

end

mutual

theorem value?_raw (j : Json) (hj : j.Regular) (hfloats : ∀ x ∈ j.floats, Restored x) {d : Nat}
    (hd : j.depth ≤ d) : j.raw.value? d = some j := by
  match j with
  | .null => rfl
  | .bool b => rfl
  | .int n => exact value?_numeralOf hj.1 hj.2
  | .float x => exact (hfloats x (by simp [floats])).numeral.2
  | .str s => simp [raw, RawJson.value?]
  | .arr items =>
    simp only [Regular, floats, depth] at hj hfloats hd
    have hitems := itemValues?_rawItems items hj hfloats (Nat.le_sub_one_of_lt hd)
    simp [raw, RawJson.value?, hitems, Nat.ne_of_gt (Nat.zero_lt_of_lt hd)]
  | .obj members =>
    simp only [Regular, floats, depth] at hj hfloats hd
    have hmembers := memberValues?_rawMembers members hj.2 hfloats (Nat.le_sub_one_of_lt hd)
    simp [raw, RawJson.value?, hmembers, Nat.ne_of_gt (Nat.zero_lt_of_lt hd),
      Dict.ofList_eq_self hj.1]

theorem itemValues?_rawItems (items : List Json) (hitems : ItemsRegular items)
    (hfloats : ∀ x ∈ itemFloats items, Restored x) {d : Nat} (hd : itemDepth items ≤ d) :
    itemValues? d (rawItems items) = some items := by
  match items with
  | [] => rfl
  | a :: as =>
    simp only [ItemsRegular, itemFloats, itemDepth, List.forall_mem_append,
      Nat.max_le] at hitems hfloats hd
    simp [rawItems, itemValues?, value?_raw a hitems.1 hfloats.1 hd.1,
      itemValues?_rawItems as hitems.2 hfloats.2 hd.2]

theorem memberValues?_rawMembers (members : List (String × Json))
    (hmembers : MembersRegular members) (hfloats : ∀ x ∈ memberFloats members, Restored x) {d : Nat}
    (hd : memberDepth members ≤ d) :
    memberValues? d (rawMembers members) = some members := by
  match members with
  | [] => rfl
  | (k, v) :: ms =>
    simp only [MembersRegular, memberFloats, memberDepth, List.forall_mem_append, Nat.max_le]
      at hmembers hfloats hd
    simp [rawMembers, memberValues?, value?_raw v hmembers.1 hfloats.1 hd.1,
      memberValues?_rawMembers ms hmembers.2 hfloats.2 hd.2]

end

end Json

end BlockGraph
