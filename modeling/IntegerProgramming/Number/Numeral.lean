import IntegerProgramming.Number.Decimal

/-! # Numerals

    A numeral is a number as it is spelled: a sign, the digits before and after
    the point, and an exponent.  Which double it becomes is up to its reader;
    the plain one takes the nearest. -/

namespace IntegerProgramming

structure Numeral where
  negative : Bool
  /-- The digits before the point. -/
  whole : List Char
  /-- The digits after the point. -/
  fraction : List Char
  exponent : Int
  deriving DecidableEq

namespace Numeral

/-! ## Digits -/

def digitValue (c : Char) : Nat := c.toNat - '0'.toNat

/-- The whole number that a list of digits spells. -/
def ofDigits (cs : List Char) : Nat := cs.foldl (fun n c => 10 * n + digitValue c) 0

/-- Splits the leading digits off. -/
def digits (cs : List Char) : List Char × List Char := cs.span Char.isDigit

/-! ## The written form -/

/-- Whether there is a minus sign, and what follows the optional sign. -/
def sign : List Char → Bool × List Char
  | '-' :: rest => (true, rest)
  | '+' :: rest => (false, rest)
  | cs => (false, cs)

/-- An exponent that spans the characters: a mark, an optional sign and at
    least one digit.  Nothing at all stands for zero. -/
def exponent? : List Char → Option Int
  | [] => some 0
  | mark :: cs =>
    let (negative, cs) := sign cs
    if (mark ≠ 'e' ∧ mark ≠ 'E') ∨ cs.isEmpty ∨ !cs.all Char.isDigit then none
    else some (if negative then -(ofDigits cs : Int) else ofDigits cs)

/-- Digits with an optional point and fraction and an optional exponent; there
    is a digit before or after the point. -/
def unsigned? (negative : Bool) (cs : List Char) : Option Numeral :=
  let (whole, rest) := digits cs
  let (fraction, rest) := match rest with
    | '.' :: rest => digits rest
    | _ => ([], rest)
  if whole.isEmpty && fraction.isEmpty then none
  else (exponent? rest).map fun exponent => ⟨negative, whole, fraction, exponent⟩

/-- The numeral with an optional sign that spans the text. -/
def ofText? (text : String) : Option Numeral :=
  let (negative, cs) := sign text.toList
  unsigned? negative cs

/-! ## Its value -/

/-- The exact value. -/
def decimal (n : Numeral) : Decimal :=
  ⟨n.negative, ofDigits (n.whole ++ n.fraction), n.exponent - n.fraction.length⟩

/-- The nearest double. -/
def nearest (n : Numeral) : Float := n.decimal.toFloat

/-- The nearest double to the numeral that a text is, or one of the words for
    infinity and the undefined number in any case. -/
def float? (text : String) : Option Float :=
  let (negative, cs) := sign text.toList
  let word := String.ofList (cs.map Char.toLower)
  if word = "inf" ∨ word = "infinity" then
    some (if negative then -1.0 / 0.0 else 1.0 / 0.0)
  else if word = "nan" then some (0.0 / 0.0)
  else (unsigned? negative cs).map nearest

/-- A count below the bound, spelled by digits after an optional plus sign. -/
def count? (bound : Nat) (text : String) : Option Nat :=
  let cs := match text.toList with
    | '+' :: rest => rest
    | cs => cs
  if cs.isEmpty || !cs.all Char.isDigit then none
  else if ofDigits cs < bound then some (ofDigits cs) else none

end Numeral

end IntegerProgramming
