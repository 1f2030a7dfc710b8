import IntegerProgramming.Number.Shortest

/-! # Layouts of numbers

    How the shortest decimal of a double is laid out as text, and how a double
    is written with a fixed number of places.  A layout is a record of
    decisions; the formats of the program are three such records. -/

namespace IntegerProgramming

/-- The decisions behind a format for numbers. -/
structure Layout where
  /-- The range of decimal points written positionally: `0.001` has its point
      two places before its first digit, at -2, and `100.0` has it at 3.
      Without a range every number is written positionally. -/
  positional : Option (Int × Int)
  /-- Whether a whole number written positionally ends in `.0`. -/
  keepsFraction : Bool
  /-- Whether a positive exponent carries a plus sign. -/
  plusSign : Bool
  /-- Which of two equally near shortest decimals is written. -/
  tie : Shortest.Tie

namespace Layout

/-- Numbers in messages and names: never an exponent, and no fraction for a
    whole number. -/
def plain : Layout := ⟨none, false, false, .away⟩

/-- Numbers of the data format: positional from `0.00001` up to below `1e+16`,
    always with a fraction, and a signed exponent beyond. -/
def data : Layout := ⟨some (-4, 16), true, true, .toEven⟩

/-- Numbers shown for inspection: positional from `0.0001` up to below `1e16`,
    always with a fraction. -/
def inspection : Layout := ⟨some (-3, 16), true, false, .away⟩

/-! ## Writing digits -/

def zeros (n : Nat) : String := String.ofList (List.replicate n '0')

/-- Digits with the decimal point after the first `point` of them, filled with
    zeros as needed. -/
def positionalText (keepsFraction : Bool) (digits : String) (point : Int) : String :=
  let size : Int := digits.length
  if point ≤ 0 then "0." ++ zeros (-point).toNat ++ digits
  else if size ≤ point then
    digits ++ zeros (point - size).toNat ++ (if keepsFraction then ".0" else "")
  else
    let cs := digits.toList
    String.ofList (cs.take point.toNat) ++ "." ++ String.ofList (cs.drop point.toNat)

/-- Digits with the decimal point after the first one and an exponent. -/
def exponentText (plusSign : Bool) (digits : String) (point : Int) : String :=
  let cs := digits.toList
  let fraction := if cs.length ≤ 1 then "" else "." ++ String.ofList (cs.drop 1)
  let exponent := point - 1
  let sign := if exponent < 0 then "-" else if plusSign then "+" else ""
  String.ofList (cs.take 1) ++ fraction ++ "e" ++ sign ++ exponent.natAbs.repr

def magnitude (l : Layout) (significand : Nat) (exponent : Int) : String :=
  if significand = 0 then (if l.keepsFraction then "0.0" else "0")
  else
    let (digits, power) := Shortest.shortest l.tie significand exponent
    let text := digits.repr
    let point := text.length + power
    match l.positional with
    | none => positionalText l.keepsFraction text point
    | some (least, most) =>
      if least ≤ point ∧ point ≤ most then positionalText l.keepsFraction text point
      else exponentText l.plusSign text point

def signText (negative : Bool) : String := if negative then "-" else ""

/-- The text of a double. -/
def render (l : Layout) (x : Float) : String :=
  match Binary64.ofFloat x with
  | .undefined => "NaN"
  | .infinite negative => signText negative ++ "inf"
  | .finite negative significand exponent =>
    signText negative ++ l.magnitude significand exponent

end Layout

/-! ## A fixed number of places -/

/-- A quotient rounded to the nearest whole number; a half goes to the even
    neighbour. -/
def roundQuotient (numerator denominator : Nat) : Nat :=
  let quotient := numerator / denominator
  match compare (2 * (numerator % denominator)) denominator with
  | .lt => quotient
  | .gt => quotient + 1
  | .eq => if quotient % 2 = 0 then quotient else quotient + 1

/-- The exact value of a double rounded to a number of places after the
    point. -/
def fixedText (places : Nat) (x : Float) : String :=
  match Binary64.ofFloat x with
  | .undefined => "NaN"
  | .infinite negative => Layout.signText negative ++ "inf"
  | .finite negative significand exponent =>
    let one := Nat.pow 10 places
    let units := roundQuotient (significand * Nat.pow 2 exponent.toNat * one)
      (Nat.pow 2 (-exponent).toNat)
    let fraction := (units % one).repr
    Layout.signText negative ++ (units / one).repr ++ "." ++
      Layout.zeros (places - fraction.length) ++ fraction

end IntegerProgramming
