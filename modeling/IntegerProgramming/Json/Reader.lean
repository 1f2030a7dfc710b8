import IntegerProgramming.Json.Value

/-! # Reading JSON

    A strict reader: one value with nothing but blanks around it.  Control
    characters inside strings, numbers with leading zeros or bare points, and
    trailing commas are errors.

    Every function takes the characters that are left and returns what it has
    read with the characters that are left after it. -/

namespace IntegerProgramming.Json

/-! ## Tokens -/

def isBlank (c : Char) : Bool := c = ' ' || c = '\t' || c = '\n' || c = '\r'

def skipBlanks (cs : List Char) : List Char := cs.dropWhile isBlank

/-- The digits at the front, at least one of them. -/
def someDigits (cs : List Char) : Option (List Char × List Char) :=
  match cs.span Char.isDigit with
  | ([], _) => none
  | split => some split

/-- The whole part of a number: a zero alone, or digits that do not begin with
    one. -/
def wholeDigits : List Char → Option (List Char × List Char)
  | '0' :: rest => if (rest.head?.any Char.isDigit) then none else some (['0'], rest)
  | cs => someDigits cs

/-- A point followed by digits, or nothing. -/
def fractionDigits : List Char → Option (List Char × List Char)
  | '.' :: rest => (someDigits rest).map fun (ds, rest) => ('.' :: ds, rest)
  | cs => some ([], cs)

/-- A sign, or nothing. -/
def exponentSign : List Char → List Char × List Char
  | '+' :: rest => (['+'], rest)
  | '-' :: rest => (['-'], rest)
  | cs => ([], cs)

/-- An exponent mark with an optional sign and digits, or nothing. -/
def exponentDigits : List Char → Option (List Char × List Char)
  | mark :: rest =>
    if mark = 'e' ∨ mark = 'E' then
      let (sign, rest) := exponentSign rest
      (someDigits rest).map fun (ds, rest) => (mark :: sign ++ ds, rest)
    else some ([], mark :: rest)
  | [] => some ([], [])

/-- A number, as it is spelled. -/
def numberLexeme (cs : List Char) : Option (List Char × List Char) := do
  let (sign, cs) := match cs with
    | '-' :: rest => (['-'], rest)
    | _ => ([], cs)
  let (whole, cs) ← wholeDigits cs
  let (fraction, cs) ← fractionDigits cs
  let (exponent, cs) ← exponentDigits cs
  return (sign ++ whole ++ fraction ++ exponent, cs)

/-! ## Strings -/

def hexValue (c : Char) : Option Nat :=
  if c.isDigit then some (c.toNat - '0'.toNat)
  else if 'a' ≤ c ∧ c ≤ 'f' then some (c.toNat - 'a'.toNat + 10)
  else if 'A' ≤ c ∧ c ≤ 'F' then some (c.toNat - 'A'.toNat + 10)
  else none

/-- The 16-bit unit that four hexadecimal digits spell. -/
def hexUnit (a b c d : Char) : Option Nat := do
  return 4096 * (← hexValue a) + 256 * (← hexValue b) + 16 * (← hexValue c) + (← hexValue d)

def isLeading (unit : Nat) : Bool := decide (0xD800 ≤ unit) && decide (unit < 0xDC00)

def isTrailing (unit : Nat) : Bool := decide (0xDC00 ≤ unit) && decide (unit < 0xE000)

/-- The character of a surrogate pair. -/
def pairChar (leading trailing : Nat) : Char :=
  Char.ofNat (0x10000 + 1024 * (leading - 0xD800) + (trailing - 0xDC00))

/-- The character that an escape of one letter stands for. -/
def shortEscape : Char → Option Char
  | '"' => some '"'
  | '\\' => some '\\'
  | '/' => some '/'
  | 'b' => some '\x08'
  | 'f' => some '\x0c'
  | 'n' => some '\n'
  | 'r' => some '\r'
  | 't' => some '\t'
  | _ => none

/-- Reads up to the closing quotation mark.  `content` holds the characters
    read so far, the last one first; it is lost at a lone surrogate, after
    which the string is only checked for its form. -/
def stringRest (content : Option (List Char)) :
    List Char → Option (Option (List Char) × List Char)
  | [] => none
  | '"' :: rest => some (content.map List.reverse, rest)
  | '\\' :: 'u' :: a :: b :: c :: d :: '\\' :: 'u' :: a' :: b' :: c' :: d' :: rest =>
    match hexUnit a b c d, hexUnit a' b' c' d' with
    | some unit, some unit' =>
      if isLeading unit && isTrailing unit' then
        stringRest (content.map (pairChar unit unit' :: ·)) rest
      else if isLeading unit || isTrailing unit then
        stringRest none ('\\' :: 'u' :: a' :: b' :: c' :: d' :: rest)
      else
        stringRest (content.map (Char.ofNat unit :: ·))
          ('\\' :: 'u' :: a' :: b' :: c' :: d' :: rest)
    | _, _ => none
  | '\\' :: 'u' :: a :: b :: c :: d :: rest =>
    match hexUnit a b c d with
    | some unit =>
      if isLeading unit || isTrailing unit then stringRest none rest
      else stringRest (content.map (Char.ofNat unit :: ·)) rest
    | none => none
  | '\\' :: c :: rest =>
    match shortEscape c with
    | some c => stringRest (content.map (c :: ·)) rest
    | none => none
  | c :: rest => if c.toNat < 32 ∨ c = '\\' then none else stringRest (content.map (c :: ·)) rest

/-- A string after its opening quotation mark. -/
def stringBody (cs : List Char) : Option (Option String × List Char) :=
  (stringRest (some []) cs).map fun (content, rest) => (content.map String.ofList, rest)

/-! ## Values -/

mutual

/-- A value with blanks before it.  Each nested value takes one unit of fuel
    and each element or member another. -/
def value : Nat → List Char → Option (Json × List Char)
  | 0, _ => none
  | fuel + 1, cs =>
    match skipBlanks cs with
    | 'n' :: 'u' :: 'l' :: 'l' :: rest => some (.null, rest)
    | 't' :: 'r' :: 'u' :: 'e' :: rest => some (.bool true, rest)
    | 'f' :: 'a' :: 'l' :: 's' :: 'e' :: rest => some (.bool false, rest)
    | '"' :: rest => (stringBody rest).map fun (content, rest) => (.string content, rest)
    | '[' :: rest =>
      match skipBlanks rest with
      | ']' :: rest => some (.array [], rest)
      | _ => elements fuel [] rest
    | '\x7b' :: rest =>
      match skipBlanks rest with
      | '\x7d' :: rest => some (.object [], rest)
      | _ => members fuel [] rest
    | cs => (numberLexeme cs).map fun (lexeme, rest) => (.number (String.ofList lexeme), rest)

/-- The elements of an array up to its end; `before` holds those already read,
    the last one first. -/
def elements : Nat → List Json → List Char → Option (Json × List Char)
  | 0, _, _ => none
  | fuel + 1, before, cs =>
    match value fuel cs with
    | none => none
    | some (v, rest) =>
      match skipBlanks rest with
      | ',' :: rest => elements fuel (v :: before) rest
      | ']' :: rest => some (.array (v :: before).reverse, rest)
      | _ => none

/-- The members of an object up to its end. -/
def members : Nat → List (Option String × Json) → List Char → Option (Json × List Char)
  | 0, _, _ => none
  | fuel + 1, before, cs =>
    match skipBlanks cs with
    | '"' :: rest =>
      match stringBody rest with
      | none => none
      | some (key, rest) =>
        match skipBlanks rest with
        | ':' :: rest =>
          match value fuel rest with
          | none => none
          | some (v, rest) =>
            match skipBlanks rest with
            | ',' :: rest => members fuel ((key, v) :: before) rest
            | '\x7d' :: rest => some (.object ((key, v) :: before).reverse, rest)
            | _ => none
        | _ => none
    | _ => none

end

/-- The value that a text spells.  Every value and every element takes at least
    one character, so the fuel is enough. -/
def parse (source : String) : Option Json :=
  let cs := source.toList
  match value (2 * cs.length + 2) cs with
  | some (v, rest) => if (skipBlanks rest).isEmpty then some v else none
  | none => none

end IntegerProgramming.Json
