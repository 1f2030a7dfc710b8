import IntegerProgramming.Json.Value

/-! # Writing JSON

    Two layouts: on one line without blanks, and indented by two blanks with
    one element or member a line.  An empty array or object is `[]` or `\x7b\x7d`
    in both.  Characters above the control characters are written as they are,
    quotation marks and backslashes excepted. -/

namespace IntegerProgramming.Json

/-! ## Strings -/

/-- A digit of a control character's code, in lower case. -/
def hexDigit (n : Nat) : Char :=
  if n < 10 then Char.ofNat ('0'.toNat + n) else Char.ofNat ('a'.toNat + (n - 10))

/-- How a character is written inside a string: the control characters that
    have a short escape take it, the others take their code. -/
def escape (c : Char) : List Char :=
  match c with
  | '"' => ['\\', '"']
  | '\\' => ['\\', '\\']
  | '\n' => ['\\', 'n']
  | '\r' => ['\\', 'r']
  | '\t' => ['\\', 't']
  | '\x08' => ['\\', 'b']
  | '\x0c' => ['\\', 'f']
  | c =>
    if c.toNat < 32 then ['\\', 'u', '0', '0', hexDigit (c.toNat / 16), hexDigit (c.toNat % 16)]
    else [c]

/-- A string in quotation marks. -/
def quote (s : String) : String :=
  String.ofList ('"' :: s.toList.flatMap escape ++ ['"'])

/-- A string without content is written as the replacement character. -/
def quoteContent (content : Option String) : String := quote (content.getD "\ufffd")

/-! ## One line -/

mutual

def compact : Json → String
  | .null => "null"
  | .bool value => if value then "true" else "false"
  | .number lexeme => lexeme
  | .string content => quoteContent content
  | .array elements => "[" ++ ",".intercalate (compactElements elements) ++ "]"
  | .object members => "\x7b" ++ ",".intercalate (compactMembers members) ++ "\x7d"

def compactElements : List Json → List String
  | [] => []
  | v :: vs => compact v :: compactElements vs

def compactMembers : List (Option String × Json) → List String
  | [] => []
  | (key, v) :: rest => (quoteContent key ++ ":" ++ compact v) :: compactMembers rest

end

/-! ## Indented -/

/-- A line break and the indentation of the given depth. -/
def newline (depth : Nat) : String := "\n" ++ String.ofList (List.replicate (2 * depth) ' ')

/-- Items one a line between brackets; brackets alone if there are none. -/
def bracketed (depth : Nat) (opening closing : String) (items : List String) : String :=
  if items.isEmpty then opening ++ closing
  else opening ++ newline (depth + 1) ++ ("," ++ newline (depth + 1)).intercalate items ++
    newline depth ++ closing

mutual

def indented (depth : Nat) : Json → String
  | .null => "null"
  | .bool value => if value then "true" else "false"
  | .number lexeme => lexeme
  | .string content => quoteContent content
  | .array elements => bracketed depth "[" "]" (indentedElements (depth + 1) elements)
  | .object members => bracketed depth "\x7b" "\x7d" (indentedMembers (depth + 1) members)

def indentedElements (depth : Nat) : List Json → List String
  | [] => []
  | v :: vs => indented depth v :: indentedElements depth vs

def indentedMembers (depth : Nat) : List (Option String × Json) → List String
  | [] => []
  | (key, v) :: rest => (quoteContent key ++ ": " ++ indented depth v) :: indentedMembers depth rest

end

/-- The indented text of a value. -/
def pretty (v : Json) : String := indented 0 v

end IntegerProgramming.Json
