/-! # JSON values

    A value keeps what its text says and no more: the members of an object in
    their order, repeated keys included, and numbers as they are spelled, for
    the reader of a number to interpret.

    A JSON string may spell half of a surrogate pair, which no text holds.
    Such a string is well-formed JSON and has no content. -/

namespace IntegerProgramming

inductive Json where
  | null
  | bool (value : Bool)
  /-- A number as it is spelled. -/
  | number (lexeme : String)
  /-- A string, or no content if it spells a lone surrogate. -/
  | string (content : Option String)
  | array (elements : List Json)
  | object (members : List (Option String × Json))

namespace Json

/-- A string with content. -/
def text (s : String) : Json := .string (some s)

/-- An object with the given members. -/
def record (members : List (String × Json)) : Json :=
  .object (members.map fun (key, value) => (some key, value))

def ofNat (n : Nat) : Json := .number n.repr

/-- The value, or null if there is none. -/
def ofOption {β : Type} (f : β → Json) : Option β → Json
  | none => .null
  | some x => f x

def ofList {β : Type} (f : β → Json) (xs : List β) : Json := .array (xs.map f)

end Json

end IntegerProgramming
