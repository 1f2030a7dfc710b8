import IntegerProgramming.Json.Value
import IntegerProgramming.Number.Scalar

/-! # Records, choices and numbers in JSON

    How typed data is read from JSON values.  A record is an object whose
    members are its fields, in any order and among others that are passed
    over, or the array of its fields in their fixed order, of which the last
    ones may be missing.  A choice is one of a few words, alone or as the only
    key of an object with the value null.  What the spelling of a number means
    is left to the caller. -/

namespace IntegerProgramming

/-- A number type with a written form.  Only finite numbers are written; an
    infinite or undefined number is null. -/
class Written (α : Type) where
  lexeme : α → String

namespace Json

/-! ## Records -/

/-- The members of an object that are fields of a record.  No field may be
    repeated, and every key has to be a text. -/
def objectFields (names : List String) :
    List (Option String × Json) → Option (List (String × Json))
  | [] => some []
  | (none, _) :: _ => none
  | (some key, v) :: rest =>
    (objectFields names rest).bind fun fields =>
      if key ∉ names then some fields
      else if (fields.lookup key).isSome then none
      else some ((key, v) :: fields)

/-- The fields of a record that are there. -/
def fields (names : List String) : Json → Option (List (String × Json))
  | .object members => objectFields names members
  | .array elements => if elements.length ≤ names.length then some (names.zip elements) else none
  | _ => none

variable {β : Type}

/-- A field that has to be there. -/
def required (fields : List (String × Json)) (name : String) (read : Json → Option β) : Option β :=
  (fields.lookup name).bind read

/-- A field that has a default. -/
def defaulted (fields : List (String × Json)) (name : String) (default : β)
    (read : Json → Option β) : Option β :=
  match fields.lookup name with
  | none => some default
  | some v => read v

/-! ## Values -/

def text? : Json → Option String
  | .string content => content
  | _ => none

def list? (read : Json → Option β) : Json → Option (List β)
  | .array elements => elements.mapM read
  | _ => none

/-- A value, or null for none. -/
def nullable (read : Json → Option β) : Json → Option (Option β)
  | .null => some none
  | v => (read v).map some

/-- One of the words of a table. -/
def choice? (table : List (String × β)) : Json → Option β
  | .string (some word) => table.lookup word
  | .object [(some word, .null)] => table.lookup word
  | _ => none

/-- The word of a value in a table. -/
def word [BEq β] (table : List (String × β)) (x : β) : Json :=
  .ofOption (fun (word, _) => .text word) (table.find? fun (_, y) => y == x)

/-- A count, spelled by digits alone. -/
def nat? : Json → Option Nat
  | .number lexeme => lexeme.toNat?
  | _ => none

/-- What stands under the only key of an object. -/
def tagged? : Json → Option (String × Json)
  | .object [(some tag, v)] => some (tag, v)
  | _ => none

/-- A number, which `read` makes of its spelling. -/
def number? (read : String → Option β) : Json → Option β
  | .number lexeme => read lexeme
  | _ => none

def ofNumber {α : Type} [Scalar α] [Written α] (x : α) : Json :=
  if Scalar.IsFinite x then .number (Written.lexeme x) else .null

end Json

end IntegerProgramming
