import IntegerProgramming.Json.Decode
import IntegerProgramming.Json.Reader
import IntegerProgramming.Model.Basic

/-! # Models as JSON

    A model is a record of its sense, its variables, its objective and its
    constraints.  Kinds, bounds and the list of constraints may be left out;
    bounds may also be null.  What is written has every field, so reading it
    gives the model back. -/

namespace IntegerProgramming

/-! ## Words -/

def Sense.words : List (String × Sense) := [("maximize", .maximize), ("minimize", .minimize)]

def VariableKind.words : List (String × VariableKind) :=
  [("continuous", .continuous), ("integer", .integer), ("binary", .binary),
    ("unrestricted", .unrestricted)]

def Relation.words : List (String × Relation) :=
  [(Relation.atMost.sign, .atMost), (Relation.atLeast.sign, .atLeast), (Relation.equal.sign, .equal)]

variable {α : Type}

/-! ## Writing -/

section
variable [Scalar α] [Written α]

def Variable.toJson (v : Variable α) : Json :=
  .record
    [("name", .text v.name), ("kind", .word VariableKind.words v.kind),
      ("lower", .ofOption .ofNumber v.lower), ("upper", .ofOption .ofNumber v.upper)]

def Constraint.toJson (c : Constraint α) : Json :=
  .record
    [("name", .text c.name), ("coefficients", .ofList .ofNumber c.coefficients),
      ("op", .word Relation.words c.relation), ("rhs", .ofNumber c.rhs)]

def Model.toJson (m : Model α) : Json :=
  .record
    [("sense", .word Sense.words m.sense), ("variables", .ofList Variable.toJson m.vars),
      ("objective", .ofList .ofNumber m.objective),
      ("constraints", .ofList Constraint.toJson m.constraints)]

end

/-! ## Reading -/

section
variable (read : String → Option α)

def Variable.ofJson? (v : Json) : Option (Variable α) := do
  let fields ← v.fields ["name", "kind", "lower", "upper"]
  return {
    name := ← Json.required fields "name" Json.text?
    kind := ← Json.defaulted fields "kind" .continuous (Json.choice? VariableKind.words)
    lower := ← Json.defaulted fields "lower" none (Json.nullable (Json.number? read))
    upper := ← Json.defaulted fields "upper" none (Json.nullable (Json.number? read)) }

def Constraint.ofJson? (v : Json) : Option (Constraint α) := do
  let fields ← v.fields ["name", "coefficients", "op", "rhs"]
  return {
    name := ← Json.required fields "name" Json.text?
    coefficients := ← Json.required fields "coefficients" (Json.list? (Json.number? read))
    relation := ← Json.required fields "op" (Json.choice? Relation.words)
    rhs := ← Json.required fields "rhs" (Json.number? read) }

def Model.ofJson? (v : Json) : Option (Model α) := do
  let fields ← v.fields ["sense", "variables", "objective", "constraints"]
  return {
    sense := ← Json.required fields "sense" (Json.choice? Sense.words)
    vars := ← Json.required fields "variables" (Json.list? (Variable.ofJson? read))
    objective := ← Json.required fields "objective" (Json.list? (Json.number? read))
    constraints := ← Json.defaulted fields "constraints" [] (Json.list? (Constraint.ofJson? read)) }

/-- Why a text is not a model. -/
inductive Model.ReadError where
  /-- It is not JSON, or not a record of a model. -/
  | malformed
  | misaligned (cause : Model.Misalignment)
  deriving DecidableEq

/-- The model that a text spells, with one coefficient per variable
    everywhere. -/
def Model.parse (source : String) : Except Model.ReadError (Model α) :=
  match (Json.parse source).bind (Model.ofJson? read) with
  | none => .error .malformed
  | some m =>
    match m.misalignment with
    | some cause => .error (.misaligned cause)
    | none => .ok m

end

end IntegerProgramming
