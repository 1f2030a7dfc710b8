import IntegerProgramming.Format.Model
import IntegerProgramming.Proofs.Json.Decode
import IntegerProgramming.Proofs.Json.RoundTrip
import IntegerProgramming.Proofs.Number.Layout

/-! # Models are read back

    A model that is written as JSON and read again is the same model
    (`Model.parse_toJson`): no bound appears or disappears, no kind or relation
    becomes another, and names come back character by character.

    Two things can get in the way.  A number that is not finite is written as
    null, which is no number and, as a bound, is none.  And a reader of numbers
    need not make of a spelling the number that was written; so it is asked of
    the numbers of the model that their spellings are read back. -/

namespace IntegerProgramming

/-! ## Words -/

theorem Sense.choice?_word (s : Sense) :
    Json.choice? Sense.words (.word Sense.words s) = some s := by
  cases s <;> rfl

theorem VariableKind.choice?_word (k : VariableKind) :
    Json.choice? VariableKind.words (.word VariableKind.words k) = some k := by
  cases k <;> rfl

theorem Relation.choice?_word (r : Relation) :
    Json.choice? Relation.words (.word Relation.words r) = some r := by
  cases r <;> rfl

/-! ## Values -/

variable {α : Type}

/-- The bounds that are given. -/
def Variable.numbers (v : Variable α) : List α := v.lower.toList ++ v.upper.toList

def Constraint.numbers (c : Constraint α) : List α := c.coefficients ++ [c.rhs]

/-- All numbers that are written in a model. -/
def Model.numbers (m : Model α) : List α :=
  m.objective ++ m.vars.flatMap Variable.numbers ++ m.constraints.flatMap Constraint.numbers

section values

variable [Scalar α] [Written α] {read : String → Option α}

theorem Variable.ofJson?_toJson {v : Variable α} (h : ∀ x ∈ v.numbers, Json.Returns read x) :
    Variable.ofJson? read v.toJson = some v := by
  have hlower := Json.nullable_ofOption fun x hx =>
    h x (List.mem_append_left _ (Option.mem_toList.mpr hx))
  have hupper := Json.nullable_ofOption fun x hx =>
    h x (List.mem_append_right _ (Option.mem_toList.mpr hx))
  unfold Variable.ofJson? Variable.toJson
  refine Option.bind_eq_some_iff.mpr ⟨_, Json.fields_record rfl (by decide), ?_⟩
  refine Option.bind_eq_some_iff.mpr ⟨_, Json.required_of_lookup rfl rfl, ?_⟩
  refine Option.bind_eq_some_iff.mpr ⟨_, Json.defaulted_of_lookup rfl v.kind.choice?_word, ?_⟩
  refine Option.bind_eq_some_iff.mpr ⟨_, Json.defaulted_of_lookup rfl hlower, ?_⟩
  refine Option.bind_eq_some_iff.mpr ⟨_, Json.defaulted_of_lookup rfl hupper, ?_⟩
  rfl

theorem Constraint.ofJson?_toJson {c : Constraint α} (h : ∀ x ∈ c.numbers, Json.Returns read x) :
    Constraint.ofJson? read c.toJson = some c := by
  have hcoefficients := Json.list?_ofList fun x hx =>
    Json.number?_ofNumber (h x (List.mem_append_left _ hx))
  have hrhs := Json.number?_ofNumber (h c.rhs (List.mem_append_right _ (List.mem_singleton_self _)))
  unfold Constraint.ofJson? Constraint.toJson
  refine Option.bind_eq_some_iff.mpr ⟨_, Json.fields_record rfl (by decide), ?_⟩
  refine Option.bind_eq_some_iff.mpr ⟨_, Json.required_of_lookup rfl rfl, ?_⟩
  refine Option.bind_eq_some_iff.mpr ⟨_, Json.required_of_lookup rfl hcoefficients, ?_⟩
  refine Option.bind_eq_some_iff.mpr ⟨_, Json.required_of_lookup rfl c.relation.choice?_word, ?_⟩
  refine Option.bind_eq_some_iff.mpr ⟨_, Json.required_of_lookup rfl hrhs, ?_⟩
  rfl

/-- A model whose numbers are read back is read back as a whole. -/
theorem Model.ofJson?_toJson {m : Model α} (h : ∀ x ∈ m.numbers, Json.Returns read x) :
    Model.ofJson? read m.toJson = some m := by
  unfold Model.numbers at h
  have hobjective := Json.list?_ofList fun x hx =>
    Json.number?_ofNumber (h x (List.mem_append_left _ (List.mem_append_left _ hx)))
  have hvars := Json.list?_ofList fun v hv => Variable.ofJson?_toJson fun x hx =>
    h x (List.mem_append_left _ (List.mem_append_right _ (List.mem_flatMap.mpr ⟨v, hv, hx⟩)))
  have hconstraints := Json.list?_ofList fun c hc => Constraint.ofJson?_toJson fun x hx =>
    h x (List.mem_append_right _ (List.mem_flatMap.mpr ⟨c, hc, hx⟩))
  -- The fields in the order in which the reader asks for them.
  unfold Model.ofJson? Model.toJson
  refine Option.bind_eq_some_iff.mpr ⟨_, Json.fields_record rfl (by decide), ?_⟩
  refine Option.bind_eq_some_iff.mpr ⟨_, Json.required_of_lookup rfl m.sense.choice?_word, ?_⟩
  refine Option.bind_eq_some_iff.mpr ⟨_, Json.required_of_lookup rfl hvars, ?_⟩
  refine Option.bind_eq_some_iff.mpr ⟨_, Json.required_of_lookup rfl hobjective, ?_⟩
  refine Option.bind_eq_some_iff.mpr ⟨_, Json.defaulted_of_lookup rfl hconstraints, ?_⟩
  rfl

end values

/-! ## Texts -/

theorem Json.Plain.word {β : Type} [BEq β] (table : List (String × β)) (x : β) :
    Json.Plain (.word table x) := by
  unfold Json.word
  generalize table.find? _ = entry
  cases entry with
  | none => exact .null
  | some entry => exact .text entry.1

theorem Json.Plain.ofList {β : Type} {write : β → Json} (h : ∀ x, Json.Plain (write x))
    (xs : List β) : Json.Plain (.ofList write xs) := by
  refine .array fun v hv => ?_
  obtain ⟨x, -, rfl⟩ := List.mem_map.mp hv
  exact h x

theorem Json.Plain.ofNumber (x : Float) : Json.Plain (.ofNumber x) := by
  by_cases hx : Scalar.IsFinite x
  · rw [Json.ofNumber_of_finite hx]
    exact .number (Layout.isNumber_render rfl hx)
  · have hnull : Json.ofNumber x = .null := if_neg hx
    rw [hnull]
    exact .null

theorem Json.Plain.ofOption {β : Type} {write : β → Json} (h : ∀ x, Json.Plain (write x))
    (o : Option β) : Json.Plain (.ofOption write o) := by
  cases o with
  | none => exact .null
  | some x => exact h x

theorem Variable.plain_toJson (v : Variable Float) : v.toJson.Plain := by
  refine .record ?_
  simp only [List.forall_mem_cons]
  exact ⟨.text _, .word _ _, .ofOption .ofNumber _, .ofOption .ofNumber _, nofun⟩

theorem Constraint.plain_toJson (c : Constraint Float) : c.toJson.Plain := by
  refine .record ?_
  simp only [List.forall_mem_cons]
  exact ⟨.text _, .ofList .ofNumber _, .word _ _, .ofNumber _, nofun⟩

/-- Whatever its numbers are, the text of a model is JSON. -/
theorem Model.plain_toJson (m : Model Float) : m.toJson.Plain := by
  refine .record ?_
  simp only [List.forall_mem_cons]
  exact ⟨.word _ _, .ofList Variable.plain_toJson _, .ofList .ofNumber _,
    .ofList Constraint.plain_toJson _, nofun⟩

/-! ## Reading a text -/

/-- What a text means is accepted if it is an aligned model. -/
theorem Model.parse_of_reads {read : String → Option α} {source : String} {v : Json} {m : Model α}
    (hsource : Json.parse source = some v) (hmodel : Model.ofJson? read v = some m)
    (haligned : m.Aligned) : Model.parse read source = .ok m := by
  have hmisalignment : m.misalignment = none := haligned
  unfold Model.parse
  rw [hsource, Option.bind_some, hmodel]
  dsimp only
  rw [hmisalignment]

/-- A model that is aligned and has finite numbers only is read back from either
    of its texts, by every reader that reads its numbers back. -/
theorem Model.parse_toJson {m : Model Float} {read : String → Option Float}
    (haligned : m.Aligned) (hfinite : ∀ x ∈ m.numbers, Scalar.IsFinite x)
    (hread : ∀ x ∈ m.numbers, read (Written.lexeme x) = some x) :
    Model.parse read (Json.compact m.toJson) = .ok m ∧
      Model.parse read (Json.pretty m.toJson) = .ok m := by
  have hmodel := Model.ofJson?_toJson fun x hx => ⟨hfinite x hx, hread x hx⟩
  exact ⟨Model.parse_of_reads (Json.parse_compact m.plain_toJson) hmodel haligned,
    Model.parse_of_reads (Json.parse_pretty m.plain_toJson) hmodel haligned⟩

/-- A garden with every kind of variable and every relation, odd names, and
    bounds that are given or not. -/
def garden : Model Float where
  sense := .minimize
  vars := [⟨"Beet \"Süd\"", .integer, some 1, none⟩, ⟨"🌱", .binary, none, none⟩,
    ⟨"path\tto\\shed", .continuous, none, some 2.5⟩, ⟨"", .unrestricted, some (-7.25), some 1e300⟩]
  objective := [3, -0.0, 0.1, 1e-7]
  constraints := [⟨"area\n", [1, 1, 0.5, 0], .atMost, 12⟩, ⟨"水", [0, 4, 0, 0], .atLeast, -1e16⟩,
    ⟨"\u0001", [0, 0, 0, 0], .equal, 0⟩]

/-- The garden comes back as it was. -/
theorem garden_parsed :
    garden.Aligned ∧ (∀ x ∈ garden.numbers, Scalar.IsFinite x) ∧
      (∀ x ∈ garden.numbers, readNearest (Written.lexeme x) = some x) ∧
      Model.parse readNearest (Json.compact garden.toJson) = .ok garden ∧
      Model.parse readNearest (Json.pretty garden.toJson) = .ok garden := by
  have haligned : garden.Aligned := by decide
  have hfinite : ∀ x ∈ garden.numbers, Scalar.IsFinite x := by decide +kernel
  have hread : ∀ x ∈ garden.numbers, readNearest (Written.lexeme x) = some x := by decide +kernel
  exact ⟨haligned, hfinite, hread, Model.parse_toJson haligned hfinite hread⟩

end IntegerProgramming
