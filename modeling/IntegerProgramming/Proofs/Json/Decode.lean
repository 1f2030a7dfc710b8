import IntegerProgramming.Json.Decode
import Mathlib

/-! # Typed data is read back

    One lemma for every way in which typed data is written: as a record of its
    fields, as a list, as a number, as a number or null.  A number comes back
    if it is written at all and its reader makes it of its spelling
    (`Returns`). -/

namespace IntegerProgramming.Json

/-! ## Records -/

theorem lookup_eq_none {fields : List (String × Json)} {key : String}
    (h : key ∉ fields.map Prod.fst) : fields.lookup key = none := by
  rw [List.lookup_eq_none_iff]
  intro m hm
  rw [bne_iff_ne]
  rintro rfl
  exact h (List.mem_map_of_mem hm)

theorem objectFields_record {names : List String} {ms : List (String × Json)}
    (hnodup : (ms.map Prod.fst).Nodup) (hnames : ∀ m ∈ ms, m.1 ∈ names) :
    objectFields names (ms.map fun (key, v) => (some key, v)) = some ms := by
  induction ms with
  | nil => rfl
  | cons m ms ih =>
    rw [List.map_cons, List.nodup_cons] at hnodup
    rw [List.forall_mem_cons] at hnames
    rw [List.map_cons, objectFields, ih hnodup.2 hnames.2, Option.bind_some,
      if_neg (not_not.mpr hnames.1), lookup_eq_none hnodup.1]
    rfl

/-- A record with all its fields is read field by field. -/
theorem fields_record {names : List String} {ms : List (String × Json)}
    (hnames : ms.map Prod.fst = names) (hnodup : names.Nodup) :
    (record ms).fields names = some ms := by
  subst hnames
  exact objectFields_record hnodup fun m hm => List.mem_map_of_mem hm

section fields

variable {β : Type} {fields : List (String × Json)} {name : String} {v : Json} {x : β}
  {read : Json → Option β}

theorem required_of_lookup (hv : fields.lookup name = some v) (hread : read v = some x) :
    required fields name read = some x := by
  unfold required
  rw [hv]
  exact hread

theorem defaulted_of_lookup {default : β} (hv : fields.lookup name = some v)
    (hread : read v = some x) : defaulted fields name default read = some x := by
  unfold defaulted
  rw [hv]
  exact hread

end fields

/-! ## Lists -/

theorem list?_ofList {β : Type} {write : β → Json} {read : Json → Option β} {xs : List β}
    (h : ∀ x ∈ xs, read (write x) = some x) : list? read (ofList write xs) = some xs := by
  show (xs.map write).mapM read = some xs
  induction xs with
  | nil => rfl
  | cons x xs ih =>
    rw [List.forall_mem_cons] at h
    rw [List.map_cons, List.mapM_cons, h.1, ih h.2]
    rfl

/-! ## Numbers -/

section numbers

variable {α : Type} [Scalar α] [Written α] {read : String → Option α}

/-- The number is written, and the reader makes it of what is written. -/
structure Returns (read : String → Option α) (x : α) : Prop where
  finite : Scalar.IsFinite x
  reads : read (Written.lexeme x) = some x

theorem ofNumber_of_finite {x : α} (h : Scalar.IsFinite x) :
    ofNumber x = .number (Written.lexeme x) := if_pos h

theorem number?_ofNumber {x : α} (h : Returns read x) : number? read (ofNumber x) = some x := by
  rw [ofNumber_of_finite h.finite]
  exact h.reads

theorem nullable_ofOption {o : Option α} (h : ∀ x ∈ o, Returns read x) :
    nullable (number? read) (ofOption ofNumber o) = some o := by
  cases o with
  | none => rfl
  | some x =>
    have hx := h x rfl
    show nullable (number? read) (ofNumber x) = _
    rw [ofNumber_of_finite hx.finite]
    show (read (Written.lexeme x)).map some = _
    rw [hx.reads]
    rfl

end numbers

end IntegerProgramming.Json
