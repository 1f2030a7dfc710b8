import IntegerProgramming.Proofs.Json.Spelling

/-! # Written values are read back

    Both layouts of a value spell it, so reading either gives the value back
    (`parse_compact`, `parse_pretty`).

    What is written has to be JSON in the first place: numbers have to be
    spelled as JSON numbers, and strings and keys need content (`Plain`). -/

namespace IntegerProgramming.Json

/-- Values whose texts say what they are.  A number is written as it is spelled,
    whatever that is, and a string without content as another string. -/
inductive Plain : Json → Prop where
  | null : Plain .null
  | bool (b : Bool) : Plain (.bool b)
  | number {lexeme : String} (h : IsNumber lexeme.toList) : Plain (.number lexeme)
  | text (s : String) : Plain (.text s)
  | array {vs : List Json} (h : ∀ v ∈ vs, Plain v) : Plain (.array vs)
  | record {ms : List (String × Json)} (h : ∀ m ∈ ms, Plain m.2) : Plain (.record ms)

/-! ## Items -/

section items

variable {lead gap last : List Char}

/-- Elements written one by one. -/
theorem spells_elements (hlead : Blanks lead) (hgap : Blanks gap) (hlast : Blanks last)
    {write : Json → String} {v : Json} {vs : List Json}
    (h : ∀ w ∈ v :: vs, Spells (write w).toList w) :
    Spells ('[' :: (listing lead gap last (((v :: vs).map write).map String.toList) ++ [']']))
      (.array (v :: vs)) := by
  rw [List.forall_mem_cons] at h
  refine spells_array hlead hgap hlast h.1 ?_
  rw [List.forall₂_map_left_iff, List.forall₂_map_left_iff, List.forall₂_same]
  exact h.2

/-- Members written one by one, each with its key, a colon and blanks. -/
theorem spells_members (hlead : Blanks lead) (hgap : Blanks gap) (hlast : Blanks last)
    {colon : String} {blanks : List Char} (hcolon : colon.toList = ':' :: blanks)
    (hblanks : Blanks blanks) {write : Json → String} {m : String × Json}
    {ms : List (String × Json)} (h : ∀ n ∈ m :: ms, Spells (write n.2).toList n.2) :
    Spells ('\x7b' :: (listing lead gap last (((m :: ms).map
        fun n => quote n.1 ++ colon ++ write n.2).map String.toList) ++ ['\x7d']))
      (.record (m :: ms)) := by
  have hmember : ∀ n ∈ m :: ms,
      SpellsMember (quote n.1 ++ colon ++ write n.2).toList (some n.1, n.2) := by
    intro n hn
    rw [String.toList_append, String.toList_append, hcolon, List.append_assoc]
    exact .mk n.1 hblanks (h n hn)
  rw [List.forall_mem_cons] at hmember
  refine spells_object hlead hgap hlast hmember.1 ?_
  rw [List.forall₂_map_left_iff, List.forall₂_map_left_iff, List.forall₂_map_right_iff,
    List.forall₂_same]
  exact hmember.2

end items

/-! ## One line -/

theorem compactElements_eq_map (vs : List Json) : compactElements vs = vs.map compact := by
  induction vs with
  | nil => rfl
  | cons v vs ih => rw [compactElements, ih, List.map_cons]

theorem compactMembers_eq_map (ms : List (String × Json)) :
    compactMembers (ms.map fun (key, v) => (some key, v)) =
      ms.map fun m => quote m.1 ++ ":" ++ compact m.2 := by
  induction ms with
  | nil => rfl
  | cons m ms ih =>
    rw [List.map_cons, compactMembers, ih, List.map_cons]
    rfl

theorem toList_intercalate_comma (items : List String) :
    (",".intercalate items).toList = listing [] [] [] (items.map String.toList) := by
  rw [String.toList_intercalate, listing, List.nil_append, List.append_nil]
  rfl

theorem Plain.spells_compact {v : Json} (h : Plain v) : Spells (compact v).toList v := by
  induction h with
  | null => exact spells_null
  | bool b =>
    cases b with
    | false => exact spells_false
    | true => exact spells_true
  | number h => exact h.spells
  | text s => exact spells_quote s
  | @array vs h ih =>
    rw [compact, compactElements_eq_map]
    cases vs with
    | nil => exact spells_array_nil
    | cons v vs =>
      rw [String.toList_append, String.toList_append, toList_intercalate_comma]
      exact spells_elements blanks_nil blanks_nil blanks_nil ih
  | @record ms h ih =>
    unfold Json.record
    rw [compact, compactMembers_eq_map]
    cases ms with
    | nil => exact spells_object_nil
    | cons m ms =>
      rw [String.toList_append, String.toList_append, toList_intercalate_comma]
      exact spells_members blanks_nil blanks_nil blanks_nil rfl blanks_nil ih

/-- A value written on one line is read back. -/
theorem parse_compact {v : Json} (h : Plain v) : parse (compact v) = some v :=
  parse_of_spells h.spells_compact

/-! ## Indented -/

theorem indentedElements_eq_map (depth : Nat) (vs : List Json) :
    indentedElements depth vs = vs.map (indented depth) := by
  induction vs with
  | nil => rfl
  | cons v vs ih => rw [indentedElements, ih, List.map_cons]

theorem indentedMembers_eq_map (depth : Nat) (ms : List (String × Json)) :
    indentedMembers depth (ms.map fun (key, v) => (some key, v)) =
      ms.map fun m => quote m.1 ++ ": " ++ indented depth m.2 := by
  induction ms with
  | nil => rfl
  | cons m ms ih =>
    rw [List.map_cons, indentedMembers, ih, List.map_cons]
    rfl

theorem blanks_space : Blanks [' '] := by
  intro c hc
  rw [List.mem_singleton.mp hc]
  rfl

theorem blanks_newline (depth : Nat) : Blanks (newline depth).toList := by
  intro c hc
  unfold newline at hc
  rw [String.toList_append, String.toList_ofList, String.toList_ofList, List.mem_append] at hc
  rcases hc with hc | hc
  · rw [List.mem_singleton.mp hc]
    rfl
  · rw [(List.mem_replicate.mp hc).2]
    rfl

theorem toList_bracketed (depth : Nat) (opening closing : String) {items : List String}
    (h : items ≠ []) :
    (bracketed depth opening closing items).toList =
      opening.toList ++ listing (newline (depth + 1)).toList (newline (depth + 1)).toList
        (newline depth).toList (items.map String.toList) ++ closing.toList := by
  have hcomma : ("," : String).toList = [','] := rfl
  unfold bracketed listing
  rw [if_neg (by rwa [List.isEmpty_iff])]
  simp only [String.toList_append, String.toList_intercalate, List.append_assoc, hcomma,
    List.singleton_append]

theorem toList_bracketed_nil (depth : Nat) (opening closing : String) :
    (bracketed depth opening closing []).toList = opening.toList ++ closing.toList :=
  String.toList_append

theorem Plain.spells_indented {v : Json} (h : Plain v) (depth : Nat) :
    Spells (indented depth v).toList v := by
  -- What an array or an object holds stands one level deeper.
  induction h generalizing depth with
  | null =>
    rw [indented]
    exact spells_null
  | bool b =>
    rw [indented]
    cases b with
    | false => exact spells_false
    | true => exact spells_true
  | number h =>
    rw [indented]
    exact h.spells
  | text s =>
    rw [Json.text, indented]
    exact spells_quote s
  | @array vs h ih =>
    rw [indented, indentedElements_eq_map]
    cases vs with
    | nil =>
      rw [List.map_nil, toList_bracketed_nil]
      exact spells_array_nil
    | cons v vs =>
      rw [List.map_cons, toList_bracketed depth _ _ (List.cons_ne_nil _ _)]
      exact spells_elements (blanks_newline _) (blanks_newline _) (blanks_newline _) fun w hw =>
        ih w hw _
  | @record ms h ih =>
    unfold Json.record
    rw [indented, indentedMembers_eq_map]
    cases ms with
    | nil =>
      rw [List.map_nil, toList_bracketed_nil]
      exact spells_object_nil
    | cons m ms =>
      rw [List.map_cons, toList_bracketed depth _ _ (List.cons_ne_nil _ _)]
      have hcolon : (": " : String).toList = ':' :: [' '] := rfl
      exact spells_members (blanks_newline _) (blanks_newline _) (blanks_newline _) hcolon
        blanks_space fun n hn => ih n hn _

/-- An indented value is read back. -/
theorem parse_pretty {v : Json} (h : Plain v) : parse (pretty v) = some v :=
  parse_of_spells (h.spells_indented 0)

end IntegerProgramming.Json
