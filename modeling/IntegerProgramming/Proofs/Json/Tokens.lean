import IntegerProgramming.Json.Reader
import IntegerProgramming.Json.Writer
import Mathlib

/-! # Tokens that are read back

    What is written as a number or a string is read back with nothing taken
    from the text behind it.  For a number this needs that the text behind
    begins with something that does not belong to a number; in JSON that is a
    blank, a comma or a closing bracket (`Delimited`).

    A string is written one character after the other, but it is not read so:
    the reader looks at two escapes at once, because two of them may spell one
    character.  The escapes that are written are those of control characters,
    which are no halves of others. -/

namespace IntegerProgramming.Json

/-! ## Digits -/

/-- The characters that stand behind a value inside a larger one. -/
def isDelimiter (c : Char) : Bool := isBlank c || c = ',' || c = ']' || c = '\x7d'

/-- The text is at its end or goes on behind a value. -/
def Delimited (cs : List Char) : Prop := ∀ c ∈ cs.head?, isDelimiter c = true

theorem delimited_nil : Delimited [] := by
  intro c hc
  cases hc

theorem delimited_cons {c : Char} (h : isDelimiter c = true) (cs : List Char) :
    Delimited (c :: cs) := by
  intro d hd
  cases hd
  exact h

theorem not_digit_of_delimiter {c : Char} (h : isDelimiter c = true) : c.isDigit = false := by
  unfold isDelimiter isBlank at h
  simp only [Bool.or_eq_true, decide_eq_true_eq] at h
  rcases h with (((((rfl | rfl) | rfl) | rfl) | rfl) | rfl) | rfl <;> decide

/-- One digit or more. -/
def Digits (cs : List Char) : Prop := cs ≠ [] ∧ ∀ c ∈ cs, c.isDigit = true

theorem someDigits_append {ds cs : List Char} (hds : Digits ds)
    (hcs : ∀ c ∈ cs.head?, c.isDigit = false) : someDigits (ds ++ cs) = some (ds, cs) := by
  have hspan : (ds ++ cs).span Char.isDigit = (ds, cs) := by
    have hstop : cs.takeWhile Char.isDigit = [] ∧ cs.dropWhile Char.isDigit = cs := by
      cases cs with
      | nil => exact ⟨rfl, rfl⟩
      | cons c cs => simp [hcs c rfl]
    rw [List.span_eq_takeWhile_dropWhile, List.takeWhile_append_of_pos hds.2,
      List.dropWhile_append_of_pos hds.2, hstop.1, hstop.2, List.append_nil]
  unfold someDigits
  rw [hspan]
  cases ds with
  | nil => exact absurd rfl hds.1
  | cons d ds => rfl

/-! ## Numbers -/

/-- The whole part of a JSON number. -/
inductive Whole : List Char → Prop where
  | zero : Whole ['0']
  | digits {c : Char} {cs : List Char} (hne : c ≠ '0') (h : Digits (c :: cs)) : Whole (c :: cs)

/-- The fraction of a JSON number, with its point. -/
inductive Fraction : List Char → Prop where
  | none : Fraction []
  | digits {cs : List Char} (h : Digits cs) : Fraction ('.' :: cs)

/-- The exponent of a JSON number, with its mark. -/
inductive Exponent : List Char → Prop where
  | none : Exponent []
  | plus {cs : List Char} (h : Digits cs) : Exponent ('e' :: '+' :: cs)
  | minus {cs : List Char} (h : Digits cs) : Exponent ('e' :: '-' :: cs)

/-- A JSON number without its sign, as far as numbers are written here: a small
    mark and a signed exponent. -/
inductive Unsigned : List Char → Prop where
  | mk {whole fraction exponent : List Char} (hw : Whole whole) (hf : Fraction fraction)
      (he : Exponent exponent) : Unsigned (whole ++ fraction ++ exponent)

/-- A JSON number. -/
inductive IsNumber : List Char → Prop where
  | positive {cs : List Char} (h : Unsigned cs) : IsNumber cs
  | negative {cs : List Char} (h : Unsigned cs) : IsNumber ('-' :: cs)

section numbers

variable {whole fraction exponent rest : List Char}

theorem Exponent.digits_append (he : Exponent exponent) (hrest : Delimited rest) :
    exponentDigits (exponent ++ rest) = some (exponent, rest) := by
  have hstop : ∀ c ∈ rest.head?, c.isDigit = false := fun c hc =>
    not_digit_of_delimiter (hrest c hc)
  cases he with
  | none =>
    cases rest with
    | nil => rfl
    | cons c rest =>
      have hmark : ¬ (c = 'e' ∨ c = 'E') := by
        have hc := hrest c rfl
        rintro (rfl | rfl) <;> exact absurd hc (by decide)
      show (if c = 'e' ∨ c = 'E' then _ else some ([], c :: rest)) = _
      rw [if_neg hmark]
  | plus h =>
    show (someDigits (_ ++ rest)).map _ = _
    rw [someDigits_append h hstop]
    rfl
  | minus h =>
    show (someDigits (_ ++ rest)).map _ = _
    rw [someDigits_append h hstop]
    rfl

/-- An exponent does not prolong the digits before it. -/
theorem Exponent.stops (he : Exponent exponent) (hrest : Delimited rest) :
    ∀ c ∈ (exponent ++ rest).head?, c.isDigit = false ∧ c ≠ '.' := by
  cases he with
  | none =>
    intro c hc
    refine ⟨not_digit_of_delimiter (hrest c hc), ?_⟩
    rintro rfl
    exact absurd (hrest '.' hc) (by decide)
  | plus h =>
    rintro c ⟨⟩
    decide
  | minus h =>
    rintro c ⟨⟩
    decide

theorem Fraction.digits_append (hf : Fraction fraction)
    (hrest : ∀ c ∈ rest.head?, c.isDigit = false ∧ c ≠ '.') :
    fractionDigits (fraction ++ rest) = some (fraction, rest) := by
  cases hf with
  | none =>
    cases rest with
    | nil => rfl
    | cons c rest =>
      have hpoint := (hrest c rfl).2
      unfold fractionDigits
      split
      · rename_i heq
        cases heq
        exact absurd rfl hpoint
      · rfl
  | digits h =>
    show (someDigits (_ ++ rest)).map _ = _
    rw [someDigits_append h fun c hc => (hrest c hc).1]
    rfl

theorem Fraction.stops (hf : Fraction fraction) (hrest : ∀ c ∈ rest.head?, c.isDigit = false) :
    ∀ c ∈ (fraction ++ rest).head?, c.isDigit = false := by
  cases hf with
  | none => exact hrest
  | digits h =>
    rintro c ⟨⟩
    decide

theorem Whole.digits_append (hw : Whole whole) (hrest : ∀ c ∈ rest.head?, c.isDigit = false) :
    wholeDigits (whole ++ rest) = some (whole, rest) := by
  cases hw with
  | zero =>
    have hnone : rest.head?.any Char.isDigit = false := by
      cases rest with
      | nil => rfl
      | cons c rest => exact hrest c rfl
    show (if rest.head?.any Char.isDigit then none else some (['0'], rest)) = _
    rw [hnone]
    rfl
  | digits hne h =>
    unfold wholeDigits
    split
    · rename_i heq
      cases heq
      exact absurd rfl hne
    · exact someDigits_append h hrest

theorem Whole.head_digit (hw : Whole whole) : ∃ c cs, whole = c :: cs ∧ c.isDigit = true := by
  cases hw with
  | zero => exact ⟨'0', [], rfl, rfl⟩
  | @digits c cs hne h => exact ⟨c, cs, rfl, h.2 c List.mem_cons_self⟩

theorem IsNumber.head {cs : List Char} (h : IsNumber cs) :
    ∃ c ds, cs = c :: ds ∧ (c.isDigit = true ∨ c = '-') := by
  cases h with
  | positive h =>
    obtain ⟨hw, hf, he⟩ := h
    obtain ⟨c, ds, rfl, hdigit⟩ := hw.head_digit
    exact ⟨c, _, rfl, .inl hdigit⟩
  | negative h => exact ⟨'-', _, rfl, .inr rfl⟩

/-- A number is read back. -/
theorem IsNumber.lexeme_append {cs : List Char} (h : IsNumber cs) (hrest : Delimited rest) :
    numberLexeme (cs ++ rest) = some (cs, rest) := by
  -- From the back: each part ends where the next one begins.
  cases h with
  | positive h =>
    obtain ⟨hw, hf, he⟩ := h
    have hexponent := he.digits_append hrest
    have hfraction := hf.digits_append (he.stops hrest)
    have hwhole := hw.digits_append (hf.stops fun c hc => (he.stops hrest c hc).1)
    obtain ⟨c, ds, rfl, hdigit⟩ := hw.head_digit
    have hminus : c ≠ '-' := by
      rintro rfl
      exact absurd hdigit (by decide)
    unfold numberLexeme
    rw [List.append_assoc, List.append_assoc]
    split
    rename_i sign text heq
    split at heq
    · rename_i hcons
      cases hcons
      exact absurd rfl hminus
    · cases heq
      simp only [hwhole, hfraction, hexponent, Option.bind_eq_bind, Option.bind_some,
        List.nil_append]
      rfl
  | negative h =>
    obtain ⟨hw, hf, he⟩ := h
    have hexponent := he.digits_append hrest
    have hfraction := hf.digits_append (he.stops hrest)
    have hwhole := hw.digits_append (hf.stops fun c hc => (he.stops hrest c hc).1)
    unfold numberLexeme
    rw [List.cons_append, List.append_assoc, List.append_assoc]
    simp only [hwhole, hfraction, hexponent, Option.bind_eq_bind, Option.bind_some]
    rfl

end numbers

/-! ## Strings -/

/-- The three ways to write a character: by a letter, by its code, as it is. -/
theorem escape_cases (c : Char) :
    (∃ d, escape c = ['\\', d] ∧ d ≠ 'u' ∧ shortEscape d = some c) ∨
      (c.toNat < 32 ∧
        escape c = ['\\', 'u', '0', '0', hexDigit (c.toNat / 16), hexDigit (c.toNat % 16)]) ∨
      (escape c = [c] ∧ c ≠ '"' ∧ c ≠ '\\' ∧ 32 ≤ c.toNat) := by
  unfold escape
  split
  · exact .inl ⟨'"', rfl, by decide, rfl⟩
  · exact .inl ⟨'\\', rfl, by decide, rfl⟩
  · exact .inl ⟨'n', rfl, by decide, rfl⟩
  · exact .inl ⟨'r', rfl, by decide, rfl⟩
  · exact .inl ⟨'t', rfl, by decide, rfl⟩
  · exact .inl ⟨'b', rfl, by decide, rfl⟩
  · exact .inl ⟨'f', rfl, by decide, rfl⟩
  · rename_i hquote hbackslash _ _ _ _ _
    right
    by_cases hcontrol : c.toNat < 32
    · exact .inl ⟨hcontrol, if_pos hcontrol⟩
    · exact .inr ⟨if_neg hcontrol, hquote, hbackslash, Nat.not_lt.mp hcontrol⟩

/-- The code that a control character is written by. -/
theorem hexUnit_hexDigit : ∀ n < 32, hexUnit '0' '0' (hexDigit (n / 16)) (hexDigit (n % 16)) =
    some n := by
  decide

theorem not_surrogate {n : Nat} (h : n < 32) : isLeading n = false ∧ isTrailing n = false := by
  unfold isLeading isTrailing
  simp
  omega

/-- Characters that are written, the quotation mark, and what stands behind. -/
def closing (cs rest : List Char) : List Char := cs.flatMap escape ++ '"' :: rest

theorem closing_cons (c : Char) (cs rest : List Char) :
    closing (c :: cs) rest = escape c ++ closing cs rest := by
  unfold closing
  rw [List.flatMap_cons, List.append_assoc]

/-- A code that is written belongs to a control character. -/
theorem control_of_closing {cs rest tail : List Char} {a b c d : Char}
    (h : closing cs rest = '\\' :: 'u' :: a :: b :: c :: d :: tail) :
    ∃ n < 32, hexUnit a b c d = some n := by
  cases cs with
  | nil => cases h
  | cons ch cs =>
    rw [closing_cons] at h
    rcases escape_cases ch with ⟨e, hescape, hne, -⟩ | ⟨hcontrol, hescape⟩ | ⟨hescape, -, hne, -⟩
    · rw [hescape] at h
      exact absurd (List.cons.inj (List.cons.inj h).2).1 hne
    · rw [hescape] at h
      cases h
      exact ⟨ch.toNat, hcontrol, hexUnit_hexDigit _ hcontrol⟩
    · rw [hescape] at h
      exact absurd (List.cons.inj h).1 hne

section reading

variable (content : Option (List Char))

theorem stringRest_letter {c d : Char} (hc : c ≠ 'u') (hd : shortEscape c = some d)
    (rest : List Char) :
    stringRest content ('\\' :: c :: rest) = stringRest (content.map (d :: ·)) rest := by
  rw [stringRest, hd]
  · intro _ _ _ _ _ _ _ _ _ hu
    exact absurd hu hc
  · intro _ _ _ _ _ hu
    exact absurd hu hc

theorem stringRest_plain {c : Char} (hquote : c ≠ '"') (hbackslash : c ≠ '\\')
    (hcontrol : 32 ≤ c.toNat) (rest : List Char) :
    stringRest content (c :: rest) = stringRest (content.map (c :: ·)) rest := by
  have hallowed : ¬ (c.toNat < 32 ∨ c = '\\') := by
    rintro (h | h)
    · exact absurd h (Nat.not_lt.mpr hcontrol)
    · exact hbackslash h
  rw [stringRest, if_neg hallowed]
  · exact hquote
  · intro _ _ _ _ _ _ _ _ _ h
    exact absurd h hbackslash
  · intro _ _ _ _ _ h
    exact absurd h hbackslash
  · intro _ _ h
    exact absurd h hbackslash

/-- A code is read alone, whatever is written behind it. -/
theorem stringRest_code {n : Nat} (hn : n < 32) (cs rest : List Char) :
    stringRest content ('\\' :: 'u' :: '0' :: '0' :: hexDigit (n / 16) :: hexDigit (n % 16) ::
      closing cs rest) = stringRest (content.map (Char.ofNat n :: ·)) (closing cs rest) := by
  have hunit := hexUnit_hexDigit n hn
  obtain ⟨hleading, htrailing⟩ := not_surrogate hn
  by_cases hnext : ∃ a b c d tail, closing cs rest = '\\' :: 'u' :: a :: b :: c :: d :: tail
  · obtain ⟨a, b, c, d, tail, hclosing⟩ := hnext
    obtain ⟨k, -, hk⟩ := control_of_closing hclosing
    rw [hclosing, stringRest, hunit, hk]
    simp only [hleading, htrailing, Bool.false_and, Bool.or_false]
    rfl
  · rw [stringRest, hunit]
    · simp only [hleading, htrailing, Bool.or_false]
      rfl
    · intro a b c d tail hclosing
      exact hnext ⟨a, b, c, d, tail, hclosing⟩

end reading

/-- Characters that are written are read back. -/
theorem stringRest_closing (cs rest before : List Char) :
    stringRest (some before) (closing cs rest) = some (some (before.reverse ++ cs), rest) := by
  induction cs generalizing before with
  | nil =>
    show stringRest (some before) ('"' :: rest) = _
    rw [stringRest, List.append_nil]
    rfl
  | cons c cs ih =>
    have hread : stringRest (some before) (closing (c :: cs) rest) =
        stringRest (some (c :: before)) (closing cs rest) := by
      rw [closing_cons]
      rcases escape_cases c with ⟨d, hescape, hne, hd⟩ | ⟨hcontrol, hescape⟩ |
        ⟨hescape, hquote, hbackslash, hcontrol⟩
      · rw [hescape]
        exact stringRest_letter (some before) hne hd _
      · have hcode := stringRest_code (some before) hcontrol cs rest
        rw [Char.ofNat_toNat] at hcode
        rw [hescape]
        exact hcode
      · rw [hescape]
        exact stringRest_plain (some before) hquote hbackslash hcontrol _
    rw [hread, ih, List.reverse_cons, List.append_assoc]
    rfl

/-- A string is read back. -/
theorem toList_quote (s : String) : ∃ body, (quote s).toList = '"' :: body ∧
    ∀ rest, stringBody (body ++ rest) = some (some s, rest) := by
  refine ⟨s.toList.flatMap escape ++ ['"'], ?_, fun rest => ?_⟩
  · unfold quote
    rw [String.toList_ofList]
    rfl
  · have hclosing : s.toList.flatMap escape ++ ['"'] ++ rest = closing s.toList rest := by
      unfold closing
      rw [List.append_assoc]
      rfl
    unfold stringBody
    rw [hclosing, stringRest_closing]
    simp

end IntegerProgramming.Json
