import IntegerProgramming.Proofs.Json.Tokens

/-! # Texts that spell values

    A text spells a value if the reader makes the value of it, whatever stands
    behind, as long as the fuel is twice its length (`Spells`).  Brackets,
    commas and blanks put spelled values together to spelled values. -/

namespace IntegerProgramming.Json

/-! ## Blanks -/

/-- Nothing but blanks. -/
def Blanks (cs : List Char) : Prop := ∀ c ∈ cs, isBlank c = true

theorem blanks_nil : Blanks [] := by
  intro c hc
  cases hc

theorem skipBlanks_append {b : List Char} (hb : Blanks b) (cs : List Char) :
    skipBlanks (b ++ cs) = skipBlanks cs := List.dropWhile_append_of_pos hb

theorem skipBlanks_cons {c : Char} (hc : isBlank c = false) (cs : List Char) :
    skipBlanks (c :: cs) = c :: cs := by
  unfold skipBlanks
  rw [List.dropWhile_cons, hc]
  rfl

theorem value_blanks {b : List Char} (hb : Blanks b) (fuel : Nat) (cs : List Char) :
    value fuel (b ++ cs) = value fuel cs := by
  cases fuel with
  | zero => rw [value, value]
  | succ fuel => rw [value, value, skipBlanks_append hb]

/-- Blanks before a delimiter delimit as well. -/
theorem delimited_blanks {b : List Char} (hb : Blanks b) {c : Char} (hc : isDelimiter c = true)
    (cs : List Char) : Delimited (b ++ c :: cs) := by
  cases b with
  | nil => exact delimited_cons hc cs
  | cons d b =>
    refine delimited_cons ?_ _
    unfold isDelimiter
    rw [hb d List.mem_cons_self]
    rfl

/-! ## Spelling -/

/-- The reader makes the value of the text, whatever stands behind it. -/
structure Spells (cs : List Char) (v : Json) : Prop where
  head : ∃ c ds, cs = c :: ds ∧ isBlank c = false ∧ c ≠ ']'
  reads {fuel : Nat} {rest : List Char} (hfuel : 2 * cs.length ≤ fuel) (hrest : Delimited rest) :
    value fuel (cs ++ rest) = some (v, rest)

theorem parse_of_spells {source : String} {v : Json} (h : Spells source.toList v) :
    parse source = some v := by
  have hread := h.reads (Nat.le_add_right (2 * source.toList.length) 2) delimited_nil
  rw [List.append_nil] at hread
  unfold parse
  dsimp only
  rw [hread]
  rfl

/-- Reading a text that is not empty takes fuel. -/
theorem spells_of_reads {c : Char} {ds : List Char} {v : Json} (hc : isBlank c = false)
    (hbracket : c ≠ ']')
    (h : ∀ fuel rest, 2 * (c :: ds).length ≤ fuel + 1 → Delimited rest →
      value (fuel + 1) (c :: ds ++ rest) = some (v, rest)) : Spells (c :: ds) v := by
  refine ⟨⟨c, ds, rfl, hc, hbracket⟩, fun {fuel rest} hfuel hrest => ?_⟩
  cases fuel with
  | zero =>
    rw [List.length_cons] at hfuel
    omega
  | succ fuel => exact h fuel rest hfuel hrest

theorem spells_null : Spells ['n', 'u', 'l', 'l'] .null :=
  spells_of_reads rfl (by decide) fun fuel rest _ _ => by
    rw [value, List.cons_append, skipBlanks_cons rfl]
    rfl

theorem spells_true : Spells ['t', 'r', 'u', 'e'] (.bool true) :=
  spells_of_reads rfl (by decide) fun fuel rest _ _ => by
    rw [value, List.cons_append, skipBlanks_cons rfl]
    rfl

theorem spells_false : Spells ['f', 'a', 'l', 's', 'e'] (.bool false) :=
  spells_of_reads rfl (by decide) fun fuel rest _ _ => by
    rw [value, List.cons_append, skipBlanks_cons rfl]
    rfl

/-- The first character of a number begins no other value. -/
theorem number_start {c : Char} (h : c.isDigit = true ∨ c = '-') :
    isBlank c = false ∧ c ≠ ']' ∧ c ≠ 'n' ∧ c ≠ 't' ∧ c ≠ 'f' ∧ c ≠ '"' ∧ c ≠ '[' ∧ c ≠ '\x7b' := by
  have hblank : isBlank c = false := by
    by_contra hblank
    rw [Bool.not_eq_false] at hblank
    unfold isBlank at hblank
    simp only [Bool.or_eq_true, decide_eq_true_eq] at hblank
    rcases hblank with ((rfl | rfl) | rfl) | rfl <;> exact absurd h (by decide)
  refine ⟨hblank, ?_, ?_, ?_, ?_, ?_, ?_, ?_⟩ <;> rintro rfl <;> exact absurd h (by decide)

theorem IsNumber.spells {lexeme : String} (h : IsNumber lexeme.toList) :
    Spells lexeme.toList (.number lexeme) := by
  obtain ⟨c, ds, hcons, hstart⟩ := h.head
  obtain ⟨hblank, hbracket, hn, ht, hf, hquote, hopen, hbrace⟩ := number_start hstart
  have hlexeme : String.ofList (c :: ds) = lexeme := by
    rw [← hcons, String.ofList_toList]
  rw [hcons] at h ⊢
  refine spells_of_reads hblank hbracket fun fuel rest _ hrest => ?_
  have hread := h.lexeme_append hrest
  rw [List.cons_append] at hread ⊢
  rw [value, skipBlanks_cons hblank]
  split
  · rename_i heq; exact absurd (List.cons.inj heq).1 hn
  · rename_i heq; exact absurd (List.cons.inj heq).1 ht
  · rename_i heq; exact absurd (List.cons.inj heq).1 hf
  · rename_i heq; exact absurd (List.cons.inj heq).1 hquote
  · rename_i heq; exact absurd (List.cons.inj heq).1 hopen
  · rename_i heq; exact absurd (List.cons.inj heq).1 hbrace
  · rw [hread]
    exact congrArg (fun l => some (Json.number l, rest)) hlexeme

theorem spells_quote (s : String) : Spells (quote s).toList (.string (some s)) := by
  obtain ⟨body, hbody, hread⟩ := toList_quote s
  rw [hbody]
  refine spells_of_reads rfl (by decide) fun fuel rest _ _ => ?_
  rw [value, List.cons_append, skipBlanks_cons rfl]
  show (stringBody (body ++ rest)).map _ = _
  rw [hread rest]
  rfl

/-! ## Between brackets -/

/-- What stands between brackets: items with commas between them and blanks
    before the first one, behind the commas and after the last one. -/
def listing (lead gap last : List Char) (items : List (List Char)) : List Char :=
  lead ++ (',' :: gap).intercalate items ++ last

theorem listing_singleton (lead gap last item rest : List Char) :
    listing lead gap last [item] ++ rest = lead ++ (item ++ (last ++ rest)) := by
  unfold listing
  rw [List.intercalate_singleton, List.append_assoc, List.append_assoc]

theorem listing_cons_cons (lead gap last item next rest : List Char) (items : List (List Char)) :
    listing lead gap last (item :: next :: items) ++ rest =
      lead ++ (item ++ ',' :: (listing gap gap last (next :: items) ++ rest)) := by
  unfold listing
  rw [List.intercalate_cons_cons]
  simp only [List.append_assoc, List.cons_append]

/-- The first item stands behind the first blanks. -/
theorem listing_head (lead gap last item rest : List Char) (items : List (List Char)) :
    ∃ tail, listing lead gap last (item :: items) ++ rest = lead ++ (item ++ tail) := by
  cases items with
  | nil => exact ⟨_, listing_singleton lead gap last item rest⟩
  | cons next items => exact ⟨_, listing_cons_cons lead gap last item next rest items⟩

theorem length_listing_singleton (lead gap last item : List Char) :
    (listing lead gap last [item]).length = lead.length + item.length + last.length := by
  have h := congrArg List.length (listing_singleton lead gap last item [])
  simp only [List.length_append, List.length_nil] at h
  omega

theorem length_listing_cons_cons (lead gap last item next : List Char)
    (items : List (List Char)) :
    (listing lead gap last (item :: next :: items)).length =
      lead.length + item.length + 1 + (listing gap gap last (next :: items)).length := by
  have h := congrArg List.length (listing_cons_cons lead gap last item next [] items)
  simp only [List.length_append, List.length_cons, List.length_nil] at h
  omega

section brackets

variable {lead gap last : List Char} {fuel : Nat} {cs rest tail : List Char} {v : Json}

theorem elements_comma {before : List Json} (h : value fuel cs = some (v, rest))
    (hrest : skipBlanks rest = ',' :: tail) :
    elements (fuel + 1) before cs = elements fuel (v :: before) tail := by
  rw [elements, h]
  dsimp only
  rw [hrest]
  rfl

theorem elements_bracket {before : List Json} (h : value fuel cs = some (v, rest))
    (hrest : skipBlanks rest = ']' :: tail) :
    elements (fuel + 1) before cs = some (.array (v :: before).reverse, tail) := by
  rw [elements, h]
  dsimp only
  rw [hrest]
  rfl

/-- Spelled elements are read up to the end of their array. -/
theorem elements_listing (hlead : Blanks lead) (hgap : Blanks gap) (hlast : Blanks last)
    {text : List Char} {texts : List (List Char)} {vs before : List Json} (hv : Spells text v)
    (hvs : List.Forall₂ Spells texts vs)
    (hfuel : 2 * (listing lead gap last (text :: texts)).length ≤ fuel) :
    elements (fuel + 1) before (listing lead gap last (text :: texts) ++ ']' :: rest) =
      some (.array (before.reverse ++ v :: vs), rest) := by
  -- Behind the first element the blanks are those of a gap, and one unit of
  -- fuel less is left for a text that is shorter by a comma at least.
  induction hvs generalizing lead text v fuel before with
  | nil =>
    rw [length_listing_singleton] at hfuel
    have hread : value fuel (listing lead gap last [text] ++ ']' :: rest) =
        some (v, last ++ ']' :: rest) := by
      rw [listing_singleton, value_blanks hlead]
      exact hv.reads (by omega) (delimited_blanks hlast rfl rest)
    have hend : skipBlanks (last ++ ']' :: rest) = ']' :: rest := by
      rw [skipBlanks_append hlast, skipBlanks_cons rfl]
    rw [elements_bracket hread hend, List.reverse_cons]
  | @cons next v' texts vs hnext hvs ih =>
    rw [length_listing_cons_cons] at hfuel
    obtain ⟨fuel, rfl⟩ : ∃ k, fuel = k + 1 := ⟨fuel - 1, by omega⟩
    have hread : value (fuel + 1) (listing lead gap last (text :: next :: texts) ++ ']' :: rest) =
        some (v, ',' :: (listing gap gap last (next :: texts) ++ ']' :: rest)) := by
      rw [listing_cons_cons, value_blanks hlead]
      exact hv.reads (by omega) (delimited_cons rfl _)
    rw [elements_comma hread (skipBlanks_cons rfl _), ih hgap hnext (by omega), List.reverse_cons,
      List.append_assoc]
    rfl

theorem value_array {c : Char} (hcs : skipBlanks cs = c :: tail) (hc : c ≠ ']') :
    value (fuel + 1) ('[' :: cs) = elements fuel [] cs := by
  rw [value, skipBlanks_cons rfl]
  simp only [hcs]
  split
  · rename_i heq
    exact absurd (List.cons.inj heq).1 hc
  · rfl

/-- The text of an array with elements. -/
theorem spells_array (hlead : Blanks lead) (hgap : Blanks gap) (hlast : Blanks last)
    {text : List Char} {texts : List (List Char)} {vs : List Json} (hv : Spells text v)
    (hvs : List.Forall₂ Spells texts vs) :
    Spells ('[' :: (listing lead gap last (text :: texts) ++ [']'])) (.array (v :: vs)) :=
  spells_of_reads rfl (by decide) fun fuel rest hfuel _ => by
    simp only [List.length_cons, List.length_append, List.length_nil] at hfuel
    obtain ⟨fuel, rfl⟩ : ∃ k, fuel = k + 1 := ⟨fuel - 1, by omega⟩
    obtain ⟨tail, hfirst⟩ := listing_head lead gap last text (']' :: rest) texts
    obtain ⟨c, ds, rfl, hblank, hbracket⟩ := hv.head
    rw [List.cons_append] at hfirst
    have hskip : skipBlanks (listing lead gap last ((c :: ds) :: texts) ++ ']' :: rest) =
        c :: (ds ++ tail) := by
      rw [hfirst, skipBlanks_append hlead, skipBlanks_cons hblank]
    rw [List.cons_append, List.append_assoc, List.singleton_append, value_array hskip hbracket,
      elements_listing hlead hgap hlast hv hvs (by omega)]
    rfl

/-- The text of a member: its key, a colon, blanks and its value. -/
inductive SpellsMember : List Char → Option String × Json → Prop where
  | mk (key : String) {blanks text : List Char} {v : Json} (hb : Blanks blanks)
      (hv : Spells text v) :
      SpellsMember ((quote key).toList ++ ':' :: (blanks ++ text)) (some key, v)

theorem SpellsMember.head {text : List Char} {m : Option String × Json}
    (h : SpellsMember text m) : ∃ ds, text = '"' :: ds := by
  cases h with
  | mk key hb hv =>
    obtain ⟨body, hbody, -⟩ := toList_quote key
    exact ⟨_, by rw [hbody, List.cons_append]⟩

/-- What the reader does behind a member: it goes on, or closes the object. -/
def afterMember (fuel : Nat) (before : List (Option String × Json)) :
    List Char → Option (Json × List Char)
  | ',' :: rest => members fuel before rest
  | '\x7d' :: rest => some (.object before.reverse, rest)
  | _ => none

/-- A member is read up to what separates it from the next one. -/
theorem members_member {text : List Char} {m : Option String × Json}
    {before : List (Option String × Json)} (hlead : Blanks lead) (h : SpellsMember text m)
    (hfuel : 2 * text.length ≤ fuel) (hrest : Delimited rest) :
    members (fuel + 1) before (lead ++ (text ++ rest)) =
      afterMember fuel (m :: before) (skipBlanks rest) := by
  cases h with
  | @mk key blanks text v hb hv =>
    obtain ⟨body, hbody, hkey⟩ := toList_quote key
    have hcolon : skipBlanks (':' :: (blanks ++ (text ++ rest))) =
        ':' :: (blanks ++ (text ++ rest)) := skipBlanks_cons rfl _
    have hvalue : value fuel (blanks ++ (text ++ rest)) = some (v, rest) := by
      rw [value_blanks hb]
      refine hv.reads ?_ hrest
      simp only [List.length_append, List.length_cons] at hfuel
      omega
    rw [hbody, members, skipBlanks_append hlead]
    simp only [List.cons_append, List.append_assoc]
    rw [skipBlanks_cons rfl]
    simp only [hkey, hcolon, hvalue]
    rfl

/-- Spelled members are read up to the end of their object. -/
theorem members_listing (hlead : Blanks lead) (hgap : Blanks gap) (hlast : Blanks last)
    {text : List Char} {texts : List (List Char)} {m : Option String × Json}
    {ms before : List (Option String × Json)} (hm : SpellsMember text m)
    (hms : List.Forall₂ SpellsMember texts ms)
    (hfuel : 2 * (listing lead gap last (text :: texts)).length ≤ fuel) :
    members (fuel + 1) before (listing lead gap last (text :: texts) ++ '\x7d' :: rest) =
      some (.object (before.reverse ++ m :: ms), rest) := by
  induction hms generalizing lead text m fuel before with
  | nil =>
    rw [length_listing_singleton] at hfuel
    rw [listing_singleton, members_member hlead hm (by omega) (delimited_blanks hlast rfl rest),
      skipBlanks_append hlast, skipBlanks_cons rfl]
    show some (Json.object (m :: before).reverse, rest) = _
    rw [List.reverse_cons]
  | @cons next m' texts ms hnext hms ih =>
    rw [length_listing_cons_cons] at hfuel
    obtain ⟨fuel, rfl⟩ : ∃ k, fuel = k + 1 := ⟨fuel - 1, by omega⟩
    rw [listing_cons_cons, members_member hlead hm (by omega) (delimited_cons rfl _),
      skipBlanks_cons rfl]
    show members (fuel + 1) (m :: before) (listing gap gap last (next :: texts) ++ _) = _
    rw [ih hgap hnext (by omega), List.reverse_cons, List.append_assoc]
    rfl

theorem value_object {ds : List Char} (hcs : skipBlanks cs = '"' :: ds) :
    value (fuel + 1) ('\x7b' :: cs) = members fuel [] cs := by
  rw [value, skipBlanks_cons rfl]
  simp only [hcs]
  rfl

/-- The text of an object with members. -/
theorem spells_object (hlead : Blanks lead) (hgap : Blanks gap) (hlast : Blanks last)
    {text : List Char} {texts : List (List Char)} {m : Option String × Json}
    {ms : List (Option String × Json)} (hm : SpellsMember text m)
    (hms : List.Forall₂ SpellsMember texts ms) :
    Spells ('\x7b' :: (listing lead gap last (text :: texts) ++ ['\x7d'])) (.object (m :: ms)) :=
  spells_of_reads rfl (by decide) fun fuel rest hfuel _ => by
    simp only [List.length_cons, List.length_append, List.length_nil] at hfuel
    obtain ⟨fuel, rfl⟩ : ∃ k, fuel = k + 1 := ⟨fuel - 1, by omega⟩
    obtain ⟨tail, hfirst⟩ := listing_head lead gap last text ('\x7d' :: rest) texts
    obtain ⟨ds, rfl⟩ := hm.head
    have hskip : skipBlanks (listing lead gap last (('"' :: ds) :: texts) ++ '\x7d' :: rest) =
        '"' :: (ds ++ tail) := by
      rw [hfirst, skipBlanks_append hlead, List.cons_append, skipBlanks_cons rfl]
    rw [List.cons_append, List.append_assoc, List.singleton_append, value_object hskip,
      members_listing hlead hgap hlast hm hms (by omega)]
    rfl

end brackets

/-- The text of an empty array. -/
theorem spells_array_nil : Spells ['[', ']'] (.array []) :=
  spells_of_reads rfl (by decide) fun fuel rest _ _ => by
    rw [value, List.cons_append, skipBlanks_cons rfl]
    rfl

/-- The text of an empty object. -/
theorem spells_object_nil : Spells ['\x7b', '\x7d'] (.object []) :=
  spells_of_reads rfl (by decide) fun fuel rest _ _ => by
    rw [value, List.cons_append, skipBlanks_cons rfl]
    rfl

end IntegerProgramming.Json
