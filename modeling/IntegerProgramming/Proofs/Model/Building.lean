import IntegerProgramming.Proofs.Model.Points

/-! # Building models

    A model is built call by call: one call adds a variable, another one adds
    a constraint, in any order.  A constraint lists one coefficient for each
    variable that there is when it is added.  Later variables pad it with
    zeros, so it stays aligned; but one that did not fit then never fits again,
    because padding adds to both numbers at once.  The built model is therefore
    aligned exactly if every constraint was right at its own moment, and
    otherwise it is the first constraint that was wrong, as long as it is by
    now, that the model is refused for (`Model.misalignment_build`).

    That a variable is added changes nothing of what the others mean: a point
    of the larger model is a point of the smaller one with a value for the new
    variable within its bounds, and the new term is all that the objective
    gains. -/

namespace IntegerProgramming

/-- A call that extends a model. -/
inductive Edit (α : Type) where
  | addVariable (v : Variable α) (coefficient : α)
  | addConstraint (c : Constraint α)

variable {α : Type}

/-- The number of variables that the calls add. -/
def variableCount : List (Edit α) → Nat
  | [] => 0
  | .addVariable _ _ :: edits => variableCount edits + 1
  | .addConstraint _ :: edits => variableCount edits

/-- Whenever a constraint was added, it had one coefficient for each variable
    that there was. -/
def EachFits (edits : List (Edit α)) : Prop :=
  ∀ before c after, edits = before ++ .addConstraint c :: after →
    c.coefficients.length = variableCount before

/-- The first call, after those in front, that adds a constraint with a wrong
    number of coefficients. -/
structure FirstMisfit (edits before : List (Edit α)) (c : Constraint α) (after : List (Edit α)) :
    Prop where
  split : edits = before ++ .addConstraint c :: after
  fits : EachFits before
  misfit : c.coefficients.length ≠ variableCount before

theorem variableCount_append (edits edits' : List (Edit α)) :
    variableCount (edits ++ edits') = variableCount edits + variableCount edits' := by
  induction edits with
  | nil => simp [variableCount]
  | cons e edits ih =>
    cases e with
    | addVariable v k => simp only [List.cons_append, variableCount, ih]; omega
    | addConstraint c => simpa only [List.cons_append, variableCount] using ih

/-- What fits in the whole sequence of calls fits in its beginning. -/
theorem EachFits.of_append {edits edits' : List (Edit α)} (h : EachFits (edits ++ edits')) :
    EachFits edits := by
  intro before c after hsplit
  apply h before c (after ++ edits')
  rw [hsplit, List.append_assoc, List.cons_append]

/-- If not every constraint fits, there is a first one that does not. -/
theorem exists_firstMisfit {edits : List (Edit α)} (h : ¬ EachFits edits) :
    ∃ before c after, FirstMisfit edits before c after := by
  -- A constraint that does not fit is the first one, or there is another one
  -- in front of it.
  induction hlength : edits.length using Nat.strong_induction_on generalizing edits with
  | _ length ih =>
    unfold EachFits at h
    push Not at h
    obtain ⟨before, c, after, rfl, hmisfit⟩ := h
    by_cases hbefore : EachFits before
    · exact ⟨before, c, after, rfl, hbefore, hmisfit⟩
    · have hlt : before.length < length := by
        rw [← hlength, List.length_append, List.length_cons]
        omega
      obtain ⟨front, d, rest, hfirst⟩ := ih before.length hlt hbefore rfl
      refine ⟨front, d, rest ++ .addConstraint c :: after, ?_, hfirst.fits, hfirst.misfit⟩
      rw [hfirst.split, List.append_assoc, List.cons_append]

namespace Model

variable [Scalar α]

/-- The model after a call. -/
def edit (m : Model α) : Edit α → Model α
  | .addVariable v coefficient => m.addVariable v coefficient
  | .addConstraint c => m.addConstraint c

/-- The model that the calls make of a new one. -/
def build (sense : Sense) (edits : List (Edit α)) : Model α := edits.foldl edit { sense }

/-- What is said of a misaligned part when both it and the model have grown. -/
def Misalignment.grow (cause : Misalignment) (count : Nat) : Misalignment :=
  { cause with expected := cause.expected + count, found := cause.found + count }

/-! ## Alignment along the calls -/

variable {m : Model α} {sense : Sense} {edits : List (Edit α)}

/-- A new variable comes with its objective coefficient, and a constraint needs
    none. -/
theorem objective_edit (h : m.objective.length = m.vars.length) (e : Edit α) :
    (m.edit e).objective.length = (m.edit e).vars.length := by
  cases e with
  | addVariable v k => simp [edit, addVariable, h]
  | addConstraint c => exact h

omit [Scalar α] in
/-- With the objective in order, only a constraint can be wrong. -/
theorem misalignment_eq_find? (h : m.objective.length = m.vars.length) :
    m.misalignment = (m.constraints.find? fun c => c.coefficients.length != m.vars.length).map
      fun c => ⟨.constraint c.name, m.vars.length, c.coefficients.length⟩ := by
  unfold misalignment
  dsimp only
  rw [if_neg (not_not.mpr h)]
  congr 2
  funext c
  by_cases hlength : c.coefficients.length = m.vars.length <;> simp [hlength]

/-- A variable lengthens every constraint and what is expected of it. -/
theorem misalignment_addVariable (h : m.objective.length = m.vars.length) (v : Variable α)
    (k : α) : (m.addVariable v k).misalignment = m.misalignment.map (·.grow 1) := by
  have hvars : (m.addVariable v k).vars.length = m.vars.length + 1 := by simp [addVariable]
  -- Padding a row leaves it as right or wrong as it was.
  have hwrong : ((fun c : Constraint α => c.coefficients.length != m.vars.length + 1) ∘
      fun c : Constraint α => { c with coefficients := c.coefficients ++ [0] }) =
      fun c => c.coefficients.length != m.vars.length := by
    funext c
    simp [bne]
  rw [misalignment_eq_find? h, misalignment_eq_find? (m := m.addVariable v k)
    (objective_edit h (.addVariable v k)), hvars]
  show Option.map _ ((m.constraints.map _).find? _) = _
  rw [List.find?_map, hwrong, Option.map_map, Option.map_map]
  congr 1
  funext c
  simp [Misalignment.grow]

omit [Scalar α] in
/-- A constraint is wrong by itself, unless another one is wrong before it. -/
theorem misalignment_addConstraint (h : m.objective.length = m.vars.length) (c : Constraint α) :
    (m.addConstraint c).misalignment = m.misalignment.or
      (if c.coefficients.length = m.vars.length then none
       else some ⟨.constraint c.name, m.vars.length, c.coefficients.length⟩) := by
  rw [misalignment_eq_find? h, misalignment_eq_find? (m := m.addConstraint c) h]
  show Option.map _ ((m.constraints ++ [c]).find? fun d => d.coefficients.length != m.vars.length)
    = _
  rw [List.find?_append, Option.map_or]
  congr 1
  by_cases hlength : c.coefficients.length = m.vars.length
  · simp [hlength]
  · simp [hlength, addConstraint]

/-- A model that is wrong in one constraint stays wrong in it. -/
theorem misalignment_foldl {cause : Misalignment} (h : m.objective.length = m.vars.length)
    (hcause : m.misalignment = some cause) (edits : List (Edit α)) :
    (edits.foldl edit m).misalignment = some (cause.grow (variableCount edits)) := by
  induction edits generalizing m cause with
  | nil => exact hcause
  | cons e edits ih =>
    rw [List.foldl_cons]
    cases e with
    | addVariable v k =>
      have hstep : (m.edit (.addVariable v k)).misalignment = some (cause.grow 1) := by
        show (m.addVariable v k).misalignment = _
        rw [misalignment_addVariable h, hcause, Option.map_some]
      rw [ih (objective_edit h _) hstep]
      simp only [Misalignment.grow, variableCount, Option.some.injEq, Misalignment.mk.injEq,
        true_and]
      omega
    | addConstraint c =>
      have hstep : (m.edit (.addConstraint c)).misalignment = some cause := by
        show (m.addConstraint c).misalignment = _
        rw [misalignment_addConstraint h, hcause, Option.some_or]
      exact ih (objective_edit h _) hstep

theorem objective_build (sense : Sense) (edits : List (Edit α)) :
    (build sense edits).objective.length = (build sense edits).vars.length := by
  unfold build
  induction edits using List.reverseRecOn with
  | nil => rfl
  | append_singleton edits e ih =>
    rw [List.foldl_concat]
    exact objective_edit ih e

theorem vars_build (sense : Sense) (edits : List (Edit α)) :
    (build sense edits).vars.length = variableCount edits := by
  unfold build
  induction edits using List.reverseRecOn with
  | nil => rfl
  | append_singleton edits e ih =>
    rw [List.foldl_concat, variableCount_append, ← ih]
    cases e with
    | addVariable v k => simp [edit, addVariable, variableCount]
    | addConstraint c => simp [edit, addConstraint, variableCount]

/-- If every constraint fits, the model is aligned. -/
theorem aligned_build (h : EachFits edits) : (build sense edits).Aligned := by
  induction edits using List.reverseRecOn with
  | nil => rfl
  | append_singleton edits e ih =>
    have hbefore : (build sense edits).misalignment = none := ih h.of_append
    have hobjective := objective_build sense edits
    show (List.foldl edit _ (edits ++ [e])).misalignment = none
    rw [List.foldl_concat]
    cases e with
    | addVariable v k =>
      show ((build sense edits).addVariable v k).misalignment = none
      rw [misalignment_addVariable hobjective, hbefore, Option.map_none]
    | addConstraint c =>
      have hfits : c.coefficients.length = variableCount edits := h edits c [] rfl
      show ((build sense edits).addConstraint c).misalignment = none
      rw [misalignment_addConstraint hobjective, hbefore, vars_build, if_pos hfits, Option.none_or]

/-- The first constraint that did not fit is the one that is reported. -/
theorem misalignment_of_firstMisfit {before after : List (Edit α)} {c : Constraint α}
    (h : FirstMisfit edits before c after) :
    (build sense edits).misalignment = some ⟨.constraint c.name, variableCount edits,
      c.coefficients.length + variableCount after⟩ := by
  have hbefore : (build sense before).misalignment = none := aligned_build h.fits
  have hobjective := objective_build sense before
  have hstep : ((build sense before).edit (.addConstraint c)).misalignment =
      some ⟨.constraint c.name, variableCount before, c.coefficients.length⟩ := by
    show ((build sense before).addConstraint c).misalignment = _
    rw [misalignment_addConstraint hobjective, hbefore, vars_build, if_neg h.misfit,
      Option.none_or]
  have hrest := misalignment_foldl (objective_edit hobjective _) hstep after
  have hcount : variableCount edits = variableCount before + variableCount after := by
    rw [h.split, variableCount_append]
    rfl
  unfold build at hrest ⊢
  rw [h.split, List.foldl_append, List.foldl_cons, hrest, ← h.split, hcount]
  rfl

/-- A built model is aligned if and only if every constraint fitted when it was
    added. -/
theorem aligned_build_iff : (build sense edits).Aligned ↔ EachFits edits := by
  constructor
  · intro haligned
    by_contra hfits
    obtain ⟨before, c, after, hfirst⟩ := exists_firstMisfit hfits
    have hwrong : (build sense edits).misalignment = some _ := misalignment_of_firstMisfit hfirst
    rw [show (build sense edits).misalignment = none from haligned] at hwrong
    cases hwrong
  · exact aligned_build

/-- A built model is refused for the first constraint that did not fit. -/
theorem misalignment_build_iff {cause : Misalignment} :
    (build sense edits).misalignment = some cause ↔
      ∃ before c after, FirstMisfit edits before c after ∧
        cause = ⟨.constraint c.name, variableCount edits,
          c.coefficients.length + variableCount after⟩ := by
  constructor
  · intro hcause
    have hfits : ¬ EachFits edits := by
      intro hfits
      have hnone : (build sense edits).misalignment = none := aligned_build hfits
      rw [hnone] at hcause
      cases hcause
    obtain ⟨before, c, after, hfirst⟩ := exists_firstMisfit hfits
    have hwrong : (build sense edits).misalignment = some _ := misalignment_of_firstMisfit hfirst
    rw [hcause, Option.some.injEq] at hwrong
    exact ⟨before, c, after, hfirst, hwrong⟩
  · rintro ⟨before, c, after, hfirst, rfl⟩
    exact misalignment_of_firstMisfit hfirst

/-! ## The meaning of a larger model -/

theorem Aligned.addVariable (h : m.Aligned) (v : Variable α) (k : α) :
    (m.addVariable v k).Aligned := by
  show (m.addVariable v k).misalignment = none
  rw [misalignment_addVariable h.objective, show m.misalignment = none from h, Option.map_none]

end Model

/-- An inner product gains the product of two new entries at the end. -/
theorem Scalar.dot_concat [Scalar α] {a x : List α} (h : a.length = x.length) (c t : α) :
    Scalar.dot (a ++ [c]) (x ++ [t]) = Scalar.dot a x + c * t := by
  unfold dot sum
  rw [List.zipWith_append h, List.foldl_append]
  rfl

open Exact

/-- A zero coefficient does not matter for a number. -/
theorem Constraint.holds_padded {c : Constraint Exact} {x : List Exact}
    (h : c.coefficients.length = x.length) (t : ℚ) (tolerance : Exact) :
    ({ c with coefficients := c.coefficients ++ [0] } : Constraint Exact).Holds
      (x ++ [rational t]) tolerance ↔ c.Holds x tolerance := by
  have hlhs : ({ c with coefficients := c.coefficients ++ [0] } : Constraint Exact).lhs
      (x ++ [rational t]) = c.lhs x := by
    have hzero : (0 : Exact) * rational t = 0 := by
      show rational 0 * rational t = rational 0
      rw [rational_mul, zero_mul]
    unfold Constraint.lhs
    rw [Scalar.dot_concat h, hzero, add_zero_eq]
  unfold Constraint.Holds
  rw [hlhs]

namespace Model

variable {m : Model Exact}

theorem isFeasible_addVariable (h : m.Aligned) (v : Variable Exact) (k tolerance : Exact)
    (x : List Exact) (t : ℚ) :
    (m.addVariable v k).IsFeasible (x ++ [rational t]) tolerance ↔
      m.IsFeasible x tolerance ∧
        v.lowerBound - tolerance ≤ rational t ∧ rational t ≤ v.upperBound + tolerance := by
  unfold IsFeasible
  by_cases hlength : x.length = m.vars.length
  · have hzip : (m.addVariable v k).vars.zip (x ++ [rational t]) =
        m.vars.zip x ++ [(v, rational t)] := by
      show (m.vars ++ [v]).zip (x ++ [rational t]) = _
      rw [List.zip_append hlength.symm]
      rfl
    have hrows : (∀ c ∈ (m.addVariable v k).constraints, c.Holds (x ++ [rational t]) tolerance) ↔
        ∀ c ∈ m.constraints, c.Holds x tolerance := by
      show (∀ c ∈ m.constraints.map _, _) ↔ _
      rw [List.forall_mem_map]
      apply forall₂_congr
      intro c hc
      exact Constraint.holds_padded ((h.constraint hc).trans hlength.symm) t tolerance
    rw [hzip, hrows]
    simp only [List.forall_mem_append, List.forall_mem_singleton, List.length_append,
      List.length_singleton, hlength, show (m.addVariable v k).vars.length = m.vars.length + 1 by
        simp [addVariable], true_and]
    tauto
  · -- A point of another length is feasible in neither model.
    simp [hlength, addVariable]

theorem evaluate_addVariable (h : m.Aligned) (v : Variable Exact) (k : Exact) {x : List Exact}
    (hlength : x.length = m.vars.length) (t : Exact) :
    (m.addVariable v k).evaluate (x ++ [t]) = m.evaluate x + k * t :=
  Scalar.dot_concat (h.objective.trans hlength.symm) k t

/-- Calls in any order build an aligned model if and only if every constraint
    fitted at its moment, and the first that did not is the one reported, with
    its padding.  Over exact numbers a variable that is added to an aligned
    model keeps it aligned, asks of a point only that the new value lies within
    the bounds of the variable, and adds its own term to the objective. -/
theorem building_preserves :
    (∀ (β : Type) [Scalar β] (sense : Sense) (edits : List (Edit β)),
      ((build sense edits).Aligned ↔ EachFits edits) ∧
        ∀ cause, (build sense edits).misalignment = some cause ↔
          ∃ before c after, FirstMisfit edits before c after ∧
            cause = ⟨.constraint c.name, variableCount edits,
              c.coefficients.length + variableCount after⟩) ∧
    ∀ m : Model Exact, m.Aligned → ∀ (v : Variable Exact) (k tolerance : Exact) (x : List Exact)
        (t : ℚ),
      (m.addVariable v k).Aligned ∧
        ((m.addVariable v k).IsFeasible (x ++ [rational t]) tolerance ↔
          m.IsFeasible x tolerance ∧
            v.lowerBound - tolerance ≤ rational t ∧ rational t ≤ v.upperBound + tolerance) ∧
        (x.length = m.vars.length →
          (m.addVariable v k).evaluate (x ++ [rational t]) = m.evaluate x + k * rational t) := by
  constructor
  · intro β _ sense edits
    exact ⟨aligned_build_iff, fun cause => misalignment_build_iff⟩
  · intro m h v k tolerance x t
    refine ⟨h.addVariable v k, isFeasible_addVariable h v k tolerance x t, ?_⟩
    intro hlength
    exact evaluate_addVariable h v k hlength (rational t)

/-- A variable and a constraint on it, a second variable, a constraint that
    forgets it, and a third variable. -/
def sketch : List (Edit Exact) :=
  [.addVariable ⟨"x", .continuous, none, some (rational 4)⟩ (rational 1),
    .addConstraint ⟨"c", [rational 1], .atMost, rational 3⟩,
    .addVariable ⟨"y", .integer, none, some (rational 5)⟩ (rational 2),
    .addConstraint ⟨"d", [rational 1], .atMost, rational 3⟩,
    .addVariable ⟨"z", .binary, none, none⟩ (rational 1)]

theorem sketch_preserves :
    EachFits (sketch.take 3) ∧
      (build .maximize sketch).misalignment = some ⟨.constraint "d", 3, 2⟩ ∧
      (build .maximize (sketch.take 3)).IsFeasible [rational 2, rational 5] 0 ∧
      ¬ (build .maximize (sketch.take 3)).IsFeasible [rational 2, rational 6] 0 ∧
      (build .maximize (sketch.take 3)).evaluate [rational 2, rational 5] = rational 12 := by
  have hsketch := building_preserves.1 Exact .maximize sketch
  have hfits : EachFits (sketch.take 3) :=
    (building_preserves.1 Exact .maximize (sketch.take 3)).1.mp (by decide)
  have hfirst : FirstMisfit sketch (sketch.take 3) ⟨"d", [rational 1], .atMost, rational 3⟩
      (sketch.drop 4) := ⟨rfl, hfits, by decide⟩
  have hlarger := building_preserves.2 (build .maximize (sketch.take 2)) (by decide)
    ⟨"y", .integer, none, some (rational 5)⟩ (rational 2) 0 [rational 2]
  refine ⟨hfits, ?_, ?_, ?_, ?_⟩
  · exact (hsketch.2 _).mpr ⟨_, _, _, hfirst, rfl⟩
  · exact (hlarger 5).2.1.mpr ⟨by decide +kernel, by decide +kernel, by decide +kernel⟩
  · intro hfeasible
    exact absurd ((hlarger 6).2.1.mp hfeasible).2.2 (by decide +kernel)
  · refine ((hlarger 5).2.2 rfl).trans ?_
    decide +kernel

end Model

end IntegerProgramming
