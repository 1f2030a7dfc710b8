import IntegerProgramming.Number.Scalar
import IntegerProgramming.Number.Layout

/-! # Doubles as scalars

    The instance that the program runs on.  Numbers inside names and messages
    are written positionally with the fewest digits that identify them. -/

namespace IntegerProgramming

theorem Binary64.rank_trans (a b c : Int) (hab : decide (a ≤ b) = true)
    (hbc : decide (b ≤ c) = true) : decide (a ≤ c) = true := by
  simp only [decide_eq_true_eq] at *
  exact Int.le_trans hab hbc

theorem Binary64.rank_total (a b : Int) : (decide (a ≤ b) || decide (b ≤ a)) = true := by
  simpa using Int.le_total a b

instance : Scalar Float where
  zero := 0.0
  one := 1.0
  below x y := decide (x < y)
  atMost x y := decide (x ≤ y)
  infinity := 1.0 / 0.0
  floor := Float.floor
  ceil := Float.ceil
  round := Float.round
  precedes x y := decide (Binary64.rank x.toBits.toNat ≤ Binary64.rank y.toBits.toNat)
  precedes_trans _ _ _ := Binary64.rank_trans _ _ _
  precedes_total _ _ := Binary64.rank_total _ _
  text := Layout.plain.render

end IntegerProgramming
