import IntegerProgramming.Json.Decode
import IntegerProgramming.Number.Scaling

/-! # Doubles in JSON

    A double is written with the fewest digits that read back as the same
    double.  There are two readers: the exact one takes the nearest double, the
    quick one scales.  Both refuse a number beyond the largest double. -/

namespace IntegerProgramming

instance : Written Float where
  lexeme := Layout.data.render

/-- The nearest double to a JSON number, if it is finite. -/
def readNearest (lexeme : String) : Option Float :=
  (Numeral.ofText? lexeme).bind fun n =>
    if Scalar.IsFinite n.nearest then some n.nearest else none

/-- The double that scaling gives for a JSON number, if it is finite. -/
def readScaled (lexeme : String) : Option Float := (Numeral.ofText? lexeme).bind Numeral.scaled?

end IntegerProgramming
