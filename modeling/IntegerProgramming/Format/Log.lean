import IntegerProgramming.Format.Wording

/-! # Log records

    An event as a record with a level, a message and named fields. -/

namespace IntegerProgramming

inductive Level where
  | info
  | debug
  | trace
  deriving DecidableEq

def Level.label : Level → String
  | .info => "INFO"
  | .debug => "DEBUG"
  | .trace => "TRACE"

inductive LogField where
  | size (n : Nat)
  | number (x : Float)
  | flag (b : Bool)
  | text (s : String)

structure LogRecord where
  level : Level
  message : String
  fields : List (String × LogField)

/-- A number that may be missing, as it is shown for inspection. -/
def inspectOption : Option Float → String
  | none => "None"
  | some x => s!"Some({Layout.inspection.render x})"

def Event.record : Event Float → LogRecord
  | .solving engine variableCount constraintCount =>
    ⟨.info, "solving model",
      [("method", .text engine.label), ("variables", .size variableCount),
        ("constraints", .size constraintCount)]⟩
  | .emptyRange reason =>
    ⟨.debug, "simplex: model infeasible before pivoting", [("reason", .text reason.message)]⟩
  | .pivot step repairs => ⟨.trace, step.text, if repairs then [("repair", .flag true)] else []⟩
  | .linearInfeasible reason pivots =>
    ⟨.debug, "simplex: infeasible",
      [("reason", .text reason.message), ("iterations", .size pivots)]⟩
  | .linearUnbounded pivots => ⟨.debug, "simplex: unbounded", [("iterations", .size pivots)]⟩
  | .linearOptimal pivots objective =>
    ⟨.debug, "simplex: optimal",
      [("iterations", .size pivots), ("objective", .text (inspectOption objective))]⟩
  | .branching parent label =>
    ⟨.debug, "branching", [("parent", .size parent), ("branch", .text label.text)]⟩
  | .newIncumbent node objective =>
    ⟨.debug, "new incumbent", [("node", .size node), ("objective", .number objective)]⟩
  | .fathomed node depth reason =>
    ⟨.debug, "fathomed",
      [("node", .size node), ("depth", .size depth), ("reason", .text reason.text)]⟩
  | .searchFinished status explored closed best =>
    ⟨.debug, "search finished",
      [("status", .text status.label), ("explored", .size explored),
        ("fathomed", .size closed), ("best", .text (inspectOption best))]⟩

end IntegerProgramming
