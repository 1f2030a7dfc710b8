import IntegerProgramming.CommandLine.Arguments
import IntegerProgramming.CommandLine.Directory
import IntegerProgramming.Format.Outcome
import IntegerProgramming.Format.Wording
import IntegerProgramming.Json.Writer
import IntegerProgramming.Number.Written

/-! # The program

    Reads a model from a file and solves it, or checks it.  What the program
    prints, and its exit code, are a function of its arguments and of the one
    file that it reads; how the file is reached is left open. -/

namespace IntegerProgramming.CommandLine

/-- What a program has printed, and its exit code. -/
structure Output where
  code : Nat
  stdout : String := ""
  stderr : String := ""
  deriving DecidableEq

/-! ## Models from files -/

/-- Why a file gives no outcome. -/
inductive Fault where
  | file (path : String) (fault : FileFault)
  | malformed
  | failure (f : Failure Float)
  /-- The search was given up. -/
  | endless

def Fault.message : Fault → String
  | .file path fault => s!"Error reading {path}: {fault.message}"
  | .malformed => "Invalid model JSON: the text is not a model"
  | .failure f => f.message
  | .endless => "The search does not end"

/-- The model in a file, of which the content is given.  Its numbers are read
    by scaling. -/
def load (path : String) (content : Except FileFault String) : Except Fault (Model Float) :=
  match content with
  | .error fault => .error (.file path fault)
  | .ok source =>
    match Model.parse readScaled source with
    | .error .malformed => .error .malformed
    | .error (.misaligned cause) => .error (.failure (.misaligned cause))
    | .ok model => .ok model

/-- The outcome for a model that has been loaded. -/
def solveLoaded (solver : Solver Float) (model : Model Float) : Except Fault (Outcome Float) :=
  match solver.solve Search.endless model with
  | none => .error .endless
  | some (.error f) => .error (.failure f)
  | some (.ok outcome) => .ok outcome

/-! ## Summaries -/

/-- Fills a text up with blanks on the right. -/
def padRight (width : Nat) (s : String) : String :=
  s ++ String.ofList (List.replicate (width - s.length) ' ')

/-- Fills a text up with blanks on the left. -/
def padLeft (width : Nat) (s : String) : String :=
  String.ofList (List.replicate (width - s.length) ' ') ++ s

/-- A status in capitals. -/
def statusLine (s : Status) : String := s!"Status: {s.label.toUpper}"

def objectiveLines : Option Float → List String
  | none => []
  | some x => [s!"Objective: {fixedText 4 x}"]

def assignmentLines (a : Assignment Float) : List String :=
  if a.isEmpty then []
  else ["", "Variables:"] ++
    a.map fun (name, x) => s!"  {padRight 20 name} {padLeft 12 (fixedText 4 x)}"

def solutionLines (s : Solution Float) : List String :=
  s!"Pivots: {s.iterations}" :: s.trace.pivots.toList.map fun p => s!"  {p.text}"

def searchLines (r : SearchResult Float) : List String :=
  [s!"Nodes: {r.explored} explored, {r.fathomed} fathomed, {r.branched} branched " ++
    s!"(max depth {r.maxDepth})"] ++
  (r.rootBound.map fun x => s!"Root bound: {fixedText 4 x}").toList ++
  r.incumbents.toList.map fun d => s!"  incumbent {fixedText 4 d.objective} at node {d.node}"

def engineLines : Outcome Float → List String
  | .linear s => solutionLines s
  | .search r => searchLines r

/-- The lines that describe an outcome. -/
def summary (o : Outcome Float) : List String :=
  [statusLine o.status] ++ objectiveLines o.objective ++ assignmentLines o.assignment ++ [""] ++
    engineLines o

/-- Lines of text, each ended by a line break. -/
def lines (ls : List String) : String := String.join (ls.map (· ++ "\n"))

/-! ## Commands -/

/-- The record that takes the place of an outcome. -/
def faultJson (fault : Fault) : Json :=
  .record [("status", Status.error.toJson), ("message", .text fault.message)]

/-- Solves a model and prints the outcome.  Only an optimum counts as success,
    except where the outcome is printed as data. -/
def solveOutput (format : OutputFormat) : Except Fault (Outcome Float) → Output
  | .ok outcome =>
    match format with
    | .json => { code := 0, stdout := lines [outcome.toJson.pretty] }
    | .pretty =>
      { code := if outcome.status = .optimal then 0 else 1, stdout := lines (summary outcome) }
  | .error fault =>
    match format with
    | .json => { code := 1, stdout := lines [(faultJson fault).pretty] }
    | .pretty => { code := 1, stderr := lines [s!"Error: {fault.message}"] }

/-- Checks a model and says what the solver would do with it. -/
def checkOutput (path : String) : Except Fault (Model Float) → Output
  | .ok model =>
    { code := 0
      stdout := lines
        [s!"✓ {path} is valid",
          s!"  {model.vars.length} variables ({model.integralIndices.length} integral)",
          s!"  {model.constraints.length} constraints",
          s!"  method: {(defaultSolver.engineFor model).label}"] }
  | .error fault => { code := 1, stderr := lines [s!"✗ {path} has errors:", s!"  {fault.message}"] }

def usage : String := lines
  ["Usage: branchwise [-v]... solve FILE [OPTIONS]",
    "       branchwise [-v]... check FILE",
    "",
    "Options:",
    "  -m, --method auto|simplex|branch-and-bound|knapsack",
    "  -t, --traversal breadth-first|depth-first",
    "      --tolerance NUMBER",
    "      --max-iterations COUNT",
    "      --node-limit COUNT",
    "      --no-snapshots",
    "  -f, --format pretty|json",
    "  -v, --verbose",
    "  -h, --help"]

/-- Runs the program on its arguments; files are read by an action. -/
def run {m : Type → Type} [Monad m] (read : String → m (Except FileFault String))
    (args : List String) : m Output :=
  match command args with
  | none => pure { code := 2, stderr := usage }
  | some .help => pure { code := 0, stdout := usage }
  | some (.solve path solver format) => do
    return solveOutput format ((load path (← read path)).bind (solveLoaded solver))
  | some (.check path) => do
    return checkOutput path (load path (← read path))

end IntegerProgramming.CommandLine
