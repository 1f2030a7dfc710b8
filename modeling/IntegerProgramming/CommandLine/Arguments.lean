import IntegerProgramming.Number.Numeral
import IntegerProgramming.Solver

/-! # Arguments

    The command line: a command, the options it knows, and its operands.
    Long options take their value after an equals sign or as the next
    argument, short ones also without anything in between; short options
    without a value may be written together.  Two dashes end the options. -/

namespace IntegerProgramming.CommandLine

/-! ## Splitting arguments -/

/-- An option that a command knows. -/
structure OptionSpec where
  long : String
  short : Option Char := none
  /-- The values that the option takes; without this it takes none. -/
  accepts : Option (String → Bool) := none
  /-- Whether it may be given more than once. -/
  repeats : Bool := false

/-- The option that asks for help.  Nothing after it matters. -/
def helpOption : OptionSpec := { long := "help", short := some 'h' }

def OptionSpec.takesValue (spec : OptionSpec) : Bool := spec.accepts.isSome

/-- A part of a command line. -/
inductive Token where
  | operand (text : String)
  | flag (name : String)
  | valued (name value : String)
  deriving DecidableEq

/-- What a single argument is. -/
inductive Argument where
  | operand
  | complete (tokens : List Token)
  /-- The value of the last option is in the next argument. -/
  | awaiting (tokens : List Token) (name : String)
  | unknown

/-- One dash alone is an operand. -/
def looksLikeOption (arg : String) : Bool := arg.startsWith "-" && arg ≠ "-"

/-- A long option, without its dashes. -/
def longOption (specs : List OptionSpec) (body : List Char) : Argument :=
  let name := String.ofList (body.takeWhile (· ≠ '='))
  let value := body.dropWhile (· ≠ '=')
  match specs.find? (·.long = name), value with
  | none, _ => .unknown
  | some spec, [] => if spec.takesValue then .awaiting [] name else .complete [.flag name]
  | some spec, _ :: value =>
    if spec.takesValue then .complete [.valued name (String.ofList value)] else .unknown

/-- Short options written together, without their dash, up to one that takes a
    value or asks for help. -/
def shortOptions (specs : List OptionSpec) : List Char → Argument
  | [] => .complete []
  | c :: cs =>
    match specs.find? (·.short = some c) with
    | none => .unknown
    | some spec =>
      if spec.takesValue then
        match cs with
        | [] => .awaiting [] spec.long
        | '=' :: value => .complete [.valued spec.long (String.ofList value)]
        | value => .complete [.valued spec.long (String.ofList value)]
      else if spec.long = helpOption.long then .complete [.flag spec.long]
      else
        match shortOptions specs cs with
        | .complete tokens => .complete (.flag spec.long :: tokens)
        | .awaiting tokens name => .awaiting (.flag spec.long :: tokens) name
        | _ => .unknown

def classify (specs : List OptionSpec) (arg : String) : Argument :=
  match arg.toList with
  | ['-'] => .operand
  | '-' :: '-' :: body => longOption specs body
  | '-' :: body => shortOptions specs body
  | _ => .operand

/-- Whether help is asked for. -/
def asksForHelp (tokens : List Token) : Bool := .flag helpOption.long ∈ tokens

/-- The parts of a command line, up to a request for help; none if an option is
    unknown or lacks its value. -/
def scan (specs : List OptionSpec) : List String → Option (List Token)
  | [] => some []
  | arg :: rest =>
    if arg = "--" then some (rest.map .operand)
    else
      match classify specs arg, rest with
      | .operand, rest => (scan specs rest).map (.operand arg :: ·)
      | .complete tokens, rest =>
        if asksForHelp tokens then some tokens else (scan specs rest).map (tokens ++ ·)
      | .awaiting tokens name, value :: rest =>
        if looksLikeOption value then none
        else (scan specs rest).map (tokens ++ .valued name value :: ·)
      | .awaiting _ _, [] => none
      | .unknown, _ => none

/-- The values given to an option; a flag counts as an empty value. -/
def given (tokens : List Token) (name : String) : List String :=
  tokens.filterMap fun
    | .valued other value => if other = name then some value else none
    | .flag other => if other = name then some "" else none
    | .operand _ => none

/-- The option is given at most once, unless it may be repeated, and its
    values are understood. -/
def OptionSpec.permits (spec : OptionSpec) (tokens : List Token) : Bool :=
  (spec.repeats || (given tokens spec.long).length ≤ 1) &&
    (given tokens spec.long).all (spec.accepts.getD fun _ => true)

def operands (tokens : List Token) : List String :=
  tokens.filterMap fun
    | .operand text => some text
    | _ => none

/-- At most one operand, which is not empty, and only options as they are
    permitted. -/
def isOrderly (specs : List OptionSpec) (tokens : List Token) : Bool :=
  (operands tokens).length ≤ 1 && (operands tokens).all (· ≠ "") && specs.all (·.permits tokens)

/-- The value of an option, or the default if it is not given. -/
def valueOf {β : Type} (tokens : List Token) (name : String) (default : β)
    (read : String → Option β) : β :=
  ((given tokens name).head?.bind read).getD default

/-! ## Commands -/

/-- How an answer is printed. -/
inductive OutputFormat where
  | pretty
  | json
  deriving DecidableEq

inductive Command where
  | solve (file : String) (solver : Solver Float) (format : OutputFormat)
  | check (file : String)
  | help

/-- Counts fit into a machine word. -/
def countBound : Nat := Nat.pow 2 64

/-- The solver with the settings that hold when no option is given. -/
def defaultSolver : Solver Float := { tolerance := 1e-9 }

def engineWords : List (String × Option Engine) :=
  [("auto", none), ("simplex", some .simplex), ("branch-and-bound", some .branchAndBound),
    ("knapsack", some .knapsack)]

def traversalWords : List (String × Traversal) :=
  [("breadth-first", .breadthFirst), ("depth-first", .depthFirst)]

def formatWords : List (String × OutputFormat) := [("pretty", .pretty), ("json", .json)]

def engine? (text : String) : Option (Option Engine) := engineWords.lookup text

def traversal? (text : String) : Option Traversal := traversalWords.lookup text

def format? (text : String) : Option OutputFormat := formatWords.lookup text

def size? : String → Option Nat := Numeral.count? countBound

def commonOptions : List OptionSpec :=
  [{ long := "verbose", short := some 'v', repeats := true }, helpOption]

def solveOptions : List OptionSpec :=
  [{ long := "method", short := some 'm', accepts := some fun text => (engine? text).isSome },
    { long := "traversal", short := some 't',
      accepts := some fun text => (traversal? text).isSome },
    { long := "tolerance", accepts := some fun text => (Numeral.float? text).isSome },
    { long := "max-iterations", accepts := some fun text => (size? text).isSome },
    { long := "node-limit", accepts := some fun text => (size? text).isSome },
    { long := "no-snapshots" },
    { long := "format", short := some 'f', accepts := some fun text => (format? text).isSome }] ++
    commonOptions

/-- The solver that the options ask for. -/
def solverOf (tokens : List Token) : Solver Float where
  engine := valueOf tokens "method" defaultSolver.engine engine?
  traversal := valueOf tokens "traversal" defaultSolver.traversal traversal?
  tolerance := valueOf tokens "tolerance" defaultSolver.tolerance Numeral.float?
  maxPivots := valueOf tokens "max-iterations" defaultSolver.maxPivots size?
  nodeLimit := valueOf tokens "node-limit" defaultSolver.nodeLimit fun text => (size? text).map some
  snapshots := (given tokens "no-snapshots").isEmpty

/-- Reads the arguments of a command that works on a file.  What comes before a
    request for help has to be in order; the file may be missing only then. -/
def fileCommand (specs : List OptionSpec) (build : String → List Token → Command)
    (args : List String) : Option Command :=
  match scan specs args with
  | none => none
  | some tokens =>
    if !isOrderly specs tokens then none
    else if asksForHelp tokens then some .help
    else (operands tokens).head?.map fun file => build file tokens

/-- Help on the program, or on one of its commands. -/
def helpCommand : List String → Option Command
  | [] => some .help
  | [topic] => if topic ∈ ["solve", "check", "help"] then some .help else none
  | _ => none

/-- The command that a command line gives; none if it is not understood. -/
def command : List String → Option Command
  | [] => none
  | arg :: rest =>
    if arg = "solve" then
      fileCommand solveOptions
        (fun file tokens =>
          .solve file (solverOf tokens) (valueOf tokens "format" .pretty format?)) rest
    else if arg = "check" then fileCommand commonOptions (fun file _ => .check file) rest
    else if arg = "help" then helpCommand rest
    else
      match classify commonOptions arg with
      | .complete [] => none
      | .complete tokens => if asksForHelp tokens then some .help else command rest
      | _ => none

end IntegerProgramming.CommandLine
