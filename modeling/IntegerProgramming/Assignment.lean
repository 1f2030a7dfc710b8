/-! # Assignments

    Values by name, sorted by name.  A name that is given several values keeps
    the last one. -/

namespace IntegerProgramming

/-- Values by name, in the order of the names. -/
abbrev Assignment (α : Type) := List (String × α)

namespace Assignment

variable {α : Type}

/-- Gives a name a value; an earlier value of the name is lost. -/
def insert (name : String) (value : α) : Assignment α → Assignment α
  | [] => [(name, value)]
  | (other, x) :: rest =>
    if name = other then (name, value) :: rest
    else if name < other then (name, value) :: (other, x) :: rest
    else (other, x) :: insert name value rest

/-- The values of a list under the names of another, as far as both reach. -/
def ofLists (names : List String) (values : List α) : Assignment α :=
  (names.zip values).foldl (fun a (name, value) => a.insert name value) []

/-- The value of a name. -/
def value? (a : Assignment α) (name : String) : Option α := a.lookup name

end Assignment

end IntegerProgramming
