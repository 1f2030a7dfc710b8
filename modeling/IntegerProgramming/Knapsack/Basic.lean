import IntegerProgramming.Search.Scheme

/-! # Knapsacks

    A knapsack problem asks for the most valuable set of items within a weight
    capacity.  It is read off a model with one constraint and binary variables
    only.  Variables whose bounds leave no choice are decided at once; the
    others are the items.

    Items are decided in the order of their value per weight, best first.  A
    node of the search is a set of decisions on the first items.  Filling the
    rest of the capacity greedily, with a fraction of the first item that does
    not fit, gives a value that no set of the remaining items beats. -/

namespace IntegerProgramming

/-! ## Sets of positions -/

/-- Inserts a position into an ascending list; a position that is there
    already is not repeated. -/
def insertPosition (j : Nat) : List Nat → List Nat
  | [] => [j]
  | k :: ks =>
    if j < k then j :: k :: ks else if j = k then k :: ks else k :: insertPosition j ks

namespace Knapsack

/-! ## Items -/

structure Item (α : Type) where
  /-- The position of the variable in the model. -/
  index : Nat
  value : α
  weight : α
  deriving DecidableEq

variable {α : Type} [Scalar α]

/-- Value per weight.  A weightless item is infinitely good or bad, or neutral
    if it has no value. -/
def Item.ratio (item : Item α) : α :=
  if 0 < item.weight then item.value / item.weight
  else if 0 < item.value then Scalar.infinity
  else if item.value < 0 then -Scalar.infinity
  else 0

/-- Where an item stands if its ratio is undefined: first if that is for its
    value, last if it is for two infinities. -/
def Item.tier (item : Item α) : Nat :=
  if item.ratio == item.ratio then 1 else if item.value == item.value then 2 else 0

/-- Whether an item is decided no later than another one: by tier, then by
    descending ratio, then by position. -/
def Item.noLater (a b : Item α) : Bool :=
  if a.tier ≠ b.tier then decide (a.tier < b.tier)
  else if a.tier = 1 ∧ Scalar.precedes b.ratio a.ratio = false then false
  else if a.tier = 1 ∧ Scalar.precedes a.ratio b.ratio = false then true
  else decide (a.index ≤ b.index)

/-! ## Problems and nodes -/

/-- Decisions on the first `depth` items, on top of those made by bounds. -/
structure Node (α : Type) where
  depth : Nat
  /-- The positions of the items taken, in ascending order. -/
  included : List Nat
  /-- The positions of the items left out, in ascending order. -/
  excluded : List Nat
  weight : α
  value : α
  deriving DecidableEq

structure Problem (α : Type) where
  /-- The items to decide, in the order of decision. -/
  items : List (Item α)
  capacity : α
  names : List String
  tolerance : α
  /-- The decisions made by bounds alone. -/
  root : Node α
  /-- The first variable whose bounds admit neither zero nor one. -/
  conflict : Option (Infeasibility α)
  deriving DecidableEq

/-! ## Reading a model -/

/-- What the bounds of a binary variable leave open. -/
inductive Choice where
  | free
  | taken
  | leftOut
  | impossible
  deriving DecidableEq

/-- A lower bound above zero takes the item, an upper bound below one leaves it
    out. -/
def choice (tolerance : α) (v : Variable α) : Choice :=
  match decide (tolerance < v.lowerBound), decide (v.upperBound < 1 - tolerance) with
  | false, false => .free
  | true, false => .taken
  | false, true => .leftOut
  | true, true => .impossible

/-- A variable with its place in the objective and in the constraint. -/
structure Candidate (α : Type) where
  bounds : Variable α
  item : Item α

/-- The variables of a model with their values and weights. -/
def candidates (model : Model α) (weights : List α) : List (Candidate α) :=
  ((model.vars.zip model.objective).zip weights).zipIdx.map
    fun (((v, value), weight), index) => ⟨v, ⟨index, value, weight⟩⟩

/-- Adds the decision that bounds have made on a variable. -/
def Node.fix (tolerance : α) (node : Node α) (c : Candidate α) : Node α :=
  match choice tolerance c.bounds with
  | .taken =>
    { node with
      included := insertPosition c.item.index node.included
      weight := node.weight + c.item.weight
      value := node.value + c.item.value }
  | .leftOut => { node with excluded := insertPosition c.item.index node.excluded }
  | .free | .impossible => node

/-- Reads the items off the variables of a model, for one constraint. -/
def ofCandidates (tolerance capacity : α) (names : List String) (cs : List (Candidate α)) :
    Problem α where
  items := ((cs.filter fun c => choice tolerance c.bounds = .free).map (·.item)).mergeSort
    Item.noLater
  capacity := capacity
  names := names
  tolerance := tolerance
  root := cs.foldl (Node.fix tolerance) ⟨0, [], [], 0, 0⟩
  conflict := (cs.find? fun c => choice tolerance c.bounds = .impossible).map fun c =>
    .neitherChoice c.bounds.name c.bounds.lowerBound c.bounds.upperBound

/-- Why a constraint does not describe a capacity. -/
def constraintObstacle (names : List String) (c : Constraint α) : Option (Unsupported α) :=
  if c.relation ≠ .atMost then some (.knapsackRelation c.name c.relation)
  else if c.rhs < 0 then some (.negativeCapacity c.rhs)
  else (c.coefficients.findIdx? fun w => w < 0).map fun j => .negativeWeight (names.getD j "")

/-- The knapsack problem that a model states.  What stands against it is
    looked for in a fixed order: sense, variables, number of constraints, the
    constraint. -/
def ofModel (tolerance : α) (model : Model α) : Except (Failure α) (Problem α) :=
  match model.misalignment with
  | some cause => .error (.misaligned cause)
  | none =>
    if model.sense ≠ .maximize then .error (.unsupported .knapsackSense)
    else
      match model.vars.find? (·.kind ≠ .binary), model.constraints with
      | some v, _ => .error (.unsupported (.knapsackVariable v.name v.kind))
      | none, [c] =>
        match constraintObstacle model.names c with
        | some cause => .error (.unsupported cause)
        | none => .ok (ofCandidates tolerance c.rhs model.names (candidates model c.coefficients))
      | none, cs => .error (.unsupported (.knapsackSize cs.length))

/-! ## Decisions -/

/-- Takes an item. -/
def Node.include (node : Node α) (item : Item α) : Node α where
  depth := node.depth + 1
  included := insertPosition item.index node.included
  excluded := node.excluded
  weight := node.weight + item.weight
  value := node.value + item.value

/-- Leaves an item out. -/
def Node.exclude (node : Node α) (item : Item α) : Node α :=
  { node with depth := node.depth + 1, excluded := insertPosition item.index node.excluded }

/-- Decides the next item, if there is one left. -/
def Problem.child? (p : Problem α) (node : Node α) (taken : Bool) : Option (Node α) :=
  p.items[node.depth]?.map fun item => if taken then node.include item else node.exclude item

/-! ## The greedy bound -/

/-- Fills the remaining capacity with items in their order and adds up their
    values.  Items of no value are passed over; of the first item that does
    not fit a fraction is taken, and the filling ends. -/
def fill : List (Item α) → α → α → α
  | [], _, value => value
  | item :: items, remaining, value =>
    if item.value ≤ 0 then fill items remaining value
    else if item.weight ≤ remaining then
      fill items (remaining - item.weight) (value + item.value)
    else value + remaining / item.weight * item.value

/-- What no set of decisions below a node beats. -/
def Problem.upperBound (p : Problem α) (node : Node α) : α :=
  fill (p.items.drop node.depth) (p.capacity - node.weight) node.value

/-- The node decides no more items than there are. -/
def Problem.Covers (p : Problem α) (node : Node α) : Prop := node.depth ≤ p.items.length

instance (p : Problem α) (node : Node α) : Decidable (p.Covers node) :=
  inferInstanceAs (Decidable (_ ≤ _))

/-- The greedy bound of a node, if the problem covers it. -/
def Problem.upperBound? (p : Problem α) (node : Node α) : Option α :=
  if p.Covers node then some (p.upperBound node) else none

/-- One for every item taken, zero for all others, in the order of the model. -/
def Problem.indicator (p : Problem α) (node : Node α) : List α :=
  (List.range p.names.length).map fun j => if j ∈ node.included then 1 else 0

/-! ## The scheme -/

/-- Why no set of decisions below a node is within the capacity. -/
def Problem.obstacle (p : Problem α) (node : Node α) : Option (Infeasibility α) :=
  p.conflict.or <|
    if p.capacity + p.tolerance < node.weight then some (.overweight node.weight p.capacity)
    else none

def Problem.evaluate (p : Problem α) (node : Node α) : Evaluation α :=
  match p.obstacle node with
  | some reason => .infeasible reason
  | none => .bounded ⟨p.upperBound node, node.value, p.indicator node⟩

/-- What examining a node shows, if the problem covers it or its decisions are
    impossible already. -/
def Problem.evaluate? (p : Problem α) (node : Node α) : Option (Evaluation α) :=
  if p.Covers node ∨ (p.obstacle node).isSome then some (p.evaluate node) else none

/-- All items are decided. -/
def Problem.IsComplete (p : Problem α) (node : Node α) : Prop := node.depth = p.items.length

instance (p : Problem α) (node : Node α) : Decidable (p.IsComplete node) :=
  inferInstanceAs (Decidable (_ = _))

/-- Leaves the next item out, or takes it. -/
def Problem.branch (p : Problem α) (node : Node α) :
    Except (Failure α) ((Branching α × Node α) × (Branching α × Node α)) :=
  match p.items[node.depth]? with
  | none => .error .nothingToBranch
  | some item =>
    let name := p.names.getD item.index ""
    .ok ((⟨name, .down, 0⟩, node.exclude item), (⟨name, .up, 1⟩, node.include item))

/-- How the search sees a knapsack problem. -/
def Problem.scheme (p : Problem α) : Scheme α (Node α) where
  sense := .maximize
  names := p.names
  inspect node := ⟨.ok (p.evaluate node), #[]⟩
  isComplete node _ := p.IsComplete node
  branch node _ := p.branch node

end Knapsack

end IntegerProgramming
