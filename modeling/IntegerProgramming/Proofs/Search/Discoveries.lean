import IntegerProgramming.Proofs.Number.Margins
import IntegerProgramming.Proofs.Search.Certificate
import IntegerProgramming.Proofs.Search.Order

/-! # Every complete node is a discovery

    Two tests stand between a complete node and the list of the incumbents.  The
    search first asks whether the bound of the node beats the incumbent by more
    than the tolerance, and closes the node for its bound if not.  Only then is
    its own point offered as a solution, and this time the objective is compared,
    without a tolerance.

    If the bound of a complete node is its objective (`Scheme.Attained`), the
    second test adds nothing: who beats the incumbent by a margin beats it
    (`Scalar.Margins`).  So the incumbents are exactly the nodes that were closed
    as solutions, in the order of their examination, and each of them beats the
    last one by more than the tolerance (`SearchResult.Ascends`).

    No number has to be defined for this.  An undefined bound passes the first
    test only if there is no incumbent yet, and then the second one passes
    everything. -/

namespace IntegerProgramming

open Scalar

variable {α ν : Type}

/-! ## Better by more than the tolerance -/

/-- The first number is better than the second by more than the tolerance. -/
def Sense.BetterBy [Scalar α] : Sense → α → α → α → Prop
  | .maximize, tolerance, candidate, current => current + tolerance < candidate
  | .minimize, tolerance, candidate, current => candidate < current - tolerance

section margins

variable [Scalar α] {tolerance : α}

theorem Sense.BetterBy.better [Margins α] {s : Sense} {x y : α} (h : s.BetterBy tolerance x y)
    (ht : IsFinite tolerance) (hpos : 0 ≤ tolerance) : s.Better x y := by
  cases s with
  | maximize => exact Margins.lt_of_add_lt ht hpos h
  | minimize => exact Margins.lt_of_lt_sub ht hpos h

/-- With an incumbent, a bound has to beat it by more than the tolerance. -/
theorem Incumbent.CanImprove.betterBy {i : Incumbent α} {bound best : α}
    (h : i.CanImprove bound tolerance) (hbest : i.objective = some best) :
    i.sense.BetterBy tolerance bound best := by
  unfold CanImprove at h
  rw [hbest] at h
  cases hsense : i.sense with
  | maximize => rwa [hsense] at h
  | minimize => rwa [hsense] at h

/-- A solution whose objective passes the test for bounds is taken in. -/
theorem Incumbent.CanImprove.beaten [Margins α] {i : Incumbent α} {objective : α}
    (h : i.CanImprove objective tolerance) (ht : IsFinite tolerance) (hpos : 0 ≤ tolerance) :
    i.Beaten objective := by
  unfold Beaten
  cases hbest : i.objective with
  | none => exact trivial
  | some best => exact (h.betterBy hbest).better ht hpos

end margins

/-! ## Solutions in the order of examination -/

def NodeStatus.isSolution : NodeStatus α → Bool
  | .fathomed .integerSolution => true
  | .created | .branched | .fathomed (.infeasible _) | .fathomed .unbounded
  | .fathomed (.bound _) => false

/-- The node was closed because its own point is a solution. -/
def isSolution (nodes : Array (Node α)) (i : Nat) : Bool := nodes[i]?.any (·.status.isSolution)

/-- The order lists the nodes that were examined, and the incumbents are the
    solutions among them, each better than the last by more than the
    tolerance. -/
structure SearchResult.Ascends [Scalar α] (r : SearchResult α) (sense : Sense) (tolerance : α)
    (order : List Nat) : Prop where
  explored : order.length = r.explored
  nodup : order.Nodup
  examined : ∀ i, i ∈ order ↔ ∃ n, r.nodes[i]? = some n ∧ n.status ≠ .created
  solutions : r.incumbents.toList.map (·.node) = order.filter (isSolution r.nodes)
  objectives : ∀ d ∈ r.incumbents, r.nodes[d.node]?.bind (·.objective) = some d.objective
  improving : r.incumbents.toList.IsChain fun last next =>
    sense.BetterBy tolerance next.objective last.objective

/-- The bound of a complete node is the objective at its own point. -/
def Scheme.Attained (s : Scheme α ν) : Prop :=
  ∀ node b, s.evaluate node = .ok (.bounded b) → s.isComplete node b = true →
    b.bound = b.objective

namespace Search

variable [Scalar α] {scheme : Scheme α ν} {settings : Settings α} {root : ν}

/-- The search arrives at the state after it has examined these nodes, one
    after the other. -/
inductive Explores (scheme : Scheme α ν) (settings : Settings α) (root : ν) :
    List Nat → State α ν → Prop where
  | start : Explores scheme settings root [] (.start scheme.sense root)
  | next {order : List Nat} {s s' : State α ν} {id : Nat}
      (h : Explores scheme settings root order s) (htakes : s.Takes id)
      (hstep : step scheme settings s = .running s') :
      Explores scheme settings root (order ++ [id]) s'

theorem Explores.visited {order : List Nat} {s : State α ν}
    (h : Explores scheme settings root order s) : Visited scheme settings root s := by
  induction h with
  | start => exact .start
  | next _ _ hstep ih => exact ih.next hstep

theorem exists_explores {s : State α ν} (h : Visited scheme settings root s) :
    ∃ order, Explores scheme settings root order s := by
  induction h with
  | start => exact ⟨[], .start⟩
  | next _ hstep ih =>
    obtain ⟨order, horder⟩ := ih
    obtain ⟨id, node, rest, hfrontier, -, -⟩ := step_running hstep
    exact ⟨order ++ [id], horder.next ⟨node, rest, hfrontier⟩ hstep⟩

/-! ## What one step adds -/

section steps

variable {s s' : State α ν} {id : Nat}

/-- A step that takes a node examines it. -/
theorem examining_of_takes (hs : Visited scheme settings root s) (htakes : s.Takes id)
    (hstep : step scheme settings s = .running s') :
    ∃ node n status b children, status ≠ .created ∧
      Examining scheme settings root s s' id node n status b children := by
  obtain ⟨front, node, rest, hfrontier, -, hexamined⟩ := step_running hstep
  obtain ⟨node', rest', hfront⟩ := htakes
  rw [hfrontier] at hfront
  obtain rfl : front = id := congrArg Prod.fst (List.cons.inj hfront).1
  obtain ⟨n, hn, -⟩ := (wellFormed_of_visited hs).front hfrontier
  obtain ⟨status, b, children, hwritten, hruled, hreopen⟩ := hexamined.written hn
  exact ⟨node, n, status, b, children, hwritten.status_ne,
    ⟨hs, hstep, ⟨rest, hfrontier, hreopen⟩, hn, hruled, hwritten.nodes⟩⟩

/-- The record of the node that was examined. -/
theorem Examining.record {node : ν} {n : Node α} {status : NodeStatus α}
    {b : Option (Bounded α)} {children : List (Branching α × ν)}
    (h : Examining scheme settings root s s' id node n status b children) :
    s'.nodes[id]? = some (n.settled status b) := by
  rw [h.after]
  exact (getElem?_grown h.before).mpr (.inl ⟨rfl, rfl⟩)

/-- A step examines the node that it takes and no other one. -/
theorem hasExamined_step (hs : Visited scheme settings root s) (htakes : s.Takes id)
    (hstep : step scheme settings s = .running s') (i : Nat) :
    s'.HasExamined i ↔ s.HasExamined i ∨ i = id := by
  obtain ⟨node, n, status, b, children, hstatus, hexamining⟩ := examining_of_takes hs htakes hstep
  constructor
  · rintro ⟨q, hq, hexamined⟩
    rw [hexamining.after] at hq
    rcases (getElem?_grown hexamining.before).mp hq with
      ⟨hi, -⟩ | ⟨-, hold⟩ | ⟨k, label, -, -, rfl⟩
    · exact .inr hi
    · exact .inl ⟨q, hold, hexamined⟩
    · exact absurd rfl hexamined
  · rintro (hold | rfl)
    · exact hold.grow hexamining.grows
    · refine ⟨n.settled status b, hexamining.record, ?_⟩
      rw [Node.settled_status]
      exact hstatus

omit [Scalar α] in
/-- A node that was examined stays a solution, or stays none. -/
theorem isSolution_of_grows {t : State α ν} (h : s.Grows t) {i : Nat} (hi : s.HasExamined i) :
    isSolution t.nodes i = isSolution s.nodes i := by
  obtain ⟨n, hn, hexamined⟩ := hi
  unfold isSolution
  rw [h.examined hn hexamined, hn]

/-- What an examined node leaves to the incumbent: nothing if it is no solution,
    and a new entry that beats the last one if it is. -/
theorem Ruled.discovery [Margins α] (hattained : scheme.Attained)
    (ht : IsFinite settings.tolerance) (hpos : 0 ≤ settings.tolerance) {i i' : Incumbent α}
    {node : ν} {status : NodeStatus α} {b : Option (Bounded α)} {children : List (Branching α × ν)}
    (h : Ruled scheme settings i id node status b children i') :
    (status.isSolution = false ∧ i' = i) ∨
      (status.isSolution = true ∧ ∃ objective,
        i'.history = i.history.push ⟨id, objective⟩ ∧ i'.objective = some objective ∧
        ∀ best, i.objective = some best →
          i.sense.BetterBy settings.tolerance objective best) := by
  cases h with
  | infeasible | unbounded | pruned | split => exact .inl ⟨rfl, rfl⟩
  | @complete b hevaluate hbound hcomplete =>
    -- The bound that has passed the test is the objective that is offered.
    rw [hattained node b hevaluate hcomplete] at hbound
    have hbeaten : i.Beaten b.objective := hbound.beaten ht hpos
    refine .inr ⟨rfl, b.objective, ?_⟩
    unfold Incumbent.install
    rw [if_pos hbeaten]
    exact ⟨rfl, rfl, fun best hbest => hbound.betterBy hbest⟩

end steps

/-! ## What a run has found -/

theorem Explores.length_eq {order : List Nat} {s : State α ν}
    (h : Explores scheme settings root order s) : order.length = s.explored := by
  induction h with
  | start => rfl
  | next _ _ hstep ih => rw [List.length_append, ih, step_explored hstep, List.length_singleton]

theorem Explores.mem_iff {order : List Nat} {s : State α ν}
    (h : Explores scheme settings root order s) (i : Nat) : i ∈ order ↔ s.HasExamined i := by
  induction h with
  | start =>
    constructor
    · intro hi
      exact absurd hi List.not_mem_nil
    · -- The root is the only node, and it is open.
      rintro ⟨n, hn, hexamined⟩
      have hmem : n ∈ #[_] := Array.mem_of_getElem? hn
      rw [Array.mem_singleton] at hmem
      rw [hmem] at hexamined
      exact absurd rfl hexamined
  | next horder htakes hstep ih =>
    rw [hasExamined_step horder.visited htakes hstep, List.mem_append, List.mem_singleton, ih]

theorem Explores.nodup {order : List Nat} {s : State α ν}
    (h : Explores scheme settings root order s) : order.Nodup := by
  induction h with
  | start => exact List.nodup_nil
  | @next order s s' id horder htakes _ ih =>
    -- The node that is taken is open, so it has not been examined before.
    have hnew : id ∉ order := by
      rw [horder.mem_iff]
      intro hexamined
      exact hexamined.not_mem (wellFormed_of_visited horder.visited) htakes.mem
    rw [List.nodup_append]
    refine ⟨ih, List.nodup_singleton id, ?_⟩
    intro i hi j hj hij
    rw [hij, List.mem_singleton.mp hj] at hi
    exact hnew hi

/-- The history of the incumbents, read against the order of examination. -/
structure Recounts (settings : Settings α) (order : List Nat) (s : State α ν) : Prop where
  solutions : s.incumbent.history.toList.map (·.node) = order.filter (isSolution s.nodes)
  last : s.incumbent.objective = s.incumbent.history.toList.getLast?.map (·.objective)
  improving : s.incumbent.history.toList.IsChain fun last next =>
    s.incumbent.sense.BetterBy settings.tolerance next.objective last.objective

/-- Every step tells the history on. -/
theorem recounts_of_explores [Margins α] (hattained : scheme.Attained)
    (ht : IsFinite settings.tolerance) (hpos : 0 ≤ settings.tolerance) {order : List Nat}
    {s : State α ν} (h : Explores scheme settings root order s) : Recounts settings order s := by
  induction h with
  | start => exact ⟨rfl, rfl, .nil⟩
  | @next order s s' id horder htakes hstep ih =>
    have hs := horder.visited
    have hsense : s'.incumbent.sense = s.incumbent.sense :=
      (incumbent_sense (hs.next hstep)).trans (incumbent_sense hs).symm
    obtain ⟨node, n, status, b, children, -, hexamining⟩ := examining_of_takes hs htakes hstep
    have hbefore : order.filter (isSolution s'.nodes) = order.filter (isSolution s.nodes) := by
      apply List.filter_congr
      intro i hi
      exact isSolution_of_grows hexamining.grows ((horder.mem_iff i).mp hi)
    have hown : isSolution s'.nodes id = status.isSolution := by
      unfold isSolution
      rw [hexamining.record, Option.any_some, Node.settled_status]
    rcases hexamining.ruled.discovery hattained ht hpos with
      ⟨hstatus, hsame⟩ | ⟨hstatus, objective, hhistory, hobjective, hbetter⟩
    · -- No solution: the history and the list of the solutions stay.
      rw [hstatus] at hown
      refine ⟨?_, ?_, ?_⟩
      · rw [hsame, List.filter_append, hbefore, ih.solutions]
        simp [hown]
      · rw [hsame]
        exact ih.last
      · rw [hsame]
        exact ih.improving
    · -- A solution: both get one more entry.
      rw [hstatus] at hown
      refine ⟨?_, ?_, ?_⟩
      · rw [hhistory, Array.toList_push, List.map_append, ih.solutions, List.filter_append, hbefore]
        simp [hown]
      · rw [hobjective, hhistory, Array.toList_push, List.getLast?_concat]
        rfl
      · rw [hhistory, Array.toList_push, hsense]
        refine ih.improving.append (.singleton _) ?_
        intro last hlast next hnext
        rw [List.head?_singleton, Option.mem_some_iff] at hnext
        subst hnext
        apply hbetter
        rw [ih.last, hlast, Option.map_some]

/-- In the tree of an answer the incumbents are the solutions, one after the
    other, if no failure of the scheme itself brings a tree. -/
theorem ascends_of_tree [Margins α] (hattained : scheme.Attained)
    (ht : IsFinite settings.tolerance) (hpos : 0 ≤ settings.tolerance)
    (hfailures : ∀ node failure, scheme.BreaksAt node failure → tree? (.error failure) = none)
    {steps : Nat} {answer : Except (Failure α) (SearchResult α)} {result : SearchResult α}
    (h : run steps scheme root settings = some answer) (htree : tree? answer = some result) :
    ∃ order s status, Explores scheme settings root order s ∧
      result = s.result scheme.names status ∧
      result.Ascends scheme.sense settings.tolerance order := by
  obtain ⟨s, status, hs, rfl⟩ := exists_state_of_tree hfailures h htree
  obtain ⟨order, horder⟩ := exists_explores hs
  have hrecounts := recounts_of_explores hattained ht hpos horder
  have hfound := ((wellFormed_of_visited hs).result scheme.names status).found
  refine ⟨order, s, status, horder, rfl, ?_⟩
  exact {
    explored := horder.length_eq
    nodup := horder.nodup
    examined := horder.mem_iff
    solutions := hrecounts.solutions
    objectives := by
      intro d hd
      obtain ⟨n, hn, -, hobjective⟩ := hfound.solution d hd
      rw [hn, Option.bind_some, hobjective]
    improving := by
      rw [← incumbent_sense hs]
      exact hrecounts.improving }

end Search

end IntegerProgramming
