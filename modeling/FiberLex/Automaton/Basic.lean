import FiberLex.Error
import FiberLex.Preorder

/-!
# Finite automata

An automaton is an array of states with a start state; states are known by their index. An edge is
taken on any code point of its range, an epsilon on none. Only the states reachable from the start
count: operations that redirect edges may leave others behind, until the automaton is compacted.
-/

namespace FiberLex

/-- An edge: any code point of `range` leads to the state `target`. -/
structure Edge where
  /-- The code points on which the edge is taken. -/
  range : CodeRange
  /-- The state it leads to. -/
  target : Nat
deriving DecidableEq, Repr

/-- A state of an automaton. -/
structure State where
  /-- Whether a text may end here. -/
  accepting : Bool := false
  /-- The symbol reported for a text that ends here; it counts only if the state is accepting. -/
  symbol : Option Int := none
  /-- The edges in the order in which they were added. Their ranges do not overlap. -/
  edges : List Edge := []
  /-- The epsilons in the order in which they were added, without repetition. -/
  epsilons : List Nat := []
deriving DecidableEq, Repr, Inhabited

namespace State

/-- Whether nothing leads out of the state. -/
def isTerminal (s : State) : Bool := s.edges.isEmpty && s.epsilons.isEmpty

/-- Whether the state only forwards to one other: it accepts nothing and has one epsilon alone. -/
def isNeutral (s : State) : Bool := !s.accepting && s.edges.isEmpty && s.epsilons.length == 1

/-- The state with an epsilon to `target`, which is not added twice. -/
def addEpsilon (s : State) (target : Nat) : State :=
  if s.epsilons.contains target then s else { s with epsilons := s.epsilons ++ [target] }

/-- The state with one more edge. -/
def addEdge (s : State) (e : Edge) : State := { s with edges := s.edges ++ [e] }

/-- The state, no longer accepting, with an epsilon to `target`. -/
def forwardTo (s : State) (target : Nat) : State :=
  { s with accepting := false, symbol := none }.addEpsilon target

/-- The states to which an edge or an epsilon leads, edges first. -/
def successors (s : State) : List Nat := s.edges.map (·.target) ++ s.epsilons

/-- The state with new numbers for its successors; what has no new number is dropped. -/
def renumber (f : Nat → Option Nat) (s : State) : State :=
  { s with
    edges := s.edges.filterMap fun e => (f e.target).map (⟨e.range, ·⟩)
    epsilons := s.epsilons.filterMap f }

/-- The ranges that lead to each successor, as sets, in the order in which the successors appear. -/
def edgesByTarget (s : State) : List (Nat × CodeSet) :=
  (s.edges.map (·.target)).eraseDups.map fun target =>
    (target, CodeSet.ofRanges ((s.edges.filter (·.target == target)).map (·.range)))

end State

/-- A finite automaton. -/
structure Automaton where
  /-- All states, also those that cannot be reached. -/
  states : Array State
  /-- The state in which every text begins. -/
  start : Nat
deriving DecidableEq, Repr

namespace Automaton

/-- The automaton of one state, which accepts no text. -/
def new : Automaton := ⟨#[{}], 0⟩

/-- The automaton of one state, which accepts the empty text. -/
def empty (symbol : Option Int) : Automaton := ⟨#[{ accepting := true, symbol }], 0⟩

/-- The state with the given number; a number without a state stands for one that does nothing. -/
def state (a : Automaton) (i : Nat) : State := a.states.getD i {}

/-! ## Changes -/

/-- A change of an automaton in place. If it fails, it leaves the automaton as it is by then. -/
abbrev Change := EStateM BuildError Automaton Unit

/-- What a change makes of an automaton, if it does not fail. -/
def Change.outcome (c : Change) (a : Automaton) : Except BuildError Automaton :=
  match c.run a with
  | .ok _ b => .ok b
  | .error e _ => .error e

theorem Change.outcome_of_run {c : Change} {a b : Automaton} (h : c.run a = .ok () b) :
    c.outcome a = .ok b := by
  rw [outcome, h]

/-- The automaton with one state changed. -/
def modifyState (a : Automaton) (i : Nat) (f : State → State) : Automaton :=
  { a with states := a.states.modify i f }

/-- Adds a state and returns its number. -/
def addState (a : Automaton) (accepting : Bool) (symbol : Option Int) : Automaton × Nat :=
  ({ a with states := a.states.push { accepting, symbol } }, a.states.size)

/-- Adds an edge in place, unless its range overlaps that of another edge of the state. -/
def insertEdge (source : Nat) (range : CodeRange) (target : Nat) : Change := do
  let a ← get
  if (a.state source).edges.any (·.range.meets range) then throw (.overlappingEdge range)
  modify (·.modifyState source (·.addEdge ⟨range, target⟩))

/-- The automaton with one more edge. -/
def addEdge (a : Automaton) (source : Nat) (range : CodeRange) (target : Nat) :
    Except BuildError Automaton :=
  (insertEdge source range target).outcome a

theorem run_insertEdge (a : Automaton) (source : Nat) (range : CodeRange) (target : Nat) :
    (insertEdge source range target).run a =
      if (a.state source).edges.any (·.range.meets range) then .error (.overlappingEdge range) a
      else .ok () (a.modifyState source (·.addEdge ⟨range, target⟩)) := by
  unfold insertEdge
  simp only [EStateM.run_bind, EStateM.run_get]
  split
  all_goals simp

theorem addEdge_eq (a : Automaton) (source : Nat) (range : CodeRange) (target : Nat) :
    a.addEdge source range target =
      if (a.state source).edges.any (·.range.meets range) then .error (.overlappingEdge range)
      else .ok (a.modifyState source (·.addEdge ⟨range, target⟩)) := by
  rw [addEdge, Change.outcome, run_insertEdge]
  by_cases h : (a.state source).edges.any (·.range.meets range) = true
  · rw [if_pos h, if_pos h]
  · rw [if_neg h, if_neg h]

/-- Adds an epsilon, which is not added twice. -/
def addEpsilon (a : Automaton) (source target : Nat) : Automaton :=
  a.modifyState source (·.addEpsilon target)

/-! ## Reachable states -/

/-- The states reachable from `root`, in preorder, edges before epsilons. -/
def closureFrom (a : Automaton) (root : Nat) : List Nat :=
  Preorder.visit a.states.size id (fun i => (a.state i).successors) [root]

/-- The states reachable from the start, in preorder. -/
def closure (a : Automaton) : List Nat := a.closureFrom a.start

/-- The states reachable from some of `roots` by epsilons alone, in preorder. -/
def epsilonClosure (a : Automaton) (roots : List Nat) : List Nat :=
  Preorder.visit a.states.size id (fun i => (a.state i).epsilons) roots

/-- The accepting states that can be reached. -/
def acceptingStates (a : Automaton) : List Nat := a.closure.filter fun i => (a.state i).accepting

/-- Whether no reachable state has an epsilon. The ranges of the edges of a state do not overlap, so
at most one state is then reached on a text. -/
def isDeterministic (a : Automaton) : Bool := a.closure.all fun i => (a.state i).epsilons.isEmpty

/-- The symbols of the reachable accepting states, in the order in which they are met. -/
def acceptSymbols (a : Automaton) : List Int :=
  (a.acceptingStates.filterMap fun i => (a.state i).symbol).eraseDups

/-- Changes the symbol of every reachable accepting state. -/
def mapSymbols (a : Automaton) (f : Option Int → Option Int) : Automaton :=
  a.acceptingStates.foldl
    (fun b i => b.modifyState i fun s => { s with symbol := f s.symbol }) a

/-- Gives every reachable accepting state the same symbol. -/
def setSymbol (a : Automaton) (symbol : Option Int) : Automaton := a.mapSymbols fun _ => symbol

/-- Lets the given states forward to `target` instead of accepting. -/
def forwardAll (a : Automaton) (sources : List Nat) (target : Nat) : Automaton :=
  sources.foldl (fun b i => b.modifyState i (·.forwardTo target)) a

/-! ## Copies -/

/-- New numbers from `base` on for the states of a list, in order. -/
def numbering (size base : Nat) (order : List Nat) : Array (Option Nat) :=
  (order.zipIdx base).foldl (fun m p => m.setIfInBounds p.1 (some p.2)) (Array.replicate size none)

/-- The states of a list with their successors renumbered. -/
def copies (a : Automaton) (order : List Nat) (numbers : Array (Option Nat)) : List State :=
  order.map fun i => (a.state i).renumber fun j => (numbers[j]?).join

/-- A copy of the states reachable from `root`, with `root` as its start, and the new numbers. -/
def subgraph (a : Automaton) (root : Nat) : Automaton × Array (Option Nat) :=
  let order := a.closureFrom root
  let numbers := numbering a.states.size 0 order
  (⟨(a.copies order numbers).toArray, ((numbers[root]?).join).getD 0⟩, numbers)

/-- The automaton with only its reachable states, numbered in preorder. -/
def compact (a : Automaton) : Automaton := (a.subgraph a.start).1

/-- Adds copies of the reachable states of `b`, and returns the number of its start. -/
def absorb (a b : Automaton) : Automaton × Nat :=
  let order := b.closure
  let numbers := numbering b.states.size a.states.size order
  ({ a with states := a.states ++ b.copies order numbers },
    ((numbers[b.start]?).join).getD a.start)

end Automaton

end FiberLex
