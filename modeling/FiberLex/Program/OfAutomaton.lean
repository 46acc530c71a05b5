import FiberLex.Automaton.Table
import FiberLex.Program.Basic

/-!
# Programs of automata

The states of an automaton are laid out in preorder. A state with edges becomes a `switch` with a
case for each successor. Its epsilons, and its match if it is accepting, are reached by a jump in
front of the switch, so that they run alongside it. A state with nothing but a match shares one end
of the program with all states of its symbol, and a state from which nothing can be accepted is left
out.
-/

namespace FiberLex.Program

variable (a : Automaton)

/-- Whether a state has instructions of its own. -/
def hasCode (i : Nat) : Bool := !(a.state i).isTerminal || i == a.start

/-- Whether a state is left out, together with what leads to it. -/
def isLeftOut (i : Nat) : Bool := !hasCode a i && !(a.state i).accepting

/-- Whether control leaves a state also without consuming. -/
def hasExits (i : Nat) : Bool :=
  (a.state i).accepting || (a.state i).epsilons.any fun j => !isLeftOut a j

/-- How many instructions a state has of its own. -/
def codeSize (i : Nat) : Nat :=
  if hasCode a i then if !(a.state i).edges.isEmpty && hasExits a i then 2 else 1 else 0

/-- How many instructions several states have of their own. -/
def totalSize : List Nat → Nat
  | [] => 0
  | i :: rest => codeSize a i + totalSize rest

/-- The states of a list with code, and the address of each, beginning at `base`. -/
def placed (base : Nat) : List Nat → List (Nat × Nat)
  | [] => []
  | i :: rest =>
    if hasCode a i then (i, base) :: placed (base + codeSize a i) rest
    else placed base rest

/-- Where everything is. -/
structure Layout where
  /-- The addresses of the states with code of their own. -/
  own : Array (Option Nat)
  /-- The address of the first end. -/
  ends : Nat
  /-- The symbols in the order of their ends. -/
  symbols : List Int

namespace Layout

/-- The address of the end for a symbol. -/
def endOf (l : Layout) (symbol : Int) : Nat := l.ends + 2 * (l.symbols.idxOf? symbol).getD 0

/-- The address of a state, unless it is left out. -/
def address? (l : Layout) (i : Nat) : Option Nat :=
  if hasCode a i then (l.own[i]?).join
  else if (a.state i).accepting then (a.state i).symbol.map l.endOf
  else none

end Layout

/-- The layout of the reachable states, for the given symbols. -/
def layout (symbols : List Int) : Layout :=
  let order := a.closure
  { own := (placed a 0 order).foldl (fun m p => m.setIfInBounds p.1 (some p.2))
      (Array.replicate a.states.size none)
    ends := totalSize a order
    symbols }

/-- The instructions of a state with code, which begin at `base`. -/
def stateCode (l : Layout) (base i : Nat) : Program :=
  let s := a.state i
  let exits := s.epsilons.filterMap (l.address? a) ++
    if s.accepting then (s.symbol.map l.endOf).toList else []
  let cases := s.edgesByTarget.filterMap fun (target, set) => (l.address? a target).map (⟨set, ·⟩)
  if s.edges.isEmpty then [.jump exits]
  else if exits.isEmpty then [.switch cases []]
  else [.jump ((base + 1) :: exits), .switch cases []]

/-- The program of an automaton. Every accepting state must have a symbol. -/
def ofAutomaton : Except BuildError Program := do
  let symbols ← a.symbolTable none
  let l := layout a symbols
  .ok ((placed a 0 a.closure).flatMap (fun p => stateCode a l p.2 p.1) ++
    symbols.flatMap fun symbol => terminate [] symbol)

end FiberLex.Program
