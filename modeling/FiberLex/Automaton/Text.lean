import FiberLex.Automaton.Basic

/-!
# Automata as text

A description of the reachable states of an automaton, for people to read.
-/

namespace FiberLex.Automaton

/-- The name of a state: `q` and its number. -/
def stateName (i : Nat) : String := "q" ++ String.ofList (Numeral.decimal i)

/-- Texts in square brackets, separated by commas. -/
def bracketed (texts : List String) : String := "[" ++ ", ".intercalate texts ++ "]"

/-- An edge as text, in double quotes. -/
def edgeText (e : Edge) : String := "\"" ++ e.range.text ++ "->" ++ stateName e.target ++ "\""

/-- What is said of the acceptance of a state. -/
def acceptText (s : State) : String :=
  if s.accepting then
    match s.symbol with
    | none => " accept=None"
    | some symbol => " accept=Some(" ++ String.ofList (Numeral.decimalInt symbol) ++ ")"
  else ""

/-- A state as text, with its number in front. -/
def stateText (i : Nat) (s : State) : String :=
  stateName i ++ ": \x7b" ++ acceptText s ++ bracketed (s.edges.map edgeText) ++
    " ε" ++ bracketed (s.epsilons.map stateName) ++ "\x7d"

/-- The reachable states as text, in preorder. -/
def text (a : Automaton) : String :=
  "\x7b" ++ ", ".intercalate (a.closure.map fun i => stateText i (a.state i)) ++ "\x7d"

/-- The number of states as text, the unreachable ones included. -/
def sizeText (a : Automaton) : String :=
  "StateArena \x7b states_count: " ++ String.ofList (Numeral.decimal a.states.size) ++ " \x7d"

end FiberLex.Automaton
