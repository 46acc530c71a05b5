import FiberLex.Automaton.Basic
import FiberLex.Cursor

/-!
# Running automata

An automaton is run on a text by keeping the set of all states it may be in. The run goes on for as
long as some state survives; whether the text is accepted, and with which symbol, is read off the
last set.
-/

namespace FiberLex.Automaton

/-- The states to which some of `states` have an edge on `cp`, not followed through epsilons. -/
def targets (a : Automaton) (states : List Nat) (cp : Nat) : List Nat :=
  states.flatMap fun i => ((a.state i).edges.filter (·.range.contains cp)).map (·.target)

/-- The states reached from some of `states` on `cp`, with all that epsilons lead to. -/
def move (a : Automaton) (states : List Nat) (cp : Nat) : List Nat :=
  a.epsilonClosure (a.targets states cp)

/-- The states in which every run begins. -/
def initial (a : Automaton) : List Nat := a.epsilonClosure [a.start]

/-- The least symbol among those of the accepting states of a list. -/
def symbolOf (a : Automaton) (states : List Nat) : Option Int :=
  ((states.filter fun i => (a.state i).accepting).filterMap fun i => (a.state i).symbol).min?

/-- Whether some state of a list is accepting. -/
def anyAccepting (a : Automaton) (states : List Nat) : Bool :=
  states.any fun i => (a.state i).accepting

/-- Runs on a text for as long as some state survives. Returns the last set that is not empty, and
what is left of the text. -/
def runFrom (a : Automaton) (states : List Nat) : List Char → List Nat × List Char
  | [] => (states, [])
  | c :: cs =>
    let next := a.move states c.toNat
    if next.isEmpty then (states, c :: cs) else a.runFrom next cs

/-- Runs from the start. -/
def run (a : Automaton) (text : List Char) : List Nat × List Char := a.runFrom a.initial text

/-- Whether the whole text is accepted. -/
def accepts (a : Automaton) (text : List Char) : Bool :=
  let (states, rest) := a.run text
  rest.isEmpty && a.anyAccepting states

/-- Runs at the cursor and captures what is consumed. Returns the symbol for the place where the run
ends, which need not be the longest accepted text. -/
def lex (a : Automaton) (cur : Cursor) : Option Int × Cursor :=
  let (states, rest) := a.run cur.position.rest
  (a.symbolOf states, cur.consume (cur.position.rest.length - rest.length))

/-- Whether some state in which runs begin has an edge on `cp`. -/
def canStartWith (a : Automaton) (cp : Nat) : Bool :=
  a.initial.any fun i => (CodeSet.ofRanges ((a.state i).edges.map (·.range))).contains cp

end FiberLex.Automaton
