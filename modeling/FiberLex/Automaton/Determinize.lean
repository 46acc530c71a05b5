import FiberLex.Automaton.Simulation
import FiberLex.Progress

/-!
# Determinisation

The subset construction. A state of the deterministic automaton stands for a set of states that the
given one may be in at the same time, written as an ascending list. The code points at which an edge
of a member begins or has just ended cut the line into windows; all code points of a window lead to
the same set, so its first one is tried for all. Sets are numbered as they are discovered, and their
edges are found in the order of the numbers.
-/

namespace FiberLex.Automaton

/-- The states reached from `roots` by epsilons, as an ascending list. -/
def closedSet (a : Automaton) (roots : List Nat) : List Nat := (a.epsilonClosure roots).mergeSort

/-- The code points at which an edge of a member of the set begins or has just ended, ascending. -/
def cuts (a : Automaton) (set : List Nat) : List Nat :=
  (set.flatMap fun i =>
    (a.state i).edges.flatMap fun e => [e.range.low, e.range.high + 1]).eraseDups.mergeSort

/-- The windows between neighbouring cuts. -/
def windows (a : Automaton) (set : List Nat) : List CodeRange :=
  let points := a.cuts set
  (points.zip points.tail).map fun p => ⟨p.1, p.2 - 1⟩

/-- The sets known so far, and what has been reported about them. -/
structure Subsets where
  /-- The sets in the order of their numbers. -/
  known : Array (List Nat) := #[]
  /-- The reports in order. -/
  log : Array Progress := #[]

namespace Subsets

/-- The number of a set, which is added if it is new. -/
def number (s : Subsets) (set : List Nat) : Subsets × Nat :=
  match s.known.idxOf? set with
  | some i => (s, i)
  | none =>
    (⟨s.known.push set, s.log.push (.discovered (s.known.size + 1))⟩, s.known.size)

end Subsets

/-- Puts a window in front of edges that are listed from the last to the first; it is joined to the
last edge if the two touch and lead to the same state. -/
def addWindow (window : CodeRange) (target : Nat) : List Edge → List Edge
  | [] => [⟨window, target⟩]
  | last :: rest =>
    if last.target = target ∧ last.range.high + 1 = window.low then
      ⟨⟨last.range.low, window.high⟩, target⟩ :: rest
    else ⟨window, target⟩ :: last :: rest

/-- The edges of a set over the given windows, after those found before, which are listed from the
last to the first. -/
def edgesOver (a : Automaton) (set : List Nat) (s : Subsets) (found : List Edge) :
    List CodeRange → Subsets × List Edge
  | [] => (s, found.reverse)
  | window :: rest =>
    let targets := a.targets set window.low
    if targets.isEmpty then a.edgesOver set s found rest
    else
      let (s', target) := s.number (a.closedSet targets)
      a.edgesOver set s' (addWindow window target found) rest

/-- Finds the edges of the known sets in order, those of the first sets being found already. At most
`fuel` sets are treated. -/
def explore (a : Automaton) : Nat → Subsets → Array State → Subsets × Array State
  | 0, s, done => (s, done)
  | fuel + 1, s, done =>
    match s.known[done.size]? with
    | none => (s, done)
    | some set =>
      let (s', edges) := a.edgesOver set s [] (a.windows set)
      a.explore fuel s'
        (done.push { accepting := a.anyAccepting set, symbol := a.symbolOf set, edges })

/-- The deterministic automaton of the same texts and symbols, and the reports of the pass. Where
accepting states with several symbols meet, the least one counts. There are no more sets than
subsets of the states, so the exploration ends before its fuel. -/
def determinize (a : Automaton) : Automaton × List Progress :=
  let (first, start) := ({} : Subsets).number (a.closedSet [a.start])
  let (s, states) := a.explore (Nat.pow 2 a.states.size) first #[]
  (⟨states, start⟩, s.log.toList)

end FiberLex.Automaton
