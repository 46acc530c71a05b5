/-!
# Progress

What the longer passes over an automaton report while they run.
-/

namespace FiberLex

/-- One report of a pass over an automaton. -/
inductive Progress where
  /-- So many states of the deterministic automaton are known. -/
  | discovered (count : Nat)
  /-- The search for duplicate states begins its pass with this number, counted from zero. -/
  | searchedDuplicates (pass : Nat)
deriving DecidableEq, Repr

end FiberLex
