import FiberLex.Automaton.Basic
import FiberLex.Progress

/-!
# Reductions

Two ways to make an automaton smaller without changing what it accepts: states with the same outline
are merged, until no two are left, and states that only forward to another are bypassed.
-/

namespace FiberLex.Automaton

/-- The automaton with every edge, epsilon and the start led elsewhere by `f`. -/
def redirect (a : Automaton) (f : Nat → Nat) : Automaton where
  states := a.states.map fun s =>
    { s with
      edges := s.edges.map fun e => ⟨e.range, f e.target⟩
      epsilons := (s.epsilons.map f).eraseDups }
  start := f a.start

/-! ## Duplicates -/

/-- What is compared to find duplicates: two states with the same outline can stand for each
other. -/
structure Outline where
  /-- Whether the state is accepting. -/
  accepting : Bool
  /-- Its symbol, if it is accepting. -/
  symbol : Option Int
  /-- The code points that lead to each successor, by ascending successor. -/
  edges : List (Nat × CodeSet)
  /-- The epsilons in ascending order. -/
  epsilons : List Nat
deriving DecidableEq

/-- The outline of a state. -/
def outline (s : State) : Outline where
  accepting := s.accepting
  symbol := if s.accepting then s.symbol else none
  edges := s.edgesByTarget.mergeSort fun p q => p.1 ≤ q.1
  epsilons := s.epsilons.mergeSort

/-- Reachable states with their outlines, in preorder. -/
def outlines (a : Automaton) : List (Outline × Nat) :=
  a.closure.map fun i => (outline (a.state i), i)

/-- For each state the first one in preorder with the same outline. -/
def representatives (a : Automaton) : Array Nat :=
  let all := a.outlines
  all.foldl (fun m p => m.setIfInBounds p.2 ((all.lookup p.1).getD p.2)) (Array.range a.states.size)

/-- Merges duplicates once; `none` if there are none. -/
def mergeDuplicates? (a : Automaton) : Option Automaton :=
  let reps := a.representatives
  if a.closure.all fun i => reps.getD i i == i then none
  else some (a.redirect fun i => reps.getD i i)

/-- Merges duplicates in at most `fuel` passes, numbered from `pass` on, and reports each pass. -/
def mergePasses (a : Automaton) (pass : Nat) : Nat → Automaton × List Progress
  | 0 => (a, [])
  | fuel + 1 =>
    match a.mergeDuplicates? with
    | none => (a, [.searchedDuplicates pass])
    | some b =>
      let (c, log) := b.mergePasses (pass + 1) fuel
      (c, .searchedDuplicates pass :: log)

/-- Merges states with the same outline until no two are left, and drops what cannot be reached.
Each pass that merges makes at least one state unreachable, so no more passes are needed than there
are states, and one that finds nothing. -/
def trimDuplicates (a : Automaton) : Automaton × List Progress :=
  let (b, log) := a.mergePasses 0 (a.states.size + 1)
  (b.compact, log)

/-! ## Neutral states -/

/-- The state at the end of the chain of neutral states from `i` on, if the chain ends within `fuel`
steps. -/
def chainEnd? (a : Automaton) (fuel i : Nat) : Option Nat :=
  let s := a.state i
  if s.isNeutral then
    match fuel, s.epsilons with
    | fuel + 1, next :: _ => a.chainEnd? fuel next
    | _, _ => none
  else some i

/-- The reachable neutral states, each with the end of its chain. -/
def neutralEnds (a : Automaton) : Except BuildError (List (Nat × Nat)) :=
  (a.closure.filter fun i => (a.state i).isNeutral).mapM fun i =>
    match a.chainEnd? a.states.size i with
    | some last => .ok (i, last)
    | none => .error .neutralCycle

/-- Bypasses the neutral states in place and drops what cannot be reached then; without neutral
states the automaton stays as it is. Neutral states in a circle are refused, before anything is
changed. -/
def bypassNeutrals : Change := do
  let a ← get
  let ends ← MonadExcept.ofExcept a.neutralEnds
  if !ends.isEmpty then
    modify fun a => a.redirect fun i => (ends.lookup i).getD i
    modify compact

/-- The automaton without neutral states. -/
def trimNeutrals (a : Automaton) : Except BuildError Automaton := bypassNeutrals.outcome a

theorem run_bypassNeutrals (a : Automaton) :
    bypassNeutrals.run a =
      match a.neutralEnds with
      | .error e => .error e a
      | .ok [] => .ok () a
      | .ok ends => .ok () (a.redirect fun i => (ends.lookup i).getD i).compact := by
  unfold bypassNeutrals
  simp only [EStateM.run_bind, EStateM.run_get]
  cases a.neutralEnds with
  | error e => rfl
  | ok ends => cases ends <;> rfl

theorem trimNeutrals_eq (a : Automaton) :
    a.trimNeutrals = (do
      match ← a.neutralEnds with
      | [] => .ok a
      | ends => .ok (a.redirect fun i => (ends.lookup i).getD i).compact) := by
  rw [trimNeutrals, Change.outcome, run_bypassNeutrals]
  cases a.neutralEnds with
  | error e => rfl
  | ok ends => cases ends <;> rfl

end FiberLex.Automaton
