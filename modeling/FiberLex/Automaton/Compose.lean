import FiberLex.Automaton.Basic

/-!
# Composing automata

Automata for texts, sets, sequences, choices and repetitions, built from copies of their parts, so
the same part can be used any number of times. The parts may be any automata: accepting states may
have edges out of them, and edges may lead back to a start state.
-/

namespace FiberLex.Automaton

/-- The automaton of exactly the given code points in sequence. -/
def ofCodePoints (cps : List Nat) (symbol : Option Int) : Automaton :=
  let inner := (cps.zipIdx 1).map fun p => ({ edges := [⟨.single p.1, p.2⟩] } : State)
  ⟨(inner.toArray).push { accepting := true, symbol }, 0⟩

/-- The automaton of one code point of the set. -/
def ofSet (set : CodeSet) (symbol : Option Int) : Automaton :=
  ⟨#[{ edges := set.normalize.toList.map (⟨·, 1⟩) }, { accepting := true, symbol }], 0⟩

/-- Continues every text of `a` by a text of `b`: the accepting states of `a` forward to the start
of a copy of `b`. -/
def append (a b : Automaton) : Automaton :=
  let (joined, entry) := a.absorb b
  joined.forwardAll a.acceptingStates entry

/-- The automaton of the parts one after the other. -/
def concat (parts : List Automaton) (symbol : Option Int) : Automaton :=
  match parts with
  | [] => empty symbol
  | first :: rest => (rest.foldl append first.compact).setSymbol symbol

/-- Adds a copy of a part behind the start state, and returns the accepting states of the copy. -/
def addBranch (a part : Automaton) : Automaton × List Nat :=
  let (joined, entry) := a.absorb part
  let branched := joined.addEpsilon a.start entry
  (branched, (branched.closureFrom entry).filter fun i => (branched.state i).accepting)

/-- Adds copies of the parts behind the start state, and returns the accepting states of all. -/
def addBranches (a : Automaton) : List Automaton → Automaton × List Nat
  | [] => (a, [])
  | part :: rest =>
    let (branched, ends) := a.addBranch part
    let (done, more) := branched.addBranches rest
    (done, ends ++ more)

/-- The automaton of any one of the parts; without parts, that of the empty text. -/
def choice (parts : List Automaton) (symbol : Option Int) : Automaton :=
  let (branched, ends) := new.addBranches parts
  let (joined, last) := branched.addState true symbol
  let merged := joined.forwardAll ends last
  if (merged.state merged.start).epsilons.isEmpty then merged.addEpsilon merged.start last
  else merged

/-- A copy of the part behind a new start state, with one new accepting state to which those of the
part forward. Returns the number of that state. -/
def enclosed (part : Automaton) (symbol : Option Int) : Automaton × Nat :=
  let (joined, entry) := new.absorb part
  let a := joined.addEpsilon joined.start entry
  let (b, last) := a.addState true symbol
  (b.forwardAll a.acceptingStates last, last)

/-- The automaton of one copy of the part or none. -/
def optional (part : Automaton) (symbol : Option Int) : Automaton :=
  let (a, last) := part.enclosed symbol
  a.addEpsilon a.start last

/-- The automaton of any number of copies of the part. -/
def star (part : Automaton) (symbol : Option Int) : Automaton :=
  let (a, last) := part.enclosed symbol
  (a.addEpsilon a.start last).addEpsilon last a.start

/-- The automaton of one copy of the part or more. -/
def plus (part : Automaton) (symbol : Option Int) : Automaton :=
  let (a, last) := part.enclosed symbol
  a.addEpsilon last a.start

/-- The automaton of `min` to `max` copies of the part, without an upper bound if `max` is `none`.
Bounds of zero and zero count as no bounds at all. -/
def repeated (part : Automaton) (min : Nat) (max : Option Nat) (symbol : Option Int) :
    Except BuildError Automaton :=
  match min, max with
  | 0, none | 0, some 0 => .ok (part.star symbol)
  | 0, some 1 => .ok (part.optional symbol)
  | 1, none => .ok (part.plus symbol)
  | 1, some 1 => .ok (part.compact.setSymbol symbol)
  | min, none => .ok (concat (List.replicate min part ++ [part.star none]) symbol)
  | min, some max =>
    if max < min then .error (.invalidBounds min max)
    else
      let needed := List.replicate min part
      let spare := List.replicate (max - min) (part.optional none)
      .ok (concat (needed ++ spare) symbol)

/-- The automaton of several rules: each part keeps its accepting states and their symbols. -/
def merged (parts : List Automaton) : Automaton :=
  parts.foldl (fun a part =>
    let (joined, entry) := a.absorb part
    joined.addEpsilon joined.start entry) new

end FiberLex.Automaton
