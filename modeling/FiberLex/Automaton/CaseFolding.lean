import FiberLex.Automaton.Basic
import FiberLex.Text.LetterCase

/-!
# Matching in any letter case

An automaton is made to match letters in either case by adding edges. An edge whose range begins and
ends in one case gets a second one for the range between the counterparts of its ends, as far as the
edges of the state do not cover that range already.
-/

namespace FiberLex.Automaton

open Text

/-- The range between two counterparts of the ends of `range`, if there are both, they are in order
and the range is another one. -/
def counterpart? (range : CodeRange) (low high : Option Nat) : Option CodeRange :=
  match low, high with
  | some l, some h => if l ≤ h ∧ (⟨l, h⟩ : CodeRange) ≠ range then some ⟨l, h⟩ else none
  | _, _ => none

/-- The range in the other letter case, if there is one. A range that begins with a letter of one
case must end with one of that case. -/
def otherCase (range : CodeRange) : Except BuildError (Option CodeRange) :=
  if isCharacter range.low && isCharacter range.high then
    if isLowercase range.low then
      if isLowercase range.high then .ok (counterpart? range (upper? range.low) (upper? range.high))
      else .error (.mixedCase range)
    else if isUppercase range.low then
      if isUppercase range.high then .ok (counterpart? range (lower? range.low) (lower? range.high))
      else .error (.mixedCase range)
    else .ok none
  else .ok none

/-- The state with an edge for what of `range` its edges do not cover. -/
def coverRest (s : State) (range : CodeRange) (target : Nat) : State :=
  let rest := s.edges.foldl (fun pieces e => CodeRange.minusAll pieces e.range) [range]
  { s with edges := s.edges ++ rest.map (⟨·, target⟩) }

/-- The state with the edges for the other letter case of some of its edges. -/
def addOtherCases (s : State) : List Edge → Except BuildError State
  | [] => .ok s
  | e :: rest => do
    match ← otherCase e.range with
    | none => addOtherCases s rest
    | some range => addOtherCases (coverRest s range e.target) rest

/-- The automaton with letters matched in either case. The symbol of its accepting states is
replaced if one is given. -/
def ignoringCase (a : Automaton) (symbol : Option Int) : Except BuildError Automaton := do
  let copy := a.compact
  let states ← copy.states.toList.mapM fun s => addOtherCases s s.edges
  let widened := { copy with states := states.toArray }
  .ok (if symbol.isSome then widened.setSymbol symbol else widened)

end FiberLex.Automaton
