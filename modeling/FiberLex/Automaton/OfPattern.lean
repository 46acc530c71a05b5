import FiberLex.Automaton.Compose
import FiberLex.Pattern.Basic

/-!
# Automata of patterns

The automaton of the language of a pattern. An automaton knows nothing of preference among matches,
so a pattern with a lazy repetition has none.
-/

namespace FiberLex.Automaton

mutual

/-- The automaton of a pattern, whose accepting states have the given symbol. -/
def ofPattern (p : Pattern) (symbol : Option Int) : Except BuildError Automaton :=
  match p with
  | .literal cp => .ok (ofCodePoints [cp] symbol)
  | .dot => .ok (ofSet Pattern.dotSet symbol)
  | .oneOf set negated => .ok (ofSet (set.negateIf negated) symbol)
  | .category cat negated => .ok (ofSet (cat.ranges.negateIf negated) symbol)
  | .concat items =>
    match items.mapM Pattern.literal? with
    | some cps => .ok (ofCodePoints cps symbol)
    | none => do
      let parts ← ofPatterns items
      .ok (concat parts symbol)
  | .alt branches => do
    let parts ← ofPatterns branches
    .ok (choice parts symbol)
  | .repetition body min max isLazy =>
    if isLazy then .error .lazyRepetition
    else do
      let part ← ofPattern body none
      part.repeated min max symbol

/-- The automata of several patterns, without symbols. -/
def ofPatterns (ps : List Pattern) : Except BuildError (List Automaton) :=
  match ps with
  | [] => .ok []
  | p :: rest => do
    let part ← ofPattern p none
    let parts ← ofPatterns rest
    .ok (part :: parts)

end

end FiberLex.Automaton
