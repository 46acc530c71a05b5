import FiberLex.Category

/-!
# Patterns

The tree of a regular expression. A pattern denotes a language, and beyond that a preference among
its matches: alternatives are tried in order, and a repetition is greedy unless it is marked lazy.
-/

namespace FiberLex

/-- A regular expression. -/
inductive Pattern where
  /-- One code point. -/
  | literal (cp : Nat)
  /-- Any character. -/
  | dot
  /-- A code point in the set, or outside it if `negated` holds. -/
  | oneOf (set : CodeSet) (negated : Bool)
  /-- A code point of the category, or of any other if `negated` holds. -/
  | category (cat : Category) (negated : Bool)
  /-- The items one after the other. -/
  | concat (items : List Pattern)
  /-- One of the branches, the first being preferred. -/
  | alt (branches : List Pattern)
  /-- Between `min` and `max` copies of the body, without an upper bound if `max` is `none`. A lazy
  repetition prefers fewer copies. -/
  | repetition (body : Pattern) (min : Nat) (max : Option Nat) (isLazy : Bool)
deriving Repr, Inhabited

namespace Pattern

/-- The pattern of the empty text. -/
def empty : Pattern := concat []

/-- Whether the pattern is the empty sequence. -/
def isEmpty : Pattern → Bool
  | concat [] => true
  | _ => false

/-- A code point among the ranges of a list, or outside them if `negated` holds. -/
def ofRanges (ranges : List CodeRange) (negated : Bool) : Pattern :=
  oneOf (CodeSet.ofRanges ranges) negated

/-- The items in sequence; a single item stands for itself. -/
def sequence : List Pattern → Pattern
  | [item] => item
  | items => concat items

/-- A choice between the branches; a single branch stands for itself. -/
def choice : List Pattern → Pattern
  | [branch] => branch
  | branches => alt branches

/-- The pattern of exactly the given text. -/
def ofText (text : List Char) : Pattern := sequence (text.map fun c => literal c.toNat)

mutual

/-- Whether some repetition in the pattern is lazy. -/
def hasLazy : Pattern → Bool
  | literal _ | dot | oneOf _ _ | category _ _ => false
  | concat items => anyLazy items
  | alt branches => anyLazy branches
  | repetition body _ _ isLazy => isLazy || hasLazy body

/-- Whether some repetition in some pattern of the list is lazy. -/
def anyLazy : List Pattern → Bool
  | [] => false
  | p :: ps => hasLazy p || anyLazy ps

end

/-- The code points matched by `dot` as a set: all but the surrogates, which no text has. -/
def dotSet : CodeSet := #[⟨0, 0xD7FF⟩, ⟨0xE000, maxCodePoint⟩]

/-- The code points a pattern of one character matches. -/
def codeSet? : Pattern → Option CodeSet
  | literal cp => some #[CodeRange.single cp]
  | dot => some dotSet
  | oneOf set negated => some (set.negateIf negated)
  | category cat negated => some (cat.ranges.negateIf negated)
  | _ => none

/-- The code point of a literal. -/
def literal? : Pattern → Option Nat
  | literal cp => some cp
  | _ => none

end Pattern

end FiberLex
