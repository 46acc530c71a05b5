import FiberLex.Proofs.Pattern.Reading
import Mathlib.Computability.Language

/-!
# The language of a pattern

`Pattern.language` is the set of texts a pattern matches, without any preference among them. A
pattern is well-formed when its sets follow each other, its choices have branches and its bounds are
in order; `wellFormed_parse` says that every pattern that has been read is.
-/

namespace FiberLex.Pattern

open CodeSet

/-- The texts of one character whose code point has a property. -/
def oneChar (holds : Nat → Prop) : Language Char := {w | ∃ c : Char, w = [c] ∧ holds c.toNat}

theorem mem_oneChar {holds : Nat → Prop} {w : List Char} :
    w ∈ oneChar holds ↔ ∃ c : Char, w = [c] ∧ holds c.toNat := Iff.rfl

/-- Whether `k` copies are within the bounds of a repetition. -/
def InBounds (min : Nat) (max : Option Nat) (k : Nat) : Prop :=
  min ≤ k ∧ ∀ m, max = some m → k ≤ m

mutual

/-- The texts that a pattern matches. -/
def language : Pattern → Language Char
  | literal cp => oneChar (· = cp)
  | dot => oneChar fun _ => True
  | oneOf set negated => oneChar fun cp => Covers set.toList cp ↔ negated = false
  | category cat negated => oneChar fun cp => cat.contains cp = true ↔ negated = false
  | concat items => languageOfSequence items
  | alt branches => languageOfChoice branches
  | repetition body min max _ => {w | ∃ k, InBounds min max k ∧ w ∈ language body ^ k}

/-- The texts that several patterns match one after the other. -/
def languageOfSequence : List Pattern → Language Char
  | [] => 1
  | p :: ps => language p * languageOfSequence ps

/-- The texts that some of several patterns match. -/
def languageOfChoice : List Pattern → Language Char
  | [] => 0
  | p :: ps => language p + languageOfChoice ps

end

/-! ## Well-formed patterns -/

/-- The sets of a pattern follow each other, its choices have branches, and its bounds are in
order. -/
inductive WellFormed : Pattern → Prop where
  | literal (cp : Nat) : WellFormed (literal cp)
  | dot : WellFormed dot
  | oneOf {set : CodeSet} (h : Ordered set.toList) (negated : Bool) : WellFormed (oneOf set negated)
  | category (cat : Category) (negated : Bool) : WellFormed (category cat negated)
  | concat {items : List Pattern} (h : ∀ p ∈ items, WellFormed p) : WellFormed (concat items)
  | alt {branches : List Pattern} (hne : branches ≠ []) (h : ∀ p ∈ branches, WellFormed p) :
    WellFormed (alt branches)
  | repetition {body : Pattern} {min : Nat} {max : Option Nat} (h : WellFormed body)
      (hbounds : ∀ m, max = some m → min ≤ m ∧ 0 < m) (isLazy : Bool) :
    WellFormed (repetition body min max isLazy)

/-- A legible pattern is well-formed: the ranges of a class are brought into normal form. -/
theorem Legible.wellFormed {p : Pattern} (h : p.Legible) : p.WellFormed := by
  induction h with
  | literal _ => exact .literal _
  | dot => exact .dot
  | ofRanges hrs negated =>
    exact .oneOf (ordered_normalList fun r hr => (hrs.within r hr).1) negated
  | category cat negated => exact .category cat negated
  | concat _ ih => exact .concat ih
  | alt hne _ ih => exact .alt hne ih
  | repetition _ hbounds isLazy ih => exact .repetition ih hbounds isLazy

/-- A pattern that has been read is well-formed. -/
theorem wellFormed_parse {text : String} {allowLazy : Bool} {p : Pattern}
    (h : parse text allowLazy = .ok p) : p.WellFormed :=
  (legible_parse h).wellFormed

end FiberLex.Pattern
