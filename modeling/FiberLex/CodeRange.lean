import FiberLex.Text.Numeral

/-!
# Ranges of code points

A `CodeRange` is an inclusive interval of code points. Code points are natural numbers: a pattern
may name any number up to `maxCodePoint`, surrogates included, although no character of a text is
one.
-/

namespace FiberLex

/-- The largest code point. -/
def maxCodePoint : Nat := 0x10FFFF

/-- Whether a code point is a character, that is, no surrogate. -/
def isCharacter (cp : Nat) : Bool := cp < 0xD800 || (0xDFFF < cp && cp ≤ maxCodePoint)

/-- The inclusive interval from `low` to `high`. -/
structure CodeRange where
  /-- The least code point of the interval. -/
  low : Nat
  /-- The greatest code point of the interval. -/
  high : Nat
deriving DecidableEq, Repr, Hashable, Inhabited

namespace CodeRange

/-- The interval that holds one code point only. -/
def single (cp : Nat) : CodeRange := ⟨cp, cp⟩

/-- Whether `cp` lies in the interval. -/
def contains (r : CodeRange) (cp : Nat) : Bool := r.low ≤ cp && cp ≤ r.high

/-- Whether the two intervals share a code point. -/
def meets (r s : CodeRange) : Bool := r.low ≤ s.high && s.low ≤ r.high

/-- How many code points the interval holds. -/
def width (r : CodeRange) : Nat := r.high - r.low + 1

/-- Lexicographic order on the two ends, strict. -/
def before (r s : CodeRange) : Bool := r.low < s.low || (r.low == s.low && r.high < s.high)

/-- Lexicographic order on the two ends. -/
def atMost (r s : CodeRange) : Bool := !s.before r

/-- The part of `r` outside `s`: nothing, one interval or two, in ascending order. -/
def minus (r s : CodeRange) : List CodeRange :=
  if r.meets s then
    (if r.low < s.low then [⟨r.low, s.low - 1⟩] else []) ++
      (if s.high < r.high then [⟨s.high + 1, r.high⟩] else [])
  else [r]

/-- The part of a list of intervals outside `s`, piece by piece. -/
def minusAll (rs : List CodeRange) (s : CodeRange) : List CodeRange := rs.flatMap (·.minus s)

/-- The interval as text: one hexadecimal number, or two joined by `..=`. -/
def text (r : CodeRange) : String :=
  if r.low = r.high then Numeral.hex0x r.low
  else Numeral.hex0x r.low ++ "..=" ++ Numeral.hex0x r.high

/-! ## Membership -/

@[simp] theorem contains_iff {r : CodeRange} {cp : Nat} :
    r.contains cp = true ↔ r.low ≤ cp ∧ cp ≤ r.high := by
  simp [contains]

@[simp] theorem meets_iff {r s : CodeRange} :
    r.meets s = true ↔ r.low ≤ s.high ∧ s.low ≤ r.high := by
  simp [meets]

end CodeRange

end FiberLex
