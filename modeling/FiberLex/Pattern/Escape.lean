import FiberLex.Pattern.Basic
import FiberLex.Scan

/-!
# Escapes in patterns

What may follow a backslash in a pattern: a letter for a control character, a code point in
hexadecimal, a category in braces, or any other character for itself. The same escapes are used
outside and inside brackets, where `\b` is the backspace.
-/

namespace FiberLex.Pattern

/-- The code point named by one character after a backslash. -/
def escapeValue (inBrackets : Bool) (c : Char) : Nat :=
  match c with
  | 't' => 0x09
  | 'n' => 0x0A
  | 'v' => 0x0B
  | 'f' => 0x0C
  | 'r' => 0x0D
  | '0' => 0x00
  | 'a' => 0x07
  | 'e' => 0x1B
  | 'b' => if inBrackets then 0x08 else c.toNat
  | _ => c.toNat

/-- How many hexadecimal digits follow a letter after a backslash, if any do. -/
def hexWidth? : Char → Option Nat
  | 'x' => some 2
  | 'u' => some 4
  | 'U' => some 8
  | _ => none

/-- Reads the code point of an escape, from the character after the backslash on. -/
def readEscapedChar (inBrackets : Bool) : List Char → Except Fault (Nat × List Char)
  | [] => .error (.here .unterminatedEscape [])
  | c :: cs =>
    match hexWidth? c with
    | none => .ok (escapeValue inBrackets c, cs)
    | some width => do
      let (value, rest) ← Scan.hex width width cs
      if maxCodePoint < value then .error ⟨.codePointTooLarge value, c :: cs, rest⟩
      else .ok (value, rest)

/-- Reads the name of a category in braces. -/
def readCategory (cs : List Char) : Except Fault (Category × List Char) := do
  let cs ← Scan.char '{' cs
  let name := String.ofList (cs.takeWhile (· ≠ '}'))
  let rest ← Scan.char '}' (cs.dropWhile (· ≠ '}'))
  match Category.ofName? name with
  | some cat => .ok (cat, rest)
  | none => .error ⟨.unknownCategoryName name, cs, rest⟩

section ReadEscapeAs

variable {α : Type} (inBrackets : Bool) (ofClass : List CodeRange → Bool → α)
  (ofCategory : Category → Bool → α) (ofCode : Nat → α)

/-- Reads an escape, from the character after the backslash on, as what is made of a class named by
a letter, of a category, or of a code point. Classes and categories may be negated. -/
def readEscapeAs : List Char → Except Fault (α × List Char)
  | [] => .error (.here .unterminatedEscape [])
  | c :: cs =>
    match CharClass.shorthand? c with
    | some (ranges, negated) => .ok (ofClass ranges negated, cs)
    | none =>
      if c = 'p' ∨ c = 'P' then do
        let (cat, rest) ← readCategory cs
        .ok (ofCategory cat (c = 'P'), rest)
      else do
        let (cp, rest) ← readEscapedChar inBrackets (c :: cs)
        .ok (ofCode cp, rest)

end ReadEscapeAs

/-- Reads an escape outside brackets. -/
def readEscape : List Char → Except Fault (Pattern × List Char) :=
  readEscapeAs false ofRanges category literal

/-! ## What the readers leave -/

theorem readEscapedChar_consumes {inBrackets : Bool} {cs rest : List Char} {cp : Nat}
    (h : readEscapedChar inBrackets cs = .ok (cp, rest)) : Scan.Consumes cs rest := by
  cases cs with
  | nil => simp [readEscapedChar] at h
  | cons c cs =>
    simp only [readEscapedChar] at h
    split at h
    · cases h
      exact .cons _ _
    · obtain ⟨⟨value, rest'⟩, hx, h⟩ := Scan.bind_eq_ok.mp h
      dsimp only at h
      split at h
      · cases h
      · cases h
        exact (Scan.hex_leaves hx).cons

theorem readCategory_consumes {cs rest : List Char} {cat : Category}
    (h : readCategory cs = .ok (cat, rest)) : Scan.Consumes cs rest := by
  obtain ⟨cs₁, h₁, h⟩ := Scan.bind_eq_ok.mp h
  obtain ⟨cs₂, h₂, h⟩ := Scan.bind_eq_ok.mp h
  split at h
  · cases h
    exact (Scan.char_consumes h₁).trans
      ((Scan.Leaves.dropWhile _ _).trans (Scan.char_consumes h₂).leaves)
  · cases h

theorem readEscapeAs_consumes {α : Type} {inBrackets : Bool} {ofClass : List CodeRange → Bool → α}
    {ofCategory : Category → Bool → α} {ofCode : Nat → α} {cs rest : List Char} {v : α}
    (h : readEscapeAs inBrackets ofClass ofCategory ofCode cs = .ok (v, rest)) :
    Scan.Consumes cs rest := by
  cases cs with
  | nil => cases h
  | cons c cs =>
    simp only [readEscapeAs] at h
    split at h
    · cases h
      exact .cons _ _
    · split at h
      · obtain ⟨r, hc, h⟩ := Scan.bind_eq_ok.mp h
        cases h
        exact (readCategory_consumes hc).leaves.cons
      · obtain ⟨r, hc, h⟩ := Scan.bind_eq_ok.mp h
        cases h
        exact readEscapedChar_consumes hc

end FiberLex.Pattern
