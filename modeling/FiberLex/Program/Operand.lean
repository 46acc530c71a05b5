import FiberLex.Program.Basic
import FiberLex.Scan
import FiberLex.Text.Numeric

/-!
# Operands of instructions as text

Readers for what stands in a line of a program text: names, integers, quoted characters, ranges,
labels and categories. Blanks and a comment, from a semicolon to the end of the line, may stand in
front of each of them; the end of the line itself is no blank.
-/

namespace FiberLex.Operand

open Text

/-! ## Blanks -/

/-- What is left after blanks and a comment, up to the end of the line. -/
def skipBlanks : List Char → List Char
  | [] => []
  | c :: cs =>
    if c = ';' then cs.dropWhile (· ≠ '\n')
    else if c ≠ '\n' ∧ isBlank c then skipBlanks cs
    else c :: cs

/-- What is left after blanks, comments and ends of lines; `inComment` says whether a comment is
going on. -/
def skipLines (inComment : Bool) : List Char → List Char
  | [] => []
  | c :: cs =>
    if c = '\n' then skipLines false cs
    else if inComment then skipLines true cs
    else if c = ';' then skipLines true cs
    else if isBlank c then skipLines false cs
    else c :: cs

theorem skipBlanks_leaves (cs : List Char) : Scan.Leaves cs (skipBlanks cs) := by
  induction cs with
  | nil => exact .refl _
  | cons c cs ih =>
    simp only [skipBlanks]
    split
    · exact (Scan.Leaves.dropWhile _ cs).cons.leaves
    · split
      · exact ih.cons.leaves
      · exact .refl _

theorem skipLines_leaves (inComment : Bool) (cs : List Char) :
    Scan.Leaves cs (skipLines inComment cs) := by
  induction cs generalizing inComment with
  | nil => exact .refl _
  | cons c cs ih =>
    simp only [skipLines]
    split
    · exact (ih false).cons.leaves
    · split
      · exact (ih true).cons.leaves
      · split
        · exact (ih true).cons.leaves
        · split
          · exact (ih false).cons.leaves
          · exact .refl _

/-- Reads the wanted character after blanks. -/
def char (wanted : Char) (cs : List Char) : Except Fault (List Char) :=
  Scan.char wanted (skipBlanks cs)

/-- Reads the end of the line, or the end of the text. -/
def endOfLine (cs : List Char) : Except Fault (List Char) :=
  match skipBlanks cs with
  | [] => .ok []
  | '\n' :: rest => .ok rest
  | rest => .error (.expecting ["end of line"] rest)

/-! ## Names and numbers -/

/-- Whether a character can stand in a name. -/
def isNameChar (c : Char) : Bool := c == '_' || isAlphanumeric c

/-- Whether characters make up a name: there are some, and they do not begin with a digit. -/
def isName : List Char → Bool
  | [] => false
  | c :: _ => !c.isDigit

/-- Reads a name. -/
def name (cs : List Char) : Except Fault (String × List Char) :=
  let cs := skipBlanks cs
  let chars := cs.takeWhile isNameChar
  let rest := cs.dropWhile isNameChar
  if isName chars then .ok (String.ofList chars, rest)
  else .error (.expecting ["identifier"] rest)

/-- The bound below which the size of an integer has to stay. -/
def integerLimit : Nat := Nat.pow 2 63

/-- Reads the digits of an integer. -/
def magnitude (cs : List Char) : Except Fault (Nat × List Char) := do
  let (value, rest) ← Scan.decimal integerLimit .integerOutOfRange none cs
  match value with
  | some n => .ok (n, rest)
  | none => .error (.expecting ["integer"] rest)

/-- Reads an integer, which may have a minus sign in front. -/
def integer (cs : List Char) : Except Fault (Int × List Char) :=
  match skipBlanks cs with
  | '-' :: rest => do
    let (n, rest) ← magnitude rest
    .ok (-n, rest)
  | rest => do
    let (n, rest) ← magnitude rest
    .ok (n, rest)

/-! ## Characters and sets -/

/-- The code point named by one character after a backslash in quotes. -/
def escapeValue? : Char → Option Nat
  | 'r' => some 0x0D
  | 'n' => some 0x0A
  | 't' => some 0x09
  | 'a' => some 0x07
  | 'b' => some 0x08
  | 'f' => some 0x0C
  | 'v' => some 0x0B
  | '0' => some 0x00
  | '\\' => some 0x5C
  | '\'' => some 0x27
  | '"' => some 0x22
  | _ => none

/-- How few and how many hexadecimal digits follow a letter after a backslash, if any do. -/
def hexWidths? : Char → Option (Nat × Nat)
  | 'x' => some (1, 4)
  | 'u' => some (4, 4)
  | 'U' => some (8, 8)
  | _ => none

/-- Reads the code point between quotes; `site` is the opening quote. -/
def quotedBody (site : List Char) : List Char → Except Fault (Nat × List Char)
  | [] => .error (.here .unterminatedCharacter [])
  | ['\\'] => .error (.here .unterminatedEscape [])
  | '\\' :: c :: cs =>
    match escapeValue? c with
    | some cp => .ok (cp, cs)
    | none =>
      match hexWidths? c with
      | some (least, most) => Scan.hex least most cs
      | none => .error ⟨.unknownEscape c, site, cs⟩
  | c :: cs =>
    if c = '\n' then .error (.here .unterminatedCharacter (c :: cs)) else .ok (c.toNat, cs)

/-- Reads a code point in double or single quotes. -/
def character (cs : List Char) : Except Fault (Nat × List Char) :=
  match skipBlanks cs with
  | [] => .error (.expecting ["character literal"] [])
  | quote :: body =>
    if quote = '"' ∨ quote = '\'' then do
      let (cp, rest) ← quotedBody (quote :: body) body
      let rest ← Scan.char quote rest
      if maxCodePoint < cp then .error ⟨.codePointTooLarge cp, quote :: body, rest⟩
      else .ok (cp, rest)
    else .error (.expecting ["character literal"] (quote :: body))

/-- Reads one code point, or two with two dots between them. -/
def range (cs : List Char) : Except Fault (CodeRange × List Char) := do
  let (low, rest) ← character cs
  match skipBlanks rest with
  | '.' :: '.' :: rest =>
    let (high, rest) ← character rest
    if high < low then .error (.here .rangeOutOfOrder rest) else .ok (⟨low, high⟩, rest)
  | rest => .ok (⟨low, low⟩, rest)

/-! ## Labels and categories -/

/-- A label that is used, and what is left of the text from it on. -/
structure LabelUse where
  /-- The name of the label. -/
  name : String
  /-- What is left of the text from the name on. -/
  site : List Char

/-- Reads a label. -/
def label (cs : List Char) : Except Fault (LabelUse × List Char) := do
  let (name, rest) ← name cs
  .ok (⟨name, skipBlanks cs⟩, rest)

/-- Reads the number or the name of a category, which may be that of none. -/
def category? (cs : List Char) : Except Fault (Option Category × List Char) :=
  if cs.head?.any Char.isDigit then do
    let (n, rest) ← integer cs
    .ok (Category.ofNumber? n.toNat, rest)
  else do
    let (name, rest) ← name cs
    .ok (Category.ofName? name, rest)

/-- Reads a category, given by its number or its name. -/
def category (cs : List Char) : Except Fault (Category × List Char) := do
  let (cat, rest) ← category? (skipBlanks cs)
  match cat with
  | some cat => .ok (cat, rest)
  | none => .error ⟨.unknownCategory, skipBlanks cs, rest⟩

/-! ## What the readers leave -/

theorem char_consumes {wanted : Char} {cs rest : List Char} (h : char wanted cs = .ok rest) :
    Scan.Consumes cs rest :=
  (skipBlanks_leaves cs).consumes (Scan.char_consumes h)

theorem endOfLine_leaves {cs rest : List Char} (h : endOfLine cs = .ok rest) :
    Scan.Leaves cs rest := by
  have l := skipBlanks_leaves cs
  unfold endOfLine at h
  split at h
  · rename_i heq
    cases h
    exact heq ▸ l
  · rename_i heq
    cases h
    exact (heq ▸ l).trans (Scan.Consumes.cons _ _).leaves
  · cases h

theorem name_consumes {cs rest : List Char} {s : String} (h : name cs = .ok (s, rest)) :
    Scan.Consumes cs rest := by
  simp only [name] at h
  split at h
  · rename_i hn
    cases h
    refine (skipBlanks_leaves cs).consumes ⟨(skipBlanks cs).takeWhile isNameChar, ?_, by simp⟩
    intro hnil
    rw [hnil] at hn
    cases hn
  · cases h

theorem magnitude_leaves {cs rest : List Char} {n : Nat} (h : magnitude cs = .ok (n, rest)) :
    Scan.Leaves cs rest := by
  obtain ⟨⟨value, rest'⟩, h₁, h⟩ := Scan.bind_eq_ok.mp h
  dsimp only at h
  split at h
  · cases h
    exact Scan.decimal_leaves h₁
  · cases h

theorem integer_leaves {cs rest : List Char} {i : Int} (h : integer cs = .ok (i, rest)) :
    Scan.Leaves cs rest := by
  have l := skipBlanks_leaves cs
  unfold integer at h
  split at h
  · rename_i heq
    exact (heq ▸ l).trans
      (Scan.leaves_of_bind h (fun h => (magnitude_leaves h).cons.leaves) Scan.leaves_of_ok)
  · exact l.trans (Scan.leaves_of_bind h magnitude_leaves Scan.leaves_of_ok)

theorem quotedBody_consumes {site cs rest : List Char} {cp : Nat}
    (h : quotedBody site cs = .ok (cp, rest)) : Scan.Consumes cs rest := by
  unfold quotedBody at h
  split at h
  · cases h
  · cases h
  · split at h
    · cases h
      exact (Scan.Consumes.cons _ _).leaves.cons
    · split at h
      · exact (Scan.hex_leaves h).cons.leaves.cons
      · cases h
  · split at h
    · cases h
    · cases h
      exact .cons _ _

theorem character_consumes {cs rest : List Char} {cp : Nat}
    (h : character cs = .ok (cp, rest)) : Scan.Consumes cs rest := by
  have l := skipBlanks_leaves cs
  unfold character at h
  split at h
  · cases h
  · rename_i heq
    split at h
    · obtain ⟨r₁, h₁, h⟩ := Scan.bind_eq_ok.mp h
      obtain ⟨r₂, h₂, h⟩ := Scan.bind_eq_ok.mp h
      split at h
      · cases h
      · cases h
        exact (heq ▸ l).consumes
          ((quotedBody_consumes h₁).leaves.trans (Scan.char_consumes h₂).leaves).cons
    · cases h

theorem range_consumes {cs rest : List Char} {r : CodeRange} (h : range cs = .ok (r, rest)) :
    Scan.Consumes cs rest := by
  obtain ⟨r₁, h₁, k⟩ := Scan.bind_eq_ok.mp h
  have l := skipBlanks_leaves r₁.2
  dsimp only at k
  split at k
  · rename_i heq
    obtain ⟨r₂, h₂, k⟩ := Scan.bind_eq_ok.mp k
    split at k
    · cases k
    · cases k
      exact (character_consumes h₁).trans
        ((heq ▸ l).trans (character_consumes h₂).leaves.cons.leaves.cons.leaves)
  · cases k
    exact (character_consumes h₁).trans l

theorem label_consumes {cs rest : List Char} {use : LabelUse} (h : label cs = .ok (use, rest)) :
    Scan.Consumes cs rest := by
  obtain ⟨r, h₁, h⟩ := Scan.bind_eq_ok.mp h
  cases h
  exact name_consumes h₁

theorem category?_leaves {cs rest : List Char} {cat : Option Category}
    (h : category? cs = .ok (cat, rest)) : Scan.Leaves cs rest := by
  unfold category? at h
  split at h
  · exact Scan.leaves_of_bind h integer_leaves Scan.leaves_of_ok
  · exact Scan.leaves_of_bind h (fun h => (name_consumes h).leaves) Scan.leaves_of_ok

theorem category_leaves {cs rest : List Char} {cat : Category}
    (h : category cs = .ok (cat, rest)) : Scan.Leaves cs rest := by
  obtain ⟨⟨found, rest'⟩, h₁, h⟩ := Scan.bind_eq_ok.mp h
  cases found with
  | none => cases h
  | some found =>
    cases h
    exact (skipBlanks_leaves cs).trans (category?_leaves h₁)

/-! ## Lists -/

/-- Reads one thing or more, with commas between them. -/
def commaSeparated {α : Type} (one : List Char → Except Fault (α × List Char))
    (consumes : ∀ {cs a rest}, one cs = .ok (a, rest) → Scan.Consumes cs rest) (cs : List Char) :
    Except Fault (List α × List Char) :=
  match _ : one cs with
  | .error e => .error e
  | .ok (a, rest) =>
    match _ : skipBlanks rest with
    | ',' :: rest => do
      let (more, rest) ← commaSeparated one consumes rest
      .ok (a :: more, rest)
    | rest => .ok ([a], rest)
termination_by cs.length
decreasing_by
  rename_i rest₁ h₁ h₂
  have l := skipBlanks_leaves rest₁
  rw [h₂] at l
  exact ((consumes h₁).trans (l.trans (Scan.Consumes.cons _ _).leaves)).length_lt

theorem commaSeparated_consumes {α : Type} {one : List Char → Except Fault (α × List Char)}
    {consumes : ∀ {cs a rest}, one cs = .ok (a, rest) → Scan.Consumes cs rest}
    {cs rest : List Char} {as : List α} (h : commaSeparated one consumes cs = .ok (as, rest)) :
    Scan.Consumes cs rest := by
  fun_induction commaSeparated one consumes cs generalizing as rest with
  | case1 => cases h
  | case2 cs a rest₁ h₁ rest₂ h₂ ih =>
    obtain ⟨r, h₃, h⟩ := Scan.bind_eq_ok.mp h
    cases h
    have l := skipBlanks_leaves rest₁
    rw [h₂] at l
    exact (consumes h₁).trans (l.trans (ih h₃).leaves.cons.leaves)
  | case3 cs a rest₁ h₁ h₂ =>
    cases h
    exact (consumes h₁).trans (skipBlanks_leaves rest₁)

/-- Reads the ranges of a set. -/
def set (cs : List Char) : Except Fault (CodeSet × List Char) := do
  let (ranges, rest) ← commaSeparated range range_consumes cs
  .ok (CodeSet.ofRanges ranges, rest)

theorem set_consumes {cs rest : List Char} {s : CodeSet} (h : set cs = .ok (s, rest)) :
    Scan.Consumes cs rest := by
  obtain ⟨r, h₁, h⟩ := Scan.bind_eq_ok.mp h
  cases h
  exact commaSeparated_consumes h₁

/-- Reads labels. -/
def labels (cs : List Char) : Except Fault (List LabelUse × List Char) :=
  commaSeparated label label_consumes cs

end FiberLex.Operand
