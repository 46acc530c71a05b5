import FiberLex.Error
import FiberLex.Text.Blank

/-!
# Positions and cursors

A `Position` is a place in a text: what is left to read, and the line, column and byte offset of the
next character. A `Cursor` is a position together with the width of tab stops and a capture buffer,
to which readers append what they consume. Going back to an earlier position leaves the buffer
alone.

Offsets, lines and columns are words of 64 bits. A text has fewer bytes than there are words, so the
offset and the line are exact. The column is not bounded by the text, as a tab can be of any width:
it is computed in words, and what does not fit is cut off.
-/

namespace FiberLex

/-- The number of words of 64 bits. -/
def wordCount : Nat := 0x10000000000000000

/-- A place in a text. -/
structure Position where
  /-- The characters from here on. -/
  rest : List Char
  /-- The number of bytes before this place. -/
  offset : Nat
  /-- The line, counted from one. -/
  line : Nat
  /-- The column, counted from one. -/
  column : Nat
deriving DecidableEq, Repr

namespace Position

/-- The beginning of a text. -/
def start (text : List Char) : Position := ⟨text, 0, 1, 1⟩

/-- The column after a character; a tab goes to the next multiple of the tab width. The arithmetic
is that of words: before column zero, which a column that was cut off can be, is the last word. -/
def nextColumn (tabWidth column : Nat) (c : Char) : Nat :=
  if c = '\n' then 1
  else if c = '\t' then
    (((column + (wordCount - 1)) % wordCount / tabWidth + 1) * tabWidth + 1) % wordCount
  else (column + 1) % wordCount

/-- The place after the next character; the end of the text stays where it is. -/
def advance (tabWidth : Nat) (p : Position) : Position :=
  match p.rest with
  | [] => p
  | c :: rest =>
    { rest
      offset := p.offset + c.utf8Size
      line := if c = '\n' then p.line + 1 else p.line
      column := nextColumn tabWidth p.column c }

/-- The place `n` characters further on. -/
def advanceBy (tabWidth : Nat) : Nat → Position → Position
  | 0, p => p
  | n + 1, p => advanceBy tabWidth n (p.advance tabWidth)

/-- The place, at or after `p` but not behind some characters, at which `finish` bytes are reached. -/
def advanceOver (tabWidth finish : Nat) : List Char → Position → Position
  | [], p => p
  | _ :: cs, p =>
    if p.offset < finish then advanceOver tabWidth finish cs (p.advance tabWidth) else p

/-- The place, at or after `p`, at which `finish` bytes are reached, or the end of the text. -/
def advanceTo (tabWidth finish : Nat) (p : Position) : Position :=
  advanceOver tabWidth finish p.rest p

/-- The place, at or after `p`, from which `rest` is left to read. -/
def seek (tabWidth : Nat) (p : Position) (rest : List Char) : Position :=
  p.advanceBy tabWidth (p.rest.length - rest.length)

/-- The error with the given cause at this place. -/
def error (p : Position) (issue : SyntaxIssue) : SyntaxError := ⟨issue, p.line, p.column, p.offset⟩

/-! ## What is left -/

@[simp] theorem rest_advance (tabWidth : Nat) (p : Position) :
    (p.advance tabWidth).rest = p.rest.drop 1 := by
  unfold advance
  split <;> simp_all

@[simp] theorem rest_advanceBy (tabWidth n : Nat) (p : Position) :
    (p.advanceBy tabWidth n).rest = p.rest.drop n := by
  induction n generalizing p with
  | zero => simp [advanceBy]
  | succ n ih => simp [advanceBy, ih]

theorem length_rest_advanceOver_le (tabWidth finish : Nat) (cs : List Char) (p : Position) :
    (advanceOver tabWidth finish cs p).rest.length ≤ p.rest.length := by
  induction cs generalizing p with
  | nil => exact Nat.le_refl _
  | cons c cs ih =>
    rw [advanceOver]
    split
    · refine Nat.le_trans (ih _) ?_
      rw [rest_advance, List.length_drop]
      exact Nat.sub_le _ _
    · exact Nat.le_refl _

/-- Unless it is reached, the place of some bytes is further on. -/
theorem length_rest_advanceTo_lt {tabWidth finish : Nat} {p : Position} (hrest : p.rest ≠ [])
    (h : p.offset < finish) : (p.advanceTo tabWidth finish).rest.length < p.rest.length := by
  obtain ⟨c, cs, hcs⟩ := List.exists_cons_of_ne_nil hrest
  have hle := length_rest_advanceOver_le tabWidth finish cs (p.advance tabWidth)
  rw [advanceTo, hcs, advanceOver, if_pos h]
  rw [rest_advance, hcs] at hle
  exact Nat.lt_succ_of_le hle

end Position

/-- A position with a capture buffer. -/
structure Cursor where
  /-- Where the cursor is. -/
  position : Position
  /-- The distance between tab stops. -/
  tabWidth : Nat := 4
  /-- What has been captured. -/
  captured : String := ""
deriving DecidableEq, Repr

namespace Cursor

/-- A cursor at the beginning of a text. -/
def ofString (text : String) : Cursor := { position := .start text.toList }

/-- The cursor with tab stops `width` columns apart, but at least one. -/
def withTabWidth (width : Nat) (cur : Cursor) : Cursor := { cur with tabWidth := max width 1 }

/-- The character under the cursor. -/
def current? (cur : Cursor) : Option Char := cur.position.rest.head?

/-- What is left to read. -/
def remaining (cur : Cursor) : String := String.ofList cur.position.rest

/-- Moves past the character under the cursor. -/
def advance (cur : Cursor) : Cursor := { cur with position := cur.position.advance cur.tabWidth }

/-- Moves past `n` characters. -/
def advanceBy (n : Nat) (cur : Cursor) : Cursor :=
  { cur with position := cur.position.advanceBy cur.tabWidth n }

/-- Moves on to where `rest` is left to read. -/
def seek (rest : List Char) (cur : Cursor) : Cursor :=
  { cur with position := cur.position.seek cur.tabWidth rest }

/-- Appends the character under the cursor to the capture buffer. -/
def capture (cur : Cursor) : Cursor :=
  match cur.current? with
  | none => cur
  | some c => { cur with captured := cur.captured.push c }

/-- Empties the capture buffer. -/
def clearCapture (cur : Cursor) : Cursor := { cur with captured := "" }

/-- Captures and moves past `n` characters. -/
def consume : Nat → Cursor → Cursor
  | 0, cur => cur
  | n + 1, cur => consume n cur.capture.advance

/-- Goes to a position seen earlier; the capture buffer stays as it is. -/
def restore (p : Position) (cur : Cursor) : Cursor := { cur with position := p }

/-- Moves past white space. -/
def skipBlanks (cur : Cursor) : Cursor :=
  cur.advanceBy (cur.position.rest.takeWhile Text.isBlank).length

/-- The error with the given cause at the cursor. -/
def error (cur : Cursor) (issue : SyntaxIssue) : SyntaxError := cur.position.error issue

/-- The error that one of a few things is expected at the cursor. -/
def expecting (cur : Cursor) (expected : List String) : SyntaxError :=
  cur.error (.unexpected cur.current? expected)

/-! ## What is consumed -/

theorem position_capture (cur : Cursor) : cur.capture.position = cur.position := by
  unfold capture
  split <;> rfl

theorem tabWidth_capture (cur : Cursor) : cur.capture.tabWidth = cur.tabWidth := by
  unfold capture
  split <;> rfl

theorem position_consume (n : Nat) (cur : Cursor) :
    (cur.consume n).position = cur.position.advanceBy cur.tabWidth n := by
  induction n generalizing cur with
  | zero => rfl
  | succ n ih =>
    rw [consume, ih, advance, Position.advanceBy, position_capture, tabWidth_capture]

end Cursor

end FiberLex
