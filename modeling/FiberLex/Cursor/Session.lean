import FiberLex.Cursor

/-!
# Going back and forth in a text

A `Checkpoint` keeps where a cursor was: the offset, the line and the column. It does not keep what
was left to read. A cursor that goes back to it reads on in the text from the offset, and this fails
if the offset is not one between two characters. A `Cursor.Session` is a cursor in a text together
with the checkpoints that were taken on it.
-/

namespace FiberLex

/-- Where a cursor was. -/
structure Checkpoint where
  /-- The number of bytes before the place. -/
  offset : Nat
  /-- The line, counted from one. -/
  line : Nat
  /-- The column, counted from one. -/
  column : Nat
deriving DecidableEq, Repr

/-- What a checkpoint keeps of a position. -/
def Position.checkpoint (p : Position) : Checkpoint := ⟨p.offset, p.line, p.column⟩

/-- The position that a checkpoint stands for in a text, if there is one. -/
def Checkpoint.position? (text : String) (c : Checkpoint) : Option Position :=
  (text.pos? ⟨c.offset⟩).map fun place =>
    { rest := (text.sliceFrom place).copy.toList
      offset := c.offset
      line := c.line
      column := c.column }

namespace Cursor

/-- A cursor in a text, and the checkpoints taken on it. -/
structure Session (text : String) where
  /-- The cursor. -/
  cursor : Cursor
  /-- The checkpoints, in the order in which they were taken. -/
  checkpoints : List Checkpoint := []
deriving DecidableEq, Repr

/-- A call of a cursor. -/
inductive Call where
  /-- Moves past the character under the cursor. -/
  | advance
  /-- Appends the character under the cursor to the capture buffer. -/
  | capture
  /-- Empties the capture buffer. -/
  | clearCapture
  /-- Moves past white space. -/
  | skipBlanks
  /-- Takes a checkpoint. -/
  | checkpoint
  /-- Goes back to a checkpoint, given by its number in the order in which they were taken. -/
  | restore (index : Nat)
deriving DecidableEq, Repr

namespace Session

variable {text : String}

/-- A session at the beginning of a text. A cursor that is given no tab width has the width four. -/
def start (text : String) (tabWidth : Nat) : Session text :=
  { cursor := (ofString text).withTabWidth tabWidth }

/-- Calls the cursor. Nothing comes of it if the cursor goes back to a checkpoint that stands for no
position in the text; a number that no checkpoint has changes nothing. -/
def call (s : Session text) : Call → Option (Session text)
  | .advance => some { s with cursor := s.cursor.advance }
  | .capture => some { s with cursor := s.cursor.capture }
  | .clearCapture => some { s with cursor := s.cursor.clearCapture }
  | .skipBlanks => some { s with cursor := s.cursor.skipBlanks }
  | .checkpoint => some { s with checkpoints := s.checkpoints ++ [s.cursor.position.checkpoint] }
  | .restore index =>
    match s.checkpoints[index]? with
    | none => some s
    | some c => (c.position? text).map fun p => { s with cursor := s.cursor.restore p }

/-- Calls the cursor several times, one call after the other. -/
def run (s : Session text) (calls : List Call) : Option (Session text) := calls.foldlM call s

end Session

end Cursor

end FiberLex
