import FiberLex.Program.Basic
import FiberLex.Text.Blank

/-!
# Listings

The text of a program: one line for each instruction, with a label for its address. Characters are
quoted in such a way that the assembler reads them back unchanged; those that would not show are
written by their number.
-/

namespace FiberLex

open Text

namespace Listing

/-- The letter that stands for a code point after a backslash, if there is one. -/
def escapeLetter? : Nat → Option Char
  | 0x22 => some '"'
  | 0x5C => some '\\'
  | 0x00 => some '0'
  | 0x07 => some 'a'
  | 0x08 => some 'b'
  | 0x09 => some 't'
  | 0x0A => some 'n'
  | 0x0B => some 'v'
  | 0x0C => some 'f'
  | 0x0D => some 'r'
  | _ => none

/-- Whether a code point can stand for itself in quotes. -/
def showsItself (cp : Nat) : Bool :=
  isCharacter cp &&
    let c := Char.ofNat cp
    (!isControl c && !isBlank c) || c == ' '

/-- What stands in quotes for a code point. -/
def quotedBody (cp : Nat) : List Char :=
  match escapeLetter? cp with
  | some letter => ['\\', letter]
  | none =>
    if showsItself cp then [Char.ofNat cp]
    else if cp ≤ 0xFFFF then '\\' :: 'u' :: Numeral.padZeros 4 (Numeral.hexUpper cp)
    else '\\' :: 'U' :: Numeral.padZeros 8 (Numeral.hexUpper cp)

/-- A code point in quotes. -/
def quoted (cp : Nat) : List Char := '"' :: (quotedBody cp ++ ['"'])

/-- Texts with a comma and a blank between them. -/
def commaSeparated (texts : List (List Char)) : List Char := [',', ' '].intercalate texts

/-- A range of code points. -/
def range (r : CodeRange) : List Char :=
  if r.low = r.high then quoted r.low else quoted r.low ++ '.' :: '.' :: quoted r.high

/-- The ranges of a set. -/
def set (s : CodeSet) : List Char := commaSeparated (s.toList.map range)

/-- The labels of targets. -/
def labels (targets : List Nat) : List Char := commaSeparated (targets.map Numeral.label)

/-- One case of a switch. -/
def case (c : Case) : List Char :=
  "case ".toList ++ set c.set ++ ": ".toList ++ Numeral.label c.target

/-- The cases and defaults of a switch, with a comma and a blank between them. -/
def arms (cases : List Case) (otherwise : List Nat) : List (List Char) :=
  cases.map case ++ if otherwise.isEmpty then [] else ["default: ".toList ++ labels otherwise]

/-- A mnemonic and what follows it. -/
def operation (m : Mnemonic) (operand : List Char) : List Char := m.name.toList ++ ' ' :: operand

/-- An instruction. -/
def instr : Instr → List Char
  | .char cp => operation .char (quoted cp)
  | .inside s => operation .inside (set s)
  | .outside s => operation .outside (set s)
  | .insideCategory cat => operation .insideCategory (Numeral.decimal cat.number)
  | .outsideCategory cat => operation .outsideCategory (Numeral.decimal cat.number)
  | .any => Mnemonic.any.name.toList
  | .switch [] [] => Mnemonic.switch.name.toList
  | .switch cases otherwise => operation .switch (commaSeparated (arms cases otherwise))
  | .jump targets => operation .jump (labels targets)
  | .save slot => operation .save (Numeral.decimal slot)
  | .accept symbol => operation .accept (Numeral.decimalInt symbol)

/-- The lines of a program whose first instruction has the address `base`. -/
def linesFrom (base : Nat) : Program → List Char
  | [] => []
  | i :: rest =>
    Numeral.label base ++ ':' :: ' ' :: (instr i ++ '\n' :: linesFrom (base + 1) rest)

end Listing

/-- The text of a program. -/
def Program.listing (p : Program) : String := String.ofList (Listing.linesFrom 0 p)

end FiberLex
