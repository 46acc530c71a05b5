import FiberLex.Category
import FiberLex.CharClass
import FiberLex.Program.Mnemonic
import FiberLex.Text.Quoted

/-!
# Errors

What can be wrong with a pattern, a program text, an automaton or a program. Errors are values that
name their cause; the wording is in the functions `message`, one for each type.
-/

namespace FiberLex

open Text

/-! ## Malformed text -/

/-- Why a pattern or a program text cannot be read. -/
inductive SyntaxIssue where
  /-- A cause given in words. -/
  | remark (text : String)
  /-- Something else stands where one of a few things is expected. -/
  | unexpected (found : Option Char) (expected : List String)
  /-- A closing parenthesis without an opening one. -/
  | unmatchedParenthesis
  /-- A repetition sign with nothing in front of it. -/
  | nothingToRepeat
  /-- Bounds of a repetition out of order. -/
  | invalidBounds (min max : Nat)
  /-- A bound of a repetition of 2^64 or more. -/
  | countTooLarge
  /-- A backslash at the end of the text. -/
  | unterminatedEscape
  /-- An escape that names a number beyond the largest code point. -/
  | codePointTooLarge (cp : Nat)
  /-- A class with several characters as the end of a range. -/
  | shorthandEndsRange
  /-- A range in a bracket class with its ends out of order. -/
  | invalidClassRange (low high : Nat)
  /-- A pattern names a category that there is not. -/
  | unknownCategoryName (name : String)
  /-- An instruction names a category that there is not. -/
  | unknownCategory
  /-- A pattern names a class that there is not. -/
  | unknownClass (name : String)
  /-- A word that begins no instruction. -/
  | unknownInstruction (name : String)
  /-- An integer that does not fit 64 bits. -/
  | integerOutOfRange
  /-- A capture slot below zero. -/
  | negativeSlot
  /-- A rule id that does not fit 32 bits. -/
  | ruleIdOutOfRange
  /-- A letter after a backslash that means nothing in a character literal. -/
  | unknownEscape (letter : Char)
  /-- A character literal that breaks off. -/
  | unterminatedCharacter
  /-- A range in an instruction with its ends out of order. -/
  | rangeOutOfOrder
deriving DecidableEq, Repr

namespace SyntaxIssue

/-- The cause in words. -/
def detail : SyntaxIssue → String
  | remark text => text
  | unexpected (some c) _ => "unexpected " ++ quotedChar c
  | unexpected none _ => "unexpected end of input"
  | unmatchedParenthesis => "unmatched ')'"
  | nothingToRepeat => "nothing to repeat"
  | invalidBounds min max =>
    "invalid repetition bounds " ++
      String.ofList ('{' :: (Numeral.decimal min ++ ',' :: (Numeral.decimal max ++ ['}'])))
  | countTooLarge => "repetition count too large"
  | unterminatedEscape => "unterminated escape"
  | codePointTooLarge cp => "code point " ++ Numeral.hex0x cp ++ " out of range"
  | shorthandEndsRange => "class shorthand cannot end a range"
  | invalidClassRange low high =>
    "invalid class range " ++ Numeral.hex0x low ++ "-" ++ Numeral.hex0x high
  | unknownCategoryName name => "unknown unicode category " ++ quotedString name
  | unknownCategory => "unknown unicode category"
  | unknownClass name => "unknown character class " ++ quotedString name
  | unknownInstruction name => "unknown instruction " ++ name
  | integerOutOfRange => "integer out of range"
  | negativeSlot => "negative save slot"
  | ruleIdOutOfRange => "rule id out of range"
  | unknownEscape letter => "unknown escape \\" ++ String.ofList [letter]
  | unterminatedCharacter => "unterminated character literal"
  | rangeOutOfOrder => "range out of order"

/-- What could have stood there instead, where that is known. -/
def expected : SyntaxIssue → List String
  | unexpected _ expected => expected
  | unknownCategoryName _ => Category.names
  | unknownCategory => Category.names
  | unknownClass _ => CharClass.names
  | unknownInstruction _ => Mnemonic.names
  | _ => []

end SyntaxIssue

/-- A malformed text: what is wrong, and where. -/
structure SyntaxError where
  /-- What is wrong. -/
  issue : SyntaxIssue
  /-- The line, counted from one. -/
  line : Nat
  /-- The column, counted from one. -/
  column : Nat
  /-- The number of bytes before the place. -/
  offset : Nat
deriving DecidableEq, Repr

/-- The error as one line of text. -/
def SyntaxError.message (e : SyntaxError) : String :=
  let number := fun n => String.ofList (Numeral.decimal n)
  let place := " at line " ++ number e.line ++ ", column " ++ number e.column ++
    ", offset " ++ number e.offset
  let hint := match e.issue.expected with
    | [] => ""
    | names => " (expecting one of: " ++ ", ".intercalate names ++ ")"
  e.issue.detail ++ place ++ hint

/-! ## Automata that cannot be built -/

/-- Why an automaton or a program cannot be built. -/
inductive BuildError where
  /-- A repetition whose least count exceeds its greatest. -/
  | invalidBounds (min max : Nat)
  /-- An edge whose range overlaps that of another edge of the state. -/
  | overlappingEdge (range : CodeRange)
  /-- A range that begins in one letter case and does not end in it. -/
  | mixedCase (range : CodeRange)
  /-- States that only forward to each other in a circle. -/
  | neutralCycle
  /-- An accepting state without a symbol. -/
  | missingSymbol (state : Nat)
  /-- A symbol that is not in the caller's table. -/
  | unknownSymbol (symbol : Int)
  /-- A lazy repetition where only languages count. -/
  | lazyRepetition
  /-- A rule with a negative id. -/
  | negativeSymbol (symbol : Int)
deriving DecidableEq, Repr

/-- The error as one line of text. -/
def BuildError.message : BuildError → String
  | invalidBounds min max =>
    "invalid repetition bounds " ++
      String.ofList ('{' :: (Numeral.decimal min ++ ',' :: (Numeral.decimal max ++ ['}']))) ++
      ": minimum exceeds maximum"
  | overlappingEdge range =>
    "transition on " ++ Numeral.hex0x range.low ++ "..=" ++ Numeral.hex0x range.high ++
      " overlaps an existing transition"
  | mixedCase range =>
    "range " ++ Numeral.hex0x range.low ++ "..=" ++ Numeral.hex0x range.high ++
      " mixes cases and cannot be made case-insensitive"
  | neutralCycle => "cycle of neutral states"
  | missingSymbol state =>
    "accepting state q" ++ String.ofList (Numeral.decimal state) ++ " has no accept symbol"
  | unknownSymbol symbol =>
    "accept symbol " ++ String.ofList (Numeral.decimalInt symbol) ++ " is not in the symbol table"
  | lazyRepetition => "lazy quantifiers cannot be expressed as an automaton"
  | negativeSymbol symbol =>
    "rule id " ++ String.ofList (Numeral.decimalInt symbol) ++
      " is negative; negative ids are reserved"

/-! ## Programs that cannot run -/

/-- What is wrong with a program or the labels of its text. -/
inductive ProgramError where
  /-- An instruction that branches to an address outside the program. -/
  | invalidTarget (address target : Nat)
  /-- A label that is defined a second time. -/
  | duplicateLabel (name : String) (line : Nat)
  /-- A label that is used but not defined. -/
  | undefinedLabel (name : String) (line : Nat)
  /-- A program without instructions. -/
  | emptyProgram
deriving DecidableEq, Repr

/-- The error as one line of text. -/
def ProgramError.message : ProgramError → String
  | invalidTarget address target =>
    "instruction " ++ String.ofList (Numeral.label address) ++ " jumps to " ++
      String.ofList (Numeral.label target) ++ ", outside the program"
  | duplicateLabel name line =>
    "duplicate label " ++ name ++ " at line " ++ String.ofList (Numeral.decimal line)
  | undefinedLabel name line =>
    "undefined label " ++ name ++ " referenced at line " ++ String.ofList (Numeral.decimal line)
  | emptyProgram => "program is empty"

/-! ## Any of them -/

/-- Any error of building a lexer or reading a program text. -/
inductive LexerError where
  /-- A pattern or program text is malformed. -/
  | parse (e : SyntaxError)
  /-- An automaton or a program cannot be built. -/
  | build (e : BuildError)
  /-- A program cannot run. -/
  | program (e : ProgramError)
deriving DecidableEq, Repr

/-- The error as one line of text, beginning with its kind. -/
def LexerError.message : LexerError → String
  | parse e => "parse error: " ++ e.message
  | build e => "build error: " ++ e.message
  | program e => "program error: " ++ e.message

end FiberLex
