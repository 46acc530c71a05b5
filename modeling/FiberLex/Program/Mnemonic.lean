/-!
# Mnemonics

The words that begin an instruction in the text form of a program. Upper and lower case ASCII
letters are not told apart when a word is read.
-/

namespace FiberLex

/-- The kind of an instruction in the text form of a program. -/
inductive Mnemonic where
  | any
  | char
  | jump
  | accept
  | outside
  | outsideCategory
  | regex
  | save
  | inside
  | switch
  | insideCategory
deriving DecidableEq, Repr

namespace Mnemonic

/-- All mnemonics in the alphabetical order of their names. -/
def all : List Mnemonic :=
  [any, char, jump, accept, outside, outsideCategory, regex, save, inside, switch, insideCategory]

/-- The word for a mnemonic. -/
def name : Mnemonic → String
  | any => "any"
  | char => "char"
  | jump => "jmp"
  | accept => "match"
  | outside => "nset"
  | outsideCategory => "nucode"
  | regex => "regex"
  | save => "save"
  | inside => "set"
  | switch => "switch"
  | insideCategory => "ucode"

/-- The words for all mnemonics. -/
def names : List String := all.map name

/-- The mnemonic with a word, in any mixture of cases. -/
def ofName? (word : String) : Option Mnemonic :=
  all.find? fun m => m.name.toList == word.toList.map Char.toLower

end Mnemonic

end FiberLex
