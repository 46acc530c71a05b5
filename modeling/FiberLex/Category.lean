import FiberLex.Category.Listing
import FiberLex.Category.Partition

/-!
# General categories

The thirty general categories of code points, their two-letter names and their ranges. Categories
are numbered in the order in which they are declared; `Category.ofCodePoint` and `Category.ranges`
are two views of the one partition made from the listings. For ASCII characters the first view is
a table, made once.
-/

namespace FiberLex

/-- A general category of code points. -/
inductive Category where
  | uppercaseLetter
  | lowercaseLetter
  | titlecaseLetter
  | modifierLetter
  | otherLetter
  | nonspacingMark
  | spacingMark
  | enclosingMark
  | decimalNumber
  | letterNumber
  | otherNumber
  | spaceSeparator
  | lineSeparator
  | paragraphSeparator
  | control
  | format
  | surrogate
  | privateUse
  | connectorPunctuation
  | dashPunctuation
  | openPunctuation
  | closePunctuation
  | initialPunctuation
  | finalPunctuation
  | otherPunctuation
  | mathSymbol
  | currencySymbol
  | modifierSymbol
  | otherSymbol
  | notAssigned
deriving DecidableEq, Repr, Inhabited

namespace Category

/-- All categories in the order of their numbers. -/
def all : List Category := [
  uppercaseLetter, lowercaseLetter, titlecaseLetter, modifierLetter, otherLetter, nonspacingMark,
  spacingMark, enclosingMark, decimalNumber, letterNumber, otherNumber, spaceSeparator,
  lineSeparator, paragraphSeparator, control, format, surrogate, privateUse, connectorPunctuation,
  dashPunctuation, openPunctuation, closePunctuation, initialPunctuation, finalPunctuation,
  otherPunctuation, mathSymbol, currencySymbol, modifierSymbol, otherSymbol, notAssigned]

/-- The two-letter names in the order of the numbers. -/
def names : List String := [
  "Lu", "Ll", "Lt", "Lm", "Lo", "Mn", "Mc", "Me", "Nd", "Nl", "No", "Zs", "Zl", "Zp", "Cc", "Cf",
  "Cs", "Co", "Pc", "Pd", "Ps", "Pe", "Pi", "Pf", "Po", "Sm", "Sc", "Sk", "So", "Cn"]

/-- The number of a category. -/
def number (c : Category) : Nat := c.ctorIdx

/-- The two-letter name of a category. -/
def name (c : Category) : String := names.getD c.number "Cn"

/-- The category with a number. -/
def ofNumber? (n : Nat) : Option Category := all[n]?

/-- The category with a two-letter name. -/
def ofName? (name : String) : Option Category := (names.zip all).lookup name

/-- The listings as sets of code points. -/
def listings : List CodeSet := Listing.all.map fun ends => (CodeSet.ofPacked ends).toArray

/-- The category of a code point, found by looking through the parts in order. -/
def search (parts : Partition) (cp : Nat) : Category := all.getD (parts.indexOf cp) notAssigned

/-- The code points divided into categories. -/
structure Tables where
  /-- The code points of each category, in the order of the numbers. -/
  parts : Partition
  /-- The category of each ASCII character. -/
  ascii : Vector Category 128

namespace Tables

/-- The tables made from the listings of all categories but the last. -/
def ofListings (listings : List CodeSet) : Tables :=
  let parts := Partition.ofListings listings
  { parts, ascii := Vector.ofFn fun cp => search parts cp }

/-- The code points of a category. -/
def ranges (t : Tables) (c : Category) : CodeSet := t.parts.getD c.number #[]

/-- The category of a code point: ASCII characters are looked up, others searched for. -/
def ofCodePoint (t : Tables) (cp : Nat) : Category :=
  if h : cp < 128 then t.ascii[cp] else search t.parts cp

end Tables

/-- The tables of the listings. -/
def tables : Tables := .ofListings listings

/-- The code points of a category. -/
def ranges (c : Category) : CodeSet := tables.ranges c

/-- The category of a code point. -/
def ofCodePoint (cp : Nat) : Category := tables.ofCodePoint cp

/-- Whether a code point is of the category. -/
def contains (c : Category) (cp : Nat) : Bool := ofCodePoint cp == c

/-! ## Numbers and names -/

theorem ofNumber?_number (c : Category) : ofNumber? c.number = some c := by
  cases c <;> rfl

theorem ofName?_name (c : Category) : ofName? c.name = some c := by
  cases c <;> decide

end Category

end FiberLex
