import FiberLex.CodeSet

/-!
# Named classes

The classes of ASCII characters that a pattern can name: inside brackets as `[:name:]`, and the
digits, spaces and word characters also by a letter after a backslash.
-/

namespace FiberLex.CharClass

/-- The decimal digits. -/
def digit : List CodeRange := [⟨0x30, 0x39⟩]

/-- The characters of `\s`: the named class `space` without the vertical tab. -/
def space : List CodeRange := [⟨0x09, 0x0A⟩, ⟨0x0C, 0x0D⟩, ⟨0x20, 0x20⟩]

/-- Letters, digits and the underscore. -/
def word : List CodeRange := [⟨0x30, 0x39⟩, ⟨0x41, 0x5A⟩, ⟨0x5F, 0x5F⟩, ⟨0x61, 0x7A⟩]

/-- The classes usable as `[:name:]`, by name. -/
def named : List (String × List CodeRange) := [
  ("alnum", [⟨0x30, 0x39⟩, ⟨0x41, 0x5A⟩, ⟨0x61, 0x7A⟩]),
  ("alpha", [⟨0x41, 0x5A⟩, ⟨0x61, 0x7A⟩]),
  ("ascii", [⟨0x00, 0x7F⟩]),
  ("blank", [⟨0x09, 0x09⟩, ⟨0x20, 0x20⟩]),
  ("cntrl", [⟨0x00, 0x1F⟩, ⟨0x7F, 0x7F⟩]),
  ("digit", digit),
  ("graph", [⟨0x21, 0x7E⟩]),
  ("lower", [⟨0x61, 0x7A⟩]),
  ("print", [⟨0x20, 0x7E⟩]),
  ("punct", [⟨0x21, 0x2F⟩, ⟨0x3A, 0x40⟩, ⟨0x5B, 0x60⟩, ⟨0x7B, 0x7E⟩]),
  ("space", [⟨0x09, 0x0D⟩, ⟨0x20, 0x20⟩]),
  ("upper", [⟨0x41, 0x5A⟩]),
  ("word", word),
  ("xdigit", [⟨0x30, 0x39⟩, ⟨0x41, 0x46⟩, ⟨0x61, 0x66⟩])]

/-- The names usable in `[:name:]`. -/
def names : List String := named.map (·.1)

/-- The class with a name. -/
def ofName? (name : String) : Option (List CodeRange) := named.lookup name

/-- The class named by a letter after a backslash, and whether it is negated. -/
def shorthand? : Char → Option (List CodeRange × Bool)
  | 'd' => some (digit, false)
  | 'D' => some (digit, true)
  | 's' => some (space, false)
  | 'S' => some (space, true)
  | 'w' => some (word, false)
  | 'W' => some (word, true)
  | _ => none

end FiberLex.CharClass
