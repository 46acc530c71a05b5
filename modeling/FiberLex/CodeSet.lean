import FiberLex.CodeRange

/-!
# Sets of code points

A set of code points is an array of ranges. It is *normal* when the ranges ascend and no two of them
overlap or touch; then each set of code points has exactly one array. `normalize` brings any array
into that form, and membership of a normal set is decided by binary search.
-/

namespace FiberLex

/-- A set of code points, given by ranges. -/
abbrev CodeSet := Array CodeRange

namespace CodeSet

/-! ## Normal form -/

/-- Joins the ranges of an ascending list that overlap or touch, `current` being the last one
seen. -/
def joinFrom (current : CodeRange) : List CodeRange → List CodeRange
  | [] => [current]
  | next :: rest =>
    if next.low ≤ current.high + 1 then
      joinFrom ⟨current.low, max current.high next.high⟩ rest
    else current :: joinFrom next rest

/-- Joins the ranges of an ascending list that overlap or touch. -/
def join : List CodeRange → List CodeRange
  | [] => []
  | first :: rest => joinFrom first rest

/-- The normal form of a list of ranges, as a list. -/
def normalList (rs : List CodeRange) : List CodeRange := join (rs.mergeSort CodeRange.atMost)

/-- The set of the ranges of a list, in normal form. -/
def ofRanges (rs : List CodeRange) : CodeSet := (normalList rs).toArray

/-- The normal form of a set. -/
def normalize (s : CodeSet) : CodeSet := ofRanges s.toList

/-- The union of two sets, in normal form. -/
def union (s t : CodeSet) : CodeSet := ofRanges (s.toList ++ t.toList)

/-! ## Gaps -/

/-- The gaps of an ascending list of ranges from `next` up to the largest code point. -/
def gapsFrom (next : Nat) : List CodeRange → List CodeRange
  | [] => [⟨next, maxCodePoint⟩]
  | r :: rest =>
    let gap := if next < r.low then [⟨next, r.low - 1⟩] else []
    if maxCodePoint ≤ r.high then gap else gap ++ gapsFrom (r.high + 1) rest

/-- The code points outside a normal set. -/
def complement (s : CodeSet) : CodeSet := (gapsFrom 0 s.toList).toArray

/-- The set itself, or its complement if `negated` holds. -/
def negateIf (negated : Bool) (s : CodeSet) : CodeSet := if negated then s.complement else s

/-! ## Tests -/

/-- Whether two ascending lists share a code point, by walking along both. -/
def overlap : List CodeRange → List CodeRange → Bool
  | [], _ => false
  | _, [] => false
  | r :: rs, t :: ts =>
    if r.meets t then true
    else if r.high < t.high then overlap rs (t :: ts)
    else overlap (r :: rs) ts
termination_by rs ts => rs.length + ts.length

/-- Whether two normal sets share a code point. -/
def intersects (s t : CodeSet) : Bool := overlap s.toList t.toList

/-- Binary search for a range that holds `cp`, among the indices from `start` up to `stop`. -/
def search (s : CodeSet) (cp start stop : Nat) : Bool :=
  if _ : start < stop then
    let middle := start + (stop - start) / 2
    match s[middle]? with
    | none => false
    | some r =>
      if r.high < cp then search s cp (middle + 1) stop
      else if cp < r.low then search s cp start middle
      else true
  else false
termination_by stop - start
decreasing_by all_goals omega

/-- Whether `cp` belongs to a normal set. -/
def contains (s : CodeSet) (cp : Nat) : Bool := search s cp 0 s.size

/-! ## Other forms -/

/-- The ranges of a flat list of ends `low, high, low, high, …`; an odd last entry is dropped. -/
def ofPacked : List Nat → List CodeRange
  | low :: high :: rest => ⟨low, high⟩ :: ofPacked rest
  | _ => []

/-- The ends of the ranges as a flat list `low, high, low, high, …`. -/
def packed (s : CodeSet) : List Nat := s.toList.flatMap fun r => [r.low, r.high]

/-- Ranges covering an ascending list of code points, `current` being the last one begun. -/
def runsFrom (current : CodeRange) : List Nat → List CodeRange
  | [] => [current]
  | cp :: rest =>
    if cp ≤ current.high + 1 then runsFrom ⟨current.low, max current.high cp⟩ rest
    else current :: runsFrom (CodeRange.single cp) rest

/-- The set of the code points of an ascending list. -/
def ofAscending : List Nat → CodeSet
  | [] => #[]
  | cp :: rest => (runsFrom (CodeRange.single cp) rest).toArray

end CodeSet

end FiberLex
