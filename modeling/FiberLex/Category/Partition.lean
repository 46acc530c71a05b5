import FiberLex.CodeSet

/-!
# Partitions of the code points

From a sequence of listings, which may be in any order and overlap, a partition is made: each code
point belongs to the first listing that has it, and those in no listing make up one more part, the
last. The parts are sets in normal form, so membership is a binary search.
-/

namespace FiberLex

/-- Disjoint sets that cover the code points; a part is known by its index. -/
abbrev Partition := List CodeSet

namespace Partition

/-- What is left of the ranges of a listing once the code points of `taken`, a normal set, are
removed. The ranges of `taken` ascend, so those from the first on that begins behind a range take
nothing away from it. -/
def untaken (taken : CodeSet) (listing : CodeSet) : List CodeRange :=
  listing.normalize.toList.flatMap fun r =>
    (taken.toList.takeWhile (·.low ≤ r.high)).foldl CodeRange.minusAll [r]

/-- The parts of the listings, without the code points of `taken`, and last what is in none. -/
def divide (taken : CodeSet) : List CodeSet → Partition
  | [] => [taken.complement]
  | listing :: rest =>
    let own := untaken taken listing
    own.toArray :: divide (taken.union own.toArray) rest

/-- The partition in which the first listing with a code point has it. -/
def ofListings (listings : List CodeSet) : Partition := divide #[] listings

/-- The index of the part of `cp`; a number that is no code point counts to the last part. -/
def indexOf (parts : Partition) (cp : Nat) : Nat :=
  (parts.findIdx? (·.contains cp)).getD (parts.length - 1)

end Partition

end FiberLex
