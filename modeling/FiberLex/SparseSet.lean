/-!
# Sparse sets

A set of numbers below a fixed capacity with constant-time membership, insertion and clearing. The
members stand in `dense` in the order of their insertion, and `sparse` says where: `k` is a member
if the place that `sparse` gives for it is in use and holds `k`. Clearing only forgets how many
places are in use, so stale entries remain behind and must never be mistaken for members.
-/

namespace FiberLex

/-- A set of numbers below `n`. -/
structure SparseSet (n : Nat) where
  /-- How many members there are. -/
  size : Nat
  /-- The members in the order of insertion; only the first `size` places count. -/
  dense : Vector Nat n
  /-- The place of each member in `dense`; what it holds for other numbers is arbitrary. -/
  sparse : Vector Nat n

namespace SparseSet

variable {n : Nat}

/-- The set without members. -/
def empty (n : Nat) : SparseSet n := ⟨0, Vector.replicate n 0, Vector.replicate n 0⟩

/-- Whether `k` is a member. -/
def contains (s : SparseSet n) (k : Nat) : Bool :=
  match s.sparse[k]? with
  | none => false
  | some place => place < s.size && s.dense[place]? == some k

/-- Inserts `k`, and says whether it is new. A number that does not fit is left out. -/
def insert (s : SparseSet n) (k : Nat) : Bool × SparseSet n :=
  if s.contains k then (false, s)
  else if h : k < n ∧ s.size < n then
    (true, ⟨s.size + 1, s.dense.set s.size k h.2, s.sparse.set k s.size h.1⟩)
  else (false, s)

/-- Removes all members. -/
def clear (s : SparseSet n) : SparseSet n := { s with size := 0 }

/-- The members in the order of insertion. -/
def toList (s : SparseSet n) : List Nat := s.dense.toList.take s.size

/-! ## Insertion -/

/-- A new member takes one of the places that were left. -/
theorem size_insert_of_new {s : SparseSet n} {k : Nat} (h : (s.insert k).1 = true) :
    (s.insert k).2.size = s.size + 1 ∧ s.size < n := by
  by_cases hc : s.contains k
  · simp [insert, hc] at h
  · by_cases hk : k < n ∧ s.size < n
    · simp [insert, hc, hk]
    · simp [insert, hc, hk] at h

/-- Without a new member the set stays as it is. -/
theorem insert_of_not_new {s : SparseSet n} {k : Nat} (h : (s.insert k).1 = false) :
    (s.insert k).2 = s := by
  by_cases hc : s.contains k
  · simp [insert, hc]
  · by_cases hk : k < n ∧ s.size < n
    · simp [insert, hc, hk] at h
    · simp [insert, hc, hk]

end SparseSet

end FiberLex
