import FiberLex.Proofs.SparseSet

/-!
# Histories of sparse sets

A set is used by calls one after the other, which insert a number, ask for one or clear the set.
Clearing leaves the entries of both arrays behind, so the arrays depend on the whole history, but
what the set answers depends on the calls since it was cleared last: its members are the numbers
inserted by these (`remembers_after`). A call keeps this up (`Remembers.call`), since a set that is
consistent before a call is so after it.
-/

namespace FiberLex.SparseSet

variable {n : Nat} {s : SparseSet n}

/-- A call of a set. Its argument fits. -/
inductive Call (n : Nat) where
  /-- Inserts a number. -/
  | insert (k : Fin n)
  /-- Asks whether a number is a member. -/
  | contains (k : Fin n)
  /-- Removes all members. -/
  | clear
deriving DecidableEq, Repr

/-- The set as a call leaves it. -/
def call (s : SparseSet n) : Call n → SparseSet n
  | .insert k => (s.insert k).2
  | .contains _ => s
  | .clear => s.clear

/-- A new set after some calls, one after the other. -/
def after (history : List (Call n)) : SparseSet n := history.foldl call (empty n)

/-- The calls since the set was cleared last, or all of them, the latest first. -/
def sinceClear (history : List (Call n)) : List (Call n) :=
  history.reverse.takeWhile fun c => c ≠ .clear

theorem after_append_singleton (history : List (Call n)) (c : Call n) :
    after (history ++ [c]) = (after history).call c := by
  simp [after]

theorem sinceClear_append_singleton (history : List (Call n)) (c : Call n) :
    sinceClear (history ++ [c]) = if c = .clear then [] else c :: sinceClear history := by
  unfold sinceClear
  rw [List.reverse_append, List.reverse_singleton, List.singleton_append, List.takeWhile_cons]
  by_cases hc : c = .clear
  · simp [hc]
  · simp [hc]

/-! ## One call -/

namespace Consistent

/-- A number that fits is a member after it was inserted, whether it is new or not. -/
theorem contains_insert_iff (hs : s.Consistent) (k j : Fin n) :
    (s.insert k).2.contains j = true ↔ j = k ∨ s.contains j = true := by
  by_cases hnew : (s.insert k).1 = true
  · rw [hs.contains_insert hnew, Fin.ext_iff]
  · have hmember : s.contains k = true := by
      by_contra hc
      exact hnew (hs.insert_fst_iff.mpr ⟨k.isLt, Bool.eq_false_iff.mpr hc⟩)
    rw [insert_of_not_new (Bool.eq_false_iff.mpr hnew)]
    constructor
    · exact Or.inr
    · rintro (rfl | hj)
      · exact hmember
      · exact hj

/-- While a number that fits is no member, there is a place left, and the number is put there. -/
theorem place_of_not_contains (hs : s.Consistent) {k : Fin n} (hk : s.contains k = false) :
    s.size < n ∧ (s.insert k).2.dense[s.size]? = some k.val := by
  have hnew : (s.insert k).1 = true := hs.insert_fst_iff.mpr ⟨k.isLt, hk⟩
  have hsize : s.size < n := (size_insert_of_new hnew).2
  have hdense : (s.insert k).2.dense = s.dense.set s.size k hsize := by
    simp [SparseSet.insert, hk, hsize]
  rw [hdense, Vector.getElem?_set_self]
  exact ⟨hsize, rfl⟩

end Consistent

/-- The set is consistent, and its members are the numbers that the calls insert. -/
structure Remembers (s : SparseSet n) (calls : List (Call n)) : Prop where
  /-- The places in use and the numbers in them belong together. -/
  consistent : s.Consistent
  /-- The members are the numbers inserted. -/
  contains_iff : ∀ k : Fin n, s.contains k = true ↔ .insert k ∈ calls

/-- A set that remembers some calls remembers one call more, or nothing after it was cleared. -/
theorem Remembers.call {calls : List (Call n)} (h : s.Remembers calls) (c : Call n) :
    (s.call c).Remembers (if c = .clear then [] else c :: calls) := by
  cases c with
  | insert k =>
    refine ⟨h.consistent.insert k, fun j => ?_⟩
    show (s.insert k).2.contains j = true ↔ _
    rw [h.consistent.contains_insert_iff, h.contains_iff]
    simp
  | contains k =>
    refine ⟨h.consistent, fun j => ?_⟩
    show s.contains j = true ↔ _
    rw [h.contains_iff]
    simp
  | clear =>
    refine ⟨consistent_clear s, fun j => ?_⟩
    show s.clear.contains j = true ↔ _
    simp

/-! ## All calls -/

/-- After any history the members are the numbers inserted since the set was cleared last. -/
theorem remembers_after (history : List (Call n)) :
    (after history).Remembers (sinceClear history) := by
  induction history using List.reverseRecOn with
  | nil =>
    refine ⟨consistent_empty n, fun k => ?_⟩
    show (empty n).contains k = true ↔ _
    simp [sinceClear]
  | append_singleton history c ih =>
    rw [after_append_singleton, sinceClear_append_singleton]
    exact ih.call c

/-- **Sparse sets are sets.** After any history, a number is a member exactly if it was inserted
since the set was cleared last, inserting it says that it is new exactly if it is no member, and then
it is put in a place that there is. -/
theorem contains_and_insert_after_iff (history : List (Call n)) (k : Fin n) :
    ((after history).contains k = true ↔ .insert k ∈ sinceClear history) ∧
      (((after history).insert k).1 = true ↔ .insert k ∉ sinceClear history) ∧
      (.insert k ∉ sinceClear history → (after history).size < n ∧
        ((after history).insert k).2.dense[(after history).size]? = some k.val) := by
  have h := remembers_after history
  have hnot : (after history).contains k = false ↔ .insert k ∉ sinceClear history := by
    rw [← h.contains_iff, Bool.not_eq_true]
  refine ⟨h.contains_iff k, ?_, fun hk => ?_⟩
  · rw [h.consistent.insert_fst_iff, hnot]
    exact and_iff_right k.isLt
  · exact h.consistent.place_of_not_contains (hnot.mpr hk)

/-- Entries that were left behind by two clearings are not taken for members. -/
example :
    let history : List (Call 4) :=
      [.insert 1, .insert 2, .clear, .insert 2, .clear, .insert 3, .contains 1, .insert 2]
    (List.finRange 4).map (fun k => (after history).contains k) = [false, false, true, true] := by
  decide

end FiberLex.SparseSet
