import FiberLex.SparseSet
import Mathlib.Data.Fintype.EquivFin
import Mathlib.Tactic.Common

/-!
# Sparse sets are sets

A sparse set is *consistent* when every place in use is the place that `sparse` gives for the number
in it. Clearing makes any sparse set consistent, whatever was left behind, and insertion keeps it
so. In a consistent set a number is new exactly if it fits and is no member, since the places cannot
run out before the numbers do.
-/

namespace FiberLex.SparseSet

variable {n : Nat} {s : SparseSet n}

/-- Every place in use is the place that `sparse` gives for the number in it. -/
structure Consistent (s : SparseSet n) : Prop where
  /-- No more places are in use than there are. -/
  size_le : s.size ≤ n
  /-- The number in a place in use leads back to the place. -/
  place : ∀ p, p < s.size → ∃ k, s.dense[p]? = some k ∧ s.sparse[k]? = some p

/-- A member is a number that stands in the place in use that `sparse` gives for it. -/
theorem contains_eq_true_iff {k : Nat} :
    s.contains k = true ↔ ∃ p, p < s.size ∧ s.sparse[k]? = some p ∧ s.dense[p]? = some k := by
  unfold contains
  cases h : s.sparse[k]? with
  | none => simp
  | some p => simp

@[simp] theorem contains_clear (s : SparseSet n) (k : Nat) : s.clear.contains k = false := by
  rw [Bool.eq_false_iff]
  intro h
  obtain ⟨p, hp, -⟩ := contains_eq_true_iff.mp h
  simp [clear] at hp

@[simp] theorem contains_empty (n k : Nat) : (empty n).contains k = false := by
  rw [Bool.eq_false_iff]
  intro h
  obtain ⟨p, hp, -⟩ := contains_eq_true_iff.mp h
  simp [empty] at hp

theorem consistent_clear (s : SparseSet n) : s.clear.Consistent :=
  ⟨by simp [clear], by simp [clear]⟩

theorem consistent_empty (n : Nat) : (empty n).Consistent :=
  ⟨by simp [empty], by simp [empty]⟩

namespace Consistent

/-- When all places are in use, every number that fits is a member: the numbers in the places are
distinct, and there are as many places as numbers. -/
theorem contains_of_full (hs : s.Consistent) (hfull : s.size = n) {k : Nat} (hk : k < n) :
    s.contains k = true := by
  have hplace : ∀ p : Fin n, ∃ j : Fin n, s.dense[p.val]? = some j.val ∧
      s.sparse[j.val]? = some p.val := by
    intro p
    obtain ⟨j, hd, hsp⟩ := hs.place p (by omega)
    have hj : j < n := by
      by_contra hn
      rw [Vector.getElem?_eq_none (by omega)] at hsp
      cases hsp
    exact ⟨⟨j, hj⟩, hd, hsp⟩
  choose f hd hsp using hplace
  have hinj : Function.Injective f := by
    intro p q hpq
    have h := hsp p
    rw [hpq, hsp q] at h
    exact Fin.ext (Option.some.inj h).symm
  obtain ⟨p, hp⟩ := Finite.surjective_of_injective hinj ⟨k, hk⟩
  refine contains_eq_true_iff.mpr ⟨p, by omega, ?_, ?_⟩
  · have h := hsp p
    rwa [hp] at h
  · have h := hd p
    rwa [hp] at h

/-- A number is new exactly if it fits and is no member. -/
theorem insert_fst_iff (hs : s.Consistent) {k : Nat} :
    (s.insert k).1 = true ↔ k < n ∧ s.contains k = false := by
  unfold insert
  by_cases hc : s.contains k = true
  · simp [hc]
  · have hsize : k < n → s.size < n := by
      intro hk
      have hle := hs.size_le
      by_contra hn
      exact hc (hs.contains_of_full (by omega) hk)
    by_cases hk : k < n
    · simp [hc, hk, hsize hk]
    · simp [hc, hk]

/-- A new member joins the others. -/
theorem contains_insert (hs : s.Consistent) {k : Nat} (hk : (s.insert k).1 = true) (j : Nat) :
    (s.insert k).2.contains j = true ↔ j = k ∨ s.contains j = true := by
  obtain ⟨hlt, hc⟩ := hs.insert_fst_iff.mp hk
  have hsize := (size_insert_of_new hk).2
  have hins : (s.insert k).2 =
      ⟨s.size + 1, s.dense.set s.size k hsize, s.sparse.set k s.size hlt⟩ := by
    simp [insert, hc, hlt, hsize]
  rw [hins, contains_eq_true_iff]
  by_cases hj : j = k
  · subst hj
    refine iff_of_true ⟨s.size, by simp, ?_, ?_⟩ (Or.inl rfl)
    · simp [Vector.getElem?_eq_getElem hlt]
    · simp [Vector.getElem?_eq_getElem hsize]
  · have hsp : (s.sparse.set k s.size hlt)[j]? = s.sparse[j]? :=
      Vector.getElem?_set_ne _ (Ne.symm hj)
    rw [hsp, contains_eq_true_iff]
    constructor
    · rintro ⟨p, hp, h1, h2⟩
      have hne : s.size ≠ p := by
        intro he
        subst he
        rw [Vector.getElem?_set_self] at h2
        exact hj (Option.some.inj h2).symm
      rw [Vector.getElem?_set_ne _ hne] at h2
      simp only at hp
      exact Or.inr ⟨p, by omega, h1, h2⟩
    · rintro (h | ⟨p, hp, h1, h2⟩)
      · exact absurd h hj
      · refine ⟨p, by simp only; omega, h1, ?_⟩
        rw [Vector.getElem?_set_ne _ (by omega)]
        exact h2

/-- Insertion keeps a set consistent. -/
theorem insert (hs : s.Consistent) (k : Nat) : (s.insert k).2.Consistent := by
  by_cases hk : (s.insert k).1 = true
  · obtain ⟨hlt, hc⟩ := hs.insert_fst_iff.mp hk
    have hsize := (size_insert_of_new hk).2
    have hins : (s.insert k).2 =
        ⟨s.size + 1, s.dense.set s.size k hsize, s.sparse.set k s.size hlt⟩ := by
      simp [SparseSet.insert, hc, hlt, hsize]
    rw [hins]
    refine ⟨hsize, fun p hp => ?_⟩
    simp only at hp ⊢
    by_cases hps : p = s.size
    · subst hps
      exact ⟨k, by simp [Vector.getElem?_eq_getElem hsize],
        by simp [Vector.getElem?_eq_getElem hlt]⟩
    · obtain ⟨j, h1, h2⟩ := hs.place p (by omega)
      have hjk : k ≠ j := by
        rintro rfl
        exact Bool.eq_false_iff.mp hc (contains_eq_true_iff.mpr ⟨p, by omega, h2, h1⟩)
      refine ⟨j, ?_, ?_⟩
      · rw [Vector.getElem?_set_ne _ (by omega)]
        exact h1
      · rw [Vector.getElem?_set_ne _ hjk]
        exact h2
  · rw [insert_of_not_new (Bool.eq_false_iff.mpr hk)]
    exact hs

end Consistent

end FiberLex.SparseSet
