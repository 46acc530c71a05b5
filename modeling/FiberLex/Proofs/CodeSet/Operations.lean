import FiberLex.Proofs.Category
import FiberLex.Proofs.CodeSet.Canonical

/-!
# Complements, intersections and differences

The complement of a normal set is the normal form of the other code points, so the complement of the
complement is the set again (`complement_complement`): both are normal forms of the same code points.
The walk along two ascending lists drops, of two ranges that do not meet, the one that ends first,
and every range that it has not seen yet of the other list begins behind that (`overlap_iff`). A
difference is computed in numbers that have a least and a greatest one, and it never leaves them
(`minusUpTo?_eq_some`).
-/

namespace FiberLex

namespace CodeRange

/-- The number before `n`, unless `n` is the least one. -/
def predecessor? (n : Nat) : Option Nat := if n = 0 then none else some (n - 1)

/-- The number after `n`, unless it exceeds the greatest one. -/
def successor? (top n : Nat) : Option Nat := if n < top then some (n + 1) else none

/-- The part of `r` outside `s`, in numbers up to `top`; there is none if a number beyond these, or
below zero, comes up on the way. -/
def minusUpTo? (top : Nat) (r s : CodeRange) : Option (List CodeRange) :=
  if r.meets s then
    (if r.low < s.low then (predecessor? s.low).map ([⟨r.low, ·⟩]) else some []).bind fun front =>
      (if s.high < r.high then (successor? top s.high).map ([⟨·, r.high⟩]) else some []).map
        (front ++ ·)
  else some [r]

/-- No number beyond those of the range that is cut, and none below zero, comes up in a
difference. -/
theorem minusUpTo?_eq_some {top : Nat} {r : CodeRange} (s : CodeRange) (h : r.high ≤ top) :
    r.minusUpTo? top s = some (r.minus s) := by
  have hfront : (if r.low < s.low then (predecessor? s.low).map ([⟨r.low, ·⟩]) else some []) =
      some (if r.low < s.low then [(⟨r.low, s.low - 1⟩ : CodeRange)] else []) := by
    by_cases hlow : r.low < s.low
    · have hne : s.low ≠ 0 := by omega
      simp [hlow, predecessor?, hne]
    · simp [hlow]
  have hback : (if s.high < r.high then (successor? top s.high).map ([⟨·, r.high⟩]) else some []) =
      some (if s.high < r.high then [(⟨s.high + 1, r.high⟩ : CodeRange)] else []) := by
    by_cases hhigh : s.high < r.high
    · have hlt : s.high < top := by omega
      simp [hhigh, successor?, hlt]
    · simp [hhigh]
  unfold minusUpTo? minus
  by_cases hmeets : r.meets s
  · rw [if_pos hmeets, if_pos hmeets, hfront, hback]
    rfl
  · rw [if_neg hmeets, if_neg hmeets]

theorem length_minus_le (r s : CodeRange) : (r.minus s).length ≤ 2 := by
  unfold minus
  by_cases hmeets : r.meets s
  · rw [if_pos hmeets, List.length_append]
    have hfront : (if r.low < s.low then [(⟨r.low, s.low - 1⟩ : CodeRange)] else []).length ≤ 1 := by
      split <;> simp
    have hback : (if s.high < r.high then [(⟨s.high + 1, r.high⟩ : CodeRange)] else []).length ≤ 1 := by
      split <;> simp
    omega
  · rw [if_neg hmeets]
    simp

end CodeRange

namespace CodeSet

variable {s t : CodeSet} {rs ts : List CodeRange}

/-! ## Complements -/

theorem Separated.isNormalForm (h : Separated s.toList) : IsNormalForm s (Covers s.toList) :=
  ⟨h, fun _ => contains_iff_covers h.ordered⟩

theorem Normal.separated (h : s.Normal) : Separated s.toList :=
  ⟨fun r hr => (h.within r hr).1, h.apart⟩

theorem Normal.complement (h : s.Normal) : s.complement.Normal :=
  .of_separated (separated_complement h.ordered) (within_negateIf h.ordered h.within true)

/-- The complement of a normal set holds the other code points, and nothing else. -/
theorem covers_complement_iff (h : s.Normal) (cp : Nat) :
    Covers s.complement.toList cp ↔ cp ≤ maxCodePoint ∧ ¬Covers s.toList cp := by
  constructor
  · intro hcp
    have hle : cp ≤ maxCodePoint := le_of_covers h.complement.within hcp
    exact ⟨hle, (covers_complement h.ordered hle).mp hcp⟩
  · rintro ⟨hle, hcp⟩
    exact (covers_complement h.ordered hle).mpr hcp

theorem complement_complement (h : s.Normal) : s.complement.complement = s := by
  have htwice : IsNormalForm s.complement.complement (Covers s.complement.complement.toList) :=
    h.complement.complement.separated.isNormalForm
  refine (htwice.congr fun cp => ?_).unique h.separated.isNormalForm
  rw [covers_complement_iff h.complement, covers_complement_iff h, not_and, not_not]
  constructor
  · rintro ⟨hle, hcp⟩
    exact hcp hle
  · intro hcp
    exact ⟨le_of_covers h.within hcp, fun _ => hcp⟩

/-! ## Intersections -/

/-- Of two ranges that do not meet, the code points of the second list are behind the first range if
that ends first. -/
theorem Separated.lt_of_not_meets {r u : CodeRange} (hr : r.low ≤ r.high)
    (hu : Separated (u :: ts)) (hmeets : ¬r.meets u = true) (hend : r.high ≤ u.high) {cp : Nat}
    (hcp : Covers (u :: ts) cp) : r.high < cp := by
  have hlow := hu.low_le_of_covers hcp
  rw [CodeRange.meets_iff] at hmeets
  omega

/-- Walking along two lists of separated ranges finds a code point that they share, if there is
one. -/
theorem overlap_iff (hr : Separated rs) (ht : Separated ts) :
    overlap rs ts = true ↔ ∃ cp, Covers rs cp ∧ Covers ts cp := by
  fun_induction overlap rs ts with
  | case1 ts => simp
  | case2 rs => simp
  | case3 r rs u ts hmeets =>
    rw [CodeRange.meets_iff] at hmeets
    have hrle := hr.low_le_high
    have hule := ht.low_le_high
    refine iff_of_true rfl ⟨max r.low u.low, ?_, ?_⟩
    · exact covers_cons.mpr (Or.inl (by omega))
    · exact covers_cons.mpr (Or.inl (by omega))
  | case4 r rs u ts hmeets hend ih =>
    rw [ih hr.tail ht]
    refine exists_congr fun cp => and_congr_left fun hcp => ?_
    rw [hr.covers_tail_iff]
    exact and_iff_left (ht.lt_of_not_meets hr.low_le_high hmeets (Nat.le_of_lt hend) hcp)
  | case5 r rs u ts hmeets hend ih =>
    rw [ih hr ht.tail]
    refine exists_congr fun cp => and_congr_right fun hcp => ?_
    have hmeets' : ¬u.meets r = true := by
      rw [CodeRange.meets_iff] at hmeets ⊢
      omega
    rw [ht.covers_tail_iff]
    exact and_iff_left (hr.lt_of_not_meets ht.low_le_high hmeets' (Nat.le_of_not_lt hend) hcp)

/-! ## All three -/

/-- **Complement, intersection and difference are exact.** The complement of a normal set is normal
and holds the code points that the set does not, and its complement is the set. The walk along two
sets of separated ranges finds whether they share a code point. The difference of two ranges is made
of at most two ranges, not empty and in ascending order, with a gap between them; it holds what the
first holds and the second does not, and computing it takes no number below zero and none beyond the
range that is cut. -/
theorem complement_intersects_minus_exact {u : CodeSet} {x y : CodeRange} {top : Nat}
    (hs : s.Normal) (ht : Separated t.toList) (hu : Separated u.toList) (hx : x.low ≤ x.high)
    (hy : y.low ≤ y.high) (htop : x.high ≤ top) :
    (s.complement.Normal ∧
      (∀ cp, Covers s.complement.toList cp ↔ cp ≤ maxCodePoint ∧ ¬Covers s.toList cp) ∧
      s.complement.complement = s) ∧
    (t.intersects u = true ↔ ∃ cp, Covers t.toList cp ∧ Covers u.toList cp) ∧
    (x.minus y).length ≤ 2 ∧ Separated (x.minus y) ∧
      (∀ cp, Covers (x.minus y) cp ↔ x.contains cp = true ∧ ¬y.contains cp = true) ∧
      x.minusUpTo? top y = some (x.minus y) := by
  refine ⟨⟨hs.complement, covers_complement_iff hs, complement_complement hs⟩, ?_, ?_⟩
  · exact overlap_iff ht hu
  · exact ⟨CodeRange.length_minus_le x y, (separated_minus hx hy).1, fun cp => covers_minus,
      CodeRange.minusUpTo?_eq_some y htop⟩

/-- A set up to the largest code point, two sets whose ranges touch without sharing anything until
their last ones, and a range of all numbers of 32 bits cut at its ends and in the middle. -/
theorem complement_intersects_minus_exact_ends :
    let s : CodeSet := #[⟨0, 9⟩, ⟨20, 29⟩, ⟨100, maxCodePoint⟩]
    let t : CodeSet := #[⟨0, 5⟩, ⟨10, 20⟩, ⟨0xFFFFFFFF, 0xFFFFFFFF⟩]
    let u : CodeSet := #[⟨6, 9⟩, ⟨21, 0xFFFFFFFF⟩]
    let x : CodeRange := ⟨0, 0xFFFFFFFF⟩
    s.Normal ∧ s.complement = #[⟨10, 19⟩, ⟨30, 99⟩] ∧ s.complement.complement = s ∧
      Separated t.toList ∧ Separated u.toList ∧ t.intersects u = true ∧
      x.minusUpTo? 0xFFFFFFFF ⟨0, 4⟩ = some [⟨5, 0xFFFFFFFF⟩] ∧
      x.minusUpTo? 0xFFFFFFFF ⟨7, 0xFFFFFFFF⟩ = some [⟨0, 6⟩] ∧
      x.minusUpTo? 0xFFFFFFFF ⟨3, 4⟩ = some [⟨0, 2⟩, ⟨5, 0xFFFFFFFF⟩] := by
  intro s t u x
  have hs : s.Normal := ⟨by decide, by decide⟩
  have ht : Separated t.toList := ⟨by simp [Proper, t], by decide⟩
  have hu : Separated u.toList := ⟨by simp [Proper, u], by decide⟩
  have hexact := fun (y : CodeRange) (hy : y.low ≤ y.high) =>
    complement_intersects_minus_exact hs ht hu (show x.low ≤ x.high by decide) hy
      (Nat.le_refl x.high)
  obtain ⟨⟨-, -, htwice⟩, hmeet, -, -, -, hfront⟩ := hexact ⟨0, 4⟩ (by decide)
  obtain ⟨-, -, -, -, -, hback⟩ := hexact ⟨7, 0xFFFFFFFF⟩ (by decide)
  obtain ⟨-, -, -, -, -, hmiddle⟩ := hexact ⟨3, 4⟩ (by decide)
  refine ⟨hs, by decide, htwice, ht, hu, ?_, hfront, hback, hmiddle⟩
  exact hmeet.mpr ⟨0xFFFFFFFF, by decide, by decide⟩

end CodeSet

end FiberLex
