import FiberLex.Proofs.CodeSet
import Mathlib.Data.List.Sort

/-!
# Normal forms are canonical

Normalising keeps the code points and leaves a gap between any two ranges (`normalForm_ofRanges`).
Two lists of ranges with gaps between them are the same list as soon as they hold the same code
points (`Separated.eq_of_covers_iff`): the first range begins at the least code point and ends in
front of the first one that is missing, and so on with what is left. So a set of code points has one
normal form only, whichever ranges it comes from. A union is normalised, and the ranges that cover an
ascending list of code points are joined from its single code points.
-/

namespace FiberLex

namespace CodeSet

/-- The set is made of separated ranges, and a binary search finds in it exactly the code points with
the property. -/
structure IsNormalForm (s : CodeSet) (P : Nat → Prop) : Prop where
  /-- The ranges are separated. -/
  separated : Separated s.toList
  /-- The code points found are those with the property. -/
  contains_iff : ∀ cp, s.contains cp = true ↔ P cp

/-! ## Separated ranges with the same code points -/

namespace Separated

variable {r t : CodeRange} {rs ts : List CodeRange} {cp : Nat}

theorem tail (h : Separated (r :: rs)) : Separated rs := (separated_cons.mp h).2.2

theorem low_le_high (h : Separated (r :: rs)) : r.low ≤ r.high := (separated_cons.mp h).1

/-- What the other ranges hold comes after the code point that follows the first range. -/
theorem lt_of_covers_tail (h : Separated (r :: rs)) (hcp : Covers rs cp) : r.high + 1 < cp := by
  obtain ⟨u, hu, hc⟩ := hcp
  have hgap := (separated_cons.mp h).2.1 u hu
  have hlow := (CodeRange.contains_iff.mp hc).1
  omega

theorem covers_low (h : Separated (r :: rs)) : Covers (r :: rs) r.low :=
  covers_cons.mpr (Or.inl ⟨Nat.le_refl _, h.low_le_high⟩)

theorem low_le_of_covers (h : Separated (r :: rs)) (hcp : Covers (r :: rs) cp) : r.low ≤ cp := by
  rcases covers_cons.mp hcp with ⟨hlow, -⟩ | htail
  · exact hlow
  · have hle := h.low_le_high
    have hlt := h.lt_of_covers_tail htail
    omega

theorem not_covers_succ_high (h : Separated (r :: rs)) : ¬Covers (r :: rs) (r.high + 1) := by
  intro hcp
  rcases covers_cons.mp hcp with ⟨-, hhigh⟩ | htail
  · omega
  · exact Nat.lt_irrefl _ (h.lt_of_covers_tail htail)

theorem covers_tail_iff (h : Separated (r :: rs)) :
    Covers rs cp ↔ Covers (r :: rs) cp ∧ r.high < cp := by
  constructor
  · intro htail
    have hlt := h.lt_of_covers_tail htail
    exact ⟨covers_cons.mpr (Or.inr htail), by omega⟩
  · rintro ⟨hcp, hlt⟩
    rcases covers_cons.mp hcp with ⟨-, hhigh⟩ | htail
    · omega
    · exact htail

/-- A first range whose code points all belong to other separated ranges ends no later than their
first range, if it begins no later than just behind that. -/
theorem high_le_high (h : Separated (r :: rs)) (hlow : t.low ≤ r.high + 1)
    (hsub : ∀ cp, Covers (t :: ts) cp → Covers (r :: rs) cp) : t.high ≤ r.high := by
  by_contra hlt
  refine h.not_covers_succ_high (hsub _ (covers_cons.mpr (Or.inl ⟨hlow, ?_⟩)))
  omega

/-- Separated ranges that hold the same code points are the same. -/
theorem eq_of_covers_iff (hr : Separated rs) (ht : Separated ts)
    (h : ∀ cp, Covers rs cp ↔ Covers ts cp) : rs = ts := by
  induction rs generalizing ts with
  | nil =>
    cases ts with
    | nil => rfl
    | cons t ts => exact absurd ((h t.low).mpr ht.covers_low) covers_nil
  | cons r rs ih =>
    cases ts with
    | nil => exact absurd ((h r.low).mp hr.covers_low) covers_nil
    | cons t ts =>
      have hlow : r.low = t.low :=
        Nat.le_antisymm (hr.low_le_of_covers ((h t.low).mpr ht.covers_low))
          (ht.low_le_of_covers ((h r.low).mp hr.covers_low))
      have hrle := hr.low_le_high
      have htle := ht.low_le_high
      have hhigh : r.high = t.high :=
        Nat.le_antisymm (ht.high_le_high (by omega) fun cp => (h cp).mp)
          (hr.high_le_high (by omega) fun cp => (h cp).mpr)
      have hhead : r = t := CodeRange.mk.injEq .. ▸ ⟨hlow, hhigh⟩
      have htail : rs = ts := by
        refine ih hr.tail ht.tail fun cp => ?_
        rw [hr.covers_tail_iff, ht.covers_tail_iff, h cp, hhigh]
      rw [hhead, htail]

end Separated

/-! ## Normal forms -/

variable {rs : List CodeRange} {s t : CodeSet} {P Q : Nat → Prop}

/-- The normal form of a list of ranges is one of the code points they hold. -/
theorem normalForm_ofRanges (h : Proper rs) : IsNormalForm (ofRanges rs) (Covers rs) := by
  have hseparated : Separated (ofRanges rs).toList := separated_normalList h
  refine ⟨hseparated, fun cp => ?_⟩
  rw [contains_iff_covers hseparated.ordered]
  exact covers_normalList

theorem IsNormalForm.congr (h : IsNormalForm s P) (hPQ : ∀ cp, P cp ↔ Q cp) : IsNormalForm s Q :=
  ⟨h.separated, fun cp => (h.contains_iff cp).trans (hPQ cp)⟩

/-- The code points with a property have one normal form only. -/
theorem IsNormalForm.unique (hs : IsNormalForm s P) (ht : IsNormalForm t P) : s = t := by
  refine Array.toList_inj.mp (hs.separated.eq_of_covers_iff ht.separated fun cp => ?_)
  rw [← contains_iff_covers hs.separated.ordered, ← contains_iff_covers ht.separated.ordered,
    hs.contains_iff, ht.contains_iff]

/-- Two lists of ranges have the same normal form exactly if they hold the same code points. -/
theorem ofRanges_eq_iff {ts : List CodeRange} (hr : Proper rs) (ht : Proper ts) :
    ofRanges rs = ofRanges ts ↔ ∀ cp, Covers rs cp ↔ Covers ts cp := by
  have hrform := normalForm_ofRanges hr
  have htform := normalForm_ofRanges ht
  constructor
  · intro heq cp
    rw [← hrform.contains_iff, ← htform.contains_iff, heq]
  · intro h
    exact hrform.unique (htform.congr fun cp => (h cp).symm)

/-! ## Ascending code points -/

section Ascending

variable {cps : List Nat}

theorem proper_map_single : Proper (cps.map CodeRange.single) := by
  intro r hr
  obtain ⟨cp, -, rfl⟩ := List.mem_map.mp hr
  exact Nat.le_refl _

theorem covers_map_single {cp : Nat} : Covers (cps.map CodeRange.single) cp ↔ cp ∈ cps := by
  constructor
  · rintro ⟨r, hr, hc⟩
    obtain ⟨x, hx, rfl⟩ := List.mem_map.mp hr
    obtain ⟨hle, hge⟩ := CodeRange.contains_iff.mp hc
    rwa [Nat.le_antisymm hge hle]
  · intro hcp
    exact ⟨_, List.mem_map_of_mem hcp, CodeRange.contains_iff.mpr ⟨Nat.le_refl _, Nat.le_refl _⟩⟩

/-- Runs are single code points joined. -/
theorem runsFrom_eq_joinFrom (current : CodeRange) :
    runsFrom current cps = joinFrom current (cps.map CodeRange.single) := by
  induction cps generalizing current with
  | nil => rfl
  | cons cp cps ih =>
    rw [runsFrom, List.map_cons, joinFrom, ih, ih]
    rfl

theorem ofAscending_eq_join : ofAscending cps = (join (cps.map CodeRange.single)).toArray := by
  cases cps with
  | nil => rfl
  | cons cp cps => rw [ofAscending, List.map_cons, join, runsFrom_eq_joinFrom]

/-- The ranges over an ascending list are the normal form of its code points. -/
theorem ofAscending_eq_ofRanges (h : cps.Pairwise (· ≤ ·)) :
    ofAscending cps = ofRanges (cps.map CodeRange.single) := by
  have hsorted : (cps.map CodeRange.single).Pairwise fun r t => r.atMost t = true := by
    refine List.pairwise_map.mpr (h.imp fun {x y} hle => ?_)
    simp only [CodeRange.atMost_iff, CodeRange.single]
    omega
  rw [ofAscending_eq_join, ofRanges, normalList, List.mergeSort_of_pairwise hsorted]

end Ascending

/-- **Normal forms are canonical.** Normalising any ranges, in any order and overlapping or touching
as they may, gives separated ranges in which a binary search finds exactly the code points of the
ranges, and two sets have the same normal form exactly if they hold the same code points. So the
union of two sets is the normal form of the code points of either, the ranges over an ascending list,
with repetitions or not, are the normal form of its members, and there is no other normal form of
them. -/
theorem normalize_canonical (hs : Proper s.toList) (ht : Proper t.toList) :
    IsNormalForm s.normalize (Covers s.toList) ∧
      (s.normalize = t.normalize ↔ ∀ cp, Covers s.toList cp ↔ Covers t.toList cp) ∧
      IsNormalForm (s.union t) (fun cp => Covers s.toList cp ∨ Covers t.toList cp) ∧
      (∀ cps : List Nat, cps.Pairwise (· ≤ ·) → IsNormalForm (ofAscending cps) (· ∈ cps)) ∧
      ∀ (u v : CodeSet) (P : Nat → Prop), IsNormalForm u P → IsNormalForm v P → u = v := by
  refine ⟨normalForm_ofRanges hs, ofRanges_eq_iff hs ht, ?_, fun cps hcps => ?_,
    fun u v P hu hv => hu.unique hv⟩
  · exact (normalForm_ofRanges (hs.append ht)).congr fun cp => covers_append
  · rw [ofAscending_eq_ofRanges hcps]
    exact (normalForm_ofRanges proper_map_single).congr fun cp => covers_map_single

/-- Ranges out of order that overlap and touch, up to the largest number of 32 bits, and other ranges
with the same code points. -/
theorem normalize_canonical_scrambled :
    let s : CodeSet :=
      #[⟨10, 20⟩, ⟨0xFFFFFFFF, 0xFFFFFFFF⟩, ⟨0, 3⟩, ⟨4, 5⟩, ⟨15, 30⟩, ⟨40, 0xFFFFFFFE⟩]
    let t : CodeSet := #[⟨40, 0xFFFFFFFF⟩, ⟨30, 30⟩, ⟨0, 5⟩, ⟨10, 29⟩, ⟨2, 2⟩]
    let normal : CodeSet := #[⟨0, 5⟩, ⟨10, 30⟩, ⟨40, 0xFFFFFFFF⟩]
    let cps := [1, 2, 3, 3, 7, 9, 10]
    Proper s.toList ∧ Proper t.toList ∧ s.normalize = normal ∧ t.normalize = normal ∧
      cps.Pairwise (· ≤ ·) ∧ IsNormalForm (ofAscending cps) (· ∈ cps) ∧
      ofAscending cps = #[⟨1, 3⟩, ⟨7, 7⟩, ⟨9, 10⟩] := by
  intro s t normal cps
  have hs : Proper s.toList := by simp [Proper, s]
  have ht : Proper t.toList := by simp [Proper, t]
  have hcps : cps.Pairwise (· ≤ ·) := by decide
  obtain ⟨hform, heq, -, hruns, hunique⟩ := normalize_canonical hs ht
  have hsame : s.normalize = t.normalize := by
    refine heq.mpr fun cp => ?_
    simp only [covers_cons, covers_nil, or_false, s, t]
    omega
  have hnormal : IsNormalForm normal (Covers s.toList) := by
    have hseparated : Separated normal.toList := ⟨by simp [Proper, normal], by simp [normal]⟩
    refine ⟨hseparated, fun cp => ?_⟩
    rw [contains_iff_covers hseparated.ordered]
    simp only [covers_cons, covers_nil, or_false, s, normal]
    omega
  have hfirst : s.normalize = normal := hunique _ _ _ hform hnormal
  exact ⟨hs, ht, hfirst, hsame ▸ hfirst, hcps, hruns cps hcps, rfl⟩

end CodeSet

end FiberLex
