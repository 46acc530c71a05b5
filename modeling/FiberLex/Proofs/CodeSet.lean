import FiberLex.CodeSet
import Mathlib.Data.List.Pairwise
import Mathlib.Tactic.Common

/-!
# Sets of code points

What the operations on lists of ranges do to the code points they hold. `Covers rs cp` is membership
of an arbitrary list of ranges. Joining keeps it for every list that ascends by its low ends;
complements and binary search need lists whose ranges are not empty and follow each other without
overlap (`Ordered`). What joining makes is more than that: `Separated` ranges do not touch either.
-/

namespace FiberLex

/-- The ends of the range are in order and are code points. -/
def CodeRange.Within (r : CodeRange) : Prop := r.low ≤ r.high ∧ r.high ≤ maxCodePoint

instance (r : CodeRange) : Decidable r.Within := inferInstanceAs (Decidable (_ ∧ _))

theorem CodeRange.atMost_iff {r s : CodeRange} :
    r.atMost s = true ↔ r.low < s.low ∨ (r.low = s.low ∧ r.high ≤ s.high) := by
  simp only [atMost, before, Bool.not_eq_true', Bool.or_eq_false_iff, Bool.and_eq_false_iff,
    decide_eq_false_iff_not, beq_eq_false_iff_ne]
  omega

theorem Char.toNat_le_maxCodePoint (c : Char) : c.toNat ≤ maxCodePoint := by
  have hvalid := c.valid
  simp only [UInt32.isValidChar, Nat.isValidChar] at hvalid
  simp only [maxCodePoint, Char.toNat]
  omega

/-- A code point that is a character is that of its character. -/
theorem Char.toNat_ofNat_of_isCharacter {cp : Nat} (h : isCharacter cp = true) :
    (Char.ofNat cp).toNat = cp := by
  have hvalid : cp.isValidChar := by
    simp only [isCharacter, Bool.or_eq_true, Bool.and_eq_true, decide_eq_true_eq] at h
    rcases h with h | ⟨h, h'⟩
    · exact Or.inl h
    · exact Or.inr ⟨h, Nat.lt_succ_of_le h'⟩
  rw [Char.ofNat, dif_pos hvalid]
  rfl

namespace CodeSet

/-- Some range of the list holds the code point. -/
def Covers (rs : List CodeRange) (cp : Nat) : Prop := ∃ r ∈ rs, r.contains cp = true

instance (rs : List CodeRange) (cp : Nat) : Decidable (Covers rs cp) :=
  inferInstanceAs (Decidable (∃ r ∈ rs, r.contains cp = true))

@[simp] theorem covers_nil {cp : Nat} : ¬Covers [] cp := by
  simp [Covers]

@[simp] theorem covers_cons {r : CodeRange} {rs : List CodeRange} {cp : Nat} :
    Covers (r :: rs) cp ↔ (r.low ≤ cp ∧ cp ≤ r.high) ∨ Covers rs cp := by
  simp [Covers]

@[simp] theorem covers_append {rs ts : List CodeRange} {cp : Nat} :
    Covers (rs ++ ts) cp ↔ Covers rs cp ∨ Covers ts cp := by
  simp [Covers, or_and_right, exists_or]

/-- The ranges are not empty. -/
def Proper (rs : List CodeRange) : Prop := ∀ r ∈ rs, r.low ≤ r.high

/-- The ranges are not empty, and each ends before the next begins. -/
structure Ordered (rs : List CodeRange) : Prop where
  /-- The ranges are not empty. -/
  proper : Proper rs
  /-- No range begins before those in front of it end. -/
  pairwise : rs.Pairwise fun r t => r.high < t.low

theorem Proper.append {rs ts : List CodeRange} (h : Proper rs) (h' : Proper ts) :
    Proper (rs ++ ts) := by
  intro r hr
  rcases List.mem_append.mp hr with hr | hr
  · exact h r hr
  · exact h' r hr

theorem ordered_nil : Ordered [] := ⟨by simp [Proper], .nil⟩

/-- The ranges are not empty, and from the end of each to the beginning of the next it is more than
`gap`. -/
def Apart (gap : Nat) (rs : List CodeRange) : Prop :=
  Proper rs ∧ rs.Pairwise fun r t => r.high + gap < t.low

theorem apart_cons {gap : Nat} {r : CodeRange} {rs : List CodeRange} :
    Apart gap (r :: rs) ↔ r.low ≤ r.high ∧ (∀ t ∈ rs, r.high + gap < t.low) ∧ Apart gap rs := by
  constructor
  · rintro ⟨hproper, hpair⟩
    obtain ⟨hr, hrs⟩ := List.forall_mem_cons.mp hproper
    obtain ⟨hfirst, hrest⟩ := List.pairwise_cons.mp hpair
    exact ⟨hr, hfirst, hrs, hrest⟩
  · rintro ⟨hr, hfirst, hrs, hrest⟩
    exact ⟨List.forall_mem_cons.mpr ⟨hr, hrs⟩, List.pairwise_cons.mpr ⟨hfirst, hrest⟩⟩

theorem ordered_iff_apart {rs : List CodeRange} : Ordered rs ↔ Apart 0 rs :=
  ⟨fun h => ⟨h.proper, h.pairwise⟩, fun h => ⟨h.1, h.2⟩⟩

theorem ordered_cons {r : CodeRange} {rs : List CodeRange} :
    Ordered (r :: rs) ↔ r.low ≤ r.high ∧ (∀ t ∈ rs, r.high < t.low) ∧ Ordered rs := by
  rw [ordered_iff_apart, ordered_iff_apart]
  exact apart_cons

/-- The ranges are not empty and ascend, and between any two there is a code point. -/
structure Separated (rs : List CodeRange) : Prop where
  /-- The ranges are not empty. -/
  proper : Proper rs
  /-- Each range ends at least two code points before the next begins. -/
  apart : rs.Pairwise fun r t => r.high + 1 < t.low

theorem Separated.ordered {rs : List CodeRange} (h : Separated rs) : Ordered rs :=
  ⟨h.proper, h.apart.imp fun hlt => by omega⟩

theorem separated_nil : Separated [] := ⟨by simp [Proper], .nil⟩

theorem separated_iff_apart {rs : List CodeRange} : Separated rs ↔ Apart 1 rs :=
  ⟨fun h => ⟨h.proper, h.apart⟩, fun h => ⟨h.1, h.2⟩⟩

theorem separated_cons {r : CodeRange} {rs : List CodeRange} :
    Separated (r :: rs) ↔ r.low ≤ r.high ∧ (∀ t ∈ rs, r.high + 1 < t.low) ∧ Separated rs := by
  rw [separated_iff_apart, separated_iff_apart]
  exact apart_cons

theorem separated_singleton {r : CodeRange} (hr : r.low ≤ r.high) : Separated [r] :=
  separated_cons.mpr ⟨hr, by simp, separated_nil⟩

/-! ## Joining -/

/-- Joining keeps the code points of a list that ascends by its low ends. -/
theorem covers_joinFrom {current : CodeRange} {rs : List CodeRange}
    (h : (current :: rs).Pairwise fun r t => r.low ≤ t.low) {cp : Nat} :
    Covers (joinFrom current rs) cp ↔ Covers (current :: rs) cp := by
  induction rs generalizing current with
  | nil => rfl
  | cons next rest ih =>
    obtain ⟨hcurrent, hrest⟩ := List.pairwise_cons.mp h
    have hnext := hcurrent next List.mem_cons_self
    rw [joinFrom]
    split
    · rename_i htouch
      have hjoined : (⟨current.low, max current.high next.high⟩ :: rest : List CodeRange).Pairwise
          fun r t => r.low ≤ t.low :=
        List.pairwise_cons.mpr
          ⟨fun t ht => hcurrent t (List.mem_cons_of_mem _ ht), (List.pairwise_cons.mp hrest).2⟩
      rw [ih hjoined, covers_cons, covers_cons, covers_cons, ← or_assoc]
      refine or_congr_left ?_
      simp only
      omega
    · rw [covers_cons, ih hrest, ← covers_cons]

/-- Joining makes a list whose ranges neither overlap nor touch. -/
theorem pairwise_joinFrom {current : CodeRange} {rs : List CodeRange}
    (hproper : Proper (current :: rs))
    (h : (current :: rs).Pairwise fun r t => r.low ≤ t.low) :
    Proper (joinFrom current rs) ∧
      (joinFrom current rs).Pairwise (fun r t => r.high + 1 < t.low) ∧
      ∀ r ∈ joinFrom current rs, current.low ≤ r.low := by
  induction rs generalizing current with
  | nil =>
    refine ⟨hproper, List.pairwise_singleton _ _, ?_⟩
    simp [joinFrom]
  | cons next rest ih =>
    obtain ⟨hcurrent, hrest⟩ := List.pairwise_cons.mp h
    obtain ⟨hle, hproper'⟩ := List.forall_mem_cons.mp hproper
    have hnext := hcurrent next List.mem_cons_self
    rw [joinFrom]
    split
    · refine ih ?_ ?_
      · refine List.forall_mem_cons.mpr ⟨by simp only; omega, fun r hr => ?_⟩
        exact hproper' r (List.mem_cons_of_mem _ hr)
      · exact List.pairwise_cons.mpr
          ⟨fun t ht => hcurrent t (List.mem_cons_of_mem _ ht), (List.pairwise_cons.mp hrest).2⟩
    · rename_i hgap
      obtain ⟨h1, h2, h3⟩ := ih hproper' hrest
      refine ⟨List.forall_mem_cons.mpr ⟨hle, h1⟩, List.pairwise_cons.mpr ⟨?_, h2⟩, ?_⟩
      · intro t ht
        have := h3 t ht
        omega
      · intro r hr
        rcases List.mem_cons.mp hr with rfl | hr
        · exact Nat.le_refl _
        · exact Nat.le_trans hnext (h3 r hr)

theorem pairwise_low_mergeSort (rs : List CodeRange) :
    (rs.mergeSort CodeRange.atMost).Pairwise fun r t => r.low ≤ t.low := by
  have htrans : ∀ r s t : CodeRange, r.atMost s = true → s.atMost t = true →
      r.atMost t = true := by
    intro r s t hrs hst
    rw [CodeRange.atMost_iff] at *
    omega
  have htotal : ∀ r s : CodeRange, (r.atMost s || s.atMost r) = true := by
    intro r s
    rw [Bool.or_eq_true, CodeRange.atMost_iff, CodeRange.atMost_iff]
    omega
  refine (List.pairwise_mergeSort htrans htotal rs).imp fun {r t} h => ?_
  rw [CodeRange.atMost_iff] at h
  omega

/-- The normal form of a list holds the same code points. -/
theorem covers_normalList {rs : List CodeRange} {cp : Nat} :
    Covers (normalList rs) cp ↔ Covers rs cp := by
  have hsorted : Covers (rs.mergeSort CodeRange.atMost) cp ↔ Covers rs cp := by
    simp [Covers, List.mem_mergeSort]
  have hpair := pairwise_low_mergeSort rs
  unfold normalList
  cases hs : rs.mergeSort CodeRange.atMost with
  | nil =>
    rw [← hsorted, hs]
    rfl
  | cons first rest =>
    rw [hs] at hpair hsorted
    rw [join, covers_joinFrom hpair, hsorted]

/-- The ranges of a normal form neither overlap nor touch. -/
theorem pairwise_normalList {rs : List CodeRange} (h : Proper rs) :
    (normalList rs).Pairwise fun r t => r.high + 1 < t.low := by
  have hproper : Proper (rs.mergeSort CodeRange.atMost) := fun r hr => h r (List.mem_mergeSort.mp hr)
  have hpair := pairwise_low_mergeSort rs
  unfold normalList
  cases hs : rs.mergeSort CodeRange.atMost with
  | nil => exact .nil
  | cons first rest =>
    rw [hs] at hpair hproper
    exact (pairwise_joinFrom hproper hpair).2.1

theorem proper_normalList {rs : List CodeRange} (h : Proper rs) : Proper (normalList rs) := by
  have hproper : Proper (rs.mergeSort CodeRange.atMost) := fun r hr => h r (List.mem_mergeSort.mp hr)
  have hpair := pairwise_low_mergeSort rs
  unfold normalList
  cases hs : rs.mergeSort CodeRange.atMost with
  | nil => simp [join, Proper]
  | cons first rest =>
    rw [hs] at hpair hproper
    exact (pairwise_joinFrom hproper hpair).1

theorem separated_normalList {rs : List CodeRange} (h : Proper rs) : Separated (normalList rs) :=
  ⟨proper_normalList h, pairwise_normalList h⟩

theorem ordered_normalList {rs : List CodeRange} (h : Proper rs) : Ordered (normalList rs) :=
  (separated_normalList h).ordered

/-! ## Gaps -/

/-- The gaps from `next` on hold what the ranges do not. -/
theorem covers_gapsFrom {next : Nat} {rs : List CodeRange} (h : Ordered rs)
    (hnext : ∀ r ∈ rs, next ≤ r.low) {cp : Nat} (hcp : cp ≤ maxCodePoint) :
    Covers (gapsFrom next rs) cp ↔ next ≤ cp ∧ ¬Covers rs cp := by
  induction rs generalizing next with
  | nil => simp [gapsFrom, hcp]
  | cons r rest ih =>
    obtain ⟨hr, hfirst, hrest⟩ := ordered_cons.mp h
    have hlow := hnext r List.mem_cons_self
    have hafter : Covers rest cp → r.high < cp := by
      rintro ⟨t, ht, hc⟩
      have := hfirst t ht
      rw [CodeRange.contains_iff] at hc
      omega
    have hgap : Covers (if next < r.low then [⟨next, r.low - 1⟩] else []) cp ↔
        next ≤ cp ∧ cp < r.low := by
      split
      · simp only [covers_cons, covers_nil, or_false]
        omega
      · simp only [covers_nil, false_iff]
        omega
    simp only [gapsFrom]
    by_cases hmax : maxCodePoint ≤ r.high
    · rw [if_pos hmax, hgap, covers_cons]
      constructor
      · rintro ⟨h1, h2⟩
        refine ⟨h1, ?_⟩
        rintro (h3 | h3)
        · omega
        · have := hafter h3
          omega
      · rintro ⟨h1, h2⟩
        refine ⟨h1, ?_⟩
        by_contra hge
        exact h2 (Or.inl ⟨by omega, by omega⟩)
    · rw [if_neg hmax, covers_append, hgap,
        ih hrest fun t ht => by have := hfirst t ht; omega, covers_cons]
      constructor
      · rintro (⟨h1, h2⟩ | ⟨h1, h2⟩)
        · refine ⟨h1, ?_⟩
          rintro (h3 | h3)
          · omega
          · have := hafter h3
            omega
        · refine ⟨by omega, ?_⟩
          rintro (h3 | h3)
          · omega
          · exact h2 h3
      · rintro ⟨h1, h2⟩
        rw [not_or] at h2
        by_cases hlt : cp < r.low
        · exact Or.inl ⟨h1, hlt⟩
        · exact Or.inr ⟨by omega, h2.2⟩

/-- Between two gaps there is a range, so that they do not touch. -/
theorem separated_gapsFrom {next : Nat} {rs : List CodeRange} (h : Ordered rs)
    (hnext : ∀ r ∈ rs, next ≤ r.low) (hmax : next ≤ maxCodePoint) :
    Separated (gapsFrom next rs) ∧ ∀ g ∈ gapsFrom next rs, next ≤ g.low := by
  induction rs generalizing next with
  | nil =>
    refine ⟨⟨?_, List.pairwise_singleton _ _⟩, ?_⟩
    · simpa [gapsFrom, Proper] using hmax
    · simp [gapsFrom]
  | cons r rest ih =>
    obtain ⟨hr, hfirst, hrest⟩ := ordered_cons.mp h
    have hlow := hnext r List.mem_cons_self
    simp only [gapsFrom]
    by_cases hend : maxCodePoint ≤ r.high
    · rw [if_pos hend]
      split
      · refine ⟨⟨?_, List.pairwise_singleton _ _⟩, by simp⟩
        simp [Proper]
        omega
      · exact ⟨separated_nil, by simp⟩
    · rw [if_neg hend]
      obtain ⟨h1, h2⟩ := @ih (r.high + 1) hrest (fun t ht => hfirst t ht) (by omega)
      split
      · rw [List.singleton_append]
        refine ⟨separated_cons.mpr ⟨by simp only; omega, fun t ht => ?_, h1⟩, fun g hg => ?_⟩
        · have := h2 t ht
          simp only
          omega
        · rcases List.mem_cons.mp hg with rfl | hg
          · exact Nat.le_refl _
          · have := h2 g hg
            omega
      · rw [List.nil_append]
        refine ⟨h1, fun g hg => ?_⟩
        have := h2 g hg
        omega

/-- The complement holds the code points that the set does not. -/
theorem covers_complement {s : CodeSet} (h : Ordered s.toList) {cp : Nat} (hcp : cp ≤ maxCodePoint) :
    Covers s.complement.toList cp ↔ ¬Covers s.toList cp := by
  rw [complement, covers_gapsFrom h (by simp) hcp]
  simp

theorem separated_complement {s : CodeSet} (h : Ordered s.toList) :
    Separated s.complement.toList :=
  (separated_gapsFrom h (by simp) (by simp)).1

theorem ordered_complement {s : CodeSet} (h : Ordered s.toList) : Ordered s.complement.toList :=
  (separated_complement h).ordered

theorem covers_negateIf {s : CodeSet} (h : Ordered s.toList) (negated : Bool) {cp : Nat}
    (hcp : cp ≤ maxCodePoint) :
    Covers (s.negateIf negated).toList cp ↔ (Covers s.toList cp ↔ negated = false) := by
  unfold negateIf
  cases negated with
  | false => simp
  | true =>
    rw [if_pos rfl, covers_complement h hcp]
    simp

theorem ordered_negateIf {s : CodeSet} (h : Ordered s.toList) (negated : Bool) :
    Ordered (s.negateIf negated).toList := by
  unfold negateIf
  split
  · exact ordered_complement h
  · exact h

/-! ## Bounds -/

/-- Ranges that hold nothing but code points are made of code points. -/
theorem within_of_covers {rs : List CodeRange} (h : Proper rs)
    (hle : ∀ cp, Covers rs cp → cp ≤ maxCodePoint) : ∀ r ∈ rs, r.Within := by
  intro r hr
  exact ⟨h r hr, hle r.high ⟨r, hr, CodeRange.contains_iff.mpr ⟨h r hr, Nat.le_refl _⟩⟩⟩

theorem le_of_covers {rs : List CodeRange} (h : ∀ r ∈ rs, r.Within) {cp : Nat}
    (hcp : Covers rs cp) : cp ≤ maxCodePoint := by
  obtain ⟨r, hr, hc⟩ := hcp
  exact Nat.le_trans (CodeRange.contains_iff.mp hc).2 (h r hr).2

/-- Normal ranges hold nothing that the ranges of the list do not. -/
theorem within_normalList {rs : List CodeRange} (h : ∀ r ∈ rs, r.Within) :
    ∀ r ∈ normalList rs, r.Within :=
  within_of_covers (proper_normalList fun r hr => (h r hr).1) fun _ hcp =>
    le_of_covers h (covers_normalList.mp hcp)

/-- The ranges are made of code points and ascend, and no two of them overlap or touch. -/
structure Normal (s : CodeSet) : Prop where
  /-- The ends of each range are in order and are code points. -/
  within : ∀ r ∈ s.toList, r.Within
  /-- There is a code point between any two ranges. -/
  apart : s.toList.Pairwise fun r t => r.high + 1 < t.low

theorem Normal.of_separated {s : CodeSet} (h : Separated s.toList)
    (hwithin : ∀ r ∈ s.toList, r.Within) : s.Normal :=
  ⟨hwithin, h.apart⟩

theorem normal_ofRanges {rs : List CodeRange} (h : ∀ r ∈ rs, r.Within) :
    Normal (ofRanges rs) :=
  .of_separated (separated_normalList fun r hr => (h r hr).1) (within_normalList h)

theorem Normal.ordered {s : CodeSet} (h : s.Normal) : Ordered s.toList :=
  ⟨fun r hr => (h.within r hr).1, h.apart.imp fun hlt => by omega⟩

theorem high_le_of_mem_gapsFrom {next : Nat} {rs : List CodeRange} (h : ∀ r ∈ rs, r.Within) :
    ∀ g ∈ gapsFrom next rs, g.high ≤ maxCodePoint := by
  induction rs generalizing next with
  | nil => simp [gapsFrom]
  | cons r rs ih =>
    obtain ⟨⟨hlow, hhigh⟩, hrs⟩ := List.forall_mem_cons.mp h
    intro g hg
    simp only [gapsFrom] at hg
    have hgap : ∀ t ∈ (if next < r.low then [⟨next, r.low - 1⟩] else [] : List CodeRange),
        t.high ≤ maxCodePoint := by
      intro t ht
      split at ht
      · obtain rfl := List.mem_singleton.mp ht
        simp only
        omega
      · cases ht
    split at hg
    · exact hgap g hg
    · rcases List.mem_append.mp hg with hg | hg
      · exact hgap g hg
      · exact ih hrs g hg

theorem within_negateIf {s : CodeSet} (h : Ordered s.toList) (hs : ∀ r ∈ s.toList, r.Within)
    (negated : Bool) : ∀ r ∈ (s.negateIf negated).toList, r.Within := by
  intro r hr
  refine ⟨(ordered_negateIf h negated).proper r hr, ?_⟩
  unfold negateIf at hr
  split at hr
  · exact high_le_of_mem_gapsFrom hs r hr
  · exact (hs r hr).2

/-- There is a range, and the ranges are made of code points. -/
structure Filled (rs : List CodeRange) : Prop where
  ne_nil : rs ≠ []
  within : ∀ r ∈ rs, r.Within

theorem filled_of_covers {rs : List CodeRange} {cp : Nat} (hwithin : ∀ r ∈ rs, r.Within)
    (hcp : Covers rs cp) : Filled rs := by
  refine ⟨?_, hwithin⟩
  rintro rfl
  exact covers_nil hcp

theorem Filled.normalList {rs : List CodeRange} (h : Filled rs) : Filled (normalList rs) := by
  obtain ⟨r, ts, rfl⟩ := List.exists_cons_of_ne_nil h.ne_nil
  have hlow : Covers (r :: ts) r.low :=
    covers_cons.mpr (Or.inl ⟨Nat.le_refl _, (h.within r List.mem_cons_self).1⟩)
  exact filled_of_covers (within_normalList h.within) (covers_normalList.mpr hlow)

/-! ## Binary search -/

/-- The ranges of a set are in the order of their indices. -/
theorem Ordered.high_lt_low {s : CodeSet} (h : Ordered s.toList) {i j : Nat} {r t : CodeRange}
    (hi : s[i]? = some r) (hj : s[j]? = some t) (hij : i < j) : r.high < t.low := by
  obtain ⟨hi', rfl⟩ := Array.getElem?_eq_some_iff.mp hi
  obtain ⟨hj', rfl⟩ := Array.getElem?_eq_some_iff.mp hj
  exact List.pairwise_iff_getElem.mp h.pairwise i j hi' hj' hij

/-- The search finds a range with the code point if there is one between the two indices. -/
theorem search_iff {s : CodeSet} (h : Ordered s.toList) {cp start stop : Nat}
    (hstop : stop ≤ s.size) :
    s.search cp start stop = true ↔
      ∃ i r, start ≤ i ∧ i < stop ∧ s[i]? = some r ∧ r.contains cp = true := by
  fun_induction search s cp start stop with
  | case1 start stop hlt middle hnone =>
    have hsize := Array.getElem?_eq_none_iff.mp hnone
    exact absurd hstop (by omega)
  | case2 start stop hlt middle r hr hhigh ih =>
    rw [ih hstop]
    constructor
    · rintro ⟨i, t, h1, h2, h3⟩
      exact ⟨i, t, by omega, h2, h3⟩
    · rintro ⟨i, t, h1, h2, hi, hc⟩
      refine ⟨i, t, ?_, h2, hi, hc⟩
      by_contra hle
      rw [CodeRange.contains_iff] at hc
      rcases Nat.lt_or_eq_of_le (Nat.le_of_not_lt hle) with hlt' | rfl
      · have horder := h.high_lt_low hi hr hlt'
        have hproper := h.proper r (Array.mem_toList_iff.mpr (Array.mem_of_getElem? hr))
        omega
      · cases hr.symm.trans hi
        omega
  | case3 start stop hlt middle r hr hhigh hlow ih =>
    rw [ih (by omega)]
    constructor
    · rintro ⟨i, t, h1, h2, h3⟩
      exact ⟨i, t, h1, by omega, h3⟩
    · rintro ⟨i, t, h1, h2, hi, hc⟩
      refine ⟨i, t, h1, ?_, hi, hc⟩
      by_contra hle
      rw [CodeRange.contains_iff] at hc
      rcases Nat.lt_or_eq_of_le (Nat.le_of_not_lt hle) with hlt' | rfl
      · have horder := h.high_lt_low hr hi hlt'
        have hproper := h.proper r (Array.mem_toList_iff.mpr (Array.mem_of_getElem? hr))
        omega
      · cases hr.symm.trans hi
        omega
  | case4 start stop hlt middle r hr hhigh hlow =>
    refine iff_of_true rfl ⟨middle, r, by omega, by omega, hr, ?_⟩
    rw [CodeRange.contains_iff]
    omega
  | case5 start stop hge =>
    refine iff_of_false (by simp) ?_
    rintro ⟨i, r, h1, h2, -⟩
    omega

/-- Membership by binary search is membership of some range. -/
theorem contains_iff_covers {s : CodeSet} (h : Ordered s.toList) {cp : Nat} :
    s.contains cp = true ↔ Covers s.toList cp := by
  rw [contains, search_iff h (Nat.le_refl _)]
  constructor
  · rintro ⟨i, r, -, -, hi, hc⟩
    exact ⟨r, Array.mem_toList_iff.mpr (Array.mem_of_getElem? hi), hc⟩
  · rintro ⟨r, hr, hc⟩
    obtain ⟨i, hi, rfl⟩ := Array.mem_iff_getElem.mp (Array.mem_toList_iff.mp hr)
    exact ⟨i, s[i], by omega, hi, Array.getElem?_eq_getElem hi, hc⟩

end CodeSet

end FiberLex
