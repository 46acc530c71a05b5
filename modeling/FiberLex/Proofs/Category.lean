import FiberLex.Category
import FiberLex.Proofs.CodeSet
import Mathlib.Data.List.GetD

/-!
# General categories

Each part of a partition holds the code points that are in its listing and in none before it, and
the last part holds the rest, so the parts are disjoint and hold every code point. The table for
ASCII characters has what a search through the parts finds (`Tables.ofCodePoint_ofListings`). The two
views of a category, its set of ranges and the category of a code point, are therefore the same.
-/

namespace FiberLex

open CodeSet

/-! ## Differences -/

theorem covers_minus {r s : CodeRange} {cp : Nat} :
    Covers (r.minus s) cp ↔ r.contains cp = true ∧ ¬s.contains cp = true := by
  simp only [CodeRange.contains_iff, CodeRange.minus]
  split
  · rename_i hmeets
    rw [CodeRange.meets_iff] at hmeets
    split <;> split <;> simp <;> omega
  · rename_i hmeets
    rw [CodeRange.meets_iff] at hmeets
    simp
    omega

theorem covers_minusAll {rs : List CodeRange} {s : CodeRange} {cp : Nat} :
    Covers (CodeRange.minusAll rs s) cp ↔ Covers rs cp ∧ ¬s.contains cp = true := by
  unfold CodeRange.minusAll
  induction rs with
  | nil => simp
  | cons r rs ih =>
    rw [List.flatMap_cons, covers_append, covers_minus, ih, covers_cons, CodeRange.contains_iff]
    tauto

theorem covers_foldl_minusAll {rs taken : List CodeRange} {cp : Nat} :
    Covers (taken.foldl CodeRange.minusAll rs) cp ↔ Covers rs cp ∧ ¬Covers taken cp := by
  induction taken generalizing rs with
  | nil => simp
  | cons s taken ih =>
    rw [List.foldl_cons, ih, covers_minusAll, covers_cons, CodeRange.contains_iff]
    tauto

/-- Pieces of separated ranges are separated if those of each range are. -/
theorem CodeSet.Separated.flatMap {rs : List CodeRange} (h : Separated rs)
    {f : CodeRange → List CodeRange}
    (hf : ∀ r ∈ rs, Separated (f r) ∧ ∀ t ∈ f r, r.low ≤ t.low ∧ t.high ≤ r.high) :
    Separated (rs.flatMap f) := by
  constructor
  · intro t ht
    obtain ⟨r, hr, ht⟩ := List.mem_flatMap.mp ht
    exact (hf r hr).1.proper t ht
  · rw [List.pairwise_flatMap]
    refine ⟨fun r hr => (hf r hr).1.apart, ?_⟩
    refine h.apart.imp_of_mem fun {r s} hr hs hlt t ht u hu => ?_
    have htr := (hf r hr).2 t ht
    have hus := (hf s hs).2 u hu
    omega

theorem separated_minus {r s : CodeRange} (hr : r.low ≤ r.high) (hs : s.low ≤ s.high) :
    Separated (r.minus s) ∧ ∀ t ∈ r.minus s, r.low ≤ t.low ∧ t.high ≤ r.high := by
  simp only [CodeRange.minus]
  split
  · rename_i hmeets
    rw [CodeRange.meets_iff] at hmeets
    split <;> split <;> simp [separated_cons, separated_nil] <;> omega
  · simp [separated_singleton hr]

theorem separated_foldl_minusAll {rs taken : List CodeRange} (h : Separated rs)
    (ht : Proper taken) : Separated (taken.foldl CodeRange.minusAll rs) := by
  induction taken generalizing rs with
  | nil => exact h
  | cons s taken ih =>
    obtain ⟨hs, ht⟩ := List.forall_mem_cons.mp ht
    refine ih ?_ ht
    exact h.flatMap fun r hr => separated_minus (h.proper r hr) hs

/-- A property of all pieces of a range is kept by taking more away. -/
theorem within_foldl_minusAll {rs taken : List CodeRange} {low high : Nat} (h : Separated rs)
    (ht : Proper taken) (hin : ∀ r ∈ rs, low ≤ r.low ∧ r.high ≤ high) :
    ∀ t ∈ taken.foldl CodeRange.minusAll rs, low ≤ t.low ∧ t.high ≤ high := by
  induction taken generalizing rs with
  | nil => exact hin
  | cons s taken ih =>
    obtain ⟨hs, ht⟩ := List.forall_mem_cons.mp ht
    refine ih (h.flatMap fun r hr => separated_minus (h.proper r hr) hs) ht ?_
    intro t htm
    obtain ⟨r, hr, htm⟩ := List.mem_flatMap.mp htm
    have hpiece := (separated_minus (h.proper r hr) hs).2 t htm
    have hrange := hin r hr
    omega

/-! ## Partitions -/

namespace Partition

variable {taken listing : CodeSet} {listings : List CodeSet} {cp : Nat}

/-- Of ascending ranges, those that begin behind `high` hold nothing up to there. -/
theorem covers_takeWhile {rs : List CodeRange} (h : Ordered rs) {high : Nat} (hcp : cp ≤ high) :
    Covers (rs.takeWhile (·.low ≤ high)) cp ↔ Covers rs cp := by
  induction rs with
  | nil => rfl
  | cons r rs ih =>
    obtain ⟨-, hfirst, hrs⟩ := ordered_cons.mp h
    rw [List.takeWhile_cons]
    split
    · rw [covers_cons, covers_cons, ih hrs]
    · rename_i hlow
      rw [decide_eq_true_eq] at hlow
      refine iff_of_false covers_nil fun hcovers => ?_
      rcases covers_cons.mp hcovers with hr | ⟨t, ht, hc⟩
      · omega
      · -- the ranges behind begin even later
        have hlater := hfirst t ht
        have hproper := h.proper r List.mem_cons_self
        rw [CodeRange.contains_iff] at hc
        omega

theorem covers_untaken (ht : Ordered taken.toList) :
    Covers (untaken taken listing) cp ↔ Covers listing.toList cp ∧ ¬Covers taken.toList cp := by
  rw [← @covers_normalList listing.toList]
  unfold untaken CodeSet.normalize ofRanges
  induction normalList listing.toList with
  | nil => simp
  | cons r rs ih =>
    have hone : Covers [r] cp ∧ ¬Covers (taken.toList.takeWhile (·.low ≤ r.high)) cp ↔
        Covers [r] cp ∧ ¬Covers taken.toList cp := by
      refine and_congr_right fun hr => not_congr (covers_takeWhile ht ?_)
      simp only [covers_cons, covers_nil, or_false] at hr
      exact hr.2
    rw [List.flatMap_cons, covers_append, ih, covers_foldl_minusAll, hone, ← or_and_right,
      ← covers_append, List.singleton_append]

theorem separated_untaken (hl : Proper listing.toList) (ht : Proper taken.toList) :
    Separated (untaken taken listing) := by
  have hnormal : Separated (normalList listing.toList) := separated_normalList hl
  refine hnormal.flatMap fun r hr => ?_
  have hone : Separated [r] := separated_singleton (hnormal.proper r hr)
  have hfew : Proper (taken.toList.takeWhile (·.low ≤ r.high)) :=
    fun t htm => ht t ((List.takeWhile_sublist _).subset htm)
  exact ⟨separated_foldl_minusAll hone hfew, within_foldl_minusAll hone hfew (by simp)⟩

theorem covers_union {s t : CodeSet} :
    Covers (s.union t).toList cp ↔ Covers s.toList cp ∨ Covers t.toList cp := by
  rw [CodeSet.union, ofRanges, covers_normalList, covers_append]

/-- What is taken after a listing is a normal set again. -/
theorem ordered_union_untaken (hl : Proper listing.toList) (ht : Proper taken.toList) :
    Ordered (taken.union (untaken taken listing).toArray).toList :=
  ordered_normalList (ht.append (separated_untaken hl ht).proper)

theorem length_divide : (divide taken listings).length = listings.length + 1 := by
  induction listings generalizing taken with
  | nil => rfl
  | cons listing rest ih => rw [divide, List.length_cons, List.length_cons, ih]

/-- A part holds what its listing has and no listing before it, the last part what is in none. -/
theorem covers_divide (hl : ∀ l ∈ listings, Proper l.toList) (ht : Ordered taken.toList)
    (hcp : cp ≤ maxCodePoint) (i : Nat) :
    Covers ((divide taken listings).getD i #[]).toList cp ↔
      i ≤ listings.length ∧ ¬Covers taken.toList cp ∧
        (∀ j < i, ¬Covers (listings.getD j #[]).toList cp) ∧
        (i < listings.length → Covers (listings.getD i #[]).toList cp) := by
  induction listings generalizing taken i with
  | nil =>
    cases i with
    | zero => simp [divide, covers_complement ht hcp]
    | succ i => simp [divide]
  | cons listing rest ih =>
    obtain ⟨hlisting, hrest⟩ := List.forall_mem_cons.mp hl
    cases i with
    | zero =>
      simp only [divide, List.getD_cons_zero, covers_untaken ht]
      simp
      tauto
    | succ i =>
      simp only [divide, List.getD_cons_succ]
      rw [ih hrest (ordered_union_untaken hlisting ht.proper), covers_union, covers_untaken ht]
      simp only [List.length_cons, Nat.add_le_add_iff_right, Nat.add_lt_add_iff_right]
      constructor
      · rintro ⟨h1, h2, h3, h4⟩
        refine ⟨h1, by tauto, ?_, h4⟩
        rintro (_ | j) hj
        · simp only [List.getD_cons_zero]
          tauto
        · simpa using h3 j (by omega)
      · rintro ⟨h1, h2, h3, h4⟩
        have h0 := h3 0 (by omega)
        simp only [List.getD_cons_zero] at h0
        exact ⟨h1, by tauto, fun j hj => by simpa using h3 (j + 1) (by omega), h4⟩

/-- Every code point that is not taken is in some part. -/
theorem exists_covers_divide (hl : ∀ l ∈ listings, Proper l.toList) (ht : Ordered taken.toList)
    (hcp : cp ≤ maxCodePoint) (hfree : ¬Covers taken.toList cp) :
    ∃ i, Covers ((divide taken listings).getD i #[]).toList cp := by
  induction listings generalizing taken with
  | nil => exact ⟨0, (covers_complement ht hcp).mpr hfree⟩
  | cons listing rest ih =>
    obtain ⟨hlisting, hrest⟩ := List.forall_mem_cons.mp hl
    by_cases hc : Covers listing.toList cp
    · exact ⟨0, (covers_untaken ht).mpr ⟨hc, hfree⟩⟩
    · have hfree' : ¬Covers (taken.union (untaken taken listing).toArray).toList cp := by
        rw [covers_union, covers_untaken ht]
        tauto
      obtain ⟨i, hi⟩ := ih hrest (ordered_union_untaken hlisting ht.proper) hfree'
      exact ⟨i + 1, hi⟩

theorem separated_of_mem_divide (hl : ∀ l ∈ listings, Proper l.toList) (ht : Ordered taken.toList)
    {part : CodeSet} (hpart : part ∈ divide taken listings) : Separated part.toList := by
  induction listings generalizing taken with
  | nil =>
    rw [divide, List.mem_singleton] at hpart
    exact hpart ▸ separated_complement ht
  | cons listing rest ih =>
    obtain ⟨hlisting, hrest⟩ := List.forall_mem_cons.mp hl
    rcases List.mem_cons.mp hpart with rfl | hpart
    · exact separated_untaken hlisting ht.proper
    · exact ih hrest (ordered_union_untaken hlisting ht.proper) hpart

/-- The parts are made of code points. -/
theorem within_of_mem_divide (hl : ∀ l ∈ listings, ∀ r ∈ l.toList, r.Within)
    (ht : Ordered taken.toList) (htaken : ∀ r ∈ taken.toList, r.Within) {part : CodeSet}
    (hpart : part ∈ divide taken listings) : ∀ r ∈ part.toList, r.Within := by
  induction listings generalizing taken with
  | nil =>
    rw [divide, List.mem_singleton] at hpart
    exact hpart ▸ within_negateIf ht htaken true
  | cons listing rest ih =>
    obtain ⟨hlisting, hrest⟩ := List.forall_mem_cons.mp hl
    have hproper : Proper listing.toList := fun r hr => (hlisting r hr).1
    have hown : ∀ r ∈ untaken taken listing, r.Within :=
      within_of_covers (separated_untaken hproper ht.proper).proper fun _ hcp =>
        le_of_covers hlisting ((covers_untaken ht).mp hcp).1
    rcases List.mem_cons.mp hpart with rfl | hpart
    · exact hown
    · refine ih hrest (ordered_union_untaken hproper ht.proper) ?_ hpart
      exact within_normalList (List.forall_mem_append.mpr ⟨htaken, hown⟩)

/-- A code point is in one part only. -/
theorem index_unique (hl : ∀ l ∈ listings, Proper l.toList) (hcp : cp ≤ maxCodePoint) {i j : Nat}
    (hi : Covers ((ofListings listings).getD i #[]).toList cp)
    (hj : Covers ((ofListings listings).getD j #[]).toList cp) : i = j := by
  obtain ⟨hilen, -, hibefore, hithere⟩ := (covers_divide hl ordered_nil hcp i).mp hi
  obtain ⟨hjlen, -, hjbefore, hjthere⟩ := (covers_divide hl ordered_nil hcp j).mp hj
  rcases Nat.lt_trichotomy i j with hij | hij | hij
  · exact absurd (hithere (by omega)) (hjbefore i hij)
  · exact hij
  · exact absurd (hjthere (by omega)) (hibefore j hij)

/-- The index of a code point is that of the part that holds it. -/
theorem indexOf_eq_iff (hl : ∀ l ∈ listings, Proper l.toList) (hcp : cp ≤ maxCodePoint) {i : Nat} :
    (ofListings listings).indexOf cp = i ↔
      Covers ((ofListings listings).getD i #[]).toList cp := by
  have hfound : Covers
      ((ofListings listings).getD ((ofListings listings).indexOf cp) #[]).toList cp := by
    have hsome : ∃ k, Covers ((ofListings listings).getD k #[]).toList cp :=
      exists_covers_divide hl ordered_nil hcp (by simp)
    obtain ⟨k, hk⟩ := hsome
    have hlt : k < (ofListings listings).length := by
      by_contra hge
      rw [List.getD_eq_default _ _ (by omega)] at hk
      simp at hk
    have hmem : ∀ part ∈ ofListings listings, (part.contains cp = true ↔ Covers part.toList cp) :=
      fun part hpart => contains_iff_covers (separated_of_mem_divide hl ordered_nil hpart).ordered
    unfold indexOf
    cases hfind : (ofListings listings).findIdx? (·.contains cp) with
    | none =>
      have hnone := List.findIdx?_eq_none_iff.mp hfind _ (List.getElem_mem hlt)
      rw [List.getD_eq_getElem _ _ hlt, ← hmem _ (List.getElem_mem hlt), hnone] at hk
      cases hk
    | some j =>
      obtain ⟨hj, hc, -⟩ := List.findIdx?_eq_some_iff_getElem.mp hfind
      rw [Option.getD_some, List.getD_eq_getElem _ _ hj]
      exact (hmem _ (List.getElem_mem hj)).mp hc
  constructor
  · rintro rfl
    exact hfound
  · exact fun hi => index_unique hl hcp hfound hi

end Partition

/-! ## Categories -/

namespace Category

theorem number_lt (c : Category) : c.number < 30 := by
  cases c <;> decide

theorem number_lt_iff_ne_notAssigned (c : Category) : c.number < 29 ↔ c ≠ notAssigned := by
  cases c <;> decide

theorem getD_all_eq_iff {i : Nat} (hi : i < 30) (c : Category) :
    all.getD i notAssigned = c ↔ i = c.number := by
  have hall : ∀ i, i < 30 → (all.getD i notAssigned).number = i := by decide
  constructor
  · rintro rfl
    exact (hall i hi).symm
  · rintro rfl
    cases c <;> rfl

namespace Tables

variable {listings : List CodeSet} {cp : Nat}

/-- What is looked up is what is found. -/
theorem ofCodePoint_ofListings (listings : List CodeSet) (cp : Nat) :
    (ofListings listings).ofCodePoint cp = search (Partition.ofListings listings) cp := by
  unfold ofCodePoint ofListings
  split
  · rw [Vector.getElem_ofFn]
  · rfl

/-- The ranges of a category are in normal form. -/
theorem normal_ranges (hlength : listings.length = 29)
    (hl : ∀ l ∈ listings, ∀ r ∈ l.toList, r.Within) (c : Category) :
    ((ofListings listings).ranges c).Normal := by
  have hlt : c.number < (Partition.ofListings listings).length := by
    rw [Partition.ofListings, Partition.length_divide, hlength]
    exact c.number_lt
  have hmem : (ofListings listings).ranges c ∈ Partition.ofListings listings := by
    rw [ranges, ofListings, List.getD_eq_getElem _ _ hlt]
    exact List.getElem_mem hlt
  have hproper : ∀ l ∈ listings, Proper l.toList := fun l hm r hr => (hl l hm r hr).1
  exact .of_separated (Partition.separated_of_mem_divide hproper ordered_nil hmem)
    (Partition.within_of_mem_divide hl ordered_nil (by simp) hmem)

/-- A category has the code points of its listing that no listing before it has, and the last one
those in no listing. -/
theorem covers_ranges_iff (hlength : listings.length = 29) (hl : ∀ l ∈ listings, Proper l.toList)
    (c : Category) (hcp : cp ≤ maxCodePoint) :
    Covers ((ofListings listings).ranges c).toList cp ↔
      (∀ j < c.number, ¬Covers (listings.getD j #[]).toList cp) ∧
        (c ≠ notAssigned → Covers (listings.getD c.number #[]).toList cp) := by
  have hle : c.number ≤ 29 := Nat.le_of_lt_succ c.number_lt
  refine (Partition.covers_divide hl ordered_nil hcp c.number).trans ?_
  simp [hlength, hle, number_lt_iff_ne_notAssigned]

/-- A code point is of a category exactly if the ranges of the category hold it. -/
theorem ofCodePoint_eq_iff (hlength : listings.length = 29) (hl : ∀ l ∈ listings, Proper l.toList)
    (c : Category) (hcp : cp ≤ maxCodePoint) :
    (ofListings listings).ofCodePoint cp = c ↔
      Covers ((ofListings listings).ranges c).toList cp := by
  have hindex : ∀ i, (Partition.ofListings listings).indexOf cp = i ↔
      Covers ((Partition.ofListings listings).getD i #[]).toList cp :=
    fun i => Partition.indexOf_eq_iff hl hcp
  have hlt : (Partition.ofListings listings).indexOf cp < 30 := by
    have hcovers := (hindex _).mp rfl
    have hle := ((Partition.covers_divide hl ordered_nil hcp _).mp hcovers).1
    omega
  rw [ofCodePoint_ofListings, search, getD_all_eq_iff hlt, hindex]
  rfl

end Tables

theorem within_of_mem_listings : ∀ l ∈ listings, ∀ r ∈ l.toList, r.Within := by
  have hall : (Listing.all.all fun ends => (ofPacked ends).all fun r => decide r.Within) = true := by
    decide +kernel
  intro l hl
  obtain ⟨ends, hends, rfl⟩ := List.mem_map.mp hl
  intro r hr
  have hr := List.all_eq_true.mp (List.all_eq_true.mp hall ends hends) r hr
  exact of_decide_eq_true hr

theorem proper_of_mem_listings : ∀ l ∈ listings, Proper l.toList :=
  fun l hl r hr => (within_of_mem_listings l hl r hr).1

theorem length_listings : listings.length = 29 := rfl

/-- The ranges of a category follow each other. -/
theorem ordered_ranges (c : Category) : Ordered c.ranges.toList :=
  (Tables.normal_ranges length_listings within_of_mem_listings c).ordered

theorem within_ranges (c : Category) : ∀ r ∈ c.ranges.toList, r.Within :=
  (Tables.normal_ranges length_listings within_of_mem_listings c).within

/-- A code point is of a category exactly if the ranges of the category hold it. -/
theorem contains_iff_covers_ranges (c : Category) {cp : Nat} (hcp : cp ≤ maxCodePoint) :
    c.contains cp = true ↔ Covers c.ranges.toList cp := by
  rw [contains, beq_iff_eq]
  exact Tables.ofCodePoint_eq_iff length_listings proper_of_mem_listings c hcp

/-- A code point of each category, in the order of the numbers. -/
def samples : List Nat := [
  0x41, 0x61, 0x1C5, 0x2B0, 0xAA, 0x300, 0x903, 0x1ABE, 0x30, 0x16EE, 0xB2, 0x20, 0x2028, 0x2029,
  0x00, 0xAD, 0xD800, 0xE000, 0x5F, 0x2D, 0x28, 0x29, 0xAB, 0xBB, 0x21, 0x2B, 0x24, 0x5E, 0xA6, 0xB5]

/-- No category is empty. -/
theorem exists_covers_ranges (c : Category) :
    ∃ cp ≤ maxCodePoint, Covers c.ranges.toList cp := by
  -- the sample is in no listing before that of its category
  have hall : ∀ i < 30, samples.getD i 0 ≤ maxCodePoint ∧
      (∀ j < i, ¬ ∃ r ∈ ofPacked (Listing.all.getD j []), r.contains (samples.getD i 0) = true) ∧
      (i < 29 → ∃ r ∈ ofPacked (Listing.all.getD i []), r.contains (samples.getD i 0) = true) := by
    decide +kernel
  have hlisting : ∀ i, (listings.getD i #[]).toList = ofPacked (Listing.all.getD i []) := by
    intro i
    rw [listings, List.getD_eq_getElem?_getD, List.getElem?_map, List.getD_eq_getElem?_getD]
    cases Listing.all[i]? <;> rfl
  obtain ⟨hcp, hbefore, hthere⟩ := hall c.number c.number_lt
  refine ⟨samples.getD c.number 0, hcp, ?_⟩
  refine (Tables.covers_ranges_iff length_listings proper_of_mem_listings c hcp).mpr
    ⟨fun j hj => ?_, fun hne => ?_⟩
  · rw [hlisting]
    exact hbefore j hj
  · rw [hlisting]
    exact hthere (c.number_lt_iff_ne_notAssigned.mpr hne)

/-- Some code point is of the category, and some of any other. -/
theorem exists_covers_negateIf (c : Category) (negated : Bool) :
    ∃ cp, Covers (c.ranges.negateIf negated).toList cp := by
  cases negated with
  | false =>
    obtain ⟨cp, -, hcp⟩ := c.exists_covers_ranges
    exact ⟨cp, hcp⟩
  | true =>
    obtain ⟨other, hother⟩ : ∃ other : Category, other ≠ c := by
      by_cases h : c = .control
      · exact ⟨.format, by simp [h]⟩
      · exact ⟨.control, fun heq => h heq.symm⟩
    obtain ⟨cp, hcp, hcovers⟩ := other.exists_covers_ranges
    refine ⟨cp, (covers_negateIf c.ordered_ranges true hcp).mpr ?_⟩
    rw [← c.contains_iff_covers_ranges hcp, contains, beq_iff_eq]
    have hcontains := (other.contains_iff_covers_ranges hcp).mpr hcovers
    rw [contains, beq_iff_eq] at hcontains
    simp [hcontains, hother]

end Category

end FiberLex
