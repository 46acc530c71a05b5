import FiberLex.Scan
import Mathlib.Data.Finset.Card
import Mathlib.Data.Finset.Powerset
import Mathlib.Data.List.Forall2
import Mathlib.Data.List.Sort
import Mathlib.Tactic.Common

/-!
# Lists without repetition and in order

Facts about erasing repetitions and sorting that the automata rest on: erasing repetitions leaves
none, and sorting a list of distinct numbers makes it strictly ascending, so that two sets of
numbers have the same ascending list exactly if they have the same members. A function that can fail
is applied to the members of a list one by one, and the first failure is what is left of it.
-/

namespace FiberLex

theorem nodup_eraseDups {α : Type} [BEq α] [LawfulBEq α] (l : List α) : l.eraseDups.Nodup := by
  induction hn : l.length using Nat.strong_induction_on generalizing l with
  | _ n ih =>
    cases l with
    | nil => simp
    | cons x xs =>
      rw [List.eraseDups_cons, List.nodup_cons]
      have hlen : (xs.filter fun y => !y == x).length < n := by
        have := List.length_filter_le (fun y => !y == x) xs
        simp only [List.length_cons] at hn
        omega
      refine ⟨fun hmem => ?_, ih _ hlen _ rfl⟩
      have hmem := List.mem_eraseDups.mp hmem
      simp at hmem

/-- Strictly ascending. -/
def Ascending (l : List Nat) : Prop := l.Pairwise (· < ·)

theorem Ascending.nodup {l : List Nat} (h : Ascending l) : l.Nodup :=
  List.Pairwise.imp (fun hlt => Nat.ne_of_lt hlt) h

/-- Sorting distinct numbers makes them strictly ascending. -/
theorem ascending_mergeSort {l : List Nat} (h : l.Nodup) : Ascending l.mergeSort := by
  have hsorted : l.mergeSort.Pairwise (fun x y => decide (x ≤ y) = true) :=
    List.pairwise_mergeSort (fun x y z hxy hyz => by simp at *; omega) (fun x y => by simp; omega) l
  have hnodup : l.mergeSort.Nodup := (List.mergeSort_perm l _).nodup_iff.mpr h
  refine (hsorted.and hnodup).imp ?_
  rintro x y ⟨hle, hne⟩
  simp at hle
  omega

/-- Strictly ascending lists with the same members are the same. -/
theorem Ascending.eq_of_mem_iff {l l' : List Nat} (h : Ascending l) (h' : Ascending l')
    (hmem : ∀ i, i ∈ l ↔ i ∈ l') : l = l' := by
  have hperm : l.Perm l' := (List.perm_ext_iff_of_nodup h.nodup h'.nodup).mpr hmem
  have hanti : ∀ x y : Nat, x ∈ l → y ∈ l' → x < y → y < x → x = y := by
    intro x y _ _ hxy hyx
    omega
  exact hperm.eq_of_pairwise hanti h h'

/-- There are no more strictly ascending lists of numbers below `n` than there are subsets. -/
theorem length_le_two_pow {n : Nat} {ls : List (List Nat)} (hnodup : ls.Nodup)
    (hasc : ∀ l ∈ ls, Ascending l) (hlt : ∀ l ∈ ls, ∀ i ∈ l, i < n) : ls.length ≤ 2 ^ n := by
  have hmap : (ls.map List.toFinset).Nodup := by
    refine List.Nodup.map_on ?_ hnodup
    intro l hl l' hl' heq
    refine (hasc l hl).eq_of_mem_iff (hasc l' hl') fun i => ?_
    rw [← List.mem_toFinset, heq, List.mem_toFinset]
  have hsub : (ls.map List.toFinset).toFinset ⊆ (Finset.range n).powerset := by
    intro t ht
    obtain ⟨l, hl, rfl⟩ := List.mem_map.mp (List.mem_toFinset.mp ht)
    rw [Finset.mem_powerset]
    intro i hi
    exact Finset.mem_range.mpr (hlt l hl i (List.mem_toFinset.mp hi))
  have hcard := Finset.card_le_card hsub
  rw [List.toFinset_card_of_nodup hmap, Finset.card_powerset, Finset.card_range,
    List.length_map] at hcard
  exact hcard

/-- A list without repetition whose only member is `x`. -/
theorem eq_singleton_of_nodup {α : Type} {l : List α} {x : α} (h : l.Nodup)
    (hmem : ∀ y, y ∈ l ↔ y = x) : l = [x] := by
  have hperm : l.Perm [x] :=
    (List.perm_ext_iff_of_nodup h (List.nodup_singleton x)).mpr fun y => by simp [hmem]
  exact List.perm_singleton.mp hperm

/-- The first member with a property is the head, or the first of the tail if the head has it
not. -/
theorem exists_first_cons_iff {α : Type} {P Q : α → Prop} {x : α} {l : List α} :
    (∃ before y after, x :: l = before ++ y :: after ∧ Q y ∧ P y ∧ ∀ z ∈ before, ¬ P z) ↔
      (Q x ∧ P x) ∨ (¬ P x ∧
        ∃ before y after, l = before ++ y :: after ∧ Q y ∧ P y ∧ ∀ z ∈ before, ¬ P z) := by
  constructor
  · rintro ⟨before, y, after, heq, hQ, hP, hbefore⟩
    cases before with
    | nil =>
      obtain ⟨rfl, rfl⟩ := List.cons.inj heq
      exact Or.inl ⟨hQ, hP⟩
    | cons b before =>
      obtain ⟨rfl, rfl⟩ := List.cons.inj heq
      obtain ⟨hx, hbefore⟩ := List.forall_mem_cons.mp hbefore
      exact Or.inr ⟨hx, before, y, after, rfl, hQ, hP, hbefore⟩
  · rintro (⟨hQ, hP⟩ | ⟨hx, before, y, after, rfl, hQ, hP, hbefore⟩)
    · exact ⟨[], x, l, rfl, hQ, hP, by simp⟩
    · exact ⟨x :: before, y, after, rfl, hQ, hP, List.forall_mem_cons.mpr ⟨hx, hbefore⟩⟩

/-! ## Functions that can fail -/

section MapM

variable {α β ε : Type} {f : α → Except ε β} {xs : List α}

theorem mapM_eq_ok_iff {ys : List β} :
    xs.mapM f = .ok ys ↔ List.Forall₂ (fun x y => f x = .ok y) xs ys := by
  induction xs generalizing ys with
  | nil =>
    rw [List.forall₂_nil_left_iff]
    constructor
    · intro h
      cases h
      rfl
    · rintro rfl
      rfl
  | cons x xs ih =>
    rw [List.mapM_cons, List.forall₂_cons_left_iff]
    constructor
    · intro h
      obtain ⟨y, hy, h⟩ := Scan.bind_eq_ok.mp h
      obtain ⟨rest, hrest, h⟩ := Scan.bind_eq_ok.mp h
      cases h
      exact ⟨y, rest, hy, ih.mp hrest, rfl⟩
    · rintro ⟨y, rest, hy, hrest, rfl⟩
      rw [hy, ih.mpr hrest]
      rfl

/-- A failure is that of a member. -/
theorem exists_of_mapM_eq_error {e : ε} (h : xs.mapM f = .error e) : ∃ x ∈ xs, f x = .error e := by
  induction xs with
  | nil => cases h
  | cons x xs ih =>
    rw [List.mapM_cons] at h
    rcases Scan.bind_eq_error.mp h with hx | ⟨y, -, h⟩
    · exact ⟨x, List.mem_cons_self, hx⟩
    · rcases Scan.bind_eq_error.mp h with hxs | ⟨rest, -, h⟩
      · obtain ⟨z, hz, hfail⟩ := ih hxs
        exact ⟨z, List.mem_cons_of_mem _ hz, hfail⟩
      · cases h

theorem exists_mapM_eq_ok (h : ∀ x ∈ xs, ∃ y, f x = .ok y) : ∃ ys, xs.mapM f = .ok ys := by
  cases hys : xs.mapM f with
  | ok ys => exact ⟨ys, rfl⟩
  | error e =>
    obtain ⟨x, hx, hfail⟩ := exists_of_mapM_eq_error hys
    obtain ⟨y, hy⟩ := h x hx
    rw [hfail] at hy
    cases hy

/-- Each result is that of a member. -/
theorem exists_of_mem_mapM {ys : List β} (h : xs.mapM f = .ok ys) {y : β} (hy : y ∈ ys) :
    ∃ x ∈ xs, f x = .ok y := by
  have hpairs := mapM_eq_ok_iff.mp h
  obtain ⟨k, hk, rfl⟩ := List.mem_iff_getElem.mp hy
  have hlt : k < xs.length := hpairs.length_eq ▸ hk
  exact ⟨xs[k], List.getElem_mem hlt, hpairs.get hlt hk⟩

/-- If no member fails, what is left are the results. -/
theorem mapM_eq_ok_map {g : α → β} (h : ∀ x ∈ xs, f x = .ok (g x)) :
    xs.mapM f = .ok (xs.map g) := by
  rw [mapM_eq_ok_iff, List.forall₂_map_right_iff, List.forall₂_same]
  exact h

end MapM

end FiberLex
