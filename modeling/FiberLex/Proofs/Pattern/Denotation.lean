import FiberLex.Proofs.Pattern.Language

/-!
# Patterns that were put together

A pattern that has been read is well-formed (`wellFormed_parse`). One that was put together part by
part may have repetitions that no reader makes: their bounds may be out of order, and bounds of zero
and zero count as no bounds at all. `denotation` is the language of a pattern with that exception,
and `Refused` tells which patterns have no automaton. A pattern has code as long as its bounds are
in order (`InOrder`), lazy or not.
-/

namespace FiberLex.Pattern

open CodeSet

/-- The upper bound that counts: bounds of zero and zero count as no bounds at all. -/
def upperBound (min : Nat) (max : Option Nat) : Option Nat :=
  if min = 0 ∧ max = some 0 then none else max

mutual

/-- The pattern with the upper bounds that count. -/
def opened : Pattern → Pattern
  | literal cp => literal cp
  | dot => dot
  | oneOf set negated => oneOf set negated
  | category cat negated => category cat negated
  | concat items => concat (openedAll items)
  | alt branches => alt (openedAll branches)
  | repetition body min max isLazy => repetition (opened body) min (upperBound min max) isLazy

/-- Several patterns with the upper bounds that count. -/
def openedAll : List Pattern → List Pattern
  | [] => []
  | p :: ps => opened p :: openedAll ps

end

theorem openedAll_eq_map (ps : List Pattern) : openedAll ps = ps.map opened := by
  induction ps with
  | nil => rfl
  | cons p ps ih => rw [openedAll, ih, List.map_cons]

/-- The texts that a pattern matches: a repetition matches between `min` and `max` copies of its
body, and any number of copies where both bounds are zero. -/
def denotation (p : Pattern) : Language Char := p.opened.language

/-- The sets of a pattern are ranges that follow each other, and its choices have branches. Its
repetitions may be any. -/
inductive Composed : Pattern → Prop where
  | literal (cp : Nat) : Composed (literal cp)
  | dot : Composed dot
  | oneOf {set : CodeSet} (h : Ordered set.toList) (negated : Bool) : Composed (oneOf set negated)
  | category (cat : Category) (negated : Bool) : Composed (category cat negated)
  | concat {items : List Pattern} (h : ∀ p ∈ items, Composed p) : Composed (concat items)
  | alt {branches : List Pattern} (hne : branches ≠ []) (h : ∀ p ∈ branches, Composed p) :
    Composed (alt branches)
  | repetition {body : Pattern} (h : Composed body) (min : Nat) (max : Option Nat)
      (isLazy : Bool) : Composed (repetition body min max isLazy)

/-- Some repetition of the pattern is lazy, or its least count exceeds its greatest. -/
inductive Refused : Pattern → Prop where
  | isLazy {body : Pattern} {min : Nat} {max : Option Nat} :
    Refused (repetition body min max true)
  | bounds {body : Pattern} {min max : Nat} {isLazy : Bool} (h : max < min) :
    Refused (repetition body min (some max) isLazy)
  | body {body : Pattern} {min : Nat} {max : Option Nat} {isLazy : Bool} (h : Refused body) :
    Refused (repetition body min max isLazy)
  | item {items : List Pattern} {p : Pattern} (hp : p ∈ items) (h : Refused p) :
    Refused (concat items)
  | branch {branches : List Pattern} {p : Pattern} (hp : p ∈ branches) (h : Refused p) :
    Refused (alt branches)

/-- No repetition of the pattern has a least count that exceeds its greatest. -/
inductive InOrder : Pattern → Prop where
  | literal (cp : Nat) : InOrder (literal cp)
  | dot : InOrder dot
  | oneOf (set : CodeSet) (negated : Bool) : InOrder (oneOf set negated)
  | category (cat : Category) (negated : Bool) : InOrder (category cat negated)
  | concat {items : List Pattern} (h : ∀ p ∈ items, InOrder p) : InOrder (concat items)
  | alt {branches : List Pattern} (h : ∀ p ∈ branches, InOrder p) : InOrder (alt branches)
  | repetition {body : Pattern} {min : Nat} {max : Option Nat} (h : InOrder body)
      (hbounds : ∀ m, max = some m → min ≤ m) (isLazy : Bool) :
    InOrder (repetition body min max isLazy)

theorem WellFormed.inOrder {p : Pattern} (h : p.WellFormed) : p.InOrder := by
  induction h with
  | literal cp => exact .literal cp
  | dot => exact .dot
  | oneOf _ negated => exact .oneOf _ negated
  | category cat negated => exact .category cat negated
  | concat _ ih => exact .concat ih
  | alt _ _ ih => exact .alt ih
  | repetition _ hbounds isLazy ih => exact .repetition ih (fun m hm => (hbounds m hm).1) isLazy

theorem Composed.inOrder {p : Pattern} (h : p.Composed) (hp : ¬ p.Refused) : p.InOrder := by
  induction h with
  | literal cp => exact .literal cp
  | dot => exact .dot
  | oneOf _ negated => exact .oneOf _ negated
  | category cat negated => exact .category cat negated
  | concat _ ih => exact .concat fun q hq => ih q hq fun hr => hp (.item hq hr)
  | alt _ _ ih => exact .alt fun q hq => ih q hq fun hr => hp (.branch hq hr)
  | repetition _ min max isLazy ih =>
    refine .repetition (ih fun hr => hp (.body hr)) ?_ isLazy
    rintro m rfl
    by_contra hlt
    exact hp (.bounds (by omega))

theorem upperBound_spec {min : Nat} {max : Option Nat} (h : ∀ m, max = some m → min ≤ m) :
    ∀ m, upperBound min max = some m → min ≤ m ∧ 0 < m := by
  intro m hm
  unfold upperBound at hm
  split at hm
  · cases hm
  · rename_i hzero
    have hle := h m hm
    refine ⟨hle, ?_⟩
    by_contra hpos
    have hm0 : m = 0 := by omega
    exact hzero ⟨by omega, hm0 ▸ hm⟩

theorem anyLazy_openedAll {ps : List Pattern} (h : ∀ p ∈ ps, p.opened.hasLazy = false) :
    anyLazy (openedAll ps) = false := by
  induction ps with
  | nil => rfl
  | cons p ps ih =>
    obtain ⟨hp, hps⟩ := List.forall_mem_cons.mp h
    rw [openedAll, anyLazy, hp, ih hps]
    rfl

/-- With the bounds that count, a pattern whose bounds are in order is well-formed. -/
theorem Composed.wellFormed_of_inOrder {p : Pattern} (h : p.Composed) (hp : p.InOrder) :
    p.opened.WellFormed := by
  induction h with
  | literal cp => exact .literal cp
  | dot => exact .dot
  | oneOf hset negated => exact .oneOf hset negated
  | category cat negated => exact .category cat negated
  | concat _ ih =>
    cases hp with
    | concat hitems =>
      rw [opened, openedAll_eq_map]
      exact .concat (List.forall_mem_map.mpr fun q hq => ih q hq (hitems q hq))
  | alt hne _ ih =>
    cases hp with
    | alt hbranches =>
      rw [opened, openedAll_eq_map]
      refine .alt (by simpa using hne) ?_
      exact List.forall_mem_map.mpr fun q hq => ih q hq (hbranches q hq)
  | repetition _ min max isLazy ih =>
    cases hp with
    | repetition hbody hbounds _ =>
      rw [opened]
      exact .repetition (ih hbody) (upperBound_spec hbounds) isLazy

/-- The bounds that count make no repetition lazy. -/
theorem Composed.hasLazy_opened {p : Pattern} (h : p.Composed) (hp : ¬ p.Refused) :
    p.opened.hasLazy = false := by
  induction h with
  | literal cp => rfl
  | dot => rfl
  | oneOf _ negated => rfl
  | category cat negated => rfl
  | concat _ ih =>
    rw [opened, hasLazy]
    exact anyLazy_openedAll fun q hq => ih q hq fun hr => hp (.item hq hr)
  | alt _ _ ih =>
    rw [opened, hasLazy]
    exact anyLazy_openedAll fun q hq => ih q hq fun hr => hp (.branch hq hr)
  | repetition _ min max isLazy ih =>
    rw [opened, hasLazy, ih fun hr => hp (.body hr), Bool.or_false]
    cases isLazy with
    | false => rfl
    | true => exact absurd .isLazy hp

/-- With the bounds that count, a pattern that is not refused is well-formed and has no lazy
repetition. -/
theorem Composed.wellFormed_opened {p : Pattern} (h : p.Composed) (hp : ¬ p.Refused) :
    p.opened.WellFormed ∧ p.opened.hasLazy = false :=
  ⟨h.wellFormed_of_inOrder (h.inOrder hp), h.hasLazy_opened hp⟩

end FiberLex.Pattern
