import FiberLex.Proofs.Automaton.Exactness
import FiberLex.Proofs.Program.Targets
import Mathlib.Data.List.Permutation

/-!
# The form of patterns that have been read

A pattern that has been read is canonical: literals and the ends of ranges are code points, sets are
in normal form, a sequence never has just one item and a choice never fewer than two branches, and a
repetition allows a copy, has its bounds in order and is lazy only where that is allowed. All that
searches sets or turns patterns into code and automata relies on this form (`parse_canonical`): a
pattern that has been read has code, none of whose targets is behind its end, and it has an automaton
unless one of its repetitions is lazy.
-/

namespace FiberLex

open CodeSet

namespace Pattern

/-- Everywhere in the pattern code points are within bounds, sets in normal form and bounds in order,
nothing is put together that needs no putting together, and repetitions are lazy only if that is
allowed. -/
inductive Canonical (allowLazy : Bool) : Pattern → Prop where
  | literal {cp : Nat} (h : cp ≤ maxCodePoint) : Canonical allowLazy (literal cp)
  | dot : Canonical allowLazy dot
  | oneOf {set : CodeSet} (h : set.Normal) (negated : Bool) : Canonical allowLazy (oneOf set negated)
  | category (cat : Category) (negated : Bool) : Canonical allowLazy (category cat negated)
  | concat {items : List Pattern} (hlength : items.length ≠ 1)
      (h : ∀ p ∈ items, Canonical allowLazy p) : Canonical allowLazy (concat items)
  | alt {branches : List Pattern} (hlength : 2 ≤ branches.length)
      (h : ∀ p ∈ branches, Canonical allowLazy p) : Canonical allowLazy (alt branches)
  | repetition {body : Pattern} {min : Nat} {max : Option Nat} {isLazy : Bool}
      (h : Canonical allowLazy body) (hbounds : ∀ m, max = some m → min ≤ m) (hmax : max ≠ some 0)
      (hlazy : isLazy = true → allowLazy = true) :
    Canonical allowLazy (repetition body min max isLazy)

/-! ## What the reader makes -/

section Reading

variable {allowLazy : Bool}

theorem Atomic.canonical {p : Pattern} (h : p.Atomic) : p.Canonical allowLazy := by
  cases h with
  | literal h => exact .literal h
  | dot => exact .dot
  | ofRanges h negated => exact .oneOf (normal_ofRanges h.within) negated
  | category cat negated => exact .category cat negated

theorem canonical_sequence {items : List Pattern} (h : ∀ p ∈ items, p.Canonical allowLazy) :
    (sequence items).Canonical allowLazy := by
  unfold sequence
  split
  · exact h _ (by simp)
  · rename_i hsingle
    refine .concat (fun hlength => ?_) h
    obtain ⟨p, rfl⟩ := List.length_eq_one_iff.mp hlength
    exact hsingle p rfl

theorem canonical_choice {branches : List Pattern} (hne : branches ≠ [])
    (h : ∀ p ∈ branches, p.Canonical allowLazy) : (choice branches).Canonical allowLazy := by
  unfold choice
  split
  · exact h _ (by simp)
  · rename_i hsingle
    refine .alt ?_ h
    match branches with
    | [] => exact absurd rfl hne
    | [p] => exact absurd rfl (hsingle p)
    | p :: q :: rest => simp

theorem Canonical.modified {p : Pattern} (h : p.Canonical allowLazy) {bounds : Nat × Option Nat}
    {isLazy : Bool} (hbounds : ∀ m, bounds.2 = some m → bounds.1 ≤ m)
    (hlazy : isLazy = true → allowLazy = true) :
    (modified p bounds isLazy).Canonical allowLazy := by
  unfold Pattern.modified
  split
  · exact .concat (by simp) (by simp)
  · rename_i hzero
    exact .repetition h hbounds hzero hlazy

theorem keptByReader_canonical : KeptByReader allowLazy (Canonical allowLazy) where
  atom := Atomic.canonical
  modified h := h.modified
  sequence := canonical_sequence
  choice := canonical_choice

theorem Canonical.wellFormed {p : Pattern} (h : p.Canonical allowLazy) : p.WellFormed := by
  induction h with
  | literal _ => exact .literal _
  | dot => exact .dot
  | oneOf hset negated => exact .oneOf hset.ordered negated
  | category cat negated => exact .category cat negated
  | concat _ _ ih => exact .concat ih
  | alt hlength _ ih =>
    refine .alt ?_ ih
    rintro rfl
    cases hlength
  | repetition _ hbounds hmax _ ih =>
    refine .repetition ih (fun m hm => ⟨hbounds m hm, ?_⟩) _
    rcases Nat.eq_zero_or_pos m with rfl | hpos
    · exact absurd hm hmax
    · exact hpos

end Reading

end Pattern

/-! ## What has no automaton -/

namespace Automaton

open Pattern

variable {p : Pattern} {symbol : Option Int} {e : BuildError}

theorem exists_of_anyLazy {ps : List Pattern} (h : anyLazy ps = true) :
    ∃ q ∈ ps, q.hasLazy = true := by
  by_contra hnone
  push Not at hnone
  simp only [ne_eq, Bool.not_eq_true] at hnone
  rw [anyLazy_eq_false_iff.mpr hnone] at h
  cases h

theorem refused_of_hasLazy (h : p.InOrder) (hlazy : p.hasLazy = true) : p.Refused := by
  induction h with
  | literal cp => cases hlazy
  | dot => cases hlazy
  | oneOf set negated => cases hlazy
  | category cat negated => cases hlazy
  | concat _ ih =>
    rw [hasLazy] at hlazy
    obtain ⟨q, hq, hlazy⟩ := exists_of_anyLazy hlazy
    exact .item hq (ih q hq hlazy)
  | alt _ ih =>
    rw [hasLazy] at hlazy
    obtain ⟨q, hq, hlazy⟩ := exists_of_anyLazy hlazy
    exact .branch hq (ih q hq hlazy)
  | repetition _ _ isLazy ih =>
    rw [hasLazy, Bool.or_eq_true] at hlazy
    rcases hlazy with rfl | hlazy
    · exact .isLazy
    · exact .body (ih hlazy)

/-- With bounds in order, only lazy repetitions stand in the way of an automaton. -/
theorem eq_lazyRepetition_of_ofPattern (h : p.InOrder) (he : ofPattern p symbol = .error e) :
    e = .lazyRepetition := by
  induction h generalizing symbol with
  | literal cp => cases he
  | dot => cases he
  | oneOf set negated => cases he
  | category cat negated => cases he
  | concat _ ih =>
    rw [ofPattern] at he
    split at he
    · cases he
    · rcases Scan.bind_eq_error.mp he with hparts | ⟨parts, -, he⟩
      · obtain ⟨q, hq, herror⟩ := exists_of_ofPatterns_eq_error hparts
        exact ih q hq herror
      · cases he
  | alt _ ih =>
    rw [ofPattern] at he
    rcases Scan.bind_eq_error.mp he with hparts | ⟨parts, -, he⟩
    · obtain ⟨q, hq, herror⟩ := exists_of_ofPatterns_eq_error hparts
      exact ih q hq herror
    · cases he
  | @repetition body min max _ hbounds isLazy ih =>
    rw [ofPattern] at he
    split at he
    · cases he
      rfl
    · rcases Scan.bind_eq_error.mp he with hbody | ⟨part, -, he⟩
      · exact ih hbody
      · obtain ⟨m, rfl, hlt, -⟩ := repeated_eq_error_iff.mp he
        have := hbounds m rfl
        omega

/-- A well-formed pattern has an automaton exactly if it has no lazy repetition. -/
theorem ofPattern_eq_error_iff (h : p.WellFormed) :
    ofPattern p symbol = .error e ↔ p.hasLazy = true ∧ e = .lazyRepetition := by
  constructor
  · intro he
    refine ⟨?_, eq_lazyRepetition_of_ofPattern h.inOrder he⟩
    by_contra hlazy
    obtain ⟨a, ha, -⟩ := exists_ofPattern h (Bool.eq_false_iff.mpr hlazy) symbol
    rw [he] at ha
    cases ha
  · rintro ⟨hlazy, rfl⟩
    obtain ⟨e, he⟩ := exists_error_of_refused (refused_of_hasLazy h.inOrder hlazy) symbol
    rw [he, eq_lazyRepetition_of_ofPattern h.inOrder he]

end Automaton

/-! ## Patterns that have been read -/

namespace Pattern

/-- **Patterns that have been read.** A pattern that has been read is canonical. So it has code, whose
targets are no further than its end, and it has an automaton unless some repetition is lazy, which is
then the reason why it has none. -/
theorem parse_canonical {text : String} {allowLazy : Bool} {p : Pattern}
    (h : parse text allowLazy = .ok p) :
    p.Canonical allowLazy ∧
      (∃ code, Program.ofPattern p = .ok code ∧ ∀ i ∈ code, ∀ t ∈ i.targets, t ≤ code.length) ∧
      ∀ symbol e, Automaton.ofPattern p symbol = .error e ↔
        p.hasLazy = true ∧ e = .lazyRepetition := by
  have hcanonical : p.Canonical allowLazy := keptByReader_canonical.parse h
  have hform := hcanonical.wellFormed
  refine ⟨hcanonical, ?_, fun symbol e => Automaton.ofPattern_eq_error_iff hform⟩
  obtain ⟨code, hcode, htargets⟩ := Program.fits_code hform.inOrder 0
  refine ⟨code, hcode, fun i hi t ht => ?_⟩
  have := htargets i hi t ht
  omega

/-- A lazy repetition of a class with ranges that touch, or else an optional group. -/
theorem parse_canonical_touching :
    let p := alt [repetition (oneOf #[⟨97, 102⟩, ⟨120, 120⟩] true) 1 none true,
      repetition (concat [literal 97, dot]) 0 (some 1) false]
    parse "[^d-fxa-c]+?|(a.)?" true = .ok p ∧ p.Canonical true ∧
      (∃ code, Program.ofPattern p = .ok code ∧ ∀ i ∈ code, ∀ t ∈ i.targets, t ≤ code.length) ∧
      ∀ symbol e, Automaton.ofPattern p symbol = .error e ↔
        p.hasLazy = true ∧ e = .lazyRepetition := by
  intro p
  have hclass : readBracket "^d-fxa-c]+?|(a.)?".toList =
      .ok (oneOf #[⟨97, 102⟩, ⟨120, 120⟩] true, "+?|(a.)?".toList) := by cbv
  have hstep : readStep true {} '[' "^d-fxa-c]+?|(a.)?".toList =
      .ok (⟨⟨[], [oneOf #[⟨97, 102⟩, ⟨120, 120⟩] true]⟩, []⟩, "+?|(a.)?".toList) :=
    Scan.bind_eq_ok.mpr ⟨_, hclass, rfl⟩
  have hparse : parse "[^d-fxa-c]+?|(a.)?" true = .ok p :=
    parse_eq_ok_iff.mpr ((readGroups_of_readStep hstep).trans (by cbv))
  exact ⟨hparse, parse_canonical hparse⟩

end Pattern

end FiberLex
