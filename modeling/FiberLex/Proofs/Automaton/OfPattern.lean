import FiberLex.Automaton.OfPattern
import FiberLex.Proofs.Automaton.Repetition

/-!
# Automata of patterns

Every well-formed pattern without lazy repetitions has an automaton, and the automaton accepts
exactly the texts of the pattern, with the symbol it is given.
-/

namespace FiberLex

open CodeSet

namespace Pattern

theorem anyLazy_eq_false_iff {ps : List Pattern} :
    anyLazy ps = false ↔ ∀ p ∈ ps, p.hasLazy = false := by
  induction ps with
  | nil => simp [anyLazy]
  | cons p ps ih => simp [anyLazy, ih]

theorem languageOfSequence_eq (ps : List Pattern) :
    languageOfSequence ps = (ps.map language).prod := by
  induction ps with
  | nil => rfl
  | cons p ps ih => rw [languageOfSequence, ih, List.map_cons, List.prod_cons]

theorem languageOfChoice_eq (ps : List Pattern) : languageOfChoice ps = (ps.map language).sum := by
  induction ps with
  | nil => rfl
  | cons p ps ih => rw [languageOfChoice, ih, List.map_cons, List.sum_cons]

/-- A sequence of literals matches the one text with their code points. -/
theorem languageOfSequence_of_literals {items : List Pattern} {cps : List Nat}
    (h : items.mapM literal? = some cps) : languageOfSequence items = Automaton.spelling cps := by
  induction items generalizing cps with
  | nil =>
    cases h
    ext w
    rw [languageOfSequence, Automaton.mem_spelling, Language.mem_one, List.reverse_nil,
      List.map_eq_nil_iff]
  | cons p items ih =>
    rw [List.mapM_cons] at h
    obtain ⟨cp, hcp, h⟩ := Option.bind_eq_some_iff.mp h
    obtain ⟨rest, hrest, h⟩ := Option.bind_eq_some_iff.mp h
    cases h
    have hp : p.language = oneChar (· = cp) := by
      cases p <;> cases hcp
      rw [language]
    ext w
    rw [languageOfSequence, ih hrest, hp, Language.mem_mul, Automaton.mem_spelling,
      List.map_eq_cons_iff]
    constructor
    · rintro ⟨u, ⟨c, rfl, hc⟩, v, hv, rfl⟩
      exact ⟨c, v, rfl, hc, hv⟩
    · rintro ⟨c, v, rfl, hc, hv⟩
      exact ⟨[c], ⟨c, rfl, hc⟩, v, hv, rfl⟩

end Pattern

namespace Automaton

variable {symbol : Option Int}

theorem Recognizes.congr {a : Automaton} {l l' : Language Char} (h : a.Recognizes l symbol)
    (hl : ∀ w, w ∈ l ↔ w ∈ l') : a.Recognizes l' symbol :=
  ⟨h.valid, fun w s => by rw [h.yields_iff, hl]⟩

/-- Automata of several patterns, each of which has one. -/
theorem exists_ofPatterns {ps : List Pattern}
    (h : ∀ p ∈ ps, ∃ a, ofPattern p none = .ok a ∧ a.Recognizes p.language none) :
    ∃ parts, ofPatterns ps = .ok parts ∧ (∀ a ∈ parts, a.Valid) ∧
      parts.map texts = ps.map Pattern.language := by
  induction ps with
  | nil => exact ⟨[], by rw [ofPatterns], by simp, rfl⟩
  | cons p ps ih =>
    obtain ⟨⟨a, ha, hrec⟩, hps⟩ := List.forall_mem_cons.mp h
    obtain ⟨parts, hparts, hvalid, htexts⟩ := ih hps
    refine ⟨a :: parts, ?_, List.forall_mem_cons.mpr ⟨hrec.valid, hvalid⟩, ?_⟩
    · rw [ofPatterns, ha, hparts]
      rfl
    · rw [List.map_cons, List.map_cons, hrec.texts_eq, htexts]

/-- A well-formed pattern without lazy repetitions has an automaton of exactly its texts. -/
theorem exists_ofPattern {p : Pattern} (h : p.WellFormed) (hlazy : p.hasLazy = false)
    (symbol : Option Int) :
    ∃ a, ofPattern p symbol = .ok a ∧ a.Recognizes p.language symbol := by
  induction h generalizing symbol with
  | literal cp =>
    refine ⟨_, by rw [ofPattern], (recognizes_ofCodePoints [cp] symbol).congr fun w => ?_⟩
    rw [Pattern.language, Pattern.mem_oneChar, mem_spelling]
    simp [List.map_eq_cons_iff]
  | dot =>
    refine ⟨_, by rw [ofPattern], (recognizes_ofSet Pattern.dotSet symbol).congr fun w => ?_⟩
    rw [Pattern.language, Pattern.mem_oneChar]
    refine exists_congr fun c => and_congr_right fun _ => iff_of_true ?_ trivial
    have hvalid := c.valid
    simp only [UInt32.isValidChar, Nat.isValidChar] at hvalid
    simp only [Pattern.dotSet, covers_cons, covers_nil, or_false, maxCodePoint, Char.toNat]
    omega
  | @oneOf set hset negated =>
    refine ⟨_, by rw [ofPattern], (recognizes_ofSet _ symbol).congr fun w => ?_⟩
    rw [Pattern.language, Pattern.mem_oneChar]
    refine exists_congr fun c => and_congr_right fun _ => ?_
    exact covers_negateIf hset negated (Char.toNat_le_maxCodePoint c)
  | category cat negated =>
    refine ⟨_, by rw [ofPattern], (recognizes_ofSet _ symbol).congr fun w => ?_⟩
    rw [Pattern.language, Pattern.mem_oneChar]
    refine exists_congr fun c => and_congr_right fun _ => ?_
    have hc := Char.toNat_le_maxCodePoint c
    rw [covers_negateIf cat.ordered_ranges negated hc, cat.contains_iff_covers_ranges hc]
  | @concat items _ ih =>
    rw [Pattern.hasLazy, Pattern.anyLazy_eq_false_iff] at hlazy
    cases hlit : items.mapM Pattern.literal? with
    | some cps =>
      refine ⟨ofCodePoints cps symbol, by rw [ofPattern, hlit], ?_⟩
      rw [Pattern.language, Pattern.languageOfSequence_of_literals hlit]
      exact recognizes_ofCodePoints cps symbol
    | none =>
      obtain ⟨parts, hparts, hvalid, htexts⟩ := exists_ofPatterns fun p hp => ih p hp (hlazy p hp) none
      refine ⟨concat parts symbol, by rw [ofPattern, hlit, hparts]; rfl, ?_⟩
      rw [Pattern.language, Pattern.languageOfSequence_eq, ← htexts]
      exact recognizes_concat hvalid symbol
  | @alt branches hne _ ih =>
    rw [Pattern.hasLazy, Pattern.anyLazy_eq_false_iff] at hlazy
    obtain ⟨parts, hparts, hvalid, htexts⟩ := exists_ofPatterns fun p hp => ih p hp (hlazy p hp) none
    have hparts_ne : parts ≠ [] := by
      rintro rfl
      exact hne (List.map_eq_nil_iff.mp htexts.symm)
    refine ⟨choice parts symbol, by rw [ofPattern, hparts]; rfl, ?_⟩
    rw [Pattern.language, Pattern.languageOfChoice_eq, ← htexts]
    exact recognizes_choice hvalid hparts_ne symbol
  | @repetition body min max _ hbounds isLazy ih =>
    rw [Pattern.hasLazy, Bool.or_eq_false_iff] at hlazy
    obtain ⟨part, hpart, hrec⟩ := ih hlazy.2 none
    obtain ⟨a, ha, hrep⟩ := recognizes_repeated hrec.valid hbounds symbol
    rw [hrec.texts_eq] at hrep
    refine ⟨a, ?_, ?_⟩
    · rw [ofPattern, hlazy.1, hpart]
      exact ha
    · rw [Pattern.language]
      exact hrep

end Automaton

end FiberLex
