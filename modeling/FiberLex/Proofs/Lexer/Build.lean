import FiberLex.Proofs.Automaton.Duplicates
import FiberLex.Proofs.Automaton.OfPattern
import FiberLex.Proofs.Lexer.MergeRules
import FiberLex.Proofs.Program.Outcome
import Mathlib

/-!
# Lexers of regular rules

A rule is regular if it is a pattern without lazy repetitions, or a literal text, and its symbol is
not negative. A lexer of regular rules can always be built. All its rules are merged into one
automaton (`merge`), and what its program finds at the beginning of a text is the outcome of that
automaton (`exists_build`).
-/

namespace FiberLex

/-- A rule matches a text: the text is in the language of its pattern, or is its literal text. -/
inductive Rule.Matches : Rule → List Char → Prop where
  | pattern {symbol : Int} {text : String} {p : Pattern} {w : List Char}
      (hparse : Pattern.parse text = .ok p) (hw : w ∈ p.language) :
    Rule.Matches ⟨symbol, .pattern text⟩ w
  | literal {symbol : Int} {text : String} : Rule.Matches ⟨symbol, .literal text⟩ text.toList

/-- The rule is a pattern that can be read and has no lazy repetition, or a literal text, and its
symbol is not negative. -/
inductive Rule.Regular : Rule → Prop where
  | pattern {symbol : Int} {text : String} {p : Pattern} (hsymbol : 0 ≤ symbol)
      (hparse : Pattern.parse text = .ok p) (hlazy : p.hasLazy = false) :
    Rule.Regular ⟨symbol, .pattern text⟩
  | literal {symbol : Int} {text : String} (hsymbol : 0 ≤ symbol) :
    Rule.Regular ⟨symbol, .literal text⟩

theorem Rule.Regular.symbol_nonneg {r : Rule} (h : r.Regular) : 0 ≤ r.symbol := by
  cases h with
  | pattern hsymbol _ _ => exact hsymbol
  | literal hsymbol => exact hsymbol

/-- Whether a rule is regular. -/
def Rule.isRegular (r : Rule) : Bool :=
  decide (0 ≤ r.symbol) &&
    match r.body with
    | .pattern text =>
      match Pattern.parse text with
      | .ok p => !p.hasLazy
      | .error _ => false
    | .literal _ => true
    | .patternAnyCase _ | .program _ => false

theorem Rule.isRegular_iff {r : Rule} : r.isRegular = true ↔ r.Regular := by
  constructor
  · intro h
    obtain ⟨symbol, body⟩ := r
    rw [isRegular, Bool.and_eq_true, decide_eq_true_eq] at h
    obtain ⟨hsymbol, hbody⟩ := h
    cases body with
    | pattern text =>
      cases hparse : Pattern.parse text with
      | ok p => exact .pattern hsymbol hparse (by simpa [hparse] using hbody)
      | error e => simp [hparse] at hbody
    | literal text => exact .literal hsymbol
    | patternAnyCase text => cases hbody
    | program body => cases hbody
  · intro h
    cases h with
    | pattern hsymbol hparse hlazy => simp [isRegular, hsymbol, hparse, hlazy]
    | literal hsymbol => simp [isRegular, hsymbol]

instance (r : Rule) : Decidable r.Regular := decidable_of_iff _ Rule.isRegular_iff

theorem regular_of_all {rules : List Rule} (h : rules.all Rule.isRegular = true) :
    ∀ r ∈ rules, r.Regular := fun r hr => Rule.isRegular_iff.mp (List.all_eq_true.mp h r hr)

theorem map_toNat_eq_iff {u v : List Char} : u.map Char.toNat = v.map Char.toNat ↔ u = v :=
  List.map_inj_right fun _ _ h => Char.toNat_inj.mp h

namespace Lexer

open Automaton Program

variable {rules : List Rule} {w : List Char}

/-! ## Rules as automata -/

/-- A regular rule becomes an automaton that accepts what the rule matches. -/
theorem exists_lower {r : Rule} (h : r.Regular) :
    ∃ a, lower true r = .ok (.automaton a) ∧ a.Valid ∧ ∀ w, w ∈ a.texts ↔ r.Matches w := by
  cases h with
  | @pattern symbol text p hsymbol hparse hlazy =>
    obtain ⟨a, ha, hrec⟩ :=
      exists_ofPattern (Pattern.wellFormed_parse hparse) hlazy (some symbol)
    refine ⟨a, ?_, hrec.valid, fun w => ?_⟩
    · simp [lower, hparse, Except.mapError, hlazy, ha, bind, Except.bind]
    · rw [hrec.texts_eq]
      constructor
      · exact .pattern hparse
      · rintro (⟨hparse', hw⟩)
        obtain rfl := Except.ok.inj (hparse.symm.trans hparse')
        exact hw
  | @literal symbol text hsymbol =>
    have hrec := recognizes_ofCodePoints (text.toList.map Char.toNat) (some symbol)
    refine ⟨_, rfl, hrec.valid, fun w => ?_⟩
    rw [hrec.texts_eq, mem_spelling, map_toNat_eq_iff]
    constructor
    · rintro rfl
      exact .literal
    · rintro ⟨⟩
      rfl

/-- The automaton of a rule that becomes one. -/
def automaton? (r : Rule) : Option (Int × Automaton) :=
  match lower true r with
  | .ok (.automaton a) => some (r.symbol, a)
  | _ => none

/-- The automata of rules. -/
def automata (rules : List Rule) : List (Int × Automaton) := rules.filterMap automaton?

/-- The one automaton of all rules. -/
def merge (rules : List Rule) : Automaton := (mergeRules (automata rules)).1

theorem automaton?_eq {r : Rule} {a : Automaton} (h : lower true r = .ok (.automaton a)) :
    automaton? r = some (r.symbol, a) := by
  rw [automaton?, h]

/-- Automata that wait to be merged become one fragment. -/
theorem flush_eq {pending : List (Int × Automaton)} (h : ∀ q ∈ pending, q.2.Valid)
    (hne : pending ≠ []) :
    flush pending = .ok ([codeOf (mergeRules pending).1], (mergeRules pending).2) := by
  obtain ⟨-, hsym, -⟩ := mergeRules_spec h
  rw [flush, if_neg (by simpa using hne)]
  change ((ofAutomaton (mergeRules pending).1).mapError LexerError.build).bind _ = _
  rw [ofAutomaton_eq hsym]
  rfl

/-- Regular rules are all merged. -/
theorem fragments_eq_flush (h : ∀ r ∈ rules, r.Regular) (pending : List (Int × Automaton)) :
    fragments true pending rules = flush (pending ++ automata rules) := by
  induction rules generalizing pending with
  | nil => simp [fragments, automata]
  | cons r rules ih =>
    obtain ⟨hr, hrules⟩ := List.forall_mem_cons.mp h
    obtain ⟨a, ha, -, -⟩ := exists_lower hr
    have hsymbol := hr.symbol_nonneg
    rw [fragments, if_neg (by omega), ha]
    change fragments true (pending ++ [(r.symbol, a)]) rules = _
    rw [ih hrules, automata, automata, List.filterMap_cons, automaton?_eq ha, List.append_assoc]
    rfl

theorem valid_of_mem_automata (h : ∀ r ∈ rules, r.Regular) :
    ∀ q ∈ automata rules, q.2.Valid := by
  intro q hq
  obtain ⟨r, hr, heq⟩ := List.mem_filterMap.mp hq
  obtain ⟨a, ha, hvalid, -⟩ := exists_lower (h r hr)
  rw [automaton?_eq ha] at heq
  cases heq
  exact hvalid

/-- The first rule that matches a text is the one with the given symbol. -/
def FirstMatch (rules : List Rule) (w : List Char) (symbol : Int) : Prop :=
  ∃ before rule after, rules = before ++ rule :: after ∧ rule.symbol = symbol ∧ rule.Matches w ∧
    ∀ r ∈ before, ¬ r.Matches w

/-- The first automaton with a text is that of the first rule that matches it. -/
theorem isFirst_automata_iff (h : ∀ r ∈ rules, r.Regular) {symbol : Int} :
    IsFirst (automata rules) w symbol ↔ FirstMatch rules w symbol := by
  induction rules with
  | nil => simp [IsFirst, FirstMatch, automata]
  | cons r rules ih =>
    obtain ⟨hr, hrules⟩ := List.forall_mem_cons.mp h
    obtain ⟨a, ha, -, htexts⟩ := exists_lower hr
    have hcons : automata (r :: rules) = (r.symbol, a) :: automata rules := by
      rw [automata, automata, List.filterMap_cons, automaton?_eq ha]
    unfold IsFirst FirstMatch at ih ⊢
    rw [hcons, exists_first_cons_iff, exists_first_cons_iff, ih hrules]
    simp only [htexts]

theorem exists_firstMatch_iff : (∃ symbol, FirstMatch rules w symbol) ↔ ∃ r ∈ rules, r.Matches w := by
  constructor
  · rintro ⟨_, before, rule, after, rfl, -, hmatch, -⟩
    exact ⟨rule, by simp, hmatch⟩
  · rintro ⟨r, hr, hmatch⟩
    induction rules with
    | nil => cases hr
    | cons q rules ih =>
      by_cases hq : q.Matches w
      · exact ⟨q.symbol, exists_first_cons_iff.mpr (Or.inl ⟨rfl, hq⟩)⟩
      · have hr' : r ∈ rules := by
          rcases List.mem_cons.mp hr with rfl | hr
          · exact absurd hmatch hq
          · exact hr
        obtain ⟨symbol, hfirst⟩ := ih hr'
        exact ⟨symbol, exists_first_cons_iff.mpr (Or.inr ⟨hq, hfirst⟩)⟩

/-- The automaton of all rules yields each text with the symbol of the first rule that matches
it. -/
theorem merge_spec (h : ∀ r ∈ rules, r.Regular) :
    (merge rules).Deterministic ∧ (merge rules).Symbolled ∧
      ∀ w s, (merge rules).Yields (merge rules).start w s ↔
        ∃ symbol, s = some symbol ∧ FirstMatch rules w symbol := by
  obtain ⟨hdet, hsym, hyields⟩ := mergeRules_spec (valid_of_mem_automata h)
  refine ⟨hdet, hsym, fun w s => ?_⟩
  simp only [merge, hyields, isFirst_automata_iff h]

/-- Merging no rules makes the automaton that takes nothing. -/
theorem mergeRules_nil : (mergeRules []).1 = .new := by
  have hvalid : Automaton.new.Valid := (wellFormed_of_meets (by decide) (by decide)).toValid
  have hclosure : Automaton.new.closure = [0] := by cbv
  have hclosed : Automaton.new.closedSet [0] = [0] := by
    have horder : Automaton.new.epsilonClosure [0] = [0] := by cbv
    rw [closedSet, horder, List.mergeSort_singleton]
  have hsubsets : Automaton.new.determinize.1 = .new := by
    rw [determinize, show Automaton.new.start = 0 from rfl, hclosed]
    simp [explore, Subsets.number, windows, cuts, edgesOver, anyAccepting, symbolOf, new, state]
  have hsymbols (f : Option Int → Option Int) : Automaton.new.mapSymbols f = .new := by
    rw [mapSymbols, acceptingStates, hclosure]
    rfl
  have hnone : Automaton.new.mergeDuplicates? = none :=
    mergeDuplicates?_eq_none_of_alike fun i j hi hj _ => by
      rw [show Automaton.new.states.size = 1 from rfl] at hi hj
      omega
  calc (mergeRules []).1
    _ = (Automaton.new.determinize.1.mapSymbols _).trimDuplicates.1 := rfl
    _ = .new := by
      rw [hsubsets, hsymbols, trimDuplicates_eq_compact hnone, compact_eq_self hvalid hclosure]

/-! ## The program -/

theorem ofProgram_eq_ok {p : Program} (h : Forward p.length 0 p) (hne : p ≠ []) :
    ofProgram p = .ok ⟨p⟩ := by
  rw [ofProgram, h.validate hne]
  rfl

/-- A program of regular rules, with what it finds. -/
theorem exists_build (h : ∀ r ∈ rules, r.Regular) :
    ∃ l log, build rules = .ok (l, log) ∧ ∀ text, Backtrack.search l.program text =
      report (Backtrack.start text) (outcome (merge rules) (merge rules).start text) := by
  have hfragments := fragments_eq_flush h []
  rw [List.nil_append] at hfragments
  by_cases hnil : automata rules = []
  · have hbuild : build rules = .ok (⟨linked []⟩, []) := by
      rw [build, hfragments, hnil]
      change (ofProgram (linked [])).bind _ = _
      rw [ofProgram_eq_ok forward_linked_nil (by rw [linked_nil]; simp)]
      rfl
    refine ⟨_, _, hbuild, fun text => ?_⟩
    have hmerge : merge rules = .new := by rw [merge, hnil, mergeRules_nil]
    have hblocked : Blocked Automaton.new Automaton.new.start text :=
      fun c _ => live?_eq_none_of_terminal rfl c.toNat
    rw [Backtrack.search_eq_of_finds (finds_linked_nil text), hmerge,
      outcome_of_blocked hblocked, if_pos rfl, stopAt_of_rejecting rfl, Option.none_or]
  · obtain ⟨hdet, hsym, -⟩ := merge_spec h
    have hflush : flush (automata rules) =
        .ok ([codeOf (merge rules)], (mergeRules (automata rules)).2) :=
      flush_eq (valid_of_mem_automata h) hnil
    have hforward := forward_linked hdet hsym
    have hbuild : build rules =
        .ok (⟨linked [codeOf (merge rules)]⟩, (mergeRules (automata rules)).2) := by
      rw [build, hfragments, hflush]
      change (ofProgram (linked [codeOf (merge rules)])).bind _ = _
      rw [ofProgram_eq_ok hforward (linked_ne_nil hdet hsym)]
      rfl
    exact ⟨_, _, hbuild, fun text => Backtrack.search_eq_of_finds (finds_linked hdet hsym text)⟩

end Lexer

end FiberLex
