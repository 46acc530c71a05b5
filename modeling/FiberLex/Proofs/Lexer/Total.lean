import FiberLex.Proofs.Lexer.Build
import FiberLex.Proofs.Program.OrderedChoice

/-!
# Building does not fail

A rule that can be read is a pattern that parses, lazy or not, or a literal text. It becomes a valid
automaton or a self-contained fragment (`exists_lowered`), groups of automata that wait to be merged
become self-contained fragments too (`exists_flush`), and linking and improving keep all targets
inside the program. So a list of such rules with symbols that are not negative always has a lexer.
-/

namespace FiberLex

/-- The rule is a pattern that can be read, lazy or not, or a literal text, and its symbol is not
negative. -/
inductive Rule.Readable : Rule → Prop where
  | pattern {symbol : Int} {text : String} {p : Pattern} (hsymbol : 0 ≤ symbol)
      (hparse : Pattern.parse text = .ok p) : Rule.Readable ⟨symbol, .pattern text⟩
  | literal {symbol : Int} {text : String} (hsymbol : 0 ≤ symbol) :
    Rule.Readable ⟨symbol, .literal text⟩

theorem Rule.Readable.symbol_nonneg {r : Rule} (h : r.Readable) : 0 ≤ r.symbol := by
  cases h with
  | pattern hsymbol _ => exact hsymbol
  | literal hsymbol => exact hsymbol

namespace Lexer

open Automaton Program

/-- What a rule becomes can be merged or linked. -/
def Lowered.Sound : Lowered → Prop
  | .automaton a => a.Valid
  | .fragment p => SelfContained p

/-- A pattern that has been read has an automaton, if it may have one, or else code. -/
theorem exists_lowered {r : Rule} (h : r.Readable) (optimize : Bool) :
    ∃ lowered, lower optimize r = .ok lowered ∧ lowered.Sound := by
  cases h with
  | @pattern symbol text p hsymbol hparse =>
    have hform := Pattern.wellFormed_parse hparse
    simp only [lower, hparse, Except.mapError]
    by_cases hmerge : (optimize && !p.hasLazy) = true
    · have hlazy : p.hasLazy = false := by
        rw [Bool.and_eq_true, Bool.not_eq_true'] at hmerge
        exact hmerge.2
      obtain ⟨a, ha, hrec⟩ := exists_ofPattern hform hlazy (some symbol)
      refine ⟨.automaton a, ?_, hrec.valid⟩
      change (if (optimize && !p.hasLazy) = true then _ else _) = _
      rw [if_pos hmerge, ha]
      rfl
    · obtain ⟨code, hcode, hcontained⟩ := exists_ofRule hform.inOrder symbol
      refine ⟨.fragment code, ?_, hcontained⟩
      change (if (optimize && !p.hasLazy) = true then _ else _) = _
      rw [if_neg hmerge, hcode]
      rfl
  | @literal symbol text hsymbol =>
    cases optimize with
    | true =>
      exact ⟨_, rfl, (recognizes_ofCodePoints (text.toList.map Char.toNat) (some symbol)).valid⟩
    | false =>
      refine ⟨_, rfl, selfContained_terminate (fun i hi t ht => ?_) symbol⟩
      obtain ⟨c, -, rfl⟩ := List.mem_map.mp hi
      cases ht

/-- Automata that wait to be merged have at most one fragment. -/
theorem exists_flush {pending : List (Int × Automaton)} (h : ∀ q ∈ pending, q.2.Valid) :
    ∃ code log, flush pending = .ok (code, log) ∧ ∀ f ∈ code, SelfContained f := by
  by_cases hempty : pending = []
  · exact ⟨[], [], by rw [hempty]; rfl, by simp⟩
  · obtain ⟨hdet, hsym, -⟩ := mergeRules_spec h
    exact ⟨_, _, flush_eq h hempty, List.forall_mem_singleton.mpr (selfContained_codeOf hdet hsym)⟩

/-- Rules that can be read have self-contained fragments, whatever waits to be merged. -/
theorem exists_fragments {rules : List Rule} (h : ∀ r ∈ rules, r.Readable) (optimize : Bool)
    {pending : List (Int × Automaton)} (hpending : ∀ q ∈ pending, q.2.Valid) :
    ∃ code log, fragments optimize pending rules = .ok (code, log) ∧
      ∀ f ∈ code, SelfContained f := by
  induction rules generalizing pending with
  | nil =>
    rw [fragments]
    exact exists_flush hpending
  | cons r rules ih =>
    obtain ⟨hr, hrules⟩ := List.forall_mem_cons.mp h
    have hsymbol := hr.symbol_nonneg
    obtain ⟨lowered, hlower, hsound⟩ := exists_lowered hr optimize
    rw [fragments, if_neg (by omega)]
    have hnone : ∀ q ∈ ([] : List (Int × Automaton)), q.2.Valid := by simp
    obtain ⟨later, more, hlater, hlaterContained⟩ := ih hrules hnone
    cases lowered with
    | automaton a =>
      have hmore : ∀ q ∈ pending ++ [(r.symbol, a)], q.2.Valid :=
        List.forall_mem_append.mpr ⟨hpending, List.forall_mem_singleton.mpr hsound⟩
      cases optimize with
      | true =>
        obtain ⟨code, log, hcode, hcontained⟩ := ih hrules hmore
        exact ⟨code, log, Scan.bind_eq_ok.mpr ⟨_, hlower, hcode⟩, hcontained⟩
      | false =>
        obtain ⟨now, log, hnow, hcontained⟩ := exists_flush hmore
        refine ⟨now ++ later, log ++ more, ?_,
          List.forall_mem_append.mpr ⟨hcontained, hlaterContained⟩⟩
        exact Scan.bind_eq_ok.mpr ⟨_, hlower,
          Scan.bind_eq_ok.mpr ⟨_, hnow, Scan.bind_eq_ok.mpr ⟨_, hlater, rfl⟩⟩⟩
    | fragment code =>
      obtain ⟨now, log, hnow, hcontained⟩ := exists_flush hpending
      refine ⟨now ++ code :: later, log ++ more, ?_, List.forall_mem_append.mpr
        ⟨hcontained, List.forall_mem_cons.mpr ⟨hsound, hlaterContained⟩⟩⟩
      exact Scan.bind_eq_ok.mpr ⟨_, hlower,
        Scan.bind_eq_ok.mpr ⟨_, hnow, Scan.bind_eq_ok.mpr ⟨_, hlater, rfl⟩⟩⟩

/-- Rules that can be read have a lexer, with and without optimisation, and every target of its
program is an address of the program. -/
theorem build_total {rules : List Rule} (h : ∀ r ∈ rules, r.Readable) (optimize : Bool) :
    ∃ lexer log, build rules optimize = .ok (lexer, log) ∧
      ∀ i ∈ lexer.program, ∀ t ∈ i.targets, t < lexer.program.length := by
  have hnone : ∀ q ∈ ([] : List (Int × Automaton)), q.2.Valid := by simp
  obtain ⟨code, log, hcode, hcontained⟩ := exists_fragments h optimize hnone
  have hlink : Runnable (linkFragments code) :=
    runnable_linkFragments fun f hf => (hcontained f hf).targetsBelow
  obtain ⟨p, hp, hrunnable⟩ : ∃ p, (if optimize then (linkFragments code).removeDeadCode.foldRoot
      else linkFragments code) = p ∧ Runnable p := by
    refine ⟨_, rfl, ?_⟩
    cases optimize with
    | true => exact hlink.removeDeadCode.foldRoot
    | false => exact hlink
  refine ⟨⟨p⟩, log, Scan.bind_eq_ok.mpr ⟨_, hcode, Scan.bind_eq_ok.mpr ⟨⟨p⟩, ?_, rfl⟩⟩,
    hrunnable.targetsBelow⟩
  rw [hp, ofProgram, hrunnable.validate]
  rfl

/-- A lazy pattern, a greedy one with bounds, a literal text, and lazy copies of a choice with an
empty branch. -/
def mixture : List Rule :=
  [⟨2, .pattern "a+?b"⟩, ⟨0, .pattern "d{2,3}"⟩, ⟨7, .literal "if"⟩, ⟨1, .pattern "(x|)*?"⟩]

theorem build_total_mixture :
    (∀ r ∈ mixture, r.Readable) ∧ ∀ optimize, ∃ lexer log,
      build mixture optimize = .ok (lexer, log) ∧
        ∀ i ∈ lexer.program, ∀ t ∈ i.targets, t < lexer.program.length := by
  have hlazy : Pattern.parse "a+?b" =
      .ok (.concat [.repetition (.literal 97) 1 none true, .literal 98]) := by cbv
  have hbounds : Pattern.parse "d{2,3}" =
      .ok (.repetition (.literal 100) 2 (some 3) false) := by cbv
  have hempty : Pattern.parse "(x|)*?" =
      .ok (.repetition (.alt [.literal 120, .concat []]) 0 none true) := by cbv
  have hmixture : ∀ r ∈ mixture, r.Readable := by
    simp only [mixture, List.forall_mem_cons]
    exact ⟨.pattern (by decide) hlazy, .pattern (by decide) hbounds, .literal (by decide),
      .pattern (by decide) hempty, by simp⟩
  exact ⟨hmixture, build_total hmixture⟩

end Lexer

end FiberLex
