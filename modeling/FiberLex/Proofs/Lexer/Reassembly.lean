import FiberLex.Proofs.Lexer.Total
import FiberLex.Proofs.Program.Listable

/-!
# Lexers as texts

The listing of a lexer is read back as the program of the lexer, with one exception. Rules become
fragments that can be written down: their sets come from patterns that have been read or from the
edges of well-formed automata, and the symbols of merged rules are those of the rules. Several
fragments are linked by a choice, and a fragment of a lazy pattern has no switch. What is left is
one automaton for all rules. If its start has edges but every one leads to a state that is left out,
its switch has no case, and as soon as it chooses the fallback it reads as a jump. Then no rule
matches any text.
-/

namespace FiberLex

namespace Program

open Automaton

variable {a : Automaton}

/-! ## Symbols -/

theorem mem_symbolsOf_iff {symbol : Int} :
    symbol ∈ symbolsOf a ↔ ∃ i ∈ a.closure, acceptOf a i = some symbol := by
  rw [symbolsOf, List.mem_eraseDups, List.mem_filterMap]

theorem symbolsOf_mergePasses_subset (ha : a.Valid) (pass fuel : Nat) :
    symbolsOf (a.mergePasses pass fuel).1 ⊆ symbolsOf a := by
  induction fuel generalizing a pass with
  | zero => exact List.Subset.refl _
  | succ fuel ih =>
    rw [mergePasses]
    split
    · exact List.Subset.refl _
    · rename_i b hb
      have hvalid := valid_mergeDuplicates? ha hb
      obtain ⟨rfl, -⟩ := mergeDuplicates?_eq_some hb
      refine List.Subset.trans (ih hvalid (pass + 1)) fun symbol hsymbol => ?_
      obtain ⟨i, hi, haccept⟩ := mem_symbolsOf_iff.mp hsymbol
      rw [acceptOf, state_redirect] at haccept
      exact mem_symbolsOf_iff.mpr ⟨i, (closure_redirect_representative ha hi).1, haccept⟩

theorem symbolsOf_compact_subset (ha : a.Valid) : symbolsOf a.compact ⊆ symbolsOf a := by
  intro symbol hsymbol
  obtain ⟨k, -, haccept⟩ := mem_symbolsOf_iff.mp hsymbol
  rcases exists_state_compact ha k with ⟨i, hi, hstate⟩ | hnone
  · rw [acceptOf, hstate] at haccept
    exact mem_symbolsOf_iff.mpr ⟨i, (mem_closure_iff ha).mpr hi, haccept⟩
  · rw [acceptOf, hnone] at haccept
    cases haccept

/-- Trimming duplicates adds no symbol. -/
theorem symbolsOf_trimDuplicates_subset (ha : a.Valid) :
    symbolsOf a.trimDuplicates.1 ⊆ symbolsOf a :=
  List.Subset.trans
    (symbolsOf_compact_subset (standsIn_mergePasses ha 0 (a.states.size + 1)).valid)
    (symbolsOf_mergePasses_subset ha 0 (a.states.size + 1))

end Program

namespace Lexer

open Assembler Automaton Program

/-! ## Merged rules -/

section Merged

variable {rules : List (Int × Automaton)}

/-- The merged rules accept with no symbols but those of the rules. -/
theorem exists_rule_of_mem_symbolsOf (h : ∀ r ∈ rules, r.2.Valid) {symbol : Int}
    (hsymbol : symbol ∈ symbolsOf (mergeRules rules).1) : ∃ r ∈ rules, r.1 = symbol := by
  have hdet := deterministic_determinize (merged (placed rules))
  rw [mergeRules_eq] at hsymbol
  have hrestored := symbolsOf_trimDuplicates_subset (hdet.mapSymbols (restore rules)).valid hsymbol
  obtain ⟨i, hi, haccept⟩ := mem_symbolsOf_iff.mp hrestored
  obtain ⟨hacc, hsym⟩ := acceptOf_eq_some_iff.mp haccept
  have hreach := (mem_closure_iff (hdet.mapSymbols (restore rules)).valid).mp hi
  rw [start_mapSymbols, reaches_mapSymbols_iff] at hreach
  rw [(edges_epsilons_mapSymbols _ _ i).1] at hacc
  rw [state_mapSymbols _ _ (hreach.lt_size hdet.valid hdet.valid.start_lt),
    if_pos ((mem_acceptingStates_iff hdet.valid).mpr ⟨hreach, hacc⟩)] at hsym
  -- the symbol before it was restored is the place of a rule
  obtain ⟨place, hplace, -⟩ := Option.map_eq_some_iff.mp hsym
  obtain ⟨known, hnumbers⟩ := exists_numbers_determinize (merged (placed rules))
  rcases hnumbers.row_or i with ⟨set, -, hrow⟩ | hnone
  · rw [hrow.symbol] at hplace
    obtain ⟨⟨j, -, hjacc, hjsym⟩, -⟩ := symbolOf_eq_some_iff.mp hplace
    obtain ⟨k, rule, hk, hkplace⟩ := acceptsWith_merged_placed h j hjacc
    obtain rfl := Option.some.inj (hjsym.symm.trans hkplace)
    rw [hrow.symbol, hplace] at hsym
    refine ⟨rule, List.mem_of_getElem? hk, Option.some.inj ((restore_place hk).symm.trans hsym)⟩
  · rw [hnone] at hplace
    cases hplace

theorem wellFormed_mergeRules (h : ∀ r ∈ rules, r.2.WellFormed) :
    (mergeRules rules).1.WellFormed := by
  have hplaced : ∀ p ∈ placed rules, p.WellFormed := by
    intro p hp
    obtain ⟨k, rule, hk, rfl⟩ := mem_placed_iff.mp hp
    exact (h rule (List.mem_of_getElem? hk)).setSymbol _
  rw [mergeRules_eq]
  exact ((wellFormed_merged hplaced).determinize.mapSymbols _).trimDuplicates

/-- The code of rules that are merged can be written down, if their symbols can. -/
theorem listable_codeOf_mergeRules
    (h : ∀ r ∈ rules, r.2.WellFormed ∧ fitsRuleId r.1 = true) :
    Listable (codeOf (mergeRules rules).1) := by
  have hvalid : ∀ r ∈ rules, r.2.Valid := fun r hr => (h r hr).1.toValid
  refine listable_codeOf (wellFormed_mergeRules fun r hr => (h r hr).1) (mergeRules_spec hvalid).1
    fun symbol hsymbol => ?_
  obtain ⟨r, hr, rfl⟩ := exists_rule_of_mem_symbolsOf hvalid hsymbol
  exact (h r hr).2

end Merged

/-! ## Fragments -/

/-- What a rule becomes can be written down: as an automaton it is well-formed, and as code it is
made of simple instructions. -/
def Lowered.Listable : Lowered → Prop
  | .automaton a => a.WellFormed
  | .fragment p => ∀ i ∈ p, Simple i

theorem mapError_eq_ok_iff {ε ε' α : Type} {f : ε → ε'} {x : Except ε α} {y : α} :
    x.mapError f = .ok y ↔ x = .ok y := by
  cases x <;> simp [Except.mapError]

theorem listable_of_lower {r : Rule} (h : r.Readable) (hfits : fitsRuleId r.symbol = true)
    {optimize : Bool} {lowered : Lowered} (hok : lower optimize r = .ok lowered) :
    lowered.Listable := by
  cases h with
  | @pattern symbol text p hsymbol hparse =>
    obtain ⟨q, hq, hok⟩ := Scan.bind_eq_ok.mp hok
    have hlegible := Pattern.legible_parse (mapError_eq_ok_iff.mp hq)
    split at hok
    · obtain ⟨a, ha, hok⟩ := Scan.bind_eq_ok.mp hok
      cases hok
      exact wellFormed_ofPattern hlegible (mapError_eq_ok_iff.mp ha)
    · obtain ⟨code, hcode, hok⟩ := Scan.bind_eq_ok.mp hok
      cases hok
      obtain ⟨body, hbody, hcode⟩ := Scan.bind_eq_ok.mp (mapError_eq_ok_iff.mp hcode)
      cases hcode
      exact simple_terminate (plain_simple.code hlegible 0 body hbody) hfits
  | @literal symbol text hsymbol =>
    cases optimize with
    | true =>
      cases hok
      exact wellFormed_ofCodePoints
        (List.forall_mem_map.mpr fun c _ => Char.toNat_le_maxCodePoint c) _
    | false =>
      cases hok
      exact simple_terminate (simple_ofText text.toList) hfits

/-- With optimisation, of the rules that can be read only the regular ones become automata. -/
theorem regular_of_lower {r : Rule} (h : r.Readable) {a : Automaton}
    (hok : lower true r = .ok (.automaton a)) : r.Regular := by
  cases h with
  | @pattern symbol text p hsymbol hparse =>
    obtain ⟨q, hq, hok⟩ := Scan.bind_eq_ok.mp hok
    split at hok
    · rename_i hmerge
      rw [Bool.true_and, Bool.not_eq_true'] at hmerge
      exact .pattern hsymbol (mapError_eq_ok_iff.mp hq) hmerge
    · obtain ⟨code, -, hok⟩ := Scan.bind_eq_ok.mp hok
      cases hok
  | literal hsymbol => exact .literal hsymbol

/-- The first of several rules either waits to be merged, or ends what waits. -/
theorem fragments_cons_eq_ok {optimize : Bool} {pending : List (Int × Automaton)} {r : Rule}
    {rules : List Rule} {code : List Program} {log : List Progress}
    (hok : fragments optimize pending (r :: rules) = .ok (code, log)) :
    (∃ a, lower optimize r = .ok (.automaton a) ∧
      (optimize = true ∧ fragments optimize (pending ++ [(r.symbol, a)]) rules = .ok (code, log) ∨
        optimize = false ∧ ∃ now later log₁ log₂,
          flush (pending ++ [(r.symbol, a)]) = .ok (now, log₁) ∧
          fragments optimize [] rules = .ok (later, log₂) ∧ code = now ++ later)) ∨
    ∃ c now later log₁ log₂, lower optimize r = .ok (.fragment c) ∧
      flush pending = .ok (now, log₁) ∧ fragments optimize [] rules = .ok (later, log₂) ∧
      code = now ++ c :: later := by
  rw [fragments] at hok
  split at hok
  · cases hok
  · obtain ⟨lowered, hlower, hok⟩ := Scan.bind_eq_ok.mp hok
    cases lowered with
    | automaton a =>
      refine Or.inl ⟨a, hlower, ?_⟩
      cases optimize with
      | true => exact Or.inl ⟨rfl, hok⟩
      | false =>
        obtain ⟨⟨now, log₁⟩, hnow, hok⟩ := Scan.bind_eq_ok.mp hok
        obtain ⟨⟨later, log₂⟩, hlater, hok⟩ := Scan.bind_eq_ok.mp hok
        cases hok
        exact Or.inr ⟨rfl, now, later, log₁, log₂, hnow, hlater, rfl⟩
    | fragment c =>
      obtain ⟨⟨now, log₁⟩, hnow, hok⟩ := Scan.bind_eq_ok.mp hok
      obtain ⟨⟨later, log₂⟩, hlater, hok⟩ := Scan.bind_eq_ok.mp hok
      cases hok
      exact Or.inr ⟨c, now, later, log₁, log₂, hlower, hnow, hlater, rfl⟩

/-- Automata that can be merged and have symbols that can be written down. -/
def Mergeable (pending : List (Int × Automaton)) : Prop :=
  ∀ q ∈ pending, q.2.WellFormed ∧ fitsRuleId q.1 = true

theorem mergeable_nil : Mergeable [] := by simp [Mergeable]

theorem Mergeable.append {pending : List (Int × Automaton)} (h : Mergeable pending)
    {symbol : Int} (hsymbol : fitsRuleId symbol = true) {a : Automaton} (ha : a.WellFormed) :
    Mergeable (pending ++ [(symbol, a)]) :=
  List.forall_mem_append.mpr ⟨h, List.forall_mem_singleton.mpr ⟨ha, hsymbol⟩⟩

theorem listable_of_mem_flush {pending : List (Int × Automaton)} (h : Mergeable pending)
    {code : List Program} {log : List Progress} (hok : flush pending = .ok (code, log)) :
    ∀ f ∈ code, Listable f := by
  by_cases hnil : pending = []
  · rw [hnil] at hok
    cases hok
    simp
  · rw [flush_eq (fun q hq => (h q hq).1.toValid) hnil] at hok
    cases hok
    exact List.forall_mem_singleton.mpr (listable_codeOf_mergeRules h)

variable {rules : List Rule}

/-- The fragments of rules can be written down, whatever waits to be merged. -/
theorem listable_of_mem_fragments (h : ∀ r ∈ rules, r.Readable ∧ fitsRuleId r.symbol = true)
    {optimize : Bool} {pending : List (Int × Automaton)} (hpending : Mergeable pending)
    {code : List Program} {log : List Progress}
    (hok : fragments optimize pending rules = .ok (code, log)) : ∀ f ∈ code, Listable f := by
  induction rules generalizing pending code log with
  | nil =>
    rw [fragments] at hok
    exact listable_of_mem_flush hpending hok
  | cons r rules ih =>
    obtain ⟨⟨hr, hfits⟩, hrules⟩ := List.forall_mem_cons.mp h
    rcases fragments_cons_eq_ok hok with ⟨a, hlower, hcase⟩ | ⟨c, now, later, _, _, hlower, hnow,
      hlater, rfl⟩
    · have hmore := hpending.append hfits (listable_of_lower hr hfits hlower)
      rcases hcase with ⟨-, hrest⟩ | ⟨-, now, later, _, _, hnow, hlater, rfl⟩
      · exact ih hrules hmore hrest
      · exact List.forall_mem_append.mpr
          ⟨listable_of_mem_flush hmore hnow, ih hrules mergeable_nil hlater⟩
    · have hsimple : ∀ i ∈ c, Simple i := listable_of_lower hr hfits hlower
      exact List.forall_mem_append.mpr ⟨listable_of_mem_flush hpending hnow,
        List.forall_mem_cons.mpr ⟨fun i hi => (hsimple i hi).1, ih hrules mergeable_nil hlater⟩⟩

/-- If some rule is not regular, there are several fragments, or none of them has a switch. -/
theorem two_le_length_or_simple (h : ∀ r ∈ rules, r.Readable ∧ fitsRuleId r.symbol = true)
    (hirregular : ∃ r ∈ rules, ¬ r.Regular) {pending : List (Int × Automaton)}
    {code : List Program} {log : List Progress}
    (hok : fragments true pending rules = .ok (code, log)) :
    2 ≤ code.length ∨ ∀ f ∈ code, ∀ i ∈ f, Simple i := by
  induction rules generalizing pending code log with
  | nil =>
    obtain ⟨r, hr, -⟩ := hirregular
    cases hr
  | cons r rules ih =>
    obtain ⟨⟨hr, hfits⟩, hrules⟩ := List.forall_mem_cons.mp h
    rcases fragments_cons_eq_ok hok with ⟨a, hlower, hcase⟩ |
      ⟨c, now, later, _, _, hlower, -, -, rfl⟩
    · have hregular := regular_of_lower hr hlower
      obtain ⟨q, hq, hirregular⟩ := hirregular
      have hrest : ∃ r ∈ rules, ¬ r.Regular := by
        rcases List.mem_cons.mp hq with rfl | hq
        · exact absurd hregular hirregular
        · exact ⟨q, hq, hirregular⟩
      rcases hcase with ⟨-, hmore⟩ | ⟨hfalse, -⟩
      · exact ih hrules hrest hmore
      · cases hfalse
    · have hsimple : ∀ i ∈ c, Simple i := listable_of_lower hr hfits hlower
      by_cases hothers : now = [] ∧ later = []
      · obtain ⟨rfl, rfl⟩ := hothers
        exact Or.inr (List.forall_mem_singleton.mpr hsimple)
      · left
        rw [not_and_or, ← ne_eq, ← ne_eq, ← List.length_pos_iff, ← List.length_pos_iff] at hothers
        rw [List.length_append, List.length_cons]
        omega

/-! ## The program -/

/-- The program of fragments. -/
def programOf (optimize : Bool) (code : List Program) : Program :=
  if optimize then linked code else linkFragments code

theorem build_eq {optimize : Bool} {code : List Program} {log : List Progress}
    (hcode : fragments optimize [] rules = .ok (code, log))
    (hcontained : ∀ f ∈ code, SelfContained f) :
    Runnable (programOf optimize code) ∧
      build rules optimize = .ok (⟨programOf optimize code⟩, log) := by
  have hlink : Runnable (linkFragments code) :=
    runnable_linkFragments fun f hf => (hcontained f hf).targetsBelow
  have hrunnable : Runnable (programOf optimize code) := by
    cases optimize with
    | true => exact hlink.removeDeadCode.foldRoot
    | false => exact hlink
  refine ⟨hrunnable, Scan.bind_eq_ok.mpr ⟨_, hcode, Scan.bind_eq_ok.mpr
    ⟨⟨programOf optimize code⟩, ?_, rfl⟩⟩⟩
  change ofProgram (programOf optimize code) = _
  rw [ofProgram, hrunnable.validate]
  rfl

theorem listable_map_readBack_programOf {code : List Program} (h : ∀ f ∈ code, Listable f)
    (optimize : Bool) : Listable ((programOf optimize code).map readBack) := by
  have hlink : Listable (linkFragments code) := kept_listableInstr.linkFragments h
  cases optimize with
  | true => exact listable_map_readBack_foldRoot (kept_listableInstr.removeDeadCode hlink)
  | false => exact hlink.map_readBack

/-- The program of the fragments of rules is built, and its listing is read back. -/
theorem build_and_assemble_of_fragments
    (h : ∀ r ∈ rules, r.Readable ∧ fitsRuleId r.symbol = true) {optimize : Bool}
    {code : List Program} {log : List Progress}
    (hcode : fragments optimize [] rules = .ok (code, log)) :
    build rules optimize = .ok (⟨programOf optimize code⟩, log) ∧
      Program.assemble (programOf optimize code).listing =
        .ok ((programOf optimize code).map readBack) := by
  have hnone : ∀ q ∈ ([] : List (Int × Automaton)), q.2.Valid := by simp
  obtain ⟨code', log', hcode', hcontained⟩ :=
    exists_fragments (fun r hr => (h r hr).1) optimize hnone
  obtain ⟨rfl, rfl⟩ := Prod.mk.inj (Except.ok.inj (hcode'.symm.trans hcode))
  obtain ⟨hrunnable, hbuild⟩ := build_eq hcode hcontained
  have hlistable := listable_of_mem_fragments h mergeable_nil hcode
  exact ⟨hbuild, assemble_listing_readBack hrunnable
    (listable_map_readBack_programOf hlistable optimize)⟩

/-- Regular rules of which one matches something are merged into a program that can be written
down. -/
theorem listable_linked_of_matches (h : ∀ r ∈ rules, r.Regular) {code : List Program}
    {log : List Progress} (hok : fragments true [] rules = .ok (code, log))
    (hcode : ∀ f ∈ code, Listable f) {r : Rule} (hr : r ∈ rules) {w : List Char}
    (hw : r.Matches w) : Listable (linked code) := by
  have hne : automata rules ≠ [] := by
    obtain ⟨a, ha, -⟩ := exists_lower (h r hr)
    exact List.ne_nil_of_mem (List.mem_filterMap.mpr ⟨r, hr, automaton?_eq ha⟩)
  rw [fragments_eq_flush h, List.nil_append, flush_eq (valid_of_mem_automata h) hne] at hok
  cases hok
  obtain ⟨hdet, hsym, hyields⟩ := merge_spec h
  obtain ⟨symbol, hfirst⟩ := exists_firstMatch_iff.mpr ⟨r, hr, hw⟩
  exact listable_linked_codeOf hdet hsym (List.forall_mem_singleton.mp hcode)
    ((hyields w _).mpr ⟨symbol, rfl, hfirst⟩)

/-- The listing of a lexer of rules that can be read is read back as its program, with switches that
have nothing but defaults turned into jumps. So it is read back unchanged exactly if the program has
no such switch, and it has one only with optimisation, and if every rule is regular and no rule
matches any text. -/
theorem assemble_listing_iff (h : ∀ r ∈ rules, r.Readable ∧ fitsRuleId r.symbol = true)
    (optimize : Bool) :
    ∃ lexer log, build rules optimize = .ok (lexer, log) ∧
      Program.assemble lexer.listing = .ok (lexer.program.map readBack) ∧
      (Program.assemble lexer.listing = .ok lexer.program ↔
        ∀ otherwise, .switch [] otherwise ∈ lexer.program → otherwise = []) ∧
      (Program.assemble lexer.listing ≠ .ok lexer.program →
        optimize = true ∧ ∀ r ∈ rules, r.Regular ∧ ∀ w, ¬ r.Matches w) := by
  have hnone : ∀ q ∈ ([] : List (Int × Automaton)), q.2.Valid := by simp
  obtain ⟨code, log, hcode, -⟩ := exists_fragments (fun r hr => (h r hr).1) optimize hnone
  have hlistable := listable_of_mem_fragments h mergeable_nil hcode
  obtain ⟨hbuild, hread⟩ := build_and_assemble_of_fragments h hcode
  refine ⟨⟨programOf optimize code⟩, log, hbuild, hread, ?_, fun hfails => ?_⟩
  · change Program.assemble (programOf optimize code).listing = _ ↔ _
    rw [hread, Except.ok.injEq, map_readBack_eq_self_iff]
  · have hnot : ¬ Listable (programOf optimize code) := fun hall =>
      hfails (hread.trans (congrArg Except.ok hall.map_readBack_eq_self))
    cases optimize with
    | false => exact absurd (kept_listableInstr.linkFragments hlistable) hnot
    | true =>
      have hregular : ∀ r ∈ rules, r.Regular := by
        by_contra hirregular
        push Not at hirregular
        rcases two_le_length_or_simple h hirregular hcode with hlength | hsimple
        · exact hnot (listable_linked_of_two_le hlistable hlength)
        · exact hnot (listable_linked_of_simple hsimple)
      refine ⟨rfl, fun r hr => ⟨hregular r hr, fun w hw => hnot ?_⟩⟩
      exact listable_linked_of_matches hregular hcode hlistable hr hw

/-- A lazy pattern between two literal texts, and a pattern with bounds. -/
def assortment : List Rule :=
  [⟨4, .literal "for"⟩, ⟨1, .pattern "(a|b)*?c"⟩, ⟨0, .literal "fo"⟩, ⟨1, .pattern "d{2,}e?"⟩]

theorem assemble_listing_iff_assortment :
    (∀ r ∈ assortment, r.Readable ∧ fitsRuleId r.symbol = true) ∧ ∀ optimize, ∃ lexer log,
      build assortment optimize = .ok (lexer, log) ∧
        Program.assemble lexer.listing = .ok (lexer.program.map readBack) ∧
        (Program.assemble lexer.listing = .ok lexer.program ↔
          ∀ otherwise, .switch [] otherwise ∈ lexer.program → otherwise = []) ∧
        (Program.assemble lexer.listing ≠ .ok lexer.program →
          optimize = true ∧ ∀ r ∈ assortment, r.Regular ∧ ∀ w, ¬ r.Matches w) := by
  have hlazy : Pattern.parse "(a|b)*?c" =
      .ok (.concat [.repetition (.alt [.literal 97, .literal 98]) 0 none true, .literal 99]) := by
    cbv
  have hbounds : Pattern.parse "d{2,}e?" =
      .ok (.concat [.repetition (.literal 100) 2 none false,
        .repetition (.literal 101) 0 (some 1) false]) := by cbv
  have hassortment : ∀ r ∈ assortment, r.Readable ∧ fitsRuleId r.symbol = true := by
    simp only [assortment, List.forall_mem_cons]
    exact ⟨⟨.literal (by decide), by decide⟩, ⟨.pattern (by decide) hlazy, by decide⟩,
      ⟨.literal (by decide), by decide⟩, ⟨.pattern (by decide) hbounds, by decide⟩, by simp⟩
  exact ⟨hassortment, assemble_listing_iff hassortment⟩

/-- A pattern that matches nothing, since no character follows the first one. -/
def hollow : List Rule := [⟨0, .pattern "a[^\\s\\S]"⟩]

theorem parse_hollow : Pattern.parse "a[^\\s\\S]" =
    .ok (.concat [.literal 97, .oneOf #[⟨0, maxCodePoint⟩] true]) := by
  have hclass : Pattern.readAtom '[' "^\\s\\S]".toList =
      .ok (.oneOf #[⟨0, maxCodePoint⟩] true, []) := by cbv
  have hstep : Pattern.readStep true ⟨⟨[], [.literal 97]⟩, []⟩ '[' "^\\s\\S]".toList =
      .ok (⟨⟨[], [.oneOf #[⟨0, maxCodePoint⟩] true, .literal 97]⟩, []⟩, []) :=
    Scan.bind_eq_ok.mpr ⟨_, hclass, rfl⟩
  refine Pattern.parse_eq_ok_iff.mpr ?_
  exact (Pattern.readGroups_of_readStep rfl).trans
    ((Pattern.readGroups_of_readStep hstep).trans (by cbv))

/-- The only switch of `hollow` has nothing but a default, so it is read back as a jump. -/
theorem assemble_listing_ne_hollow :
    (∀ r ∈ hollow, r.Readable ∧ fitsRuleId r.symbol = true) ∧ ∃ lexer log,
      build hollow true = .ok (lexer, log) ∧
        Program.assemble lexer.listing ≠ .ok lexer.program := by
  have hhollow : ∀ r ∈ hollow, r.Readable ∧ fitsRuleId r.symbol = true :=
    List.forall_mem_singleton.mpr ⟨.pattern (by decide) parse_hollow, by decide⟩
  have hlower : lower true ⟨0, .pattern "a[^\\s\\S]"⟩ =
      .ok (.automaton (.concat [.ofCodePoints [97] none, .ofSet #[] none] (some 0))) := by
    simp only [lower, parse_hollow]
    cbv
  have hflush : flush [(0, .concat [.ofCodePoints [97] none, .ofSet #[] none] (some 0))] =
      .ok ([[.switch [] []]], [.discovered 1, .discovered 2, .searchedDuplicates 0]) := by cbv
  have hcode : fragments true [] hollow =
      .ok ([[.switch [] []]], [.discovered 1, .discovered 2, .searchedDuplicates 0]) := by
    rw [hollow, fragments, if_neg (by decide), hlower]
    exact hflush
  have hprogram : programOf true [[.switch [] []]] =
      [.save 0, .switch [] [2], .any, .save 1, .accept (-1)] := by cbv
  obtain ⟨hbuild, hread⟩ := build_and_assemble_of_fragments hhollow hcode
  refine ⟨hhollow, _, _, hbuild, ?_⟩
  change Program.assemble (programOf true [[.switch [] []]]).listing ≠ _
  rw [hread, hprogram]
  decide

end Lexer

end FiberLex
