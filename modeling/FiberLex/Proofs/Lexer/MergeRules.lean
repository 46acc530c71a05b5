import FiberLex.Lexer
import FiberLex.Proofs.Automaton.Compose
import FiberLex.Proofs.Automaton.Determinize
import FiberLex.Proofs.Automaton.Reduce

/-!
# Merged rules

The rules of a group become one deterministic automaton. It yields a text with the symbol of the
first rule that has the text (`IsFirst`): while the automaton is built the rules are told apart by
their places, and the least place counts.
-/

namespace FiberLex

namespace Automaton

variable {a b c : Automaton}

/-! ## Symbols -/

/-- What accepting states have for a symbol has a property. -/
def AcceptsWith (a : Automaton) (P : Option Int → Prop) : Prop :=
  ∀ i, (a.state i).accepting = true → P (a.state i).symbol

variable {P : Option Int → Prop}

theorem acceptsWith_iff :
    a.AcceptsWith P ↔ ∀ s ∈ a.states, s.accepting = true → P s.symbol := by
  constructor
  · intro h s hs
    obtain ⟨i, hi, rfl⟩ := Array.mem_iff_getElem.mp hs
    rw [← state_eq_getElem hi]
    exact h i
  · intro h i hacc
    by_cases hi : i < a.states.size
    · rw [state_eq_getElem hi] at hacc ⊢
      exact h _ (Array.getElem_mem hi) hacc
    · rw [state_of_size_le (by omega)] at hacc
      cases hacc

/-- Only the states of a branch that can be reached are added. -/
theorem AcceptsWith.addBranch (hc : c.AcceptsWith P) (hb : b.Valid)
    (hsym : ∀ i, b.Reaches b.start i → (b.state i).accepting = true → P (b.state i).symbol) :
    (c.addBranch b).1.AcceptsWith P := by
  have habsorb : (c.absorb b).1.AcceptsWith P := by
    rw [acceptsWith_iff, states_absorb c hb]
    intro s hs
    rcases Array.mem_append.mp hs with hs | hs
    · exact acceptsWith_iff.mp hc s hs
    · rw [List.mem_toArray] at hs
      obtain ⟨i, hi, rfl⟩ := List.mem_map.mp hs
      exact hsym i ((mem_closure_iff hb).mp hi)
  intro i hacc
  change (((c.absorb b).1.addEpsilon c.start (c.absorb b).2).state i).accepting = true at hacc
  change P (((c.absorb b).1.addEpsilon c.start (c.absorb b).2).state i).symbol
  rw [addEpsilon, state_modifyState] at hacc ⊢
  split at hacc
  · rename_i h
    rw [if_pos h, symbol_addEpsilon]
    rw [accepting_addEpsilon] at hacc
    exact habsorb i hacc
  · rename_i h
    rw [if_neg h]
    exact habsorb i hacc

theorem acceptsWith_merged {parts : List Automaton} (h : ∀ p ∈ parts, p.Valid)
    (hsym : ∀ p ∈ parts, ∀ i, p.Reaches p.start i → (p.state i).accepting = true →
      P (p.state i).symbol) : (merged parts).AcceptsWith P := by
  have hbranches : ∀ c : Automaton, c.AcceptsWith P → (c.addBranches parts).1.AcceptsWith P := by
    induction parts with
    | nil => exact fun c hc => hc
    | cons p parts ih =>
      intro c hc
      obtain ⟨hp, hparts⟩ := List.forall_mem_cons.mp h
      obtain ⟨hsp, hsparts⟩ := List.forall_mem_cons.mp hsym
      exact ih hparts hsparts _ (hc.addBranch hp hsp)
  rw [merged_eq]
  exact hbranches new (acceptsWith_iff.mpr (by simp [new]))

theorem Deterministic.mapSymbols (ha : a.Deterministic) (f : Option Int → Option Int) :
    (a.mapSymbols f).Deterministic := by
  refine ⟨ha.valid.mapSymbols f, ?_, ?_, ?_⟩
  · intro i
    rw [(edges_epsilons_mapSymbols a f i).2.2, ha.epsilons]
  · intro i
    rw [(edges_epsilons_mapSymbols a f i).2.1]
    exact ha.low_le_high i
  · intro i
    rw [(edges_epsilons_mapSymbols a f i).2.1]
    exact ha.disjoint i

theorem Symbolled.mapSymbols (ha : a.Symbolled) {f : Option Int → Option Int}
    (hf : ∀ s, (f s).isSome = s.isSome) : (a.mapSymbols f).Symbolled := by
  intro i hacc
  rw [(edges_epsilons_mapSymbols a f i).1] at hacc
  have hi : i < a.states.size := by
    by_contra hge
    rw [state_of_size_le (by omega)] at hacc
    cases hacc
  rw [state_mapSymbols a f hi]
  split
  · rw [hf]
    exact ha i hacc
  · exact ha i hacc

/-- The deterministic automaton yields a text with the least of the symbols it had. -/
theorem yields_determinize_iff_least (ha : a.Valid) (hsym : a.Symbolled) {w : List Char}
    {s : Option Int} :
    a.determinize.1.Yields a.determinize.1.start w s ↔
      ∃ t, s = some t ∧ a.Yields a.start w (some t) ∧
        ∀ t', a.Yields a.start w (some t') → t ≤ t' := by
  have hmember : ∀ t, a.Yields a.start w (some t) ↔ ∃ j ∈ a.after a.initial w,
      (a.state j).accepting = true ∧ (a.state j).symbol = some t := fun t => yields_start_iff ha
  rw [yields_determinize_iff ha]
  constructor
  · rintro ⟨hany, rfl⟩
    rw [anyAccepting, List.any_eq_true] at hany
    obtain ⟨j, hj, hacc⟩ := hany
    obtain ⟨t, ht⟩ := Option.isSome_iff_exists.mp (hsym j hacc)
    have hsome : (a.symbolOf (a.after a.initial w)).isSome = true := by
      rw [symbolOf, List.isSome_min?_iff]
      exact List.ne_nil_of_mem
        (List.mem_filterMap.mpr ⟨j, List.mem_filter.mpr ⟨hj, hacc⟩, ht⟩)
    obtain ⟨t, ht⟩ := Option.isSome_iff_exists.mp hsome
    obtain ⟨hthere, hleast⟩ := symbolOf_eq_some_iff.mp ht
    refine ⟨t, ht, (hmember t).mpr hthere, fun t' ht' => ?_⟩
    obtain ⟨j', hj', hacc', hsym'⟩ := (hmember t').mp ht'
    exact hleast j' hj' hacc' t' hsym'
  · rintro ⟨t, rfl, hy, hleast⟩
    obtain ⟨j, hj, hacc, hsymbol⟩ := (hmember t).mp hy
    refine ⟨List.any_eq_true.mpr ⟨j, hj, hacc⟩, symbolOf_eq_some_iff.mpr ⟨⟨j, hj, hacc, hsymbol⟩, ?_⟩⟩
    intro j' hj' hacc' t' ht'
    exact hleast t' ((hmember t').mpr ⟨j', hj', hacc', ht'⟩)

end Automaton

namespace Lexer

open Automaton

/-- The first rule that has a text is the one with the given symbol. -/
def IsFirst (rules : List (Int × Automaton)) (w : List Char) (symbol : Int) : Prop :=
  ∃ before rule after, rules = before ++ rule :: after ∧ rule.1 = symbol ∧ w ∈ rule.2.texts ∧
    ∀ r ∈ before, w ∉ r.2.texts

/-- The automata of rules, told apart by their places. -/
def placed (rules : List (Int × Automaton)) : List Automaton :=
  rules.zipIdx.map fun (rule, place) => rule.2.setSymbol (some place)

/-- The symbol of the rule at a place. -/
def restore (rules : List (Int × Automaton)) (s : Option Int) : Option Int :=
  s.map fun place => (rules.map (·.1)).getD place.toNat place

theorem restore_place {rules : List (Int × Automaton)} {k : Nat} {rule : Int × Automaton}
    (hk : rules[k]? = some rule) : restore rules (some (k : Int)) = some rule.1 := by
  simp [restore, hk]

/-- The merged rules are made deterministic, get their symbols back, and lose their duplicates. -/
theorem mergeRules_eq (rules : List (Int × Automaton)) :
    (mergeRules rules).1 = ((merged (placed rules)).determinize.1.mapSymbols
      (restore rules)).trimDuplicates.1 := rfl

theorem mem_placed_iff {rules : List (Int × Automaton)} {p : Automaton} :
    p ∈ placed rules ↔ ∃ (k : Nat) (rule : Int × Automaton), rules[k]? = some rule ∧
      rule.2.setSymbol (some k) = p := by
  unfold placed
  rw [List.mem_map]
  constructor
  · rintro ⟨⟨rule, k⟩, hk, rfl⟩
    exact ⟨k, rule, List.mem_zipIdx_iff_getElem?.mp hk, rfl⟩
  · rintro ⟨k, rule, hk, rfl⟩
    exact ⟨(rule, k), List.mem_zipIdx_iff_getElem?.mpr hk, rfl⟩

theorem valid_of_mem_placed {rules : List (Int × Automaton)} (h : ∀ r ∈ rules, r.2.Valid)
    {p : Automaton} (hp : p ∈ placed rules) : p.Valid := by
  obtain ⟨k, rule, hk, rfl⟩ := mem_placed_iff.mp hp
  exact (h rule (List.mem_of_getElem? hk)).setSymbol _

/-- Before their symbols are restored, the merged rules accept with places of rules. -/
theorem acceptsWith_merged_placed {rules : List (Int × Automaton)} (h : ∀ r ∈ rules, r.2.Valid) :
    (merged (placed rules)).AcceptsWith fun s =>
      ∃ (k : Nat) (rule : Int × Automaton), rules[k]? = some rule ∧ s = some (k : Int) := by
  refine acceptsWith_merged (fun p hp => valid_of_mem_placed h hp) fun p hp i hi hacc => ?_
  obtain ⟨k, rule, hk, rfl⟩ := mem_placed_iff.mp hp
  exact ⟨k, rule, hk, symbol_setSymbol (h rule (List.mem_of_getElem? hk)) _ hi hacc⟩

/-- What the merged rules yield before their symbols are restored. -/
theorem yields_merged_placed_iff {rules : List (Int × Automaton)} (h : ∀ r ∈ rules, r.2.Valid)
    {w : List Char} {t : Int} :
    (merged (placed rules)).Yields (merged (placed rules)).start w (some t) ↔
      ∃ (k : Nat) (rule : Int × Automaton), rules[k]? = some rule ∧ t = k ∧ w ∈ rule.2.texts := by
  have hvalid : ∀ p ∈ placed rules, p.Valid := fun p hp => valid_of_mem_placed h hp
  rw [yields_merged_iff hvalid]
  constructor
  · rintro ⟨p, hp, hy⟩
    obtain ⟨k, rule, hk, rfl⟩ := mem_placed_iff.mp hp
    have hrule := h rule (List.mem_of_getElem? hk)
    obtain ⟨hw, hs⟩ := ((recognizes_setSymbol hrule _).yields_iff w _).mp hy
    exact ⟨k, rule, hk, Option.some_inj.mp hs, hw⟩
  · rintro ⟨k, rule, hk, rfl, hw⟩
    have hrule := h rule (List.mem_of_getElem? hk)
    exact ⟨_, mem_placed_iff.mpr ⟨k, rule, hk, rfl⟩,
      ((recognizes_setSymbol hrule _).yields_iff w _).mpr ⟨hw, rfl⟩⟩

/-- The least place of a rule with a text is that of the first rule that has it. -/
theorem isFirst_iff {rules : List (Int × Automaton)} {w : List Char} {symbol : Int} :
    IsFirst rules w symbol ↔
      ∃ (k : Nat) (rule : Int × Automaton), rules[k]? = some rule ∧ rule.1 = symbol ∧
        w ∈ rule.2.texts ∧
        ∀ (j : Nat) (r : Int × Automaton), rules[j]? = some r → w ∈ r.2.texts → k ≤ j := by
  constructor
  · rintro ⟨before, rule, after, rfl, hsymbol, hw, hbefore⟩
    refine ⟨before.length, rule, by simp, hsymbol, hw, fun j r hj hr => ?_⟩
    by_contra hlt
    rw [List.getElem?_append_left (by omega)] at hj
    exact hbefore r (List.mem_of_getElem? hj) hr
  · rintro ⟨k, rule, hk, hsymbol, hw, hleast⟩
    obtain ⟨hlt, hget⟩ := List.getElem?_eq_some_iff.mp hk
    refine ⟨rules.take k, rule, rules.drop (k + 1), ?_, hsymbol, hw, fun r hr hwr => ?_⟩
    · rw [← hget, List.getElem_cons_drop, List.take_append_drop]
    · obtain ⟨j, hj, rfl⟩ := List.mem_iff_getElem.mp hr
      have hjk : j < k := by
        rw [List.length_take] at hj
        omega
      rw [List.getElem_take] at hwr
      have := hleast j _ (List.getElem?_eq_getElem (by omega)) hwr
      omega

/-- The merged rules are a deterministic automaton that yields each text with the symbol of the
first rule that has it. -/
theorem mergeRules_spec {rules : List (Int × Automaton)} (h : ∀ r ∈ rules, r.2.Valid) :
    (mergeRules rules).1.Deterministic ∧ (mergeRules rules).1.Symbolled ∧
      ∀ w s, (mergeRules rules).1.Yields (mergeRules rules).1.start w s ↔
        ∃ symbol, s = some symbol ∧ IsFirst rules w symbol := by
  have hvalid : ∀ p ∈ placed rules, p.Valid := fun p hp => valid_of_mem_placed h hp
  have hsym : (merged (placed rules)).Symbolled := by
    intro i hacc
    obtain ⟨k, rule, -, hk⟩ := acceptsWith_merged_placed h i hacc
    rw [hk]
    rfl
  have hdet := deterministic_determinize (merged (placed rules))
  have hrestored := hdet.mapSymbols (restore rules)
  have hstands := standsIn_trimDuplicates hrestored.valid
  rw [mergeRules_eq]
  refine ⟨hstands.deterministic hrestored, hstands.symbolled ?_, fun w s => ?_⟩
  · exact (symbolled_determinize hsym).mapSymbols fun s => Option.isSome_map
  · rw [hstands.yields_iff, start_mapSymbols, yields_mapSymbols_iff hdet.valid _ .refl]
    constructor
    · rintro ⟨t, ht, rfl⟩
      obtain ⟨p, rfl, hp, hleast⟩ := (yields_determinize_iff_least (.merged hvalid) hsym).mp ht
      obtain ⟨k, rule, hk, rfl, hw⟩ := (yields_merged_placed_iff h).mp hp
      refine ⟨rule.1, restore_place hk, isFirst_iff.mpr ⟨k, rule, hk, rfl, hw, fun j r hj hr => ?_⟩⟩
      exact Int.ofNat_le.mp (hleast j ((yields_merged_placed_iff h).mpr ⟨j, r, hj, rfl, hr⟩))
    · rintro ⟨symbol, rfl, hfirst⟩
      obtain ⟨k, rule, hk, rfl, hw, hleast⟩ := isFirst_iff.mp hfirst
      refine ⟨some (k : Int), ?_, restore_place hk⟩
      refine (yields_determinize_iff_least (.merged hvalid) hsym).mpr
        ⟨k, rfl, (yields_merged_placed_iff h).mpr ⟨k, rule, hk, rfl, hw⟩, fun t' ht' => ?_⟩
      obtain ⟨j, r, hj, rfl, hr⟩ := (yields_merged_placed_iff h).mp ht'
      exact Int.ofNat_le.mpr (hleast j r hj hr)

end Lexer

end FiberLex
