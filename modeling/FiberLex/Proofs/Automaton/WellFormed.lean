import FiberLex.Automaton.CaseFolding
import FiberLex.Proofs.Automaton.Composable
import FiberLex.Proofs.Automaton.Compose
import FiberLex.Proofs.Automaton.Determinize
import FiberLex.Proofs.Automaton.Reduce
import FiberLex.Proofs.Pattern.Reading

/-!
# The invariant of automata

A state is tidy if its ranges are proper and share no code point, and no epsilon of it is listed
twice. An automaton is well-formed if it is valid and its states are tidy, also those that cannot be
reached. Every operation on automata makes well-formed automata of well-formed ones. Those that add
edges without looking at the others, for a set, for the other letter case and for a set of states,
do so because what they add is disjoint from what is there.
-/

namespace FiberLex

open CodeSet

namespace CodeRange

/-- No code point is in both ranges. -/
def Apart (r t : CodeRange) : Prop := ∀ cp, ¬ (r.contains cp = true ∧ t.contains cp = true)

theorem apart_of_lt {r t : CodeRange} (h : r.high < t.low) : r.Apart t := by
  intro cp
  rw [contains_iff, contains_iff]
  omega

theorem apart_of_meets {r t : CodeRange} (h : r.meets t = false) : r.Apart t := by
  intro cp
  rw [← Bool.not_eq_true, meets_iff] at h
  rw [contains_iff, contains_iff]
  omega

end CodeRange

namespace State

/-- The ranges of the edges are proper, no code point is in two of them, and no epsilon is listed
twice. -/
structure Tidy (s : State) : Prop where
  within : ∀ e ∈ s.edges, e.range.Within
  disjoint : s.edges.Pairwise fun e f => e.range.Apart f.range
  nodup : s.epsilons.Nodup

variable {s t : State}

/-- A state without edges and epsilons is tidy. -/
theorem tidy_of_isTerminal (hedges : s.edges = []) (hepsilons : s.epsilons = []) : s.Tidy := by
  refine ⟨?_, ?_, ?_⟩
  · simp [hedges]
  · simp [hedges]
  · simp [hepsilons]

theorem Tidy.congr (h : s.Tidy) (hedges : t.edges = s.edges) (hepsilons : t.epsilons = s.epsilons) :
    t.Tidy :=
  ⟨hedges ▸ h.within, hedges ▸ h.disjoint, hepsilons ▸ h.nodup⟩

/-- Edges may be led elsewhere. -/
theorem Tidy.lead (h : s.Tidy) (f : Nat → Nat)
    (hedges : t.edges = s.edges.map fun e => ⟨e.range, f e.target⟩) (hnodup : t.epsilons.Nodup) :
    t.Tidy := by
  refine ⟨?_, ?_, hnodup⟩
  · rw [hedges]
    exact List.forall_mem_map.mpr h.within
  · rw [hedges]
    exact List.pairwise_map.mpr h.disjoint

/-- More edges may be added that share no code point with each other or with those there are. -/
theorem Tidy.appendEdges (h : s.Tidy) {more : List Edge} (hwithin : ∀ e ∈ more, e.range.Within)
    (hdisjoint : more.Pairwise fun e f => e.range.Apart f.range)
    (hnew : ∀ e ∈ s.edges, ∀ f ∈ more, e.range.Apart f.range) :
    ({ s with edges := s.edges ++ more } : State).Tidy :=
  ⟨List.forall_mem_append.mpr ⟨h.within, hwithin⟩,
    List.pairwise_append.mpr ⟨h.disjoint, hdisjoint, hnew⟩, h.nodup⟩

theorem Tidy.addEdge (h : s.Tidy) {e : Edge} (hwithin : e.range.Within)
    (hfree : s.edges.any (·.range.meets e.range) = false) : (s.addEdge e).Tidy := by
  refine h.appendEdges (by simpa using hwithin) (List.pairwise_singleton _ _) ?_
  intro d hd f hf
  obtain rfl := List.mem_singleton.mp hf
  exact CodeRange.apart_of_meets (Bool.eq_false_iff.mpr (List.any_eq_false.mp hfree d hd))

theorem Tidy.addEpsilon (h : s.Tidy) (target : Nat) : (s.addEpsilon target).Tidy := by
  unfold State.addEpsilon
  split
  · exact h
  · rename_i hnew
    rw [List.contains_iff_mem] at hnew
    refine ⟨h.within, h.disjoint, ?_⟩
    refine List.nodup_append.mpr ⟨h.nodup, List.nodup_singleton _, ?_⟩
    intro i hi j hj hij
    obtain rfl := List.mem_singleton.mp hj
    exact hnew (hij ▸ hi)

theorem Tidy.forwardTo (h : s.Tidy) (target : Nat) : (s.forwardTo target).Tidy := by
  have hplain : ({ s with accepting := false, symbol := none } : State).Tidy := h.congr rfl rfl
  exact hplain.addEpsilon target

end State

namespace Automaton

variable {a b : Automaton}

/-- The start and all targets are states, and every state is tidy. -/
structure WellFormed (a : Automaton) : Prop extends Valid a where
  tidy : ∀ i, (a.state i).Tidy

theorem tidy_of_forall_mem (h : ∀ s ∈ a.states, s.Tidy) (i : Nat) : (a.state i).Tidy := by
  by_cases hi : i < a.states.size
  · rw [state_eq_getElem hi]
    exact h _ (Array.getElem_mem hi)
  · rw [state_of_size_le (Nat.le_of_not_lt hi)]
    exact State.tidy_of_isTerminal rfl rfl

theorem WellFormed.tidy_of_mem (h : a.WellFormed) {s : State} (hs : s ∈ a.states) : s.Tidy := by
  obtain ⟨i, hi, rfl⟩ := Array.mem_iff_getElem.mp hs
  rw [← state_eq_getElem hi]
  exact h.tidy i

/-- A criterion that can be decided. -/
theorem wellFormed_of_meets (hvalid : a.Valid)
    (h : ∀ s ∈ a.states, (∀ e ∈ s.edges, e.range.Within) ∧
      s.edges.Pairwise (fun e f => e.range.meets f.range = false) ∧ s.epsilons.Nodup) :
    a.WellFormed := by
  refine ⟨hvalid, tidy_of_forall_mem fun s hs => ?_⟩
  obtain ⟨hwithin, hmeets, hnodup⟩ := h s hs
  exact ⟨hwithin, hmeets.imp CodeRange.apart_of_meets, hnodup⟩

/-! ## Single changes -/

theorem wellFormed_of_blank {s : State} (hedges : s.edges = []) (hepsilons : s.epsilons = []) :
    WellFormed ⟨#[s], 0⟩ := by
  refine ⟨valid_iff.mpr ?_, tidy_of_forall_mem ?_⟩
  · simp [State.successors, hedges, hepsilons]
  · simpa using State.tidy_of_isTerminal hedges hepsilons

theorem wellFormed_new : new.WellFormed := wellFormed_of_blank rfl rfl

theorem wellFormed_empty (symbol : Option Int) : (empty symbol).WellFormed :=
  wellFormed_of_blank rfl rfl

theorem WellFormed.addState (h : a.WellFormed) (accepting : Bool) (symbol : Option Int) :
    (a.addState accepting symbol).1.WellFormed := by
  refine ⟨h.toValid.addState accepting symbol, tidy_of_forall_mem fun s hs => ?_⟩
  rcases Array.mem_push.mp hs with hs | rfl
  · exact h.tidy_of_mem hs
  · exact State.tidy_of_isTerminal rfl rfl

theorem WellFormed.modifyState (h : a.WellFormed) {i : Nat} {f : State → State}
    (hvalid : (a.modifyState i f).Valid) (hf : (f (a.state i)).Tidy) :
    (a.modifyState i f).WellFormed := by
  refine ⟨hvalid, fun j => ?_⟩
  rw [state_modifyState]
  split
  · rename_i hj
    rw [hj.1]
    exact hf
  · exact h.tidy j

/-- An edge that is added shares no code point with the others. -/
theorem WellFormed.addEdge (h : a.WellFormed) {source target : Nat} {range : CodeRange}
    (hrange : range.Within) (ht : target < a.states.size)
    (hok : a.addEdge source range target = .ok b) : b.WellFormed := by
  rw [addEdge_eq] at hok
  split at hok
  · cases hok
  · rename_i hfree
    cases hok
    refine h.modifyState ?_ ((h.tidy source).addEdge hrange (by simpa using hfree))
    refine ⟨by simpa using h.start_lt, fun i j hj => ?_⟩
    rw [state_modifyState] at hj
    rw [size_modifyState]
    split at hj
    · rcases List.mem_append.mp hj with hj | hj
      · rw [State.addEdge, List.map_append, List.mem_append] at hj
        rcases hj with hj | hj
        · exact h.successor_lt i j (List.mem_append_left _ hj)
        · obtain rfl := List.mem_singleton.mp hj
          exact ht
      · exact h.successor_lt i j (List.mem_append_right _ hj)
    · exact h.successor_lt i j hj

theorem WellFormed.addEpsilon (h : a.WellFormed) (source : Nat) {target : Nat}
    (ht : target < a.states.size) : (a.addEpsilon source target).WellFormed :=
  h.modifyState (h.toValid.addEpsilon source ht) ((h.tidy source).addEpsilon target)

theorem WellFormed.forwardAll (h : a.WellFormed) (sources : List Nat) {target : Nat}
    (ht : target < a.states.size) : (a.forwardAll sources target).WellFormed := by
  refine ⟨h.toValid.forwardAll sources ht, fun j => ?_⟩
  by_cases hj : j < a.states.size
  · rw [state_forwardAll a sources target hj]
    split
    · exact (h.tidy j).forwardTo target
    · exact h.tidy j
  · rw [state_of_size_le (by simpa using hj)]
    exact State.tidy_of_isTerminal rfl rfl

theorem WellFormed.mapSymbols (h : a.WellFormed) (f : Option Int → Option Int) :
    (a.mapSymbols f).WellFormed := by
  refine ⟨h.toValid.mapSymbols f, fun j => ?_⟩
  obtain ⟨-, hedges, hepsilons⟩ := edges_epsilons_mapSymbols a f j
  exact (h.tidy j).congr hedges hepsilons

theorem WellFormed.setSymbol (h : a.WellFormed) (symbol : Option Int) :
    (a.setSymbol symbol).WellFormed := h.mapSymbols fun _ => symbol

/-! ## Copies -/

/-- Different states that can be reached have different places. -/
theorem WellFormed.tidy_mapTargets (h : a.WellFormed) {root i : Nat} (hroot : root < a.states.size)
    (hi : i ∈ a.closureFrom root) (base : Nat) :
    ((a.state i).mapTargets fun j => base + (a.closureFrom root).idxOf j).Tidy := by
  refine (h.tidy i).lead (fun j => base + (a.closureFrom root).idxOf j) rfl ?_
  refine (List.nodup_map_iff_inj_on (h.tidy i).nodup).mpr ?_
  intro j hj k _ hjk
  have hreach := (mem_closureFrom_iff h.toValid hroot).mp hi
  have hmem := (mem_closureFrom_iff h.toValid hroot).mpr (hreach.epsilon hj)
  exact (List.idxOf_inj hmem).mp (Nat.add_left_cancel hjk)

theorem WellFormed.absorb (ha : a.WellFormed) (hb : b.WellFormed) :
    (a.absorb b).1.WellFormed := by
  refine ⟨ha.toValid.absorb hb.toValid, tidy_of_forall_mem fun s hs => ?_⟩
  rw [states_absorb a hb.toValid] at hs
  rcases Array.mem_append.mp hs with hs | hs
  · exact ha.tidy_of_mem hs
  · obtain ⟨i, hi, rfl⟩ := List.mem_map.mp (List.mem_toArray.mp hs)
    exact hb.tidy_mapTargets hb.start_lt hi a.states.size

theorem WellFormed.subgraph (h : a.WellFormed) {root : Nat} (hroot : root < a.states.size) :
    (a.subgraph root).1.WellFormed := by
  refine ⟨valid_subgraph h.toValid hroot, tidy_of_forall_mem fun s hs => ?_⟩
  rw [states_subgraph h.toValid hroot] at hs
  obtain ⟨i, hi, rfl⟩ := List.mem_map.mp (List.mem_toArray.mp hs)
  have htidy := h.tidy_mapTargets hroot hi 0
  simp only [Nat.zero_add] at htidy
  exact htidy

theorem WellFormed.compact (h : a.WellFormed) : a.compact.WellFormed := h.subgraph h.start_lt

/-! ## Compositions -/

theorem wellFormed_ofCodePoints {cps : List Nat} (h : ∀ cp ∈ cps, cp ≤ maxCodePoint)
    (symbol : Option Int) : (ofCodePoints cps symbol).WellFormed := by
  refine ⟨(recognizes_ofCodePoints cps symbol).valid, tidy_of_forall_mem fun s hs => ?_⟩
  rcases Array.mem_push.mp hs with hs | rfl
  · rw [List.mem_toArray] at hs
    obtain ⟨⟨cp, k⟩, hmem, rfl⟩ := List.mem_map.mp hs
    refine ⟨?_, List.pairwise_singleton _ _, .nil⟩
    rw [List.forall_mem_singleton]
    exact ⟨Nat.le_refl _, h cp (List.fst_mem_of_mem_zipIdx hmem)⟩
  · exact State.tidy_of_isTerminal rfl rfl

theorem wellFormed_ofSet {set : CodeSet} (h : ∀ r ∈ set, r.Within) (symbol : Option Int) :
    (ofSet set symbol).WellFormed := by
  refine ⟨(recognizes_ofSet set symbol).valid, tidy_of_forall_mem ?_⟩
  have hwithin : ∀ r ∈ set.toList, r.Within := fun r hr => h r (Array.mem_toList_iff.mp hr)
  have hordered := ordered_normalList fun r hr => (hwithin r hr).1
  simp only [ofSet, Array.mem_def, List.forall_mem_cons]
  refine ⟨⟨?_, ?_, .nil⟩, State.tidy_of_isTerminal rfl rfl, by simp⟩
  · exact List.forall_mem_map.mpr (within_normalList hwithin)
  · exact List.pairwise_map.mpr (hordered.pairwise.imp CodeRange.apart_of_lt)

/-- Every step of a composition makes well-formed automata of well-formed ones. -/
theorem composable_wellFormed : Composable WellFormed where
  valid h := h.toValid
  new := wellFormed_new
  empty := wellFormed_empty
  addState := WellFormed.addState
  addEpsilon := WellFormed.addEpsilon
  forwardAll := WellFormed.forwardAll
  setSymbol := WellFormed.setSymbol
  absorb := WellFormed.absorb
  compact := WellFormed.compact

theorem wellFormed_concat {parts : List Automaton} (h : ∀ p ∈ parts, p.WellFormed)
    (symbol : Option Int) : (concat parts symbol).WellFormed :=
  composable_wellFormed.concat h symbol

theorem wellFormed_choice {parts : List Automaton} (h : ∀ p ∈ parts, p.WellFormed)
    (symbol : Option Int) : (choice parts symbol).WellFormed :=
  composable_wellFormed.choice h symbol

theorem wellFormed_merged {parts : List Automaton} (h : ∀ p ∈ parts, p.WellFormed) :
    (merged parts).WellFormed :=
  composable_wellFormed.merged h

theorem WellFormed.optional (h : a.WellFormed) (symbol : Option Int) :
    (a.optional symbol).WellFormed :=
  composable_wellFormed.optional h symbol

theorem WellFormed.repeated (h : a.WellFormed) {min : Nat} {max : Option Nat} {symbol : Option Int}
    (hok : a.repeated min max symbol = .ok b) : b.WellFormed :=
  composable_wellFormed.repeated h hok

/-! ## Patterns -/

/-- The code points and ranges of a pattern that can be read are proper. -/
theorem madeOf_of_legible {p : Pattern} (h : p.Legible) :
    p.MadeOf (· ≤ maxCodePoint) fun set => ∀ r ∈ set, r.Within := by
  have hset : ∀ {set : CodeSet}, Ordered set.toList → (∀ r ∈ set.toList, r.Within) →
      ∀ negated, ∀ r ∈ set.negateIf negated, r.Within := fun hordered hwithin negated r hr =>
    within_negateIf hordered hwithin negated r (Array.mem_toList_iff.mpr hr)
  induction h with
  | literal hcp => exact .literal hcp
  | dot => exact .dot (by decide)
  | ofRanges hrs negated =>
    exact .oneOf (hset (ordered_normalList fun r hr => (hrs.within r hr).1)
      (within_normalList hrs.within) negated)
  | category cat negated => exact .category (hset cat.ordered_ranges cat.within_ranges negated)
  | concat _ ih => exact .concat ih
  | alt _ _ ih => exact .alt ih
  | repetition _ _ isLazy ih => exact .repetition ih _ _ isLazy

/-- The automaton of a pattern that can be read is well-formed. -/
theorem wellFormed_ofPattern {p : Pattern} (h : p.Legible) {symbol : Option Int}
    (hok : ofPattern p symbol = .ok a) : a.WellFormed :=
  composable_wellFormed.ofPattern (fun _ symbol h => wellFormed_ofCodePoints h symbol)
    (fun _ symbol h => wellFormed_ofSet h symbol) (madeOf_of_legible h) hok

/-! ## Determinisation and reductions -/

/-- The edges of a set of states hold nothing that the edges of its members do not. -/
theorem WellFormed.determinize (h : a.WellFormed) : a.determinize.1.WellFormed := by
  have hdet := deterministic_determinize a
  obtain ⟨known, hnumbers⟩ := exists_numbers_determinize a
  refine ⟨hdet.valid, fun k => ⟨fun e he => ⟨hdet.low_le_high k e he, ?_⟩, ?_, ?_⟩⟩
  · rcases hnumbers.row_or k with ⟨set, -, hrow⟩ | hnone
    · have hhigh : e.range.contains e.range.high = true :=
        CodeRange.contains_iff.mpr ⟨hdet.low_le_high k e he, Nat.le_refl _⟩
      obtain ⟨hne, -⟩ := hrow.leads e.range.high e.target ⟨e, he, hhigh, rfl⟩
      obtain ⟨j, hj⟩ := List.exists_mem_of_ne_nil _ hne
      obtain ⟨i, -, d, hd, hc, -⟩ := mem_targets_iff.mp hj
      exact (CodeRange.contains_iff.mp hc).2.trans ((h.tidy i).within d hd).2
    · rw [hnone] at he
      cases he
  · exact (hdet.disjoint k).imp CodeRange.apart_of_meets
  · rw [hdet.epsilons]
    exact .nil

theorem WellFormed.redirect (h : a.WellFormed) {f : Nat → Nat}
    (hf : ∀ i < a.states.size, f i < a.states.size) : (a.redirect f).WellFormed := by
  refine ⟨valid_redirect h.toValid hf, fun i => ?_⟩
  rw [state_redirect]
  exact (h.tidy i).lead f rfl (nodup_eraseDups _)

theorem WellFormed.mergePasses (h : a.WellFormed) (pass fuel : Nat) :
    (a.mergePasses pass fuel).1.WellFormed := by
  induction fuel generalizing a pass with
  | zero => exact h
  | succ fuel ih =>
    rw [Automaton.mergePasses]
    split
    · exact h
    · rename_i b hb
      unfold mergeDuplicates? at hb
      simp only at hb
      split at hb
      · cases hb
      · cases hb
        exact ih (h.redirect fun i => (a.representative_spec i).2) (pass + 1)

theorem WellFormed.trimDuplicates (h : a.WellFormed) : a.trimDuplicates.1.WellFormed :=
  (h.mergePasses 0 (a.states.size + 1)).compact

/-- A chain of neutral states ends at a state. -/
theorem Valid.chainEnd?_lt (h : a.Valid) {fuel i last : Nat} (hi : i < a.states.size)
    (hlast : a.chainEnd? fuel i = some last) : last < a.states.size := by
  induction fuel generalizing i with
  | zero =>
    unfold chainEnd? at hlast
    simp only at hlast
    split at hlast
    · cases hlast
    · cases hlast
      exact hi
  | succ fuel ih =>
    unfold chainEnd? at hlast
    simp only at hlast
    split at hlast
    · split at hlast
      · rename_i next rest heq hepsilons
        cases heq
        exact ih (h.epsilon_lt (by rw [hepsilons]; exact List.mem_cons_self)) hlast
      · cases hlast
    · cases hlast
      exact hi

/-- Bypassing neutral states leads to states. -/
theorem WellFormed.trimNeutrals (h : a.WellFormed) (hok : a.trimNeutrals = .ok b) :
    b.WellFormed := by
  rw [trimNeutrals_eq] at hok
  obtain ⟨ends, hends, hok⟩ := Scan.bind_eq_ok.mp hok
  have hlast : ∀ i, (ends.lookup i).getD i < a.states.size ∨ ends.lookup i = none := by
    intro i
    cases hlookup : ends.lookup i with
    | none => exact Or.inr rfl
    | some last =>
      left
      obtain ⟨l₁, l₂, hsplit, -⟩ := List.lookup_eq_some_iff.mp hlookup
      have hmem : (i, last) ∈ ends := by simp [hsplit]
      obtain ⟨j, hj, hpair⟩ := exists_of_mem_mapM hends hmem
      split at hpair
      · rename_i last' hchain
        cases hpair
        have hlt := lt_size_of_mem_closureFrom (List.mem_of_mem_filter hj)
        exact h.toValid.chainEnd?_lt hlt hchain
      · cases hpair
  split at hok
  · cases hok
    exact h
  · cases hok
    refine WellFormed.compact (h.redirect fun i hi => ?_)
    rcases hlast i with hlt | hnone
    · exact hlt
    · rwa [hnone]

/-! ## Letter case -/

section LetterCase

open Text

theorem mapRuns_le {runs : List CaseRun}
    (h : ∀ run ∈ runs, run.image + (run.high - run.low) ≤ maxCodePoint) {cp : Nat}
    (hcp : cp ≤ maxCodePoint) : mapRuns runs cp ≤ maxCodePoint := by
  unfold mapRuns
  cases hfind : runs.findSome? (·.map? cp) with
  | none => exact hcp
  | some image =>
    obtain ⟨run, hrun, hmap⟩ := List.exists_of_findSome?_eq_some hfind
    have hbound := h run hrun
    unfold CaseRun.map? at hmap
    split at hmap
    · cases hmap
      simp only [Option.getD_some]
      omega
    · cases hmap

/-- Counterparts of code points are code points. -/
theorem upper?_le {cp u : Nat} (hcp : cp ≤ maxCodePoint) (h : upper? cp = some u) :
    u ≤ maxCodePoint := by
  have hruns : ∀ run ∈ upperRuns, run.image + (run.high - run.low) ≤ maxCodePoint := by
    decide +kernel
  unfold upper? at h
  split at h
  · cases h
    split <;> omega
  · split at h
    · cases h
    · cases h
      exact mapRuns_le hruns hcp

theorem lower?_le {cp u : Nat} (hcp : cp ≤ maxCodePoint) (h : lower? cp = some u) :
    u ≤ maxCodePoint := by
  have hruns : ∀ run ∈ lowerRuns, run.image + (run.high - run.low) ≤ maxCodePoint := by
    decide +kernel
  unfold lower? at h
  split at h
  · rename_i hascii
    cases h
    have hmax : 160 ≤ maxCodePoint := by decide
    split <;> omega
  · split at h
    · cases h
    · cases h
      exact mapRuns_le hruns hcp

theorem within_of_counterpart? {range other : CodeRange} {low high : Option Nat}
    (h : counterpart? range low high = some other) (hhigh : ∀ u, high = some u → u ≤ maxCodePoint) :
    other.Within := by
  unfold counterpart? at h
  split at h
  · split at h
    · rename_i hle
      cases h
      exact ⟨hle.1, hhigh _ rfl⟩
    · cases h
  · cases h

theorem within_of_otherCase {range other : CodeRange} (hrange : range.Within)
    (h : otherCase range = .ok (some other)) : other.Within := by
  unfold otherCase at h
  split at h
  · split at h
    · split at h
      · exact within_of_counterpart? (Except.ok.inj h) fun u => upper?_le hrange.2
      · cases h
    · split at h
      · split at h
        · exact within_of_counterpart? (Except.ok.inj h) fun u => lower?_le hrange.2
        · cases h
      · cases h
  · cases h

/-- What is added of a range has no code point that an edge of the state has. -/
theorem tidy_coverRest {s : State} (h : s.Tidy) {range : CodeRange} (hrange : range.Within)
    (target : Nat) : (coverRest s range target).Tidy := by
  have hproper : Proper (s.edges.map (·.range)) :=
    List.forall_mem_map.mpr fun e he => (h.within e he).1
  have hone : Separated [range] := separated_singleton hrange.1
  have hordered := (separated_foldl_minusAll hone hproper).ordered
  have hrest : s.edges.foldl (fun pieces e => CodeRange.minusAll pieces e.range) [range] =
      (s.edges.map (·.range)).foldl CodeRange.minusAll [range] := List.foldl_map.symm
  rw [coverRest, hrest]
  refine h.appendEdges ?_ (List.pairwise_map.mpr (hordered.pairwise.imp CodeRange.apart_of_lt)) ?_
  · refine List.forall_mem_map.mpr fun r hr => ⟨hordered.proper r hr, ?_⟩
    have hin := within_foldl_minusAll hone hproper
      (List.forall_mem_singleton.mpr ⟨Nat.le_refl _, Nat.le_refl _⟩) r hr
    exact hin.2.trans hrange.2
  · intro e he f hf cp hboth
    obtain ⟨r, hr, rfl⟩ := List.mem_map.mp hf
    have hcovers : Covers ((s.edges.map (·.range)).foldl CodeRange.minusAll [range]) cp :=
      ⟨r, hr, hboth.2⟩
    exact (covers_foldl_minusAll.mp hcovers).2 ⟨e.range, List.mem_map_of_mem he, hboth.1⟩

/-- Adding the other letter case of edges keeps a state tidy, and leads where the edges lead. -/
theorem tidy_addOtherCases {size : Nat} {s t : State} {edges : List Edge}
    (hedges : ∀ e ∈ edges, e.range.Within ∧ e.target < size)
    (hs : s.Tidy ∧ ∀ j ∈ s.successors, j < size) (hok : addOtherCases s edges = .ok t) :
    t.Tidy ∧ ∀ j ∈ t.successors, j < size := by
  induction edges generalizing s with
  | nil =>
    cases hok
    exact hs
  | cons e edges ih =>
    obtain ⟨he, hrest⟩ := List.forall_mem_cons.mp hedges
    obtain ⟨other, hother, hok⟩ := Scan.bind_eq_ok.mp hok
    cases other with
    | none => exact ih hrest hs hok
    | some range =>
      refine ih hrest ⟨tidy_coverRest hs.1 (within_of_otherCase he.1 hother) e.target, ?_⟩ hok
      intro j hj
      rcases List.mem_append.mp hj with hj | hj
      · rw [coverRest, List.map_append, List.mem_append] at hj
        rcases hj with hj | hj
        · exact hs.2 j (List.mem_append_left _ hj)
        · simp only [List.map_map, List.mem_map, Function.comp_apply] at hj
          obtain ⟨r, -, rfl⟩ := hj
          exact he.2
      · exact hs.2 j (List.mem_append_right _ hj)

theorem WellFormed.ignoringCase (h : a.WellFormed) {symbol : Option Int}
    (hok : a.ignoringCase symbol = .ok b) : b.WellFormed := by
  obtain ⟨states, hstates, hok⟩ := Scan.bind_eq_ok.mp hok
  have hcompact := h.compact
  have hsize : states.toArray.size = a.compact.states.size :=
    (mapM_eq_ok_iff.mp hstates).length_eq.symm
  have hstate : ∀ t ∈ states, t.Tidy ∧ ∀ j ∈ t.successors, j < states.toArray.size := by
    intro t ht
    obtain ⟨s, hs, hcases⟩ := exists_of_mem_mapM hstates ht
    have hs := Array.mem_toList_iff.mp hs
    have htidy := hcompact.tidy_of_mem hs
    have hsuccessors := (valid_iff.mp hcompact.toValid).2 s hs
    rw [← hsize] at hsuccessors
    refine tidy_addOtherCases (fun e he => ⟨htidy.within e he, ?_⟩) ⟨htidy, hsuccessors⟩ hcases
    exact hsuccessors _ (List.mem_append_left _ (List.mem_map_of_mem he))
  have hwidened : WellFormed { a.compact with states := states.toArray } := by
    refine ⟨valid_iff.mpr ⟨?_, fun t ht => (hstate t (List.mem_toArray.mp ht)).2⟩,
      tidy_of_forall_mem fun t ht => (hstate t (List.mem_toArray.mp ht)).1⟩
    rw [hsize]
    exact hcompact.start_lt
  cases hok
  split
  · exact hwidened.setSymbol symbol
  · exact hwidened

end LetterCase

end Automaton

end FiberLex
