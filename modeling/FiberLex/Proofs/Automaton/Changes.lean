import FiberLex.Proofs.Automaton.Semantics
import Mathlib.Data.List.Count
import Mathlib.Logic.Function.Iterate

/-!
# Changes of single states

The operations that add a state, an epsilon or a symbol, described by what `state` returns
afterwards. All of them keep an automaton valid, and a change of the symbols changes what is yielded
in its symbols only.
-/

namespace FiberLex.Automaton

variable {a : Automaton}

@[simp] theorem size_modifyState (a : Automaton) (i : Nat) (f : State → State) :
    (a.modifyState i f).states.size = a.states.size := by
  simp [modifyState]

@[simp] theorem start_modifyState (a : Automaton) (i : Nat) (f : State → State) :
    (a.modifyState i f).start = a.start := rfl

theorem state_modifyState (a : Automaton) (i : Nat) (f : State → State) (j : Nat) :
    (a.modifyState i f).state j = if j = i ∧ j < a.states.size then f (a.state j) else a.state j := by
  unfold state modifyState
  rw [Array.getD_eq_getD_getElem?, Array.getD_eq_getD_getElem?, Array.getElem?_modify]
  by_cases hlt : j < a.states.size
  · rw [Array.getElem?_eq_getElem hlt]
    by_cases heq : i = j
    · subst heq
      simp [hlt]
    · have heq' : ¬j = i := fun h => heq h.symm
      simp [heq, heq']
  · rw [Array.getElem?_eq_none (by omega)]
    simp [hlt]

section ModifyAll

variable (f : State → State) (sources : List Nat)

/-- The automaton with one change made to each state of a list in turn. -/
def modifyAll (a : Automaton) : Automaton := sources.foldl (fun b i => b.modifyState i f) a

@[simp] theorem size_modifyAll (a : Automaton) :
    (a.modifyAll f sources).states.size = a.states.size := by
  unfold modifyAll
  induction sources generalizing a with
  | nil => rfl
  | cons i rest ih => rw [List.foldl_cons, ih, size_modifyState]

@[simp] theorem start_modifyAll (a : Automaton) : (a.modifyAll f sources).start = a.start := by
  unfold modifyAll
  induction sources generalizing a with
  | nil => rfl
  | cons i rest ih => rw [List.foldl_cons, ih, start_modifyState]

/-- A state is changed as often as it is listed. -/
theorem state_modifyAll (a : Automaton) {j : Nat} (hj : j < a.states.size) :
    (a.modifyAll f sources).state j = f^[sources.count j] (a.state j) := by
  unfold modifyAll
  induction sources generalizing a with
  | nil => rfl
  | cons i rest ih =>
    rw [List.foldl_cons, ih _ (by simpa using hj), state_modifyState]
    by_cases heq : j = i
    · subst heq
      simp [hj]
    · have heq' : ¬i = j := fun h => heq h.symm
      simp [heq, heq']

/-- A change that is made once has no effect when it is made again, or is not made again. -/
theorem state_modifyAll_eq_ite (a : Automaton) {j : Nat} (hj : j < a.states.size)
    (h : sources.Nodup ∨ ∀ s, f (f s) = f s) :
    (a.modifyAll f sources).state j = if j ∈ sources then f (a.state j) else a.state j := by
  rw [state_modifyAll f sources a hj]
  by_cases hmem : j ∈ sources
  · rw [if_pos hmem]
    rcases h with hnodup | hidem
    · rw [List.count_eq_one_of_mem hnodup hmem]
      rfl
    · obtain ⟨n, hn⟩ := Nat.exists_eq_succ_of_ne_zero (List.count_pos_iff.mpr hmem).ne'
      rw [hn]
      clear hn
      induction n with
      | zero => rfl
      | succ n ih => rw [Function.iterate_succ_apply', ih, hidem]
  · rw [if_neg hmem, List.count_eq_zero_of_not_mem hmem]
    rfl

end ModifyAll

/-! ## Forwarding and symbols -/

theorem mem_epsilons_addEpsilon {s : State} {target j : Nat} :
    j ∈ (s.addEpsilon target).epsilons ↔ j ∈ s.epsilons ∨ j = target := by
  unfold State.addEpsilon
  split
  · rename_i h
    rw [List.contains_iff_mem] at h
    constructor
    · exact Or.inl
    · rintro (hj | rfl)
      · exact hj
      · exact h
  · simp

theorem addEpsilon_of_mem {s : State} {target : Nat} (h : target ∈ s.epsilons) :
    s.addEpsilon target = s := by
  unfold State.addEpsilon
  rw [if_pos (List.contains_iff_mem.mpr h)]

@[simp] theorem accepting_addEpsilon (s : State) (target : Nat) :
    (s.addEpsilon target).accepting = s.accepting := by
  unfold State.addEpsilon
  split <;> rfl

@[simp] theorem symbol_addEpsilon (s : State) (target : Nat) :
    (s.addEpsilon target).symbol = s.symbol := by
  unfold State.addEpsilon
  split <;> rfl

@[simp] theorem edges_addEpsilon (s : State) (target : Nat) :
    (s.addEpsilon target).edges = s.edges := by
  unfold State.addEpsilon
  split <;> rfl

@[simp] theorem accepting_forwardTo (s : State) (target : Nat) :
    (s.forwardTo target).accepting = false := by
  simp [State.forwardTo]

@[simp] theorem edges_forwardTo (s : State) (target : Nat) :
    (s.forwardTo target).edges = s.edges := by
  simp [State.forwardTo]

theorem mem_epsilons_forwardTo {s : State} {target j : Nat} :
    j ∈ (s.forwardTo target).epsilons ↔ j ∈ s.epsilons ∨ j = target :=
  mem_epsilons_addEpsilon

theorem mem_successors_addEpsilon {s : State} {target j : Nat} :
    j ∈ (s.addEpsilon target).successors ↔ j ∈ s.successors ∨ j = target := by
  simp only [State.successors, List.mem_append, edges_addEpsilon, mem_epsilons_addEpsilon, or_assoc]

theorem mem_successors_forwardTo {s : State} {target j : Nat} :
    j ∈ (s.forwardTo target).successors ↔ j ∈ s.successors ∨ j = target :=
  mem_successors_addEpsilon

theorem forwardTo_forwardTo (target : Nat) (s : State) :
    (s.forwardTo target).forwardTo target = s.forwardTo target := by
  unfold State.forwardTo
  have hmem : target ∈ (({ s with accepting := false, symbol := none } : State).addEpsilon
      target).epsilons := mem_epsilons_addEpsilon.mpr (Or.inr rfl)
  have hsame : ∀ t : State, t.accepting = false → t.symbol = none →
      { t with accepting := false, symbol := none } = t := by
    rintro ⟨acc, sym, edges, epsilons⟩ rfl rfl
    rfl
  rw [hsame _ (by simp) (by simp), addEpsilon_of_mem hmem]

@[simp] theorem size_forwardAll (a : Automaton) (sources : List Nat) (target : Nat) :
    (a.forwardAll sources target).states.size = a.states.size :=
  size_modifyAll _ _ _

@[simp] theorem start_forwardAll (a : Automaton) (sources : List Nat) (target : Nat) :
    (a.forwardAll sources target).start = a.start :=
  start_modifyAll _ _ _

theorem state_forwardAll (a : Automaton) (sources : List Nat) (target : Nat) {j : Nat}
    (hj : j < a.states.size) :
    (a.forwardAll sources target).state j =
      if j ∈ sources then (a.state j).forwardTo target else a.state j :=
  state_modifyAll_eq_ite _ _ a hj (Or.inr (forwardTo_forwardTo target))

/-- An automaton is valid if the successors of its states are. -/
theorem valid_of_lt (hstart : a.start < a.states.size)
    (h : ∀ i < a.states.size, ∀ j ∈ (a.state i).successors, j < a.states.size) : a.Valid := by
  refine ⟨hstart, fun i j hj => ?_⟩
  by_cases hi : i < a.states.size
  · exact h i hi j hj
  · rw [state_of_size_le (by omega)] at hj
    cases hj

theorem Valid.forwardAll (h : a.Valid) (sources : List Nat) {target : Nat}
    (ht : target < a.states.size) : (a.forwardAll sources target).Valid := by
  refine valid_of_lt (by simpa using h.start_lt) fun i hi j hj => ?_
  rw [size_forwardAll] at hi ⊢
  rw [state_forwardAll a sources target hi] at hj
  split at hj
  · rcases mem_successors_forwardTo.mp hj with hj | rfl
    · exact h.successor_lt i j hj
    · exact ht
  · exact h.successor_lt i j hj

@[simp] theorem size_addEpsilon (a : Automaton) (source target : Nat) :
    (a.addEpsilon source target).states.size = a.states.size :=
  size_modifyState _ _ _

@[simp] theorem start_addEpsilon (a : Automaton) (source target : Nat) :
    (a.addEpsilon source target).start = a.start := rfl

theorem state_addEpsilon_self (a : Automaton) {source : Nat} (h : source < a.states.size)
    (target : Nat) : (a.addEpsilon source target).state source =
      (a.state source).addEpsilon target := by
  rw [addEpsilon, state_modifyState, if_pos ⟨rfl, h⟩]

theorem state_addEpsilon_of_ne (a : Automaton) {source j : Nat} (h : j ≠ source) (target : Nat) :
    (a.addEpsilon source target).state j = a.state j := by
  rw [addEpsilon, state_modifyState, if_neg fun hj => h hj.1]

theorem Valid.addEpsilon (h : a.Valid) (source : Nat) {target : Nat}
    (ht : target < a.states.size) : (a.addEpsilon source target).Valid := by
  refine valid_of_lt (by simpa using h.start_lt) fun i hi j hj => ?_
  rw [size_addEpsilon] at hi ⊢
  by_cases heq : i = source
  · subst heq
    rw [state_addEpsilon_self a hi] at hj
    rcases mem_successors_addEpsilon.mp hj with hj | rfl
    · exact h.successor_lt i j hj
    · exact ht
  · rw [state_addEpsilon_of_ne a heq] at hj
    exact h.successor_lt i j hj

theorem size_addState (a : Automaton) (accepting : Bool) (symbol : Option Int) :
    (a.addState accepting symbol).1.states.size = a.states.size + 1 := by
  simp [addState]

theorem state_addState_of_lt (a : Automaton) (accepting : Bool) (symbol : Option Int) {j : Nat}
    (h : j < a.states.size) : (a.addState accepting symbol).1.state j = a.state j := by
  simp [addState, state, Array.getD_eq_getD_getElem?, Array.getElem?_push, Nat.ne_of_lt h]

theorem state_addState_last (a : Automaton) (accepting : Bool) (symbol : Option Int) :
    (a.addState accepting symbol).1.state a.states.size = { accepting, symbol } := by
  simp [addState, state, Array.getD_eq_getD_getElem?]

theorem Valid.addState (h : a.Valid) (accepting : Bool) (symbol : Option Int) :
    (a.addState accepting symbol).1.Valid := by
  have hstart := h.start_lt
  refine valid_of_lt (by simp only [size_addState]; exact Nat.lt_succ_of_lt hstart) ?_
  intro i hi j hj
  rw [size_addState] at hi ⊢
  by_cases hlt : i < a.states.size
  · rw [state_addState_of_lt a accepting symbol hlt] at hj
    exact Nat.lt_succ_of_lt (h.successor_lt i j hj)
  · obtain rfl : i = a.states.size := by omega
    rw [state_addState_last] at hj
    cases hj

theorem mem_acceptingStates_iff (h : a.Valid) {i : Nat} :
    i ∈ a.acceptingStates ↔ a.Reaches a.start i ∧ (a.state i).accepting = true := by
  rw [acceptingStates, List.mem_filter, mem_closure_iff h]

@[simp] theorem size_mapSymbols (a : Automaton) (f : Option Int → Option Int) :
    (a.mapSymbols f).states.size = a.states.size :=
  size_modifyAll _ _ _

@[simp] theorem start_mapSymbols (a : Automaton) (f : Option Int → Option Int) :
    (a.mapSymbols f).start = a.start :=
  start_modifyAll _ _ _

theorem state_mapSymbols (a : Automaton) (f : Option Int → Option Int) {j : Nat}
    (hj : j < a.states.size) :
    (a.mapSymbols f).state j =
      if j ∈ a.acceptingStates then { a.state j with symbol := f (a.state j).symbol }
      else a.state j :=
  state_modifyAll_eq_ite _ _ a hj (Or.inl ((nodup_closureFrom a a.start).filter _))

/-- Only symbols change. -/
theorem edges_epsilons_mapSymbols (a : Automaton) (f : Option Int → Option Int) (j : Nat) :
    ((a.mapSymbols f).state j).accepting = (a.state j).accepting ∧
      ((a.mapSymbols f).state j).edges = (a.state j).edges ∧
      ((a.mapSymbols f).state j).epsilons = (a.state j).epsilons := by
  by_cases hj : j < a.states.size
  · rw [state_mapSymbols a f hj]
    split <;> exact ⟨rfl, rfl, rfl⟩
  · have hnone : (a.mapSymbols f).state j = {} := state_of_size_le (by simpa using hj)
    rw [hnone, state_of_size_le (Nat.le_of_not_lt hj)]
    exact ⟨rfl, rfl, rfl⟩

theorem successors_mapSymbols (a : Automaton) (f : Option Int → Option Int) (j : Nat) :
    ((a.mapSymbols f).state j).successors = (a.state j).successors := by
  obtain ⟨-, hedges, hepsilons⟩ := edges_epsilons_mapSymbols a f j
  rw [State.successors, hedges, hepsilons]
  rfl

theorem Valid.mapSymbols (h : a.Valid) (f : Option Int → Option Int) : (a.mapSymbols f).Valid := by
  refine ⟨by simpa using h.start_lt, fun i j hj => ?_⟩
  rw [successors_mapSymbols] at hj
  rw [size_mapSymbols]
  exact h.successor_lt i j hj

/-- Changing the symbols changes those that are yielded, and nothing else. -/
theorem yields_mapSymbols_iff (h : a.Valid) (f : Option Int → Option Int) {i : Nat}
    (hi : a.Reaches a.start i) {w : List Char} {s : Option Int} :
    (a.mapSymbols f).Yields i w s ↔ ∃ t, a.Yields i w t ∧ f t = s := by
  have hsymbol : ∀ i, a.Reaches a.start i → (a.state i).accepting = true →
      ((a.mapSymbols f).state i).symbol = f (a.state i).symbol := by
    intro i hi hacc
    rw [state_mapSymbols a f (hi.lt_size h h.start_lt),
      if_pos ((mem_acceptingStates_iff h).mpr ⟨hi, hacc⟩)]
  constructor
  · intro hy
    induction hy with
    | @stop i hacc =>
      rw [(edges_epsilons_mapSymbols a f i).1] at hacc
      exact ⟨_, .stop hacc, (hsymbol i hi hacc).symm⟩
    | @epsilon i j w s hj _ ih =>
      rw [(edges_epsilons_mapSymbols a f i).2.2] at hj
      obtain ⟨t, ht, rfl⟩ := ih (hi.epsilon hj)
      exact ⟨t, .epsilon hj ht, rfl⟩
    | @edge i e c w s he hc _ ih =>
      rw [(edges_epsilons_mapSymbols a f i).2.1] at he
      obtain ⟨t, ht, rfl⟩ := ih (hi.edge he)
      exact ⟨t, .edge he hc ht, rfl⟩
  · rintro ⟨t, hy, rfl⟩
    induction hy with
    | @stop i hacc =>
      rw [← hsymbol i hi hacc]
      exact .stop ((edges_epsilons_mapSymbols a f i).1.trans hacc)
    | @epsilon i j w s hj _ ih =>
      exact .epsilon ((edges_epsilons_mapSymbols a f i).2.2 ▸ hj) (ih (hi.epsilon hj))
    | @edge i e c w s he hc _ ih =>
      exact .edge ((edges_epsilons_mapSymbols a f i).2.1 ▸ he) hc (ih (hi.edge he))

theorem reaches_mapSymbols_iff {f : Option Int → Option Int} {i j : Nat} :
    (a.mapSymbols f).Reaches i j ↔ a.Reaches i j := by
  unfold Reaches
  simp only [successors_mapSymbols]

theorem symbol_setSymbol (ha : a.Valid) (symbol : Option Int) {i : Nat}
    (hi : (a.setSymbol symbol).Reaches (a.setSymbol symbol).start i)
    (hacc : ((a.setSymbol symbol).state i).accepting = true) :
    ((a.setSymbol symbol).state i).symbol = symbol := by
  rw [setSymbol, start_mapSymbols, reaches_mapSymbols_iff] at hi
  rw [setSymbol, (edges_epsilons_mapSymbols a _ i).1] at hacc
  rw [setSymbol, state_mapSymbols a _ (hi.lt_size ha ha.start_lt),
    if_pos ((mem_acceptingStates_iff ha).mpr ⟨hi, hacc⟩)]

end FiberLex.Automaton
