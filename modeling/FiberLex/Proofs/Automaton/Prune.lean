import FiberLex.Proofs.Automaton.Deterministic

/-!
# States that cannot be reached

Two automata that agree on the states that can be reached from the start run alike. In particular
the states that cannot be reached may be emptied, and an automaton that is deterministic as far as
it can be reached is then deterministic.
-/

namespace FiberLex.Automaton

variable {a b : Automaton}

/-- The automata have as many states, the same start, and the same states that can be reached. -/
structure Agrees (a b : Automaton) : Prop where
  /-- There are as many states. -/
  size : b.states.size = a.states.size
  /-- Every text begins in the same state. -/
  start : b.start = a.start
  /-- What can be reached is the same. -/
  state : ∀ {i}, a.Reaches a.start i → b.state i = a.state i

/-! ## What a run comes to can be reached -/

section Run

variable {states : List Nat} (hstates : ∀ i ∈ states, a.Reaches a.start i)

include hstates

theorem reaches_of_mem_epsilonClosure {j : Nat} (hj : j ∈ a.epsilonClosure states) :
    a.Reaches a.start j := by
  obtain ⟨-, r, hr, hreaches⟩ := mem_epsilonClosure_iff.mp hj
  exact (hstates r hr).of_epsilonReaches hreaches

theorem reaches_of_mem_targets {cp j : Nat} (hj : j ∈ a.targets states cp) :
    a.Reaches a.start j := by
  obtain ⟨i, hi, e, he, -, rfl⟩ := mem_targets_iff.mp hj
  exact (hstates i hi).edge he

theorem reaches_of_mem_move {cp j : Nat} (hj : j ∈ a.move states cp) : a.Reaches a.start j :=
  reaches_of_mem_epsilonClosure (fun _ => reaches_of_mem_targets hstates) hj

theorem reaches_of_mem_runFrom {w : List Char} {j : Nat} (hj : j ∈ (a.runFrom states w).1) :
    a.Reaches a.start j := by
  induction w generalizing states with
  | nil => exact hstates j hj
  | cons c w ih =>
    rw [runFrom] at hj
    split at hj
    · exact hstates j hj
    · exact ih (fun _ => reaches_of_mem_move hstates) hj

end Run

theorem reaches_of_next? {i j cp : Nat} (hi : a.Reaches a.start i) (h : a.next? i cp = some j) :
    a.Reaches a.start j := by
  obtain ⟨e, he, rfl⟩ := Option.map_eq_some_iff.mp h
  exact hi.edge (List.mem_of_find?_eq_some he)

theorem reaches_of_mem_initial {i : Nat} (hi : i ∈ a.initial) : a.Reaches a.start i := by
  refine reaches_of_mem_epsilonClosure (fun j hj => ?_) hi
  rw [List.mem_singleton.mp hj]
  exact .refl

theorem reaches_of_mem_run {w : List Char} {j : Nat} (hj : j ∈ (a.run w).1) :
    a.Reaches a.start j :=
  reaches_of_mem_runFrom (fun _ => reaches_of_mem_initial) hj

/-! ## Running alike -/

namespace Agrees

variable {states : List Nat}

theorem closure (h : a.Agrees b) (ha : a.Valid) : b.closure = a.closure := by
  unfold Automaton.closure closureFrom
  rw [h.size, h.start]
  refine Preorder.visit_congr fun i hi => ?_
  rw [h.state ((mem_closure_iff ha).mp hi)]

theorem epsilonClosure (h : a.Agrees b) (hstates : ∀ i ∈ states, a.Reaches a.start i) :
    b.epsilonClosure states = a.epsilonClosure states := by
  unfold Automaton.epsilonClosure
  rw [h.size]
  refine Preorder.visit_congr fun i hi => ?_
  rw [h.state (reaches_of_mem_epsilonClosure hstates hi)]

theorem targets (h : a.Agrees b) (hstates : ∀ i ∈ states, a.Reaches a.start i) (cp : Nat) :
    b.targets states cp = a.targets states cp := by
  unfold Automaton.targets
  refine List.flatMap_congr fun i hi => ?_
  rw [h.state (hstates i hi)]

theorem move (h : a.Agrees b) (hstates : ∀ i ∈ states, a.Reaches a.start i) (cp : Nat) :
    b.move states cp = a.move states cp := by
  unfold Automaton.move
  rw [h.targets hstates, h.epsilonClosure fun _ => reaches_of_mem_targets hstates]

theorem runFrom (h : a.Agrees b) (hstates : ∀ i ∈ states, a.Reaches a.start i) (w : List Char) :
    b.runFrom states w = a.runFrom states w := by
  induction w generalizing states with
  | nil => rfl
  | cons c w ih =>
    rw [Automaton.runFrom, Automaton.runFrom, h.move hstates,
      ih fun _ => reaches_of_mem_move hstates]

theorem initial (h : a.Agrees b) : b.initial = a.initial := by
  unfold Automaton.initial
  rw [h.start, h.epsilonClosure]
  intro i hi
  rw [List.mem_singleton.mp hi]
  exact .refl

theorem run (h : a.Agrees b) (w : List Char) : b.run w = a.run w := by
  unfold Automaton.run
  rw [h.initial, h.runFrom fun _ => reaches_of_mem_initial]

theorem next? (h : a.Agrees b) {i : Nat} (hi : a.Reaches a.start i) (cp : Nat) :
    b.next? i cp = a.next? i cp := by
  rw [Automaton.next?, Automaton.next?, h.state hi]

theorem accepts (h : a.Agrees b) (w : List Char) : b.accepts w = a.accepts w := by
  have hany : b.anyAccepting (a.run w).1 = a.anyAccepting (a.run w).1 := by
    unfold anyAccepting
    rw [Bool.eq_iff_iff, List.any_eq_true, List.any_eq_true]
    exact exists_congr fun i => and_congr_right fun hi => by rw [h.state (reaches_of_mem_run hi)]
  unfold Automaton.accepts
  simp only [h.run, hany]

end Agrees

/-! ## Emptying what cannot be reached -/

/-- The automaton with nothing in the states that cannot be reached. -/
def prune (a : Automaton) : Automaton :=
  { a with
    states := .ofFn fun i : Fin a.states.size => if i.val ∈ a.closure then a.state i else {} }

theorem state_prune (a : Automaton) (i : Nat) :
    a.prune.state i = if i ∈ a.closure then a.state i else {} := by
  unfold state prune
  rw [Array.getD_eq_getD_getElem?, Array.getElem?_ofFn]
  by_cases hi : i < a.states.size
  · simp [hi, state]
  · have hmem : i ∉ a.closure := fun h => hi (lt_size_of_mem_closureFrom h)
    simp [hi, hmem]

theorem agrees_prune (ha : a.Valid) : a.Agrees a.prune where
  size := Array.size_ofFn
  start := rfl
  state hi := by rw [state_prune, if_pos ((mem_closure_iff ha).mpr hi)]

/-- What holds of an empty state and of every state that can be reached holds of all states that are
left. -/
theorem forall_state_prune (ha : a.Valid) (P : State → Prop) (hempty : P {})
    (h : ∀ i, a.Reaches a.start i → P (a.state i)) (i : Nat) : P (a.prune.state i) := by
  rw [state_prune]
  split
  · rename_i hi
    exact h i ((mem_closure_iff ha).mp hi)
  · exact hempty

/-- A state has no epsilon, its edges have disjoint ranges, none of them empty, and it has a symbol
if it accepts. -/
structure Determined (s : State) : Prop where
  /-- There are no epsilons. -/
  epsilons : s.epsilons = []
  /-- No range is empty. -/
  low_le_high : ∀ e ∈ s.edges, e.range.low ≤ e.range.high
  /-- The ranges are disjoint. -/
  disjoint : s.edges.Pairwise fun e f => e.range.meets f.range = false
  /-- What accepts has a symbol. -/
  symbol : s.accepting = true → s.symbol.isSome = true

theorem determined_prune (ha : a.Valid) (h : ∀ i, a.Reaches a.start i → Determined (a.state i))
    (i : Nat) : Determined (a.prune.state i) :=
  forall_state_prune ha Determined ⟨rfl, by simp, .nil, by simp⟩ h i

theorem valid_prune (ha : a.Valid) : a.prune.Valid := by
  have hsize := (agrees_prune ha).size
  refine ⟨hsize.symm ▸ ha.start_lt, ?_⟩
  rw [hsize]
  exact forall_state_prune ha (fun s => ∀ j ∈ s.successors, j < a.states.size)
    (by simp [State.successors]) fun i _ => ha.successor_lt i

theorem deterministic_prune (ha : a.Valid)
    (h : ∀ i, a.Reaches a.start i → Determined (a.state i)) : a.prune.Deterministic where
  valid := valid_prune ha
  epsilons i := (determined_prune ha h i).epsilons
  low_le_high i := (determined_prune ha h i).low_le_high
  disjoint i := (determined_prune ha h i).disjoint

theorem symbolled_prune (ha : a.Valid) (h : ∀ i, a.Reaches a.start i → Determined (a.state i)) :
    a.prune.Symbolled :=
  fun i => (determined_prune ha h i).symbol

/-! ## Runs that are in one state -/

section Determined

variable (ha : a.Valid) (h : ∀ i, a.Reaches a.start i → Determined (a.state i)) {i : Nat}

include ha h

theorem initial_of_determined : a.initial = [a.start] := by
  have hprune := deterministic_prune ha h
  rw [← (agrees_prune ha).initial]
  exact hprune.epsilonClosure_singleton hprune.valid.start_lt

theorem move_of_determined (hi : a.Reaches a.start i) (cp : Nat) :
    a.move [i] cp = (a.next? i cp).toList := by
  have hone : ∀ k ∈ [i], a.Reaches a.start k := List.forall_mem_singleton.mpr hi
  rw [← (agrees_prune ha).move hone, ← (agrees_prune ha).next? hi]
  exact (deterministic_prune ha h).move_singleton i cp

theorem next?_eq_some_iff_of_determined (hi : a.Reaches a.start i) {cp j : Nat} :
    a.next? i cp = some j ↔ Leads (a.state i).edges cp j := by
  rw [← (agrees_prune ha).next? hi, (deterministic_prune ha h).next?_eq_some_iff,
    (agrees_prune ha).state hi]
  rfl

end Determined

end FiberLex.Automaton
