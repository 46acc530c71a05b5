import FiberLex.Automaton.Simulation
import FiberLex.Proofs.Preorder

/-!
# What an automaton accepts

`ReachesBy a i w j` says that a text leads from one state to another along edges and epsilons, and
`Yields a i w s` that it can end in an accepting state with symbol `s`. The simulation keeps the list
of all states it may be in, and `mem_after_iff` ties the two: the list after a text holds the states
to which the text leads from a closed list. So what the start yields is read off that list
(`yields_start_iff`). The lists are taken up to their members throughout, since neither acceptance
nor the least symbol depends on more.
-/

namespace FiberLex.Automaton

variable {a : Automaton}

/-- Every number that is used as a state is the number of one. -/
structure Valid (a : Automaton) : Prop where
  /-- The start is a state. -/
  start_lt : a.start < a.states.size
  /-- Edges and epsilons lead to states. -/
  successor_lt : ∀ i, ∀ j ∈ (a.state i).successors, j < a.states.size

theorem Valid.edge_lt (h : a.Valid) {i : Nat} {e : Edge} (he : e ∈ (a.state i).edges) :
    e.target < a.states.size :=
  h.successor_lt i _ (List.mem_append_left _ (List.mem_map_of_mem he))

theorem Valid.epsilon_lt (h : a.Valid) {i j : Nat} (hj : j ∈ (a.state i).epsilons) :
    j < a.states.size :=
  h.successor_lt i _ (List.mem_append_right _ hj)

/-- A number without a state stands for one that does nothing. -/
theorem state_of_size_le {i : Nat} (h : a.states.size ≤ i) : a.state i = {} := by
  unfold state
  rw [Array.getD_eq_getD_getElem?, Array.getElem?_eq_none h]
  rfl

theorem state_eq_getElem {i : Nat} (h : i < a.states.size) : a.state i = a.states[i] := by
  unfold state
  rw [Array.getD_eq_getD_getElem?, Array.getElem?_eq_getElem h]
  rfl

/-- Only the states of the automaton have successors to look at. -/
theorem valid_iff :
    a.Valid ↔ a.start < a.states.size ∧
      ∀ s ∈ a.states, ∀ j ∈ s.successors, j < a.states.size := by
  constructor
  · intro h
    refine ⟨h.start_lt, fun s hs => ?_⟩
    obtain ⟨i, hi, rfl⟩ := Array.mem_iff_getElem.mp hs
    rw [← state_eq_getElem hi]
    exact h.successor_lt i
  · rintro ⟨hstart, hstates⟩
    refine ⟨hstart, fun i j hj => ?_⟩
    by_cases hi : i < a.states.size
    · rw [state_eq_getElem hi] at hj
      exact hstates _ (Array.getElem_mem hi) j hj
    · rw [state_of_size_le (by omega)] at hj
      cases hj

instance : Decidable a.Valid := decidable_of_iff _ valid_iff.symm

/-! ## Reachable states -/

/-- Some edges and epsilons lead from one state to another. -/
def Reaches (a : Automaton) : Nat → Nat → Prop :=
  Relation.ReflTransGen fun i j => j ∈ (a.state i).successors

theorem Reaches.edge {i j : Nat} (h : a.Reaches i j) {e : Edge} (he : e ∈ (a.state j).edges) :
    a.Reaches i e.target :=
  h.tail (List.mem_append_left _ (List.mem_map_of_mem he))

theorem Reaches.epsilon {i j k : Nat} (h : a.Reaches i j) (hk : k ∈ (a.state j).epsilons) :
    a.Reaches i k :=
  h.tail (List.mem_append_right _ hk)

theorem Reaches.lt_size (ha : a.Valid) {i j : Nat} (h : a.Reaches i j)
    (hi : i < a.states.size) : j < a.states.size := by
  induction h with
  | refl => exact hi
  | tail _ hj _ => exact ha.successor_lt _ _ hj

/-- The closure of a state holds what can be reached from it. -/
theorem mem_closureFrom_iff (ha : a.Valid) {root j : Nat} (hroot : root < a.states.size) :
    j ∈ a.closureFrom root ↔ a.Reaches root j := by
  unfold closureFrom
  rw [Preorder.mem_visit_iff fun i hi => by rw [state_of_size_le hi]; rfl]
  constructor
  · rintro ⟨-, r, hr, hd⟩
    rw [List.mem_singleton] at hr
    subst hr
    exact hd
  · intro h
    exact ⟨h.lt_size ha hroot, root, by simp, h⟩

theorem mem_closure_iff (ha : a.Valid) {j : Nat} : j ∈ a.closure ↔ a.Reaches a.start j :=
  mem_closureFrom_iff ha ha.start_lt

theorem nodup_closureFrom (a : Automaton) (root : Nat) : (a.closureFrom root).Nodup :=
  Preorder.nodup_visit _ _ _

theorem lt_size_of_mem_closureFrom {root j : Nat} (h : j ∈ a.closureFrom root) :
    j < a.states.size :=
  Preorder.lt_of_mem_visit h

theorem head?_closureFrom {root : Nat} (h : root < a.states.size) :
    (a.closureFrom root).head? = some root :=
  Preorder.head?_visit h

/-- Some epsilons lead from one state to another. -/
def EpsilonReaches (a : Automaton) : Nat → Nat → Prop :=
  Relation.ReflTransGen fun i j => j ∈ (a.state i).epsilons

theorem Reaches.of_epsilonReaches {i j k : Nat} (h : a.Reaches i j) (hk : a.EpsilonReaches j k) :
    a.Reaches i k := by
  induction hk with
  | refl => exact h
  | tail _ hstep ih => exact ih.epsilon hstep

/-- The closure under epsilons holds what epsilons lead to. -/
theorem mem_epsilonClosure_iff {roots : List Nat} {j : Nat} :
    j ∈ a.epsilonClosure roots ↔ j < a.states.size ∧ ∃ i ∈ roots, a.EpsilonReaches i j := by
  unfold epsilonClosure
  exact Preorder.mem_visit_iff fun i hi => by rw [state_of_size_le hi]

theorem nodup_epsilonClosure (a : Automaton) (roots : List Nat) : (a.epsilonClosure roots).Nodup :=
  Preorder.nodup_visit _ _ _

theorem lt_size_of_mem_epsilonClosure {roots : List Nat} {j : Nat}
    (h : j ∈ a.epsilonClosure roots) : j < a.states.size :=
  Preorder.lt_of_mem_visit h

/-- Roots that are states are in their closure. -/
theorem mem_epsilonClosure_of_mem {roots : List Nat} {i : Nat} (hi : i ∈ roots)
    (hlt : i < a.states.size) : i ∈ a.epsilonClosure roots :=
  mem_epsilonClosure_iff.mpr ⟨hlt, i, hi, .refl⟩

/-- The closure under epsilons depends on the members of the list only. -/
theorem mem_epsilonClosure_congr {roots roots' : List Nat} (h : ∀ i, i ∈ roots ↔ i ∈ roots')
    (j : Nat) : j ∈ a.epsilonClosure roots ↔ j ∈ a.epsilonClosure roots' := by
  rw [mem_epsilonClosure_iff, mem_epsilonClosure_iff]
  simp only [h]

/-- A list of states that epsilons do not leave. -/
def Closed (a : Automaton) (states : List Nat) : Prop :=
  ∀ i ∈ states, ∀ j ∈ (a.state i).epsilons, j ∈ states

theorem closed_epsilonClosure (ha : a.Valid) (roots : List Nat) :
    a.Closed (a.epsilonClosure roots) := by
  intro i hi j hj
  obtain ⟨-, r, hr, hd⟩ := mem_epsilonClosure_iff.mp hi
  exact mem_epsilonClosure_iff.mpr ⟨ha.epsilon_lt hj, r, hr, hd.tail hj⟩

/-! ## Moves -/

/-- Some edge of a list leads from a code point to a state. -/
def Leads (edges : List Edge) (cp target : Nat) : Prop :=
  ∃ e ∈ edges, e.range.contains cp = true ∧ e.target = target

theorem mem_targets_iff {states : List Nat} {cp j : Nat} :
    j ∈ a.targets states cp ↔
      ∃ i ∈ states, ∃ e ∈ (a.state i).edges, e.range.contains cp = true ∧ e.target = j := by
  unfold targets
  constructor
  · intro h
    obtain ⟨i, hi, h⟩ := List.mem_flatMap.mp h
    obtain ⟨e, he, rfl⟩ := List.mem_map.mp h
    obtain ⟨he, hc⟩ := List.mem_filter.mp he
    exact ⟨i, hi, e, he, hc, rfl⟩
  · rintro ⟨i, hi, e, he, hc, rfl⟩
    exact List.mem_flatMap.mpr ⟨i, hi, List.mem_map_of_mem (List.mem_filter.mpr ⟨he, hc⟩)⟩

theorem mem_targets_congr {states states' : List Nat} (h : ∀ i, i ∈ states ↔ i ∈ states')
    (cp j : Nat) : j ∈ a.targets states cp ↔ j ∈ a.targets states' cp := by
  rw [mem_targets_iff, mem_targets_iff]
  simp only [h]

theorem mem_move_congr {states states' : List Nat} (h : ∀ i, i ∈ states ↔ i ∈ states')
    (cp j : Nat) : j ∈ a.move states cp ↔ j ∈ a.move states' cp :=
  mem_epsilonClosure_congr (mem_targets_congr h cp) j

/-- A move leads nowhere exactly if there is no edge to take. -/
theorem move_eq_nil_iff (ha : a.Valid) {states : List Nat} {cp : Nat} :
    a.move states cp = [] ↔ a.targets states cp = [] := by
  constructor
  · intro h
    rw [List.eq_nil_iff_forall_not_mem]
    intro j hj
    obtain ⟨i, -, e, he, -, rfl⟩ := mem_targets_iff.mp hj
    have hmem : e.target ∈ a.move states cp := mem_epsilonClosure_of_mem hj (ha.edge_lt he)
    rw [h] at hmem
    cases hmem
  · intro h
    rw [List.eq_nil_iff_forall_not_mem]
    intro j hj
    obtain ⟨-, r, hr, -⟩ := mem_epsilonClosure_iff.mp hj
    rw [h] at hr
    cases hr

/-! ## Where texts lead -/

/-- A text leads from one state to another. -/
inductive ReachesBy (a : Automaton) : Nat → List Char → Nat → Prop where
  /-- The empty text leads nowhere else. -/
  | here {i : Nat} : ReachesBy a i [] i
  /-- An epsilon is followed. -/
  | epsilon {i j k : Nat} {w : List Char} (hj : j ∈ (a.state i).epsilons)
      (h : ReachesBy a j w k) : ReachesBy a i w k
  /-- An edge is taken on the first character. -/
  | edge {i k : Nat} {e : Edge} {c : Char} {w : List Char} (he : e ∈ (a.state i).edges)
      (hc : e.range.contains c.toNat = true) (h : ReachesBy a e.target w k) :
      ReachesBy a i (c :: w) k

namespace ReachesBy

variable {i j k : Nat} {w : List Char}

theorem of_epsilonReaches (hi : a.EpsilonReaches i j) (h : a.ReachesBy j w k) :
    a.ReachesBy i w k := by
  induction hi using Relation.ReflTransGen.head_induction_on with
  | refl => exact h
  | head hstep _ ih => exact .epsilon hstep ih

theorem append {v : List Char} (h : a.ReachesBy i w j) (hj : a.ReachesBy j v k) :
    a.ReachesBy i (w ++ v) k := by
  induction h with
  | here => exact hj
  | epsilon he _ ih => exact .epsilon he (ih hj)
  | edge he hc _ ih => exact .edge he hc (ih hj)

theorem epsilonReaches (h : a.ReachesBy i w j) (hj : a.EpsilonReaches j k) :
    a.ReachesBy i w k := by
  have happend := h.append (.of_epsilonReaches hj .here)
  rwa [List.append_nil] at happend

/-- Where a text leads can be reached. -/
theorem reaches (h : a.ReachesBy i w j) : a.Reaches i j := by
  induction h with
  | here => exact .refl
  | epsilon hj _ ih => exact .trans (.single (List.mem_append_right _ hj)) ih
  | edge he _ _ ih =>
    exact .trans (.single (List.mem_append_left _ (List.mem_map_of_mem he))) ih

end ReachesBy

/-! ## The states after a text -/

/-- The states after a text, from the states of a list. -/
def after (a : Automaton) (states : List Nat) (w : List Char) : List Nat :=
  w.foldl (fun states c => a.move states c.toNat) states

@[simp] theorem after_nil (a : Automaton) (states : List Nat) : a.after states [] = states := rfl

@[simp] theorem after_cons (a : Automaton) (states : List Nat) (c : Char) (w : List Char) :
    a.after states (c :: w) = a.after (a.move states c.toNat) w := rfl

theorem after_of_nil (a : Automaton) (w : List Char) : a.after [] w = [] := by
  induction w with
  | nil => rfl
  | cons c w ih =>
    have hmove : a.move [] c.toNat = [] := by
      rw [List.eq_nil_iff_forall_not_mem]
      intro j hj
      obtain ⟨-, r, hr, -⟩ := mem_epsilonClosure_iff.mp hj
      simp [targets] at hr
    rw [after_cons, hmove, ih]

theorem closed_initial (ha : a.Valid) : a.Closed a.initial := closed_epsilonClosure ha _

/-- Where the first character leads goes through a move. -/
theorem reachesBy_cons_iff (ha : a.Valid) {states : List Nat} (hs : a.Closed states) {c : Char}
    {w : List Char} {k : Nat} :
    (∃ i ∈ states, a.ReachesBy i (c :: w) k) ↔
      ∃ j ∈ a.move states c.toNat, a.ReachesBy j w k := by
  constructor
  · rintro ⟨i, hi, h⟩
    generalize ht : c :: w = t at h
    induction h with
    | here => cases ht
    | epsilon hj _ ih => exact ih (hs _ hi _ hj) ht
    | @edge i k e c' w' he hc h _ =>
      obtain ⟨rfl, rfl⟩ := List.cons.inj ht
      have htarget := mem_targets_iff.mpr ⟨i, hi, e, he, hc, rfl⟩
      exact ⟨e.target, mem_epsilonClosure_of_mem htarget (ha.edge_lt he), h⟩
  · rintro ⟨j, hj, h⟩
    obtain ⟨-, r, hr, hd⟩ := mem_epsilonClosure_iff.mp hj
    obtain ⟨i, hi, e, he, hc, rfl⟩ := mem_targets_iff.mp hr
    exact ⟨i, hi, .edge he hc (.of_epsilonReaches hd h)⟩

/-- After a text, the states to which it leads from those of a closed list are on the list. -/
theorem mem_after_iff (ha : a.Valid) {states : List Nat} (hs : a.Closed states) {w : List Char}
    {k : Nat} : k ∈ a.after states w ↔ ∃ i ∈ states, a.ReachesBy i w k := by
  induction w generalizing states with
  | nil =>
    rw [after_nil]
    constructor
    · intro hk
      exact ⟨k, hk, .here⟩
    · rintro ⟨i, hi, h⟩
      generalize ht : ([] : List Char) = t at h
      induction h with
      | here => exact hi
      | epsilon hj _ ih => exact ih (hs _ hi _ hj) ht
      | edge _ _ _ _ => cases ht
  | cons c w ih =>
    rw [reachesBy_cons_iff ha hs, after_cons]
    exact ih (closed_epsilonClosure ha _)

/-- The states after a text are those to which it leads from the start. -/
theorem mem_after_initial_iff (ha : a.Valid) {w : List Char} {k : Nat} :
    k ∈ a.after a.initial w ↔ a.ReachesBy a.start w k := by
  rw [mem_after_iff ha (closed_initial ha)]
  constructor
  · rintro ⟨i, hi, h⟩
    obtain ⟨-, r, hr, hd⟩ := mem_epsilonClosure_iff.mp hi
    rw [List.mem_singleton] at hr
    subst hr
    exact .of_epsilonReaches hd h
  · intro h
    exact ⟨a.start, mem_epsilonClosure_of_mem (by simp) ha.start_lt, h⟩

/-! ## Acceptance -/

/-- From state `i` the text can end in an accepting state with the given symbol. -/
inductive Yields (a : Automaton) : Nat → List Char → Option Int → Prop where
  /-- The state itself is accepting. -/
  | stop {i : Nat} (h : (a.state i).accepting = true) : Yields a i [] (a.state i).symbol
  /-- An epsilon is followed. -/
  | epsilon {i j : Nat} {w : List Char} {s : Option Int} (hj : j ∈ (a.state i).epsilons)
      (h : Yields a j w s) : Yields a i w s
  /-- An edge is taken on the first character. -/
  | edge {i : Nat} {e : Edge} {c : Char} {w : List Char} {s : Option Int}
      (he : e ∈ (a.state i).edges) (hc : e.range.contains c.toNat = true)
      (h : Yields a e.target w s) : Yields a i (c :: w) s

/-- A text is yielded with the symbols of the accepting states to which it leads. -/
theorem yields_iff_reachesBy {i : Nat} {w : List Char} {s : Option Int} :
    a.Yields i w s ↔
      ∃ j, a.ReachesBy i w j ∧ (a.state j).accepting = true ∧ (a.state j).symbol = s := by
  constructor
  · intro h
    induction h with
    | @stop i hacc => exact ⟨i, .here, hacc, rfl⟩
    | epsilon hj _ ih =>
      obtain ⟨k, hk, hacc⟩ := ih
      exact ⟨k, .epsilon hj hk, hacc⟩
    | edge he hc _ ih =>
      obtain ⟨k, hk, hacc⟩ := ih
      exact ⟨k, .edge he hc hk, hacc⟩
  · rintro ⟨j, h, hacc, rfl⟩
    induction h with
    | here => exact .stop hacc
    | epsilon hj _ ih => exact .epsilon hj (ih hacc)
    | edge he hc _ ih => exact .edge he hc (ih hacc)

/-- Every accepting state has a symbol. -/
def Symbolled (a : Automaton) : Prop :=
  ∀ i, (a.state i).accepting = true → (a.state i).symbol.isSome = true

/-- The start yields what is on the list after the text. -/
theorem yields_start_iff (ha : a.Valid) {w : List Char} {s : Option Int} :
    a.Yields a.start w s ↔
      ∃ j ∈ a.after a.initial w, (a.state j).accepting = true ∧ (a.state j).symbol = s := by
  rw [yields_iff_reachesBy]
  exact exists_congr fun j => and_congr_left fun _ => (mem_after_initial_iff ha).symm

/-! ## Whole texts -/

/-- A run that uses up the text ends in the states after it; one that does not leaves no state. -/
theorem runFrom_or (a : Automaton) (states : List Nat) (w : List Char) :
    ((a.runFrom states w).2 = [] ∧ (a.runFrom states w).1 = a.after states w) ∨
      ((a.runFrom states w).2 ≠ [] ∧ a.after states w = []) := by
  induction w generalizing states with
  | nil => exact Or.inl ⟨rfl, rfl⟩
  | cons c w ih =>
    rw [runFrom, after_cons]
    by_cases hmove : a.move states c.toNat = []
    · refine Or.inr ⟨?_, ?_⟩
      · simp [hmove]
      · rw [hmove, after_of_nil]
    · have hne : (a.move states c.toNat).isEmpty = false := by simpa using hmove
      simp only [hne]
      exact ih (a.move states c.toNat)

/-- A text is accepted exactly if it is yielded from the start with some symbol. -/
theorem accepts_iff_yields (ha : a.Valid) {w : List Char} :
    a.accepts w = true ↔ ∃ s, a.Yields a.start w s := by
  have hafter : a.accepts w = a.anyAccepting (a.after a.initial w) := by
    unfold accepts run
    rcases runFrom_or a a.initial w with ⟨hrest, hstates⟩ | ⟨hrest, hnil⟩
    · simp [hrest, hstates]
    · simp [hrest, hnil, anyAccepting]
  rw [hafter, anyAccepting, List.any_eq_true]
  constructor
  · rintro ⟨j, hj, hacc⟩
    exact ⟨_, (yields_start_iff ha).mpr ⟨j, hj, hacc, rfl⟩⟩
  · rintro ⟨s, hs⟩
    obtain ⟨j, hj, hacc, -⟩ := (yields_start_iff ha).mp hs
    exact ⟨j, hj, hacc⟩

/-! ## Properties of the members of a list -/

theorem anyAccepting_congr {states states' : List Nat} (h : ∀ i, i ∈ states ↔ i ∈ states') :
    a.anyAccepting states = a.anyAccepting states' := by
  unfold anyAccepting
  rw [Bool.eq_iff_iff, List.any_eq_true, List.any_eq_true]
  simp only [h]

/-- The least symbol depends on the members of the list only. -/
theorem symbolOf_eq_some_iff {states : List Nat} {symbol : Int} :
    a.symbolOf states = some symbol ↔
      (∃ i ∈ states, (a.state i).accepting = true ∧ (a.state i).symbol = some symbol) ∧
      ∀ i ∈ states, (a.state i).accepting = true → ∀ t, (a.state i).symbol = some t →
        symbol ≤ t := by
  unfold symbolOf
  rw [List.min?_eq_some_iff]
  simp only [List.mem_filterMap, List.mem_filter]
  constructor
  · rintro ⟨⟨i, ⟨hi, hacc⟩, hs⟩, hle⟩
    exact ⟨⟨i, hi, hacc, hs⟩, fun j hj hj' t ht => hle t ⟨j, ⟨hj, hj'⟩, ht⟩⟩
  · rintro ⟨⟨i, hi, hacc, hs⟩, hle⟩
    refine ⟨⟨i, ⟨hi, hacc⟩, hs⟩, ?_⟩
    rintro t ⟨j, ⟨hj, hj'⟩, ht⟩
    exact hle j hj hj' t ht

theorem symbolOf_congr {states states' : List Nat} (h : ∀ i, i ∈ states ↔ i ∈ states') :
    a.symbolOf states = a.symbolOf states' := by
  ext symbol
  rw [symbolOf_eq_some_iff, symbolOf_eq_some_iff]
  simp only [h]

end FiberLex.Automaton
