import FiberLex.Proofs.Automaton.Semantics
import FiberLex.Proofs.Lists

/-!
# Deterministic automata

Without epsilons, and with disjoint ranges on the edges of each state, at most one state is reached
on a text. `next?` is that state for one code point and `follow?` for a text; a text is yielded
exactly if it is followed to an accepting state.
-/

namespace FiberLex

theorem CodeRange.meets_comm (r s : CodeRange) : r.meets s = s.meets r := by
  unfold CodeRange.meets
  rw [Bool.and_comm]

namespace Automaton

variable {a : Automaton}

/-- No state has an epsilon, and the edges of a state have disjoint ranges, none of them empty. -/
structure Deterministic (a : Automaton) : Prop where
  /-- Every number that is used as a state is the number of one. -/
  valid : a.Valid
  /-- There are no epsilons. -/
  epsilons : ∀ i, (a.state i).epsilons = []
  /-- No range is empty. -/
  low_le_high : ∀ i, ∀ e ∈ (a.state i).edges, e.range.low ≤ e.range.high
  /-- The ranges of a state are disjoint. -/
  disjoint : ∀ i, (a.state i).edges.Pairwise fun e f => e.range.meets f.range = false

/-- The state to which the first edge on a code point leads. -/
def next? (a : Automaton) (i cp : Nat) : Option Nat :=
  ((a.state i).edges.find? (·.range.contains cp)).map (·.target)

theorem Deterministic.edge_unique (ha : a.Deterministic) {i cp : Nat} {e f : Edge}
    (he : e ∈ (a.state i).edges) (hf : f ∈ (a.state i).edges)
    (hec : e.range.contains cp = true) (hfc : f.range.contains cp = true) : e = f := by
  by_contra hne
  have : Std.Symm fun e f : Edge => e.range.meets f.range = false :=
    ⟨fun x y h => by rw [CodeRange.meets_comm]; exact h⟩
  have hmeets : e.range.meets f.range = false := (ha.disjoint i).forall he hf hne
  rw [CodeRange.contains_iff] at hec hfc
  have : e.range.meets f.range = true := by
    rw [CodeRange.meets_iff]
    omega
  rw [hmeets] at this
  cases this

theorem next?_eq_none_iff {i cp : Nat} :
    a.next? i cp = none ↔ ∀ e ∈ (a.state i).edges, e.range.contains cp = false := by
  unfold next?
  rw [Option.map_eq_none_iff, List.find?_eq_none]
  simp only [Bool.not_eq_true]

/-- In a deterministic automaton, the next state is that of any edge on the code point. -/
theorem Deterministic.next?_eq_some_iff (ha : a.Deterministic) {i cp j : Nat} :
    a.next? i cp = some j ↔
      ∃ e ∈ (a.state i).edges, e.range.contains cp = true ∧ e.target = j := by
  unfold next?
  rw [Option.map_eq_some_iff]
  constructor
  · rintro ⟨e, he, rfl⟩
    have hc := List.find?_some he
    exact ⟨e, List.mem_of_find?_eq_some he, hc, rfl⟩
  · rintro ⟨e, he, hc, rfl⟩
    have hsome : ((a.state i).edges.find? (·.range.contains cp)).isSome = true :=
      List.find?_isSome.mpr ⟨e, he, hc⟩
    obtain ⟨f, hf⟩ := Option.isSome_iff_exists.mp hsome
    have hfc := List.find?_some hf
    have heq := ha.edge_unique he (List.mem_of_find?_eq_some hf) hc hfc
    exact ⟨e, heq ▸ hf, rfl⟩

theorem Deterministic.lt_of_next? (ha : a.Deterministic) {i cp j : Nat}
    (h : a.next? i cp = some j) : j < a.states.size := by
  obtain ⟨e, he, -, rfl⟩ := ha.next?_eq_some_iff.mp h
  exact ha.valid.edge_lt he

theorem Deterministic.epsilonReaches_iff (ha : a.Deterministic) {i j : Nat} :
    a.EpsilonReaches i j ↔ i = j := by
  constructor
  · intro h
    cases h using Relation.ReflTransGen.head_induction_on with
    | refl => rfl
    | head hstep _ _ =>
      rw [ha.epsilons] at hstep
      cases hstep
  · rintro rfl
    exact .refl

/-- Without epsilons a state is closed by itself. -/
theorem Deterministic.epsilonClosure_singleton (ha : a.Deterministic) {i : Nat}
    (hi : i < a.states.size) : a.epsilonClosure [i] = [i] := by
  refine eq_singleton_of_nodup (nodup_epsilonClosure a [i]) fun j => ?_
  rw [mem_epsilonClosure_iff]
  simp only [List.mem_singleton, exists_eq_left, ha.epsilonReaches_iff]
  constructor
  · exact fun h => h.2.symm
  · rintro rfl
    exact ⟨hi, rfl⟩

/-- A move from one state goes to the next one, if there is one. -/
theorem Deterministic.move_singleton (ha : a.Deterministic) (i cp : Nat) :
    a.move [i] cp = (a.next? i cp).toList := by
  cases hnext : a.next? i cp with
  | none =>
    have hnone := next?_eq_none_iff.mp hnext
    rw [Option.toList_none, move_eq_nil_iff ha.valid, List.eq_nil_iff_forall_not_mem]
    intro j hj
    obtain ⟨k, hk, e, he, hc, -⟩ := mem_targets_iff.mp hj
    rw [List.mem_singleton] at hk
    subst hk
    rw [hnone e he] at hc
    cases hc
  | some j =>
    have hlt := ha.lt_of_next? hnext
    have hmem : ∀ k, k ∈ a.targets [i] cp ↔ k ∈ [j] := by
      intro k
      simp only [mem_targets_iff, List.mem_singleton, exists_eq_left]
      rw [← ha.next?_eq_some_iff, hnext, Option.some_inj, eq_comm]
    refine eq_singleton_of_nodup (nodup_epsilonClosure a _) fun k => ?_
    rw [move, mem_epsilonClosure_congr hmem, ha.epsilonClosure_singleton hlt, List.mem_singleton]

/-- The state that is reached on a text, if it can be followed to its end. -/
def follow? (a : Automaton) (i : Nat) : List Char → Option Nat
  | [] => some i
  | c :: w => (a.next? i c.toNat).bind fun j => a.follow? j w

@[simp] theorem follow?_nil (a : Automaton) (i : Nat) : a.follow? i [] = some i := rfl

@[simp] theorem follow?_cons (a : Automaton) (i : Nat) (c : Char) (w : List Char) :
    a.follow? i (c :: w) = (a.next? i c.toNat).bind fun j => a.follow? j w := rfl

theorem follow?_append (a : Automaton) (i : Nat) (u v : List Char) :
    a.follow? i (u ++ v) = (a.follow? i u).bind fun j => a.follow? j v := by
  induction u generalizing i with
  | nil => rfl
  | cons c u ih =>
    simp only [List.cons_append, follow?_cons]
    cases a.next? i c.toNat with
    | none => rfl
    | some j => exact ih j

/-- A text is yielded exactly if it is followed to an accepting state. -/
theorem Deterministic.yields_iff (ha : a.Deterministic) {i : Nat} {w : List Char}
    {s : Option Int} :
    a.Yields i w s ↔
      ∃ j, a.follow? i w = some j ∧ (a.state j).accepting = true ∧ (a.state j).symbol = s := by
  constructor
  · intro h
    induction h with
    | @stop i hacc => exact ⟨i, rfl, hacc, rfl⟩
    | epsilon hj _ _ =>
      rw [ha.epsilons] at hj
      cases hj
    | @edge i e c w s he hc _ ih =>
      obtain ⟨j, hj, hacc⟩ := ih
      refine ⟨j, ?_, hacc⟩
      rw [follow?_cons, ha.next?_eq_some_iff.mpr ⟨e, he, hc, rfl⟩]
      exact hj
  · rintro ⟨j, hj, hacc, rfl⟩
    induction w generalizing i with
    | nil =>
      cases hj
      exact .stop hacc
    | cons c w ih =>
      obtain ⟨k, hk, hj⟩ := Option.bind_eq_some_iff.mp hj
      obtain ⟨e, he, hc, rfl⟩ := ha.next?_eq_some_iff.mp hk
      exact .edge he hc (ih hj)

/-- A run is in the one state to which the text is followed. -/
theorem Deterministic.runFrom_singleton (ha : a.Deterministic) {i j : Nat} {w : List Char}
    (h : a.follow? i w = some j) : a.runFrom [i] w = ([j], []) := by
  induction w generalizing i with
  | nil =>
    cases h
    rfl
  | cons c w ih =>
    obtain ⟨k, hk, hj⟩ := Option.bind_eq_some_iff.mp h
    rw [runFrom, ha.move_singleton, hk]
    exact ih hj

theorem Deterministic.run_eq (ha : a.Deterministic) {j : Nat} {w : List Char}
    (h : a.follow? a.start w = some j) : a.run w = ([j], []) := by
  rw [run, initial, ha.epsilonClosure_singleton ha.valid.start_lt]
  exact ha.runFrom_singleton h

end Automaton

end FiberLex
