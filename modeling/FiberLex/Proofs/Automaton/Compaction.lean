import FiberLex.Proofs.Automaton.Bisimulation
import FiberLex.Proofs.Automaton.Copies

/-!
# Compact automata

Compacting numbers the reachable states in the order in which a walk comes to them. A walk over the
compact automaton is the same walk under the new numbers (`Visits.rename`), so it comes to the
states in the order of their numbers, and compacting once more changes nothing. Runs do not notice
the new numbers.
-/

namespace FiberLex

namespace Preorder

/-- A walk whose items get new numbers, different ones for those that a walk can come to, is the
same walk. -/
theorem Visits.rename {n n' : Nat} {children children' : Nat → List Nat} {g : Nat → Nat}
    {P : Nat → Prop} (hclosed : ∀ x, P x → ∀ y ∈ children x, P y) (hlt : ∀ x, P x → x < n)
    (hlt' : ∀ x, P x → g x < n') (hinj : ∀ x y, P x → P y → g x = g y → x = y)
    (hchildren : ∀ x, P x → children' (g x) = (children x).map g) {stack : List Nat}
    {seen : Set Nat} {order : List Nat} (h : Visits n id children stack seen order)
    (hstack : ∀ x ∈ stack, P x) (hseen : ∀ x ∈ seen, P x) :
    Visits n' id children' (stack.map g) (Set.image g seen) (order.map g) := by
  induction h with
  | done => exact .done
  | @skip x rest seen order hx hr ih =>
    obtain ⟨hpx, hrest⟩ := List.forall_mem_cons.mp hstack
    exact .skip (fun _ => Set.mem_image_of_mem g (hx (hlt x hpx))) (ih hrest hseen)
  | @visit x rest seen order hx hs hr ih =>
    obtain ⟨hpx, hrest⟩ := List.forall_mem_cons.mp hstack
    refine .visit (hlt' x hpx) ?_ ?_
    · rintro ⟨y, hy, heq⟩
      rw [hinj y x (hseen y hy) hpx heq] at hy
      exact hs hy
    · have hseen' : ∀ y ∈ insert x seen, P y := by
        rintro y (rfl | hy)
        · exact hpx
        · exact hseen y hy
      have hwalk := ih (List.forall_mem_append.mpr ⟨hclosed x hpx, hrest⟩) hseen'
      rw [List.map_append, ← hchildren x hpx, id, Set.image_insert_eq] at hwalk
      exact hwalk

end Preorder

theorem State.mapTargets_eq_self {f : Nat → Nat} {s : State} (h : ∀ j ∈ s.successors, f j = j) :
    s.mapTargets f = s := by
  obtain ⟨hedges, hepsilons⟩ := List.forall_mem_append.mp h
  have hedges' : s.edges.map (fun e => (⟨e.range, f e.target⟩ : Edge)) = s.edges := by
    refine (List.map_congr_left fun e he => ?_).trans (List.map_id _)
    rw [hedges e.target (List.mem_map_of_mem he)]
    rfl
  have hepsilons' : s.epsilons.map f = s.epsilons :=
    (List.map_congr_left hepsilons).trans (List.map_id _)
  rw [State.mapTargets, hedges', hepsilons']

namespace Automaton

variable {a : Automaton}

theorem map_idxOf_self {l : List Nat} (h : l.Nodup) : l.map l.idxOf = List.range l.length := by
  refine List.ext_getElem (by simp) fun k hk _ => ?_
  rw [List.getElem_map, List.getElem_range, h.idxOf_getElem]

theorem start_compact (ha : a.Valid) : a.compact.start = a.closure.idxOf a.start :=
  start_subgraph ha ha.start_lt

theorem size_compact (ha : a.Valid) : a.compact.states.size = a.closure.length := by
  rw [compact, states_subgraph ha ha.start_lt, List.size_toArray, List.length_map, closure]

theorem embeds_compact (ha : a.Valid) : Embeds a a.start a.closure.idxOf a.compact :=
  embeds_subgraph ha ha.start_lt

theorem idxOf_closure_inj (ha : a.Valid) {i j : Nat} (hi : a.Reaches a.start i)
    (h : a.closure.idxOf i = a.closure.idxOf j) : i = j :=
  (List.idxOf_inj ((mem_closure_iff ha).mpr hi)).mp h

/-- The states of a compact automaton are copies of the reachable ones, each in its place. -/
theorem exists_reaches_of_lt_size_compact (ha : a.Valid) {k : Nat}
    (hk : k < a.compact.states.size) :
    ∃ i, a.Reaches a.start i ∧ a.closure.idxOf i = k ∧
      a.compact.state k = (a.state i).mapTargets a.closure.idxOf := by
  rw [size_compact ha] at hk
  have hreach := (mem_closure_iff ha).mp (List.getElem_mem hk)
  have hplace : a.closure.idxOf a.closure[k] = k := (nodup_closureFrom a a.start).idxOf_getElem k hk
  refine ⟨a.closure[k], hreach, hplace, ?_⟩
  rw [← (embeds_compact ha).state_eq _ hreach, hplace]

/-- A walk comes to the states of a compact automaton in the order of their numbers. -/
theorem closure_compact (ha : a.Valid) : a.compact.closure = List.range a.compact.states.size := by
  have hembeds := embeds_compact ha
  have hwalk := Preorder.visits_visit a.states.size id (fun i => (a.state i).successors) [a.start]
  have hrenamed : Preorder.Visits a.compact.states.size id
      (fun i => (a.compact.state i).successors) ([a.start].map a.closure.idxOf)
      (Set.image a.closure.idxOf ∅) ((Preorder.visit a.states.size id
        (fun i => (a.state i).successors) [a.start]).map a.closure.idxOf) :=
    hwalk.rename (P := a.Reaches a.start) (fun i hi j hj => hi.tail hj)
      (fun i hi => hi.lt_size ha ha.start_lt) hembeds.lt_size
      (fun i j hi _ => idxOf_closure_inj ha hi)
      (fun i hi => by rw [hembeds.state_eq i hi, State.successors_mapTargets])
      (List.forall_mem_singleton.mpr .refl) (by simp)
  have horder : (Preorder.visit a.states.size id (fun i => (a.state i).successors)
      [a.start]).map a.closure.idxOf = List.range a.compact.states.size := by
    rw [size_compact ha]
    exact map_idxOf_self (nodup_closureFrom a a.start)
  rw [horder, Set.image_empty, List.map_singleton, ← start_compact ha] at hrenamed
  exact (Preorder.visits_visit _ _ _ _).unique hrenamed

/-- Every state of a compact automaton can be reached. -/
theorem reaches_compact (ha : a.Valid) {i : Nat} (hi : i < a.compact.states.size) :
    a.compact.Reaches a.compact.start i := by
  rw [← mem_closure_iff ha.compact, closure_compact ha]
  exact List.mem_range.mpr hi

/-- An automaton whose states are in the order of a walk is compact already. -/
theorem compact_eq_self (ha : a.Valid) (h : a.closure = List.range a.states.size) :
    a.compact = a := by
  have hplace : ∀ i < a.states.size, a.closure.idxOf i = i := by
    intro i hi
    have hnodup : a.closure.Nodup := nodup_closureFrom a a.start
    have hlt : i < a.closure.length := by rwa [h, List.length_range]
    have hget : a.closure[i] = i := by simp [h]
    rw [← hget, hnodup.idxOf_getElem, hget]
  have hstates : a.compact.states = a.states := by
    have hmap : a.compact.states =
        (a.closure.map fun i => (a.state i).mapTargets a.closure.idxOf).toArray :=
      states_subgraph ha ha.start_lt
    refine Array.ext ((size_compact ha).trans (by rw [h, List.length_range])) fun i hi hi' => ?_
    have hself := State.mapTargets_eq_self fun j hj => hplace j (ha.successor_lt i j hj)
    simp only [hmap, List.getElem_toArray, List.getElem_map]
    rw [← state_eq_getElem hi', ← hself]
    congr 2
    simp [h]
  have hstart : a.compact.start = a.start := (start_compact ha).trans (hplace _ ha.start_lt)
  calc a.compact = ⟨a.compact.states, a.compact.start⟩ := rfl
    _ = a := by rw [hstates, hstart]

theorem compact_compact (ha : a.Valid) : a.compact.compact = a.compact :=
  compact_eq_self ha.compact (closure_compact ha)

/-! ## Runs of copies -/

/-- The automaton with another state as its start. -/
def startedAt (a : Automaton) (i : Nat) : Automaton := { a with start := i }

theorem Valid.startedAt (ha : a.Valid) {i : Nat} (hi : i < a.states.size) : (a.startedAt i).Valid :=
  ⟨hi, ha.successor_lt⟩

/-- A copy does under its new numbers what the original does. -/
theorem Embeds.bisimulation {b c : Automaton} {root : Nat} {f : Nat → Nat}
    (h : Embeds b root f c) :
    Bisimulation (fun i k => b.Reaches root i ∧ f i = k) (b.startedAt root)
      (c.startedAt (f root)) := by
  have hstate : ∀ i, b.Reaches root i →
      (c.startedAt (f root)).state (f i) = ((b.startedAt root).state i).mapTargets f := h.state_eq
  refine ⟨⟨?_, ?_, ?_⟩, ⟨?_, ?_, ?_⟩, .refl, rfl⟩
  · rintro i k ⟨hi, rfl⟩ hacc
    rw [hstate i hi]
    exact ⟨hacc, rfl⟩
  · rintro i k ⟨hi, rfl⟩ cp j ⟨e, he, hc, rfl⟩
    rw [hstate i hi]
    exact ⟨_, ⟨_, State.mem_edges_mapTargets.mpr ⟨e, he, rfl⟩, hc, rfl⟩, hi.edge he, rfl⟩
  · rintro i k ⟨hi, rfl⟩ j hj
    rw [hstate i hi]
    exact ⟨_, State.mem_epsilons_mapTargets.mpr ⟨j, hj, rfl⟩, hi.epsilon hj, rfl⟩
  · rintro k i ⟨hi, rfl⟩ hacc
    rw [hstate i hi] at hacc ⊢
    exact ⟨hacc, rfl⟩
  · rintro k i ⟨hi, rfl⟩ cp j ⟨e, he, hc, rfl⟩
    rw [hstate i hi] at he
    obtain ⟨d, hd, rfl⟩ := State.mem_edges_mapTargets.mp he
    exact ⟨d.target, ⟨d, hd, hc, rfl⟩, hi.edge hd, rfl⟩
  · rintro k i ⟨hi, rfl⟩ j hj
    rw [hstate i hi] at hj
    obtain ⟨l, hl, rfl⟩ := State.mem_epsilons_mapTargets.mp hj
    exact ⟨l, hl, hi.epsilon hl, rfl⟩

/-- Runs do not notice that states are numbered anew. -/
theorem bisimulation_compact (ha : a.Valid) :
    Bisimulation (fun i k => a.Reaches a.start i ∧ a.closure.idxOf i = k) a a.compact := by
  have h := (embeds_compact ha).bisimulation
  rw [← start_compact ha] at h
  exact h

end Automaton

end FiberLex
