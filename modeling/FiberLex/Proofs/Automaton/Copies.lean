import FiberLex.Proofs.Automaton.Changes
import Mathlib.Data.List.Infix

/-!
# Copies of automata

`Embeds b root f c` says that the states of `b` reachable from `root` stand in `c` under the numbers
that `f` gives them. The copy yields what the original does, since nothing leads out of it
(`Embeds.yields_iff`). Compacting an automaton and absorbing it into another both make such copies.
-/

namespace FiberLex

/-- The state with new numbers for all its successors. -/
def State.mapTargets (f : Nat → Nat) (s : State) : State :=
  { s with
    edges := s.edges.map fun e => ⟨e.range, f e.target⟩
    epsilons := s.epsilons.map f }

@[simp] theorem State.accepting_mapTargets (f : Nat → Nat) (s : State) :
    (s.mapTargets f).accepting = s.accepting := rfl

@[simp] theorem State.symbol_mapTargets (f : Nat → Nat) (s : State) :
    (s.mapTargets f).symbol = s.symbol := rfl

@[simp] theorem State.successors_mapTargets (f : Nat → Nat) (s : State) :
    (s.mapTargets f).successors = s.successors.map f := by
  simp [State.mapTargets, State.successors, Function.comp_def]

theorem State.mem_epsilons_mapTargets {f : Nat → Nat} {s : State} {j : Nat} :
    j ∈ (s.mapTargets f).epsilons ↔ ∃ k ∈ s.epsilons, f k = j :=
  List.mem_map

theorem State.mem_edges_mapTargets {f : Nat → Nat} {s : State} {e : Edge} :
    e ∈ (s.mapTargets f).edges ↔ ∃ e' ∈ s.edges, ⟨e'.range, f e'.target⟩ = e :=
  List.mem_map

/-- If every successor has a new number, none is dropped. -/
theorem State.renumber_eq_mapTargets {g : Nat → Option Nat} {f : Nat → Nat} {s : State}
    (h : ∀ j ∈ s.successors, g j = some (f j)) : s.renumber g = s.mapTargets f := by
  have hedges : s.edges.filterMap (fun e => (g e.target).map (⟨e.range, ·⟩)) =
      s.edges.map fun e => (⟨e.range, f e.target⟩ : Edge) := by
    rw [← List.filterMap_eq_map]
    refine List.filterMap_congr fun e he => ?_
    rw [h e.target (List.mem_append_left _ (List.mem_map_of_mem he))]
    rfl
  have hepsilons : s.epsilons.filterMap g = s.epsilons.map f := by
    rw [← List.filterMap_eq_map]
    exact List.filterMap_congr fun j hj => h j (List.mem_append_right _ hj)
  rw [State.renumber, hedges, hepsilons]
  rfl

namespace Automaton

variable {a b c : Automaton} {root : Nat} {f : Nat → Nat}

/-! ## Copies in place -/

/-- The states of `b` reachable from `root` stand in `c` under their new numbers. -/
structure Embeds (b : Automaton) (root : Nat) (f : Nat → Nat) (c : Automaton) : Prop where
  /-- A state is copied with its successors renumbered. -/
  state_eq : ∀ i, b.Reaches root i → c.state (f i) = (b.state i).mapTargets f
  /-- The new numbers are those of states. -/
  lt_size : ∀ i, b.Reaches root i → f i < c.states.size

/-- A copy yields what the original does. -/
theorem Embeds.yields_iff (h : Embeds b root f c) {i : Nat} (hi : b.Reaches root i)
    {w : List Char} {s : Option Int} : c.Yields (f i) w s ↔ b.Yields i w s := by
  constructor
  · intro hy
    generalize hx : f i = x at hy
    induction hy generalizing i with
    | stop hacc =>
      subst hx
      rw [h.state_eq i hi] at hacc ⊢
      exact .stop hacc
    | epsilon hj _ ih =>
      subst hx
      rw [h.state_eq i hi] at hj
      obtain ⟨k, hk, rfl⟩ := State.mem_epsilons_mapTargets.mp hj
      exact .epsilon hk (ih (hi.epsilon hk) rfl)
    | edge he hc _ ih =>
      subst hx
      rw [h.state_eq i hi] at he
      obtain ⟨e, he', rfl⟩ := State.mem_edges_mapTargets.mp he
      exact .edge he' hc (ih (hi.edge he') rfl)
  · intro hy
    induction hy with
    | @stop i hacc =>
      have hstate := h.state_eq i hi
      have hsymbol : (c.state (f i)).symbol = (b.state i).symbol := by rw [hstate]; rfl
      rw [← hsymbol]
      exact .stop (by rw [hstate]; exact hacc)
    | @epsilon i j w s hj _ ih =>
      refine .epsilon ?_ (ih (hi.epsilon hj))
      rw [h.state_eq i hi]
      exact State.mem_epsilons_mapTargets.mpr ⟨j, hj, rfl⟩
    | @edge i e ch w s he hc _ ih =>
      have hmem : (⟨e.range, f e.target⟩ : Edge) ∈ (c.state (f i)).edges := by
        rw [h.state_eq i hi]
        exact State.mem_edges_mapTargets.mpr ⟨e, he, rfl⟩
      exact .edge hmem hc (ih (hi.edge he))

/-- Nothing leads out of a copy. -/
theorem Embeds.reaches_iff (h : Embeds b root f c) {x : Nat} :
    c.Reaches (f root) x ↔ ∃ i, b.Reaches root i ∧ f i = x := by
  constructor
  · intro hx
    induction hx with
    | refl => exact ⟨root, .refl, rfl⟩
    | tail _ hstep ih =>
      obtain ⟨i, hi, rfl⟩ := ih
      rw [h.state_eq i hi, State.successors_mapTargets] at hstep
      obtain ⟨j, hj, rfl⟩ := List.mem_map.mp hstep
      exact ⟨j, hi.tail hj, rfl⟩
  · rintro ⟨i, hi, rfl⟩
    induction hi with
    | refl => exact .refl
    | @tail j k hj hstep ih =>
      refine ih.tail ?_
      rw [h.state_eq j hj, State.successors_mapTargets]
      exact List.mem_map_of_mem hstep

/-- A copy stays one as long as its states are not changed. -/
theorem Embeds.of_state_eq {c' : Automaton} (h : Embeds b root f c)
    (hsize : c.states.size ≤ c'.states.size)
    (hsame : ∀ i, b.Reaches root i → c'.state (f i) = c.state (f i)) : Embeds b root f c' :=
  ⟨fun i hi => (hsame i hi).trans (h.state_eq i hi),
    fun i hi => Nat.lt_of_lt_of_le (h.lt_size i hi) hsize⟩

/-! ## Numbering -/

/-- A table filled from a list of entries with different keys has each entry at its key. -/
theorem getElem?_foldl_set {l : List (Nat × Nat)} (hnodup : (l.map (·.1)).Nodup)
    {m : Array (Option Nat)} (hlt : ∀ p ∈ l, p.1 < m.size) (j : Nat) :
    (∀ v, (j, v) ∈ l →
      (l.foldl (fun m p => m.setIfInBounds p.1 (some p.2)) m)[j]? = some (some v)) ∧
    (j ∉ l.map (·.1) → (l.foldl (fun m p => m.setIfInBounds p.1 (some p.2)) m)[j]? = m[j]?) := by
  induction l generalizing m with
  | nil => simp
  | cons p l ih =>
    rw [List.map_cons, List.nodup_cons] at hnodup
    obtain ⟨hp, hl⟩ := List.forall_mem_cons.mp hlt
    obtain ⟨hin, hout⟩ := @ih hnodup.2 (m.setIfInBounds p.1 (some p.2)) (by simpa using hl)
    refine ⟨fun v hv => ?_, fun hj => ?_⟩
    · rw [List.foldl_cons]
      rcases List.mem_cons.mp hv with rfl | hv
      · rw [hout hnodup.1, Array.getElem?_setIfInBounds_self_of_lt hp]
      · exact hin v hv
    · rw [List.map_cons, List.mem_cons, not_or] at hj
      rw [List.foldl_cons, hout hj.2, Array.getElem?_setIfInBounds_ne (Ne.symm hj.1)]

/-- The states of a list have numbers by their place in it, and others have none. -/
theorem getElem?_numbering {size base : Nat} {order : List Nat} (hnodup : order.Nodup)
    (hlt : ∀ i ∈ order, i < size) (j : Nat) :
    ((numbering size base order)[j]?).join =
      if j ∈ order then some (base + order.idxOf j) else none := by
  have hkeys : (order.zipIdx base).map (·.1) = order := List.zipIdx_map_fst base order
  have hmem : ∀ p ∈ order.zipIdx base, p.1 < (Array.replicate size (none : Option Nat)).size := by
    intro p hp
    rw [Array.size_replicate]
    exact hlt p.1 (hkeys ▸ List.mem_map_of_mem hp)
  obtain ⟨hin, hout⟩ := getElem?_foldl_set (hkeys.symm ▸ hnodup) hmem j
  unfold numbering
  by_cases hj : j ∈ order
  · have hidx := List.idxOf_lt_length_of_mem hj
    have hentry : (j, base + order.idxOf j) ∈ order.zipIdx base := by
      rw [List.mem_iff_getElem?]
      refine ⟨order.idxOf j, ?_⟩
      rw [List.getElem?_zipIdx, List.getElem?_eq_getElem hidx, List.getElem_idxOf hidx]
      rfl
    rw [hin _ hentry, if_pos hj]
    rfl
  · rw [hout (hkeys.symm ▸ hj), if_neg hj, Array.getElem?_replicate]
    split <;> rfl

/-- Copies of all that can be reached from a state have all their successors. -/
theorem copies_closureFrom (ha : a.Valid) {root : Nat} (hroot : root < a.states.size) (base : Nat) :
    a.copies (a.closureFrom root) (numbering a.states.size base (a.closureFrom root)) =
      (a.closureFrom root).map fun i =>
        (a.state i).mapTargets fun j => base + (a.closureFrom root).idxOf j := by
  refine List.map_congr_left fun i hi => State.renumber_eq_mapTargets fun j hj => ?_
  have hmem : j ∈ a.closureFrom root :=
    (mem_closureFrom_iff ha hroot).mpr (((mem_closureFrom_iff ha hroot).mp hi).tail hj)
  rw [getElem?_numbering (nodup_closureFrom a root) (fun k hk => lt_size_of_mem_closureFrom hk),
    if_pos hmem]

/-! ## Absorbing -/

/-- The number that a state gets when it is absorbed by an automaton of the given size. -/
def absorbed (b : Automaton) (size i : Nat) : Nat := size + b.closure.idxOf i

theorem states_absorb (a : Automaton) (hb : b.Valid) :
    (a.absorb b).1.states = a.states ++
      (b.closure.map fun i => (b.state i).mapTargets (b.absorbed a.states.size)).toArray := by
  rw [absorb]
  simp only
  rw [closure, copies_closureFrom hb hb.start_lt, ← Array.toList_inj]
  simp only [Array.toList_appendList, Array.toList_append]
  rfl

@[simp] theorem start_absorb (a b : Automaton) : (a.absorb b).1.start = a.start := rfl

theorem size_absorb (a : Automaton) (hb : b.Valid) :
    (a.absorb b).1.states.size = a.states.size + b.closure.length := by
  rw [states_absorb a hb]
  simp

theorem state_absorb_of_lt (a : Automaton) (hb : b.Valid) {i : Nat} (hi : i < a.states.size) :
    (a.absorb b).1.state i = a.state i := by
  unfold state
  rw [states_absorb a hb, Array.getD_eq_getD_getElem?, Array.getD_eq_getD_getElem?,
    Array.getElem?_append_left hi]

/-- What is absorbed is copied behind the states that were there. -/
theorem embeds_absorb (a : Automaton) (hb : b.Valid) :
    Embeds b b.start (b.absorbed a.states.size) (a.absorb b).1 := by
  have hplace : ∀ i, b.Reaches b.start i → b.closure.idxOf i < b.closure.length := fun i hi =>
    List.idxOf_lt_length_of_mem ((mem_closure_iff hb).mpr hi)
  constructor
  · intro i hi
    have hidx := hplace i hi
    unfold state
    rw [states_absorb a hb, Array.getD_eq_getD_getElem?,
      Array.getElem?_append_right (by simp [absorbed])]
    simp only [absorbed, Nat.add_sub_cancel_left, List.getElem?_toArray]
    rw [List.getElem?_map, List.getElem?_eq_getElem hidx, List.getElem_idxOf hidx]
    rfl
  · intro i hi
    have hidx := hplace i hi
    rw [size_absorb a hb, absorbed]
    omega

theorem size_le_absorbed (b : Automaton) (size i : Nat) : size ≤ b.absorbed size i :=
  Nat.le_add_right _ _

theorem snd_absorb (a : Automaton) (hb : b.Valid) :
    (a.absorb b).2 = b.absorbed a.states.size b.start := by
  rw [absorb]
  simp only
  rw [closure,
    getElem?_numbering (nodup_closureFrom b b.start) fun k hk => lt_size_of_mem_closureFrom hk,
    if_pos ((mem_closureFrom_iff hb hb.start_lt).mpr .refl)]
  rfl

theorem snd_absorb_lt (a : Automaton) (hb : b.Valid) :
    (a.absorb b).2 < (a.absorb b).1.states.size := by
  rw [snd_absorb a hb]
  exact (embeds_absorb a hb).lt_size _ .refl

theorem Valid.absorb (ha : a.Valid) (hb : b.Valid) : (a.absorb b).1.Valid := by
  rw [valid_iff, size_absorb a hb, states_absorb a hb]
  refine ⟨Nat.lt_of_lt_of_le ha.start_lt (Nat.le_add_right _ _), fun s hs j hj => ?_⟩
  rw [Array.mem_append] at hs
  rcases hs with hs | hs
  · have := (valid_iff.mp ha).2 s hs j hj
    omega
  · rw [List.mem_toArray] at hs
    obtain ⟨i, hi, rfl⟩ := List.mem_map.mp hs
    rw [State.successors_mapTargets] at hj
    obtain ⟨k, hk, rfl⟩ := List.mem_map.mp hj
    have hreach := ((mem_closure_iff hb).mp hi).tail hk
    rw [← size_absorb a hb]
    exact (embeds_absorb a hb).lt_size k hreach

/-! ## Compacting -/

theorem states_subgraph (ha : a.Valid) {root : Nat} (hroot : root < a.states.size) :
    (a.subgraph root).1.states =
      ((a.closureFrom root).map fun i => (a.state i).mapTargets (a.closureFrom root).idxOf).toArray := by
  rw [subgraph]
  simp only
  rw [copies_closureFrom ha hroot]
  simp

/-- The subgraph of a state is a copy of all that can be reached from it. -/
theorem embeds_subgraph (ha : a.Valid) {root : Nat} (hroot : root < a.states.size) :
    Embeds a root (a.closureFrom root).idxOf (a.subgraph root).1 := by
  have hplace : ∀ i, a.Reaches root i →
      (a.closureFrom root).idxOf i < (a.closureFrom root).length := fun i hi =>
    List.idxOf_lt_length_of_mem ((mem_closureFrom_iff ha hroot).mpr hi)
  constructor
  · intro i hi
    have hidx := hplace i hi
    unfold state
    rw [states_subgraph ha hroot, Array.getD_eq_getD_getElem?, List.getElem?_toArray,
      List.getElem?_map, List.getElem?_eq_getElem hidx, List.getElem_idxOf hidx]
    rfl
  · intro i hi
    rw [states_subgraph ha hroot]
    simpa using hplace i hi

theorem start_subgraph (ha : a.Valid) {root : Nat} (hroot : root < a.states.size) :
    (a.subgraph root).1.start = (a.closureFrom root).idxOf root := by
  rw [subgraph]
  simp only
  rw [getElem?_numbering (nodup_closureFrom a root) fun k hk => lt_size_of_mem_closureFrom hk,
    if_pos ((mem_closureFrom_iff ha hroot).mpr .refl)]
  simp

theorem valid_subgraph (ha : a.Valid) {root : Nat} (hroot : root < a.states.size) :
    (a.subgraph root).1.Valid := by
  have hembeds := embeds_subgraph ha hroot
  rw [valid_iff, start_subgraph ha hroot]
  refine ⟨hembeds.lt_size root .refl, fun s hs j hj => ?_⟩
  rw [states_subgraph ha hroot, List.mem_toArray] at hs
  obtain ⟨i, hi, rfl⟩ := List.mem_map.mp hs
  rw [State.successors_mapTargets] at hj
  obtain ⟨k, hk, rfl⟩ := List.mem_map.mp hj
  exact hembeds.lt_size k (((mem_closureFrom_iff ha hroot).mp hi).tail hk)

theorem Valid.compact (ha : a.Valid) : a.compact.Valid := valid_subgraph ha ha.start_lt

/-- The compact automaton yields what the automaton does. -/
theorem yields_compact_iff (ha : a.Valid) {w : List Char} {s : Option Int} :
    a.compact.Yields a.compact.start w s ↔ a.Yields a.start w s := by
  rw [compact, start_subgraph ha ha.start_lt]
  exact (embeds_subgraph ha ha.start_lt).yields_iff .refl

/-- Every state of the compact automaton is a copy. -/
theorem exists_state_compact (ha : a.Valid) (k : Nat) :
    (∃ i, a.Reaches a.start i ∧ a.compact.state k = (a.state i).mapTargets a.closure.idxOf) ∨
      a.compact.state k = {} := by
  by_cases hk : k < a.compact.states.size
  · left
    rw [state_eq_getElem hk]
    have hmem : a.compact.states[k] ∈ a.compact.states := Array.getElem_mem hk
    generalize a.compact.states[k] = s at hmem ⊢
    rw [compact, states_subgraph ha ha.start_lt, List.mem_toArray] at hmem
    obtain ⟨i, hi, rfl⟩ := List.mem_map.mp hmem
    exact ⟨i, (mem_closure_iff ha).mp hi, rfl⟩
  · exact Or.inr (state_of_size_le (by omega))

end Automaton

end FiberLex
