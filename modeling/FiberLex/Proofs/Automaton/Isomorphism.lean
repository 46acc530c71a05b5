import FiberLex.Proofs.Automaton.Compaction
import Mathlib.Data.List.Permutation

/-!
# Copies are isomorphic

What a subgraph is made of are the states that can be reached from its root, under new numbers:
`Isomorphism` says that these are different for different states and that a state keeps all it has.
A copy therefore runs as the original does from the root (`Embeds.accepts_and_lex_eq`), whether it
stands alone or, when it is absorbed, behind the states of another automaton, which do not change.
-/

namespace FiberLex.Automaton

variable {a b c : Automaton} {root : Nat}

/-- The new number of a state, if the table has one. -/
def newNumber? (numbers : Array (Option Nat)) (i : Nat) : Option Nat := (numbers[i]?).join

/-- The states that can be reached from a root, and no others, have new numbers, and an automaton is
made of these states under their new numbers. -/
structure Isomorphism (a : Automaton) (root : Nat) (numbers : Array (Option Nat))
    (c : Automaton) : Prop where
  /-- Exactly the states that can be reached have a new number. -/
  defined : ∀ i, (newNumber? numbers i).isSome = true ↔ a.Reaches root i
  /-- Different states have different new numbers. -/
  injective : ∀ i j k, newNumber? numbers i = some k → newNumber? numbers j = some k → i = j
  /-- The new numbers are those of states. -/
  lt_size : ∀ i k, newNumber? numbers i = some k → k < c.states.size
  /-- Every state of the copy has its number from some state. -/
  onto : ∀ k < c.states.size, ∃ i, newNumber? numbers i = some k
  /-- A state is copied with its successors under their new numbers. These can be reached as well, so
  that they have some. -/
  state_eq : ∀ i k, newNumber? numbers i = some k →
    c.state k = (a.state i).renumber (newNumber? numbers)
  /-- The root is the start. -/
  start_eq : newNumber? numbers root = some c.start

/-! ## Subgraphs -/

/-- A state gets its place in the closure of the root as its number. -/
theorem newNumber?_subgraph (a : Automaton) (root i : Nat) :
    newNumber? (a.subgraph root).2 i =
      if i ∈ a.closureFrom root then some ((a.closureFrom root).idxOf i) else none := by
  have hlt : ∀ j ∈ a.closureFrom root, j < a.states.size := fun j hj => lt_size_of_mem_closureFrom hj
  have h := @getElem?_numbering a.states.size 0 _ (nodup_closureFrom a root) hlt i
  rw [Nat.zero_add] at h
  exact h

theorem newNumber?_subgraph_eq_some_iff {i k : Nat} :
    newNumber? (a.subgraph root).2 i = some k ↔
      i ∈ a.closureFrom root ∧ (a.closureFrom root).idxOf i = k := by
  rw [newNumber?_subgraph]
  by_cases hi : i ∈ a.closureFrom root
  · simp [hi]
  · simp [hi]

/-- The new numbers of a subgraph make an isomorphism. -/
theorem isomorphism_subgraph (ha : a.Valid) (hroot : root < a.states.size) :
    Isomorphism a root (a.subgraph root).2 (a.subgraph root).1 := by
  have hembeds := embeds_subgraph ha hroot
  have hmem : ∀ i, i ∈ a.closureFrom root ↔ a.Reaches root i := fun i => mem_closureFrom_iff ha hroot
  refine ⟨fun i => ?_, fun i j k hi hj => ?_, fun i k hi => ?_, fun k hk => ?_, fun i k hi => ?_, ?_⟩
  · rw [newNumber?_subgraph, ← hmem]
    by_cases hi : i ∈ a.closureFrom root
    · simp [hi]
    · simp [hi]
  · obtain ⟨hmemi, hi⟩ := newNumber?_subgraph_eq_some_iff.mp hi
    obtain ⟨-, hj⟩ := newNumber?_subgraph_eq_some_iff.mp hj
    exact (List.idxOf_inj hmemi).mp (hi.trans hj.symm)
  · obtain ⟨hmemi, rfl⟩ := newNumber?_subgraph_eq_some_iff.mp hi
    exact hembeds.lt_size i ((hmem i).mp hmemi)
  · rw [states_subgraph ha hroot, List.size_toArray, List.length_map] at hk
    refine ⟨(a.closureFrom root)[k], newNumber?_subgraph_eq_some_iff.mpr ⟨List.getElem_mem hk, ?_⟩⟩
    exact (nodup_closureFrom a root).idxOf_getElem k hk
  · obtain ⟨hmemi, rfl⟩ := newNumber?_subgraph_eq_some_iff.mp hi
    have hreach : a.Reaches root i := (hmem i).mp hmemi
    rw [hembeds.state_eq i hreach]
    refine (State.renumber_eq_mapTargets fun j hj => ?_).symm
    exact newNumber?_subgraph_eq_some_iff.mpr ⟨(hmem j).mpr (hreach.tail hj), rfl⟩
  · rw [start_subgraph ha hroot]
    exact newNumber?_subgraph_eq_some_iff.mpr ⟨(hmem root).mpr .refl, rfl⟩

/-! ## Runs -/

/-- A copy runs from the new number of the root as the original does from the root. -/
theorem Embeds.accepts_and_lex_eq {f : Nat → Nat} (h : Embeds b root f c) (hb : b.Valid)
    (hc : c.Valid) (hroot : root < b.states.size) :
    (∀ text, (c.startedAt (f root)).accepts text = (b.startedAt root).accepts text) ∧
      ∀ cur, (c.startedAt (f root)).lex cur = (b.startedAt root).lex cur := by
  have hvalid := hb.startedAt hroot
  have hvalid' := hc.startedAt (h.lt_size root .refl)
  exact ⟨h.bisimulation.accepts_eq hvalid hvalid', h.bisimulation.lex_eq hvalid hvalid'⟩

theorem accepts_and_lex_subgraph (ha : a.Valid) (hroot : root < a.states.size) :
    (∀ text, (a.subgraph root).1.accepts text = (a.startedAt root).accepts text) ∧
      ∀ cur, (a.subgraph root).1.lex cur = (a.startedAt root).lex cur := by
  have h := (embeds_subgraph ha hroot).accepts_and_lex_eq ha (valid_subgraph ha hroot) hroot
  rw [← start_subgraph ha hroot] at h
  exact h

theorem accepts_and_lex_compact (ha : a.Valid) :
    (∀ text, a.compact.accepts text = a.accepts text) ∧ ∀ cur, a.compact.lex cur = a.lex cur :=
  accepts_and_lex_subgraph ha ha.start_lt

/-- What is absorbed runs from its new start as it did before. -/
theorem accepts_and_lex_absorb (ha : a.Valid) (hb : b.Valid) :
    (∀ text, ((a.absorb b).1.startedAt (a.absorb b).2).accepts text = b.accepts text) ∧
      ∀ cur, ((a.absorb b).1.startedAt (a.absorb b).2).lex cur = b.lex cur := by
  have h := (embeds_absorb a hb).accepts_and_lex_eq hb (ha.absorb hb) hb.start_lt
  rw [← snd_absorb a hb] at h
  exact h

/-- The states that were there come first and stay as they are. -/
theorem getElem?_states_absorb (a : Automaton) (hb : b.Valid) {i : Nat} (hi : i < a.states.size) :
    (a.absorb b).1.states[i]? = a.states[i]? := by
  rw [states_absorb a hb, Array.getElem?_append_left hi]

/-- The root comes first in its closure. -/
theorem start_compact_eq_zero (ha : a.Valid) : a.compact.start = 0 := by
  have hhead : a.closure.head? = some a.start := head?_closureFrom ha.start_lt
  obtain ⟨rest, hrest⟩ := List.head?_eq_some_iff.mp hhead
  rw [start_compact ha, hrest, List.idxOf_cons_self]

/-- **Copies are isomorphic and compacting is canonical.** A walk over a compact automaton comes to
the states in the order of their numbers, from zero on, runs of it are those of the automaton, and
compacting it again changes nothing. The subgraph of a state runs as the automaton does from that
state, and its new numbers make an isomorphism with what can be reached from there. Absorbing another
automaton leaves the states that were there as they are, and from the number returned the other one
runs as before. -/
theorem copies_isomorphic (ha : a.Valid) (hb : b.Valid) (hroot : root < a.states.size) :
    (a.compact.closure = List.range a.compact.states.size ∧ a.compact.start = 0 ∧
      (∀ text, a.compact.accepts text = a.accepts text) ∧
      (∀ cur, a.compact.lex cur = a.lex cur) ∧ a.compact.compact = a.compact) ∧
    (Isomorphism a root (a.subgraph root).2 (a.subgraph root).1 ∧
      (∀ text, (a.subgraph root).1.accepts text = (a.startedAt root).accepts text) ∧
      ∀ cur, (a.subgraph root).1.lex cur = (a.startedAt root).lex cur) ∧
    (∀ i < a.states.size, (a.absorb b).1.states[i]? = a.states[i]?) ∧
      (∀ text, ((a.absorb b).1.startedAt (a.absorb b).2).accepts text = b.accepts text) ∧
      ∀ cur, ((a.absorb b).1.startedAt (a.absorb b).2).lex cur = b.lex cur := by
  obtain ⟨haccepts, hlex⟩ := accepts_and_lex_compact ha
  refine ⟨⟨closure_compact ha, start_compact_eq_zero ha, haccepts, hlex, compact_compact ha⟩,
    ⟨isomorphism_subgraph ha hroot, accepts_and_lex_subgraph ha hroot⟩, fun i hi => ?_, ?_⟩
  · exact getElem?_states_absorb a hb hi
  · exact accepts_and_lex_absorb ha hb

/-- An automaton that begins in its third state. Edges lead in circles and to shared states, and the
first state cannot be reached. -/
def shuffled : Automaton where
  states := #[
    { epsilons := [1] },
    { edges := [⟨⟨97, 97⟩, 3⟩, ⟨⟨98, 98⟩, 1⟩] },
    { edges := [⟨⟨97, 97⟩, 4⟩, ⟨⟨98, 98⟩, 1⟩], epsilons := [3] },
    { accepting := true, symbol := some 5, edges := [⟨⟨99, 99⟩, 2⟩] },
    { epsilons := [3, 2] }]
  start := 2

theorem copies_isomorphic_shuffled :
    shuffled.Valid ∧ 1 < shuffled.states.size ∧
      shuffled.compact.closure = List.range shuffled.compact.states.size ∧
      shuffled.compact.compact = shuffled.compact ∧
      Isomorphism shuffled 1 #[none, some 0, some 2, some 1, some 3] (shuffled.subgraph 1).1 ∧
      (shuffled.absorb shuffled).1.states[4]? = some { epsilons := [3, 2] } ∧
      ∀ text, ((shuffled.absorb shuffled).1.startedAt 5).accepts text = shuffled.accepts text := by
  have hvalid : shuffled.Valid := by decide
  have hroot : 1 < shuffled.states.size := by decide
  obtain ⟨⟨hclosure, -, -, -, hagain⟩, ⟨hiso, -, -⟩, hstates, habsorbed, -⟩ :=
    copies_isomorphic hvalid hvalid hroot
  have hnumbers : (shuffled.subgraph 1).2 = #[none, some 0, some 2, some 1, some 3] := by
    have horder : shuffled.closureFrom 1 = [1, 3, 2, 4] := by cbv
    rw [subgraph, horder]
    decide
  have hplace : (shuffled.absorb shuffled).2 = 5 := by
    have horder : shuffled.closure = [2, 4, 3, 1] := by cbv
    rw [absorb, horder]
    decide
  rw [hnumbers] at hiso
  rw [hplace] at habsorbed
  exact ⟨hvalid, hroot, hclosure, hagain, hiso, hstates 4 (by decide), habsorbed⟩

end FiberLex.Automaton
