import FiberLex.Proofs.Automaton.WellFormed

/-!
# Edges in bundles

A state is a bundle if all its edges lead to one state, so that nothing but their ranges tells them
apart. The automata of code points and sets are made of bundles, and no composition adds an edge or
gives two edges of a state different targets: it copies states and adds epsilons. So the automaton of
a pattern is made of bundles, and what holds of the ranges for each of its code points and classes
holds of the ranges of every state.
-/

namespace FiberLex

variable {R : List CodeRange → Prop}

/-- All edges of the state lead to one state, and their ranges have the property. -/
def State.Bundle (R : List CodeRange → Prop) (s : State) : Prop :=
  ∃ (target : Nat) (ranges : List CodeRange), s.edges = ranges.map (⟨·, target⟩) ∧ R ranges

theorem State.Bundle.mapTargets {s : State} (h : s.Bundle R) (f : Nat → Nat) :
    (s.mapTargets f).Bundle R := by
  obtain ⟨target, ranges, hedges, hR⟩ := h
  refine ⟨f target, ranges, ?_, hR⟩
  simp [State.mapTargets, hedges]

namespace Automaton

variable {a b : Automaton}

/-- The automaton is valid and every state is a bundle, where no ranges at all have the property. -/
structure Bundled (R : List CodeRange → Prop) (a : Automaton) : Prop extends Valid a where
  nil : R []
  bundle : ∀ i, (a.state i).Bundle R

/-! ## Changes that leave edges alone -/

theorem Bundled.congr (h : a.Bundled R) (hvalid : b.Valid)
    (hedges : ∀ i, (b.state i).edges = (a.state i).edges) : b.Bundled R := by
  refine ⟨hvalid, h.nil, fun i => ?_⟩
  unfold State.Bundle
  rw [hedges]
  exact h.bundle i

theorem bundled_of_blank {s : State} (hnil : R []) (hedges : s.edges = [])
    (hepsilons : s.epsilons = []) : Bundled R ⟨#[s], 0⟩ := by
  refine ⟨(wellFormed_of_blank hedges hepsilons).toValid, hnil, fun i => ⟨0, [], ?_, hnil⟩⟩
  rcases i with _ | i
  · exact hedges
  · rfl

theorem Bundled.addState (h : a.Bundled R) (accepting : Bool) (symbol : Option Int) :
    (a.addState accepting symbol).1.Bundled R := by
  refine h.congr (h.toValid.addState accepting symbol) fun i => ?_
  rcases Nat.lt_trichotomy i a.states.size with hlt | rfl | hgt
  · rw [state_addState_of_lt a accepting symbol hlt]
  · rw [state_addState_last, state_of_size_le (Nat.le_refl _)]
  · rw [state_of_size_le (by rw [size_addState]; omega), state_of_size_le (Nat.le_of_lt hgt)]

theorem Bundled.addEpsilon (h : a.Bundled R) (source : Nat) {target : Nat}
    (ht : target < a.states.size) : (a.addEpsilon source target).Bundled R := by
  refine h.congr (h.toValid.addEpsilon source ht) fun i => ?_
  rw [Automaton.addEpsilon, state_modifyState]
  split
  · exact edges_addEpsilon _ _
  · rfl

theorem Bundled.forwardAll (h : a.Bundled R) (sources : List Nat) {target : Nat}
    (ht : target < a.states.size) : (a.forwardAll sources target).Bundled R := by
  refine h.congr (h.toValid.forwardAll sources ht) fun i => ?_
  by_cases hi : i < a.states.size
  · rw [state_forwardAll a sources target hi]
    split
    · exact edges_forwardTo _ _
    · rfl
  · rw [state_of_size_le (by simpa using hi), state_of_size_le (Nat.le_of_not_lt hi)]

theorem Bundled.setSymbol (h : a.Bundled R) (symbol : Option Int) :
    (a.setSymbol symbol).Bundled R :=
  h.congr (h.toValid.mapSymbols _) fun i => (edges_epsilons_mapSymbols a _ i).2.1

/-! ## Copies -/

theorem Bundled.absorb (ha : a.Bundled R) (hb : b.Bundled R) : (a.absorb b).1.Bundled R := by
  have hvalid := ha.toValid.absorb hb.toValid
  refine ⟨hvalid, ha.nil, fun i => ?_⟩
  by_cases hi : i < (a.absorb b).1.states.size
  · rw [state_eq_getElem hi]
    have hmem := Array.getElem_mem hi
    generalize (a.absorb b).1.states[i] = s at hmem ⊢
    rw [states_absorb a hb.toValid] at hmem
    rcases Array.mem_append.mp hmem with hs | hs
    · obtain ⟨j, hj, rfl⟩ := Array.mem_iff_getElem.mp hs
      exact state_eq_getElem hj ▸ ha.bundle j
    · obtain ⟨j, -, rfl⟩ := List.mem_map.mp (List.mem_toArray.mp hs)
      exact (hb.bundle j).mapTargets _
  · rw [state_of_size_le (Nat.le_of_not_lt hi)]
    exact ⟨0, [], rfl, ha.nil⟩

theorem Bundled.compact (h : a.Bundled R) : a.compact.Bundled R := by
  refine ⟨h.toValid.compact, h.nil, fun k => ?_⟩
  rcases exists_state_compact h.toValid k with ⟨i, -, hstate⟩ | hstate
  · exact hstate ▸ (h.bundle i).mapTargets _
  · exact hstate ▸ ⟨0, [], rfl, h.nil⟩

/-! ## Compositions -/

theorem bundled_ofCodePoints {cps : List Nat} (hnil : R []) (h : ∀ cp ∈ cps, R [.single cp])
    (symbol : Option Int) : (ofCodePoints cps symbol).Bundled R := by
  refine ⟨(recognizes_ofCodePoints cps symbol).valid, hnil, fun i => ?_⟩
  by_cases hi : i < (ofCodePoints cps symbol).states.size
  · rw [state_eq_getElem hi]
    have hmem := Array.getElem_mem hi
    generalize (ofCodePoints cps symbol).states[i] = s at hmem ⊢
    rcases Array.mem_push.mp hmem with hs | rfl
    · obtain ⟨⟨cp, k⟩, hcp, rfl⟩ := List.mem_map.mp (List.mem_toArray.mp hs)
      exact ⟨k, [.single cp], rfl, h cp (List.fst_mem_of_mem_zipIdx hcp)⟩
    · exact ⟨0, [], rfl, hnil⟩
  · rw [state_of_size_le (Nat.le_of_not_lt hi)]
    exact ⟨0, [], rfl, hnil⟩

theorem bundled_ofSet {set : CodeSet} (hnil : R []) (h : R set.normalize.toList)
    (symbol : Option Int) : (ofSet set symbol).Bundled R := by
  refine ⟨(recognizes_ofSet set symbol).valid, hnil, fun i => ?_⟩
  rcases i with _ | _ | i
  · exact ⟨1, set.normalize.toList, rfl, h⟩
  · exact ⟨0, [], rfl, hnil⟩
  · exact ⟨0, [], rfl, hnil⟩

/-- Every step of a composition makes automata of bundles of such automata. -/
theorem composable_bundled (hnil : R []) : Composable (Bundled R) where
  valid h := h.toValid
  new := bundled_of_blank hnil rfl rfl
  empty _ := bundled_of_blank hnil rfl rfl
  addState := Bundled.addState
  addEpsilon := Bundled.addEpsilon
  forwardAll := Bundled.forwardAll
  setSymbol := Bundled.setSymbol
  absorb := Bundled.absorb
  compact := Bundled.compact

/-- The automaton of a pattern is made of bundles, and what holds of the ranges of its literals and
classes holds of those of its states. -/
theorem bundled_ofPattern (hnil : R []) {p : Pattern}
    (hp : p.MadeOf (fun cp => R [.single cp]) fun set => R set.normalize.toList)
    {symbol : Option Int} (hok : ofPattern p symbol = .ok a) : a.Bundled R :=
  (composable_bundled hnil).ofPattern (fun _ symbol h => bundled_ofCodePoints hnil h symbol)
    (fun _ symbol h => bundled_ofSet hnil h symbol) hp hok

end Automaton

end FiberLex
