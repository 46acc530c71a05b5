import FiberLex.Automaton.Reduce
import FiberLex.Proofs.Automaton.Copies
import FiberLex.Proofs.Automaton.Deterministic
import FiberLex.Proofs.CodeSet

/-!
# Merging duplicate states

States with the same outline do the same on the next character, so leading everything to one of them
changes nothing that is yielded (`yields_redirect_iff`). Each pass, and the compaction at the end,
makes an automaton that stands for the one before (`StandsIn`).
-/

namespace FiberLex.Automaton

open CodeSet

variable {a b c : Automaton} {f : Nat → Nat}

/-! ## Outlines -/

/-- The ranges of the edges to a target cover what leads there. -/
theorem covers_ranges_iff_leads (edges : List Edge) {cp target : Nat} :
    Covers (ofRanges ((edges.filter (·.target == target)).map (·.range))).toList cp ↔
      Leads edges cp target := by
  rw [ofRanges, covers_normalList]
  constructor
  · rintro ⟨r, hr, hc⟩
    obtain ⟨e, he, rfl⟩ := List.mem_map.mp hr
    obtain ⟨he, ht⟩ := List.mem_filter.mp he
    exact ⟨e, he, hc, by simpa using ht⟩
  · rintro ⟨e, he, hc, rfl⟩
    exact ⟨e.range, List.mem_map_of_mem (List.mem_filter.mpr ⟨he, by simp⟩), hc⟩

/-- The edges of a state, gathered by their targets, lead where the edges do. -/
theorem leads_iff_edgesByTarget {s : State} {cp target : Nat} :
    Leads s.edges cp target ↔
      ∃ set, (target, set) ∈ s.edgesByTarget ∧ Covers set.toList cp := by
  unfold State.edgesByTarget
  constructor
  · intro h
    obtain ⟨e, he, hc, rfl⟩ := h
    refine ⟨_, List.mem_map.mpr ⟨e.target, ?_, rfl⟩, (covers_ranges_iff_leads _).mpr ⟨e, he, hc, rfl⟩⟩
    exact List.mem_eraseDups.mpr (List.mem_map_of_mem he)
  · rintro ⟨set, hset, hc⟩
    obtain ⟨t, -, heq⟩ := List.mem_map.mp hset
    obtain ⟨rfl, rfl⟩ := Prod.mk.inj heq
    exact (covers_ranges_iff_leads _).mp hc

theorem accepting_of_outline_eq {s t : State} (h : outline s = outline t) :
    s.accepting = t.accepting :=
  congrArg Outline.accepting h

theorem symbol_of_outline_eq {s t : State} (h : outline s = outline t) (hs : s.accepting = true) :
    s.symbol = t.symbol := by
  have hsymbol := congrArg Outline.symbol h
  have ht := (accepting_of_outline_eq h).symm.trans hs
  simpa [outline, hs, ht] using hsymbol

theorem leads_of_outline_eq {s t : State} (h : outline s = outline t) {cp target : Nat} :
    Leads s.edges cp target ↔ Leads t.edges cp target := by
  have hedges : s.edgesByTarget.mergeSort (fun p q => p.1 ≤ q.1) =
      t.edgesByTarget.mergeSort fun p q => p.1 ≤ q.1 :=
    congrArg Outline.edges h
  have hmem : ∀ p, p ∈ s.edgesByTarget ↔ p ∈ t.edgesByTarget := by
    intro p
    have hs := @List.mem_mergeSort _ (fun p q : Nat × CodeSet => decide (p.1 ≤ q.1)) p s.edgesByTarget
    rw [← hs, hedges, List.mem_mergeSort]
  rw [leads_iff_edgesByTarget, leads_iff_edgesByTarget]
  simp only [hmem]

theorem epsilons_of_outline_eq {s t : State} (h : outline s = outline t) {j : Nat} :
    j ∈ s.epsilons ↔ j ∈ t.epsilons := by
  have hepsilons : s.epsilons.mergeSort = t.epsilons.mergeSort := congrArg Outline.epsilons h
  rw [← List.mem_mergeSort, hepsilons, List.mem_mergeSort]

/-! ## Leading elsewhere -/

theorem state_redirect (a : Automaton) (f : Nat → Nat) (i : Nat) :
    (a.redirect f).state i =
      { a.state i with
        edges := (a.state i).edges.map fun e => ⟨e.range, f e.target⟩
        epsilons := ((a.state i).epsilons.map f).eraseDups } := by
  unfold state redirect
  rw [Array.getD_eq_getD_getElem?, Array.getD_eq_getD_getElem?, Array.getElem?_map]
  by_cases hi : i < a.states.size
  · rw [Array.getElem?_eq_getElem hi]
    rfl
  · rw [Array.getElem?_eq_none (by omega)]
    rfl

theorem size_redirect (a : Automaton) (f : Nat → Nat) :
    (a.redirect f).states.size = a.states.size := by
  simp [redirect]

/-- Leading everything to states with the same outline changes nothing that is yielded. -/
theorem yields_redirect_iff (hf : ∀ i, outline (a.state (f i)) = outline (a.state i)) {i : Nat}
    {w : List Char} {s : Option Int} : (a.redirect f).Yields (f i) w s ↔ a.Yields i w s := by
  constructor
  · intro hy
    generalize hx : f i = x at hy
    induction hy generalizing i with
    | stop hacc =>
      subst hx
      rw [state_redirect] at hacc ⊢
      rw [symbol_of_outline_eq (hf i) hacc]
      exact .stop ((accepting_of_outline_eq (hf i)).symm.trans hacc)
    | epsilon hj _ ih =>
      subst hx
      rw [state_redirect] at hj
      obtain ⟨k, hk, rfl⟩ := List.mem_map.mp (List.mem_eraseDups.mp hj)
      exact .epsilon ((epsilons_of_outline_eq (hf i)).mp hk) (ih rfl)
    | edge he hc _ ih =>
      subst hx
      rw [state_redirect] at he
      obtain ⟨d, hd, rfl⟩ := List.mem_map.mp he
      obtain ⟨e', he', hc', htarget⟩ := (leads_of_outline_eq (hf i)).mp ⟨d, hd, hc, rfl⟩
      exact .edge he' hc' (ih (by rw [htarget]))
  · intro hy
    induction hy with
    | @stop i hacc =>
      have hacc' := (accepting_of_outline_eq (hf i)).trans hacc
      have hstop : (a.redirect f).Yields (f i) [] ((a.redirect f).state (f i)).symbol :=
        .stop (by rw [state_redirect]; exact hacc')
      rw [state_redirect] at hstop
      exact symbol_of_outline_eq (hf i) hacc' ▸ hstop
    | @epsilon i j w s hj _ ih =>
      refine .epsilon ?_ ih
      rw [state_redirect]
      exact List.mem_eraseDups.mpr
        (List.mem_map_of_mem ((epsilons_of_outline_eq (hf i)).mpr hj))
    | @edge i e ch w s he hc _ ih =>
      obtain ⟨e', he', hc', htarget⟩ := (leads_of_outline_eq (hf i)).mpr ⟨e, he, hc, rfl⟩
      have hmem : (⟨e'.range, f e'.target⟩ : Edge) ∈ ((a.redirect f).state (f i)).edges := by
        rw [state_redirect]
        exact List.mem_map_of_mem he'
      exact .edge hmem hc' (htarget ▸ ih)

/-! ## Representatives -/

/-- The state to which a state is led when duplicates are merged. -/
def representative (a : Automaton) (i : Nat) : Nat := a.representatives.getD i i

/-- A representative has the outline of the state, and is a state if that is one. -/
theorem representative_spec (a : Automaton) (i : Nat) :
    outline (a.state (a.representative i)) = outline (a.state i) ∧
      (i < a.states.size → a.representative i < a.states.size) := by
  have hall : ∀ p ∈ a.outlines, p.1 = outline (a.state p.2) ∧ p.2 < a.states.size := by
    intro p hp
    obtain ⟨j, hj, rfl⟩ := List.mem_map.mp hp
    exact ⟨rfl, lt_size_of_mem_closureFrom hj⟩
  -- the fold keeps the two facts for every entry
  have key : ∀ (l : List (Outline × Nat)) (m : Array Nat), (∀ p ∈ l, p ∈ a.outlines) →
      (∀ i, outline (a.state (m.getD i i)) = outline (a.state i) ∧
        (i < a.states.size → m.getD i i < a.states.size)) →
      ∀ i, outline (a.state ((l.foldl (fun m p =>
          m.setIfInBounds p.2 ((a.outlines.lookup p.1).getD p.2)) m).getD i i)) =
          outline (a.state i) ∧
        (i < a.states.size → (l.foldl (fun m p =>
          m.setIfInBounds p.2 ((a.outlines.lookup p.1).getD p.2)) m).getD i i < a.states.size) := by
    intro l
    induction l with
    | nil => exact fun m _ hm => hm
    | cons p l ih =>
      intro m hl hm
      obtain ⟨hp, hl⟩ := List.forall_mem_cons.mp hl
      refine ih _ hl fun i => ?_
      rw [Array.getD_eq_getD_getElem?, Array.getElem?_setIfInBounds]
      by_cases heq : p.2 = i
      · subst heq
        rw [if_pos rfl]
        split
        · rw [Option.getD_some]
          cases hlookup : a.outlines.lookup p.1 with
          | none => exact ⟨rfl, id⟩
          | some j =>
            obtain ⟨before, after, hsplit, -⟩ := List.lookup_eq_some_iff.mp hlookup
            have hmem : (p.1, j) ∈ a.outlines := hsplit ▸ by simp
            obtain ⟨hj, hlt⟩ := hall _ hmem
            exact ⟨hj.symm.trans (hall p hp).1, fun _ => hlt⟩
        · exact ⟨rfl, id⟩
      · rw [if_neg heq, ← Array.getD_eq_getD_getElem?]
        exact hm i
  refine key a.outlines (Array.range a.states.size) (fun p hp => hp) (fun i => ?_) i
  have hrange : (Array.range a.states.size).getD i i = i := by
    rw [Array.getD_eq_getD_getElem?]
    by_cases hi : i < a.states.size
    · simp [hi]
    · simp [Nat.le_of_not_lt hi]
  rw [hrange]
  exact ⟨rfl, id⟩

/-! ## Passes -/

/-- One automaton does what another does, and is as good: deterministic and with symbols if the
other is. -/
structure StandsIn (b a : Automaton) : Prop where
  valid : b.Valid
  yields_iff : ∀ w s, b.Yields b.start w s ↔ a.Yields a.start w s
  deterministic : a.Deterministic → b.Deterministic
  symbolled : a.Symbolled → b.Symbolled

theorem StandsIn.refl (ha : a.Valid) : StandsIn a a := ⟨ha, fun _ _ => Iff.rfl, id, id⟩

theorem StandsIn.trans (h : StandsIn c b) (h' : StandsIn b a) : StandsIn c a :=
  ⟨h.valid, fun w s => (h.yields_iff w s).trans (h'.yields_iff w s),
    fun hd => h.deterministic (h'.deterministic hd), fun hs => h.symbolled (h'.symbolled hs)⟩

theorem valid_redirect (ha : a.Valid) (hf : ∀ i < a.states.size, f i < a.states.size) :
    (a.redirect f).Valid := by
  refine ⟨?_, fun i j hj => ?_⟩
  · rw [size_redirect]
    exact hf _ ha.start_lt
  · rw [size_redirect]
    rw [state_redirect] at hj
    rcases List.mem_append.mp hj with hj | hj
    · rw [List.map_map] at hj
      obtain ⟨e, he, rfl⟩ := List.mem_map.mp hj
      exact hf _ (ha.edge_lt he)
    · obtain ⟨k, hk, rfl⟩ := List.mem_map.mp (List.mem_eraseDups.mp hj)
      exact hf _ (ha.epsilon_lt hk)

theorem standsIn_redirect (ha : a.Valid)
    (hf : ∀ i, outline (a.state (f i)) = outline (a.state i) ∧
      (i < a.states.size → f i < a.states.size)) : StandsIn (a.redirect f) a := by
  have hvalid := valid_redirect ha fun i => (hf i).2
  refine ⟨hvalid, fun w s => yields_redirect_iff fun i => (hf i).1, fun hd => ⟨hvalid, ?_, ?_, ?_⟩, ?_⟩
  · intro i
    rw [state_redirect, hd.epsilons]
    rfl
  · intro i e he
    rw [state_redirect] at he
    obtain ⟨e', he', rfl⟩ := List.mem_map.mp he
    exact hd.low_le_high i e' he'
  · intro i
    rw [state_redirect]
    exact List.pairwise_map.mpr (hd.disjoint i)
  · intro hs i hacc
    rw [state_redirect] at hacc ⊢
    exact hs i hacc

theorem standsIn_compact (ha : a.Valid) : StandsIn a.compact a := by
  refine ⟨ha.compact, fun w s => yields_compact_iff ha, fun hd => ⟨ha.compact, ?_, ?_, ?_⟩, ?_⟩
  · intro k
    rcases exists_state_compact ha k with ⟨i, -, hi⟩ | hk
    · rw [hi, State.mapTargets, hd.epsilons]
      rfl
    · rw [hk]
  · intro k e he
    rcases exists_state_compact ha k with ⟨i, -, hi⟩ | hk
    · rw [hi] at he
      obtain ⟨e', he', rfl⟩ := State.mem_edges_mapTargets.mp he
      exact hd.low_le_high i e' he'
    · rw [hk] at he
      cases he
  · intro k
    rcases exists_state_compact ha k with ⟨i, -, hi⟩ | hk
    · rw [hi]
      exact List.pairwise_map.mpr (hd.disjoint i)
    · rw [hk]
      exact .nil
  · intro hs k hacc
    rcases exists_state_compact ha k with ⟨i, -, hi⟩ | hk
    · rw [hi] at hacc ⊢
      exact hs i hacc
    · rw [hk] at hacc
      cases hacc

theorem standsIn_mergePasses (ha : a.Valid) (pass fuel : Nat) :
    StandsIn (a.mergePasses pass fuel).1 a := by
  induction fuel generalizing a pass with
  | zero => exact .refl ha
  | succ fuel ih =>
    rw [mergePasses]
    split
    · exact .refl ha
    · rename_i b hb
      have hstep : StandsIn b a := by
        unfold mergeDuplicates? at hb
        simp only at hb
        split at hb
        · cases hb
        · cases hb
          exact standsIn_redirect ha a.representative_spec
      exact (ih hstep.valid (pass + 1)).trans hstep

/-- Merging duplicates changes nothing that is yielded. -/
theorem standsIn_trimDuplicates (ha : a.Valid) : StandsIn a.trimDuplicates.1 a := by
  have hpasses := standsIn_mergePasses ha 0 (a.states.size + 1)
  exact (standsIn_compact hpasses.valid).trans hpasses

end FiberLex.Automaton
