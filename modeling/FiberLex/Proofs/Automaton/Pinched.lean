import FiberLex.Proofs.Automaton.Neutral

/-!
# What bypassing neutral states leaves

Bypassing drops every state that was neutral, but it may bring epsilons of other states together. A
state with nothing but epsilons that all come to lead to one state is pinched; it was not neutral,
and it is now (`isNeutral_bypass_iff`). So neutral states are left exactly if one that can be
reached was pinched, and then trimming once more does not leave the automaton as it is.
-/

namespace FiberLex

theorem State.isNeutral_mapTargets (f : Nat → Nat) (s : State) :
    (s.mapTargets f).isNeutral = s.isNeutral := by
  simp [State.isNeutral, State.mapTargets]

namespace Automaton

variable {a b : Automaton} {i j : Nat}

/-- Several epsilons are all there is to the state, and all of them lead to the same state once
neutral states are bypassed. -/
structure Pinched (a : Automaton) (i : Nat) : Prop where
  accepting : (a.state i).accepting = false
  edges : (a.state i).edges = []
  several : 2 ≤ (a.state i).epsilons.length
  meet : ∀ j ∈ (a.state i).epsilons, ∀ k ∈ (a.state i).epsilons, a.landing j = a.landing k

section Left

variable (ha : a.Valid) (hfree : ∀ i, a.Reaches a.start i → ¬ a.Trapped i)

include ha

/-- Of the states that are not neutral, bypassing makes the pinched ones neutral. -/
theorem isNeutral_bypass_iff (hi : a.Reaches a.start i) (hneutral : (a.state i).isNeutral = false) :
    ((a.redirect a.bypass).state i).isNeutral = true ↔ a.Pinched i := by
  have hlanding : ∀ j ∈ (a.state i).epsilons, a.bypass j = a.landing j := by
    intro j hj
    exact bypass_eq_landing ha (hi.epsilon hj)
  rw [State.isNeutral_iff, state_redirect]
  simp only [List.map_eq_nil_iff]
  constructor
  · rintro ⟨hacc, hedges, k, hk⟩
    have hmeet : ∀ j ∈ (a.state i).epsilons, a.landing j = k := by
      intro j hj
      have hmem := List.mem_eraseDups.mpr (List.mem_map_of_mem (f := a.bypass) hj)
      rw [hk, List.mem_singleton] at hmem
      rw [← hlanding j hj, hmem]
    refine ⟨hacc, hedges, ?_, ?_⟩
    · by_contra hfew
      -- with one epsilon the state would have been neutral, with none it would not be now
      match heps : (a.state i).epsilons with
      | [] => simp [heps] at hk
      | [j] =>
        rw [State.isNeutral_iff.mpr ⟨hacc, hedges, j, heps⟩] at hneutral
        cases hneutral
      | j :: l :: rest => simp [heps] at hfew
    · intro j hj l hl
      rw [hmeet j hj, hmeet l hl]
  · rintro ⟨hacc, hedges, hseveral, hmeet⟩
    obtain ⟨j, hj⟩ : ∃ j, j ∈ (a.state i).epsilons := by
      apply List.exists_mem_of_length_pos
      omega
    refine ⟨hacc, hedges, a.landing j, eq_singleton_of_nodup (nodup_eraseDups _) fun k => ?_⟩
    rw [List.mem_eraseDups, List.mem_map]
    constructor
    · rintro ⟨l, hl, rfl⟩
      rw [hlanding l hl]
      exact hmeet l hl j hj
    · rintro rfl
      exact ⟨j, hj, hlanding j hj⟩

include hfree

/-- Once neutral states are bypassed, those that were not neutral are what is reached. -/
theorem reaches_bypass_iff :
    (a.redirect a.bypass).Reaches (a.redirect a.bypass).start i ↔
      a.Reaches a.start i ∧ (a.state i).isNeutral = false := by
  constructor
  · intro h
    have hend : ∀ {k}, a.Reaches a.start k →
        a.Reaches a.start (a.bypass k) ∧ (a.state (a.bypass k)).isNeutral = false := by
      intro k hk
      exact ⟨hk.of_epsilonReaches (epsilonReaches_bypass ha hk), not_neutral_bypass ha hfree hk⟩
    induction h with
    | refl => exact hend .refl
    | @tail j k _ hstep ih =>
      rw [state_redirect] at hstep
      rcases List.mem_append.mp hstep with hstep | hstep
      · rw [List.map_map] at hstep
        obtain ⟨e, he, rfl⟩ := List.mem_map.mp hstep
        exact hend (ih.1.edge he)
      · obtain ⟨l, hl, rfl⟩ := List.mem_map.mp (List.mem_eraseDups.mp hstep)
        exact hend (ih.1.epsilon hl)
  · rintro ⟨hi, hneutral⟩
    have hreach : (a.redirect a.bypass).Reaches (a.redirect a.bypass).start (a.bypass i) := by
      clear hneutral
      induction hi with
      | refl => exact .refl
      | @tail j k hj hstep ih =>
        rcases List.mem_append.mp hstep with hstep | hstep
        · obtain ⟨e, he, rfl⟩ := List.mem_map.mp hstep
          rw [bypass_of_mem_edges ha hj he] at ih
          refine ih.edge (e := ⟨e.range, a.bypass e.target⟩) ?_
          rw [state_redirect]
          exact List.mem_map_of_mem he
        · by_cases hneutral : (a.state j).isNeutral = true
          · rwa [← bypass_of_neutral ha hfree hj hneutral hstep]
          · rw [bypass_of_not_neutral ha hj (Bool.eq_false_iff.mpr hneutral)] at ih
            refine ih.epsilon ?_
            rw [state_redirect]
            exact List.mem_eraseDups.mpr (List.mem_map_of_mem hstep)
    rwa [bypass_of_not_neutral ha hi hneutral] at hreach

/-- Trimming drops as many states as were neutral. -/
theorem length_closure_bypass :
    (a.redirect a.bypass).compact.closure.length + a.neutrals.length = a.closure.length := by
  have hvalid := valid_bypass ha
  have hleft : (a.redirect a.bypass).closure.Perm
      (a.closure.filter fun i => !(a.state i).isNeutral) := by
    have hnodup : (a.redirect a.bypass).closure.Nodup := nodup_closureFrom _ _
    have hnodup' : a.closure.Nodup := nodup_closureFrom _ _
    refine (List.perm_ext_iff_of_nodup hnodup (hnodup'.filter _)).mpr fun i => ?_
    rw [mem_closure_iff hvalid, reaches_bypass_iff ha hfree, List.mem_filter, mem_closure_iff ha,
      Bool.not_eq_true']
  rw [closure_compact hvalid, List.length_range, size_compact hvalid, hleft.length_eq, neutrals,
    Nat.add_comm]
  exact (List.length_eq_length_filter_add _).symm

theorem neutrals_bypass_iff :
    (a.redirect a.bypass).compact.neutrals = [] ↔ ∀ i, a.Reaches a.start i → ¬ a.Pinched i := by
  have hvalid := valid_bypass ha
  have hembeds := embeds_compact hvalid
  rw [List.eq_nil_iff_forall_not_mem]
  constructor
  · intro h i hi hpinched
    have hneutral : (a.state i).isNeutral = false := by
      rw [Bool.eq_false_iff]
      intro hneutral
      obtain ⟨-, -, j, hj⟩ := State.isNeutral_iff.mp hneutral
      have hseveral := hpinched.several
      simp [hj] at hseveral
    have hreach := (reaches_bypass_iff ha hfree).mpr ⟨hi, hneutral⟩
    have hmem : (a.redirect a.bypass).closure.idxOf i ∈ (a.redirect a.bypass).compact.neutrals := by
      rw [mem_neutrals_iff hvalid.compact, start_compact hvalid]
      refine ⟨hembeds.reaches_iff.mpr ⟨i, hreach, rfl⟩, ?_⟩
      rw [hembeds.state_eq i hreach, State.isNeutral_mapTargets]
      exact (isNeutral_bypass_iff ha hi hneutral).mpr hpinched
    exact h _ hmem
  · intro h k hk
    obtain ⟨hk, hneutral⟩ := (mem_neutrals_iff hvalid.compact).mp hk
    rw [start_compact hvalid] at hk
    obtain ⟨i, hreach, rfl⟩ := hembeds.reaches_iff.mp hk
    obtain ⟨hi, hbefore⟩ := (reaches_bypass_iff ha hfree).mp hreach
    rw [hembeds.state_eq i hreach, State.isNeutral_mapTargets] at hneutral
    exact h i hi ((isNeutral_bypass_iff ha hi hbefore).mp hneutral)

end Left

/-- Trimming leaves an automaton as it is exactly if it has no neutral state that can be reached. -/
theorem trimNeutrals_eq_self_iff (ha : a.Valid) : a.trimNeutrals = .ok a ↔ a.neutrals = [] := by
  constructor
  · intro h
    have hfree : ∀ i, a.Reaches a.start i → ¬ a.Trapped i := fun _ hi =>
      not_trapped_of_trimNeutrals ha h hi
    by_contra hsome
    rw [trimNeutrals_eq_ok ha hfree, if_neg hsome] at h
    have hlength := length_closure_bypass ha hfree
    rw [Except.ok.inj h] at hlength
    exact hsome (List.eq_nil_of_length_eq_zero (by omega))
  · intro h
    have hfree : ∀ i, a.Reaches a.start i → ¬ a.Trapped i := by
      intro i hi htrapped
      have hmem := (mem_neutrals_iff ha).mpr ⟨hi, htrapped.isNeutral⟩
      rw [h] at hmem
      cases hmem
    rw [trimNeutrals_eq_ok ha hfree, if_pos h]

/-- A tidy state whose epsilons lead to states that are not neutral is not pinched. -/
theorem not_pinched_of_neutrals_eq_nil (h : a.WellFormed) (hnone : a.neutrals = [])
    (hi : a.Reaches a.start i) : ¬ a.Pinched i := by
  intro hpinched
  have hlanding : ∀ j ∈ (a.state i).epsilons, a.landing j = j := by
    intro j hj
    refine landing_of_not_neutral (Bool.eq_false_iff.mpr fun hneutral => ?_)
    have hmem := (mem_neutrals_iff h.toValid).mpr ⟨hi.epsilon hj, hneutral⟩
    rw [hnone] at hmem
    cases hmem
  have hnodup := (h.tidy i).nodup
  have hseveral := hpinched.several
  have hmeet := hpinched.meet
  match heps : (a.state i).epsilons with
  | [] => simp [heps] at hseveral
  | [j] => simp [heps] at hseveral
  | j :: k :: rest =>
    have hj : j ∈ (a.state i).epsilons := by simp [heps]
    have hk : k ∈ (a.state i).epsilons := by simp [heps]
    have hsame := hmeet j hj k hk
    rw [hlanding j hj, hlanding k hk] at hsame
    rw [heps, hsame] at hnodup
    simp at hnodup

/-- A neutral state is left exactly if one is pinched. -/
theorem neutrals_trimNeutrals_iff (h : a.WellFormed) (hok : a.trimNeutrals = .ok b) :
    b.closure.length + a.neutrals.length = a.closure.length ∧
      (b.neutrals = [] ↔ ∀ i, a.Reaches a.start i → ¬ a.Pinched i) := by
  have hfree : ∀ i, a.Reaches a.start i → ¬ a.Trapped i := fun _ hi =>
    not_trapped_of_trimNeutrals h.toValid hok hi
  rw [trimNeutrals_eq_ok h.toValid hfree] at hok
  have hb := Except.ok.inj hok
  by_cases hnone : a.neutrals = []
  · rw [if_pos hnone] at hb
    subst hb
    refine ⟨by rw [hnone, List.length_nil, Nat.add_zero], ?_⟩
    constructor
    · intro _ i hi
      exact not_pinched_of_neutrals_eq_nil h hnone hi
    · intro _
      exact hnone
  · rw [if_neg hnone] at hb
    subst hb
    exact ⟨length_closure_bypass h.toValid hfree, neutrals_bypass_iff h.toValid hfree⟩

/-- Trimming drops as many states as were neutral. No neutral state is left that can be reached,
and trimming once more changes nothing, exactly if no reachable state was pinched. -/
theorem trimNeutrals_leaves_none_iff (h : a.WellFormed) (hok : a.trimNeutrals = .ok b) :
    b.closure.length + a.neutrals.length = a.closure.length ∧
    ((∀ i, b.Reaches b.start i → (b.state i).isNeutral = false) ↔
      ∀ i, a.Reaches a.start i → ¬ a.Pinched i) ∧
    (b.trimNeutrals = .ok b ↔ ∀ i, a.Reaches a.start i → ¬ a.Pinched i) := by
  obtain ⟨hlength, hnone⟩ := neutrals_trimNeutrals_iff h hok
  have hvalid := (h.trimNeutrals hok).toValid
  refine ⟨hlength, ?_, ?_⟩
  · rw [← hnone, List.eq_nil_iff_forall_not_mem]
    simp only [mem_neutrals_iff hvalid, not_and, Bool.not_eq_true]
  · rw [trimNeutrals_eq_self_iff hvalid, hnone]

/-- A choice between two ways to do nothing: its start is pinched. -/
def twins : Automaton where
  states := #[{ epsilons := [1, 2] }, { epsilons := [3] }, { epsilons := [3] },
    { accepting := true, symbol := some 1 }]
  start := 0

theorem wellFormed_twins : twins.WellFormed := wellFormed_of_meets (by decide) (by decide)

theorem pinched_twins : twins.Pinched twins.start := ⟨rfl, rfl, by decide, by decide⟩

theorem exists_trimNeutrals_twins : ∃ b, twins.trimNeutrals = .ok b := by
  have hlanding : ∀ i < twins.states.size, (twins.state (twins.landing i)).isNeutral = false := by
    decide
  refine ⟨_, trimNeutrals_eq_ok wellFormed_twins.toValid fun i hi htrapped => ?_⟩
  have hlt := hi.lt_size wellFormed_twins.toValid wellFormed_twins.start_lt
  rw [trapped_iff, hlanding i hlt] at htrapped
  cases htrapped

theorem trimNeutrals_leaves_none_iff_twins :
    ∃ b, twins.WellFormed ∧ twins.trimNeutrals = .ok b ∧
      b.closure.length + twins.neutrals.length = twins.closure.length ∧
      ¬ (∀ i, b.Reaches b.start i → (b.state i).isNeutral = false) ∧
      b.trimNeutrals ≠ .ok b := by
  obtain ⟨b, hok⟩ := exists_trimNeutrals_twins
  obtain ⟨hlength, hneutral, hagain⟩ := trimNeutrals_leaves_none_iff wellFormed_twins hok
  have hpinched : ¬ ∀ i, twins.Reaches twins.start i → ¬ twins.Pinched i := by
    intro hnone
    exact hnone twins.start .refl pinched_twins
  exact ⟨b, wellFormed_twins, hok, hlength, fun h => hpinched (hneutral.mp h),
    fun h => hpinched (hagain.mp h)⟩

/-- Here trimming succeeds and leaves a neutral state, so trimming once more does not leave the
automaton as it is. -/
theorem trimNeutrals_leaves_some_twins :
    twins.WellFormed ∧ ∃ b, twins.trimNeutrals = .ok b ∧
      (∃ i, b.Reaches b.start i ∧ (b.state i).isNeutral = true) ∧ b.trimNeutrals ≠ .ok b := by
  obtain ⟨b, hok⟩ := exists_trimNeutrals_twins
  obtain ⟨-, hnone⟩ := neutrals_trimNeutrals_iff wellFormed_twins hok
  have hvalid := (wellFormed_twins.trimNeutrals hok).toValid
  have hsome : b.neutrals ≠ [] := by
    intro hnil
    exact hnone.mp hnil twins.start .refl pinched_twins
  obtain ⟨i, hi⟩ := List.exists_mem_of_ne_nil _ hsome
  refine ⟨wellFormed_twins, b, hok, ⟨i, (mem_neutrals_iff hvalid).mp hi⟩, ?_⟩
  intro hagain
  exact hsome ((trimNeutrals_eq_self_iff hvalid).mp hagain)

end Automaton

end FiberLex
