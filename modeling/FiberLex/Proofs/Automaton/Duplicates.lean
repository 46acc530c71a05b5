import FiberLex.Proofs.Automaton.Compaction
import FiberLex.Proofs.Automaton.WellFormed

/-!
# Automata without duplicates

States are alike if they accept alike and the same code points and epsilons lead from them to the
same states; for tidy states this is to have the same outline (`outline_eq_iff`). Merging alike
states is a bisimulation, so runs do not notice it. A pass that merges makes at least one state
unreachable, because a state that has been replaced has no way in left; so the passes come to an end
with an automaton in which no two reachable states are alike, and that is what the compact automaton
has left, too. Trimming it again finds nothing to merge and nothing to drop.
-/

namespace FiberLex

open CodeSet

/-! ## Alike states -/

namespace State

variable {s t : State} {f : Nat → Nat}

/-- The code points that lead to a state, as a normal set. -/
def setTo (s : State) (target : Nat) : CodeSet :=
  ofRanges ((s.edges.filter (·.target == target)).map (·.range))

/-- The states accept alike, with the same symbol if they do, and the same code points and epsilons
lead to the same states. -/
structure Alike (s t : State) : Prop where
  accepting : s.accepting = t.accepting
  symbol : s.accepting = true → s.symbol = t.symbol
  setTo : ∀ target, s.setTo target = t.setTo target
  epsilons : ∀ target, target ∈ s.epsilons ↔ target ∈ t.epsilons

theorem mem_edgesByTarget {target : Nat} {set : CodeSet} :
    (target, set) ∈ s.edgesByTarget ↔
      target ∈ s.edges.map (·.target) ∧ s.setTo target = set := by
  simp only [edgesByTarget, List.mem_map, List.mem_eraseDups, Prod.mk.injEq]
  constructor
  · rintro ⟨target, hmem, rfl, rfl⟩
    exact ⟨hmem, rfl⟩
  · rintro ⟨hmem, rfl⟩
    exact ⟨target, hmem, rfl, rfl⟩

theorem nodup_edgesByTarget (s : State) : (s.edgesByTarget.map (·.1)).Nodup := by
  have hkeys : s.edgesByTarget.map (·.1) = (s.edges.map (·.target)).eraseDups := by
    rw [edgesByTarget, List.map_map]
    exact List.map_id _
  rw [hkeys]
  exact nodup_eraseDups _

theorem setTo_of_not_mem {target : Nat} (h : target ∉ s.edges.map (·.target)) :
    s.setTo target = ofRanges [] := by
  have hnone : s.edges.filter (·.target == target) = [] := by
    refine List.filter_eq_nil_iff.mpr fun e he htarget => h ?_
    exact List.mem_map.mpr ⟨e, he, by simpa using htarget⟩
  rw [setTo, hnone]
  rfl

/-- An edge of a tidy state leads somewhere on some code point. -/
theorem Tidy.mem_targets_iff (h : s.Tidy) {target : Nat} :
    target ∈ s.edges.map (·.target) ↔ ∃ cp, Covers (s.setTo target).toList cp := by
  constructor
  · intro hmem
    obtain ⟨e, he, rfl⟩ := List.mem_map.mp hmem
    refine ⟨e.range.low, (Automaton.covers_ranges_iff_leads s.edges).mpr ⟨e, he, ?_, rfl⟩⟩
    exact CodeRange.contains_iff.mpr ⟨Nat.le_refl _, (h.within e he).1⟩
  · rintro ⟨cp, hcp⟩
    obtain ⟨e, he, -, rfl⟩ := (Automaton.covers_ranges_iff_leads s.edges).mp hcp
    exact List.mem_map_of_mem he

theorem alike_of_outline_eq (h : Automaton.outline s = Automaton.outline t) : s.Alike t := by
  have hedges : s.edgesByTarget.mergeSort (fun p q => p.1 ≤ q.1) =
      t.edgesByTarget.mergeSort fun p q => p.1 ≤ q.1 := congrArg Automaton.Outline.edges h
  have hmem : ∀ p, p ∈ s.edgesByTarget ↔ p ∈ t.edgesByTarget := by
    intro p
    rw [← (List.mergeSort_perm s.edgesByTarget _).mem_iff, hedges,
      (List.mergeSort_perm t.edgesByTarget _).mem_iff]
  refine ⟨Automaton.accepting_of_outline_eq h, Automaton.symbol_of_outline_eq h, fun target => ?_,
    fun target => Automaton.epsilons_of_outline_eq h⟩
  by_cases hs : target ∈ s.edges.map (·.target)
  · have hpair := (hmem (target, s.setTo target)).mp (mem_edgesByTarget.mpr ⟨hs, rfl⟩)
    exact (mem_edgesByTarget.mp hpair).2.symm
  · have ht : target ∉ t.edges.map (·.target) := by
      intro ht
      have hpair := (hmem (target, t.setTo target)).mpr (mem_edgesByTarget.mpr ⟨ht, rfl⟩)
      exact hs (mem_edgesByTarget.mp hpair).1
    rw [setTo_of_not_mem hs, setTo_of_not_mem ht]

/-- Lists of pairs with different first components have one ascending order. -/
theorem mergeSort_eq_of_mem_iff {l l' : List (Nat × CodeSet)} (hl : (l.map (·.1)).Nodup)
    (hl' : (l'.map (·.1)).Nodup) (hmem : ∀ p, p ∈ l ↔ p ∈ l') :
    l.mergeSort (fun p q => p.1 ≤ q.1) = l'.mergeSort fun p q => p.1 ≤ q.1 := by
  have hperm : l.Perm l' := (List.perm_ext_iff_of_nodup hl.of_map hl'.of_map).mpr hmem
  have hsorted : ∀ m : List (Nat × CodeSet), (m.mergeSort fun p q => p.1 ≤ q.1).Pairwise
      fun p q => decide (p.1 ≤ q.1) = true := by
    refine List.pairwise_mergeSort (fun p q r hpq hqr => ?_) fun p q => ?_
    · simp only [decide_eq_true_eq] at *
      omega
    · simp only [Bool.or_eq_true, decide_eq_true_eq]
      omega
  have hsame : (l.mergeSort fun p q => p.1 ≤ q.1).Perm (l'.mergeSort fun p q => p.1 ≤ q.1) :=
    (List.mergeSort_perm l _).trans (hperm.trans (List.mergeSort_perm l' _).symm)
  refine hsame.eq_of_pairwise ?_ (hsorted l) (hsorted l')
  intro p q hp hq hpq hqp
  have hp' := (List.mergeSort_perm l _).mem_iff.mp hp
  have hq' := (hmem q).mpr ((List.mergeSort_perm l' _).mem_iff.mp hq)
  simp only [decide_eq_true_eq] at hpq hqp
  exact List.inj_on_of_nodup_map hl hp' hq' (by omega)

/-- Tidy states have the same outline exactly if they are alike. -/
theorem outline_eq_iff (hs : s.Tidy) (ht : t.Tidy) :
    Automaton.outline s = Automaton.outline t ↔ s.Alike t := by
  refine ⟨alike_of_outline_eq, fun h => ?_⟩
  have hedges : s.edgesByTarget.mergeSort (fun p q => p.1 ≤ q.1) =
      t.edgesByTarget.mergeSort fun p q => p.1 ≤ q.1 := by
    refine mergeSort_eq_of_mem_iff s.nodup_edgesByTarget t.nodup_edgesByTarget ?_
    rintro ⟨target, set⟩
    rw [mem_edgesByTarget, mem_edgesByTarget, hs.mem_targets_iff, ht.mem_targets_iff, h.setTo]
  have hepsilons : s.epsilons.mergeSort = t.epsilons.mergeSort := by
    refine (ascending_mergeSort hs.nodup).eq_of_mem_iff (ascending_mergeSort ht.nodup) fun i => ?_
    rw [List.mem_mergeSort, List.mem_mergeSort, h.epsilons]
  have hsymbol : (if s.accepting then s.symbol else none) =
      if t.accepting then t.symbol else none := by
    rw [← h.accepting]
    split
    · rename_i hacc
      exact h.symbol hacc
    · rfl
  rw [Automaton.outline, Automaton.outline, hsymbol, hedges, hepsilons, h.accepting]

theorem setTo_mapTargets {target : Nat}
    (hinj : ∀ j ∈ s.successors, f j = f target → j = target) :
    (s.mapTargets f).setTo (f target) = s.setTo target := by
  have hfilter : (s.mapTargets f).edges.filter (·.target == f target) =
      (s.edges.filter (·.target == target)).map fun e => ⟨e.range, f e.target⟩ := by
    rw [mapTargets, List.filter_map]
    congr 1
    refine List.filter_congr fun e he => ?_
    have hback := hinj e.target (List.mem_append_left _ (List.mem_map_of_mem he))
    rw [Function.comp_apply, Bool.eq_iff_iff, beq_iff_eq, beq_iff_eq]
    exact ⟨hback, congrArg f⟩
  rw [setTo, setTo, hfilter, List.map_map]
  rfl

/-- States that are alike under new numbers were alike before, if the numbers tell their successors
apart. -/
theorem Alike.of_mapTargets {P : Nat → Prop} (hinj : ∀ i j, P i → P j → f i = f j → i = j)
    (hs : ∀ j ∈ s.successors, P j) (ht : ∀ j ∈ t.successors, P j)
    (h : (s.mapTargets f).Alike (t.mapTargets f)) : s.Alike t := by
  have hepsilons : ∀ {u v : State}, (∀ j ∈ u.successors, P j) → (∀ j ∈ v.successors, P j) →
      (∀ k, k ∈ (u.mapTargets f).epsilons → k ∈ (v.mapTargets f).epsilons) →
      ∀ k ∈ u.epsilons, k ∈ v.epsilons := by
    intro u v hu hv hsub k hk
    obtain ⟨l, hl, heq⟩ := mem_epsilons_mapTargets.mp
      (hsub (f k) (mem_epsilons_mapTargets.mpr ⟨k, hk, rfl⟩))
    rwa [← hinj l k (hv l (List.mem_append_right _ hl)) (hu k (List.mem_append_right _ hk)) heq]
  refine ⟨h.accepting, h.symbol, fun target => ?_, fun target => ⟨?_, ?_⟩⟩
  · by_cases hP : P target
    · rw [← setTo_mapTargets fun j hj => hinj j target (hs j hj) hP,
        ← setTo_mapTargets fun j hj => hinj j target (ht j hj) hP, h.setTo]
    · rw [setTo_of_not_mem fun hmem => hP (hs _ (List.mem_append_left _ hmem)),
        setTo_of_not_mem fun hmem => hP (ht _ (List.mem_append_left _ hmem))]
  · exact hepsilons hs ht (fun k => (h.epsilons k).mp) target
  · exact hepsilons ht hs (fun k => (h.epsilons k).mpr) target

end State

namespace Automaton

variable {a b : Automaton} {i j : Nat}

/-! ## Representatives -/

/-- The entry of a table for a key, when entries with the key all say the same. -/
theorem getElem?_foldl_setIfInBounds {l : List (Outline × Nat)} {v : Outline × Nat → Nat} {x : Nat}
    (hv : ∀ p ∈ l, p.2 = i → v p = x) (m : Array Nat) (hi : i < m.size) :
    (l.foldl (fun m p => m.setIfInBounds p.2 (v p)) m)[i]? =
      if i ∈ l.map (·.2) then some x else m[i]? := by
  induction l generalizing m with
  | nil => rfl
  | cons p l ih =>
    obtain ⟨hp, hl⟩ := List.forall_mem_cons.mp hv
    rw [List.foldl_cons, ih hl _ (by simpa using hi), List.map_cons]
    by_cases hmem : i ∈ l.map (·.2)
    · rw [if_pos hmem, if_pos (List.mem_cons_of_mem _ hmem)]
    · rw [if_neg hmem]
      by_cases heq : p.2 = i
      · rw [if_pos (by simp [heq]), heq, Array.getElem?_setIfInBounds_self_of_lt hi, hp heq]
      · rw [if_neg (by simpa [hmem] using Ne.symm heq), Array.getElem?_setIfInBounds_ne heq]

/-- The representative of a reachable state is the first reachable one with its outline. -/
theorem exists_representative (hi : i ∈ a.closure) :
    ∃ j ∈ a.closure, a.outlines.lookup (outline (a.state i)) = some j ∧
      outline (a.state j) = outline (a.state i) ∧ a.representative i = j := by
  have hentry : (outline (a.state i), i) ∈ a.outlines := List.mem_map_of_mem hi
  obtain ⟨j, hlookup⟩ : ∃ j, a.outlines.lookup (outline (a.state i)) = some j := by
    cases hlookup : a.outlines.lookup (outline (a.state i)) with
    | some j => exact ⟨j, rfl⟩
    | none =>
      have habsent := List.lookup_eq_none_iff.mp hlookup _ hentry
      simp at habsent
  obtain ⟨before, after, hsplit, -⟩ := List.lookup_eq_some_iff.mp hlookup
  have hmem : (outline (a.state i), j) ∈ a.outlines := hsplit ▸ by simp
  obtain ⟨k, hk, heq⟩ := List.mem_map.mp hmem
  obtain ⟨houtline, rfl⟩ := Prod.mk.inj heq
  refine ⟨k, hk, hlookup, houtline, ?_⟩
  have hsame : ∀ p ∈ a.outlines, p.2 = i → (a.outlines.lookup p.1).getD p.2 = k := by
    rintro p hp rfl
    obtain ⟨l, -, rfl⟩ := List.mem_map.mp hp
    simp only at hlookup ⊢
    rw [hlookup, Option.getD_some]
  have hlt : i < (Array.range a.states.size).size := by
    simpa using lt_size_of_mem_closureFrom hi
  have hkey : i ∈ a.outlines.map (·.2) := List.mem_map_of_mem hentry
  have hget := getElem?_foldl_setIfInBounds hsame (Array.range a.states.size) hlt
  rw [if_pos hkey] at hget
  rw [representative, representatives, Array.getD_eq_getD_getElem?]
  simp only [hget, Option.getD_some]

theorem representative_eq_of_outline_eq (hi : i ∈ a.closure) (hj : j ∈ a.closure)
    (h : outline (a.state i) = outline (a.state j)) : a.representative i = a.representative j := by
  obtain ⟨k, -, hk, -, rfl⟩ := exists_representative hi
  obtain ⟨l, -, hl, -, rfl⟩ := exists_representative hj
  rw [h, hl] at hk
  exact (Option.some.inj hk).symm

theorem representative_mem_closure (hi : i ∈ a.closure) : a.representative i ∈ a.closure := by
  obtain ⟨j, hj, -, -, rfl⟩ := exists_representative hi
  exact hj

theorem representative_representative (hi : i ∈ a.closure) :
    a.representative (a.representative i) = a.representative i :=
  representative_eq_of_outline_eq (representative_mem_closure hi) hi (a.representative_spec i).1

/-! ## Passes -/

theorem mergeDuplicates?_eq_none_iff :
    a.mergeDuplicates? = none ↔ ∀ i ∈ a.closure, a.representative i = i := by
  unfold mergeDuplicates?
  simp only
  split
  · rename_i hall
    simpa [representative] using hall
  · rename_i hall
    simpa [representative] using hall

theorem mergeDuplicates?_eq_some (h : a.mergeDuplicates? = some b) :
    b = a.redirect a.representative ∧ ∃ i ∈ a.closure, a.representative i ≠ i := by
  constructor
  · unfold mergeDuplicates? at h
    simp only at h
    split at h
    · cases h
    · exact (Option.some.inj h).symm
  · by_contra hnone
    push Not at hnone
    rw [mergeDuplicates?_eq_none_iff.mpr hnone] at h
    cases h

/-- Runs do not notice that everything is led to states with the same outline. -/
theorem bisimulation_redirect {f : Nat → Nat}
    (hf : ∀ i, outline (a.state (f i)) = outline (a.state i)) :
    Bisimulation (fun i j => outline (a.state i) = outline (a.state j)) a (a.redirect f) := by
  refine ⟨⟨?_, ?_, ?_⟩, ⟨?_, ?_, ?_⟩, (hf a.start).symm⟩
  · intro i j h hacc
    rw [state_redirect]
    exact ⟨(accepting_of_outline_eq h).symm.trans hacc, (symbol_of_outline_eq h hacc).symm⟩
  · intro i j h cp k hleads
    obtain ⟨e, he, hc, rfl⟩ := (leads_of_outline_eq h).mp hleads
    rw [state_redirect]
    exact ⟨f e.target, ⟨_, List.mem_map_of_mem he, hc, rfl⟩, (hf e.target).symm⟩
  · intro i j h k hk
    rw [state_redirect]
    have hmem := List.mem_map_of_mem (f := f) ((epsilons_of_outline_eq h).mp hk)
    exact ⟨f k, List.mem_eraseDups.mpr hmem, (hf k).symm⟩
  · intro j i h hacc
    rw [state_redirect] at hacc ⊢
    have hacc' := (accepting_of_outline_eq h).trans hacc
    have hsymbol : (a.state i).symbol = (a.state j).symbol := symbol_of_outline_eq h hacc'
    exact ⟨hacc', hsymbol⟩
  · rintro j i h cp k ⟨e, he, hc, rfl⟩
    rw [state_redirect] at he
    obtain ⟨d, hd, rfl⟩ := List.mem_map.mp he
    exact ⟨d.target, (leads_of_outline_eq h).mpr ⟨d, hd, hc, rfl⟩, (hf d.target).symm⟩
  · intro j i h k hk
    rw [state_redirect] at hk
    obtain ⟨l, hl, rfl⟩ := List.mem_map.mp (List.mem_eraseDups.mp hk)
    exact ⟨l, (epsilons_of_outline_eq h).mpr hl, (hf l).symm⟩

/-- After a pass only representatives can be reached. -/
theorem closure_redirect_representative (ha : a.Valid)
    (hi : i ∈ (a.redirect a.representative).closure) :
    i ∈ a.closure ∧ a.representative i = i := by
  have hvalid := valid_redirect ha fun i => (a.representative_spec i).2
  have hreach := (mem_closure_iff hvalid).mp hi
  have hstart : a.start ∈ a.closure := (mem_closure_iff ha).mpr .refl
  induction hreach with
  | refl => exact ⟨representative_mem_closure hstart, representative_representative hstart⟩
  | @tail j k hj hstep ih =>
    obtain ⟨hmem, -⟩ := ih ((mem_closure_iff hvalid).mpr hj)
    have hsucc : ∃ l ∈ (a.state j).successors, a.representative l = k := by
      rw [state_redirect] at hstep
      rcases List.mem_append.mp hstep with hstep | hstep
      · rw [List.map_map] at hstep
        obtain ⟨e, he, rfl⟩ := List.mem_map.mp hstep
        exact ⟨e.target, List.mem_append_left _ (List.mem_map_of_mem he), rfl⟩
      · obtain ⟨l, hl, rfl⟩ := List.mem_map.mp (List.mem_eraseDups.mp hstep)
        exact ⟨l, List.mem_append_right _ hl, rfl⟩
    obtain ⟨l, hl, rfl⟩ := hsucc
    have hclosure : l ∈ a.closure :=
      (mem_closure_iff ha).mpr (((mem_closure_iff ha).mp hmem).tail hl)
    exact ⟨representative_mem_closure hclosure, representative_representative hclosure⟩

theorem valid_mergeDuplicates? (ha : a.Valid) (h : a.mergeDuplicates? = some b) : b.Valid := by
  rw [(mergeDuplicates?_eq_some h).1]
  exact valid_redirect ha fun i => (a.representative_spec i).2

/-- A pass that merges makes a state unreachable. -/
theorem length_closure_mergeDuplicates? (ha : a.Valid) (h : a.mergeDuplicates? = some b) :
    b.closure.length < a.closure.length := by
  obtain ⟨rfl, i, hi, hne⟩ := mergeDuplicates?_eq_some h
  have hgone : i ∉ (a.redirect a.representative).closure := fun hmem =>
    hne (closure_redirect_representative ha hmem).2
  have hsub : i :: (a.redirect a.representative).closure ⊆ a.closure := by
    intro j hj
    rcases List.mem_cons.mp hj with rfl | hj
    · exact hi
    · exact (closure_redirect_representative ha hj).1
  have hnodup : (i :: (a.redirect a.representative).closure).Nodup :=
    List.nodup_cons.mpr ⟨hgone, nodup_closureFrom _ _⟩
  exact (List.subperm_of_subset hnodup hsub).length_le

/-- Passes come to an end: with as many of them as there are reachable states, the last one finds
nothing to merge. -/
theorem mergeDuplicates?_mergePasses (ha : a.Valid) (pass : Nat) {fuel : Nat}
    (h : a.closure.length ≤ fuel) : (a.mergePasses pass fuel).1.mergeDuplicates? = none := by
  induction fuel generalizing a pass with
  | zero =>
    have hstart : a.start ∈ a.closure := (mem_closure_iff ha).mpr .refl
    rw [List.length_eq_zero_iff.mp (Nat.le_zero.mp h)] at hstart
    cases hstart
  | succ fuel ih =>
    rw [mergePasses]
    split
    · assumption
    · rename_i b hb
      have hlength := length_closure_mergeDuplicates? ha hb
      exact ih (valid_mergeDuplicates? ha hb) (pass + 1) (by omega)

theorem length_closure_le (a : Automaton) : a.closure.length ≤ a.states.size := by
  have hsub : a.closure ⊆ List.range a.states.size := fun i hi =>
    List.mem_range.mpr (lt_size_of_mem_closureFrom hi)
  have hnodup : a.closure.Nodup := nodup_closureFrom a a.start
  simpa using (List.subperm_of_subset hnodup hsub).length_le

theorem length_closure_mergePasses (ha : a.Valid) (pass fuel : Nat) :
    (a.mergePasses pass fuel).1.closure.length ≤ a.closure.length := by
  induction fuel generalizing a pass with
  | zero => exact le_rfl
  | succ fuel ih =>
    rw [mergePasses]
    split
    · exact le_rfl
    · rename_i b hb
      exact (ih (valid_mergeDuplicates? ha hb) (pass + 1)).trans
        (length_closure_mergeDuplicates? ha hb).le

/-- Passes change neither what is accepted nor how runs end. -/
theorem mergePasses_accepts_and_lex (ha : a.Valid) (pass fuel : Nat) :
    (∀ text, (a.mergePasses pass fuel).1.accepts text = a.accepts text) ∧
      ∀ cur, (a.mergePasses pass fuel).1.lex cur = a.lex cur := by
  induction fuel generalizing a pass with
  | zero => exact ⟨fun _ => rfl, fun _ => rfl⟩
  | succ fuel ih =>
    rw [mergePasses]
    split
    · exact ⟨fun _ => rfl, fun _ => rfl⟩
    · rename_i b hb
      have hvalid := valid_mergeDuplicates? ha hb
      obtain ⟨rfl, -⟩ := mergeDuplicates?_eq_some hb
      have hbisim := bisimulation_redirect fun i => (a.representative_spec i).1
      obtain ⟨haccepts, hlex⟩ := ih hvalid (pass + 1)
      exact ⟨fun text => (haccepts text).trans (hbisim.accepts_eq ha hvalid text),
        fun cur => (hlex cur).trans (hbisim.lex_eq ha hvalid cur)⟩

/-! ## Trimming -/

/-- When no pass has anything left to merge, no two states of the compact automaton are alike. -/
theorem eq_of_alike_compact (ha : a.WellFormed) (h : a.mergeDuplicates? = none)
    (hi : i < a.compact.states.size) (hj : j < a.compact.states.size)
    (halike : (a.compact.state i).Alike (a.compact.state j)) : i = j := by
  obtain ⟨k, hk, rfl, hstate⟩ := exists_reaches_of_lt_size_compact ha.toValid hi
  obtain ⟨l, hl, rfl, hstate'⟩ := exists_reaches_of_lt_size_compact ha.toValid hj
  rw [hstate, hstate'] at halike
  have hbefore : (a.state k).Alike (a.state l) :=
    halike.of_mapTargets (fun x y hx _ => idxOf_closure_inj ha.toValid hx)
      (fun x hx => hk.tail hx) fun x hx => hl.tail hx
  have houtline := (State.outline_eq_iff (ha.tidy k) (ha.tidy l)).mpr hbefore
  have hk' := (mem_closure_iff ha.toValid).mpr hk
  have hl' := (mem_closure_iff ha.toValid).mpr hl
  have hsame := representative_eq_of_outline_eq hk' hl' houtline
  rw [mergeDuplicates?_eq_none_iff.mp h k hk', mergeDuplicates?_eq_none_iff.mp h l hl'] at hsame
  rw [hsame]

/-- An automaton in which no two states are alike has nothing to merge. -/
theorem mergeDuplicates?_eq_none_of_alike
    (h : ∀ i j, i < a.states.size → j < a.states.size → (a.state i).Alike (a.state j) → i = j) :
    a.mergeDuplicates? = none := by
  refine mergeDuplicates?_eq_none_iff.mpr fun i hi => ?_
  obtain ⟨houtline, hlt⟩ := a.representative_spec i
  have hi' := lt_size_of_mem_closureFrom hi
  exact h _ _ (hlt hi') hi' (State.alike_of_outline_eq houtline)

theorem size_trimDuplicates_le (ha : a.Valid) :
    a.trimDuplicates.1.states.size ≤ a.states.size := by
  have hpasses := standsIn_mergePasses ha 0 (a.states.size + 1)
  calc a.trimDuplicates.1.states.size
    _ = (a.mergePasses 0 (a.states.size + 1)).1.closure.length := size_compact hpasses.valid
    _ ≤ a.closure.length := length_closure_mergePasses ha _ _
    _ ≤ a.states.size := a.length_closure_le

theorem trimDuplicates_eq_compact (h : a.mergeDuplicates? = none) :
    a.trimDuplicates.1 = a.compact := by
  rw [trimDuplicates, mergePasses, h]

/-- Trimming duplicates ends with a pass that finds nothing to merge; it changes neither what is
accepted nor how runs at a cursor end; no two of the states that are left are alike, and all of them
can be reached; and trimming again changes nothing. -/
theorem trimDuplicates_fixed_point (h : a.WellFormed) :
    (a.mergePasses 0 (a.states.size + 1)).1.mergeDuplicates? = none ∧
    (∀ text, a.trimDuplicates.1.accepts text = a.accepts text) ∧
    (∀ cur, a.trimDuplicates.1.lex cur = a.lex cur) ∧
    (∀ i j, i < a.trimDuplicates.1.states.size → j < a.trimDuplicates.1.states.size →
      (a.trimDuplicates.1.state i).Alike (a.trimDuplicates.1.state j) → i = j) ∧
    (∀ i < a.trimDuplicates.1.states.size,
      a.trimDuplicates.1.Reaches a.trimDuplicates.1.start i) ∧
    a.trimDuplicates.1.trimDuplicates.1 = a.trimDuplicates.1 := by
  have hmerged := h.mergePasses 0 (a.states.size + 1)
  have hlength : a.closure.length ≤ a.states.size + 1 :=
    Nat.le_succ_of_le a.length_closure_le
  have hdone := mergeDuplicates?_mergePasses h.toValid 0 hlength
  obtain ⟨haccepts, hlex⟩ := mergePasses_accepts_and_lex h.toValid 0 (a.states.size + 1)
  have hresult : a.trimDuplicates.1 = (a.mergePasses 0 (a.states.size + 1)).1.compact := rfl
  generalize (a.mergePasses 0 (a.states.size + 1)).1 = b at hmerged hdone haccepts hlex hresult ⊢
  rw [hresult]
  have hbisim := bisimulation_compact hmerged.toValid
  have hvalid := hmerged.toValid.compact
  have hdistinct : ∀ i j, i < b.compact.states.size → j < b.compact.states.size →
      (b.compact.state i).Alike (b.compact.state j) → i = j := fun i j =>
    eq_of_alike_compact hmerged hdone
  refine ⟨hdone, fun text => ?_, fun cur => ?_, hdistinct,
    fun i => reaches_compact hmerged.toValid, ?_⟩
  · exact (hbisim.accepts_eq hmerged.toValid hvalid text).trans (haccepts text)
  · exact (hbisim.lex_eq hmerged.toValid hvalid cur).trans (hlex cur)
  · rw [trimDuplicates_eq_compact (mergeDuplicates?_eq_none_of_alike hdistinct)]
    exact compact_compact hmerged.toValid

/-- Three states that do the same; one of them is found only in the second pass, when the other two
have become one. -/
def triplets : Automaton where
  states := #[
    { edges := [⟨⟨97, 97⟩, 1⟩, ⟨⟨98, 98⟩, 2⟩], epsilons := [3] },
    { accepting := true, symbol := some 7, edges := [⟨⟨99, 99⟩, 1⟩] },
    { accepting := true, symbol := some 7, edges := [⟨⟨99, 99⟩, 1⟩] },
    { accepting := true, symbol := some 7, edges := [⟨⟨99, 99⟩, 2⟩] }]
  start := 0

theorem trimDuplicates_fixed_point_triplets :
    triplets.WellFormed ∧ (triplets.state 1).Alike (triplets.state 2) ∧
    (∀ text, triplets.trimDuplicates.1.accepts text = triplets.accepts text) ∧
    triplets.trimDuplicates.1.trimDuplicates.1 = triplets.trimDuplicates.1 := by
  have hwell : triplets.WellFormed := wellFormed_of_meets (by decide) (by decide)
  obtain ⟨-, haccepts, -, -, -, hagain⟩ := trimDuplicates_fixed_point hwell
  exact ⟨hwell, State.alike_of_outline_eq rfl, haccepts, hagain⟩

end Automaton

end FiberLex
