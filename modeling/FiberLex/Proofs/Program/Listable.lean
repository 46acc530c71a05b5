import FiberLex.Proofs.Automaton.Duplicates
import FiberLex.Proofs.Program.Instructions
import FiberLex.Proofs.Program.Outcome
import FiberLex.Proofs.Program.RoundTrip
import FiberLex.Proofs.Program.Targets

/-!
# Programs that can be written down

A program is read back from its listing unless it has a switch without cases that has defaults: that
switch is read back as a jump (`assemble_listing_readBack`). Programs of patterns and automata can be
written down, since sets come from ranges that have been read or from edges. Linking and removing
instructions change targets only, which every instruction allows. Of all steps only the last one,
which lets the switch of the only rule choose the fallback, can make the exception, and it does so
exactly for a switch without cases (`listable_foldRoot`).
-/

namespace FiberLex

/-- A set made of ranges of code points can be written down. -/
theorem Operand.listable_ofRanges {rs : List CodeRange} (h : CodeSet.Filled rs) :
    Listable (CodeSet.ofRanges rs) := by
  have hproper : CodeSet.Proper rs := fun r hr => (h.within r hr).1
  exact ⟨h.normalList.ne_nil, CodeSet.proper_normalList hproper,
    CodeSet.pairwise_normalList hproper, fun r hr => (h.normalList.within r hr).2⟩

namespace Program

open Assembler

/-! ## Reading back -/

/-- Every instruction of the program can be written down. -/
def Listable (p : Program) : Prop := ∀ i ∈ p, ListableInstr i

/-- A program is read back unchanged if no switch without cases has defaults. -/
theorem map_readBack_eq_self_iff {p : Program} :
    p.map readBack = p ↔ ∀ otherwise, .switch [] otherwise ∈ p → otherwise = [] := by
  nth_rewrite 2 [← List.map_id p]
  rw [List.map_inj_left]
  constructor
  · intro h otherwise hmem
    cases otherwise with
    | nil => rfl
    | cons t ts => cases h _ hmem
  · intro h i hi
    refine readBack_eq_self ?_
    rintro otherwise rfl
    exact h otherwise hi

theorem targets_readBack (i : Instr) : (readBack i).targets = i.targets := by
  unfold readBack
  split <;> rfl

theorem Runnable.map_readBack {p : Program} (h : Runnable p) : Runnable (p.map readBack) := by
  refine ⟨by simpa using h.ne_nil, ?_⟩
  rw [List.length_map]
  refine List.forall_mem_map.mpr fun i hi => ?_
  rw [targets_readBack]
  exact h.targetsBelow i hi

/-- The listing of a program that can run is read back, with switches that have nothing but defaults
turned into jumps. -/
theorem assemble_listing_readBack {p : Program} (hp : Runnable p) (h : Listable (p.map readBack)) :
    assemble p.listing = .ok (p.map readBack) := by
  have hreads : List.Forall₂ ReadsAs p (p.map readBack) := by
    rw [List.forall₂_map_right_iff, List.forall₂_same]
    exact fun i hi => readsAs_readBack (h _ (List.mem_map_of_mem hi))
  have hempty : Reached {} 0 0 := ⟨rfl, fun t => rfl⟩
  obtain ⟨d, items, hitems, hdraft, hd, hread⟩ := readStatements_lines hreads hempty
  have hresolve : d.items.reverse.mapM d.resolve = .ok (p.map readBack) := by
    rw [hdraft, List.append_nil, List.reverse_reverse]
    refine mapM_of_forall₂ hitems.flip fun i hi item hitem => hd.resolve hitem fun t ht => ?_
    have hlt := hp.map_readBack.targetsBelow i hi t ht
    rwa [List.length_map, ← Nat.zero_add p.length] at hlt
  have hprogram : readProgram p.listing.toList = .ok (p.map readBack) := by
    rw [listing, String.toList_ofList]
    refine Scan.bind_eq_ok.mpr ⟨_, hread, Scan.bind_eq_ok.mpr ⟨_, hresolve, ?_⟩⟩
    rw [hp.map_readBack.validate]
    rfl
  rw [assemble, hprogram]
  rfl

/-! ## Properties that do not depend on targets -/

theorem listableInstr_mapTargets {i : Instr} (h : ListableInstr i) (f : Nat → Nat) :
    ListableInstr (i.mapTargets f) := by
  cases i with
  | switch cases otherwise =>
    refine ⟨List.forall_mem_map.mpr h.1, fun hnil => ?_⟩
    rw [h.2 (List.map_eq_nil_iff.mp hnil), List.map_nil]
  | _ => exact h

theorem readBack_mapTargets (f : Nat → Nat) (i : Instr) :
    readBack (i.mapTargets f) = (readBack i).mapTargets f := by
  cases i with
  | switch cases otherwise =>
    cases cases with
    | nil => cases otherwise <;> rfl
    | cons c cases => rfl
  | _ => rfl

theorem kept_listableInstr : Kept ListableInstr where
  mapTargets := listableInstr_mapTargets
  jump _ := trivial
  save slot hslot := Nat.lt_trans hslot (by decide)
  fallback := by decide

theorem kept_listableInstr_readBack : Kept fun i => ListableInstr (readBack i) where
  mapTargets {i} h f := by
    rw [readBack_mapTargets]
    exact listableInstr_mapTargets h f
  jump _ := trivial
  save slot hslot := Nat.lt_trans hslot (by decide)
  fallback := by decide

theorem Listable.map_readBack_eq_self {p : Program} (h : Listable p) : p.map readBack = p := by
  rw [map_readBack_eq_self_iff]
  exact fun otherwise hmem => (h _ hmem).2 rfl

theorem Listable.map_readBack {p : Program} (h : Listable p) : Listable (p.map readBack) :=
  h.map_readBack_eq_self.symm ▸ h

/-! ## The root -/

/-- What the switch of the only rule is made into is read back, if only as a jump. -/
theorem listable_map_readBack_foldRoot {p : Program} (h : Listable p) :
    Listable (p.foldRoot.map readBack) := by
  refine List.forall_mem_map.mpr (kept_listableInstr_readBack.foldRoot (fun cases other hroot => ?_)
    (List.forall_mem_map.mp h.map_readBack))
  cases cases with
  | nil => trivial
  | cons c cases => exact ⟨hroot.1, by simp⟩

/-- Unless the only rule begins with a switch without cases, what its switch is made into can be
written down. -/
theorem listable_foldRoot {p : Program} (h : Listable p)
    (hroot : ∀ other rest, p ≠ .save 0 :: .jump [2, other] :: .switch [] [] :: rest) :
    Listable p.foldRoot := by
  unfold Program.foldRoot
  split
  · rename_i other cases rest
    split
    · refine kept_listableInstr.removeAt ?_ 1
      have hp := h
      simp only [Listable, List.forall_mem_cons] at hp ⊢
      obtain ⟨hsave, hjump, hswitch, hrest⟩ := hp
      refine ⟨hsave, hjump, ⟨hswitch.1, ?_⟩, hrest⟩
      rintro rfl
      exact absurd rfl (hroot other rest)
    · exact h
  · exact h

/-- A jump with a choice in front of everything else stays there. -/
theorem exists_removeDeadCode {p : Program} {targets : List Nat} {rest : Program}
    (hp : p = .save 0 :: .jump targets :: rest) (htargets : 2 ≤ targets.length) :
    ∃ targets' rest', p.removeDeadCode = .save 0 :: .jump targets' :: rest' ∧
      targets'.length = targets.length := by
  fun_induction Program.removeDeadCode p generalizing targets rest with
  | case1 p hnone => exact ⟨targets, rest, hp, rfl⟩
  | case2 p address hidle ih =>
    have hjump := getElem?_of_idleJumpFrom? hidle
    rw [hp] at hjump
    rcases address with _ | _ | k
    · cases hjump
    · rw [Instr.jump.inj (Option.some.inj hjump)] at htargets
      simp at htargets
    · obtain ⟨targets', rest', hrest', hlength⟩ := ih (congrArg (removeAt · (k + 2)) hp) (by simpa)
      exact ⟨targets', rest', hrest', by simpa using hlength⟩

theorem length_place (base : Nat) (fragments : List Program) :
    (place base fragments).1.length = fragments.length := by
  induction fragments generalizing base with
  | nil => rfl
  | cons f fragments ih => simp [place, ih]

/-- Several rules are a choice, which is left as it is. -/
theorem listable_linked_of_two_le {fragments : List Program}
    (h : ∀ f ∈ fragments, Listable f) (hlength : 2 ≤ fragments.length) :
    Listable (linked fragments) := by
  have hlisted := kept_listableInstr.removeDeadCode (kept_listableInstr.linkFragments h)
  refine listable_foldRoot hlisted fun other rest heq => ?_
  obtain ⟨targets, rest', hremoved, htargets⟩ :=
    exists_removeDeadCode (p := linkFragments fragments) rfl (by simp [length_place]; omega)
  rw [hremoved] at heq
  have htwo : targets = [2, other] := Instr.jump.inj (List.cons.inj (List.cons.inj heq).2).1
  rw [htwo] at htargets
  simp [length_place] at htargets
  omega

/-! ## Code of patterns -/

/-- The instruction can be written down and is no switch. -/
def Simple (i : Instr) : Prop :=
  ListableInstr i ∧ ∀ cases otherwise, i ≠ .switch cases otherwise

theorem simple_jump (targets : List Nat) : Simple (.jump targets) := ⟨trivial, by simp⟩

theorem kept_simple : Kept Simple where
  mapTargets {i} h f := by
    refine ⟨listableInstr_mapTargets h.1 f, fun cases otherwise heq => ?_⟩
    cases i with
    | switch cases' otherwise' => exact h.2 _ _ rfl
    | _ => cases heq
  jump := simple_jump
  save slot hslot := ⟨kept_listableInstr.save slot hslot, by simp⟩
  fallback i hi := by
    refine ⟨kept_listableInstr.fallback i hi, ?_⟩
    rintro cases otherwise rfl
    simp [fallback] at hi

theorem plain_simple : Plain Simple where
  jump := simple_jump
  char _ hcp := ⟨hcp, by simp⟩
  any := ⟨trivial, by simp⟩
  ofRanges _ hrs := ⟨⟨Operand.listable_ofRanges hrs, by simp⟩, Operand.listable_ofRanges hrs, by simp⟩
  category _ := ⟨⟨trivial, by simp⟩, trivial, by simp⟩

theorem simple_ofText (text : List Char) : ∀ i ∈ ofText text, Simple i :=
  List.forall_mem_map.mpr fun c _ => ⟨Char.toNat_le_maxCodePoint c, by simp⟩

theorem simple_terminate {p : Program} (h : ∀ i ∈ p, Simple i) {symbol : Int}
    (hsymbol : fitsRuleId symbol = true) : ∀ i ∈ p.terminate symbol, Simple i := by
  simp only [terminate, List.forall_mem_append, List.forall_mem_cons]
  exact ⟨h, kept_simple.save 1 (by omega), ⟨hsymbol, by simp⟩, by simp⟩

/-- Without switches nothing is left to choose at the root. -/
theorem listable_linked_of_simple {fragments : List Program}
    (h : ∀ f ∈ fragments, ∀ i ∈ f, Simple i) : Listable (linked fragments) := by
  have hsimple := kept_simple.removeDeadCode (kept_simple.linkFragments h)
  refine listable_foldRoot (fun i hi => (hsimple i hi).1) fun other rest heq => ?_
  exact (hsimple (.switch [] []) (heq ▸ by simp)).2 _ _ rfl

/-! ## Code of automata -/

section Automata

variable {a : Automaton}

/-- The sets of code points that lead from a tidy state to another can be written down. -/
theorem listable_of_mem_edgesByTarget {s : State} (h : s.Tidy) {target : Nat} {set : CodeSet}
    (hmem : (target, set) ∈ s.edgesByTarget) : Operand.Listable set := by
  obtain ⟨htarget, rfl⟩ := State.mem_edgesByTarget.mp hmem
  obtain ⟨e, he, rfl⟩ := List.mem_map.mp htarget
  refine Operand.listable_ofRanges ⟨?_, List.forall_mem_map.mpr fun f hf => ?_⟩
  · exact List.ne_nil_of_mem (List.mem_map_of_mem (List.mem_filter.mpr ⟨he, by simp⟩))
  · exact h.within f (List.mem_filter.mp hf).1

theorem listable_stateCode (ha : a.WellFormed) (hdet : a.Deterministic) (l : Layout)
    (base i : Nat) : Listable (stateCode a l base i) := by
  have hswitch : ListableInstr (.switch (casesOf a l i) []) := by
    refine ⟨fun c hc => ?_, fun _ => rfl⟩
    obtain ⟨⟨target, set⟩, hmem, hc⟩ := List.mem_filterMap.mp hc
    obtain ⟨address, -, rfl⟩ := Option.map_eq_some_iff.mp hc
    exact listable_of_mem_edgesByTarget (ha.tidy i) hmem
  rw [stateCode_eq hdet]
  split
  · exact List.forall_mem_singleton.mpr trivial
  · split
    · exact List.forall_mem_singleton.mpr hswitch
    · exact List.forall_mem_cons.mpr ⟨trivial, List.forall_mem_singleton.mpr hswitch⟩

/-- The code of a well-formed automaton can be written down, if its symbols can. -/
theorem listable_codeOf (ha : a.WellFormed) (hdet : a.Deterministic)
    (hsymbols : ∀ symbol ∈ symbolsOf a, fitsRuleId symbol = true) : Listable (codeOf a) := by
  refine List.forall_mem_append.mpr ⟨fun i hi => ?_, fun i hi => ?_⟩
  · obtain ⟨q, -, hi⟩ := List.mem_flatMap.mp hi
    exact listable_stateCode ha hdet _ q.2 q.1 i hi
  · obtain ⟨symbol, hsymbol, hi⟩ := List.mem_flatMap.mp hi
    exact (simple_terminate (by simp) (hsymbols symbol hsymbol) i hi).1

/-- The switch of a start that does not accept has a case if anything is yielded. -/
theorem cases_ne_nil (ha : a.Deterministic) (hacc : (a.state a.start).accepting = false)
    {own : Nat → Nat} {cases : List Case} (h : Selects a own a.start cases) {w : List Char}
    {s : Option Int} (hyields : a.Yields a.start w s) : cases ≠ [] := by
  rintro rfl
  cases w with
  | nil =>
    obtain ⟨k, hk, haccept, -⟩ := ha.yields_iff.mp hyields
    cases hk
    rw [hacc] at haccept
    cases haccept
  | cons c w =>
    obtain ⟨j, hj, -⟩ := (yields_cons_iff_live? ha).mp hyields
    have hnone := h c.toNat
    rw [hj] at hnone
    cases hnone

/-- A start without edges has no switch. -/
theorem listable_linked_of_terminal (ha : a.Deterministic) (hs : a.Symbolled)
    (hstart : (a.state a.start).edges = []) (hcode : Listable (codeOf a)) :
    Listable (linked [codeOf a]) := by
  refine listable_linked_of_simple (List.forall_mem_singleton.mpr fun i hi => ⟨hcode i hi, ?_⟩)
  rintro cases otherwise rfl
  rw [codeOf_of_terminal ha hs hstart] at hi
  split at hi <;> simp at hi

/-- If an automaton yields anything, its improved program can be written down. -/
theorem listable_linked_codeOf (ha : a.Deterministic) (hs : a.Symbolled)
    (hcode : Listable (codeOf a)) {w : List Char} {s : Option Int}
    (hyields : a.Yields a.start w s) : Listable (linked [codeOf a]) := by
  by_cases hstart : (a.state a.start).edges = []
  · exact listable_linked_of_terminal ha hs hstart hcode
  cases hacc : (a.state a.start).accepting with
  | true =>
    rw [linked_of_accepting ha hs hstart hacc]
    exact kept_listableInstr.linkFragments (List.forall_mem_singleton.mpr hcode)
  | false =>
    obtain ⟨cases, more, hfirst, hlinked⟩ := linked_of_rejecting ha hs hstart hacc
    obtain ⟨-, cases', hselects, hswitch⟩ :=
      (hosts_codeOf ha hs).rejecting a.start .refl hstart hacc
    rw [ownOf_start ha.valid, hfirst, if_pos rfl] at hswitch
    cases hswitch
    have hne := cases_ne_nil ha hacc hselects hyields
    rw [hlinked]
    rw [hfirst] at hcode
    obtain ⟨hroot, hmore⟩ := List.forall_mem_cons.mp hcode
    have hfolded : ListableInstr (.switch cases [(codeOf a).length]) :=
      ⟨hroot.1, fun hnil => absurd hnil hne⟩
    refine List.forall_mem_append.mpr ⟨List.forall_mem_append.mpr ⟨?_, ?_⟩, by decide⟩
    · exact List.forall_mem_singleton.mpr (kept_listableInstr.save 0 (by omega))
    · exact kept_listableInstr.relocate (List.forall_mem_cons.mpr ⟨hfolded, hmore⟩) 1

end Automata

end Program

end FiberLex
