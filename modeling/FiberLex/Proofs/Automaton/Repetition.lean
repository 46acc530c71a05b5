import FiberLex.Proofs.Automaton.Compose
import FiberLex.Proofs.Pattern.Language
import Mathlib.Algebra.BigOperators.Group.List.Defs

/-!
# Repetitions of automata

Optional parts, stars and pluses are one construction: a copy of the part between a start state and
a last state, with an epsilon that skips it, one that runs it again, both or neither (`Loop`). What
is yielded is found by induction on the derivation, since the part may be run without consuming
anything. Bounded repetitions are sequences of parts and optional parts.
-/

namespace FiberLex.Automaton

open scoped Computability

variable {a b c part : Automaton} {last : Nat} {f : Nat → Nat} {symbol : Option Int}

/-! ## Loops -/

/-- A copy of the part between a start state and a last state, to which the start may skip and from
which it may be run again. -/
structure Loop (part : Automaton) (symbol : Option Int) (skip again : Bool) (f : Nat → Nat)
    (last : Nat) (c : Automaton) : Prop where
  valid : c.Valid
  continues : Continues part part.start f c last
  start_accepting : (c.state c.start).accepting = false
  start_edges : (c.state c.start).edges = []
  start_epsilons : ∀ j, j ∈ (c.state c.start).epsilons ↔
    j = f part.start ∨ (skip = true ∧ j = last)
  last_accepting : (c.state last).accepting = true
  last_symbol : (c.state last).symbol = symbol
  last_edges : (c.state last).edges = []
  last_epsilons : ∀ j, j ∈ (c.state last).epsilons ↔ again = true ∧ j = c.start
  last_lt : last < c.states.size
  last_ne_start : last ≠ c.start
  ne_start : ∀ i, part.Reaches part.start i → f i ≠ c.start
  ne_last : ∀ i, part.Reaches part.start i → f i ≠ last

namespace Loop

variable {skip again : Bool}

/-- What can follow the copy of the part. -/
def rest (part : Automaton) (again : Bool) : Language Char := if again then part.texts∗ else 1

/-- What can be yielded from the start. -/
def whole (part : Automaton) (skip again : Bool) : Language Char :=
  (if skip then 1 else 0) + part.texts * rest part again

theorem mem_rest_of_mem_whole {w : List Char} (h : w ∈ whole part skip true) :
    w ∈ rest part true := by
  rw [rest, if_pos rfl, ← Language.one_add_self_mul_kstar_eq_kstar]
  rw [whole, Language.mem_add] at h
  rw [Language.mem_add]
  rcases h with h | h
  · cases skip with
    | true => exact Or.inl h
    | false => exact absurd h (Language.notMem_zero w)
  · exact Or.inr h

theorem mem_whole_of_mem_rest {w : List Char} (h : w ∈ rest part again) :
    w ∈ whole part true again := by
  rw [whole, if_pos rfl, Language.mem_add]
  cases again with
  | true =>
    rw [rest, if_pos rfl, ← Language.one_add_self_mul_kstar_eq_kstar, Language.mem_add] at h
    exact h
  | false => exact Or.inl h

/-- What is yielded from any state of a loop belongs there. -/
theorem sound (h : Loop part symbol skip again f last c) {x : Nat} {w : List Char} {s : Option Int}
    (hy : c.Yields x w s) :
    (∀ i, part.Reaches part.start i → f i = x →
      ∃ u v t, u ++ v = w ∧ part.Yields i u t ∧ v ∈ rest part again ∧ s = symbol) ∧
    (x = c.start → w ∈ whole part skip again ∧ s = symbol) ∧
    (x = last → w ∈ rest part again ∧ s = symbol) := by
  -- induction on the derivation: the loop may be run without consuming anything
  induction hy with
  | @stop x hacc =>
    refine ⟨?_, ?_, ?_⟩
    · rintro i hi rfl
      rw [h.continues.accepting_eq hi] at hacc
      cases hacc
    · rintro rfl
      rw [h.start_accepting] at hacc
      cases hacc
    · rintro rfl
      refine ⟨?_, h.last_symbol⟩
      cases again
      · exact Language.nil_mem_one
      · exact Language.nil_mem_kstar _
  | @epsilon x j w s hj _ ih =>
    refine ⟨?_, ?_, ?_⟩
    · rintro i hi rfl
      rcases (h.continues.mem_epsilons_iff hi).mp hj with ⟨k, hk, rfl⟩ | ⟨hacc, rfl⟩
      · obtain ⟨u, v, t, rfl, hu, hv⟩ := ih.1 k (hi.epsilon hk) rfl
        exact ⟨u, v, t, rfl, .epsilon hk hu, hv⟩
      · exact ⟨[], w, _, rfl, .stop hacc, ih.2.2 rfl⟩
    · rintro rfl
      rcases (h.start_epsilons j).mp hj with rfl | ⟨rfl, rfl⟩
      · obtain ⟨u, v, t, rfl, hu, hv, hs⟩ := ih.1 part.start .refl rfl
        refine ⟨?_, hs⟩
        rw [whole, Language.mem_add]
        exact Or.inr (Language.append_mem_mul ⟨t, hu⟩ hv)
      · obtain ⟨hw, hs⟩ := ih.2.2 rfl
        exact ⟨mem_whole_of_mem_rest hw, hs⟩
    · rintro rfl
      obtain ⟨rfl, rfl⟩ := (h.last_epsilons j).mp hj
      obtain ⟨hw, hs⟩ := ih.2.1 rfl
      exact ⟨mem_rest_of_mem_whole hw, hs⟩
  | @edge x e ch w s he hc _ ih =>
    refine ⟨?_, ?_, ?_⟩
    · rintro i hi rfl
      obtain ⟨e, he', rfl⟩ := (h.continues.mem_edges_iff hi).mp he
      obtain ⟨u, v, t, rfl, hu, hv⟩ := ih.1 e.target (hi.edge he') rfl
      exact ⟨ch :: u, v, t, rfl, .edge he' hc hu, hv⟩
    · rintro rfl
      rw [h.start_edges] at he
      cases he
    · rintro rfl
      rw [h.last_edges] at he
      cases he

theorem yields_start_of_part (h : Loop part symbol skip again f last c) {u v : List Char}
    {s : Option Int} (hu : u ∈ part.texts) (hv : c.Yields last v s) :
    c.Yields c.start (u ++ v) s := by
  obtain ⟨t, hu⟩ := hu
  exact .epsilon ((h.start_epsilons _).mpr (Or.inl rfl)) (h.continues.yields_append .refl hu hv)

theorem yields_last_nil (h : Loop part symbol skip again f last c) : c.Yields last [] symbol :=
  h.last_symbol ▸ .stop h.last_accepting

/-- All that can follow the part is yielded from the last state. -/
theorem yields_last (h : Loop part symbol skip again f last c) {w : List Char}
    (hw : w ∈ rest part again) : c.Yields last w symbol := by
  cases again with
  | false =>
    rw [rest, if_neg (by simp), Language.mem_one] at hw
    exact hw ▸ h.yields_last_nil
  | true =>
    obtain ⟨pieces, rfl, hpieces⟩ := Language.mem_kstar.mp hw
    clear hw
    induction pieces with
    | nil => exact h.yields_last_nil
    | cons u pieces ih =>
      obtain ⟨hu, hpieces⟩ := List.forall_mem_cons.mp hpieces
      rw [List.flatten_cons]
      exact .epsilon ((h.last_epsilons _).mpr ⟨rfl, rfl⟩) (h.yields_start_of_part hu (ih hpieces))

theorem recognizes (h : Loop part symbol skip again f last c) :
    c.Recognizes (whole part skip again) symbol := by
  refine ⟨h.valid, fun w s => ⟨fun hy => (h.sound hy).2.1 rfl, ?_⟩⟩
  rintro ⟨hw, rfl⟩
  rw [whole, Language.mem_add] at hw
  rcases hw with hw | hw
  · cases skip with
    | false => exact absurd hw (Language.notMem_zero w)
    | true =>
      obtain rfl := hw
      exact .epsilon ((h.start_epsilons _).mpr (Or.inr ⟨rfl, rfl⟩)) h.yields_last_nil
  · obtain ⟨u, hu, v, hv, rfl⟩ := hw
    exact h.yields_start_of_part hu (h.yields_last hv)

/-- An epsilon from the start to the last state skips the part. -/
theorem addSkip (h : Loop part symbol skip again f last c) :
    Loop part symbol true again f last (c.addEpsilon c.start last) := by
  have hstart := state_addEpsilon_self c h.valid.start_lt last
  have hlast := state_addEpsilon_of_ne c h.last_ne_start last
  refine ⟨h.valid.addEpsilon _ h.last_lt, ?_, ?_, ?_, ?_, ?_, ?_, ?_, ?_, by simpa using h.last_lt,
    h.last_ne_start, h.ne_start, h.ne_last⟩
  · intro i hi
    rw [state_addEpsilon_of_ne c (h.ne_start i hi)]
    exact h.continues i hi
  · rw [start_addEpsilon, hstart, accepting_addEpsilon, h.start_accepting]
  · rw [start_addEpsilon, hstart, edges_addEpsilon, h.start_edges]
  · intro j
    rw [start_addEpsilon, hstart, mem_epsilons_addEpsilon, h.start_epsilons]
    simp only [true_and]
    tauto
  · rw [hlast, h.last_accepting]
  · rw [hlast, h.last_symbol]
  · rw [hlast, h.last_edges]
  · intro j
    rw [hlast, start_addEpsilon]
    exact h.last_epsilons j

/-- An epsilon from the last state to the start runs the part again. -/
theorem addAgain (h : Loop part symbol skip again f last c) :
    Loop part symbol skip true f last (c.addEpsilon last c.start) := by
  have hstart := state_addEpsilon_of_ne c h.last_ne_start.symm c.start
  have hlast := state_addEpsilon_self c h.last_lt c.start
  refine ⟨h.valid.addEpsilon _ h.valid.start_lt, ?_, ?_, ?_, ?_, ?_, ?_, ?_, ?_,
    by simpa using h.last_lt, h.last_ne_start, h.ne_start, h.ne_last⟩
  · intro i hi
    rw [state_addEpsilon_of_ne c (h.ne_last i hi)]
    exact h.continues i hi
  · rw [start_addEpsilon, hstart, h.start_accepting]
  · rw [start_addEpsilon, hstart, h.start_edges]
  · intro j
    rw [start_addEpsilon, hstart, h.start_epsilons]
  · rw [hlast, accepting_addEpsilon, h.last_accepting]
  · rw [hlast, symbol_addEpsilon, h.last_symbol]
  · rw [hlast, edges_addEpsilon, h.last_edges]
  · intro j
    rw [hlast, mem_epsilons_addEpsilon, h.last_epsilons, start_addEpsilon]
    simp only [true_and]
    tauto

end Loop

/-- What can be reached from the start of an enclosed part is its branch, so its accepting states
are those of the branch. -/
theorem branch_acceptingStates (hc : c.Valid) {ends : List Nat} (h : Branch part f c ends)
    (hentry : f part.start ∈ (c.state c.start).epsilons) : Branch part f c c.acceptingStates := by
  refine ⟨h.embeds, h.ne_start, fun i hi hacc => (mem_acceptingStates_iff hc).mpr ⟨?_, ?_⟩⟩
  · have hstart : c.Reaches c.start (f part.start) := Reaches.epsilon .refl hentry
    exact hstart.trans (h.embeds.reaches_iff.mpr ⟨i, hi, rfl⟩)
  · rw [h.embeds.state_eq i hi]
    exact hacc

theorem loop_enclosed (hp : part.Valid) (symbol : Option Int) :
    ∃ f, Loop part symbol false false f (part.enclosed symbol).2 (part.enclosed symbol).1 := by
  have hnew := branches_new.valid
  have hstart : (new.addBranch part).1.state 0 =
      State.addEpsilon {} (part.absorbed 1 part.start) :=
    state_start_addBranch hnew hp
  have hbranch := branch_addBranch hnew hp []
  have hvalid := hnew.addBranch hp
  have heq : part.enclosed symbol =
      ((new.addBranch part).1.joinEnds (new.addBranch part).1.acceptingStates symbol,
        (new.addBranch part).1.states.size) := rfl
  have hzero : (new.addBranch part).1.start = 0 := rfl
  change Branch part (part.absorbed 1) _ _ at hbranch
  rw [heq]
  generalize (new.addBranch part).1 = c at hstart hbranch hvalid hzero
  rw [← hzero] at hstart
  have hends : ∀ x ∈ c.acceptingStates, (c.state x).accepting = true := fun x hx =>
    ((mem_acceptingStates_iff hvalid).mp hx).2
  have hbranch' := branch_acceptingStates hvalid hbranch (by
    rw [hstart]
    exact mem_epsilons_addEpsilon.mpr (Or.inr rfl))
  have hlast := state_joinEnds_last hends symbol
  have hjoined : (c.joinEnds c.acceptingStates symbol).state c.start = c.state c.start := by
    rw [state_joinEnds_of_lt c _ symbol hvalid.start_lt, if_neg]
    intro hmem
    have hacc := hends _ hmem
    rw [hstart] at hacc
    simp at hacc
  have hlt := hvalid.start_lt
  refine ⟨part.absorbed 1, hvalid.joinEnds _ _, hbranch'.continues_joinEnds hends symbol, ?_, ?_,
    ?_, ?_, ?_, ?_, ?_, ?_, ?_, ?_, ?_⟩
  · rw [start_joinEnds, hjoined, hstart, accepting_addEpsilon]
  · rw [start_joinEnds, hjoined, hstart, edges_addEpsilon]
  · intro j
    rw [start_joinEnds, hjoined, hstart, mem_epsilons_addEpsilon]
    simp
  · rw [hlast]
  · rw [hlast]
  · rw [hlast]
  · intro j
    rw [hlast]
    simp
  · rw [size_joinEnds]
    exact Nat.lt_succ_self _
  · rw [start_joinEnds]
    exact Nat.ne_of_gt hlt
  · intro i hi
    rw [start_joinEnds]
    exact hbranch.ne_start i hi
  · intro i hi
    exact Nat.ne_of_lt (hbranch.embeds.lt_size i hi)

theorem recognizes_optional (hp : part.Valid) (symbol : Option Int) :
    (part.optional symbol).Recognizes (1 + part.texts) symbol := by
  obtain ⟨f, h⟩ := loop_enclosed hp symbol
  have hrec := h.addSkip.recognizes
  rw [Loop.whole, Loop.rest, if_pos rfl, if_neg (by simp), mul_one] at hrec
  exact hrec

theorem recognizes_star (hp : part.Valid) (symbol : Option Int) :
    (part.star symbol).Recognizes part.texts∗ symbol := by
  obtain ⟨f, h⟩ := loop_enclosed hp symbol
  have hrec := h.addSkip.addAgain.recognizes
  rw [Loop.whole, Loop.rest, if_pos rfl, if_pos rfl,
    Language.one_add_self_mul_kstar_eq_kstar] at hrec
  exact hrec

theorem recognizes_plus (hp : part.Valid) (symbol : Option Int) :
    (part.plus symbol).Recognizes (part.texts * part.texts∗) symbol := by
  obtain ⟨f, h⟩ := loop_enclosed hp symbol
  have hrec := h.addAgain.recognizes
  rw [Loop.whole, Loop.rest, if_neg (by simp), if_pos rfl, zero_add] at hrec
  exact hrec

/-! ## Bounds -/

section Bounds

variable {l : Language Char} {w : List Char}

theorem mem_pow_mul_kstar_iff {n : Nat} : w ∈ l ^ n * l∗ ↔ ∃ k, n ≤ k ∧ w ∈ l ^ k := by
  rw [Language.kstar_eq_iSup_pow, Language.mul_iSup, Language.mem_iSup]
  constructor
  · rintro ⟨i, hi⟩
    rw [← pow_add] at hi
    exact ⟨n + i, Nat.le_add_right _ _, hi⟩
  · rintro ⟨k, hk, hw⟩
    obtain ⟨i, rfl⟩ := Nat.exists_eq_add_of_le hk
    rw [pow_add] at hw
    exact ⟨i, hw⟩

theorem mem_one_add_pow_iff {n : Nat} : w ∈ (1 + l) ^ n ↔ ∃ k, k ≤ n ∧ w ∈ l ^ k := by
  induction n generalizing w with
  | zero => simp
  | succ n ih =>
    rw [pow_succ, mul_add, mul_one, Language.mem_add, ih]
    constructor
    · rintro (⟨k, hk, hw⟩ | hw)
      · exact ⟨k, Nat.le_succ_of_le hk, hw⟩
      · obtain ⟨u, hu, v, hv, rfl⟩ := Language.mem_mul.mp hw
        obtain ⟨k, hk, hu⟩ := ih.mp hu
        exact ⟨k + 1, Nat.succ_le_succ hk, by rw [pow_succ]; exact Language.append_mem_mul hu hv⟩
    · rintro ⟨k, hk, hw⟩
      rcases Nat.lt_or_eq_of_le hk with hlt | rfl
      · exact Or.inl ⟨k, Nat.le_of_lt_succ hlt, hw⟩
      · rw [pow_succ] at hw
        obtain ⟨u, hu, v, hv, rfl⟩ := Language.mem_mul.mp hw
        exact Or.inr (Language.append_mem_mul (ih.mpr ⟨n, Nat.le_refl n, hu⟩) hv)

theorem mem_pow_mul_one_add_pow_iff {n m : Nat} :
    w ∈ l ^ n * (1 + l) ^ m ↔ ∃ k, n ≤ k ∧ k ≤ n + m ∧ w ∈ l ^ k := by
  rw [Language.mem_mul]
  constructor
  · rintro ⟨u, hu, v, hv, rfl⟩
    obtain ⟨k, hk, hv⟩ := mem_one_add_pow_iff.mp hv
    exact ⟨n + k, by omega, by omega, by rw [pow_add]; exact Language.append_mem_mul hu hv⟩
  · rintro ⟨k, hk, hle, hw⟩
    obtain ⟨i, rfl⟩ := Nat.exists_eq_add_of_le hk
    rw [pow_add] at hw
    obtain ⟨u, hu, v, hv, rfl⟩ := Language.mem_mul.mp hw
    exact ⟨u, hu, v, mem_one_add_pow_iff.mpr ⟨i, by omega, hv⟩, rfl⟩

end Bounds

/-- A repetition accepts as many texts of its part, one after the other, as its bounds allow. -/
theorem recognizes_repeated (hp : part.Valid) {min : Nat} {max : Option Nat}
    (hbounds : ∀ m, max = some m → min ≤ m ∧ 0 < m) (symbol : Option Int) :
    ∃ a, part.repeated min max symbol = .ok a ∧
      a.Recognizes {w | ∃ k, Pattern.InBounds min max k ∧ w ∈ part.texts ^ k} symbol := by
  -- each case accepts a language that is described by its bounds
  have hcongr : ∀ {a : Automaton} {l : Language Char}, a.Recognizes l symbol →
      (∀ w, w ∈ l ↔ ∃ k, Pattern.InBounds min max k ∧ w ∈ part.texts ^ k) →
      a.Recognizes {w | ∃ k, Pattern.InBounds min max k ∧ w ∈ part.texts ^ k} symbol := by
    intro a l h hl
    exact (Language.ext hl : l = _) ▸ h
  unfold repeated
  split
  · refine ⟨_, rfl, hcongr (recognizes_star hp symbol) fun w => ?_⟩
    have hpow := @mem_pow_mul_kstar_iff part.texts w 0
    rw [pow_zero, one_mul] at hpow
    simp [hpow, Pattern.InBounds]
  · exact absurd (hbounds 0 rfl).2 (Nat.lt_irrefl 0)
  · refine ⟨_, rfl, hcongr (recognizes_optional hp symbol) fun w => ?_⟩
    have hpow := @mem_one_add_pow_iff part.texts w 1
    rw [pow_one] at hpow
    rw [hpow]
    simp [Pattern.InBounds]
  · refine ⟨_, rfl, hcongr (recognizes_plus hp symbol) fun w => ?_⟩
    have hpow := @mem_pow_mul_kstar_iff part.texts w 1
    rw [pow_one] at hpow
    simp [hpow, Pattern.InBounds]
  · have hset := recognizes_setSymbol hp.compact symbol
    rw [texts_compact hp] at hset
    refine ⟨_, rfl, hcongr hset fun w => ?_⟩
    have hone : ∀ k, Pattern.InBounds 1 (some 1) k ↔ k = 1 := by
      intro k
      simp [Pattern.InBounds]
      omega
    simp [hone]
  · have hparts : ∀ p ∈ List.replicate min part ++ [part.star none], p.Valid := by
      intro p h
      rcases List.mem_append.mp h with h | h
      · exact List.eq_of_mem_replicate h ▸ hp
      · rw [List.mem_singleton] at h
        exact h ▸ (recognizes_star hp none).valid
    refine ⟨_, rfl, hcongr (recognizes_concat hparts symbol) fun w => ?_⟩
    rw [List.map_append, List.map_replicate, List.prod_append, List.prod_replicate, List.map_singleton,
      List.prod_singleton, (recognizes_star hp none).texts_eq, mem_pow_mul_kstar_iff]
    simp [Pattern.InBounds]
  · rename_i m _ _ _
    have hle := (hbounds m rfl).1
    rw [if_neg (by omega)]
    have hparts : ∀ p ∈ List.replicate min part ++ List.replicate (m - min) (part.optional none),
        p.Valid := by
      intro p h
      rcases List.mem_append.mp h with h | h
      · exact List.eq_of_mem_replicate h ▸ hp
      · exact List.eq_of_mem_replicate h ▸ (recognizes_optional hp none).valid
    refine ⟨_, rfl, hcongr (recognizes_concat hparts symbol) fun w => ?_⟩
    rw [List.map_append, List.map_replicate, List.map_replicate, List.prod_append,
      List.prod_replicate, List.prod_replicate, (recognizes_optional hp none).texts_eq,
      mem_pow_mul_one_add_pow_iff]
    refine exists_congr fun k => ?_
    rw [← and_assoc]
    refine and_congr_left fun _ => ?_
    simp only [Pattern.InBounds, Option.some.injEq, forall_eq']
    constructor
    · rintro ⟨h1, h2⟩
      exact ⟨h1, by omega⟩
    · rintro ⟨h1, h2⟩
      exact ⟨h1, by omega⟩

end FiberLex.Automaton
