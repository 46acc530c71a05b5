import FiberLex.Automaton.Compose
import FiberLex.Proofs.Automaton.Copies
import FiberLex.Proofs.CodeSet
import Mathlib.Computability.Language

/-!
# What composed automata accept

Sequences, choices and repetitions of automata accept the products, sums and powers of the texts of
their parts, whatever the parts look like. The parts stand in the result as copies whose accepting
states forward to one other state (`Continues`); a text of the copy then splits into a text of the
part and one from that state on.
-/

namespace FiberLex

@[simp] theorem State.mapTargets_id (s : State) : s.mapTargets id = s := by
  cases s
  simp [State.mapTargets]

namespace Automaton

variable {a b c part : Automaton} {root last : Nat} {f : Nat → Nat} {symbol : Option Int}

/-- The texts that an automaton accepts. -/
def texts (a : Automaton) : Language Char := {w | ∃ s, a.Yields a.start w s}

theorem mem_texts {w : List Char} : w ∈ a.texts ↔ ∃ s, a.Yields a.start w s := Iff.rfl

/-- The automaton accepts the texts of a language, all with the same symbol. -/
structure Recognizes (a : Automaton) (l : Language Char) (symbol : Option Int) : Prop where
  /-- Every number that is used as a state is the number of one. -/
  valid : a.Valid
  /-- What is yielded is a text of the language, and the symbol. -/
  yields_iff : ∀ w s, a.Yields a.start w s ↔ w ∈ l ∧ s = symbol

theorem Recognizes.texts_eq {l : Language Char} (h : a.Recognizes l symbol) : a.texts = l := by
  ext w
  simp [mem_texts, h.yields_iff]

/-! ## States of a simple kind -/

/-- From a state that accepts and leads nowhere only the empty text is yielded. -/
theorem yields_final_iff {i : Nat} (hi : a.state i = { accepting := true, symbol })
    {w : List Char} {s : Option Int} : a.Yields i w s ↔ w = [] ∧ s = symbol := by
  constructor
  · intro h
    cases h with
    | stop _ => simp [hi]
    | epsilon hj _ => simp [hi] at hj
    | edge he _ _ => simp [hi] at he
  · rintro ⟨rfl, rfl⟩
    have h : a.Yields i [] (a.state i).symbol := .stop (by rw [hi])
    rw [hi] at h
    exact h

/-- From a state that only has epsilons one of them is followed. -/
theorem yields_hub_iff {i : Nat} (hacc : (a.state i).accepting = false)
    (hedges : (a.state i).edges = []) {w : List Char} {s : Option Int} :
    a.Yields i w s ↔ ∃ j ∈ (a.state i).epsilons, a.Yields j w s := by
  constructor
  · intro h
    cases h with
    | stop h => simp [hacc] at h
    | epsilon hj h => exact ⟨_, hj, h⟩
    | edge he _ _ => simp [hedges] at he
  · rintro ⟨j, hj, h⟩
    exact .epsilon hj h

/-! ## Copies that continue elsewhere -/

/-- A copy of the states reachable from `root` whose accepting states forward to `last`. -/
def Continues (b : Automaton) (root : Nat) (f : Nat → Nat) (c : Automaton) (last : Nat) : Prop :=
  ∀ i, b.Reaches root i → c.state (f i) =
    if (b.state i).accepting then ((b.state i).mapTargets f).forwardTo last
    else (b.state i).mapTargets f

namespace Continues

variable {i : Nat}

theorem accepting_eq (h : Continues b root f c last) (hi : b.Reaches root i) :
    (c.state (f i)).accepting = false := by
  rw [h i hi]
  split
  · exact accepting_forwardTo _ _
  · rename_i hacc
    simpa using hacc

theorem mem_edges_iff (h : Continues b root f c last) (hi : b.Reaches root i) {e : Edge} :
    e ∈ (c.state (f i)).edges ↔ ∃ e' ∈ (b.state i).edges, ⟨e'.range, f e'.target⟩ = e := by
  rw [h i hi, ← State.mem_edges_mapTargets]
  split
  · rw [edges_forwardTo]
  · rfl

theorem mem_epsilons_iff (h : Continues b root f c last) (hi : b.Reaches root i) {j : Nat} :
    j ∈ (c.state (f i)).epsilons ↔
      (∃ k ∈ (b.state i).epsilons, f k = j) ∨ ((b.state i).accepting = true ∧ j = last) := by
  rw [h i hi, ← State.mem_epsilons_mapTargets]
  split
  · rename_i hacc
    rw [mem_epsilons_forwardTo]
    simp [hacc]
  · rename_i hacc
    simp [hacc]

/-- A text of the part goes on with what is yielded behind it. -/
theorem yields_append (h : Continues b root f c last) (hi : b.Reaches root i) {u v : List Char}
    {s t : Option Int} (hu : b.Yields i u t) (hv : c.Yields last v s) :
    c.Yields (f i) (u ++ v) s := by
  induction hu with
  | @stop i hacc => exact .epsilon ((h.mem_epsilons_iff hi).mpr (Or.inr ⟨hacc, rfl⟩)) hv
  | @epsilon i j w t hj _ ih =>
    exact .epsilon ((h.mem_epsilons_iff hi).mpr (Or.inl ⟨j, hj, rfl⟩)) (ih (hi.epsilon hj))
  | @edge i e ch w t he hc _ ih =>
    exact .edge ((h.mem_edges_iff hi).mpr ⟨e, he, rfl⟩) hc (ih (hi.edge he))

/-- What is yielded from the copy begins with a text of the part. -/
theorem split (h : Continues b root f c last) (hi : b.Reaches root i) {w : List Char}
    {s : Option Int} (hy : c.Yields (f i) w s) :
    ∃ u v t, u ++ v = w ∧ b.Yields i u t ∧ c.Yields last v s := by
  generalize hx : f i = x at hy
  induction hy generalizing i with
  | stop hacc =>
    subst hx
    rw [h.accepting_eq hi] at hacc
    cases hacc
  | @epsilon x j w s hj hy ih =>
    subst hx
    rcases (h.mem_epsilons_iff hi).mp hj with ⟨k, hk, rfl⟩ | ⟨hacc, rfl⟩
    · obtain ⟨u, v, t, rfl, hu, hv⟩ := ih (hi.epsilon hk) rfl
      exact ⟨u, v, t, rfl, .epsilon hk hu, hv⟩
    · exact ⟨[], w, _, rfl, .stop hacc, hy⟩
  | @edge x e ch w s he hc _ ih =>
    subst hx
    obtain ⟨e, he', rfl⟩ := (h.mem_edges_iff hi).mp he
    obtain ⟨u, v, t, rfl, hu, hv⟩ := ih (hi.edge he') rfl
    exact ⟨ch :: u, v, t, rfl, .edge he' hc hu, hv⟩

theorem yields_iff (h : Continues b root f c last) {w : List Char} {s : Option Int} :
    c.Yields (f root) w s ↔ ∃ u v t, u ++ v = w ∧ b.Yields root u t ∧ c.Yields last v s := by
  constructor
  · exact h.split .refl
  · rintro ⟨u, v, t, rfl, hu, hv⟩
    exact h.yields_append .refl hu hv

end Continues

/-! ## One code point after the other -/

theorem recognizes_empty (symbol : Option Int) : (empty symbol).Recognizes 1 symbol := by
  refine ⟨valid_iff.mpr (by simp [empty, State.successors]), fun w s => ?_⟩
  rw [yields_final_iff rfl, Language.mem_one]

/-- The texts with the given code points. -/
def spelling (cps : List Nat) : Language Char := {w | w.map Char.toNat = cps}

theorem mem_spelling {cps : List Nat} {w : List Char} :
    w ∈ spelling cps ↔ w.map Char.toNat = cps := Iff.rfl

theorem state_ofCodePoints (cps : List Nat) (symbol : Option Int) (i : Nat) :
    (ofCodePoints cps symbol).state i =
      if h : i < cps.length then { edges := [⟨.single cps[i], i + 1⟩] }
      else if i = cps.length then { accepting := true, symbol } else {} := by
  unfold state ofCodePoints
  simp only [Array.getD_eq_getD_getElem?, Array.getElem?_push, List.size_toArray, List.length_map,
    List.length_zipIdx, List.getElem?_toArray, List.getElem?_map]
  by_cases hlt : i < cps.length
  · rw [dif_pos hlt, if_neg (Nat.ne_of_lt hlt), List.getElem?_zipIdx, List.getElem?_eq_getElem hlt]
    simp [Nat.add_comm]
  · by_cases heq : i = cps.length
    · simp [heq]
    · rw [dif_neg hlt, if_neg heq, if_neg heq, List.getElem?_zipIdx,
        List.getElem?_eq_none (by omega)]
      rfl

theorem size_ofCodePoints (cps : List Nat) (symbol : Option Int) :
    (ofCodePoints cps symbol).states.size = cps.length + 1 := by
  simp [ofCodePoints]

theorem recognizes_ofCodePoints (cps : List Nat) (symbol : Option Int) :
    (ofCodePoints cps symbol).Recognizes (spelling cps) symbol := by
  -- induction on what is left of the code points
  have hyields : ∀ n i, i + n = cps.length → ∀ w s,
      (ofCodePoints cps symbol).Yields i w s ↔ w.map Char.toNat = cps.drop i ∧ s = symbol := by
    intro n
    induction n with
    | zero =>
      intro i hi w s
      have hlen : i = cps.length := by omega
      have hstate : (ofCodePoints cps symbol).state i = { accepting := true, symbol } := by
        rw [state_ofCodePoints, dif_neg (by omega), if_pos hlen]
      rw [yields_final_iff hstate, hlen, List.drop_length, List.map_eq_nil_iff]
    | succ n ih =>
      intro i hi w s
      have hlt : i < cps.length := by omega
      have hstate : (ofCodePoints cps symbol).state i = { edges := [⟨.single cps[i], i + 1⟩] } := by
        rw [state_ofCodePoints, dif_pos hlt]
      rw [List.drop_eq_getElem_cons hlt]
      constructor
      · intro h
        cases h with
        | stop h => simp [hstate] at h
        | epsilon hj _ => simp [hstate] at hj
        | @edge _ e ch w _ he hc h =>
          rw [hstate, List.mem_singleton] at he
          subst he
          obtain ⟨hw, hs⟩ := (ih (i + 1) (by omega) w s).mp h
          simp only [CodeRange.contains_iff, CodeRange.single] at hc
          exact ⟨by rw [List.map_cons, hw]; congr 1; omega, hs⟩
      · rintro ⟨hw, rfl⟩
        obtain ⟨ch, w, rfl, hch, hw⟩ := List.map_eq_cons_iff.mp hw
        refine @Yields.edge _ i ⟨.single cps[i], i + 1⟩ ch w s (by simp [hstate]) ?_ ?_
        · simp [CodeRange.single, hch]
        · exact (ih (i + 1) (by omega) w s).mpr ⟨hw, rfl⟩
  refine ⟨valid_of_lt ?_ ?_, fun w s => hyields cps.length 0 (by omega) w s⟩
  · rw [size_ofCodePoints]
    exact Nat.succ_pos _
  · intro i hi j hj
    rw [size_ofCodePoints] at hi ⊢
    rw [state_ofCodePoints] at hj
    split at hj
    · simp only [State.successors, List.map_cons, List.map_nil, List.append_nil,
        List.mem_singleton] at hj
      omega
    · split at hj <;> cases hj

/-- The texts of one character in a set. -/
theorem recognizes_ofSet (set : CodeSet) (symbol : Option Int) :
    (ofSet set symbol).Recognizes {w | ∃ c : Char, w = [c] ∧ CodeSet.Covers set.toList c.toNat}
      symbol := by
  have hedges : (ofSet set symbol).state 0 = { edges := set.normalize.toList.map (⟨·, 1⟩) } := rfl
  have hlast : (ofSet set symbol).state 1 = { accepting := true, symbol } := rfl
  have hcovers : ∀ cp, CodeSet.Covers set.normalize.toList cp ↔ CodeSet.Covers set.toList cp :=
    fun cp => CodeSet.covers_normalList
  refine ⟨valid_iff.mpr ⟨by simp [ofSet], ?_⟩, fun w s => ?_⟩
  · simp [ofSet, State.successors]
  · constructor
    · intro h
      change (ofSet set symbol).Yields 0 w s at h
      cases h with
      | stop h => simp [hedges] at h
      | epsilon hj _ => simp [hedges] at hj
      | @edge _ e ch w _ he hc h =>
        rw [hedges] at he
        obtain ⟨r, hr, rfl⟩ := List.mem_map.mp he
        obtain ⟨rfl, hs⟩ := (yields_final_iff hlast).mp h
        exact ⟨⟨ch, rfl, (hcovers _).mp ⟨r, hr, hc⟩⟩, hs⟩
    · rintro ⟨⟨ch, rfl, hc⟩, rfl⟩
      obtain ⟨r, hr, hc⟩ := (hcovers _).mpr hc
      refine @Yields.edge _ 0 ⟨r, 1⟩ ch [] s ?_ hc ((yields_final_iff hlast).mpr ⟨rfl, rfl⟩)
      rw [hedges]
      exact List.mem_map_of_mem hr

/-! ## Sequences -/

theorem Valid.setSymbol (ha : a.Valid) (symbol : Option Int) : (a.setSymbol symbol).Valid :=
  ha.mapSymbols _

theorem recognizes_setSymbol (ha : a.Valid) (symbol : Option Int) :
    (a.setSymbol symbol).Recognizes a.texts symbol := by
  refine ⟨ha.setSymbol symbol, fun w s => ?_⟩
  rw [setSymbol, start_mapSymbols, yields_mapSymbols_iff ha _ .refl, mem_texts]
  constructor
  · rintro ⟨t, ht, rfl⟩
    exact ⟨⟨t, ht⟩, rfl⟩
  · rintro ⟨⟨t, ht⟩, rfl⟩
    exact ⟨t, ht, rfl⟩

theorem texts_compact (ha : a.Valid) : a.compact.texts = a.texts := by
  ext w
  simp only [mem_texts, yields_compact_iff ha]

/-- In a sequence of two, the first part continues at the copy of the second. -/
theorem continues_append (ha : a.Valid) (hb : b.Valid) :
    Continues a a.start id (a.append b) (b.absorbed a.states.size b.start) := by
  intro i hi
  have hlt : i < a.states.size := hi.lt_size ha ha.start_lt
  have hlt' : i < (a.absorb b).1.states.size := by
    rw [size_absorb a hb]
    omega
  rw [append, id, state_forwardAll _ _ _ hlt', state_absorb_of_lt a hb hlt, snd_absorb a hb,
    State.mapTargets_id]
  simp only [mem_acceptingStates_iff ha, hi, true_and]

theorem embeds_append (ha : a.Valid) (hb : b.Valid) :
    Embeds b b.start (b.absorbed a.states.size) (a.append b) := by
  refine (embeds_absorb a hb).of_state_eq (by simp [append]) fun i hi => ?_
  have hlt := (embeds_absorb a hb).lt_size i hi
  rw [append, state_forwardAll _ _ _ hlt, if_neg]
  intro hmem
  have hsize := ((mem_acceptingStates_iff ha).mp hmem).1.lt_size ha ha.start_lt
  have := size_le_absorbed b a.states.size i
  omega

theorem Valid.append (ha : a.Valid) (hb : b.Valid) : (a.append b).Valid := by
  exact (ha.absorb hb).forwardAll _ (snd_absorb_lt a hb)

theorem texts_append (ha : a.Valid) (hb : b.Valid) : (a.append b).texts = a.texts * b.texts := by
  have hstart : (a.append b).start = id a.start := start_forwardAll _ _ _
  ext w
  simp only [mem_texts, hstart, (continues_append ha hb).yields_iff,
    (embeds_append ha hb).yields_iff .refl, Language.mem_mul]
  constructor
  · rintro ⟨s, u, v, t, rfl, hu, hv⟩
    exact ⟨u, ⟨t, hu⟩, v, ⟨s, hv⟩, rfl⟩
  · rintro ⟨u, ⟨t, hu⟩, v, ⟨s, hv⟩, rfl⟩
    exact ⟨s, u, v, t, rfl, hu, hv⟩

theorem texts_foldl_append {rest : List Automaton} (ha : a.Valid) (hrest : ∀ p ∈ rest, p.Valid) :
    (rest.foldl append a).Valid ∧
      (rest.foldl append a).texts = a.texts * (rest.map texts).prod := by
  induction rest generalizing a with
  | nil => exact ⟨ha, by simp⟩
  | cons b rest ih =>
    obtain ⟨hb, hrest⟩ := List.forall_mem_cons.mp hrest
    obtain ⟨hvalid, htexts⟩ := ih (ha.append hb) hrest
    refine ⟨hvalid, ?_⟩
    rw [List.foldl_cons, htexts, texts_append ha hb, List.map_cons, List.prod_cons, mul_assoc]

/-- A sequence accepts the products of the texts of its parts. -/
theorem recognizes_concat {parts : List Automaton} (h : ∀ p ∈ parts, p.Valid)
    (symbol : Option Int) :
    (concat parts symbol).Recognizes (parts.map texts).prod symbol := by
  cases parts with
  | nil => exact recognizes_empty symbol
  | cons first rest =>
    obtain ⟨hfirst, hrest⟩ := List.forall_mem_cons.mp h
    obtain ⟨hvalid, htexts⟩ := texts_foldl_append hfirst.compact hrest
    have hset := recognizes_setSymbol hvalid symbol
    rw [htexts, texts_compact hfirst] at hset
    exact hset

/-! ## Branches -/

/-- A copy of the part away from the start state, its accepting states being among `ends`. -/
structure Branch (part : Automaton) (f : Nat → Nat) (c : Automaton) (ends : List Nat) : Prop where
  embeds : Embeds part part.start f c
  ne_start : ∀ i, part.Reaches part.start i → f i ≠ c.start
  mem_ends : ∀ i, part.Reaches part.start i → (part.state i).accepting = true → f i ∈ ends

/-- The start state leads to a copy of each part, and nowhere else. -/
structure Branches (parts : List Automaton) (c : Automaton) (ends : List Nat) : Prop where
  valid : c.Valid
  start_accepting : (c.state c.start).accepting = false
  start_edges : (c.state c.start).edges = []
  /-- Each part has a branch. -/
  entry : ∀ p ∈ parts, ∃ f, Branch p f c ends ∧ f p.start ∈ (c.state c.start).epsilons
  /-- Each epsilon leads to the branch of a part. -/
  epsilon : ∀ x ∈ (c.state c.start).epsilons, ∃ p ∈ parts, ∃ f, Branch p f c ends ∧ f p.start = x
  /-- The ends are accepting. -/
  ends_accepting : ∀ x ∈ ends, (c.state x).accepting = true

theorem branches_new : Branches [] new [] :=
  ⟨valid_iff.mpr (by simp [new, State.successors]), rfl, rfl, by simp, by simp [new, state], by simp⟩

/-- A copy stays a branch when another one is added. -/
theorem Branch.addBranch {ends : List Nat} (h : Branch part f c ends) (hb : b.Valid)
    (more : List Nat) : Branch part f (c.addBranch b).1 (ends ++ more) := by
  refine ⟨?_, h.ne_start, fun i hi hacc => List.mem_append_left _ (h.mem_ends i hi hacc)⟩
  refine h.embeds.of_state_eq ?_ fun i hi => ?_
  · simp only [Automaton.addBranch, size_addEpsilon]
    rw [size_absorb c hb]
    exact Nat.le_add_right _ _
  · simp only [Automaton.addBranch]
    rw [state_addEpsilon_of_ne _ (h.ne_start i hi), state_absorb_of_lt c hb (h.embeds.lt_size i hi)]

theorem Valid.addBranch (hc : c.Valid) (hb : b.Valid) : (c.addBranch b).1.Valid :=
  (hc.absorb hb).addEpsilon _ (snd_absorb_lt c hb)

theorem state_start_addBranch (hc : c.Valid) (hb : b.Valid) :
    (c.addBranch b).1.state c.start =
      (c.state c.start).addEpsilon (b.absorbed c.states.size b.start) := by
  have hlt : c.start < (c.absorb b).1.states.size := (hc.absorb hb).start_lt
  simp only [Automaton.addBranch]
  rw [state_addEpsilon_self _ hlt, state_absorb_of_lt c hb hc.start_lt, snd_absorb c hb]

/-- The copy that is added is a branch. -/
theorem branch_addBranch (hc : c.Valid) (hb : b.Valid) (more : List Nat) :
    Branch b (b.absorbed c.states.size) (c.addBranch b).1 (more ++ (c.addBranch b).2) := by
  have hne : ∀ i, b.absorbed c.states.size i ≠ c.start := by
    intro i
    have hle := size_le_absorbed b c.states.size i
    have hlt := hc.start_lt
    omega
  have hembeds : Embeds b b.start (b.absorbed c.states.size) (c.addBranch b).1 := by
    refine (embeds_absorb c hb).of_state_eq (by simp [addBranch]) fun i _ => ?_
    simp only [addBranch]
    rw [state_addEpsilon_of_ne _ (hne i)]
  refine ⟨hembeds, fun i _ => hne i, fun i hi hacc => List.mem_append_right _ ?_⟩
  have hroot : (c.absorb b).2 = b.absorbed c.states.size b.start := snd_absorb c hb
  refine List.mem_filter.mpr ⟨?_, ?_⟩
  · change _ ∈ (c.addBranch b).1.closureFrom (c.absorb b).2
    rw [hroot, mem_closureFrom_iff (hc.addBranch hb) (hembeds.lt_size _ .refl), hembeds.reaches_iff]
    exact ⟨i, hi, rfl⟩
  · change ((c.addBranch b).1.state _).accepting = true
    rw [hembeds.state_eq i hi]
    exact hacc

/-- One more part adds its branch and keeps the others. -/
theorem Branches.addBranch {parts : List Automaton} {ends : List Nat} (h : Branches parts c ends)
    (hb : b.Valid) :
    Branches (parts ++ [b]) (c.addBranch b).1 (ends ++ (c.addBranch b).2) := by
  have hstart := state_start_addBranch h.valid hb
  have hnew := branch_addBranch h.valid hb ends
  refine ⟨h.valid.addBranch hb, ?_, ?_, ?_, ?_, ?_⟩
  · change ((c.addBranch b).1.state c.start).accepting = false
    rw [hstart, accepting_addEpsilon, h.start_accepting]
  · change ((c.addBranch b).1.state c.start).edges = []
    rw [hstart, edges_addEpsilon, h.start_edges]
  · intro p hp
    change ∃ f, _ ∧ _ ∈ ((c.addBranch b).1.state c.start).epsilons
    rw [hstart]
    rcases List.mem_append.mp hp with hp | hp
    · obtain ⟨f, hf, hmem⟩ := h.entry p hp
      exact ⟨f, hf.addBranch hb _, mem_epsilons_addEpsilon.mpr (Or.inl hmem)⟩
    · rw [List.mem_singleton] at hp
      subst hp
      exact ⟨_, hnew, mem_epsilons_addEpsilon.mpr (Or.inr rfl)⟩
  · intro x hx
    change x ∈ ((c.addBranch b).1.state c.start).epsilons at hx
    rw [hstart, mem_epsilons_addEpsilon] at hx
    rcases hx with hx | rfl
    · obtain ⟨p, hp, f, hf, rfl⟩ := h.epsilon x hx
      exact ⟨p, List.mem_append_left _ hp, f, hf.addBranch hb _, rfl⟩
    · exact ⟨b, by simp, _, hnew, rfl⟩
  · intro x hx
    rcases List.mem_append.mp hx with hx | hx
    · have hacc := h.ends_accepting x hx
      have hlt : x < c.states.size := by
        by_contra hge
        rw [state_of_size_le (by omega)] at hacc
        cases hacc
      have hne : x ≠ c.start := by
        rintro rfl
        rw [h.start_accepting] at hacc
        cases hacc
      simp only [Automaton.addBranch]
      rw [state_addEpsilon_of_ne _ hne, state_absorb_of_lt c hb hlt, hacc]
    · exact (List.mem_filter.mp hx).2

/-- All parts get their branches. -/
theorem Branches.addBranches {done : List Automaton} {ends : List Nat} (h : Branches done c ends)
    {parts : List Automaton} (hparts : ∀ p ∈ parts, p.Valid) :
    Branches (done ++ parts) (c.addBranches parts).1 (ends ++ (c.addBranches parts).2) := by
  induction parts generalizing c done ends with
  | nil => simpa [Automaton.addBranches] using h
  | cons b parts ih =>
    obtain ⟨hb, hparts⟩ := List.forall_mem_cons.mp hparts
    have hall := ih (h.addBranch hb) hparts
    simpa [Automaton.addBranches, List.append_assoc] using hall

theorem branches_addBranches {parts : List Automaton} (h : ∀ p ∈ parts, p.Valid) :
    Branches parts (new.addBranches parts).1 (new.addBranches parts).2 := by
  simpa using branches_new.addBranches h

/-- The parts of several rules are branches that keep their accepting states. -/
theorem merged_eq (parts : List Automaton) : merged parts = (new.addBranches parts).1 := by
  have hfold : ∀ a : Automaton, parts.foldl (fun a part =>
      (a.absorb part).1.addEpsilon (a.absorb part).1.start (a.absorb part).2) a =
      (a.addBranches parts).1 := by
    induction parts with
    | nil => exact fun a => rfl
    | cons part parts ih =>
      intro a
      rw [List.foldl_cons, ih]
      rfl
  exact hfold new

theorem Valid.merged {parts : List Automaton} (h : ∀ p ∈ parts, p.Valid) :
    (merged parts).Valid :=
  merged_eq parts ▸ (branches_addBranches h).valid

/-- What some part yields is yielded from all parts together. -/
theorem yields_merged_iff {parts : List Automaton} (h : ∀ p ∈ parts, p.Valid) {w : List Char}
    {s : Option Int} :
    (merged parts).Yields (merged parts).start w s ↔ ∃ p ∈ parts, p.Yields p.start w s := by
  have hbranches := branches_addBranches h
  rw [merged_eq, yields_hub_iff hbranches.start_accepting hbranches.start_edges]
  constructor
  · rintro ⟨x, hx, hy⟩
    obtain ⟨p, hp, f, hf, rfl⟩ := hbranches.epsilon x hx
    exact ⟨p, hp, (hf.embeds.yields_iff .refl).mp hy⟩
  · rintro ⟨p, hp, hy⟩
    obtain ⟨f, hf, hmem⟩ := hbranches.entry p hp
    exact ⟨_, hmem, (hf.embeds.yields_iff .refl).mpr hy⟩

/-! ## Choices -/

/-- The branches with one new accepting state to which their ends forward. -/
def joinEnds (c : Automaton) (ends : List Nat) (symbol : Option Int) : Automaton :=
  (c.addState true symbol).1.forwardAll ends c.states.size

section JoinEnds

variable {parts : List Automaton} {ends : List Nat}

theorem size_joinEnds (c : Automaton) (ends : List Nat) (symbol : Option Int) :
    (c.joinEnds ends symbol).states.size = c.states.size + 1 := by
  rw [joinEnds, size_forwardAll, size_addState]

@[simp] theorem start_joinEnds (c : Automaton) (ends : List Nat) (symbol : Option Int) :
    (c.joinEnds ends symbol).start = c.start :=
  start_forwardAll _ _ _

theorem state_joinEnds_of_lt (c : Automaton) (ends : List Nat) (symbol : Option Int) {i : Nat}
    (hi : i < c.states.size) :
    (c.joinEnds ends symbol).state i =
      if i ∈ ends then (c.state i).forwardTo c.states.size else c.state i := by
  rw [joinEnds, state_forwardAll _ _ _ (by rw [size_addState]; omega),
    state_addState_of_lt c _ _ hi]

theorem Valid.joinEnds (hc : c.Valid) (ends : List Nat) (symbol : Option Int) :
    (c.joinEnds ends symbol).Valid :=
  (hc.addState true symbol).forwardAll _ (by rw [size_addState]; omega)

theorem state_joinEnds_last (hends : ∀ x ∈ ends, (c.state x).accepting = true)
    (symbol : Option Int) :
    (c.joinEnds ends symbol).state c.states.size = { accepting := true, symbol } := by
  have hnmem : c.states.size ∉ ends := by
    intro hmem
    have hacc := hends _ hmem
    rw [state_of_size_le (Nat.le_refl _)] at hacc
    cases hacc
  rw [Automaton.joinEnds, state_forwardAll _ _ _ (by rw [size_addState]; omega), if_neg hnmem,
    state_addState_last]

theorem Branches.state_start_joinEnds (h : Branches parts c ends) (symbol : Option Int) :
    (c.joinEnds ends symbol).state c.start = c.state c.start := by
  have hnmem : c.start ∉ ends := by
    intro hmem
    have hacc := h.ends_accepting _ hmem
    rw [h.start_accepting] at hacc
    cases hacc
  rw [state_joinEnds_of_lt c ends symbol h.valid.start_lt, if_neg hnmem]

/-- Each branch continues at the last state. -/
theorem Branch.continues_joinEnds (h : Branch part f c ends)
    (hends : ∀ x ∈ ends, (c.state x).accepting = true) (symbol : Option Int) :
    Continues part part.start f (c.joinEnds ends symbol) c.states.size := by
  intro i hi
  have hiff : f i ∈ ends ↔ (part.state i).accepting = true := by
    constructor
    · intro hmem
      have hacc := hends _ hmem
      rw [h.embeds.state_eq i hi] at hacc
      exact hacc
    · exact h.mem_ends i hi
  rw [state_joinEnds_of_lt c ends symbol (h.embeds.lt_size i hi), h.embeds.state_eq i hi]
  simp only [hiff]

theorem Branch.yields_joinEnds_iff (h : Branch part f c ends)
    (hends : ∀ x ∈ ends, (c.state x).accepting = true) {w : List Char} {s : Option Int} :
    (c.joinEnds ends symbol).Yields (f part.start) w s ↔ w ∈ part.texts ∧ s = symbol := by
  have hlast := state_joinEnds_last hends symbol
  rw [(h.continues_joinEnds hends symbol).yields_iff]
  constructor
  · rintro ⟨u, v, t, rfl, hu, hv⟩
    obtain ⟨rfl, hs⟩ := (yields_final_iff hlast).mp hv
    rw [List.append_nil]
    exact ⟨⟨t, hu⟩, hs⟩
  · rintro ⟨⟨t, hu⟩, hs⟩
    exact ⟨w, [], t, by simp, hu, (yields_final_iff hlast).mpr ⟨rfl, hs⟩⟩

end JoinEnds

theorem mem_sum_texts {parts : List Automaton} {w : List Char} :
    w ∈ (parts.map texts).sum ↔ ∃ p ∈ parts, w ∈ p.texts := by
  induction parts with
  | nil => simp [Language.notMem_zero]
  | cons p parts ih => simp [Language.mem_add, ih]

/-- A choice of some parts is their branches with the ends joined. -/
theorem choice_eq_joinEnds {parts : List Automaton} (h : ∀ p ∈ parts, p.Valid) (hne : parts ≠ [])
    (symbol : Option Int) :
    choice parts symbol =
      (new.addBranches parts).1.joinEnds (new.addBranches parts).2 symbol := by
  have hbranches := branches_addBranches h
  have hepsilons : ((new.addBranches parts).1.state (new.addBranches parts).1.start).epsilons ≠
      [] := by
    obtain ⟨p, hp⟩ := List.exists_mem_of_ne_nil parts hne
    obtain ⟨f, -, hmem⟩ := hbranches.entry p hp
    exact List.ne_nil_of_mem hmem
  have hchoice : choice parts symbol =
      let d := (new.addBranches parts).1.joinEnds (new.addBranches parts).2 symbol
      if (d.state d.start).epsilons.isEmpty then
        d.addEpsilon d.start (new.addBranches parts).1.states.size
      else d := rfl
  simp only [start_joinEnds, hbranches.state_start_joinEnds, List.isEmpty_iff, hepsilons,
    if_false] at hchoice
  exact hchoice

/-- A choice accepts the texts of its parts. -/
theorem recognizes_choice {parts : List Automaton} (h : ∀ p ∈ parts, p.Valid)
    (hne : parts ≠ []) (symbol : Option Int) :
    (choice parts symbol).Recognizes (parts.map texts).sum symbol := by
  have hbranches := branches_addBranches h
  rw [choice_eq_joinEnds h hne]
  generalize (new.addBranches parts).1 = c at hbranches
  generalize (new.addBranches parts).2 = ends at hbranches
  have hstart := hbranches.state_start_joinEnds symbol
  refine ⟨hbranches.valid.joinEnds ends symbol, fun w s => ?_⟩
  rw [start_joinEnds, yields_hub_iff (by rw [hstart, hbranches.start_accepting])
    (by rw [hstart, hbranches.start_edges]), hstart, mem_sum_texts]
  constructor
  · rintro ⟨x, hx, hy⟩
    obtain ⟨p, hp, f, hf, rfl⟩ := hbranches.epsilon x hx
    obtain ⟨hw, hs⟩ := (hf.yields_joinEnds_iff hbranches.ends_accepting).mp hy
    exact ⟨⟨p, hp, hw⟩, hs⟩
  · rintro ⟨⟨p, hp, hw⟩, hs⟩
    obtain ⟨f, hf, hmem⟩ := hbranches.entry p hp
    exact ⟨_, hmem, (hf.yields_joinEnds_iff hbranches.ends_accepting).mpr ⟨hw, hs⟩⟩

end Automaton

end FiberLex
