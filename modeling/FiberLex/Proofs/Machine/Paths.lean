import FiberLex.Proofs.Machine.FirstMatch

/-!
# Paths

A path follows one successor after the other. A search that finds a match has followed a path to it
(`exists_path_of_explore`), and one that has entered nothing before and finds none has been wherever
a path leads (`not_matched_of_explore`). So a search misses no match, although it enters a pair of
address and place once only and programs may run in circles without consuming.
-/

namespace FiberLex.Backtrack

variable {text : List Char} {code : Array Instr}

/-- A path of so many instructions from one configuration to another. -/
inductive Path (code : Array Instr) : Nat → Config text → Config text → Prop where
  /-- Nothing is executed. -/
  | refl (x : Config text) : Path code 0 x x
  /-- An instruction is executed, and the path goes on from one of the successors. -/
  | step {n : Nat} {x y z : Config text} {i : Instr} (hx : code[x.address]? = some i)
      (hy : y ∈ successors i x) (h : Path code n y z) : Path code (n + 1) x z

theorem Path.trans {n m : Nat} {x y z : Config text} (h : Path code n x y)
    (h' : Path code m y z) : Path code (n + m) x z := by
  induction h with
  | refl => rwa [Nat.zero_add]
  | step hx hy _ ih =>
    rw [Nat.add_right_comm]
    exact .step hx hy (ih h')

/-- The configuration is at an instruction that reports a match. -/
def Matched (code : Array Instr) (y : Config text) (m : Match) : Prop :=
  ∃ i, code[y.address]? = some i ∧ found? i y = some m

/-- A match that is found is at the end of a path. -/
theorem exists_path_of_explore (e : Entered code text) (stack : List (Config text)) {m : Match}
    (h : (explore code e stack).1 = some m) :
    ∃ x ∈ stack, ∃ n y, Path code n x y ∧ Matched code y m := by
  fun_induction explore code e stack with
  | case1 e => cases h
  | case2 e x rest hx hnew m' hm =>
    obtain rfl := Option.some.inj h
    exact ⟨x, List.mem_cons_self, 0, x, .refl x, _, Array.getElem?_eq_getElem hx, hm⟩
  | case3 e x rest hx hnew hm ih =>
    obtain ⟨z, hz, n, y, hpath, hmatched⟩ := ih h
    rcases List.mem_append.mp hz with hz | hz
    · have hcode : code[x.address]? = some code[x.address] := Array.getElem?_eq_getElem hx
      exact ⟨x, List.mem_cons_self, n + 1, y, .step hcode hz hpath, hmatched⟩
    · exact ⟨z, List.mem_cons_of_mem _ hz, n, y, hpath, hmatched⟩
  | case4 e x rest hx hnew ih =>
    obtain ⟨z, hz, hpath⟩ := ih h
    exact ⟨z, List.mem_cons_of_mem _ hz, hpath⟩
  | case5 e x rest hx ih =>
    obtain ⟨z, hz, hpath⟩ := ih h
    exact ⟨z, List.mem_cons_of_mem _ hz, hpath⟩

/-! ## Searches in vain -/

/-- The pair of a configuration has been entered, unless it is outside the program. -/
def HasEntered (e : Entered code text) (x : Config text) : Prop :=
  ∀ h : x.address < code.size, (⟨x.address, h⟩, x.place) ∈ e

theorem HasEntered.of_key {e : Entered code text} {x y : Config text} (h : HasEntered e x)
    (hkey : x.key = y.key) : HasEntered e y := by
  obtain ⟨a, k, s⟩ := x
  obtain ⟨b, l, t⟩ := y
  obtain ⟨rfl, rfl⟩ : a = b ∧ k = l := by simpa [Config.key] using hkey
  exact h

/-- At a configuration there is no match, and its successors have been entered. -/
def Exhausted (e : Entered code text) (x : Config text) : Prop :=
  ∀ i, code[x.address]? = some i → found? i x = none ∧ ∀ y ∈ successors i x, HasEntered e y

theorem Exhausted.of_key {e : Entered code text} {x y : Config text} (h : Exhausted e x)
    (hkey : x.key = y.key) : Exhausted e y := by
  intro i hi
  have haddress : x.address = y.address := congrArg Prod.fst hkey
  obtain ⟨hm, hsucc⟩ := h i (haddress ▸ hi)
  refine ⟨found?_eq_none_iff_of_key.mp hm, fun z hz => ?_⟩
  have hmem : z.key ∈ (successors i x).map Config.key := by
    rw [map_key_successors hkey]
    exact List.mem_map_of_mem hz
  obtain ⟨z', hz', hkey'⟩ := List.mem_map.mp hmem
  exact (hsucc z' hz').of_key hkey'

/-- A search in vain keeps what has been entered and enters its stack, and everything it enters is
exhausted. -/
theorem explore_in_vain (e : Entered code text) (stack : List (Config text))
    (h : (explore code e stack).1 = none) :
    e ⊆ (explore code e stack).2 ∧ (∀ x ∈ stack, HasEntered (explore code e stack).2 x) ∧
      ∀ (y : Config text) (hy : y.address < code.size),
        (⟨y.address, hy⟩, y.place) ∈ (explore code e stack).2 →
        (⟨y.address, hy⟩, y.place) ∉ e → Exhausted (explore code e stack).2 y := by
  fun_induction explore code e stack with
  | case1 e => exact ⟨Finset.Subset.refl e, by simp, fun y hy hin hout => absurd hin hout⟩
  | case2 e x rest hx hnew m hm => cases h
  | case3 e x rest hx hnew hm ih =>
    obtain ⟨hsub, hstack, hdone⟩ := ih h
    obtain ⟨hxe, hee⟩ := Finset.insert_subset_iff.mp hsub
    refine ⟨hee, ?_, fun y hy hin hout => ?_⟩
    · intro z hz
      rcases List.mem_cons.mp hz with rfl | hz
      · exact fun _ => hxe
      · exact hstack z (List.mem_append_right _ hz)
    · by_cases hxy : x.key = y.key
      · have hexhausted : Exhausted (explore code (insert (⟨x.address, hx⟩, x.place) e)
            (successors code[x.address] x ++ rest)).2 x := by
          intro i hi
          obtain rfl : code[x.address] = i := by
            simpa [Array.getElem?_eq_getElem hx] using hi
          exact ⟨hm, fun z hz => hstack z (List.mem_append_left _ hz)⟩
        exact hexhausted.of_key hxy
      · refine hdone y hy hin fun hmem => ?_
        rcases Finset.mem_insert.mp hmem with heq | hmem
        · refine hxy ?_
          obtain ⟨ha, hk⟩ := Prod.mk.inj heq
          exact Prod.ext (Fin.mk.inj ha).symm hk.symm
        · exact hout hmem
  | case4 e x rest hx hnew ih =>
    obtain ⟨hsub, hstack, hdone⟩ := ih h
    refine ⟨hsub, List.forall_mem_cons.mpr ⟨fun _ => hsub (not_not.mp hnew), hstack⟩, hdone⟩
  | case5 e x rest hx ih =>
    obtain ⟨hsub, hstack, hdone⟩ := ih h
    exact ⟨hsub, List.forall_mem_cons.mpr ⟨fun hlt => absurd hlt hx, hstack⟩, hdone⟩

/-- After a search in vain that had entered nothing before, no path leads to a match. -/
theorem not_matched_of_explore {stack : List (Config text)} (h : (explore code ∅ stack).1 = none)
    {x y : Config text} (hx : x ∈ stack) {n : Nat} (hpath : Path code n x y) (m : Match) :
    ¬ Matched code y m := by
  obtain ⟨-, hstack, hdone⟩ := explore_in_vain ∅ stack h
  have hexhausted : ∀ z : Config text, HasEntered (explore code ∅ stack).2 z →
      Exhausted (explore code ∅ stack).2 z := by
    intro z hz i hi
    have hlt : z.address < code.size := (Array.getElem?_eq_some_iff.mp hi).1
    exact hdone z hlt (hz hlt) (Finset.notMem_empty _) i hi
  -- every configuration of the path has been entered
  have hentered := hstack x hx
  clear hx
  induction hpath with
  | refl x =>
    rintro ⟨i, hi, hm⟩
    rw [(hexhausted x hentered i hi).1] at hm
    cases hm
  | step hx hy _ ih => exact ih ((hexhausted _ hentered _ hx).2 _ hy)

/-- A search from nothing finds a match exactly if a path leads to one. -/
theorem explore_eq_none_iff {stack : List (Config text)} :
    (explore code ∅ stack).1 = none ↔
      ∀ x ∈ stack, ∀ n y, Path code n x y → ∀ m, ¬ Matched code y m := by
  constructor
  · intro h x hx n y hpath m
    exact not_matched_of_explore h hx hpath m
  · intro h
    cases hres : (explore code ∅ stack).1 with
    | none => rfl
    | some m =>
      obtain ⟨x, hx, n, y, hpath, hm⟩ := exists_path_of_explore ∅ stack hres
      exact absurd hm (h x hx n y hpath m)

end FiberLex.Backtrack
