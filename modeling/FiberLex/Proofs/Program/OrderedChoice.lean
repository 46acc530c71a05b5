import FiberLex.Proofs.Machine.Lockstep
import FiberLex.Proofs.Program.Execution
import FiberLex.Proofs.Program.Targets

/-!
# Linked fragments are an ordered choice

A fragment that keeps to itself (`SelfContained`) is searched the same way wherever it stands in a
program: every configuration is moved along with it, and so is what has been entered
(`explore_moved`). Fragments that stand one after the other share no address, so none finds less for
what those before it have entered. The first fragment that finds a match on its own therefore
decides what the linked program finds, and the fallback decides if there is none.
-/

namespace FiberLex

/-- Whether control never goes on to the next address. -/
def Instr.diverts : Instr → Bool
  | .jump _ | .switch _ _ | .accept _ => true
  | _ => false

open Backtrack

namespace Program

/-- A fragment that control does not leave: it has instructions, its targets are inside, and control
does not go on behind its last instruction. -/
structure SelfContained (fragment : Program) : Prop extends Runnable fragment where
  last : ∀ i, fragment.getLast? = some i → i.diverts = true

section Moved

variable {text : List Char} {fragment : Program} {i : Instr} {base : Nat}

/-- The configuration with its address moved. -/
def moved (base : Nat) (x : Config text) : Config text := x.goto (x.address + base)

theorem found?_moved (x : Config text) :
    found? (i.mapTargets (· + base)) (moved base x) = found? i x := by
  cases i <;> rfl

theorem map_moved_consumeTo (x : Config text) (t : Nat) :
    (x.consumeTo t).map (moved base) = (moved base x).consumeTo (t + base) :=
  apply_dite (List.map (moved base)) ..

theorem map_moved_goto (x : Config text) (ts : List Nat) :
    (ts.map x.goto).map (moved base) = (ts.map (· + base)).map (moved base x).goto := by
  rw [List.map_map, List.map_map]
  rfl

/-- Where a moved instruction leads is moved along. -/
theorem successors_moved (x : Config text) :
    successors (i.mapTargets (· + base)) (moved base x) =
      (successors i x).map (moved base) := by
  cases i with
  | jump targets => exact (map_moved_goto x targets).symm
  | save slot =>
    simp only [successors, Instr.mapTargets, List.map_singleton, moved, Config.goto,
      Nat.add_right_comm _ 1]
    rfl
  | accept symbol => rfl
  | switch cases otherwise =>
    have hfind : ((moved base x).next?.bind fun c =>
        (cases.map fun k : Case => { k with target := k.target + base }).find?
          (·.set.contains c.toNat)) =
        (x.next?.bind fun c => cases.find? (·.set.contains c.toNat)).map
          fun k => { k with target := k.target + base } := by
      show (x.next?.bind _) = _
      cases x.next? with
      | none => rfl
      | some c => exact List.find?_map ..
    simp only [successors, Instr.mapTargets, hfind]
    cases x.next?.bind fun c => cases.find? (·.set.contains c.toNat) with
    | none => exact (map_moved_goto x otherwise).symm
    | some k => exact (map_moved_consumeTo x k.target).symm
  | _ =>
    simp only [successors, Instr.mapTargets, apply_ite (List.map (moved base)),
      map_moved_consumeTo, List.map_nil, Nat.add_right_comm _ 1]
    rfl

/-- Control does not leave a fragment that keeps to itself. -/
theorem SelfContained.address_lt (hf : SelfContained fragment) {x y : Config text}
    (hi : fragment[x.address]? = some i) (hy : y ∈ successors i x) :
    y.address < fragment.length := by
  have htargets := hf.targetsBelow i (List.mem_of_getElem? hi)
  have hnext : i.diverts = false → x.address + 1 < fragment.length := by
    intro hdiverts
    have hlt := (List.getElem?_eq_some_iff.mp hi).1
    by_contra hge
    have hlast : fragment.getLast? = some i := by
      rw [List.getLast?_eq_getElem?, show fragment.length - 1 = x.address by omega, hi]
    rw [hf.last i hlast] at hdiverts
    cases hdiverts
  have hconsume : ∀ {t : Nat}, y ∈ x.consumeTo t → y.address = t := by
    intro t hy
    unfold Config.consumeTo at hy
    split at hy
    · rw [List.mem_singleton.mp hy]
    · cases hy
  cases i with
  | jump targets =>
    obtain ⟨t, ht, rfl⟩ := List.mem_map.mp hy
    exact htargets t ht
  | save slot =>
    rw [List.mem_singleton.mp hy]
    exact hnext rfl
  | switch cases otherwise =>
    simp only [successors] at hy
    split at hy
    · rename_i k hk
      obtain ⟨c, -, hk⟩ := Option.bind_eq_some_iff.mp hk
      rw [hconsume hy]
      exact htargets _ (List.mem_append_left _ (List.mem_map_of_mem (List.mem_of_find?_eq_some hk)))
    · obtain ⟨t, ht, rfl⟩ := List.mem_map.mp hy
      exact htargets t (List.mem_append_right _ ht)
  | accept symbol => cases hy
  | _ =>
    simp only [successors] at hy
    split at hy
    · rw [hconsume hy]
      exact hnext rfl
    · cases hy

/-! ## Searching a fragment that has been moved -/

variable {code : Array Instr}

/-- From an address on, exactly the moved pairs have been entered. -/
def EnteredFrom (base : Nat) (e : Entered fragment.toArray text) (e' : Entered code text) : Prop :=
  ∀ (a : Fin code.size) k, base ≤ a.val →
    ((a, k) ∈ e' ↔ ∃ h : a.val - base < fragment.toArray.size, (⟨a.val - base, h⟩, k) ∈ e)

theorem EnteredFrom.insert {e : Entered fragment.toArray text} {e' : Entered code text}
    (h : EnteredFrom base e e') {a : Nat} (ha : a < fragment.toArray.size)
    (ha' : a + base < code.size) (k : Fin (text.length + 1)) :
    EnteredFrom base (insert (⟨a, ha⟩, k) e) (insert (⟨a + base, ha'⟩, k) e') := by
  intro b l hb
  rw [Finset.mem_insert, h b l hb]
  constructor
  · rintro (heq | ⟨hlt, hmem⟩)
    · obtain ⟨rfl, rfl⟩ := Prod.mk.inj heq
      simp only [Nat.add_sub_cancel]
      exact ⟨ha, Finset.mem_insert_self _ _⟩
    · exact ⟨hlt, Finset.mem_insert_of_mem hmem⟩
  · rintro ⟨hlt, hmem⟩
    rcases Finset.mem_insert.mp hmem with heq | hmem
    · obtain ⟨hfin, rfl⟩ := Prod.mk.inj heq
      have hval : b.val - base = a := Fin.mk.inj hfin
      left
      exact Prod.ext (Fin.ext (by simp only; omega)) rfl
    · exact Or.inr ⟨hlt, hmem⟩

theorem EnteredFrom.mem_iff {e : Entered fragment.toArray text} {e' : Entered code text}
    (h : EnteredFrom base e e') {a : Nat} (ha : a < fragment.toArray.size)
    (ha' : a + base < code.size) (k : Fin (text.length + 1)) :
    (⟨a + base, ha'⟩, k) ∈ e' ↔ (⟨a, ha⟩, k) ∈ e := by
  rw [h _ k (Nat.le_add_left base a)]
  simp only [Nat.add_sub_cancel]
  exact ⟨fun ⟨_, hmem⟩ => hmem, fun hmem => ⟨ha, hmem⟩⟩

/-- A fragment that has been moved is searched as it is on its own. -/
theorem explore_moved (hf : SelfContained fragment)
    (hat : CodeAt code base (fragment.relocate base))
    (e : Entered fragment.toArray text) (stack : List (Config text))
    (hstack : ∀ x ∈ stack, x.address < fragment.length) {e' : Entered code text}
    (h : EnteredFrom base e e') :
    (explore code e' (stack.map (moved base))).1 = (explore fragment.toArray e stack).1 ∧
      EnteredFrom base (explore fragment.toArray e stack).2
        (explore code e' (stack.map (moved base))).2 := by
  have hcode : ∀ {a : Nat} (ha : a < fragment.toArray.size), ∃ ha' : a + base < code.size,
      code[a + base] = fragment.toArray[a].mapTargets (· + base) := by
    intro a ha
    have hget : (fragment.relocate base)[a]? =
        some (fragment.toArray[a].mapTargets (· + base)) := by
      rw [relocate, List.getElem?_map, ← List.getElem?_toArray, Array.getElem?_eq_getElem ha]
      rfl
    rw [Nat.add_comm a]
    exact Array.getElem?_eq_some_iff.mp (hat a _ hget)
  fun_induction explore fragment.toArray e stack generalizing e' with
  | case1 e => exact ⟨by rw [List.map_nil, explore], by rwa [List.map_nil, explore]⟩
  | case2 e x rest hx hnew m hm =>
    obtain ⟨hx', hinstr⟩ := hcode hx
    have hnew' := mt (h.mem_iff hx hx' x.place).mp hnew
    have hm' : found? code[x.address + base] (moved base x) = some m := by
      rw [hinstr, found?_moved, hm]
    rw [List.map_cons, explore_found hx' hnew' hm']
    exact ⟨rfl, h⟩
  | case3 e x rest hx hnew hm ih =>
    obtain ⟨hx', hinstr⟩ := hcode hx
    have hnew' := mt (h.mem_iff hx hx' x.place).mp hnew
    have hm' : found? code[x.address + base] (moved base x) = none := by
      rw [hinstr, found?_moved, hm]
    have hsucc : successors code[x.address + base] (moved base x) =
        (successors fragment.toArray[x.address] x).map (moved base) := by
      rw [hinstr, successors_moved]
    have hinside : ∀ y ∈ successors fragment.toArray[x.address] x ++ rest,
        y.address < fragment.length := by
      intro y hy
      rcases List.mem_append.mp hy with hy | hy
      · exact hf.address_lt (by rw [← List.getElem?_toArray, Array.getElem?_eq_getElem hx]) hy
      · exact hstack y (List.mem_cons_of_mem _ hy)
    rw [List.map_cons, explore_step hx' hnew' hm']
    have hstep := ih hinside (h.insert hx hx' x.place)
    rw [List.map_append, ← hsucc] at hstep
    exact hstep
  | case4 e x rest hx hnew ih =>
    obtain ⟨hx', -⟩ := hcode hx
    have hmem := (h.mem_iff hx hx' x.place).mpr (not_not.mp hnew)
    rw [List.map_cons, explore_entered hx' hmem]
    exact ih (fun y hy => hstack y (List.mem_cons_of_mem _ hy)) h
  | case5 e x rest hx ih =>
    -- the stack is inside the fragment
    exact absurd (hstack x List.mem_cons_self) hx

end Moved

/-! ## Fragments one after the other -/

section Placed

variable {text : List Char} {code : Array Instr} {base : Nat}

/-- Before a fragment is searched, nothing has been entered from its first address on. -/
theorem enteredFrom_empty {fragment : Program} {e : Entered code text}
    (h : ∀ p ∈ e, p.1.val < base) :
    EnteredFrom base (∅ : Entered fragment.toArray text) e := by
  intro a k hle
  constructor
  · intro hmem
    exact absurd (h _ hmem) (Nat.not_lt.mpr hle)
  · rintro ⟨_, hmem⟩
    exact absurd hmem (Finset.notMem_empty _)

/-- Afterwards, nothing has been entered from its end on. -/
theorem EnteredFrom.lt {fragment : Program} {e : Entered fragment.toArray text}
    {e' : Entered code text} (h : EnteredFrom base e e') :
    ∀ p ∈ e', p.1.val < base + fragment.length := by
  rintro ⟨a, k⟩ hmem
  by_cases hle : base ≤ a.val
  · obtain ⟨hsize, -⟩ := (h a k hle).mp hmem
    have hlt : a.val - base < fragment.length := hsize
    simp only
    omega
  · simp only
    omega

/-- The fragments are searched in order, each as on its own, up to the first that finds a match. -/
theorem explore_place {fragments : List Program} (hf : ∀ f ∈ fragments, SelfContained f)
    (hat : CodeAt code base (place base fragments).2) {e : Entered code text}
    (he : ∀ p ∈ e, p.1.val < base) :
    (explore code e ((place base fragments).1.map (start text).goto)).1 =
      fragments.findSome? (search · text) := by
  induction fragments generalizing base e with
  | nil => rw [place, List.map_nil, explore, List.findSome?_nil]
  | cons fragment fragments ih =>
    obtain ⟨hfragment, hrest⟩ := List.forall_mem_cons.mp hf
    obtain ⟨hat, hatRest⟩ := codeAt_append.mp hat
    rw [length_relocate] at hatRest
    have hstack : ∀ x ∈ [start text], x.address < fragment.length :=
      List.forall_mem_singleton.mpr (List.length_pos_iff.mpr hfragment.ne_nil)
    have hentry : [start text].map (moved base) = [(start text).goto base] := by
      simp [moved, start]
    obtain ⟨hfound, hentered⟩ := explore_moved hfragment hat ∅ [start text] hstack
      (enteredFrom_empty he)
    rw [hentry] at hfound hentered
    rw [place, List.map_cons, ← List.singleton_append, explore_append, List.findSome?_cons]
    have halone : search fragment text = (explore code e [(start text).goto base]).1 := hfound.symm
    rw [halone]
    cases hres : explore code e [(start text).goto base] with
    | mk found e' =>
      cases found with
      | some m => rfl
      | none =>
        rw [hres] at hentered
        exact ih hrest hatRest hentered.lt

end Placed

/-! ## Fragments of rules and of automata -/

/-- A body that is left at its end only becomes self-contained when it is ended. -/
theorem selfContained_terminate {body : Program} (h : TargetsBelow (body.length + 1) body)
    (symbol : Int) : SelfContained (terminate body symbol) := by
  refine ⟨⟨by simp [terminate], ?_⟩, ?_⟩
  · rw [terminate, List.length_append, targetsBelow_append]
    exact ⟨h.mono (by simp), by simp [Instr.targets]⟩
  · intro i hi
    obtain rfl : .accept symbol = i := by simpa [terminate] using hi
    rfl

theorem selfContained_fallback : SelfContained fallback := by
  have hany : TargetsBelow 2 [.any] := by simp [Instr.targets]
  exact selfContained_terminate hany errorSymbol

/-- A rule whose bounds are in order has code, lazy or not, and the code is self-contained. -/
theorem exists_ofRule {p : Pattern} (h : p.InOrder) (symbol : Int) :
    ∃ code, ofRule p symbol = .ok code ∧ SelfContained code := by
  obtain ⟨body, hbody, htargets⟩ := fits_code h 0
  refine ⟨terminate body symbol, Scan.bind_eq_ok.mpr ⟨body, hbody, rfl⟩, ?_⟩
  exact selfContained_terminate (by rwa [Nat.zero_add] at htargets) symbol

/-- If control does not go on behind any of several parts, it does not go on behind all of them. -/
theorem diverts_getLast?_flatMap {α : Type} {f : α → Program} {xs : List α}
    (h : ∀ x ∈ xs, ∀ i, (f x).getLast? = some i → i.diverts = true) :
    ∀ i, (xs.flatMap f).getLast? = some i → i.diverts = true := by
  induction xs with
  | nil => simp
  | cons x xs ih =>
    obtain ⟨hx, hxs⟩ := List.forall_mem_cons.mp h
    intro i hi
    rw [List.flatMap_cons, List.getLast?_append, Option.or_eq_some_iff] at hi
    rcases hi with hi | ⟨-, hi⟩
    · exact ih hxs i hi
    · exact hx i hi

/-- The code of an automaton is self-contained. -/
theorem selfContained_codeOf {a : Automaton} (ha : a.Deterministic) (hs : a.Symbolled) :
    SelfContained (codeOf a) := by
  refine ⟨⟨?_, ?_⟩, ?_⟩
  · intro hnil
    have hpos := totalSize_closure_pos ha.valid
    rw [← length_segments ha hs (layoutOf a) 0, (List.append_eq_nil_iff.mp hnil).1] at hpos
    cases hpos
  · by_cases hstart : (a.state a.start).edges = []
    · rw [codeOf_of_terminal ha hs hstart]
      cases acceptOf a a.start <;> simp [Instr.targets]
    · exact (forward_codeOf ha hs hstart).targetsBelow
  · intro i hi
    rw [codeOf, List.getLast?_append, Option.or_eq_some_iff] at hi
    rcases hi with hi | ⟨-, hi⟩
    · refine diverts_getLast?_flatMap (fun symbol _ j hj => ?_) i hi
      have hend : SelfContained (terminate [] symbol) :=
        selfContained_terminate targetsBelow_nil symbol
      exact hend.last j hj
    · refine diverts_getLast?_flatMap (fun q _ j hj => ?_) i hi
      rw [stateCode_eq ha] at hj
      split at hj
      · cases hj
        rfl
      · split at hj <;> cases hj <;> rfl

/-! ## The linked program -/

/-- The fallback takes one character, if there is one. -/
theorem search_fallback (text : List Char) :
    search fallback text = text.head?.map fun c => ⟨errorSymbol, 0, c.utf8Size⟩ := by
  have hfinds := finds_fallback (p := fallback) (x := start text) ⟨rfl, rfl, rfl⟩
  rw [search_eq_of_finds hfinds, next?_eq_head?]
  cases text with
  | nil => rfl
  | cons c cs => simp [report, start]

theorem place_append_singleton (base : Nat) (fragments : List Program) (last : Program) :
    place base (fragments ++ [last]) =
      ((place base fragments).1 ++ [base + (place base fragments).2.length],
        (place base fragments).2 ++ last.relocate (base + (place base fragments).2.length)) := by
  induction fragments generalizing base with
  | nil => simp [place]
  | cons fragment fragments ih =>
    simp only [List.cons_append, place, ih, List.length_append, length_relocate, List.append_assoc,
      Nat.add_assoc]

/-- The fallback is the last of the fragments. -/
theorem linkFragments_eq (fragments : List Program) :
    linkFragments fragments =
      .save 0 :: .jump (place 2 (fragments ++ [fallback])).1 ::
        (place 2 (fragments ++ [fallback])).2 := by
  rw [place_append_singleton]
  rfl

/-- The beginning of the match is recorded, and every place of the list is tried in order. -/
theorem search_fanout (entries : List Nat) (rest : Program) (text : List Char) :
    ∃ e : Entered (.save 0 :: .jump entries :: rest : Program).toArray text,
      (∀ p ∈ e, p.1.val < 2) ∧
        search (.save 0 :: .jump entries :: rest) text =
          (explore (.save 0 :: .jump entries :: rest : Program).toArray e
            (entries.map (start text).goto)).1 := by
  generalize hp : (.save 0 :: .jump entries :: rest : Program) = p
  have hsave : p.toArray[0]? = some (.save 0) := by simp [← hp]
  have hjump : p.toArray[1]? = some (.jump entries) := by simp [← hp]
  obtain ⟨h₀, hsave⟩ := Array.getElem?_eq_some_iff.mp hsave
  obtain ⟨h₁, hjump⟩ := Array.getElem?_eq_some_iff.mp hjump
  refine ⟨insert (⟨1, h₁⟩, 0) (insert (⟨0, h₀⟩, 0) ∅), ?_, ?_⟩
  · intro q hq
    simp only [Finset.mem_insert, Finset.notMem_empty, or_false] at hq
    rcases hq with rfl | rfl
    · exact Nat.one_lt_two
    · exact Nat.zero_lt_two
  · have hfound₀ : found? p.toArray[0] (start text) = none := by rw [hsave]; rfl
    have hfound₁ : found? p.toArray[1] ((start text).goto 1) = none := by rw [hjump]; rfl
    have hnext₀ : successors p.toArray[0] (start text) ++ [] = [(start text).goto 1] := by
      rw [hsave]
      rfl
    have hnext₁ : successors p.toArray[1] ((start text).goto 1) ++ [] =
        entries.map (start text).goto := by
      rw [hjump, List.append_nil]
      rfl
    have hnew : (⟨1, h₁⟩, (0 : Fin (text.length + 1))) ∉
        (insert (⟨0, h₀⟩, 0) ∅ : Entered p.toArray text) := by simp
    calc search p text
        = (explore p.toArray (insert (⟨0, h₀⟩, 0) ∅)
            (successors p.toArray[0] (start text) ++ [])).1 :=
          congrArg Prod.fst (explore_step h₀ (Finset.notMem_empty _) hfound₀)
      _ = (explore p.toArray (insert (⟨0, h₀⟩, 0) ∅) [(start text).goto 1]).1 := by rw [hnext₀]
      _ = (explore p.toArray (insert (⟨1, h₁⟩, 0) (insert (⟨0, h₀⟩, 0) ∅))
            (successors p.toArray[1] ((start text).goto 1) ++ [])).1 :=
          congrArg Prod.fst (explore_step h₁ hnew hfound₁)
      _ = _ := by rw [hnext₁]

theorem search_linkFragments {fragments : List Program} (h : ∀ f ∈ fragments, SelfContained f)
    (text : List Char) :
    search (linkFragments fragments) text =
      (fragments.findSome? (search · text)).or (search fallback text) := by
  have hall : ∀ f ∈ fragments ++ [fallback], SelfContained f :=
    List.forall_mem_append.mpr ⟨h, List.forall_mem_singleton.mpr selfContained_fallback⟩
  have hat := codeAt_self (linkFragments fragments)
  rw [linkFragments_eq] at hat ⊢
  obtain ⟨-, hat⟩ := codeAt_cons.mp hat
  obtain ⟨-, hat⟩ := codeAt_cons.mp hat
  obtain ⟨e, he, hsearch⟩ := search_fanout (place 2 (fragments ++ [fallback])).1 _ text
  rw [hsearch, explore_place hall hat he, List.findSome?_append, List.findSome?_singleton]

/-- Linked fragments find what the first of them finds that finds a match on its own, however far
later fragments would match. If none does, the first character is an error, and an empty text has no
match. This is said of runs that have room for their slots, as they all have if the fragments record
in slots below `slotLimit`. -/
theorem run_linkFragments_ordered {fragments : List Program}
    (h : ∀ f ∈ fragments, SelfContained f) (text : String) :
    ((Machine.ofProgram (linkFragments fragments)).run (.ofString text)).result =
      (fragments.findSome? fun f => ((Machine.ofProgram f).run (.ofString text)).result).or
        (text.toList.head?.map fun c => ⟨errorSymbol, 0, c.utf8Size⟩) := by
  have hrun : ∀ p, ((Machine.ofProgram p).run (.ofString text)).result = search p text.toList :=
    fun p => Machine.run_result _ _
  simp only [hrun]
  rw [search_linkFragments h, search_fallback]

/-- A letter, any number of that letter, and one or more of the next with no end recorded. -/
def rivals : List Program :=
  [[.char 97, .save 1, .accept 0],
    [.jump [1, 3], .char 97, .jump [0], .save 1, .accept 1],
    [.switch [⟨#[⟨98, 98⟩], 1⟩] [], .jump [0, 3], .jump [], .accept 2]]

theorem run_linkFragments_ordered_rivals :
    (∀ f ∈ rivals, SelfContained f) ∧
      ((Machine.ofProgram (linkFragments rivals)).run (.ofString "aab")).result =
        (rivals.findSome? fun f => ((Machine.ofProgram f).run (.ofString "aab")).result).or
          ("aab".toList.head?.map fun c => ⟨errorSymbol, 0, c.utf8Size⟩) := by
  have hrivals : ∀ f ∈ rivals, SelfContained f := by
    simp only [rivals, List.forall_mem_cons]
    refine ⟨⟨⟨by simp, ?_⟩, ?_⟩, ⟨⟨by simp, ?_⟩, ?_⟩, ⟨⟨by simp, ?_⟩, ?_⟩, by simp⟩
    all_goals simp [Instr.targets, Instr.diverts]
  exact ⟨hrivals, run_linkFragments_ordered hrivals "aab"⟩

end Program

end FiberLex
