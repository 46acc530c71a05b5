import FiberLex.Program.Link
import FiberLex.Proofs.Program.OfAutomaton

/-!
# Linked code

What becomes of the code of an automaton when it is linked. Where the start has edges, no jump is
removed: the code is moved behind the beginning of the program, and if the start does not accept,
its switch takes over the choice of the fallback. Where the start has no edges there are but a few
instructions. Control only ever goes on to later addresses without consuming (`Forward`), no jump is
idle, and the program is valid.
-/

namespace FiberLex.Program

open Automaton Backtrack

variable {a : Automaton} {code : Program} {own : Nat → Nat} {finish : Int → Nat}
  {otherwise : List Nat}

/-! ## Moved code -/

theorem length_relocate (p : Program) (offset : Nat) : (p.relocate offset).length = p.length :=
  List.length_map _

theorem relocate_cons (i : Instr) (p : Program) (offset : Nat) :
    relocate (i :: p) offset = i.mapTargets (· + offset) :: p.relocate offset := rfl

/-- Moved code has the same instructions, with targets that are moved along. -/
theorem getElem?_relocate {k : Nat} {i : Instr} (h : code[k]? = some i)
    (before after : Program) :
    (before ++ code.relocate before.length ++ after)[k + before.length]? =
      some (i.mapTargets (· + before.length)) := by
  have hlt : k < code.length := (List.getElem?_eq_some_iff.mp h).1
  have hlen := length_relocate code before.length
  rw [List.getElem?_append_left (by rw [List.length_append]; omega),
    List.getElem?_append_right (by omega), Nat.add_sub_cancel, relocate, List.getElem?_map, h]
  rfl

/-- The program has the code from an address on. -/
def CodeAt (p : Array Instr) (base : Nat) (code : Program) : Prop :=
  ∀ k i, code[k]? = some i → p[base + k]? = some i

theorem codeAt_cons {p : Array Instr} {c : Program} {base : Nat} {i : Instr} :
    CodeAt p base (i :: c) ↔ p[base]? = some i ∧ CodeAt p (base + 1) c := by
  constructor
  · intro h
    refine ⟨h 0 i rfl, fun k j hj => ?_⟩
    rw [Nat.add_assoc, Nat.add_comm 1]
    exact h (k + 1) j hj
  · rintro ⟨hi, hc⟩ k j hj
    cases k with
    | zero =>
      obtain rfl := Option.some.inj hj
      exact hi
    | succ k =>
      rw [Nat.add_comm k, ← Nat.add_assoc]
      exact hc k j hj

theorem codeAt_append {p : Array Instr} {c d : Program} {base : Nat} :
    CodeAt p base (c ++ d) ↔ CodeAt p base c ∧ CodeAt p (base + c.length) d := by
  induction c generalizing base with
  | nil => simp [CodeAt]
  | cons i c ih =>
    rw [List.cons_append, codeAt_cons, codeAt_cons, ih, List.length_cons, and_assoc, Nat.add_assoc,
      Nat.add_comm 1]

theorem codeAt_self (p : Program) : CodeAt p.toArray 0 p := by
  intro k i hi
  rwa [Nat.zero_add, List.getElem?_toArray]

theorem Selects.relocate {i : Nat} {cases : List Case} (h : Selects a own i cases) (offset : Nat) :
    Selects a (own · + offset) i (cases.map fun c => { c with target := c.target + offset }) := by
  intro cp
  have hcp := h cp
  rw [List.find?_map, Option.map_map]
  simp only [Function.comp_def]
  calc ((cases.find? (·.set.contains cp)).map fun c => c.target + offset)
      = ((cases.find? (·.set.contains cp)).map (·.target)).map (· + offset) := by
        rw [Option.map_map]
        rfl
    _ = (live? a i cp).map (own · + offset) := by
        rw [hcp, Option.map_map]
        rfl

/-- Code that is moved still has everything at its place. -/
theorem Hosts.relocate (h : Hosts code a own finish otherwise) (before after : Program) :
    Hosts (before ++ code.relocate before.length ++ after) a (own · + before.length)
      (finish · + before.length) (otherwise.map (· + before.length)) := by
  refine ⟨?_, ?_, ?_, ?_⟩
  · intro i symbol hi hsymbol
    obtain ⟨hpos, hsave, haccept⟩ := h.ends i symbol hi hsymbol
    refine ⟨by omega, getElem?_relocate hsave before after, ?_⟩
    rw [Nat.add_right_comm]
    exact getElem?_relocate haccept before after
  · intro i symbol hi hnil hne hsymbol
    rw [h.terminal i symbol hi hnil hne hsymbol]
  · intro i hi hne hacc
    obtain ⟨hpos, cases, hselects, hswitch⟩ := h.rejecting i hi hne hacc
    refine ⟨fun hstart => Nat.lt_add_right _ (hpos hstart), _, hselects.relocate before.length, ?_⟩
    rw [getElem?_relocate hswitch before after, Instr.mapTargets,
      apply_ite (List.map (· + before.length))]
    rfl
  · intro i symbol hi hne hsymbol
    obtain ⟨hpos, cases, hselects, hjump, hswitch⟩ := h.accepting i symbol hi hne hsymbol
    refine ⟨fun hstart => Nat.lt_add_right _ (hpos hstart), _, hselects.relocate before.length,
      ?_, ?_⟩
    · rw [getElem?_relocate hjump before after, Nat.add_right_comm]
      rfl
    · rw [Nat.add_right_comm, getElem?_relocate hswitch before after]
      rfl

/-- The switch of a start that does not accept may be given targets to which control goes on. -/
theorem Hosts.setOtherwise {cases : List Case} {more : Program}
    (h : Hosts (.switch cases [] :: more) a own finish []) (hown : own a.start = 0)
    (hacc : (a.state a.start).accepting = false) (otherwise : List Nat) :
    Hosts (.switch cases otherwise :: more) a own finish otherwise := by
  have hlater : ∀ {k : Nat}, 0 < k → (Instr.switch cases otherwise :: more)[k]? =
      (Instr.switch cases [] :: more)[k]? := by
    intro k hk
    obtain ⟨k, rfl⟩ := Nat.exists_eq_succ_of_ne_zero (by omega : k ≠ 0)
    rfl
  have hne : ∀ {i : Nat} {symbol : Int}, acceptOf a i = some symbol → i ≠ a.start := by
    rintro i symbol hsymbol rfl
    rw [(acceptOf_eq_some_iff.mp hsymbol).1] at hacc
    cases hacc
  refine ⟨?_, h.terminal, ?_, ?_⟩
  · intro i symbol hi hsymbol
    obtain ⟨hpos, hsave, haccept⟩ := h.ends i symbol hi hsymbol
    exact ⟨hpos, (hlater hpos).trans hsave, (hlater (by omega)).trans haccept⟩
  · intro i hi hedges hrejecting
    obtain ⟨hpos, cases', hselects, hswitch⟩ := h.rejecting i hi hedges hrejecting
    by_cases hstart : i = a.start
    · subst hstart
      rw [hown] at hswitch ⊢
      have heq : cases = cases' := by simpa using hswitch
      subst heq
      exact ⟨fun hne => absurd rfl hne, cases, hselects, by simp⟩
    · refine ⟨hpos, cases', hselects, ?_⟩
      rw [hlater (hpos hstart), hswitch, if_neg hstart, if_neg hstart]
  · intro i symbol hi hedges hsymbol
    obtain ⟨hpos, cases', hselects, hjump, hswitch⟩ := h.accepting i symbol hi hedges hsymbol
    exact ⟨hpos, cases', hselects, (hlater (hpos (hne hsymbol))).trans hjump,
      (hlater (by omega)).trans hswitch⟩

/-! ## Targets within a bound -/

theorem targets_mapTargets (f : Nat → Nat) (i : Instr) :
    (i.mapTargets f).targets = i.targets.map f := by
  cases i <;> simp [Instr.mapTargets, Instr.targets]

/-- All targets are below a bound. -/
def TargetsBelow (bound : Nat) (p : Program) : Prop := ∀ i ∈ p, ∀ t ∈ i.targets, t < bound

section TargetsBelow

variable {bound bound' : Nat} {p q : Program} {i : Instr}

@[simp] theorem targetsBelow_nil : TargetsBelow bound [] := by
  simp [TargetsBelow]

@[simp] theorem targetsBelow_cons :
    TargetsBelow bound (i :: p) ↔ (∀ t ∈ i.targets, t < bound) ∧ TargetsBelow bound p := by
  simp [TargetsBelow]

@[simp] theorem targetsBelow_append :
    TargetsBelow bound (p ++ q) ↔ TargetsBelow bound p ∧ TargetsBelow bound q :=
  List.forall_mem_append

theorem TargetsBelow.mono (h : TargetsBelow bound p) (hle : bound ≤ bound') :
    TargetsBelow bound' p :=
  fun i hi t ht => Nat.lt_of_lt_of_le (h i hi t ht) hle

theorem TargetsBelow.relocate (h : TargetsBelow bound p) (offset : Nat) :
    TargetsBelow (bound + offset) (p.relocate offset) := by
  intro j hj t ht
  obtain ⟨i, hi, rfl⟩ := List.mem_map.mp hj
  rw [targets_mapTargets] at ht
  obtain ⟨u, hu, rfl⟩ := List.mem_map.mp ht
  exact Nat.add_lt_add_right (h i hi u hu) offset

/-- The program has an instruction, and all its targets are inside. -/
structure Runnable (p : Program) : Prop where
  ne_nil : p ≠ []
  targetsBelow : TargetsBelow p.length p

theorem Runnable.validate (h : Runnable p) : p.validate = .ok () := by
  have hnone : p.firstInvalid? = none := by
    rw [firstInvalid?, List.findSome?_eq_none_iff]
    rintro ⟨i, address⟩ hmem
    rw [Option.map_eq_none_iff, List.find?_eq_none]
    intro t ht
    have hlt := h.targetsBelow i (List.fst_mem_of_mem_zipIdx hmem) t ht
    simpa using hlt
  have hempty : ¬ p.isEmpty = true := fun hempty => h.ne_nil (List.isEmpty_iff.mp hempty)
  rw [Program.validate, hnone, if_neg hempty]

end TargetsBelow

/-! ## Control goes forward -/

/-- The addresses to which control may go from an address without consuming. -/
def passTargets (address : Nat) : Instr → List Nat
  | .jump targets => targets
  | .save _ => [address + 1]
  | .switch _ otherwise => otherwise
  | _ => []

/-- From an address on, targets are below a bound, control goes on without consuming to later
addresses only, and no jump only goes to the next address. -/
def Forward (bound : Nat) : Nat → Program → Prop
  | _, [] => True
  | base, i :: rest =>
    (∀ t ∈ i.targets, t < bound) ∧ (∀ t ∈ passTargets base i, base < t) ∧
      i ≠ .jump [base + 1] ∧ Forward bound (base + 1) rest

theorem forward_append {bound base : Nat} {p q : Program} :
    Forward bound base (p ++ q) ↔ Forward bound base p ∧ Forward bound (base + p.length) q := by
  induction p generalizing base with
  | nil => simp [Forward]
  | cons i p ih =>
    simp only [List.cons_append, Forward, ih, List.length_cons, and_assoc]
    rw [Nat.add_assoc, Nat.add_comm 1]

theorem Forward.mono {bound bound' base : Nat} {p : Program} (h : Forward bound base p)
    (hle : bound ≤ bound') : Forward bound' base p := by
  induction p generalizing base with
  | nil => trivial
  | cons i p ih =>
    obtain ⟨htargets, hpass, hidle, hrest⟩ := h
    exact ⟨fun t ht => Nat.lt_of_lt_of_le (htargets t ht) hle, hpass, hidle, ih hrest⟩

theorem Forward.relocate {bound base : Nat} {p : Program} (h : Forward bound base p)
    (offset : Nat) : Forward (bound + offset) (base + offset) (p.relocate offset) := by
  induction p generalizing base with
  | nil => trivial
  | cons i p ih =>
    obtain ⟨htargets, hpass, hidle, hrest⟩ := h
    refine ⟨?_, ?_, ?_, ?_⟩
    · intro t ht
      rw [targets_mapTargets] at ht
      obtain ⟨u, hu, rfl⟩ := List.mem_map.mp ht
      exact Nat.add_lt_add_right (htargets u hu) offset
    · intro t ht
      have hmoved : passTargets (base + offset) (i.mapTargets (· + offset)) =
          (passTargets base i).map (· + offset) := by
        cases i <;> simp [Instr.mapTargets, passTargets, Nat.add_right_comm]
      rw [hmoved] at ht
      obtain ⟨u, hu, rfl⟩ := List.mem_map.mp ht
      exact Nat.add_lt_add_right (hpass u hu) offset
    · intro heq
      cases i <;> simp only [Instr.mapTargets, reduceCtorEq, Instr.jump.injEq] at heq
      rename_i targets
      obtain ⟨t, rfl, ht⟩ := List.map_eq_singleton_iff.mp heq
      exact hidle (by rw [show t = base + 1 by omega])
    · rw [Nat.add_right_comm]
      exact ih hrest

/-- Code in which control goes forward has no idle jump. -/
theorem Forward.idleJumpFrom? {bound base : Nat} {p : Program} (h : Forward bound base p) :
    Program.idleJumpFrom? base p = none := by
  induction p generalizing base with
  | nil => rfl
  | cons i p ih =>
    obtain ⟨-, -, hidle, hrest⟩ := h
    rw [Program.idleJumpFrom?, if_neg hidle, ih hrest]
    rfl

theorem removeDeadCode_eq_self {p : Program} (h : idleJump? p = none) : p.removeDeadCode = p := by
  rw [removeDeadCode]
  split
  · rfl
  · rename_i heq
    rw [h] at heq
    cases heq

/-- What a later part of the code keeps to. -/
theorem Forward.getElem? {bound base k : Nat} {p : Program} {i : Instr}
    (h : Forward bound base p) (hk : p[k]? = some i) :
    (∀ t ∈ i.targets, t < bound) ∧ ∀ t ∈ passTargets (base + k) i, base + k < t := by
  induction p generalizing base k with
  | nil => cases hk
  | cons j p ih =>
    obtain ⟨htargets, hpass, -, hrest⟩ := h
    cases k with
    | zero =>
      cases hk
      exact ⟨htargets, hpass⟩
    | succ k =>
      rw [show base + (k + 1) = base + 1 + k by omega]
      exact ih hrest hk

theorem Forward.targetsBelow {bound base : Nat} {p : Program} (h : Forward bound base p) :
    TargetsBelow bound p := by
  intro i hi
  obtain ⟨k, hk⟩ := List.mem_iff_getElem?.mp hi
  exact (h.getElem? hk).1

/-- Code in which control goes forward within the code is valid. -/
theorem Forward.validate {p : Program} (h : Forward p.length 0 p) (hne : p ≠ []) :
    p.validate = .ok () :=
  Runnable.validate ⟨hne, h.targetsBelow⟩

/-- Where a state is lies within the code. -/
theorem address?_lt (ha : a.Deterministic) (hs : a.Symbolled) {i address : Nat}
    (hi : a.Reaches a.start i) (h : (layoutOf a).address? a i = some address) :
    address < (codeOf a).length := by
  cases hcode : hasCode a i with
  | true =>
    obtain ⟨hmem, haddress⟩ := address?_of_hasCode ha.valid hi hcode
    rw [haddress] at h
    have hpos := codeSize_pos hcode
    have hle := (getElem?_segments ha hs (layoutOf a) hmem).2.2.1
    have hlen := length_segments ha hs (layoutOf a) 0 a.closure
    rw [codeOf, List.length_append]
    cases h
    omega
  | false =>
    rw [Layout.address?, hcode] at h
    split at h
    · rename_i hfalse
      cases hfalse
    · split at h
      · rename_i hacc
        obtain ⟨symbol, hsymbol, rfl⟩ := Option.map_eq_some_iff.mp h
        have hmem := mem_symbolsOf ha.valid hi (acceptOf_eq_some_iff.mpr ⟨hacc, hsymbol⟩)
        exact (List.getElem?_eq_some_iff.mp (getElem?_codeOf_endOf ha hs hmem).2.1).1
      · cases h

theorem casesOf_lt (ha : a.Deterministic) (hs : a.Symbolled) {i t : Nat}
    (hi : a.Reaches a.start i)
    (ht : t ∈ (Instr.switch (casesOf a (layoutOf a) i) []).targets) : t < (codeOf a).length := by
  rw [Instr.targets, List.append_nil] at ht
  obtain ⟨c, hc, rfl⟩ := List.mem_map.mp ht
  obtain ⟨⟨target, set⟩, hp, hc⟩ := List.mem_filterMap.mp hc
  obtain ⟨address, haddress, rfl⟩ := Option.map_eq_some_iff.mp hc
  obtain ⟨e, he, rfl⟩ : ∃ e ∈ (a.state i).edges, e.target = target := by
    obtain ⟨target', htarget, heq⟩ := List.mem_map.mp hp
    obtain ⟨rfl, -⟩ := Prod.mk.inj heq
    exact List.mem_map.mp (List.mem_eraseDups.mp htarget)
  exact address?_lt ha hs (hi.edge he) haddress

/-- Within a state with edges control goes forward: to the switch, or to an end. -/
theorem forward_stateCode (ha : a.Deterministic) (hs : a.Symbolled) {i base : Nat}
    (hi : a.Reaches a.start i) (hedges : (a.state i).edges ≠ [])
    (hbase : base + codeSize a i ≤ totalSize a a.closure) :
    Forward (codeOf a).length base (stateCode a (layoutOf a) base i) := by
  have hswitch : ∀ k, Forward (codeOf a).length k [.switch (casesOf a (layoutOf a) i) []] :=
    fun k => ⟨fun t ht => casesOf_lt ha hs hi ht, by simp [passTargets], by simp, trivial⟩
  cases hacc : (a.state i).accepting with
  | false =>
    rw [stateCode_of_rejecting ha hedges hacc]
    exact hswitch base
  | true =>
    obtain ⟨symbol, hsymbol⟩ := Option.isSome_iff_exists.mp (hs i hacc)
    have hmem := mem_symbolsOf ha.valid hi (acceptOf_eq_some_iff.mpr ⟨hacc, hsymbol⟩)
    obtain ⟨hend, hsave, -⟩ := getElem?_codeOf_endOf ha hs hmem
    have hlt := (List.getElem?_eq_some_iff.mp hsave).1
    have hsize := codeSize_of_accepting ha hedges hacc
    rw [stateCode_of_accepting ha hedges hacc hsymbol]
    refine ⟨?_, ?_, by simp, hswitch (base + 1)⟩
    · simp only [Instr.targets, List.forall_mem_cons]
      exact ⟨by omega, hlt, by simp⟩
    · simp only [passTargets, List.forall_mem_cons]
      exact ⟨by omega, by omega, by simp⟩

/-- Within the states of an automaton whose start has edges control goes forward. -/
theorem forward_segments (ha : a.Deterministic) (hs : a.Symbolled)
    (hstart : (a.state a.start).edges ≠ []) {base : Nat} {order : List Nat}
    (horder : ∀ i ∈ order, a.Reaches a.start i)
    (hbase : base + totalSize a order = totalSize a a.closure) :
    Forward (codeOf a).length base (segments a (layoutOf a) base order) := by
  induction order generalizing base with
  | nil => trivial
  | cons i order ih =>
    obtain ⟨hi, horder⟩ := List.forall_mem_cons.mp horder
    rw [totalSize] at hbase
    rw [segments_cons]
    by_cases hcode : hasCode a i = true
    · have hedges : (a.state i).edges ≠ [] := by
        rcases (hasCode_iff ha).mp hcode with hedges | rfl
        · exact hedges
        · exact hstart
      rw [if_pos hcode, forward_append, length_stateCode ha hs base hcode]
      exact ⟨forward_stateCode ha hs hi hedges (by omega), ih horder (by omega)⟩
    · rw [if_neg hcode]
      exact ih horder (by rw [codeSize, if_neg hcode] at hbase; omega)

theorem forward_endsOf (bound base : Nat) (symbols : List Int) :
    Forward bound base (endsOf symbols) := by
  induction symbols generalizing base with
  | nil => trivial
  | cons symbol symbols ih =>
    have hends : endsOf (symbol :: symbols) =
        .save 1 :: .accept symbol :: endsOf symbols := rfl
    rw [hends]
    exact ⟨by simp [Instr.targets], by simp [passTargets], by simp, by simp [Instr.targets],
      by simp [passTargets], by simp, ih _⟩

theorem forward_codeOf (ha : a.Deterministic) (hs : a.Symbolled)
    (hstart : (a.state a.start).edges ≠ []) : Forward (codeOf a).length 0 (codeOf a) := by
  have hsegments := forward_segments ha hs hstart
    (fun i hi => (mem_closure_iff ha.valid).mp hi) (Nat.zero_add (totalSize a a.closure))
  have hends := forward_endsOf (codeOf a).length
    (0 + (segments a (layoutOf a) 0 a.closure).length) (symbolsOf a)
  rw [codeOf] at hsegments hends ⊢
  exact forward_append.mpr ⟨hsegments, hends⟩

/-! ## Linked programs -/

/-- The program of fragments, improved. -/
def linked (fragments : List Program) : Program :=
  (linkFragments fragments).removeDeadCode.foldRoot

theorem linkFragments_singleton (code : Program) :
    linkFragments [code] =
      .save 0 :: .jump [2, 2 + code.length] :: (code.relocate 2 ++ fallback) := by
  simp [linkFragments, place, length_relocate]

theorem forward_fallback (bound base : Nat) : Forward bound base fallback :=
  ⟨by simp [Instr.targets], by simp [passTargets], by simp, by simp [Instr.targets],
    by simp [passTargets], by simp, by simp [Instr.targets], by simp [passTargets], by simp, trivial⟩

theorem forward_linkFragments {code : Program} (h : Forward code.length 0 code) :
    Forward (linkFragments [code]).length 0 (linkFragments [code]) := by
  rw [linkFragments_singleton]
  have hlen : (Instr.save 0 :: .jump [2, 2 + code.length] :: (code.relocate 2 ++ fallback)).length =
      code.length + 5 := by
    simp [length_relocate, fallback]
  rw [hlen]
  refine ⟨by simp [Instr.targets], by simp [passTargets], by simp, ?_, ?_, by simp, ?_⟩
  · simp only [Instr.targets, List.forall_mem_cons]
    exact ⟨by omega, by omega, by simp⟩
  · simp only [passTargets, List.forall_mem_cons]
    exact ⟨by omega, by omega, by simp⟩
  · exact forward_append.mpr ⟨(h.relocate 2).mono (by omega), forward_fallback _ _⟩

/-- Where the start has edges and accepts, its code is tried before the fallback. -/
theorem linked_of_accepting (ha : a.Deterministic) (hs : a.Symbolled)
    (hstart : (a.state a.start).edges ≠ []) (hacc : (a.state a.start).accepting = true) :
    linked [codeOf a] = linkFragments [codeOf a] := by
  have hforward := forward_linkFragments (forward_codeOf ha hs hstart)
  rw [linked, removeDeadCode_eq_self hforward.idleJumpFrom?]
  obtain ⟨symbol, hsymbol⟩ := Option.isSome_iff_exists.mp (hs a.start hacc)
  obtain ⟨-, cases, -, hjump, -⟩ := (hosts_codeOf ha hs).accepting a.start symbol .refl hstart
    (acceptOf_eq_some_iff.mpr ⟨hacc, hsymbol⟩)
  rw [ownOf_start ha.valid] at hjump
  obtain ⟨more, hcode⟩ : ∃ more, codeOf a =
      .jump [0 + 1, (layoutOf a).endOf symbol] :: more := by
    cases hcode : codeOf a with
    | nil => simp [hcode] at hjump
    | cons i more =>
      rw [hcode] at hjump
      exact ⟨more, by rw [Option.some.inj hjump]⟩
  rw [linkFragments_singleton, hcode, relocate_cons]
  rfl

/-- Where the start has edges and does not accept, its switch takes over the choice of the
fallback. -/
theorem linked_of_rejecting (ha : a.Deterministic) (hs : a.Symbolled)
    (hstart : (a.state a.start).edges ≠ []) (hacc : (a.state a.start).accepting = false) :
    ∃ cases more, codeOf a = .switch cases [] :: more ∧
      linked [codeOf a] =
        [.save 0] ++ relocate (.switch cases [(codeOf a).length] :: more) 1 ++ fallback := by
  have hforward := forward_linkFragments (forward_codeOf ha hs hstart)
  obtain ⟨-, cases, -, hswitch⟩ := (hosts_codeOf ha hs).rejecting a.start .refl hstart hacc
  rw [ownOf_start ha.valid, if_pos rfl] at hswitch
  obtain ⟨more, hcode⟩ : ∃ more, codeOf a = .switch cases [] :: more := by
    cases hcode : codeOf a with
    | nil => simp [hcode] at hswitch
    | cons i more =>
      rw [hcode] at hswitch
      exact ⟨more, by rw [Option.some.inj hswitch]⟩
  refine ⟨cases, more, hcode, ?_⟩
  have hmove : ∀ p : Program,
      (p.relocate 2).map (·.mapTargets fun t => if 1 < t then t - 1 else t) = p.relocate 1 := by
    intro p
    rw [relocate, List.map_map, relocate]
    refine List.map_congr_left fun i _ => ?_
    cases i <;> simp [Instr.mapTargets]
  have hfallback : fallback.map (·.mapTargets fun t => if 1 < t then t - 1 else t) = fallback := rfl
  have hlen := length_relocate more 2
  rw [linked, removeDeadCode_eq_self hforward.idleJumpFrom?, linkFragments_singleton, hcode,
    relocate_cons, Instr.mapTargets, List.map_nil, List.cons_append, foldRoot,
    if_pos (by simp [hlen, fallback]; omega)]
  -- The jump in front of the switch is removed, and everything moves up by one.
  have hswitch : .switch (cases.map fun c => { c with target := c.target + 2 })
      [2 + (Instr.switch cases [] :: more).length] :: (relocate more 2 ++ fallback) =
      relocate (.switch cases [(Instr.switch cases [] :: more).length] :: more) 2 ++ fallback := by
    rw [relocate_cons, Nat.add_comm]
    rfl
  rw [removeAt, List.eraseIdx_cons_succ, List.eraseIdx_zero, List.tail_cons, hswitch, List.map_cons,
    List.map_append, hmove, hfallback]
  rfl

/-- In the improved program of an automaton whose start has edges control goes forward. -/
theorem forward_linked_of_edges (ha : a.Deterministic) (hs : a.Symbolled)
    (hstart : (a.state a.start).edges ≠ []) :
    Forward (linked [codeOf a]).length 0 (linked [codeOf a]) := by
  have hforward := forward_codeOf ha hs hstart
  cases hacc : (a.state a.start).accepting with
  | true =>
    rw [linked_of_accepting ha hs hstart hacc]
    exact forward_linkFragments hforward
  | false =>
    obtain ⟨cases, more, hcode, hlinked⟩ := linked_of_rejecting ha hs hstart hacc
    rw [hcode] at hforward hlinked
    rw [hcode, hlinked]
    obtain ⟨htargets, -, -, hmore⟩ := hforward
    have hset : Forward ((Instr.switch cases [] :: more).length + 1) 0
        (.switch cases [(Instr.switch cases [] :: more).length] :: more) := by
      refine ⟨?_, by simp [passTargets], by simp, hmore.mono (by omega)⟩
      intro t ht
      rw [Instr.targets, List.mem_append, List.mem_singleton] at ht
      rcases ht with ht | rfl
      · have := htargets t (by rw [Instr.targets, List.append_nil]; exact ht)
        omega
      · omega
    refine forward_append.mpr ⟨forward_append.mpr ⟨?_, ?_⟩, forward_fallback _ _⟩
    · exact ⟨by simp [Instr.targets], by simp [passTargets], by simp, trivial⟩
    · refine (hset.relocate 1).mono ?_
      simp [length_relocate, fallback]

/-! ## A start without edges -/

theorem removeDeadCode_eq_removeAt {p : Program} {k : Nat} (h : idleJump? p = some k) :
    p.removeDeadCode = (p.removeAt k).removeDeadCode := by
  rw [removeDeadCode]
  split
  · rename_i heq
    rw [h] at heq
    cases heq
  · rename_i heq
    rw [h] at heq
    cases heq
    rfl

/-- A start without edges is the only state that can be reached. -/
theorem closure_of_terminal (ha : a.Deterministic) (hstart : (a.state a.start).edges = []) :
    a.closure = [a.start] := by
  refine eq_singleton_of_nodup (nodup_closureFrom a a.start) fun i => ?_
  rw [mem_closure_iff ha.valid]
  constructor
  · intro h
    cases h using Relation.ReflTransGen.head_induction_on with
    | refl => rfl
    | head hstep _ _ => simp [State.successors, ha.epsilons, hstart] at hstep
  · rintro rfl
    exact .refl

/-- The code of a start without edges. -/
theorem codeOf_of_terminal (ha : a.Deterministic) (hs : a.Symbolled)
    (hstart : (a.state a.start).edges = []) :
    codeOf a = match acceptOf a a.start with
      | some symbol => [.jump [1], .save 1, .accept symbol]
      | none => [.jump []] := by
  have hclosure := closure_of_terminal ha hstart
  have hcode := hasCode_start a
  have hsize : codeSize a a.start = 1 := by
    rw [codeSize_eq ha, if_pos hcode]
    simp [hstart]
  rw [codeOf, hclosure, segments_cons, if_pos hcode, stateCode_eq ha, hstart]
  cases hacc : (a.state a.start).accepting with
  | false =>
    have hnone : acceptOf a a.start = none := by simp [acceptOf, hacc]
    have hsymbols : symbolsOf a = [] := by simp [symbolsOf, hclosure, hnone]
    rw [hnone, hsymbols, exits_of_not_accepting hacc]
    rfl
  | true =>
    obtain ⟨symbol, hsymbol⟩ := Option.isSome_iff_exists.mp (hs a.start hacc)
    have hsome := acceptOf_eq_some_iff.mpr ⟨hacc, hsymbol⟩
    have hsymbols : symbolsOf a = [symbol] := by
      rw [symbolsOf, hclosure, List.filterMap_cons, hsome]
      rfl
    have hend : (layoutOf a).endOf symbol = 1 := by
      simp [Layout.endOf, layoutOf, layout, hsymbols, hclosure, totalSize, hsize, List.idxOf?_cons]
    rw [hsome, hsymbols, exits_of_accepting hacc hsymbol, hend]
    rfl

/-- The improved program of a start without edges: it has the end of its symbol, if it accepts. -/
theorem linked_of_terminal (ha : a.Deterministic) (hs : a.Symbolled)
    (hstart : (a.state a.start).edges = []) :
    linked [codeOf a] = match acceptOf a a.start with
      | some symbol => [.save 0, .jump [2, 4], .save 1, .accept symbol] ++ fallback
      | none => [.save 0, .jump [2, 3], .jump []] ++ fallback := by
  rw [codeOf_of_terminal ha hs hstart]
  cases acceptOf a a.start with
  | some symbol =>
    have hidle : idleJump? (linkFragments [[.jump [1], .save 1, .accept symbol]]) = some 2 := rfl
    have hdone : idleJump? ([.save 0, .jump [2, 4], .save 1, .accept symbol] ++ fallback) = none :=
      rfl
    rw [linked, removeDeadCode_eq_removeAt hidle]
    exact congrArg foldRoot (removeDeadCode_eq_self hdone)
  | none =>
    have hdone : idleJump? (linkFragments [[.jump []]]) = none := rfl
    rw [linked, removeDeadCode_eq_self hdone]
    rfl

/-- Without rules there is only the fallback. -/
theorem linked_nil : linked [] = .save 0 :: fallback := by
  have hidle : idleJump? (linkFragments []) = some 1 := rfl
  have hdone : idleJump? (.save 0 :: fallback) = none := rfl
  rw [linked, removeDeadCode_eq_removeAt hidle]
  exact congrArg foldRoot (removeDeadCode_eq_self hdone)

/-- In every improved program of an automaton control goes forward. -/
theorem forward_linked (ha : a.Deterministic) (hs : a.Symbolled) :
    Forward (linked [codeOf a]).length 0 (linked [codeOf a]) := by
  by_cases hstart : (a.state a.start).edges = []
  · rw [linked_of_terminal ha hs hstart]
    cases acceptOf a a.start with
    | some symbol => simp [Forward, fallback, Instr.targets, passTargets]
    | none => simp [Forward, fallback, Instr.targets, passTargets]
  · exact forward_linked_of_edges ha hs hstart

theorem linked_ne_nil (ha : a.Deterministic) (hs : a.Symbolled) : linked [codeOf a] ≠ [] := by
  by_cases hstart : (a.state a.start).edges = []
  · rw [linked_of_terminal ha hs hstart]
    cases acceptOf a a.start <;> simp
  · cases hacc : (a.state a.start).accepting with
    | true =>
      rw [linked_of_accepting ha hs hstart hacc, linkFragments_singleton]
      simp
    | false =>
      obtain ⟨cases, more, -, hlinked⟩ := linked_of_rejecting ha hs hstart hacc
      rw [hlinked]
      simp

theorem forward_linked_nil : Forward (linked []).length 0 (linked []) := by
  rw [linked_nil]
  simp [Forward, fallback, Instr.targets, passTargets]

end FiberLex.Program
