import FiberLex.Proofs.Machine.Reuse
import FiberLex.Proofs.Program.RoundTrip
import FiberLex.Proofs.Program.Targets

/-!
# Idle jumps can be left out

Removing a jump that only goes to the next instruction does not change a run. The addresses behind
the jump move up (`closeGap`), and the address of the jump and the next one become one. A walk over
the old program enters the jump and then at once the instruction behind it, unless that one has been
entered before; a walk over the new program enters, or passes over, the instruction alone. So both
come to the same fibers in the same order (`visits_removeAt`), a generation to the same match and
the next fibers (`generation_removeAt`), and a run to the same match at the same place
(`search_removeAt`).
-/

namespace FiberLex

/-! ## Renamed addresses -/

/-- The fiber at another address. -/
def Fiber.rename (g : Nat → Nat) (f : Fiber) : Fiber := { f with address := g f.address }

@[simp] theorem Fiber.address_rename (g : Nat → Nat) (f : Fiber) :
    (f.rename g).address = g f.address := rfl

@[simp] theorem Fiber.span_rename (g : Nat → Nat) (f : Fiber) : (f.rename g).span = f.span := rfl

namespace Instr

variable {g : Nat → Nat} {i : Instr}

theorem chosenCase?_map (cases : List Case) (next : Option Char) :
    chosenCase? (cases.map fun c => { c with target := g c.target }) next =
      (chosenCase? cases next).map fun c => { c with target := g c.target } := by
  cases next with
  | none => rfl
  | some c =>
    simp only [chosenCase?, Option.bind_some, List.find?_map]
    rfl

theorem holds_mapTargets (next : Option Char) : (i.mapTargets g).holds next = i.holds next := by
  cases i with
  | switch cases otherwise => simp [mapTargets, holds, chosenCase?_map]
  | _ => rfl

theorem passOn_mapTargets {f : Fiber} (hg : g (f.address + 1) = g f.address + 1)
    (next : Option Char) (offset : Nat) :
    (i.mapTargets g).passOn next offset (f.rename g) =
      (i.passOn next offset f).map (Fiber.rename g) := by
  cases i with
  | jump targets => simp [mapTargets, passOn, Fiber.rename, Function.comp_def]
  | save slot => simp [mapTargets, passOn, Fiber.rename, hg]
  | switch cases otherwise =>
    simp only [mapTargets, passOn, chosenCase?_map, Option.isSome_map]
    split
    · rfl
    · simp [Fiber.rename, Function.comp_def]
  | _ => rfl

theorem consume?_mapTargets {address : Nat} (hg : g (address + 1) = g address + 1) (c : Char) :
    (i.mapTargets g).consume? (g address) c = (i.consume? address c).map g := by
  cases i with
  | switch cases otherwise =>
    simp only [mapTargets, consume?, chosenCase?_map, Option.map_map]
    rfl
  | any => simp [mapTargets, consume?, hg]
  | jump _ | save _ | accept _ => rfl
  | _ =>
    simp only [mapTargets, consume?, ← hg]
    split <;> rfl

theorem bind_consume?_mapTargets {address : Nat} (hg : g (address + 1) = g address + 1)
    (next : Option Char) : (next.bind fun c => (i.mapTargets g).consume? (g address) c) =
      (next.bind fun c => i.consume? address c).map g := by
  cases next with
  | none => rfl
  | some c => exact consume?_mapTargets hg c

theorem eq_accept_of_mapTargets {symbol : Int} (h : i.mapTargets g = .accept symbol) :
    i = .accept symbol := by
  cases i with
  | accept _ => exact h
  | _ => cases h

end Instr

namespace Machine

/-- Each generation of the second program reports what the first program's generation reports and
goes on with its fibers, renamed. -/
def Mirrors (g : Nat → Nat) (code code' : Array Instr) : Prop :=
  ∀ (next : Option Char) (offset : Nat) (b : Buffers code.size) (b' : Buffers code'.size),
    b.stack = [] → b'.stack = [] → b'.seeds = b.seeds.map (Fiber.rename g) →
      (generation code' next offset b').found = (generation code next offset b).found ∧
        (generation code' next offset b').buffers.seeds =
          (generation code next offset b).buffers.seeds.map (Fiber.rename g)

/-- If generations agree, then runs come to the same match and stop at the same place. -/
theorem Mirrors.search {g : Nat → Nat} {code code' : Array Instr} (h : Mirrors g code code')
    (text : List Char) (offset : Nat) (best : Option Match) (statistics statistics' : Statistics)
    {b : Buffers code.size} {b' : Buffers code'.size} (hb : b.stack = []) (hb' : b'.stack = [])
    (hseeds : b'.seeds = b.seeds.map (Fiber.rename g)) :
    let s := search code text offset best statistics b
    let s' := search code' text offset best statistics' b'
    s'.result = s.result ∧ s'.rest = s.rest := by
  induction text generalizing offset best statistics statistics' b b' with
  | nil =>
    obtain ⟨hfound, -⟩ := h none offset b b' hb hb' hseeds
    simp only [Machine.search, hfound, and_self]
  | cons c text ih =>
    obtain ⟨hfound, hnext⟩ := h (some c) offset b b' hb hb' hseeds
    have hempty : (generation code' (some c) offset b').buffers.seeds.isEmpty =
        (generation code (some c) offset b).buffers.seeds.isEmpty := by
      rw [hnext]
      simp [Array.isEmpty]
    simp only [Machine.search, hfound, hempty]
    split
    · exact ⟨rfl, rfl⟩
    · exact ih _ _ _ _ (stack_generation hb _ _) (stack_generation hb' _ _) hnext

/-- If generations agree and the beginning keeps its address, then the machines find the same match
and leave the cursor in the same place with the same text captured. -/
theorem Mirrors.run {g : Nat → Nat} {m m' : Machine} (h : Mirrors g m.code m'.code) (h0 : g 0 = 0)
    (cur : Cursor) : (m'.run cur).result = (m.run cur).result ∧
      (m'.run cur).cursor = (m.run cur).cursor := by
  have hstart : m'.primed.seeds = m.primed.seeds.map (Fiber.rename g) := by
    simp [primed, Fiber.rename, h0]
  obtain ⟨hresult, hrest⟩ :=
    h.search cur.position.rest 0 none {} {} m.stack_primed m'.stack_primed hstart
  exact ⟨hresult, by rw [Machine.run, Machine.run, hrest]⟩

end Machine

namespace Program

/-! ## Closing the gap -/

/-- Where an address is when the instruction at `removed` is gone. -/
def closeGap (removed t : Nat) : Nat := if removed < t then t - 1 else t

section CloseGap

variable {removed t u : Nat}

theorem closeGap_succ (h : t ≠ removed) : closeGap removed (t + 1) = closeGap removed t + 1 := by
  unfold closeGap
  split_ifs <;> omega

theorem closeGap_injOn (ht : t ≠ removed) (hu : u ≠ removed)
    (h : closeGap removed t = closeGap removed u) : t = u := by
  unfold closeGap at h
  split_ifs at h <;> omega

/-- The address that is removed and the one behind it become one. -/
theorem closeGap_next : closeGap removed (removed + 1) = closeGap removed removed := by
  simp [closeGap]

/-- If there is an instruction behind the one removed, addresses stay inside or outside. -/
theorem closeGap_lt_iff {n : Nat} (h : removed + 1 < n + 1) :
    closeGap removed t < n ↔ t < n + 1 := by
  unfold closeGap
  split_ifs <;> omega

theorem getElem?_removeAt (p : Program) (h : t ≠ removed) :
    (p.removeAt removed)[closeGap removed t]? =
      p[t]?.map (Instr.mapTargets (closeGap removed)) := by
  have hmap : (p.removeAt removed)[closeGap removed t]? =
      (p.eraseIdx removed)[closeGap removed t]?.map (Instr.mapTargets (closeGap removed)) :=
    List.getElem?_map
  rw [hmap, List.getElem?_eraseIdx]
  rcases Nat.lt_or_gt_of_ne h with hlt | hlt
  · have hkeep : closeGap removed t = t := if_neg (by omega)
    rw [hkeep, if_pos hlt]
  · have hmove : closeGap removed t = t - 1 := if_pos hlt
    rw [hmove, if_neg (by omega), Nat.sub_add_cancel (by omega)]

end CloseGap

/-! ## One removal -/

section Removal

variable {p : Program} {removed : Nat}

theorem followers_removeAt {f : Fiber} (h : f.address ≠ removed) (next : Option Char)
    (offset : Nat) :
    Machine.followers (p.removeAt removed).toArray next offset (f.rename (closeGap removed)) =
      (Machine.followers p.toArray next offset f).map (Fiber.rename (closeGap removed)) := by
  simp only [Machine.followers, Fiber.address_rename, List.getElem?_toArray, getElem?_removeAt p h]
  cases p[f.address]? with
  | none => rfl
  | some i => exact Instr.passOn_mapTargets (closeGap_succ h) next offset

theorem rests_removeAt {f : Fiber} (h : f.address ≠ removed) (next : Option Char) :
    Machine.rests (p.removeAt removed).toArray next (f.rename (closeGap removed)) =
      Machine.rests p.toArray next f := by
  simp only [Machine.rests, Fiber.address_rename, List.getElem?_toArray, getElem?_removeAt p h]
  cases p[f.address]? with
  | none => rfl
  | some i => exact Instr.holds_mapTargets next

theorem harvest_removeAt (next : Option Char) (offset : Nat) {fs : List Fiber}
    (h : ∀ f ∈ fs, f.address ≠ removed) :
    Machine.harvest (p.removeAt removed).toArray next offset
        (fs.map (Fiber.rename (closeGap removed))) =
      ((Machine.harvest p.toArray next offset fs).1,
        (Machine.harvest p.toArray next offset fs).2.map (Fiber.rename (closeGap removed))) := by
  induction fs with
  | nil => rfl
  | cons f fs ih =>
    obtain ⟨hf, hfs⟩ := List.forall_mem_cons.mp h
    have hget := getElem?_removeAt p hf
    rw [List.map_cons]
    cases hi : p[f.address]? with
    | none =>
      rw [hi] at hget
      simp only [Machine.harvest, Fiber.address_rename, List.getElem?_toArray, hget, hi,
        Option.map_none]
      exact ih hfs
    | some i =>
      rw [hi, Option.map_some] at hget
      by_cases hacc : ∃ symbol, i = .accept symbol
      · obtain ⟨symbol, rfl⟩ := hacc
        simp only [Machine.harvest, Fiber.address_rename, List.getElem?_toArray, hget, hi,
          Instr.mapTargets, Fiber.span_rename]
        rfl
      · have hne : ∀ symbol, i ≠ .accept symbol := fun symbol heq => hacc ⟨symbol, heq⟩
        have hne' : ∀ symbol, i.mapTargets (closeGap removed) ≠ .accept symbol :=
          fun symbol heq => hne symbol (Instr.eq_accept_of_mapTargets heq)
        rw [Machine.harvest_cons_of_not_accept (by simpa using hget) hne',
          Machine.harvest_cons_of_not_accept (by simpa using hi) hne, ih hfs,
          Fiber.address_rename, Instr.bind_consume?_mapTargets (closeGap_succ hf)]
        cases next.bind fun c => i.consume? f.address c with
        | none => rfl
        | some target => rfl

/-- If the walk has seen the address `removed`, then it has seen the address behind it or is about
to. -/
def Passed (removed : Nat) (seen : Set Nat) (stack : List Fiber) : Prop :=
  removed ∈ seen → removed + 1 ∈ seen ∨ stack.head?.map Fiber.address = some (removed + 1)

section Passed

variable {seen : Set Nat} {f : Fiber} {rest : List Fiber}

theorem Passed.mem_image (h : Passed removed seen (f :: rest)) (hf : f.address ∈ seen) :
    closeGap removed f.address ∈ closeGap removed '' (seen \ {removed}) := by
  by_cases heq : f.address = removed
  · rw [heq] at hf
    have hbehind : removed + 1 ∈ seen := by
      rcases h hf with hbehind | htop
      · exact hbehind
      · simp [heq] at htop
    exact ⟨removed + 1, ⟨hbehind, Nat.succ_ne_self _⟩, by rw [heq, closeGap_next]⟩
  · exact Set.mem_image_of_mem _ ⟨hf, heq⟩

theorem Passed.skip (h : Passed removed seen (f :: rest))
    (hf : f.address = removed + 1 → removed + 1 ∈ seen) : Passed removed seen rest := by
  intro hin
  rcases h hin with hbehind | htop
  · exact .inl hbehind
  · exact .inl (hf (by simpa using htop))

theorem Passed.visit (h : Passed removed seen (f :: rest)) (hne : f.address ≠ removed)
    (stack : List Fiber) : Passed removed (insert f.address seen) stack := by
  intro hin
  rcases h (hin.resolve_left (Ne.symm hne)) with hbehind | htop
  · exact .inl (Set.mem_insert_of_mem _ hbehind)
  · have haddress : f.address = removed + 1 := by simpa using htop
    exact .inl (haddress ▸ Set.mem_insert _ _)

end Passed

/-- A walk over the program without an idle jump lists what the walk over the program lists, less
the jump. The address of the jump does not count as seen. -/
theorem visits_removeAt (hjump : p[removed]? = some (.jump [removed + 1]))
    (hnext : removed + 1 < p.length) {next : Option Char} {offset : Nat}
    {stack order : List Fiber} {seen : Set Nat}
    (h : Preorder.Visits p.toArray.size Fiber.address (Machine.followers p.toArray next offset)
      stack seen order)
    (hseen : Passed removed seen stack) :
    Preorder.Visits (p.removeAt removed).toArray.size Fiber.address
      (Machine.followers (p.removeAt removed).toArray next offset)
      (stack.map (Fiber.rename (closeGap removed)))
      (closeGap removed '' (seen \ {removed}))
      ((order.filter (·.address ≠ removed)).map (Fiber.rename (closeGap removed))) := by
  have hsize : ∀ t, closeGap removed t < (p.removeAt removed).toArray.size ↔
      t < p.toArray.size := by
    intro t
    have hlength := length_removeAt (Nat.lt_of_succ_lt hnext)
    rw [List.size_toArray, List.size_toArray, ← hlength]
    exact closeGap_lt_iff (by omega)
  induction h with
  | done => exact .done
  | @skip f rest seen order hf hr ih =>
    have hbehind : f.address = removed + 1 → removed + 1 ∈ seen := by
      intro heq
      rw [heq] at hf
      exact hf (by simpa using hnext)
    exact .skip (fun hlt => hseen.mem_image (hf ((hsize _).mp hlt))) (ih (hseen.skip hbehind))
  | @visit f rest seen order hlt hnew hr ih =>
    by_cases heq : f.address = removed
    · -- the jump is left out: its only follower has the name that it would have
      have hfollow : Machine.followers p.toArray next offset f = [⟨removed + 1, f.span⟩] := by
        simp [Machine.followers, heq, hjump, Instr.passOn]
      have hsame : Fiber.rename (closeGap removed) ⟨removed + 1, f.span⟩ =
          f.rename (closeGap removed) := by
        simp [Fiber.rename, closeGap_next, heq]
      rw [hfollow, Set.insert_sdiff_of_mem seen (Set.mem_singleton_iff.mpr heq)] at ih
      have hrest := ih fun _ => .inr rfl
      rw [List.cons_append, List.nil_append, List.map_cons, hsame] at hrest
      rwa [List.map_cons, List.filter_cons_of_neg (by simpa using heq)]
    · have hset : insert f.address seen \ {removed} = insert f.address (seen \ {removed}) :=
        Set.insert_sdiff_of_notMem seen (t := {removed}) heq
      have hrest := ih (hseen.visit heq _)
      rw [List.map_append, ← followers_removeAt heq, hset, Set.image_insert_eq] at hrest
      rw [List.map_cons, List.filter_cons_of_pos (by simpa using heq), List.map_cons]
      refine .visit ((hsize _).mpr hlt) ?_ hrest
      rintro ⟨t, ⟨ht, hne⟩, hclose⟩
      rw [closeGap_injOn hne heq hclose] at ht
      exact hnew ht

/-- No generation notices that an idle jump is gone. -/
theorem mirrors_removeAt (hjump : p[removed]? = some (.jump [removed + 1]))
    (hnext : removed + 1 < p.length) :
    Machine.Mirrors (closeGap removed) p.toArray (p.removeAt removed).toArray := by
  intro next offset b b' hb hb' hseeds
  obtain ⟨visited, hvisits, hreach⟩ := Machine.generation_spec p.toArray next offset hb
  obtain ⟨visited', hvisits', hreach'⟩ :=
    Machine.generation_spec (p.removeAt removed).toArray next offset hb'
  have hvisits := visits_removeAt hjump hnext hvisits fun hin => absurd hin (Set.notMem_empty _)
  rw [Set.empty_sdiff, Set.image_empty, ← Array.toList_map, ← hseeds] at hvisits
  have hvisited := hvisits'.unique hvisits
  -- no fiber rests at the jump
  have hrest : ∀ f ∈ visited.filter (Machine.rests p.toArray next), f.address ≠ removed := by
    intro f hf heq
    have hrests := (List.mem_filter.mp hf).2
    simp [Machine.rests, heq, hjump, Instr.holds] at hrests
  have hresting : visited'.filter (Machine.rests (p.removeAt removed).toArray next) =
      (visited.filter (Machine.rests p.toArray next)).map (Fiber.rename (closeGap removed)) := by
    have hfilter : (visited.filter (·.address ≠ removed)).filter
        (Machine.rests (p.removeAt removed).toArray next ∘ Fiber.rename (closeGap removed)) =
        (visited.filter (·.address ≠ removed)).filter (Machine.rests p.toArray next) := by
      refine List.filter_congr fun f hf => rests_removeAt ?_ next
      simpa using (List.mem_filter.mp hf).2
    rw [hvisited, List.filter_map, hfilter, List.filter_comm]
    congr 1
    exact List.filter_eq_self.mpr fun f hf => by simpa using hrest f hf
  have hharvest := harvest_removeAt (p := p) next offset hrest
  refine ⟨?_, Array.toList_inj.mp ?_⟩
  · rw [hreach'.found, hresting, hharvest, hreach.found]
  · rw [hreach'.seeds, hresting, hharvest, Array.toList_map, hreach.seeds]

end Removal

/-! ## All removals -/

theorem idleJumpFrom?_eq_none {p : Program} {base : Nat} (h : idleJumpFrom? base p = none)
    (k : Nat) :
    p[k]? ≠ some (.jump [base + k + 1]) := by
  induction p generalizing base k with
  | nil => simp
  | cons i p ih =>
    rw [idleJumpFrom?] at h
    split at h
    · cases h
    · rename_i hi
      cases k with
      | zero => simpa using hi
      | succ k =>
        rw [List.getElem?_cons_succ, show base + (k + 1) + 1 = base + 1 + k + 1 by omega]
        exact ih (Option.map_eq_none_iff.mp h) k

theorem idleJump?_removeDeadCode (p : Program) : idleJump? p.removeDeadCode = none := by
  fun_induction removeDeadCode p with
  | case1 p hnone => exact hnone
  | case2 p address hidle ih => exact ih

theorem runnable_of_validate {p : Program} (h : p.validate = .ok ()) : Runnable p := by
  refine ⟨?_, fun i hi t ht => lt_length_of_validate h hi ht⟩
  rintro rfl
  cases h

/-- The machine finds the same match and leaves the cursor in the same place with the same text
captured, whatever earlier runs have left in the two machines. -/
theorem run_removeDeadCode {p : Program} (h : Runnable p) {m m' : Machine}
    (hm : m.code = p.toArray) (hm' : m'.code = p.removeDeadCode.toArray) (cur : Cursor) :
    (m'.run cur).result = (m.run cur).result ∧ (m'.run cur).cursor = (m.run cur).cursor := by
  fun_induction removeDeadCode p generalizing m with
  | case1 p hnone =>
    obtain ⟨hresult, -, hcursor⟩ := Machine.run_congr (hm'.trans hm.symm) cur
    exact ⟨hresult, hcursor⟩
  | case2 p address hidle ih =>
    have hjump := getElem?_of_idleJumpFrom? hidle
    rw [Nat.zero_add] at hjump
    have hnext := h.targetsBelow _ (List.mem_of_getElem? hjump) (address + 1)
      (List.mem_singleton_self _)
    have hmirrors : Machine.Mirrors (closeGap address) m.code
        (Machine.ofProgram (p.removeAt address)).code := by
      rw [hm]
      exact mirrors_removeAt hjump hnext
    obtain ⟨hresult, hcursor⟩ := hmirrors.run (by simp [closeGap]) cur
    obtain ⟨hresult', hcursor'⟩ := ih (h.removeAt hnext) (m := .ofProgram _) rfl hm'
    exact ⟨hresult'.trans hresult, hcursor'.trans hcursor⟩

/-- Removing idle jumps from a program that passes the check changes no run: a machine finds the
same match, leaves the cursor in the same place and captures the same text, whatever it was used for
before. The program still passes the check, has no idle jump, and stays as it is when idle jumps are
removed again. It records in the same slots, so if those are below `slotLimit`, there is room for
them in both runs. -/
theorem removeDeadCode_preserves_runs {p : Program} (h : p.validate = .ok ()) :
    (∀ (m m' : Machine) (cur : Cursor), m.code = p.toArray →
      m'.code = p.removeDeadCode.toArray →
        (m'.run cur).result = (m.run cur).result ∧ (m'.run cur).cursor = (m.run cur).cursor) ∧
    p.removeDeadCode.validate = .ok () ∧
    (∀ k : Nat, p.removeDeadCode[k]? ≠ some (.jump [k + 1])) ∧
    p.removeDeadCode.removeDeadCode = p.removeDeadCode := by
  have hrunnable := runnable_of_validate h
  have hidle := idleJump?_removeDeadCode p
  refine ⟨fun m m' cur hm hm' => run_removeDeadCode hrunnable hm hm' cur,
    hrunnable.removeDeadCode.validate, fun k => ?_, removeDeadCode_eq_self hidle⟩
  have hnone := idleJumpFrom?_eq_none hidle k
  rwa [Nat.zero_add] at hnone

/-- One idle jump after the other, and a jump back to the first of them. -/
def detours : Program :=
  [.save 0, .jump [2], .jump [3], .char 97, .jump [1, 5], .save 1, .accept 7]

theorem removeDeadCode_preserves_runs_detours :
    detours.validate = .ok () ∧
    detours.removeDeadCode = [.save 0, .char 97, .jump [1, 3], .save 1, .accept 7] ∧
    ((Machine.ofProgram detours.removeDeadCode).run (.ofString "aab")).result =
      ((Machine.ofProgram detours).run (.ofString "aab")).result ∧
    detours.removeDeadCode.removeDeadCode = detours.removeDeadCode := by
  have hvalid : detours.validate = .ok () := rfl
  have hremoved : detours.removeDeadCode =
      [.save 0, .char 97, .jump [1, 3], .save 1, .accept 7] := by
    rw [removeDeadCode_eq_removeAt (k := 1) rfl, removeDeadCode_eq_removeAt (k := 1) rfl]
    exact removeDeadCode_eq_self rfl
  obtain ⟨hruns, -, -, hagain⟩ := removeDeadCode_preserves_runs hvalid
  exact ⟨hvalid, hremoved, (hruns _ _ _ rfl rfl).1, hagain⟩

end Program

end FiberLex
