import FiberLex.Proofs.Machine.Backtrack
import FiberLex.Proofs.Preorder

/-!
# The machine does a backtracking search

The machine goes through the text once, with all paths side by side, and keeps the last match
reported; the search of `Backtrack` follows one path at a time and keeps the first. Both find the
same match. The step is one generation (`explore_generation`): searching from its fibers comes to
what searching from the fibers of the next generation comes to, or else to the match the generation
reports. It is proved by induction over the walk of the generation, with whatever the search has
entered at later places left open, because the search comes back from there between two fibers.
-/

namespace FiberLex

open Backtrack

variable {text : List Char} {code : Array Instr}

/-- A fiber at a place of the text. -/
def Fiber.toConfig (k : Fin (text.length + 1)) (f : Fiber) : Config text := ⟨f.address, k, f.span⟩

/-- Fibers behind the character at a place, if there is one. -/
def Fiber.toConfigsAfter (k : Fin (text.length + 1)) (fs : List Fiber) : List (Config text) :=
  fs.flatMap fun f => (f.toConfig k).consumeTo f.address

/-! ## One instruction -/

theorem Instr.passOn_of_holds {next : Option Char} {i : Instr} (h : i.holds next = true)
    (offset : Nat) (f : Fiber) : i.passOn next offset f = [] := by
  cases i <;> simp_all [holds, passOn]

/-- An instruction at which fibers do not rest passes control on without consuming. -/
theorem successors_of_not_holds {k : Fin (text.length + 1)} {f : Fiber} {i : Instr}
    (h : i.holds text[k.val]? = false) :
    successors i (f.toConfig k) =
      (i.passOn text[k.val]? (byteLength (text.take k)) f).map (Fiber.toConfig k) := by
  cases i with
  | jump targets => simp [successors, Instr.passOn, Fiber.toConfig, Config.goto, Function.comp_def]
  | save slot => simp [successors, Instr.passOn, Fiber.toConfig, Config.offset]
  | switch cases otherwise =>
    have hnone : (text[k.val]?.bind fun c => cases.find? (·.set.contains c.toNat)) = none := by
      simpa [Instr.holds, Instr.chosenCase?] using h
    simp [successors, Instr.passOn, Instr.chosenCase?, Fiber.toConfig, Config.next?, hnone,
      Config.goto, Function.comp_def]
  | _ => simp [Instr.holds] at h

/-- An instruction at which fibers rest, other than a match, consumes or ends the path. -/
theorem successors_of_holds {k : Fin (text.length + 1)} {f : Fiber} {i : Instr}
    (h : i.holds text[k.val]? = true) (hacc : ∀ symbol, i ≠ .accept symbol) :
    successors i (f.toConfig k) =
      (text[k.val]?.bind fun c => i.consume? f.address c).toList.flatMap
        (f.toConfig k).consumeTo := by
  -- the instructions for one character differ only in which characters they take
  have hplain : ∀ j : Instr, (∀ c, j.consume? f.address c =
      if takes c j then some (f.address + 1) else none) →
      (if (text[k.val]?).any (takes · j) then (f.toConfig k).consumeTo (f.address + 1) else []) =
      (text[k.val]?.bind fun c => j.consume? f.address c).toList.flatMap
        (f.toConfig k).consumeTo := by
    intro j hj
    cases hc : text[k.val]? with
    | none => simp
    | some c =>
      by_cases ht : takes c j
      · simp [hj, ht]
      · simp [hj, ht]
  cases i with
  | switch cases otherwise =>
    obtain ⟨case, hcase⟩ := Option.isSome_iff_exists.mp h
    rw [Instr.chosenCase?] at hcase
    obtain ⟨c, hc, hfind⟩ := Option.bind_eq_some_iff.mp hcase
    simp [successors, Fiber.toConfig, Config.next?, hc, hfind, Instr.consume?, Instr.chosenCase?]
  | jump targets => simp [Instr.holds] at h
  | save slot => simp [Instr.holds] at h
  | accept symbol => exact absurd rfl (hacc symbol)
  | char cp => exact hplain _ fun c => by simp [Instr.consume?, takes]
  | inside set =>
    exact hplain _ fun c => by cases hc : set.contains c.toNat <;> simp [Instr.consume?, takes, hc]
  | outside set =>
    exact hplain _ fun c => by cases hc : set.contains c.toNat <;> simp [Instr.consume?, takes, hc]
  | insideCategory cat =>
    exact hplain _ fun c => by cases hc : cat.contains c.toNat <;> simp [Instr.consume?, takes, hc]
  | outsideCategory cat =>
    exact hplain _ fun c => by cases hc : cat.contains c.toNat <;> simp [Instr.consume?, takes, hc]
  | any => exact hplain _ fun c => by simp [Instr.consume?, takes]

theorem found?_eq_none {i : Instr} {x : Config text} (hacc : ∀ symbol, i ≠ .accept symbol) :
    found? i x = none := by
  cases i with
  | accept symbol => exact absurd rfl (hacc symbol)
  | _ => rfl

/-! ## One generation -/

/-- A fiber at an instruction other than a match adds at most one fiber to the next generation. -/
theorem Machine.harvest_cons_of_not_accept {next : Option Char} {offset : Nat} {f : Fiber}
    {rest : List Fiber} {i : Instr} (hi : code[f.address]? = some i)
    (hacc : ∀ symbol, i ≠ .accept symbol) :
    harvest code next offset (f :: rest) =
      ((harvest code next offset rest).1,
        (next.bind fun c => i.consume? f.address c).toList.map (⟨·, f.span⟩) ++
          (harvest code next offset rest).2) := by
  rw [harvest, hi]
  cases i with
  | accept symbol => exact absurd rfl (hacc symbol)
  | _ =>
    dsimp only
    split
    all_goals
      rename_i heq
      rw [heq]
      simp

theorem Fiber.toConfigsAfter_append {k : Fin (text.length + 1)} (fs gs : List Fiber) :
    toConfigsAfter k (fs ++ gs) = toConfigsAfter k fs ++ toConfigsAfter k gs :=
  List.flatMap_append

theorem Fiber.toConfigsAfter_map {k : Fin (text.length + 1)} (f : Fiber) (targets : List Nat) :
    toConfigsAfter k (targets.map (⟨·, f.span⟩)) = targets.flatMap (f.toConfig k).consumeTo :=
  List.flatMap_map ..

theorem place_of_mem_toConfigsAfter {k : Fin (text.length + 1)} {fs : List Fiber} {x : Config text}
    (h : x ∈ Fiber.toConfigsAfter k fs) : k.val + 1 ≤ x.place.val := by
  obtain ⟨f, -, hx⟩ := List.mem_flatMap.mp h
  unfold Config.consumeTo at hx
  split at hx
  · rw [List.mem_singleton.mp hx]
    exact le_refl _
  · cases hx

/-- A pair entered at one place makes no difference at later ones. -/
theorem sameFrom_insert {k : Fin (text.length + 1)} (e : Entered code text) (a : Fin code.size) :
    SameFrom (k.val + 1) (insert (a, k) e) e := by
  intro p hp
  have hne : p ≠ (a, k) := by
    rintro rfl
    exact Nat.not_succ_le_self _ hp
  simp [hne]

/-- A detour to later places does not change what comes after it: exploring `xs` first, with one
more pair entered at the present place, and then `zs` comes to the same as exploring `xs` and then
`ys`, if `zs` comes to what `ys` comes to. -/
theorem explore_detour {k : Fin (text.length + 1)} {e : Entered code text} {a : Fin code.size}
    {xs ys zs : List (Config text)} {found : Option Match}
    (hxs : ∀ x ∈ xs, k.val + 1 ≤ x.place.val) (hys : ∀ y ∈ ys, k.val + 1 ≤ y.place.val)
    (h : ∀ e', (∀ b : Fin code.size, (b, k) ∈ e' ↔ (b, k) ∈ insert (a, k) e) →
      (explore code e' zs).1 = (explore code e' ys).1.or found) :
    (explore code (insert (a, k) e) (xs ++ zs)).1 = (explore code e (xs ++ ys)).1.or found := by
  obtain ⟨hres, hent⟩ := explore_congr _ _ xs hxs (sameFrom_insert e a)
  have hkeep : ∀ b : Fin code.size,
      (b, k) ∈ (explore code (insert (a, k) e) xs).2 ↔ (b, k) ∈ insert (a, k) e :=
    fun b => mem_explore_of_lt _ xs hxs (b, k) (Nat.lt_succ_self _)
  rw [explore_append, explore_append]
  cases hx : explore code (insert (a, k) e) xs with
  | mk found₁ e₁ =>
    cases hy : explore code e xs with
    | mk found₂ e₂ =>
      simp only [hx, hy] at hres hent hkeep
      subst hres
      cases found₁ with
      | some m => rfl
      | none =>
        simp only
        rw [h e₁ hkeep, (explore_congr e₁ e₂ ys hys hent).1]

/-- What a generation that visits the fibers `visited` comes to, as a search: the fibers of the next
generation, or else the match it reports. -/
def comesTo (k : Fin (text.length + 1)) (e : Entered code text) (visited : List Fiber) :
    Option Match :=
  let harvested := Machine.harvest code text[k.val]? (byteLength (text.take k))
    (visited.filter (Machine.rests code text[k.val]?))
  (explore code e (Fiber.toConfigsAfter k harvested.2)).1.or harvested.1

section Visit

variable {k : Fin (text.length + 1)} {e : Entered code text} {f : Fiber} {visited : List Fiber}

theorem comesTo_insert (a : Fin code.size) : comesTo k (insert (a, k) e) visited =
    comesTo k e visited :=
  congrArg (Option.or · _) (explore_congr _ _ _ (fun _ hy => place_of_mem_toConfigsAfter hy)
    (sameFrom_insert e a)).1

/-- A match ends all fibers after it. -/
theorem comesTo_cons_of_accept {symbol : Int} (hi : code[f.address]? = some (.accept symbol)) :
    comesTo k e (f :: visited) =
      some ⟨symbol, f.span.start, f.span.finish.getD (byteLength (text.take k))⟩ := by
  have hrests : Machine.rests code text[k.val]? f = true := by
    rw [Machine.rests, hi]
    rfl
  rw [comesTo, List.filter_cons_of_pos hrests]
  simp [Machine.harvest, hi, Fiber.toConfigsAfter, explore]

variable {i : Instr} (hi : code[f.address]? = some i)

include hi

/-- A fiber that passes control on leaves no trace. -/
theorem comesTo_cons_of_not_holds (h : i.holds text[k.val]? = false) :
    comesTo k e (f :: visited) = comesTo k e visited := by
  have hrests : ¬ Machine.rests code text[k.val]? f = true := by
    simp [Machine.rests, hi, h]
  rw [comesTo, List.filter_cons_of_neg hrests]
  rfl

/-- From a fiber that rests the search goes on behind the next character, before it comes to the
other fibers. -/
theorem explore_successors_of_holds (h : i.holds text[k.val]? = true)
    (hacc : ∀ symbol, i ≠ .accept symbol) {a : Fin code.size} {zs : List (Config text)}
    (hzs : ∀ e', (∀ b : Fin code.size, (b, k) ∈ e' ↔ (b, k) ∈ insert (a, k) e) →
      (explore code e' zs).1 = comesTo k e' visited) :
    (explore code (insert (a, k) e) (successors i (f.toConfig k) ++ zs)).1 =
      comesTo k e (f :: visited) := by
  have hrests : Machine.rests code text[k.val]? f = true := by
    rw [Machine.rests, hi]
    exact h
  rw [comesTo, List.filter_cons_of_pos hrests, Machine.harvest_cons_of_not_accept hi hacc,
    Fiber.toConfigsAfter_append, successors_of_holds h hacc, ← Fiber.toConfigsAfter_map]
  exact explore_detour (fun _ hx => place_of_mem_toConfigsAfter hx)
    (fun _ hy => place_of_mem_toConfigsAfter hy) hzs

end Visit

/-- Searching from the fibers of a generation comes to what the generation comes to. At the place of
the generation the addresses of `seen` have been entered, and at later places anything may have
been. -/
theorem explore_generation {k : Fin (text.length + 1)} {fibers visited : List Fiber} {seen : Set Nat}
    (h : Preorder.Visits code.size Fiber.address
      (Machine.followers code text[k.val]? (byteLength (text.take k))) fibers seen visited)
    (e : Entered code text) (he : ∀ a : Fin code.size, (a, k) ∈ e ↔ a.val ∈ seen) :
    (explore code e (fibers.map (Fiber.toConfig k))).1 = comesTo k e visited := by
  induction h generalizing e with
  | done => simp [comesTo, Machine.harvest, Fiber.toConfigsAfter, explore]
  | @skip f rest seen visited hf _ ih =>
    rw [List.map_cons]
    by_cases hlt : (f.toConfig k).address < code.size
    · rw [explore_entered hlt ((he _).mpr (hf hlt))]
      exact ih e he
    · rw [explore_outside hlt]
      exact ih e he
  | @visit f rest seen visited hlt hs hr ih =>
    have hlt' : (f.toConfig k).address < code.size := hlt
    have hnew : (⟨(f.toConfig k).address, hlt'⟩, k) ∉ e := fun hin => hs ((he _).mp hin)
    have he' : ∀ a : Fin code.size, (a, k) ∈ insert (⟨(f.toConfig k).address, hlt'⟩, k) e ↔
        a.val ∈ insert f.address seen := by
      intro a
      rw [Finset.mem_insert, he a, Set.mem_insert_iff, Prod.mk.injEq, Fin.ext_iff]
      simp [Fiber.toConfig]
    have hcode : code[f.address]? = some code[f.address] := Array.getElem?_eq_getElem hlt
    rw [List.map_cons]
    by_cases hacc : ∃ symbol, code[f.address] = .accept symbol
    · obtain ⟨symbol, hsym⟩ := hacc
      have hfound : found? code[(f.toConfig k).address] (f.toConfig k) =
          some ⟨symbol, f.span.start, f.span.finish.getD (byteLength (text.take k))⟩ := by
        show found? code[f.address] (f.toConfig k) = _
        rw [hsym]
        rfl
      rw [explore_found hlt' hnew hfound, comesTo_cons_of_accept (hcode.trans (congrArg some hsym))]
    · have hacc' : ∀ symbol, code[f.address] ≠ .accept symbol := fun s hsym => hacc ⟨s, hsym⟩
      have hfollowers : Machine.followers code text[k.val]? (byteLength (text.take k)) f =
          code[f.address].passOn text[k.val]? (byteLength (text.take k)) f := by
        rw [Machine.followers, hcode]
      rw [explore_step hlt' hnew (found?_eq_none hacc')]
      cases hholds : code[f.address].holds text[k.val]? with
      | true =>
        rw [hfollowers, Instr.passOn_of_holds hholds, List.nil_append] at ih
        exact explore_successors_of_holds hcode hholds hacc' fun e' hkeep =>
          ih e' fun b => (hkeep b).trans (he' b)
      | false =>
        rw [hfollowers, List.map_append, ← successors_of_not_holds hholds] at ih
        rw [comesTo_cons_of_not_holds hcode hholds, ← comesTo_insert ⟨f.address, hlt⟩]
        exact ih _ he'

/-! ## Whole runs -/

namespace Machine

/-- What a generation that visits the fibers `visited` comes to. -/
structure Generation.Reaches (next : Option Char) (offset : Nat) (g : Generation code.size)
    (visited : List Fiber) : Prop where
  /-- Every fiber visited counts. -/
  visits : g.visits = visited.length
  /-- Of all slots that they ask for, the most count. -/
  slots : g.slots = visited.foldl (fun n f => max n (slotsAt code f)) 0
  /-- Those that rest are kept, in order. -/
  resting : g.buffers.resting.toList = visited.filter (rests code next)
  /-- The match is the first among them. -/
  found : g.found = (harvest code next offset (visited.filter (rests code next))).1
  /-- The next generation begins with those that take the character. -/
  seeds : g.buffers.seeds.toList =
    (harvest code next offset (visited.filter (rests code next))).2

/-- Fibers spread out one after the other are visited in one walk. -/
theorem exists_visits_foldl_spread (next : Option Char) (offset : Nat) (fibers : List Fiber)
    {g : Generation code.size} (hs : g.buffers.seen.Consistent) (hstack : g.buffers.stack = []) :
    ∃ visited, Preorder.Visits code.size Fiber.address (followers code next offset) fibers
        {k | g.buffers.seen.contains k = true} visited ∧
      (fibers.foldl (spread code next offset) g).visits = g.visits + visited.length ∧
      (fibers.foldl (spread code next offset) g).slots =
        visited.foldl (fun n f => max n (slotsAt code f)) g.slots ∧
      (fibers.foldl (spread code next offset) g).buffers.resting.toList =
        g.buffers.resting.toList ++ visited.filter (rests code next) := by
  induction fibers generalizing g with
  | nil => exact ⟨[], .done, by simp⟩
  | cons f fibers ih =>
    obtain ⟨first, hwalk, hfirst, hcons, hseen⟩ := Preorder.exists_visits_walk Fiber.address
      (followers code next offset) [f] g.buffers.seen #[] hs
    have hlist : (Preorder.walk Fiber.address (followers code next offset) [f] g.buffers.seen
      #[]).1.toList = first := by simpa using hwalk
    have hspread : (spread code next offset g f).buffers.seen =
        (Preorder.walk Fiber.address (followers code next offset) [f] g.buffers.seen #[]).2 := by
      simp [spread, hstack]
    obtain ⟨rest, hrest, hvisits, hslots, hresting⟩ := ih (g := spread code next offset g f)
      (by rw [hspread]; exact hcons) rfl
    rw [hspread, hseen] at hrest
    refine ⟨first ++ rest, hfirst.append hrest, ?_, ?_, ?_⟩
    · rw [List.foldl_cons, hvisits]
      simp [spread, hstack, ← hlist, Nat.add_assoc]
    · rw [List.foldl_cons, hslots]
      simp [spread, hstack, ← hlist]
    · rw [List.foldl_cons, hresting]
      simp [spread, hstack, ← hlist]

/-- A generation visits what a walk from its seeds comes to, whatever the buffers hold besides. -/
theorem generation_spec (code : Array Instr) (next : Option Char) (offset : Nat)
    {b : Buffers code.size} (hb : b.stack = []) :
    ∃ visited, Preorder.Visits code.size Fiber.address (followers code next offset) b.seeds.toList ∅
        visited ∧ (generation code next offset b).Reaches next offset visited := by
  obtain ⟨visited, hvis, hvisits, hslots, hresting⟩ := exists_visits_foldl_spread next offset
    b.seeds.toList (g := ⟨none, 0, 0, ⟨b.seen.clear, #[], #[], b.stack⟩⟩) b.seen.consistent_clear hb
  have hset : {k | b.seen.clear.contains k = true} = ∅ := by ext k; simp
  rw [hset] at hvis
  rw [Nat.zero_add] at hvisits
  rw [List.nil_append] at hresting
  refine ⟨visited, hvis, hvisits, hslots, hresting, ?_, ?_⟩
  all_goals
    rw [← hresting]
    rfl

end Machine

/-- Without a character no fiber is left for the next generation. -/
theorem harvest_none_snd (code : Array Instr) (offset : Nat) (fs : List Fiber) :
    (Machine.harvest code none offset fs).2 = [] := by
  induction fs with
  | nil => rfl
  | cons f fs ih =>
    cases hi : code[f.address]? with
    | none =>
      rw [Machine.harvest, hi]
      exact ih
    | some i =>
      by_cases hacc : ∃ symbol, i = .accept symbol
      · obtain ⟨symbol, rfl⟩ := hacc
        rw [Machine.harvest, hi]
      · rw [Machine.harvest_cons_of_not_accept hi fun symbol h => hacc ⟨symbol, h⟩]
        simpa using ih

theorem Fiber.toConfigsAfter_eq_map {k : Fin (text.length + 1)} (hk : k.val < text.length)
    (fs : List Fiber) :
    toConfigsAfter k fs = fs.map (toConfig ⟨k.val + 1, Nat.succ_lt_succ hk⟩) := by
  induction fs with
  | nil => rfl
  | cons f fs ih =>
    rw [List.map_cons, ← ih]
    simp [toConfigsAfter, Config.consumeTo, toConfig, hk]

/-- The bytes before the next place are those before this one and those of the character at it. -/
theorem byteLength_take_succ {k : Nat} (hk : k < text.length) :
    byteLength (text.take (k + 1)) = byteLength (text.take k) + text[k].utf8Size := by
  rw [List.take_succ_eq_append_getElem hk, byteLength_append]
  rfl

/-- A run from the seeds of a generation finds what a search from them finds that has entered
nothing from their place on, or else keeps the match it has. -/
theorem search_eq_explore (k : Fin (text.length + 1)) (best : Option Match)
    (statistics : Statistics) {b : Machine.Buffers code.size} (hb : b.stack = [])
    (e : Entered code text) (he : ∀ p ∈ e, p.2.val < k.val) :
    (Machine.search code (text.drop k) (byteLength (text.take k)) best statistics b).result =
      (explore code e (b.seeds.toList.map (Fiber.toConfig k))).1.or best := by
  obtain ⟨k, hk⟩ := k
  -- induction on what is left of the text
  induction hn : text.length - k generalizing k best statistics b with
  | zero =>
    have hend : text.length ≤ k := by omega
    have hnext : text[k]? = none := List.getElem?_eq_none hend
    obtain ⟨visited, hvis, hreach⟩ := Machine.generation_spec code none (byteLength (text.take k)) hb
    rw [← hnext] at hvis
    have hgen := explore_generation (k := ⟨k, hk⟩) hvis e fun a =>
      iff_of_false (fun ha => Nat.lt_irrefl _ (he _ ha)) (Set.notMem_empty _)
    simp only [comesTo, hnext] at hgen
    rw [hgen, harvest_none_snd, List.drop_eq_nil_of_le hend, Machine.search, hreach.found]
    simp [Fiber.toConfigsAfter, explore]
  | succ n ih =>
    have hlt : k < text.length := by omega
    have hnext : text[k]? = some text[k] := List.getElem?_eq_getElem hlt
    obtain ⟨visited, hvis, hreach⟩ := Machine.generation_spec code (some text[k])
      (byteLength (text.take k)) hb
    rw [← hnext] at hvis
    have hgen := explore_generation (k := ⟨k, hk⟩) hvis e fun a =>
      iff_of_false (fun ha => Nat.lt_irrefl _ (he _ ha)) (Set.notMem_empty _)
    simp only [comesTo, hnext] at hgen
    rw [← hreach.found, ← hreach.seeds] at hgen
    rw [hgen, List.drop_eq_getElem_cons hlt, Machine.search]
    simp only
    by_cases hempty : (Machine.generation code (some text[k]) (byteLength (text.take k))
        b).buffers.seeds.isEmpty
    · rw [if_pos hempty, Array.isEmpty_iff.mp hempty]
      simp [Fiber.toConfigsAfter, explore]
    · rw [if_neg hempty, ← byteLength_take_succ hlt]
      rw [ih _ _ (Machine.stack_generation hb _ _) (k + 1) (by omega)
          (fun p hp => (he p hp).trans (Nat.lt_succ_self k)) (by omega),
        Fiber.toConfigsAfter_eq_map hlt, Option.or_assoc]

/-- The machine finds the first match of a backtracking search, whatever is left in it from earlier
runs. -/
theorem Machine.run_result (m : Machine) (cur : Cursor) :
    (m.run cur).result = (explore m.code ∅ [start cur.position.rest]).1 := by
  have h := @search_eq_explore cur.position.rest m.code 0 none {} m.primed m.stack_primed ∅ (by simp)
  simpa [Machine.run, Machine.primed, start, Fiber.toConfig] using h

/-- Running a program at the beginning of a text gives the first match of a backtracking search: the
same symbol, beginning and end, and no match exactly if the search finds none. As everything about
`run`, this is said of a run that has room for its slots, as each run has if the program records in
slots below `slotLimit` (`run?_ofProgram_map_result`). -/
theorem Machine.run_ofProgram_eq_search (p : Program) (text : String) :
    ((Machine.ofProgram p).run (.ofString text)).result = Backtrack.search p text.toList :=
  Machine.run_result _ _

end FiberLex
