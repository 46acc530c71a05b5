import FiberLex.Proofs.Automaton.Prune
import FiberLex.Proofs.Machine.Lockstep
import FiberLex.Proofs.Program.Outcome
import Mathlib.Data.List.Permutation

/-!
# Longest matches of linked code

The code of an automaton that is deterministic as far as it can be reached, linked with the fallback
and not improved any further, finds the longest beginning of a text that the automaton accepts, and
takes one character for the fallback if there is none. Here the fallback is an alternative to the
start, not a part of it, so coming back to the start does no harm.

States that cannot be reached leave no trace in the code, so they are emptied first.
-/

namespace FiberLex.Program

open Automaton Backtrack

/-! ## Code of automata that agree -/

section Agrees

variable {a b : Automaton} {i : Nat}

theorem hasCode_congr (h : a.Agrees b) (hi : a.Reaches a.start i) : hasCode b i = hasCode a i := by
  unfold hasCode
  rw [h.state hi, h.start]

theorem isLeftOut_congr (h : a.Agrees b) (hi : a.Reaches a.start i) :
    isLeftOut b i = isLeftOut a i := by
  unfold isLeftOut
  rw [hasCode_congr h hi, h.state hi]

theorem codeSize_congr (h : a.Agrees b) (hi : a.Reaches a.start i) :
    codeSize b i = codeSize a i := by
  have hexits : hasExits b i = hasExits a i := by
    unfold hasExits
    rw [h.state hi]
    congr 1
    rw [Bool.eq_iff_iff, List.any_eq_true, List.any_eq_true]
    exact exists_congr fun j => and_congr_right fun hj => by
      rw [isLeftOut_congr h (hi.epsilon hj)]
  unfold codeSize
  rw [hasCode_congr h hi, h.state hi, hexits]

theorem totalSize_congr (h : a.Agrees b) {order : List Nat}
    (horder : ∀ i ∈ order, a.Reaches a.start i) : totalSize b order = totalSize a order := by
  induction order with
  | nil => rfl
  | cons i order ih =>
    obtain ⟨hi, horder⟩ := List.forall_mem_cons.mp horder
    rw [totalSize, totalSize, codeSize_congr h hi, ih horder]

theorem placed_congr (h : a.Agrees b) {order : List Nat}
    (horder : ∀ i ∈ order, a.Reaches a.start i) (base : Nat) :
    placed b base order = placed a base order := by
  induction order generalizing base with
  | nil => rfl
  | cons i order ih =>
    obtain ⟨hi, horder⟩ := List.forall_mem_cons.mp horder
    rw [placed, placed, hasCode_congr h hi, codeSize_congr h hi, ih horder, ih horder]

theorem layout_congr (h : a.Agrees b) (ha : a.Valid) (symbols : List Int) :
    layout b symbols = layout a symbols := by
  have hreach : ∀ i ∈ a.closure, a.Reaches a.start i := fun i hi => (mem_closure_iff ha).mp hi
  unfold layout
  simp only [h.closure ha, h.size, placed_congr h hreach, totalSize_congr h hreach]

theorem address?_congr (h : a.Agrees b) (hi : a.Reaches a.start i) (l : Layout) :
    l.address? b i = l.address? a i := by
  unfold Layout.address?
  rw [hasCode_congr h hi, h.state hi]

theorem stateCode_congr (h : a.Agrees b) (hi : a.Reaches a.start i) (l : Layout) (base : Nat) :
    stateCode b l base i = stateCode a l base i := by
  have hepsilons : (a.state i).epsilons.filterMap (l.address? b) =
      (a.state i).epsilons.filterMap (l.address? a) :=
    List.filterMap_congr fun j hj => address?_congr h (hi.epsilon hj) l
  have hcases : casesOf b l i = casesOf a l i := by
    unfold casesOf
    rw [h.state hi]
    refine List.filterMap_congr fun p hp => ?_
    obtain ⟨target, htarget, rfl⟩ := List.mem_map.mp hp
    obtain ⟨e, he, rfl⟩ := List.mem_map.mp (List.mem_eraseDups.mp htarget)
    simp only [address?_congr h (hi.edge he)]
  unfold casesOf at hcases
  unfold stateCode
  simp only [h.state hi, hepsilons] at hcases ⊢
  simp only [hcases]

theorem symbolTable_congr (h : a.Agrees b) (ha : a.Valid) :
    b.symbolTable none = a.symbolTable none := by
  have hmap : ∀ order : List Nat, (∀ i ∈ order, a.Reaches a.start i) →
      order.mapM b.acceptSymbol? = order.mapM a.acceptSymbol? := by
    intro order horder
    induction order with
    | nil => rfl
    | cons i order ih =>
      obtain ⟨hi, horder⟩ := List.forall_mem_cons.mp horder
      have haccept : b.acceptSymbol? i = a.acceptSymbol? i := by
        unfold acceptSymbol?
        rw [h.state hi]
      rw [List.mapM_cons, List.mapM_cons, haccept, ih horder]
  unfold symbolTable
  simp only [h.closure ha, hmap a.closure fun i hi => (mem_closure_iff ha).mp hi]

/-- Automata that agree on the states that can be reached have the same code. -/
theorem ofAutomaton_congr (h : a.Agrees b) (ha : a.Valid) : ofAutomaton b = ofAutomaton a := by
  have hreach : ∀ i ∈ a.closure, a.Reaches a.start i := fun i hi => (mem_closure_iff ha).mp hi
  have hcode : ∀ l, (placed a 0 a.closure).flatMap (fun p => stateCode b l p.2 p.1) =
      (placed a 0 a.closure).flatMap fun p => stateCode a l p.2 p.1 := by
    intro l
    refine List.flatMap_congr fun p hp => stateCode_congr h ?_ l p.2
    have hmem : p.1 ∈ (placed a 0 a.closure).map (·.1) := List.mem_map_of_mem hp
    rw [map_fst_placed] at hmem
    exact hreach _ (List.mem_filter.mp hmem).1
  unfold ofAutomaton
  simp only [symbolTable_congr h ha, h.closure ha, placed_congr h hreach, layout_congr h ha, hcode]

end Agrees

/-! ## The search from a state -/

section Search

variable {a : Automaton} {text : List Char} {code : Program} {own : Nat → Nat}
  {finish : Int → Nat} {i : Nat} {x : Config text}

/-- A search from the code of a state comes to the longest match of what is left of the text. -/
def FindsLongest (code : Program) (a : Automaton) (i : Nat) (x : Config text) : Prop :=
  ∃ o, IsLongest a i (text.drop x.place) o ∧ Finds code.toArray [x] (report x o)

/-- Behind the next character a search comes to the longest match of the next state. -/
def FindsLongestAfter (code : Program) (a : Automaton) (own : Nat → Nat) (i : Nat)
    (x : Config text) : Prop :=
  ∀ c w j, text.drop x.place = c :: w → live? a i c.toNat = some j →
    ∀ y : Config text, y.address = own j → y.place.val = x.place + 1 → FindsLongest code a j y

/-- A switch comes to what is longer than the match of the state itself. -/
theorem FindsLongestAfter.switch (ha : a.Deterministic) (hs : a.Symbolled)
    (h : FindsLongestAfter code a own i x) {address : Nat} {cases : List Case}
    (hswitch : code[address]? = some (.switch cases [])) (hselects : Selects a own i cases) :
    ∃ o, IsLongest a i (text.drop x.place) (o.or (stopAt a i)) ∧
      Finds code.toArray [x.goto address] (report x o) := by
  rcases blocked_or a i (text.drop x.place) with hblocked | ⟨c, w, j, hw, hlive⟩
  · refine ⟨none, isLongest_of_blocked ha hs hblocked, ?_⟩
    refine finds_switch_otherwise (x := x.goto address) hswitch hselects ?_ .nil
    intro c hc
    exact hblocked c (by rw [← next?_eq_head?]; exact hc)
  · have hlt : x.place.val < text.length := by
      by_contra hge
      rw [List.drop_eq_nil_of_le (by omega)] at hw
      cases hw
    have hnext : (x.goto address).next? = some c := by
      rw [next?_eq_head?]
      exact (congrArg List.head? hw).trans rfl
    have hrest : text.drop (x.place + 1) = w := by
      rw [← List.drop_drop, hw]
      rfl
    obtain ⟨o, ho, hfinds⟩ := h c w j hw hlive (past x (own j) hlt) rfl rfl
    refine ⟨o.map fun p => (p.1, p.2 + 1), ?_, ?_⟩
    · rw [hw]
      exact IsLongest.cons ha hs hlive (hrest ▸ ho)
    · rw [← report_consume x (own j) hlt]
      exact finds_switch_case (x := x.goto address) hswitch hselects hnext hlive hlt hfinds

/-- What a state does, once it is known what is found behind the next character. -/
theorem Hosts.findsLongest_state (h : Hosts code a own finish []) (ha : a.Deterministic)
    (hs : a.Symbolled) (hstart : (a.state a.start).edges ≠ []) (hi : a.Reaches a.start i)
    (hleft : isLeftOut a i = false) (hx : x.address = own i)
    (hafter : FindsLongestAfter code a own i x) : FindsLongest code a i x := by
  cases hacc : (a.state i).accepting with
  | false =>
    have hedges : (a.state i).edges ≠ [] := by
      intro hnil
      have hne : i ≠ a.start := by
        rintro rfl
        exact hstart hnil
      rw [(isLeftOut_iff ha).mpr ⟨hnil, hne, hacc⟩] at hleft
      cases hleft
    obtain ⟨-, cases, hselects, hswitch⟩ := h.rejecting i hi hedges hacc
    rw [ite_self, ← hx] at hswitch
    obtain ⟨o, ho, hfinds⟩ := hafter.switch ha hs hswitch hselects
    rw [stopAt_of_rejecting hacc, Option.or_none] at ho
    exact ⟨o, ho, hfinds⟩
  | true =>
    obtain ⟨symbol, hsymbol⟩ := Option.isSome_iff_exists.mp (hs i hacc)
    have haccept := acceptOf_eq_some_iff.mpr ⟨hacc, hsymbol⟩
    have hstop := stopAt_of_accepting haccept
    obtain ⟨-, hsave, hend⟩ := h.ends i symbol hi haccept
    by_cases hedges : (a.state i).edges = []
    · -- nothing but a match, which is shared with other states
      have hne : i ≠ a.start := by
        rintro rfl
        exact hstart hedges
      have hblocked : Blocked a i (text.drop x.place) :=
        fun c _ => live?_eq_none_of_terminal hedges c.toNat
      rw [h.terminal i symbol hi hedges hne haccept] at hx
      refine ⟨stopAt a i, isLongest_of_blocked ha hs hblocked, ?_⟩
      rw [hstop]
      exact finds_end (hx ▸ hsave) (hx ▸ hend)
    · obtain ⟨-, cases, hselects, hjump, hswitch⟩ := h.accepting i symbol hi hedges haccept
      rw [← hx] at hjump hswitch
      obtain ⟨o, ho, hfinds⟩ := hafter.switch ha hs hswitch hselects
      rw [hstop] at ho
      exact ⟨_, ho, finds_jump_pair hjump hfinds (finds_end hsave hend)⟩

/-- A search from the code of a state comes to the longest match of what is left of the text. -/
theorem Hosts.findsLongest (h : Hosts code a own finish []) (ha : a.Deterministic)
    (hs : a.Symbolled) (hstart : (a.state a.start).edges ≠ []) (hi : a.Reaches a.start i)
    (hleft : isLeftOut a i = false) (hx : x.address = own i) : FindsLongest code a i x := by
  generalize hw : text.drop x.place = w
  -- induction on what is left of the text
  induction w generalizing i x with
  | nil =>
    refine h.findsLongest_state ha hs hstart hi hleft hx ?_
    intro c w j hcons
    rw [hw] at hcons
    cases hcons
  | cons c w ih =>
    refine h.findsLongest_state ha hs hstart hi hleft hx ?_
    intro c' w' j hcons hlive y hy hplace
    rw [hw] at hcons
    obtain ⟨rfl, rfl⟩ := List.cons.inj hcons
    obtain ⟨hj, hjleft⟩ := reaches_of_live? ha hi hlive
    refine ih hj hjleft hy ?_
    rw [hplace, ← List.drop_drop, hw]
    rfl

end Search

/-! ## The linked program -/

section Linked

variable {a : Automaton}

/-- A search that begins with the code of the automaton comes to the longest match. -/
theorem findsLongest_entry (ha : a.Deterministic) (hs : a.Symbolled) (text : List Char) :
    FindsLongest (linkFragments [codeOf a]) a a.start (⟨2, 0, {}⟩ : Config text) := by
  rw [linkFragments_singleton]
  by_cases hstart : (a.state a.start).edges = []
  · have hblocked : Blocked a a.start text := fun c _ => live?_eq_none_of_terminal hstart c.toNat
    refine ⟨stopAt a a.start, isLongest_of_blocked ha hs hblocked, ?_⟩
    rw [codeOf_of_terminal ha hs hstart]
    cases haccept : acceptOf a a.start with
    | some symbol =>
      rw [stopAt_of_accepting haccept]
      exact .step rfl rfl (finds_end rfl rfl)
    | none =>
      rw [stopAt, haccept]
      exact .step rfl rfl .nil
  · have hhosts := (hosts_codeOf ha hs).relocate [.save 0, .jump [2, 2 + (codeOf a).length]]
      fallback
    refine hhosts.findsLongest ha hs hstart .refl (isLeftOut_start a) ?_
    rw [ownOf_start ha.valid]
    rfl

/-- A search through the linked program comes to the longest match, or else to the fallback. -/
theorem finds_linkFragments (ha : a.Deterministic) (hs : a.Symbolled) (text : List Char) :
    ∃ o, IsLongest a a.start text o ∧
      Finds (linkFragments [codeOf a]).toArray [Backtrack.start text]
        (report (Backtrack.start text) (o.or (text.head?.map fun _ => (errorSymbol, 1)))) := by
  obtain ⟨o, ho, hfinds⟩ := findsLongest_entry ha hs text
  refine ⟨o, ho, ?_⟩
  rw [linkFragments_singleton] at hfinds ⊢
  have hfalls : Falls (.save 0 :: .jump [2, 2 + (codeOf a).length] ::
      ((codeOf a).relocate 2 ++ fallback)) (2 + (codeOf a).length) := by
    have hlen : ([.save 0, .jump [2, 2 + (codeOf a).length]] ++ (codeOf a).relocate 2 :
        Program).length = 2 + (codeOf a).length := by
      rw [List.length_append, length_relocate]
      rfl
    rw [← hlen]
    exact falls_append _
  have hfallback := finds_fallback
    (x := (⟨2 + (codeOf a).length, 0, {}⟩ : Config text)) hfalls
  rw [next?_eq_head?] at hfallback
  refine finds_start rfl ?_
  exact finds_jump_pair rfl hfinds hfallback

/-- What the machine comes to on the linked program is the longest match, or else the fallback. -/
theorem run_linkFragments (ha : a.Deterministic) (hs : a.Symbolled) (text : String) :
    ∃ o, IsLongest a a.start text.toList o ∧
      ((Machine.ofProgram (linkFragments [codeOf a])).run (.ofString text)).result =
        report (Backtrack.start text.toList)
          (o.or (text.toList.head?.map fun _ => (errorSymbol, 1))) := by
  obtain ⟨o, ho, hfinds⟩ := finds_linkFragments ha hs text.toList
  refine ⟨o, ho, ?_⟩
  rw [Machine.run_result]
  exact search_eq_of_finds hfinds

end Linked

/-! ## Longest accepted beginnings -/

/-- The first `n` characters of a text are accepted, and no more of them are. -/
def LongestAccepted (a : Automaton) (text : List Char) (n : Nat) : Prop :=
  n ≤ text.length ∧ a.accepts (text.take n) = true ∧
    ∀ m, n < m → m ≤ text.length → a.accepts (text.take m) = false

/-- The longest match is the longest beginning that is accepted, with the symbol of the state to
which it leads. -/
theorem IsLongest.of_longestAccepted {a : Automaton} (ha : a.Deterministic) {text : List Char}
    {n : Nat} {o : Option (Int × Nat)} (ho : IsLongest a a.start text o)
    (h : LongestAccepted a text n) :
    ∃ j symbol, a.run (text.take n) = ([j], []) ∧ (a.state j).symbol = some symbol ∧
      o = some (symbol, n) := by
  obtain ⟨hn, haccepts, hlonger⟩ := h
  obtain ⟨s, hs⟩ := (accepts_iff_yields ha.valid).mp haccepts
  cases o with
  | none => exact absurd hs (ho n s)
  | some p =>
    obtain ⟨symbol, m⟩ := p
    obtain ⟨hm, hyields, hno⟩ := ho
    -- neither of the two lengths is the greater one
    have hle : ¬ n < m := by
      intro hlt
      have := (accepts_iff_yields ha.valid).mpr ⟨_, hyields⟩
      rw [hlonger m hlt hm] at this
      cases this
    have hge : ¬ m < n := fun hlt => hno n s hlt hn hs
    obtain rfl : n = m := by omega
    obtain ⟨j, hj, -, hsymbol⟩ := ha.yields_iff.mp hyields
    exact ⟨j, symbol, ha.run_eq hj, hsymbol, rfl⟩

theorem IsLongest.eq_none {a : Automaton} (ha : a.Valid) {text : List Char}
    {o : Option (Int × Nat)} (ho : IsLongest a a.start text o)
    (h : ∀ n, a.accepts (text.take n) = false) : o = none := by
  cases o with
  | none => rfl
  | some p =>
    have := (accepts_iff_yields ha).mpr ⟨_, ho.2.1⟩
    rw [h] at this
    cases this

/-- The linked program of an automaton that is deterministic as far as it can be reached finds the
longest beginning of the text that is accepted, with the symbol of the state to which it leads. If
no beginning is accepted, not even the empty one, it takes one character with the error symbol, or
finds nothing in the empty text. -/
theorem run_ofAutomaton_longest {a : Automaton} (ha : a.Valid)
    (hdet : ∀ i, a.Reaches a.start i → Determined (a.state i)) (text : String) :
    ∃ code result, ofAutomaton a = .ok code ∧
      ((Machine.ofProgram (linkFragments [code])).run (.ofString text)).result = result ∧
      (∀ n, LongestAccepted a text.toList n → ∃ j symbol,
        a.run (text.toList.take n) = ([j], []) ∧ (a.state j).symbol = some symbol ∧
          result = some ⟨symbol, 0, byteLength (text.toList.take n)⟩) ∧
      ((∀ n, a.accepts (text.toList.take n) = false) →
        result = text.toList.head?.map fun c => ⟨errorSymbol, 0, c.utf8Size⟩) := by
  have hagrees := agrees_prune ha
  have hprune := deterministic_prune ha hdet
  have hcode : ofAutomaton a = .ok (codeOf a.prune) := by
    rw [← ofAutomaton_congr hagrees ha, ofAutomaton_eq (symbolled_prune ha hdet)]
  obtain ⟨o, ho, hrun⟩ := run_linkFragments hprune (symbolled_prune ha hdet) text
  refine ⟨_, _, hcode, hrun, fun n hn => ?_, fun hnone => ?_⟩
  · have hlongest : LongestAccepted a.prune text.toList n := by
      simpa only [LongestAccepted, hagrees.accepts] using hn
    obtain ⟨j, symbol, hstate, hsymbol, rfl⟩ := ho.of_longestAccepted hprune hlongest
    rw [hagrees.run] at hstate
    have hj : a.Reaches a.start j := reaches_of_mem_run (w := text.toList.take n) (by simp [hstate])
    refine ⟨j, symbol, hstate, hagrees.state hj ▸ hsymbol, ?_⟩
    simp [report, Backtrack.start]
  · rw [ho.eq_none hprune.valid fun n => (hagrees.accepts _).trans (hnone n)]
    cases text.toList with
    | nil => rfl
    | cons c w => simp [report, Backtrack.start]

/-- An automaton that comes back to its start, with a state that cannot be reached and has an
epsilon and no symbol. -/
def seesaw : Automaton where
  states := #[
    { edges := [⟨⟨97, 97⟩, 1⟩] },
    { accepting := true, symbol := some 7, edges := [⟨⟨98, 98⟩, 0⟩] },
    { accepting := true, epsilons := [0] }]
  start := 0

theorem closure_seesaw : seesaw.closure = [0, 1] := by cbv

theorem determined_seesaw (i : Nat) (hi : seesaw.Reaches seesaw.start i) :
    Determined (seesaw.state i) := by
  have hvalid : seesaw.Valid := by decide
  rw [← mem_closure_iff hvalid, closure_seesaw] at hi
  rcases List.mem_pair.mp hi with rfl | rfl
  · exact ⟨rfl, by decide, by decide, by decide⟩
  · exact ⟨rfl, by decide, by decide, by decide⟩

theorem run_ofAutomaton_longest_seesaw :
    seesaw.Valid ∧ (∀ i, seesaw.Reaches seesaw.start i → Determined (seesaw.state i)) ∧
      ∃ code, ofAutomaton seesaw = .ok code ∧
        ((Machine.ofProgram (linkFragments [code])).run (.ofString "abx")).result =
          some ⟨7, 0, 1⟩ := by
  refine ⟨by decide, determined_seesaw, ?_⟩
  obtain ⟨code, result, hcode, hrun, hlongest, -⟩ :=
    run_ofAutomaton_longest (by decide) determined_seesaw "abx"
  have haccepted : LongestAccepted seesaw "abx".toList 1 := by
    refine ⟨by decide, by cbv, fun m hm hle => ?_⟩
    have hle : m ≤ 3 := hle
    obtain rfl | rfl : m = 2 ∨ m = 3 := by omega
    · cbv
    · cbv
  obtain ⟨j, symbol, hstate, hsymbol, rfl⟩ := hlongest 1 haccepted
  have hone : seesaw.run ("abx".toList.take 1) = ([1], []) := by cbv
  rw [hone] at hstate
  cases hstate
  cases hsymbol
  exact ⟨code, hcode, hrun⟩

end FiberLex.Program
