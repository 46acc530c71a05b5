import FiberLex.Program.OfAutomaton
import FiberLex.Proofs.Automaton.Copies
import FiberLex.Proofs.Automaton.Reduce
import FiberLex.Proofs.Machine.FirstMatch

/-!
# The code of a deterministic automaton

Where the instructions of each state are. `Hosts code a own finish otherwise` collects what the
execution needs to know of code for an automaton: at `own i` stands what state `i` does, and at
`finish symbol` the end for a symbol. The code that is made of a deterministic automaton hosts it
(`hosts_codeOf`).
-/

namespace FiberLex.Program

open Automaton CodeSet

variable {a : Automaton} {l : Layout} {i : Nat}

/-! ## States without epsilons -/

theorem isTerminal_eq (ha : a.Deterministic) (i : Nat) :
    (a.state i).isTerminal = (a.state i).edges.isEmpty := by
  simp [State.isTerminal, ha.epsilons]

theorem hasCode_iff (ha : a.Deterministic) :
    hasCode a i = true ↔ (a.state i).edges ≠ [] ∨ i = a.start := by
  simp [hasCode, isTerminal_eq ha]

theorem isLeftOut_iff (ha : a.Deterministic) :
    isLeftOut a i = true ↔
      (a.state i).edges = [] ∧ i ≠ a.start ∧ (a.state i).accepting = false := by
  simp [isLeftOut, hasCode, isTerminal_eq ha, and_assoc]

/-- The end of a state that is accepting. -/
def exits (a : Automaton) (l : Layout) (i : Nat) : List Nat :=
  if (a.state i).accepting then ((a.state i).symbol.map l.endOf).toList else []

/-- The cases of a state, for the successors that are not left out. -/
def casesOf (a : Automaton) (l : Layout) (i : Nat) : List Case :=
  (a.state i).edgesByTarget.filterMap fun (target, set) => (l.address? a target).map (⟨set, ·⟩)

theorem stateCode_eq (ha : a.Deterministic) (l : Layout) (base i : Nat) :
    stateCode a l base i =
      if (a.state i).edges.isEmpty then [.jump (exits a l i)]
      else if (exits a l i).isEmpty then [.switch (casesOf a l i) []]
      else [.jump ((base + 1) :: exits a l i), .switch (casesOf a l i) []] := by
  simp only [stateCode, ha.epsilons, List.filterMap_nil, List.nil_append]
  rfl

theorem exits_of_accepting {symbol : Int} (hacc : (a.state i).accepting = true)
    (hsymbol : (a.state i).symbol = some symbol) : exits a l i = [l.endOf symbol] := by
  simp [exits, hacc, hsymbol]

theorem exits_of_not_accepting (hacc : (a.state i).accepting = false) : exits a l i = [] := by
  simp [exits, hacc]

theorem exits_isEmpty (hs : a.Symbolled) : (exits a l i).isEmpty = !(a.state i).accepting := by
  cases hacc : (a.state i).accepting with
  | false => rw [exits_of_not_accepting hacc]; rfl
  | true =>
    obtain ⟨symbol, hsymbol⟩ := Option.isSome_iff_exists.mp (hs i hacc)
    rw [exits_of_accepting hacc hsymbol]
    rfl

theorem codeSize_eq (ha : a.Deterministic) (i : Nat) :
    codeSize a i =
      if hasCode a i then if !(a.state i).edges.isEmpty && (a.state i).accepting then 2 else 1
      else 0 := by
  simp [codeSize, hasExits, ha.epsilons]

/-- A state with edges that does not accept is a switch. -/
theorem stateCode_of_rejecting (ha : a.Deterministic) (hedges : (a.state i).edges ≠ [])
    (hacc : (a.state i).accepting = false) (base : Nat) :
    stateCode a l base i = [.switch (casesOf a l i) []] := by
  rw [stateCode_eq ha, exits_of_not_accepting hacc]
  simp [hedges]

/-- A state with edges that accepts is a choice between a switch and the end of its symbol. -/
theorem stateCode_of_accepting (ha : a.Deterministic) (hedges : (a.state i).edges ≠ [])
    {symbol : Int} (hacc : (a.state i).accepting = true)
    (hsymbol : (a.state i).symbol = some symbol) (base : Nat) :
    stateCode a l base i =
      [.jump [base + 1, l.endOf symbol], .switch (casesOf a l i) []] := by
  rw [stateCode_eq ha, exits_of_accepting hacc hsymbol]
  simp [hedges]

theorem codeSize_of_accepting (ha : a.Deterministic) (hedges : (a.state i).edges ≠ [])
    (hacc : (a.state i).accepting = true) : codeSize a i = 2 := by
  rw [codeSize_eq ha, if_pos ((hasCode_iff ha).mpr (Or.inl hedges))]
  simp [hedges, hacc]

theorem length_stateCode (ha : a.Deterministic) (hs : a.Symbolled) (base : Nat)
    (hi : hasCode a i = true) : (stateCode a l base i).length = codeSize a i := by
  rw [stateCode_eq ha, codeSize_eq ha, if_pos hi, exits_isEmpty hs]
  cases (a.state i).edges.isEmpty <;> cases (a.state i).accepting <;> rfl

/-! ## Segments -/

/-- The instructions of the states of a list, from `base` on. -/
def segments (a : Automaton) (l : Layout) (base : Nat) (order : List Nat) : Program :=
  (placed a base order).flatMap fun p => stateCode a l p.2 p.1

theorem segments_cons (l : Layout) (base i : Nat) (order : List Nat) :
    segments a l base (i :: order) =
      if hasCode a i then stateCode a l base i ++ segments a l (base + codeSize a i) order
      else segments a l base order := by
  simp only [segments, placed]
  split
  · rw [List.flatMap_cons]
  · rfl

theorem length_segments (ha : a.Deterministic) (hs : a.Symbolled) (l : Layout) (base : Nat)
    (order : List Nat) : (segments a l base order).length = totalSize a order := by
  induction order generalizing base with
  | nil => rfl
  | cons i order ih =>
    rw [segments_cons, totalSize]
    split
    · rename_i hi
      rw [List.length_append, length_stateCode ha hs base hi, ih]
    · rename_i hi
      rw [ih, codeSize, if_neg hi, Nat.zero_add]

/-- A state with code has its instructions at its address. -/
theorem getElem?_segments (ha : a.Deterministic) (hs : a.Symbolled) (l : Layout) {base : Nat}
    {order : List Nat} {addr : Nat} (h : (i, addr) ∈ placed a base order) :
    hasCode a i = true ∧ base ≤ addr ∧ addr + codeSize a i ≤ base + totalSize a order ∧
      ∀ k < codeSize a i,
        (segments a l base order)[addr - base + k]? = (stateCode a l addr i)[k]? := by
  induction order generalizing base with
  | nil => cases h
  | cons j order ih =>
    rw [totalSize]
    simp only [segments_cons]
    rw [placed] at h
    by_cases hj : hasCode a j = true
    · rw [if_pos hj] at h
      simp only [hj, if_true]
      have hlen := length_stateCode (l := l) ha hs base hj
      rcases List.mem_cons.mp h with heq | h
      · obtain ⟨rfl, rfl⟩ := Prod.mk.inj heq
        refine ⟨hj, Nat.le_refl _, by omega, fun k hk => ?_⟩
        rw [Nat.sub_self, Nat.zero_add, List.getElem?_append_left (by omega)]
      · obtain ⟨h1, h2, h3, h4⟩ := ih h
        refine ⟨h1, by omega, by omega, fun k hk => ?_⟩
        rw [List.getElem?_append_right (by omega), hlen, ← h4 k hk]
        congr 1
        omega
    · rw [if_neg hj] at h
      simp only [hj, Bool.false_eq_true, if_false]
      obtain ⟨h1, h2, h3, h4⟩ := ih h
      exact ⟨h1, h2, by omega, h4⟩

theorem exists_mem_placed {order : List Nat} (hi : i ∈ order) (hcode : hasCode a i = true)
    (base : Nat) : ∃ addr, (i, addr) ∈ placed a base order := by
  induction order generalizing base with
  | nil => cases hi
  | cons j order ih =>
    rw [placed]
    rcases List.mem_cons.mp hi with rfl | hi
    · exact ⟨base, by simp [hcode]⟩
    · split
      · obtain ⟨addr, haddr⟩ := ih hi (base + codeSize a j)
        exact ⟨addr, List.mem_cons_of_mem _ haddr⟩
      · exact ih hi base

theorem map_fst_placed (order : List Nat) (base : Nat) :
    (placed a base order).map (·.1) = order.filter (hasCode a) := by
  induction order generalizing base with
  | nil => rfl
  | cons i order ih =>
    rw [placed]
    split
    · rename_i hi
      rw [List.map_cons, ih, List.filter_cons_of_pos hi]
    · rename_i hi
      rw [ih, List.filter_cons_of_neg hi]

/-- The table of addresses has those of the states that were placed. -/
theorem getElem?_own {symbols : List Int} {addr : Nat} (h : (i, addr) ∈ placed a 0 a.closure) :
    ((layout a symbols).own[i]?).join = some addr := by
  have hnodup : ((placed a 0 a.closure).map (·.1)).Nodup := by
    rw [map_fst_placed]
    exact (nodup_closureFrom a a.start).filter _
  have hlt : ∀ p ∈ placed a 0 a.closure,
      p.1 < (Array.replicate a.states.size (none : Option Nat)).size := by
    intro p hp
    have hmem : p.1 ∈ (placed a 0 a.closure).map (·.1) := List.mem_map_of_mem hp
    rw [map_fst_placed] at hmem
    rw [Array.size_replicate]
    exact lt_size_of_mem_closureFrom (List.mem_filter.mp hmem).1
  unfold layout
  simp only
  rw [(getElem?_foldl_set hnodup hlt i).1 addr h]
  rfl

/-! ## Ends -/

/-- The ends of the symbols. -/
def endsOf (symbols : List Int) : Program := symbols.flatMap fun symbol => terminate [] symbol

/-- The end for a symbol records where the match ends and reports it. -/
theorem getElem?_endsOf {symbols : List Int} {symbol : Int} (h : symbol ∈ symbols) :
    ∃ n, symbols.idxOf? symbol = some n ∧ n < symbols.length ∧
      (endsOf symbols)[2 * n]? = some (.save 1) ∧
      (endsOf symbols)[2 * n + 1]? = some (.accept symbol) := by
  induction symbols with
  | nil => cases h
  | cons s symbols ih =>
    have hends : endsOf (s :: symbols) = .save 1 :: .accept s :: endsOf symbols := rfl
    rw [List.idxOf?_cons]
    by_cases heq : s = symbol
    · subst heq
      exact ⟨0, by simp, by simp, by rw [hends]; rfl, by rw [hends]; rfl⟩
    · obtain ⟨n, hn, hlt, hsave, haccept⟩ := ih (by
        rcases List.mem_cons.mp h with rfl | h
        · exact absurd rfl heq
        · exact h)
      refine ⟨n + 1, by simp [heq, hn], by simpa using hlt, ?_, ?_⟩
      · rw [hends, show 2 * (n + 1) = 2 * n + 2 by omega]
        simpa using hsave
      · rw [hends, show 2 * (n + 1) + 1 = 2 * n + 1 + 2 by omega]
        simpa using haccept

/-! ## Symbols and addresses -/

/-- The symbol with which a state accepts. -/
def acceptOf (a : Automaton) (i : Nat) : Option Int :=
  if (a.state i).accepting then (a.state i).symbol else none

theorem acceptOf_eq_some_iff {symbol : Int} :
    acceptOf a i = some symbol ↔ (a.state i).accepting = true ∧ (a.state i).symbol = some symbol := by
  unfold acceptOf
  split
  · rename_i h
    simp [h]
  · rename_i h
    simp [h]

/-- The symbols of the reachable states, in the order in which they are met. -/
def symbolsOf (a : Automaton) : List Int := (a.closure.filterMap (acceptOf a)).eraseDups

theorem symbolTable_none (hs : a.Symbolled) : a.symbolTable none = .ok (symbolsOf a) := by
  have hmap : a.closure.mapM a.acceptSymbol? = .ok (a.closure.map (acceptOf a)) := by
    refine mapM_eq_ok_map fun i _ => ?_
    cases hacc : (a.state i).accepting with
    | false => simp [acceptSymbol?, acceptOf, hacc]
    | true =>
      obtain ⟨symbol, hsymbol⟩ := Option.isSome_iff_exists.mp (hs i hacc)
      simp [acceptSymbol?, acceptOf, hacc, hsymbol]
  rw [symbolTable, hmap]
  simp only [symbolsOf, bind, Except.bind, List.filterMap_map, Function.comp_def, id]

theorem mem_symbolsOf (ha : a.Valid) (hi : a.Reaches a.start i) {symbol : Int}
    (h : acceptOf a i = some symbol) : symbol ∈ symbolsOf a :=
  List.mem_eraseDups.mpr (List.mem_filterMap.mpr ⟨i, (mem_closure_iff ha).mpr hi, h⟩)

/-- The layout of an automaton with its own symbols. -/
def layoutOf (a : Automaton) : Layout := layout a (symbolsOf a)

/-- The code of an automaton whose accepting states have symbols. -/
def codeOf (a : Automaton) : Program :=
  segments a (layoutOf a) 0 a.closure ++ endsOf (symbolsOf a)

theorem ofAutomaton_eq (hs : a.Symbolled) : ofAutomaton a = .ok (codeOf a) := by
  rw [ofAutomaton, symbolTable_none hs]
  rfl

/-- Where a state that is not left out begins. -/
def ownOf (a : Automaton) (i : Nat) : Nat := ((layoutOf a).address? a i).getD 0

theorem address?_of_hasCode (ha : a.Valid) (hi : a.Reaches a.start i) (hcode : hasCode a i = true) :
    (i, ownOf a i) ∈ placed a 0 a.closure ∧ (layoutOf a).address? a i = some (ownOf a i) := by
  obtain ⟨addr, haddr⟩ := exists_mem_placed ((mem_closure_iff ha).mpr hi) hcode 0
  have haddress : (layoutOf a).address? a i = some addr := by
    rw [Layout.address?, if_pos hcode]
    exact getElem?_own haddr
  have hown : ownOf a i = addr := by rw [ownOf, haddress]; rfl
  rw [hown]
  exact ⟨haddr, haddress⟩

theorem address?_of_terminal (hcode : hasCode a i = false) {symbol : Int}
    (h : acceptOf a i = some symbol) :
    (layoutOf a).address? a i = some ((layoutOf a).endOf symbol) := by
  obtain ⟨hacc, hsymbol⟩ := acceptOf_eq_some_iff.mp h
  simp [Layout.address?, hcode, hacc, hsymbol]

/-- The address of a state that can be reached, unless it is left out. -/
theorem address?_eq (ha : a.Valid) (hs : a.Symbolled) (hi : a.Reaches a.start i) :
    (layoutOf a).address? a i = if isLeftOut a i then none else some (ownOf a i) := by
  cases hcode : hasCode a i with
  | true =>
    rw [(address?_of_hasCode ha hi hcode).2]
    simp [isLeftOut, hcode]
  | false =>
    cases hacc : (a.state i).accepting with
    | false => simp [Layout.address?, isLeftOut, hcode, hacc]
    | true =>
      obtain ⟨symbol, hsymbol⟩ := Option.isSome_iff_exists.mp (hs i hacc)
      have haddress := address?_of_terminal hcode (acceptOf_eq_some_iff.mpr ⟨hacc, hsymbol⟩)
      rw [ownOf, haddress]
      simp [isLeftOut, hcode, hacc]

/-! ## Code at its place -/

/-- The next state, unless it is left out. -/
def live? (a : Automaton) (i cp : Nat) : Option Nat :=
  (a.next? i cp).filter fun j => !isLeftOut a j

/-- The cases lead from each code point to the next state. -/
def Selects (a : Automaton) (own : Nat → Nat) (i : Nat) (cases : List Case) : Prop :=
  ∀ cp, (cases.find? (·.set.contains cp)).map (·.target) = (live? a i cp).map own

/-- The code of an automaton: what a state does stands at `own`, the end for a symbol at `finish`,
and where the start has no case control goes on to `otherwise`. -/
structure Hosts (code : Program) (a : Automaton) (own : Nat → Nat) (finish : Int → Nat)
    (otherwise : List Nat) : Prop where
  /-- The ends of the symbols. -/
  ends : ∀ i symbol, a.Reaches a.start i → acceptOf a i = some symbol →
    0 < finish symbol ∧ code[finish symbol]? = some (.save 1) ∧
      code[finish symbol + 1]? = some (.accept symbol)
  /-- A state with nothing but a match is the end of its symbol. -/
  terminal : ∀ i symbol, a.Reaches a.start i → (a.state i).edges = [] → i ≠ a.start →
    acceptOf a i = some symbol → own i = finish symbol
  /-- A state with edges that does not accept is a switch. -/
  rejecting : ∀ i, a.Reaches a.start i → (a.state i).edges ≠ [] → (a.state i).accepting = false →
    (i ≠ a.start → 0 < own i) ∧ ∃ cases, Selects a own i cases ∧
      code[own i]? = some (.switch cases (if i = a.start then otherwise else []))
  /-- A state with edges that accepts is a choice between a switch, which is preferred, and the end
  of its symbol. -/
  accepting : ∀ i symbol, a.Reaches a.start i → (a.state i).edges ≠ [] →
    acceptOf a i = some symbol → (i ≠ a.start → 0 < own i) ∧ ∃ cases, Selects a own i cases ∧
      code[own i]? = some (.jump [own i + 1, finish symbol]) ∧
      code[own i + 1]? = some (.switch cases [])

/-- The set of a successor has a code point exactly if the code point leads to the successor. -/
theorem contains_edgesByTarget_iff (ha : a.Deterministic) {p : Nat × CodeSet}
    (hp : p ∈ (a.state i).edgesByTarget) (cp : Nat) :
    p.2.contains cp = true ↔ a.next? i cp = some p.1 := by
  obtain ⟨target, -, rfl⟩ := List.mem_map.mp hp
  have hproper : Proper (((a.state i).edges.filter (·.target == target)).map (·.range)) := by
    intro r hr
    obtain ⟨e, he, rfl⟩ := List.mem_map.mp hr
    exact ha.low_le_high i e (List.mem_filter.mp he).1
  rw [ha.next?_eq_some_iff]
  exact (contains_iff_covers (s := ofRanges _) (ordered_normalList hproper)).trans
    (covers_ranges_iff_leads _)

/-- The next state is among the successors of a state. -/
theorem exists_edgesByTarget_of_next? (ha : a.Deterministic) {cp j : Nat}
    (h : a.next? i cp = some j) : ∃ p ∈ (a.state i).edgesByTarget, p.1 = j := by
  obtain ⟨set, hset, -⟩ := leads_iff_edgesByTarget.mp (ha.next?_eq_some_iff.mp h)
  exact ⟨_, hset, rfl⟩

/-- Among the cases for some of the successors of a state, that of the next state is found if the
next state is among them and not left out. -/
theorem find?_casesOf (ha : a.Deterministic) (hs : a.Symbolled) (hi : a.Reaches a.start i) (cp : Nat)
    {rest : List (Nat × CodeSet)} (hrest : ∀ p ∈ rest, p ∈ (a.state i).edgesByTarget) :
    ((rest.filterMap fun (target, set) =>
        ((layoutOf a).address? a target).map fun address => (⟨set, address⟩ : Case)).find?
          (·.set.contains cp)).map (·.target) =
      if ∃ p ∈ rest, a.next? i cp = some p.1 then (live? a i cp).map (ownOf a) else none := by
  induction rest with
  | nil => simp
  | cons p rest ih =>
    obtain ⟨hp, hrest⟩ := List.forall_mem_cons.mp hrest
    have hcontains := contains_edgesByTarget_iff ha hp cp
    by_cases hnext : a.next? i cp = some p.1
    · have haddress : (layoutOf a).address? a p.1 =
          if isLeftOut a p.1 then none else some (ownOf a p.1) := by
        obtain ⟨e, he, -, htarget⟩ := ha.next?_eq_some_iff.mp hnext
        exact htarget ▸ address?_eq ha.valid hs (hi.edge he)
      rw [if_pos ⟨p, List.mem_cons_self, hnext⟩, live?, hnext, List.filterMap_cons]
      simp only [haddress]
      cases hleft : isLeftOut a p.1 with
      | false => simp [hcontains.mpr hnext, hleft]
      | true =>
        simp only [if_true, Option.map_none]
        rw [ih hrest, live?, hnext]
        simp [hleft]
    · have hset : p.2.contains cp = false := by
        rw [← Bool.not_eq_true, hcontains]
        exact hnext
      have hskip : (∃ q ∈ p :: rest, a.next? i cp = some q.1) ↔
          ∃ q ∈ rest, a.next? i cp = some q.1 := by
        simp [hnext]
      rw [List.filterMap_cons]
      simp only [hskip]
      rw [← ih hrest]
      cases (layoutOf a).address? a p.1 with
      | none => rfl
      | some address => simp [hset]

/-- The cases of a state select its next state. -/
theorem selects_casesOf (ha : a.Deterministic) (hs : a.Symbolled) (hi : a.Reaches a.start i) :
    Selects a (ownOf a) i (casesOf a (layoutOf a) i) := by
  intro cp
  rw [casesOf, find?_casesOf ha hs hi cp fun p hp => hp]
  split
  · rfl
  · rename_i hnone
    cases hnext : a.next? i cp with
    | none => simp [live?, hnext]
    | some j =>
      obtain ⟨p, hp, rfl⟩ := exists_edgesByTarget_of_next? ha hnext
      exact absurd ⟨p, hp, hnext⟩ hnone

/-- A state with code has its instructions where its address says. -/
theorem getElem?_codeOf_own (ha : a.Deterministic) (hs : a.Symbolled) (hi : a.Reaches a.start i)
    (hcode : hasCode a i = true) {k : Nat} (hk : k < codeSize a i) :
    (codeOf a)[ownOf a i + k]? = (stateCode a (layoutOf a) (ownOf a i) i)[k]? := by
  obtain ⟨-, -, hle, hget⟩ :=
    getElem?_segments ha hs (layoutOf a) (address?_of_hasCode ha.valid hi hcode).1
  have hlen := length_segments ha hs (layoutOf a) 0 a.closure
  rw [codeOf, List.getElem?_append_left (by omega)]
  exact hget k hk

/-- The ends come after the states. -/
theorem getElem?_codeOf_endOf (ha : a.Deterministic) (hs : a.Symbolled) {symbol : Int}
    (h : symbol ∈ symbolsOf a) :
    totalSize a a.closure ≤ (layoutOf a).endOf symbol ∧
      (codeOf a)[(layoutOf a).endOf symbol]? = some (.save 1) ∧
      (codeOf a)[(layoutOf a).endOf symbol + 1]? = some (.accept symbol) := by
  obtain ⟨n, hn, -, hsave, haccept⟩ := getElem?_endsOf h
  have hend : (layoutOf a).endOf symbol = totalSize a a.closure + 2 * n := by
    simp [Layout.endOf, layoutOf, layout, hn]
  have hlen := length_segments ha hs (layoutOf a) 0 a.closure
  rw [hend, codeOf]
  refine ⟨by omega, ?_, ?_⟩
  · rw [List.getElem?_append_right (by omega), hlen, Nat.add_sub_cancel_left]
    exact hsave
  · rw [List.getElem?_append_right (by omega), hlen, Nat.add_assoc, Nat.add_sub_cancel_left]
    exact haccept

theorem hasCode_start (a : Automaton) : hasCode a a.start = true := by simp [hasCode]

theorem codeSize_pos (hcode : hasCode a i = true) : 0 < codeSize a i := by
  rw [codeSize, if_pos hcode]
  split <;> decide

theorem closure_eq_cons (ha : a.Valid) : ∃ rest, a.closure = a.start :: rest := by
  have hhead : a.closure.head? = some a.start := head?_closureFrom ha.start_lt
  cases hclosure : a.closure with
  | nil => simp [hclosure] at hhead
  | cons i rest =>
    rw [hclosure] at hhead
    exact ⟨rest, by rw [Option.some.inj hhead]⟩

theorem ownOf_start (ha : a.Valid) : ownOf a a.start = 0 := by
  obtain ⟨rest, hrest⟩ := closure_eq_cons ha
  have hmem : (a.start, 0) ∈ placed a 0 a.closure := by
    rw [hrest, placed, if_pos (hasCode_start a)]
    exact List.mem_cons_self
  rw [ownOf, Layout.address?, if_pos (hasCode_start a), layoutOf, getElem?_own hmem]
  rfl

theorem totalSize_closure_pos (ha : a.Valid) : 0 < totalSize a a.closure := by
  obtain ⟨rest, hrest⟩ := closure_eq_cons ha
  have := codeSize_pos (hasCode_start a)
  rw [hrest, totalSize]
  omega

/-- The start is in front of all other states. -/
theorem ownOf_pos (ha : a.Deterministic) (hs : a.Symbolled) (hi : a.Reaches a.start i)
    (hcode : hasCode a i = true) (hne : i ≠ a.start) : 0 < ownOf a i := by
  have hmem := (address?_of_hasCode ha.valid hi hcode).1
  obtain ⟨rest, hrest⟩ := closure_eq_cons ha.valid
  rw [hrest, placed, if_pos (hasCode_start a)] at hmem
  rcases List.mem_cons.mp hmem with heq | hmem
  · exact absurd (Prod.mk.inj heq).1 hne
  · have hbase := (getElem?_segments ha hs (layoutOf a) hmem).2.1
    have hpos := codeSize_pos (hasCode_start a)
    omega

/-- The code of an automaton has everything at its place. -/
theorem hosts_codeOf (ha : a.Deterministic) (hs : a.Symbolled) :
    Hosts (codeOf a) a (ownOf a) (layoutOf a).endOf [] := by
  have hedges : ∀ j, (a.state j).edges ≠ [] → hasCode a j = true :=
    fun j hj => (hasCode_iff ha).mpr (Or.inl hj)
  refine ⟨?_, ?_, ?_, ?_⟩
  · intro j symbol hj hsymbol
    obtain ⟨hle, hsave, haccept⟩ := getElem?_codeOf_endOf ha hs (mem_symbolsOf ha.valid hj hsymbol)
    have hpos := totalSize_closure_pos ha.valid
    exact ⟨by omega, hsave, haccept⟩
  · intro j symbol hj hnil hne hsymbol
    have hcode : hasCode a j = false := by
      rw [← Bool.not_eq_true, hasCode_iff ha]
      simp [hnil, hne]
    rw [ownOf, address?_of_terminal hcode hsymbol]
    rfl
  · intro j hj hne hacc
    have hcode := hedges j hne
    have hget := getElem?_codeOf_own ha hs hj hcode (codeSize_pos hcode)
    refine ⟨ownOf_pos ha hs hj hcode, casesOf a (layoutOf a) j, selects_casesOf ha hs hj, ?_⟩
    rw [stateCode_of_rejecting ha hne hacc] at hget
    simpa using hget
  · intro j symbol hj hne hsymbol
    have hcode := hedges j hne
    obtain ⟨hacc, hsym⟩ := acceptOf_eq_some_iff.mp hsymbol
    have hsize := codeSize_of_accepting ha hne hacc
    have hget : ∀ k < 2, (codeOf a)[ownOf a j + k]? =
        ([.jump [ownOf a j + 1, (layoutOf a).endOf symbol],
          .switch (casesOf a (layoutOf a) j) []] : Program)[k]? := by
      intro k hk
      rw [getElem?_codeOf_own ha hs hj hcode (by omega), stateCode_of_accepting ha hne hacc hsym]
    exact ⟨ownOf_pos ha hs hj hcode, casesOf a (layoutOf a) j, selects_casesOf ha hs hj,
      hget 0 (by decide), hget 1 (by decide)⟩

end FiberLex.Program
