import FiberLex.Automaton.Table
import FiberLex.Proofs.Automaton.Duplicates
import FiberLex.Proofs.Automaton.Operations
import FiberLex.Proofs.Automaton.Prune

/-!
# Runs over tables

The table of an automaton has a row for each state that can be reached, in the order of a walk, so
the row of a state is its place in the walk. What a table is of an automaton is collected in
`Tabulates`. If the states that can be reached are deterministic, the row that follows a row is that
of the state that follows the state (`move?_eq`), and following the rows of a table goes as far as a
run and ends in the row of the state in which the run ends (`runFrom_eq`). The numbers of symbols
are their places in the caller's list, or in the order in which the walk comes to them, as far as
they are integers of 32 bits (`reported?_symbolNumber`).
-/

namespace FiberLex

open CodeSet

/-! ## Packed ranges -/

theorem CodeSet.ofPacked_packed (s : CodeSet) : ofPacked s.packed = s.toList := by
  unfold packed
  induction s.toList with
  | nil => rfl
  | cons r rs ih =>
    rw [List.flatMap_cons]
    exact congrArg (r :: ·) ih

theorem DfaTable.packedContains_iff {s : CodeSet} {cp : Nat} :
    packedContains s.packed cp = true ↔ Covers s.toList cp := by
  rw [packedContains, ofPacked_packed, List.any_eq_true]
  rfl

theorem CodeRange.meets_of_apart {r t : CodeRange} (hr : r.low ≤ r.high) (ht : t.low ≤ t.high)
    (h : r.Apart t) : r.meets t = false := by
  rw [← Bool.not_eq_true, meets_iff]
  intro hmeets
  -- the greater one of the lower ends would be in both
  apply h (max r.low t.low)
  rw [contains_iff, contains_iff]
  omega

/-- The first `2 ^ 31` places are their own numbers, and none of them is the number for none. -/
theorem reported?_symbolNumber {place : Nat} (h : place < 0x80000000) :
    reported? (symbolNumber place) = some (place : Int) := by
  have hnumber : symbolNumber place = place := Int32.toInt_ofNat_of_lt h
  rw [hnumber, reported?, if_neg]
  unfold noAccept
  omega

namespace Automaton

variable {a d : Automaton} {order : List Int} {table : DfaTable} {i : Nat}

/-! ## Entries -/

theorem idxOf_of_idxOf?_eq_some {s : Int} {k : Nat} (h : order.idxOf? s = some k) :
    s ∈ order ∧ order.idxOf s = k := by
  refine ⟨?_, by rw [List.idxOf_eq_getD_idxOf?, h, Option.getD_some]⟩
  by_contra hnot
  rw [List.idxOf?_eq_none_iff.mpr hnot] at h
  cases h

theorem acceptSymbol?_eq_ok_iff {x : Option Int} :
    d.acceptSymbol? i = .ok x ↔
      ((d.state i).accepting = false ∧ x = none) ∨
        ∃ s, (d.state i).accepting = true ∧ (d.state i).symbol = some s ∧ x = some s := by
  unfold acceptSymbol?
  cases hacc : (d.state i).accepting with
  | false => simp [hacc, eq_comm]
  | true =>
    cases hsymbol : (d.state i).symbol with
    | none => simp [hacc, hsymbol]
    | some s => simp [hacc, hsymbol, eq_comm]

/-- A row that accepts has the number of its symbol, and any other row the number for none. -/
theorem acceptEntry_eq_ok_iff {n : Int} :
    d.acceptEntry order i = .ok n ↔
      ((d.state i).accepting = false ∧ n = noAccept) ∨
        ∃ s, (d.state i).accepting = true ∧ (d.state i).symbol = some s ∧ s ∈ order ∧
          n = symbolNumber (order.idxOf s) := by
  unfold acceptEntry
  simp only [Scan.bind_eq_ok, acceptSymbol?_eq_ok_iff]
  constructor
  · rintro ⟨x, ⟨hacc, rfl⟩ | ⟨s, hacc, hsymbol, rfl⟩, h⟩
    · cases h
      exact Or.inl ⟨hacc, rfl⟩
    · simp only at h
      split at h
      · rename_i k hk
        obtain ⟨hmem, rfl⟩ := idxOf_of_idxOf?_eq_some hk
        exact Or.inr ⟨s, hacc, hsymbol, hmem, (Except.ok.inj h).symm⟩
      · cases h
  · rintro (⟨hacc, rfl⟩ | ⟨s, hacc, hsymbol, hmem, rfl⟩)
    · exact ⟨none, Or.inl ⟨hacc, rfl⟩, rfl⟩
    · refine ⟨some s, Or.inr ⟨s, hacc, hsymbol, rfl⟩, ?_⟩
      cases hk : order.idxOf? s with
      | none => exact absurd hmem (List.idxOf?_eq_none_iff.mp hk)
      | some k =>
        obtain ⟨-, rfl⟩ := idxOf_of_idxOf?_eq_some hk
        simp only [hk]

/-- Without a list of the caller the symbols are numbered as the walk comes to them. -/
theorem symbolTable_eq_ok {symbols : Option (List Int)} (h : d.symbolTable symbols = .ok order) :
    order = symbols.getD d.acceptSymbols := by
  cases symbols with
  | some table =>
    cases h
    rfl
  | none =>
    obtain ⟨met, hmet, h⟩ := Scan.bind_eq_ok.mp h
    cases h
    have hpairs := mapM_eq_ok_iff.mp hmet
    rw [Option.getD_none, acceptSymbols, acceptingStates]
    congr 1
    clear hmet h
    generalize d.closure = walk at hpairs ⊢
    induction hpairs with
    | nil => rfl
    | @cons i x is xs hx _ ih =>
      rcases acceptSymbol?_eq_ok_iff.mp hx with ⟨hacc, rfl⟩ | ⟨s, hacc, hsymbol, rfl⟩
      · simpa [hacc] using ih
      · simpa [hacc, hsymbol] using ih

/-! ## Rows -/

/-- The row of a state. -/
def row (d : Automaton) (i : Nat) : Nat := d.closure.idxOf i

/-- The table has a row for each state that can be reached, with the place of its symbol in the
order and the rows that can follow. -/
structure Tabulates (d : Automaton) (order : List Int) (table : DfaTable) : Prop where
  size : table.size = d.closure.length
  row : ∀ i, d.Reaches d.start i → ∃ entry, table[d.row i]? = some entry ∧
    d.acceptEntry order i = .ok entry.accept ∧
    entry.edges = d.tableEdges (numbering d.states.size 0 d.closure) i

theorem row_start (hd : d.Valid) : d.row d.start = 0 := by
  have hhead : d.closure.head? = some d.start := head?_closureFrom hd.start_lt
  rw [row]
  cases hclosure : d.closure with
  | nil =>
    rw [hclosure] at hhead
    cases hhead
  | cons i rest =>
    rw [hclosure] at hhead
    cases hhead
    exact List.idxOf_cons_self

theorem row_lt (hd : d.Valid) (hi : d.Reaches d.start i) : d.row i < d.closure.length :=
  List.idxOf_lt_length_of_mem ((mem_closure_iff hd).mpr hi)

/-- An edge of a row has the ranges that lead to a state, packed, and the row of that state. -/
theorem mem_tableEdges_iff (hd : d.Valid) (hi : d.Reaches d.start i) {e : TableEdge} :
    e ∈ d.tableEdges (numbering d.states.size 0 d.closure) i ↔
      ∃ target set, (target, set) ∈ (d.state i).edgesByTarget ∧
        e = ⟨set.packed, d.row target⟩ := by
  have hnodup : d.closure.Nodup := nodup_closureFrom d d.start
  have hlt : ∀ j ∈ d.closure, j < d.states.size := fun j hj => lt_size_of_mem_closureFrom hj
  have hentry : ∀ {target set}, (target, set) ∈ (d.state i).edgesByTarget →
      ((numbering d.states.size 0 d.closure)[target]?).join = some (d.row target) := by
    intro target set hmem
    obtain ⟨e, he, rfl⟩ := List.mem_map.mp (State.mem_edgesByTarget.mp hmem).1
    have hclosure := (mem_closure_iff hd).mpr (hi.edge he)
    rw [getElem?_numbering hnodup hlt, if_pos hclosure, Nat.zero_add, row]
  rw [tableEdges, List.mem_filterMap]
  constructor
  · rintro ⟨⟨target, set⟩, hmem, heq⟩
    simp only [hentry hmem, Option.map_some, Option.some.injEq] at heq
    exact ⟨target, set, hmem, heq.symm⟩
  · rintro ⟨target, set, hmem, rfl⟩
    refine ⟨(target, set), hmem, ?_⟩
    simp only [hentry hmem, Option.map_some]

/-- Flattening makes a table. -/
theorem tabulates_of_toDfaTable {symbols : Option (List Int)} {log : List Progress}
    (ha : a.deterministic.1.Valid) (h : a.toDfaTable symbols = .ok (table, log)) :
    Tabulates a.deterministic.1 (symbols.getD a.deterministic.1.acceptSymbols) table := by
  unfold toDfaTable at h
  generalize a.deterministic = made at ha h ⊢
  obtain ⟨d, reports⟩ := made
  simp only at ha h ⊢
  obtain ⟨order, horder, h⟩ := Scan.bind_eq_ok.mp h
  obtain ⟨entries, hentries, h⟩ := Scan.bind_eq_ok.mp h
  cases h
  rw [← symbolTable_eq_ok horder]
  have hrows := mapM_eq_ok_iff.mp hentries
  refine ⟨hrows.length_eq.symm, fun i hi => ?_⟩
  have hlt := row_lt ha hi
  have hlt' : d.row i < entries.length := hrows.length_eq ▸ hlt
  have hrow := hrows.get hlt hlt'
  have hi' : d.closure.get ⟨d.row i, hlt⟩ = i := List.getElem_idxOf hlt
  rw [hi'] at hrow
  obtain ⟨accept, haccept, hrow⟩ := Scan.bind_eq_ok.mp hrow
  have hentry := Except.ok.inj hrow
  refine ⟨entries[d.row i], ?_, ?_, ?_⟩
  · rw [List.getElem?_toArray, List.getElem?_eq_getElem hlt']
  · rw [List.get_eq_getElem] at hentry
    rw [← hentry]
    exact haccept
  · rw [List.get_eq_getElem] at hentry
    rw [← hentry]

/-! ## Deterministic states -/

theorem Tabulates.isSome_symbol (ht : Tabulates d order table) (hi : d.Reaches d.start i)
    (hacc : (d.state i).accepting = true) : (d.state i).symbol.isSome = true := by
  obtain ⟨entry, -, haccept, -⟩ := ht.row i hi
  rcases acceptEntry_eq_ok_iff.mp haccept with ⟨hrejecting, -⟩ | ⟨s, -, hsymbol, -, -⟩
  · rw [hacc] at hrejecting
    cases hrejecting
  · rw [hsymbol]
    rfl

theorem wellFormed_deterministic (h : a.WellFormed) : a.deterministic.1.WellFormed := by
  unfold deterministic
  split
  · exact h
  · exact h.determinize.trimDuplicates

/-- The states that can be reached in what a table is made of are deterministic. -/
theorem determined_of_tabulates (h : a.WellFormed) (ht : Tabulates a.deterministic.1 order table)
    (hi : a.deterministic.1.Reaches a.deterministic.1.start i) :
    Determined (a.deterministic.1.state i) := by
  have hwell := wellFormed_deterministic h
  have htidy := hwell.tidy i
  refine ⟨?_, fun e he => (htidy.within e he).1, ?_, ht.isSome_symbol hi⟩
  · by_cases hdet : a.isDeterministic = true
    · have hself : a.deterministic.1 = a := by
        rw [deterministic, if_pos hdet]
      rw [hself] at hi ⊢
      exact epsilons_of_isDeterministic h.toValid hdet hi
    · have hmade : a.deterministic.1 = a.determinize.1.trimDuplicates.1 := by
        rw [deterministic, if_neg hdet]
      rw [hmade]
      have hdeterminized := deterministic_determinize a
      have hstands := standsIn_trimDuplicates hdeterminized.valid
      exact (hstands.deterministic hdeterminized).epsilons i
  · refine htidy.disjoint.imp_of_mem fun {e f} he hf hapart => ?_
    exact CodeRange.meets_of_apart (htidy.within e he).1 (htidy.within f hf).1 hapart

/-- Making an automaton deterministic changes no run. -/
theorem lex_deterministic (ha : a.Valid) (cur : Cursor) :
    a.deterministic.1.lex cur = a.lex cur := by
  unfold deterministic
  split
  · rfl
  · have hvalid := (deterministic_determinize a).valid
    have hmerged := (standsIn_mergePasses hvalid 0 (a.determinize.1.states.size + 1)).valid
    have hcompact := (bisimulation_compact hmerged).lex_eq hmerged hmerged.compact cur
    have hpasses := (mergePasses_accepts_and_lex hvalid 0 (a.determinize.1.states.size + 1)).2 cur
    exact hcompact.trans (hpasses.trans (lex_determinize ha cur))

/-! ## Following rows -/

namespace Tabulates

variable (ht : Tabulates d order table) (hd : d.Valid)
  (hdet : ∀ i, d.Reaches d.start i → Determined (d.state i))

include ht hd

/-- Every row to which an edge leads is one of the table. -/
theorem destination_lt {entry : DfaRow} (hentry : entry ∈ table) {e : TableEdge}
    (he : e ∈ entry.edges) : e.destination < table.size := by
  obtain ⟨k, hk, rfl⟩ := Array.mem_iff_getElem.mp hentry
  have hlt : k < d.closure.length := ht.size ▸ hk
  have hreach := (mem_closure_iff hd).mp (List.getElem_mem hlt)
  have hplace : d.row d.closure[k] = k := (nodup_closureFrom d d.start).idxOf_getElem k hlt
  obtain ⟨entry, hget, -, hedges⟩ := ht.row _ hreach
  rw [hplace, Array.getElem?_eq_getElem hk, Option.some_inj] at hget
  rw [hget, hedges, mem_tableEdges_iff hd hreach] at he
  obtain ⟨target, set, hmem, rfl⟩ := he
  obtain ⟨e, he, rfl⟩ := List.mem_map.mp (State.mem_edgesByTarget.mp hmem).1
  rw [ht.size]
  exact row_lt hd (hreach.edge he)

include hdet

/-- The row that follows a row is that of the state that follows the state. -/
theorem move?_eq (hi : d.Reaches d.start i) (cp : Nat) :
    table.move? (d.row i) cp = (d.next? i cp).map d.row := by
  obtain ⟨entry, hget, -, hedges⟩ := ht.row i hi
  have hnext : ∀ {j}, d.next? i cp = some j ↔ Leads (d.state i).edges cp j :=
    next?_eq_some_iff_of_determined hd hdet hi
  rw [DfaTable.move?, hget, Option.bind_some, hedges]
  cases hfind : (d.tableEdges (numbering d.states.size 0 d.closure) i).find?
      fun e => DfaTable.packedContains e.packed cp with
  | some e =>
    have hcontains := List.find?_some hfind
    obtain ⟨target, set, hmem, rfl⟩ :=
      (mem_tableEdges_iff hd hi).mp (List.mem_of_find?_eq_some hfind)
    have hleads : Leads (d.state i).edges cp target :=
      leads_iff_edgesByTarget.mpr ⟨set, hmem, DfaTable.packedContains_iff.mp hcontains⟩
    rw [hnext.mpr hleads]
    rfl
  | none =>
    cases htarget : d.next? i cp with
    | none => rfl
    | some j =>
      -- the ranges that lead there are in the row
      obtain ⟨set, hmem, hcovers⟩ := leads_iff_edgesByTarget.mp (hnext.mp htarget)
      have hedge := (mem_tableEdges_iff hd hi).mpr ⟨j, set, hmem, rfl⟩
      have hmiss := List.find?_eq_none.mp hfind _ hedge
      exact absurd (DfaTable.packedContains_iff.mpr hcovers) hmiss

/-- Following rows uses up as much of a text as a run, and ends in the row of the state in which the
run ends. -/
theorem runFrom_eq (hi : d.Reaches d.start i) (text : List Char) :
    ∃ j, d.Reaches d.start j ∧ (d.runFrom [i] text).1 = [j] ∧
      table.runFrom (d.row i) text = (d.row j, (d.runFrom [i] text).2) := by
  induction text generalizing i with
  | nil => exact ⟨i, hi, rfl, rfl⟩
  | cons c text ih =>
    rw [runFrom, DfaTable.runFrom, ht.move?_eq hd hdet hi, move_of_determined hd hdet hi]
    cases hnext : d.next? i c.toNat with
    | none => exact ⟨i, hi, rfl, rfl⟩
    | some j => exact ih (reaches_of_next? hi hnext)

/-- The table reports the number of the symbol that a run reports, and captures as much. -/
theorem lex_eq (cur : Cursor) :
    table.lex cur =
        ((d.lex cur).1.bind fun s => reported? (symbolNumber (order.idxOf s)), (d.lex cur).2) ∧
      ∀ s, (d.lex cur).1 = some s → s ∈ order := by
  obtain ⟨j, hj, hrun, htable⟩ := ht.runFrom_eq hd hdet .refl cur.position.rest
  have hinitial := initial_of_determined hd hdet
  obtain ⟨entry, hget, haccept, -⟩ := ht.row j hj
  rw [row_start hd] at htable
  have hsymbol : (d.lex cur).1 = d.symbolOf [j] := by
    rw [lex, run, hinitial]
    simp only [hrun]
  have hcursor : (d.lex cur).2 = (table.lex cur).2 := by
    rw [lex, run, hinitial, DfaTable.lex, htable]
  have hresult : (table.lex cur).1 = reported? entry.accept := by
    rw [DfaTable.lex, htable]
    simp only [hget, Option.bind_some]
  rw [hsymbol, hcursor]
  rcases acceptEntry_eq_ok_iff.mp haccept with ⟨hacc, hentry⟩ | ⟨s, hacc, hs, hmem, hentry⟩
  · have hnone : d.symbolOf [j] = none := by simp [symbolOf, hacc]
    rw [hnone]
    refine ⟨Prod.ext ?_ rfl, fun s h => by cases h⟩
    rw [hresult, hentry]
    rfl
  · have hsome : d.symbolOf [j] = some s := by simp [symbolOf, hacc, hs]
    rw [hsome]
    refine ⟨Prod.ext ?_ rfl, fun t h => Option.some.inj h ▸ hmem⟩
    rw [hresult, hentry, Option.bind_some]

end Tabulates

/-! ## Tables of automata -/

/-- The order in which symbols are numbered: the caller's, or that in which the walk over the
deterministic automaton comes to them. -/
def symbolOrder (a : Automaton) (symbols : Option (List Int)) : List Int :=
  symbols.getD a.deterministic.1.acceptSymbols

/-- There is a table exactly if every accepting state that can be reached has a symbol of the
order. -/
theorem exists_toDfaTable_iff (h : a.WellFormed) {symbols : Option (List Int)} :
    (∃ table log, a.toDfaTable symbols = .ok (table, log)) ↔
      ∀ i, a.deterministic.1.Reaches a.deterministic.1.start i →
        (a.deterministic.1.state i).accepting = true →
        ∃ s ∈ a.symbolOrder symbols, (a.deterministic.1.state i).symbol = some s := by
  have hvalid := (wellFormed_deterministic h).toValid
  constructor
  · rintro ⟨table, log, hok⟩ i hi hacc
    have htable := tabulates_of_toDfaTable hvalid hok
    obtain ⟨entry, -, haccept, -⟩ := htable.row i hi
    rcases acceptEntry_eq_ok_iff.mp haccept with ⟨hrejecting, -⟩ | ⟨s, -, hsymbol, hmem, -⟩
    · rw [hacc] at hrejecting
      cases hrejecting
    · exact ⟨s, hmem, hsymbol⟩
  · intro hsymbols
    unfold symbolOrder at hsymbols
    unfold toDfaTable
    generalize a.deterministic = made at hvalid hsymbols ⊢
    obtain ⟨d, log⟩ := made
    simp only at hvalid hsymbols ⊢
    have haccept : ∀ i ∈ d.closure, ∃ x, d.acceptSymbol? i = .ok x := by
      intro i hi
      cases hacc : (d.state i).accepting with
      | false => exact ⟨none, acceptSymbol?_eq_ok_iff.mpr (Or.inl ⟨hacc, rfl⟩)⟩
      | true =>
        obtain ⟨s, -, hs⟩ := hsymbols i ((mem_closure_iff hvalid).mp hi) hacc
        exact ⟨some s, acceptSymbol?_eq_ok_iff.mpr (Or.inr ⟨s, hacc, hs, rfl⟩)⟩
    have horder : ∃ order, d.symbolTable symbols = .ok order := by
      cases symbols with
      | some order => exact ⟨order, rfl⟩
      | none =>
        obtain ⟨met, hmet⟩ := exists_mapM_eq_ok haccept
        exact ⟨_, Scan.bind_eq_ok.mpr ⟨met, hmet, rfl⟩⟩
    obtain ⟨order, horder⟩ := horder
    have hentry : ∀ i ∈ d.closure, ∃ entry : DfaRow, (do
        let accept ← d.acceptEntry order i
        .ok { accept, edges := d.tableEdges (numbering d.states.size 0 d.closure) i }) =
          (Except.ok entry : Except BuildError DfaRow) := by
      intro i hi
      rw [symbolTable_eq_ok horder]
      cases hacc : (d.state i).accepting with
      | false =>
        exact ⟨_, Scan.bind_eq_ok.mpr ⟨_, acceptEntry_eq_ok_iff.mpr (Or.inl ⟨hacc, rfl⟩), rfl⟩⟩
      | true =>
        obtain ⟨s, hmem, hs⟩ := hsymbols i ((mem_closure_iff hvalid).mp hi) hacc
        have hplace := acceptEntry_eq_ok_iff.mpr (Or.inr ⟨s, hacc, hs, hmem, rfl⟩)
        exact ⟨_, Scan.bind_eq_ok.mpr ⟨_, hplace, rfl⟩⟩
    obtain ⟨entries, hentries⟩ := exists_mapM_eq_ok hentry
    exact ⟨entries.toArray, log, Scan.bind_eq_ok.mpr ⟨order, horder,
      Scan.bind_eq_ok.mpr ⟨entries, hentries, rfl⟩⟩⟩

/-- If all accepting states have symbols, there is a table with the symbols in the order in which
they are met. -/
theorem exists_toDfaTable_of_symbolled (h : a.WellFormed) (hs : a.Symbolled) :
    ∃ table log, a.toDfaTable none = .ok (table, log) := by
  rw [exists_toDfaTable_iff h]
  intro i hi hacc
  have hvalid := (wellFormed_deterministic h).toValid
  have hsymbolled : a.deterministic.1.Symbolled := by
    unfold deterministic
    split
    · exact hs
    · exact (standsIn_trimDuplicates (deterministic_determinize a).valid).symbolled
        (symbolled_determinize hs)
  obtain ⟨s, hsymbol⟩ := Option.isSome_iff_exists.mp (hsymbolled i hacc)
  refine ⟨s, ?_, hsymbol⟩
  rw [symbolOrder, Option.getD_none, acceptSymbols, List.mem_eraseDups]
  exact List.mem_filterMap.mpr ⟨i, (mem_acceptingStates_iff hvalid).mpr ⟨hi, hacc⟩, hsymbol⟩

/-- Making an automaton deterministic leaves no more states than there are subsets of them. -/
theorem size_deterministic_le (a : Automaton) :
    a.deterministic.1.states.size ≤ 2 ^ a.states.size := by
  unfold deterministic
  split
  · exact Nat.lt_two_pow_self.le
  · have hnumbers := numbers_determinize a
    calc a.determinize.1.trimDuplicates.1.states.size
      _ ≤ a.determinize.1.states.size := size_trimDuplicates_le (deterministic_determinize a).valid
      _ ≤ 2 ^ a.states.size := hnumbers.size_eq.trans_le hnumbers.explored.size_known_le

/-- If no symbols are given, there are no more of them than subsets of the states. -/
theorem length_symbolOrder_none_le (a : Automaton) :
    (a.symbolOrder none).length ≤ 2 ^ a.states.size := by
  have hsymbols : a.symbolOrder none ⊆
      a.deterministic.1.acceptingStates.filterMap fun i => (a.deterministic.1.state i).symbol :=
    fun s hs => List.mem_eraseDups.mp hs
  calc (a.symbolOrder none).length
    _ ≤ _ := (List.subperm_of_subset (nodup_eraseDups _) hsymbols).length_le
    _ ≤ a.deterministic.1.acceptingStates.length := List.length_filterMap_le _ _
    _ ≤ a.deterministic.1.closure.length := List.length_filter_le _ _
    _ ≤ a.deterministic.1.states.size := length_closure_le _
    _ ≤ 2 ^ a.states.size := size_deterministic_le a

/-- Two ways to read the same letter, with different symbols, and an epsilon between them. -/
def forked : Automaton where
  states := #[
    { edges := [⟨⟨97, 97⟩, 1⟩], epsilons := [2] },
    { accepting := true, symbol := some 20, edges := [⟨⟨97, 122⟩, 1⟩] },
    { edges := [⟨⟨97, 99⟩, 3⟩, ⟨⟨120, 122⟩, 0⟩] },
    { accepting := true, symbol := some 10 }]
  start := 0

end Automaton

end FiberLex
