import FiberLex.Automaton.Determinize
import FiberLex.Automaton.Reduce

/-!
# Tables

An automaton as a table of plain integers. Rows are numbered in preorder, so row zero is the start.
A row has the number of its symbol, or `-1` if it accepts nothing, and for each successor the ends
of the ranges that lead to it. The numbers of symbols are integers of 32 bits. They are the places of
the symbols in a list; in a list of more than `2 ^ 31` symbols the later places are cut off, and one
of them becomes `-1`.
-/

namespace FiberLex

/-- What a row has instead of a symbol if it accepts nothing. -/
def noAccept : Int := -1

/-- The symbol number of a row that accepts, and nothing if it does not. -/
def reported? (accept : Int) : Option Int := if accept = noAccept then none else some accept

/-- The number of the symbol at a place of the list of symbols: the place as an integer of 32
bits. -/
def symbolNumber (place : Nat) : Int := (Int32.ofNat place).toInt

/-- The ranges of a row that lead to one other row. -/
structure TableEdge where
  /-- The ends of the ranges, `low, high, low, high, …`. -/
  packed : List Nat
  /-- The row they lead to. -/
  destination : Nat
deriving DecidableEq, Repr

/-- A row of the table of a deterministic automaton. -/
structure DfaRow where
  /-- The number of the symbol, or `noAccept`. -/
  accept : Int
  /-- The rows that can follow. -/
  edges : List TableEdge
deriving DecidableEq, Repr

/-- A row of the table of an automaton with epsilons. -/
structure NfaRow extends DfaRow where
  /-- The rows to which an epsilon leads. -/
  epsilons : List Nat
deriving DecidableEq, Repr

namespace Automaton

/-- The symbol of a state, if it is accepting; then it must have one. -/
def acceptSymbol? (a : Automaton) (i : Nat) : Except BuildError (Option Int) :=
  let s := a.state i
  if s.accepting then
    match s.symbol with
    | some symbol => .ok (some symbol)
    | none => .error (.missingSymbol i)
  else .ok none

/-- The symbols by number: those of the caller, or those of the automaton in the order in which they
are met. -/
def symbolTable (a : Automaton) (symbols : Option (List Int)) : Except BuildError (List Int) :=
  match symbols with
  | some table => .ok table
  | none => do
    let met ← a.closure.mapM a.acceptSymbol?
    .ok (met.filterMap id).eraseDups

/-- The entry of a row for its symbol. -/
def acceptEntry (a : Automaton) (table : List Int) (i : Nat) : Except BuildError Int := do
  match ← a.acceptSymbol? i with
  | none => .ok noAccept
  | some symbol =>
    match table.idxOf? symbol with
    | some place => .ok (symbolNumber place)
    | none => .error (.unknownSymbol symbol)

/-- The entries of a row for the rows that can follow; `rows` gives the row of a state. -/
def tableEdges (a : Automaton) (rows : Array (Option Nat)) (i : Nat) : List TableEdge :=
  (a.state i).edgesByTarget.filterMap fun (target, set) =>
    ((rows[target]?).join).map (⟨set.packed, ·⟩)

/-- The table of an automaton with its epsilons. -/
def toNfaTable (a : Automaton) (symbols : Option (List Int)) : Except BuildError (List NfaRow) := do
  let order := a.closure
  let rows := numbering a.states.size 0 order
  let table ← a.symbolTable symbols
  order.mapM fun i => do
    let accept ← a.acceptEntry table i
    .ok
      { accept
        edges := a.tableEdges rows i
        epsilons := (a.state i).epsilons.filterMap fun j => (rows[j]?).join }

/-- The automaton itself if it is deterministic, and else a deterministic one without duplicates,
and the reports of the passes. -/
def deterministic (a : Automaton) : Automaton × List Progress :=
  if a.isDeterministic then (a, [])
  else
    let (d, log) := a.determinize
    let (t, more) := d.trimDuplicates
    (t, log ++ more)

/-- The table of the automaton, made deterministic if it is not, and the reports of the passes. -/
def toDfaTable (a : Automaton) (symbols : Option (List Int)) :
    Except BuildError (Array DfaRow × List Progress) := do
  let (d, log) := a.deterministic
  let order := d.closure
  let rows := numbering d.states.size 0 order
  let table ← d.symbolTable symbols
  let entries ← order.mapM fun i => do
    let accept ← d.acceptEntry table i
    .ok ({ accept, edges := d.tableEdges rows i } : DfaRow)
  .ok (entries.toArray, log)

end Automaton

/-- The table of a deterministic automaton. -/
abbrev DfaTable := Array DfaRow

namespace DfaTable

/-- Whether some of the packed ranges holds `cp`. -/
def packedContains (packed : List Nat) (cp : Nat) : Bool :=
  (CodeSet.ofPacked packed).any (·.contains cp)

/-- The row that follows `row` on `cp`. -/
def move? (table : DfaTable) (row cp : Nat) : Option Nat :=
  table[row]?.bind fun entry =>
    (entry.edges.find? fun e => packedContains e.packed cp).map (·.destination)

/-- Follows the rows over a text for as long as one can. Returns the last row and what is left of
the text. -/
def runFrom (table : DfaTable) (row : Nat) : List Char → Nat × List Char
  | [] => (row, [])
  | c :: cs =>
    match table.move? row c.toNat with
    | none => (row, c :: cs)
    | some next => runFrom table next cs

/-- Follows the rows at the cursor and captures what is consumed. Returns the number of the symbol
of the row where this ends. -/
def lex (table : DfaTable) (cur : Cursor) : Option Int × Cursor :=
  let (row, rest) := table.runFrom 0 cur.position.rest
  let accept := (table[row]?).bind fun entry => reported? entry.accept
  (accept, cur.consume (cur.position.rest.length - rest.length))

end DfaTable

end FiberLex
