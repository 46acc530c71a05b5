import FiberLex.Machine

/-!
# Tokens

A text is split into tokens by running a program again and again where the last token ended. Where
the program matches nothing, the next character becomes an error token, so every token has at least
one character and the text is used up. If a run has no room for a slot, the text is not split.
-/

namespace FiberLex

/-- A piece of a text. -/
structure Token where
  /-- The rule that matched, or the error symbol. -/
  symbol : Int
  /-- The text of the token. -/
  value : String
  /-- The line of its first character, counted from one. -/
  line : Nat
  /-- The column of its first character, counted from one. -/
  column : Nat
  /-- The number of bytes before it. -/
  offset : Nat
  /-- The number of its bytes. -/
  length : Nat
deriving DecidableEq, Repr

/-- Whether no rule matched the token. -/
def Token.isError (t : Token) : Bool := t.symbol == errorSymbol

/-- The characters that begin within the first `n` bytes of a text. -/
def takeBytes (n : Nat) : List Char → List Char
  | [] => []
  | c :: cs => if n = 0 then [] else c :: takeBytes (n - c.utf8Size) cs

/-- A text that is being split. -/
structure Tokenizer where
  /-- The machine that finds the tokens. -/
  machine : Machine
  /-- Where the next token begins. -/
  position : Position
  /-- The distance between tab stops. -/
  tabWidth : Nat

namespace Tokenizer

/-- Splits what is left at a cursor by a program. -/
def new (p : Program) (cur : Cursor) : Tokenizer := ⟨.ofProgram p, cur.position, cur.tabWidth⟩

/-- The symbol and length in bytes of the token for a match, `first` being its first character. A
match that ends where it begins counts as none. -/
def extent (first : Char) : Option Match → Int × Nat
  | some m => if 0 < m.finish then (m.symbol, m.finish) else (errorSymbol, first.utf8Size)
  | none => (errorSymbol, first.utf8Size)

/-- Where the run for the next token begins, with nothing captured. -/
def cursor (t : Tokenizer) : Cursor := { position := t.position, tabWidth := t.tabWidth }

/-- Where a token ends that begins at `start` and ends after `finish` bytes, if its run has left the
text at `left`. The run may have read on behind the token; then the place is looked for anew, from
the beginning of the token on. -/
def settle (tabWidth finish : Nat) (start left : Position) : Position :=
  if left.offset = finish then left else start.advanceTo tabWidth finish

/-- The next token, and what is left to split. -/
def next? (t : Tokenizer) : Option (Token × Tokenizer) :=
  match t.position.rest with
  | [] => none
  | c :: cs =>
    let run := t.machine.run t.cursor
    let (symbol, length) := extent c run.result
    some
      ({ symbol, value := String.ofList (takeBytes length (c :: cs)), line := t.position.line
         column := t.position.column, offset := t.position.offset, length },
       { machine := run.machine, tabWidth := t.tabWidth
         position :=
          settle t.tabWidth (t.position.offset + length) t.position run.cursor.position })

/-! ## Progress -/

theorem extent_pos (c : Char) (m : Option Match) : 0 < (extent c m).2 := by
  unfold extent
  split
  · split
    · assumption
    · exact c.utf8Size_pos
  · exact c.utf8Size_pos

/-- If a token has bytes, less is left behind it, however far its run has gone. -/
theorem length_rest_settle_lt (cur : Cursor) {length : Nat} (hrest : cur.position.rest ≠ [])
    (hlength : 0 < length) (n : Nat) :
    (settle cur.tabWidth (cur.position.offset + length) cur.position
      (cur.consume n).position).rest.length < cur.position.rest.length := by
  unfold settle
  split
  · rename_i hoffset
    rw [Cursor.position_consume] at hoffset ⊢
    cases n with
    | zero =>
      -- without a character the run would have stayed where it began
      rw [Position.advanceBy] at hoffset
      omega
    | succ n =>
      rw [Position.rest_advanceBy, List.length_drop]
      have := List.length_pos_iff.mpr hrest
      omega
  · exact Position.length_rest_advanceTo_lt hrest (by omega)

/-- Each token takes at least one character. -/
theorem length_rest_next? {t t' : Tokenizer} {token : Token} (h : t.next? = some (token, t')) :
    t'.position.rest.length < t.position.rest.length := by
  unfold next? at h
  split at h
  · cases h
  · rename_i c cs hrest
    obtain ⟨-, rfl⟩ := Prod.mk.inj (Option.some.inj h)
    exact length_rest_settle_lt t.cursor (hrest ▸ List.cons_ne_nil c cs) (extent_pos c _) _

/-- All tokens, each with the offset where the next one begins. -/
def tokens (t : Tokenizer) : List (Token × Nat) :=
  match _ : t.next? with
  | none => []
  | some (token, t') => (token, t'.position.offset) :: t'.tokens
termination_by t.position.rest.length
decreasing_by
  rename_i h
  exact length_rest_next? h

/-! ## Room for slots -/

/-- Whether the run for the next token, if there is one, has room for all its slots. -/
def hasRoom (t : Tokenizer) : Bool := t.position.rest.isEmpty || (t.machine.run t.cursor).hasRoom

/-- All tokens, each with the offset where the next one begins, unless a run for one of them has no
room for a slot. -/
def tokens? (t : Tokenizer) : Option (List (Token × Nat)) :=
  if t.hasRoom then
    match _ : t.next? with
    | none => some []
    | some (token, t') => t'.tokens?.map ((token, t'.position.offset) :: ·)
  else none
termination_by t.position.rest.length
decreasing_by
  rename_i h
  exact length_rest_next? h

end Tokenizer

end FiberLex
