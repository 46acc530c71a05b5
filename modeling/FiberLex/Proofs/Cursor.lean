import FiberLex.Cursor
import Mathlib.Data.List.DropRight
import Mathlib.Order.Bounds.Defs

/-!
# Positions and the text before them

A position holds what is left to read, an offset, a line and a column, and moving on updates each of
them by a rule of its own. All of them are told by the text before the position
(`Position.behind`): the offset is its size, the line counts its newlines, and the column is that
behind its last line, where every character takes one column and a tab reaches to the next tab stop.
Moving on from the position behind a text leads to the position behind the text with one character
more (`Position.advance_behind`), so the four never drift apart, and the positions of a text are
told by a number of characters (`Position.reached`).

Columns are words. As long as the column to which a line leads is one, nothing is cut off on the way
there (`Position.columnAfter_eq`), as columns only grow along a line.
-/

namespace FiberLex

/-! ## Columns -/

/-- The column behind a character of a line, if it stands in the given column. Tab stops are
`tabWidth` columns apart, and the first column is one. -/
def columnBehind (tabWidth column : Nat) (c : Char) : Nat :=
  if c = '\t' then column + (tabWidth - (column - 1) % tabWidth) else column + 1

/-- What stands behind the last newline of a text, which is all of it if it has none. -/
def lastLine (text : String) : List Char := text.toList.rtakeWhile (· ≠ '\n')

section Columns

variable {tabWidth : Nat}

/-- Behind a tab is one column for each tab stop up to the next. -/
theorem columnBehind_tab (hwidth : 0 < tabWidth) {column : Nat} (hcolumn : 1 ≤ column) :
    columnBehind tabWidth column '\t' = ((column - 1) / tabWidth + 1) * tabWidth + 1 := by
  have hdiv := Nat.div_add_mod (column - 1) tabWidth
  have hmod := Nat.mod_lt (column - 1) hwidth
  rw [columnBehind, if_pos rfl, Nat.add_one_mul, Nat.mul_comm]
  omega

/-- A tab leads to the first tab stop behind its column. -/
theorem isLeast_columnBehind_tab (hwidth : 0 < tabWidth) {column : Nat} (hcolumn : 1 ≤ column) :
    IsLeast {k | column < k ∧ tabWidth ∣ k - 1} (columnBehind tabWidth column '\t') := by
  have hbehind : column - 1 < ((column - 1) / tabWidth + 1) * tabWidth :=
    Nat.lt_mul_of_div_lt (Nat.lt_succ_self _) hwidth
  rw [columnBehind_tab hwidth hcolumn]
  refine ⟨⟨by omega, Nat.dvd_mul_left tabWidth _⟩, ?_⟩
  rintro k ⟨hlt, m, hm⟩
  -- the stop `m` lies behind the one before the column, so it is at least the next one
  have hnext : (column - 1) / tabWidth + 1 ≤ m := Nat.div_lt_of_lt_mul (by omega)
  have hle := Nat.mul_le_mul_right tabWidth hnext
  rw [Nat.mul_comm m] at hle
  omega

theorem le_columnBehind (tabWidth column : Nat) (c : Char) :
    column ≤ columnBehind tabWidth column c := by
  unfold columnBehind
  split <;> omega

theorem columnBehind_le (hwidth : 0 < tabWidth) (column : Nat) (c : Char) :
    columnBehind tabWidth column c ≤ column + tabWidth := by
  unfold columnBehind
  split <;> omega

/-- A line leads to the right, and by no more than a tab stop for each of its characters. -/
theorem foldl_columnBehind_bounds (hwidth : 0 < tabWidth) (line : List Char) (column : Nat) :
    column ≤ line.foldl (columnBehind tabWidth) column ∧
      line.foldl (columnBehind tabWidth) column ≤ column + tabWidth * line.length := by
  induction line generalizing column with
  | nil => simp
  | cons c line ih =>
    have hlower := le_columnBehind tabWidth column c
    have hupper := columnBehind_le hwidth column c
    have hline := ih (columnBehind tabWidth column c)
    rw [List.foldl_cons, List.length_cons, Nat.mul_add_one]
    omega

theorem append_ofList_singleton (text : String) (c : Char) :
    text ++ String.ofList [c] = text.push c := by
  rw [← String.singleton_eq_ofList, String.push_eq_append]

@[simp] theorem lastLine_push_newline (text : String) : lastLine (text.push '\n') = [] := by
  rw [lastLine, String.toList_push, List.rtakeWhile_concat_neg _ _ _ (by simp)]

theorem lastLine_push {c : Char} (hc : c ≠ '\n') (text : String) :
    lastLine (text.push c) = lastLine text ++ [c] := by
  rw [lastLine, String.toList_push, List.rtakeWhile_concat_pos _ _ _ (by simpa using hc), lastLine]

theorem ne_newline_of_mem_lastLine {text : String} {c : Char} (h : c ∈ lastLine text) :
    c ≠ '\n' := by
  simpa using List.mem_rtakeWhile_imp h

end Columns

namespace Position

variable {tabWidth : Nat}

/-- The column a position goes on to is the one behind the character, unless a new line begins, or
that column is not a word. -/
theorem nextColumn_eq_columnBehind (hwidth : 0 < tabWidth) {column : Nat} (hcolumn : 1 ≤ column)
    {c : Char} (hc : c ≠ '\n') (hword : columnBehind tabWidth column c < wordCount) :
    nextColumn tabWidth column c = columnBehind tabWidth column c := by
  have hle := Nat.lt_of_le_of_lt (le_columnBehind tabWidth column c) hword
  have hbefore : (column + (wordCount - 1)) % wordCount = column - 1 := by
    unfold wordCount at hle ⊢
    omega
  rw [nextColumn, if_neg hc]
  split
  · rename_i htab
    rw [hbefore, htab, ← columnBehind_tab hwidth hcolumn, ← htab, Nat.mod_eq_of_lt hword]
  · rename_i htab
    rw [columnBehind, if_neg htab] at hword ⊢
    rw [Nat.mod_eq_of_lt hword]

/-- The column behind a text. -/
def columnAfter (tabWidth : Nat) (text : String) : Nat :=
  (lastLine text).foldl (nextColumn tabWidth) 1

theorem columnAfter_push {c : Char} (hc : c ≠ '\n') (text : String) :
    columnAfter tabWidth (text.push c) = nextColumn tabWidth (columnAfter tabWidth text) c := by
  rw [columnAfter, lastLine_push hc, List.foldl_append, columnAfter]
  rfl

/-- Along a line that leads to a word, no column is cut off. -/
theorem foldl_nextColumn_eq (hwidth : 0 < tabWidth) {line : List Char}
    (hline : ∀ c ∈ line, c ≠ '\n') {column : Nat} (hcolumn : 1 ≤ column)
    (hword : line.foldl (columnBehind tabWidth) column < wordCount) :
    line.foldl (nextColumn tabWidth) column = line.foldl (columnBehind tabWidth) column := by
  induction line generalizing column with
  | nil => rfl
  | cons c line ih =>
    obtain ⟨hc, hline⟩ := List.forall_mem_cons.mp hline
    rw [List.foldl_cons] at hword
    have hgrows := (foldl_columnBehind_bounds hwidth line (columnBehind tabWidth column c)).1
    have hnext := Nat.le_trans hcolumn (le_columnBehind tabWidth column c)
    rw [List.foldl_cons, List.foldl_cons,
      nextColumn_eq_columnBehind hwidth hcolumn hc (Nat.lt_of_le_of_lt hgrows hword),
      ih hline hnext hword]

/-- The column behind a text is the one to which its last line leads, if that is a word. -/
theorem columnAfter_eq (hwidth : 0 < tabWidth) {text : String}
    (hword : (lastLine text).foldl (columnBehind tabWidth) 1 < wordCount) :
    columnAfter tabWidth text = (lastLine text).foldl (columnBehind tabWidth) 1 :=
  foldl_nextColumn_eq hwidth (fun _ hc => ne_newline_of_mem_lastLine hc) (Nat.le_refl 1) hword

/-! ## Positions -/

/-- The position behind a text, where `rest` is left to read. -/
def behind (tabWidth : Nat) (before : String) (rest : List Char) : Position where
  rest := rest
  offset := before.utf8ByteSize
  line := 1 + before.toList.count '\n'
  column := columnAfter tabWidth before

/-- Moving on takes the next character, if there is one, to the text before the position. -/
theorem advance_behind (tabWidth : Nat) (before : String) (rest : List Char) :
    (behind tabWidth before rest).advance tabWidth =
      behind tabWidth (before ++ String.ofList (rest.take 1)) (rest.drop 1) := by
  cases rest with
  | nil => simp [advance, behind]
  | cons c rest =>
    show _ = behind tabWidth (before ++ String.ofList [c]) rest
    rw [append_ofList_singleton]
    by_cases hc : c = '\n'
    · subst hc
      simp [advance, behind, nextColumn, columnAfter, Nat.add_assoc]
    · simp [advance, behind, hc, columnAfter_push hc]

/-- The position behind the first `n` characters of a text, or at its end if there are fewer. -/
def reached (text : String) (tabWidth n : Nat) : Position :=
  behind tabWidth (String.ofList (text.toList.take n)) (text.toList.drop n)

@[simp] theorem rest_reached (text : String) (tabWidth n : Nat) :
    (reached text tabWidth n).rest = text.toList.drop n := rfl

theorem reached_min (text : String) (tabWidth n : Nat) :
    reached text tabWidth (min n text.length) = reached text tabWidth n := by
  rw [reached, ← String.length_toList, ← List.take_eq_take_min, ← List.drop_eq_drop_min, reached]

theorem advance_reached (text : String) (tabWidth n : Nat) :
    (reached text tabWidth n).advance tabWidth = reached text tabWidth (n + 1) := by
  rw [reached, advance_behind, ← String.ofList_append, ← List.take_add, List.drop_drop,
    reached]

theorem advanceBy_reached (text : String) (tabWidth n k : Nat) :
    (reached text tabWidth n).advanceBy tabWidth k = reached text tabWidth (n + k) := by
  induction k generalizing n with
  | zero => rfl
  | succ k ih => rw [advanceBy, advance_reached, ih, Nat.add_right_comm, Nat.add_assoc]

end Position

end FiberLex
