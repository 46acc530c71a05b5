import FiberLex.Proofs.Machine.Room

/-!
# Tokens tile the text

Whatever the program is, its tokens stand side by side and leave nothing out. A program may record
any offset in any slot on the way to a match, or none; but all it can record is an offset it has
come to, so the end it reports lies between two characters of what is left. From this follows what
one token takes, and from that, token by token, where each one stands. Only a slot for which there
can be no room breaks the splitting off.
-/

namespace FiberLex

/-- An offset between two characters of a text, or at one of its ends. -/
def Boundary (text : List Char) (offset : Nat) : Prop :=
  ∃ k ≤ text.length, offset = byteLength (text.take k)

/-! ## What a search reports -/

namespace Backtrack

variable {text : List Char} {code : Array Instr}

theorem Config.boundary_offset (x : Config text) : Boundary text x.offset :=
  ⟨x.place, Nat.le_of_lt_succ x.place.isLt, rfl⟩

/-- The end a path has recorded, if any, lies between two characters. -/
def Config.EndsBetween (x : Config text) : Prop := ∀ f, x.span.finish = some f → Boundary text f

theorem Config.EndsBetween.record {x : Config text} (h : x.EndsBetween) (address slot : Nat) :
    Config.EndsBetween ⟨address, x.place, x.span.record slot x.offset⟩ := by
  intro f hf
  unfold Span.record at hf
  split at hf
  · exact h f hf
  · rw [← Option.some.inj hf]
    exact x.boundary_offset
  · -- the slot that fills the gap holds zero
    rw [Option.some.injEq] at hf
    subst hf
    cases hfinish : x.span.finish with
    | none => exact ⟨0, Nat.zero_le _, by simp⟩
    | some f => exact h f hfinish

theorem Config.EndsBetween.of_mem_successors {i : Instr} {x y : Config text}
    (h : x.EndsBetween) (hy : y ∈ successors i x) : y.EndsBetween := by
  have hconsume : ∀ target, y ∈ x.consumeTo target → y.EndsBetween := by
    intro target hy
    unfold Config.consumeTo at hy
    split at hy
    · rw [List.mem_singleton.mp hy]
      exact h
    · cases hy
  have hgoto : ∀ targets : List Nat, y ∈ targets.map x.goto → y.EndsBetween := by
    intro targets hy
    obtain ⟨target, -, rfl⟩ := List.mem_map.mp hy
    exact h
  unfold successors at hy
  split at hy
  · exact hgoto _ hy
  · rw [List.mem_singleton.mp hy]
    exact h.record _ _
  · split at hy
    · exact hconsume _ hy
    · exact hgoto _ hy
  · cases hy
  · split at hy
    · exact hconsume _ hy
    · cases hy

theorem Config.EndsBetween.boundary_finish {i : Instr} {x : Config text} {m : Match}
    (h : x.EndsBetween) (hm : found? i x = some m) : Boundary text m.finish := by
  unfold found? at hm
  split at hm
  · obtain rfl := Option.some.inj hm
    cases hfinish : x.span.finish with
    | none => exact x.boundary_offset
    | some f => exact h f hfinish
  · cases hm

/-- The match a search comes to ends between two characters. -/
theorem boundary_finish_explore (e : Entered code text) (stack : List (Config text))
    (hstack : ∀ x ∈ stack, x.EndsBetween) {m : Match} (hm : (explore code e stack).1 = some m) :
    Boundary text m.finish := by
  fun_induction explore code e stack with
  | case1 e => cases hm
  | case2 e x rest hx hnew found hfound =>
    obtain rfl := Option.some.inj hm
    exact (hstack x List.mem_cons_self).boundary_finish hfound
  | case3 e x rest hx hnew hfound ih =>
    refine ih (fun y hy => ?_) hm
    rcases List.mem_append.mp hy with hy | hy
    · exact (hstack x List.mem_cons_self).of_mem_successors hy
    · exact hstack y (List.mem_cons_of_mem _ hy)
  | case4 e x rest hx hnew ih => exact ih (fun y hy => hstack y (List.mem_cons_of_mem _ hy)) hm
  | case5 e x rest hx ih => exact ih (fun y hy => hstack y (List.mem_cons_of_mem _ hy)) hm

end Backtrack

/-- The match a run comes to ends between two characters of what was left to read. -/
theorem Machine.boundary_finish_run {m : Machine} {cur : Cursor} {found : Match}
    (h : (m.run cur).result = some found) : Boundary cur.position.rest found.finish := by
  rw [Machine.run_result] at h
  refine Backtrack.boundary_finish_explore _ _ (fun x hx => ?_) h
  rw [List.mem_singleton.mp hx]
  intro f hf
  cases hf

namespace Tokenizer

/-! ## One token -/

/-- The bytes of a token are those of the next few characters. -/
theorem boundary_extent {c : Char} {w : List Char} {found : Option Match}
    (h : ∀ m, found = some m → Boundary (c :: w) m.finish) :
    Boundary (c :: w) (extent c found).2 := by
  have hone : Boundary (c :: w) c.utf8Size := ⟨1, by simp, by simp⟩
  unfold extent
  split
  · rename_i m
    split
    · exact h m rfl
    · exact hone
  · exact hone

/-- A token takes the next `n` characters: it is made of them, its length is theirs, it shows the
place where they begin, and the tokenizer moves on behind them. -/
structure Takes (t : Tokenizer) (n : Nat) (token : Token) (t' : Tokenizer) : Prop where
  within : n ≤ t.position.rest.length
  value : token.value.toList = t.position.rest.take n
  length : token.length = byteLength token.value.toList
  offset : token.offset = t.position.offset
  line : token.line = t.position.line
  column : token.column = t.position.column
  position : t'.position = t.position.advanceBy t.tabWidth n
  tabWidth : t'.tabWidth = t.tabWidth

theorem next?_takes {t t' : Tokenizer} {token : Token} (h : t.next? = some (token, t')) :
    1 ≤ token.length ∧ ∃ n, t.Takes n token t' := by
  unfold next? at h
  split at h
  · cases h
  · rename_i c w hrest
    have hpos : 0 < (extent c (t.machine.run t.cursor).result).2 := extent_pos c _
    have hend : Boundary (c :: w) (extent c (t.machine.run t.cursor).result).2 := by
      refine boundary_extent fun m hm => ?_
      rw [← hrest]
      exact Machine.boundary_finish_run hm
    cases hextent : extent c (t.machine.run t.cursor).result with
    | mk symbol length =>
      rw [hextent] at hpos hend
      simp only [hextent, t.settle_run, hrest] at h
      obtain ⟨rfl, rfl⟩ := Prod.mk.inj (Option.some.inj h)
      obtain ⟨n, hn, rfl⟩ := hend
      rw [takeBytes_byteLength, List.length_take_of_le hn]
      refine ⟨hpos, n, ?_⟩
      constructor <;> simp [hrest]
      simpa using hn

/-! ## All tokens -/

/-- The tokens stand side by side from an offset on, each being followed by the offset that is
reported after it. -/
def SideBySide : Nat → List (Token × Nat) → Prop
  | _, [] => True
  | offset, (token, next) :: rest =>
    token.offset = offset ∧ 1 ≤ token.length ∧ next = offset + token.length ∧ SideBySide next rest

end Tokenizer

/-- The token stands in the text of a cursor: it is a part of it between two characters, `offset`
bytes after the beginning and `length` bytes long, and shows the line and the column that the cursor
shows when it gets there. -/
def Token.StandsIn (token : Token) (cur : Cursor) : Prop :=
  ∃ before after, cur.position.rest = before ++ token.value.toList ++ after ∧
    token.length = byteLength token.value.toList ∧
    token.offset = byteLength before ∧
    token.offset = (cur.advanceBy before.length).position.offset ∧
    token.line = (cur.advanceBy before.length).position.line ∧
    token.column = (cur.advanceBy before.length).position.column

namespace Tokenizer

theorem length_tokens_le (t : Tokenizer) : t.tokens.length ≤ t.position.rest.length := by
  fun_induction tokens t with
  | case1 t hnone => simp
  | case2 t token t' hnext ih =>
    have := length_rest_next? hnext
    rw [List.length_cons]
    omega

theorem sideBySide_tokens (t : Tokenizer) : SideBySide t.position.offset t.tokens := by
  fun_induction tokens t with
  | case1 t hnone => trivial
  | case2 t token t' hnext ih =>
    obtain ⟨hlength, n, htakes⟩ := next?_takes hnext
    refine ⟨htakes.offset, hlength, ?_, ih⟩
    rw [htakes.position, Position.offset_advanceBy, htakes.length, htakes.value]

/-- Every token stands in the text of a cursor if the tokenizer has come from it. -/
theorem standsIn_of_mem_tokens {cur : Cursor} {k : Nat} (t : Tokenizer)
    (hstart : cur.position.offset = 0) (hk : k ≤ cur.position.rest.length)
    (hposition : t.position = (cur.advanceBy k).position) (hwidth : t.tabWidth = cur.tabWidth)
    {x : Token × Nat} (hx : x ∈ t.tokens) : x.1.StandsIn cur := by
  fun_induction tokens t generalizing k with
  | case1 t hnone => cases hx
  | case2 t token t' hnext ih =>
    obtain ⟨-, n, htakes⟩ := next?_takes hnext
    have hrest : t.position.rest = cur.position.rest.drop k := by
      rw [hposition, Cursor.advanceBy, Position.rest_advanceBy]
    rcases List.mem_cons.mp hx with rfl | hx
    · have hvalue : token.value.toList = (cur.position.rest.drop k).take n := by
        rw [htakes.value, hrest]
      refine ⟨cur.position.rest.take k, cur.position.rest.drop (k + n), ?_, htakes.length, ?_, ?_⟩
      · rw [hvalue, ← List.take_add, List.take_append_drop]
      · rw [htakes.offset, hposition, Cursor.advanceBy, Position.offset_advanceBy, hstart,
          Nat.zero_add]
      · rw [List.length_take_of_le hk, ← hposition]
        exact ⟨htakes.offset, htakes.line, htakes.column⟩
    · have hwithin := htakes.within
      rw [hrest, List.length_drop] at hwithin
      refine ih (k := k + n) (by omega) ?_ (htakes.tabWidth.trans hwidth) hx
      rw [htakes.position, hposition, hwidth, Cursor.advanceBy, Cursor.advanceBy,
        Position.advanceBy_add]

end Tokenizer

end FiberLex
