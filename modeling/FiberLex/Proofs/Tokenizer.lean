import FiberLex.Proofs.Machine.Lockstep
import FiberLex.Lexer

/-!
# Splitting a text

The tokens of a text stand one after the other and make up the text. What a token is depends on the
text from its beginning on only: `firstToken` says it by the first match of a backtracking search,
so what earlier runs have left in the machine plays no part.
-/

namespace FiberLex

/-! ## Bytes and characters -/

theorem takeBytes_byteLength (n : Nat) (w : List Char) :
    takeBytes (byteLength (w.take n)) w = w.take n := by
  induction w generalizing n with
  | nil => simp [takeBytes]
  | cons c w ih =>
    cases n with
    | zero => rfl
    | succ n =>
      have hpos := c.utf8Size_pos
      rw [List.take_succ_cons, byteLength_cons, takeBytes, if_neg (by omega),
        Nat.add_sub_cancel_left, ih]

theorem takeBytes_utf8Size (c : Char) (w : List Char) : takeBytes c.utf8Size (c :: w) = [c] := by
  simpa using takeBytes_byteLength 1 (c :: w)

/-- The characters that begin within some bytes stand at the beginning. -/
theorem takeBytes_append_drop (n : Nat) (w : List Char) :
    takeBytes n w ++ w.drop (takeBytes n w).length = w := by
  induction w generalizing n with
  | nil => rfl
  | cons c w ih =>
    rw [takeBytes]
    split
    · rfl
    · rw [List.cons_append, List.length_cons, List.drop_succ_cons, ih]

theorem utf8ByteSize_eq_byteLength (text : String) :
    text.utf8ByteSize = byteLength text.toList := by
  have hlist : ∀ u : List Char, (String.ofList u).utf8ByteSize = byteLength u := by
    intro u
    induction u with
    | nil => rfl
    | cons c u ih =>
      rw [← List.singleton_append, String.ofList_append, String.utf8ByteSize_append, ih]
      simp
  simpa using hlist text.toList

theorem byteLength_take_eq_iff {u : List Char} {n : Nat} (hn : n ≤ u.length) :
    byteLength (u.take n) = byteLength u ↔ n = u.length := by
  constructor
  · intro heq
    have hsplit : byteLength (u.take n) + byteLength (u.drop n) = byteLength u := by
      rw [← byteLength_append, List.take_append_drop]
    cases hdrop : u.drop n with
    | nil =>
      have := congrArg List.length hdrop
      rw [List.length_drop, List.length_nil] at this
      omega
    | cons c v =>
      have hpos := c.utf8Size_pos
      rw [hdrop, byteLength_cons] at hsplit
      omega
  · rintro rfl
    rw [List.take_length]

/-! ## Moving on in a text -/

namespace Position

theorem advanceBy_add (tabWidth m n : Nat) (p : Position) :
    p.advanceBy tabWidth (m + n) = (p.advanceBy tabWidth m).advanceBy tabWidth n := by
  induction m generalizing p with
  | zero => rw [Nat.zero_add, advanceBy]
  | succ m ih => rw [Nat.succ_add, advanceBy, advanceBy, ih]

theorem offset_advance (tabWidth : Nat) (p : Position) :
    (p.advance tabWidth).offset = p.offset + byteLength (p.rest.take 1) := by
  unfold advance
  split
  · rename_i h
    simp [h]
  · rename_i c rest h
    simp [h]

theorem offset_advanceBy (tabWidth n : Nat) (p : Position) :
    (p.advanceBy tabWidth n).offset = p.offset + byteLength (p.rest.take n) := by
  induction n generalizing p with
  | zero => simp [advanceBy]
  | succ n ih =>
    have htake : p.rest.take (n + 1) = p.rest.take 1 ++ (p.rest.drop 1).take n := by
      rw [Nat.add_comm, List.take_add]
    rw [advanceBy, ih, offset_advance, rest_advance, htake, byteLength_append, Nat.add_assoc]

theorem advanceOver_eq (tabWidth finish : Nat) {cs : List Char} {p : Position} (hcs : p.rest = cs) :
    advanceOver tabWidth finish cs p =
      p.advanceBy tabWidth (takeBytes (finish - p.offset) cs).length := by
  induction cs generalizing p with
  | nil => rfl
  | cons c cs ih =>
    rw [advanceOver, takeBytes]
    by_cases hlt : p.offset < finish
    · have hrest : (p.advance tabWidth).rest = cs := by simp [hcs]
      have hoffset : (p.advance tabWidth).offset = p.offset + c.utf8Size := by
        simp [offset_advance, hcs]
      rw [if_pos hlt, if_neg (by omega), ih hrest, hoffset, Nat.sub_add_eq, List.length_cons,
        advanceBy]
    · rw [if_neg hlt, if_pos (by omega)]
      rfl

/-- Moving on until some bytes are reached takes the characters that begin within them. -/
theorem advanceTo_eq (tabWidth finish : Nat) (p : Position) :
    p.advanceTo tabWidth finish =
      p.advanceBy tabWidth (takeBytes (finish - p.offset) p.rest).length :=
  advanceOver_eq tabWidth finish rfl

end Position

namespace Tokenizer

open Backtrack

/-- Wherever a run has left the text, a token ends behind its characters. -/
theorem settle_consume (cur : Cursor) {n : Nat} (hn : n ≤ cur.position.rest.length)
    (length : Nat) :
    settle cur.tabWidth (cur.position.offset + length) cur.position (cur.consume n).position =
      cur.position.advanceBy cur.tabWidth (takeBytes length cur.position.rest).length := by
  unfold settle
  split
  · rename_i hoffset
    rw [Cursor.position_consume] at hoffset ⊢
    rw [Position.offset_advanceBy, Nat.add_left_cancel_iff] at hoffset
    rw [← hoffset, takeBytes_byteLength, List.length_take_of_le hn]
  · rw [Position.advanceTo_eq, Nat.add_sub_cancel_left]

theorem settle_run (t : Tokenizer) (length : Nat) :
    settle t.tabWidth (t.position.offset + length) t.position
        (t.machine.run t.cursor).cursor.position =
      t.position.advanceBy t.tabWidth (takeBytes length t.position.rest).length :=
  settle_consume t.cursor (Nat.sub_le _ _) length

/-- The symbol and the characters of the first token of a text that begins with `c`. -/
def firstToken (p : Program) (c : Char) (w : List Char) : Int × List Char :=
  let (symbol, length) := extent c (search p (c :: w))
  (symbol, takeBytes length (c :: w))

/-! ## One token -/

/-- The next token is the first token of what is left, and what is left after it follows it. -/
theorem next?_spec {p : Program} {t t' : Tokenizer} {token : Token}
    (hcode : t.machine.code = p.toArray) (h : t.next? = some (token, t')) :
    ∃ c w, t.position.rest = c :: w ∧ (token.symbol, token.value.toList) = firstToken p c w ∧
      t.position.rest = token.value.toList ++ t'.position.rest ∧
      t'.machine.code = p.toArray := by
  unfold next? at h
  split at h
  · cases h
  · rename_i c w hrest
    have hresult : (t.machine.run t.cursor).result = search p (c :: w) := by
      rw [Machine.run_result, hcode, cursor, hrest]
      rfl
    cases hextent : extent c (search p (c :: w)) with
    | mk symbol length =>
      simp only [hresult, hextent, t.settle_run, hrest] at h
      obtain ⟨rfl, rfl⟩ := Prod.mk.inj (Option.some.inj h)
      refine ⟨c, w, hrest, ?_, ?_, hcode⟩
      · simp [firstToken, hextent]
      · simp only [String.toList_ofList, Position.rest_advanceBy, hrest]
        exact (takeBytes_append_drop _ _).symm

/-! ## All tokens -/

/-- The tokens make up the text, and each is the first token of what is left where it begins. -/
theorem tokens_spec {p : Program} (t : Tokenizer) (hcode : t.machine.code = p.toArray) :
    t.tokens.flatMap (·.1.value.toList) = t.position.rest ∧
      ∀ before x after, t.tokens = before ++ x :: after →
        ∃ c w, t.position.rest = before.flatMap (·.1.value.toList) ++ c :: w ∧
          (x.1.symbol, x.1.value.toList) = firstToken p c w := by
  fun_induction tokens t with
  | case1 t hnone =>
    have hnil : t.position.rest = [] := by
      unfold next? at hnone
      split at hnone
      · assumption
      · cases hnone
    refine ⟨by rw [hnil]; rfl, fun before x after h => ?_⟩
    simp at h
  | case2 t token t' hnext ih =>
    obtain ⟨c, w, hrest, hfirst, hsplit, hcode'⟩ := next?_spec hcode hnext
    obtain ⟨hcover, htokens⟩ := ih hcode'
    refine ⟨?_, fun before x after h => ?_⟩
    · rw [List.flatMap_cons, hcover, hsplit]
    · cases before with
      | nil =>
        obtain ⟨rfl, -⟩ := List.cons.inj h
        exact ⟨c, w, hrest, hfirst⟩
      | cons y before =>
        obtain ⟨rfl, hlater⟩ := List.cons.inj h
        obtain ⟨c', w', hrest', hfirst'⟩ := htokens before x after hlater
        refine ⟨c', w', ?_, hfirst'⟩
        rw [List.flatMap_cons, List.append_assoc, ← hrest', hsplit]

end Tokenizer

/-- The tokens of a lexer make up the text, and each is the first token of what is left where it
begins. -/
theorem Lexer.tokenize_spec (l : Lexer) (text : String) :
    (l.tokenize text).flatMap (·.value.toList) = text.toList ∧
      ∀ before t after, l.tokenize text = before ++ t :: after →
        ∃ c w, text.toList = before.flatMap (·.value.toList) ++ c :: w ∧
          (t.symbol, t.value.toList) = Tokenizer.firstToken l.program c w := by
  obtain ⟨hcover, htokens⟩ :=
    Tokenizer.tokens_spec (p := l.program) (Tokenizer.new l.program (.ofString text)) rfl
  refine ⟨?_, fun before t after h => ?_⟩
  · rw [tokenize, List.flatMap_map]
    exact hcover
  · obtain ⟨before', rest', hsplit, rfl, hrest⟩ := List.map_eq_append_iff.mp h
    obtain ⟨x, after', rfl, rfl, -⟩ := List.map_eq_cons_iff.mp hrest
    obtain ⟨c, w, hrest, hfirst⟩ := htokens before' x after' hsplit
    refine ⟨c, w, ?_, hfirst⟩
    rw [List.flatMap_map]
    exact hrest

end FiberLex
