import FiberLex.Proofs.Automaton.WellFormed
import FiberLex.Proofs.Lexer.Build
import FiberLex.Proofs.Program.DeadCode
import FiberLex.Proofs.Program.LongestMatch
import FiberLex.Proofs.Program.OrderedChoice
import FiberLex.Proofs.Tokenizer

/-!
# Tokens and the folded root

Two programs split a text alike exactly if they find the same extent wherever a token begins
(`tokens_eq_iff`). The code of an automaton, linked with the fallback, is compared in this way with
the same code after its root has been folded. Folding lets the switch of the start choose the
fallback, also when the automaton comes back to its start in the middle of a token. So the tokens
stay as they are exactly if no token begins where the text relapses
(`tokens_foldRoot_eq_iff`); where one does, the folded program takes more characters.
-/

namespace FiberLex

open Backtrack

theorem byteLength_take_lt {w : List Char} {m n : Nat} (h : m < n) (hn : n ≤ w.length) :
    byteLength (w.take m) < byteLength (w.take n) := by
  induction n, h using Nat.le_induction with
  | base =>
    have hlt : m < w.length := hn
    have hpos := w[m].utf8Size_pos
    rw [byteLength_take_succ hlt]
    omega
  | succ n hmn ih =>
    have hlt := ih (by omega)
    rw [byteLength_take_succ hn]
    omega

namespace Tokenizer

/-! ## Token by token -/

/-- The token with the given symbol and length at the place of a tokenizer. -/
def tokenOf (t : Tokenizer) (e : Int × Nat) : Token :=
  { symbol := e.1, value := String.ofList (takeBytes e.2 t.position.rest), line := t.position.line
    column := t.position.column, offset := t.position.offset, length := e.2 }

/-- The place behind a token of the given length. -/
def positionAfter (t : Tokenizer) (length : Nat) : Position :=
  t.position.advanceBy t.tabWidth (takeBytes length t.position.rest).length

/-- The next token is the one that the search says. -/
theorem exists_next? {p : Program} {t : Tokenizer} {c : Char} {w : List Char}
    (hcode : t.machine.code = p.toArray) (hrest : t.position.rest = c :: w) :
    ∃ m : Machine, m.code = p.toArray ∧
      t.next? = some (t.tokenOf (extent c (search p (c :: w))),
        ⟨m, t.positionAfter (extent c (search p (c :: w))).2, t.tabWidth⟩) := by
  have hresult : (t.machine.run t.cursor).result = search p (c :: w) := by
    rw [Machine.run_result, hcode, cursor, hrest]
    rfl
  refine ⟨(t.machine.run t.cursor).machine, hcode, ?_⟩
  unfold next?
  split
  · rename_i hnil
    rw [hrest] at hnil
    cases hnil
  · rename_i c' w' hrest'
    obtain ⟨rfl, rfl⟩ := List.cons.inj (hrest.symm.trans hrest')
    simp only [hresult, t.settle_run, tokenOf, positionAfter, hrest]

theorem tokens_of_rest_nil {t : Tokenizer} (h : t.position.rest = []) : t.tokens = [] := by
  have hnone : t.next? = none := by simp [next?, h]
  rw [tokens]
  split
  · rfl
  · rename_i hsome
    rw [hnone] at hsome
    cases hsome

theorem tokens_of_next? {t t' : Tokenizer} {token : Token} (h : t.next? = some (token, t')) :
    t.tokens = (token, t'.position.offset) :: t'.tokens := by
  rw [tokens]
  split
  · rename_i hnone
    rw [h] at hnone
    cases hnone
  · rename_i hsome
    obtain ⟨rfl, rfl⟩ := Prod.mk.inj (Option.some.inj (h.symm.trans hsome))
    rfl

/-- A token of the tokenizer begins where `rest` is left. -/
def Begins (t : Tokenizer) (rest : List Char) : Prop :=
  ∃ before x after, t.tokens = before ++ x :: after ∧
    t.position.rest = before.flatMap (·.1.value.toList) ++ rest

theorem not_begins_of_rest_nil {t : Tokenizer} (h : t.position.rest = []) (rest : List Char) :
    ¬ t.Begins rest := by
  rintro ⟨before, x, after, htokens, -⟩
  rw [tokens_of_rest_nil h] at htokens
  cases before with
  | nil => cases htokens
  | cons y before => cases htokens

/-- A token begins here, or it is one of the tokens after the next one. -/
theorem begins_iff_of_next? {t t' : Tokenizer} {token : Token} {rest : List Char}
    (h : t.next? = some (token, t'))
    (hsplit : t.position.rest = token.value.toList ++ t'.position.rest) :
    t.Begins rest ↔ rest = t.position.rest ∨ t'.Begins rest := by
  constructor
  · rintro ⟨before, x, after, htokens, hrest⟩
    rw [tokens_of_next? h] at htokens
    cases before with
    | nil => exact Or.inl hrest.symm
    | cons y before =>
      obtain ⟨rfl, hlater⟩ := List.cons.inj htokens
      rw [List.flatMap_cons, List.append_assoc, hsplit] at hrest
      exact Or.inr ⟨before, x, after, hlater, List.append_cancel_left hrest⟩
  · rintro (rfl | ⟨before, x, after, htokens, hrest⟩)
    · exact ⟨[], _, _, tokens_of_next? h, rfl⟩
    · refine ⟨(token, t'.position.offset) :: before, x, after, ?_, ?_⟩
      · rw [tokens_of_next? h, htokens, List.cons_append]
      · rw [List.flatMap_cons, List.append_assoc, hsplit, hrest]

/-- Two programs split a text alike exactly if they find the same extent wherever a token of the
first begins. -/
theorem tokens_eq_iff {p p' : Program} (t t' : Tokenizer) (hcode : t.machine.code = p.toArray)
    (hcode' : t'.machine.code = p'.toArray) (hposition : t'.position = t.position)
    (htab : t'.tabWidth = t.tabWidth) :
    t'.tokens = t.tokens ↔ ∀ c w, t.Begins (c :: w) →
      extent c (search p' (c :: w)) = extent c (search p (c :: w)) := by
  induction hn : t.position.rest.length using Nat.strong_induction_on generalizing t t' with
  | _ n ih =>
    cases hrest : t.position.rest with
    | nil =>
      rw [tokens_of_rest_nil hrest, tokens_of_rest_nil (hposition ▸ hrest)]
      exact iff_of_true rfl fun c w hbegins => absurd hbegins (not_begins_of_rest_nil hrest _)
    | cons c w =>
      obtain ⟨m, hm, hnext⟩ := exists_next? hcode hrest
      obtain ⟨m', hm', hnext'⟩ := exists_next? hcode' (hposition ▸ hrest)
      obtain ⟨-, -, -, -, hsplit, -⟩ := next?_spec hcode hnext
      have hshort := length_rest_next? hnext
      simp only [begins_iff_of_next? hnext hsplit, hrest]
      rw [tokens_of_next? hnext, tokens_of_next? hnext']
      by_cases heq : extent c (search p' (c :: w)) = extent c (search p (c :: w))
      · have htoken : ∀ e, t'.tokenOf e = t.tokenOf e := by
          intro e
          simp only [tokenOf, hposition]
        have hafter : ∀ k, t'.positionAfter k = t.positionAfter k := by
          intro k
          simp only [positionAfter, hposition, htab]
        rw [heq, htoken, hafter, List.cons_inj_right,
          ih _ (hn ▸ hshort) ⟨m, _, t.tabWidth⟩ ⟨m', _, t'.tabWidth⟩ hm hm' rfl htab rfl]
        refine ⟨fun hlater d v hbegins => ?_, fun hall d v hbegins => hall d v (Or.inr hbegins)⟩
        rcases hbegins with hhere | hbegins
        · obtain ⟨rfl, rfl⟩ := List.cons.inj hhere
          exact heq
        · exact hlater d v hbegins
      · refine iff_of_false (fun hcons => heq ?_) fun hall => heq (hall c w (Or.inl rfl))
        obtain ⟨htoken, -⟩ := Prod.mk.inj (List.cons.inj hcons).1
        exact Prod.ext (congrArg Token.symbol htoken) (congrArg Token.length htoken)

end Tokenizer

namespace Program

open Automaton Tokenizer

variable {a b : Automaton} {i n : Nat} {c : Char} {w : List Char}

/-! ## Relapses of automata that agree -/

theorem follow?_congr (h : a.Agrees b) (hi : a.Reaches a.start i) (u : List Char) :
    b.follow? i u = a.follow? i u := by
  induction u generalizing i with
  | nil => rfl
  | cons c u ih =>
    rw [follow?_cons, follow?_cons, h.next? hi]
    cases hnext : a.next? i c.toNat with
    | none => rfl
    | some j => exact ih (reaches_of_next? hi hnext)

theorem live?_congr (h : a.Agrees b) (hi : a.Reaches a.start i) (cp : Nat) :
    live? b i cp = live? a i cp := by
  rw [live?, live?, h.next? hi]
  cases hnext : a.next? i cp with
  | none => rfl
  | some j => simp [Option.filter, isLeftOut_congr h (reaches_of_next? hi hnext)]

/-- Automata that agree on the states that can be reached relapse alike. -/
theorem relapses_congr (h : a.Agrees b) : Relapses b b.start w n ↔ Relapses a a.start w n := by
  simp only [Relapses, h.start, h.state .refl, follow?_congr h .refl, live?_congr h .refl]

/-! ## One token -/

/-- There is but one longest match. -/
theorem IsLongest.unique (ha : a.Deterministic) {o o' : Option (Int × Nat)}
    (h : IsLongest a i w o) (h' : IsLongest a i w o') : o = o' := by
  rcases o with _ | ⟨symbol, m⟩
  · rcases o' with _ | ⟨symbol', m'⟩
    · rfl
    · exact absurd h'.2.1 (h m' _)
  · rcases o' with _ | ⟨symbol', m'⟩
    · exact absurd h.2.1 (h' m _)
    · obtain ⟨hm, hyields, hlonger⟩ := h
      obtain ⟨hm', hyields', hlonger'⟩ := h'
      have hle : ¬ m < m' := fun hlt => hlonger m' _ hlt hm' hyields'
      have hge : ¬ m' < m := fun hlt => hlonger' m _ hlt hm hyields
      obtain rfl : m = m' := by omega
      obtain ⟨j, hj, -, hsymbol⟩ := ha.yields_iff.mp hyields
      obtain ⟨j', hj', -, hsymbol'⟩ := ha.yields_iff.mp hyields'
      rw [hj] at hj'
      obtain rfl := Option.some.inj hj'
      rw [hsymbol] at hsymbol'
      rw [Option.some.inj hsymbol']

section Extent

variable {symbol : Int}

theorem extent_report_none :
    extent c (report (Backtrack.start (c :: w)) none) = (errorSymbol, c.utf8Size) := rfl

/-- A match of nothing counts as none. -/
theorem extent_report_zero :
    extent c (report (Backtrack.start (c :: w)) (some (symbol, 0))) = (errorSymbol, c.utf8Size) :=
  rfl

theorem extent_report_succ :
    extent c (report (Backtrack.start (c :: w)) (some (symbol, n + 1))) =
      (symbol, byteLength ((c :: w).take (n + 1))) := by
  have hpos := c.utf8Size_pos
  have hfinish : byteLength ((c :: w).take (0 + (n + 1))) = byteLength ((c :: w).take (n + 1)) := by
    rw [Nat.zero_add]
  have hlt : 0 < byteLength ((c :: w).take (n + 1)) := by
    rw [List.take_succ_cons, byteLength_cons]
    omega
  simp only [report, Option.map_some, Backtrack.start, Fin.val_zero, extent, hfinish, if_pos hlt]

end Extent

theorem Relapses.length_lt (h : Relapses a i w n) : n < w.length := by
  obtain ⟨-, u, d, v, rfl, rfl, -⟩ := h
  rw [List.length_append, List.length_cons]
  omega

/-- Whether a text relapses depends on the characters up to there only. -/
theorem Relapses.take (h : Relapses a i w n) {k : Nat} (hk : n < k) :
    Relapses a i (w.take k) n := by
  obtain ⟨hacc, u, d, v, rfl, rfl, hfollow, hlive⟩ := h
  refine ⟨hacc, u, d, v.take (k - u.length - 1), ?_, rfl, hfollow, hlive⟩
  rw [List.take_append, List.take_of_length_le (by omega),
    show k - u.length = k - u.length - 1 + 1 by omega, List.take_succ_cons]
  simp

/-- Where a text relapses, no longer beginning is a match. -/
theorem IsLongest.le_of_relapses (ha : a.Deterministic) {symbol : Int} {m : Nat}
    (h : IsLongest a a.start w (some (symbol, m))) (hrelapses : Relapses a a.start w n) :
    m ≤ n := by
  by_contra hlt
  exact not_relapses_of_yields ha h.2.1 n (hrelapses.take (by omega))

/-- What the code of an automaton finds with the fallback as an alternative to the start, and what
it finds with the fallback as a part of the start, have the same extent exactly if the text does not
relapse. -/
theorem extent_outcome_eq_iff (ha : a.Deterministic) (hs : a.Symbolled)
    {o : Option (Int × Nat)} (ho : IsLongest a a.start (c :: w) o) :
    extent c (report (Backtrack.start (c :: w)) (outcome a a.start (c :: w))) =
        extent c (report (Backtrack.start (c :: w)) (o.or (some (errorSymbol, 1)))) ↔
      ∀ n, 0 < n → ¬ Relapses a a.start (c :: w) n := by
  have hone : byteLength ((c :: w).take 1) = c.utf8Size := by simp
  constructor
  · -- the folded root takes more characters than any match has
    intro heq n hpos hrelapses
    have hlength := hrelapses.length_lt
    have hlonger : ∀ m ≤ n, byteLength ((c :: w).take (n + 1)) ≠ byteLength ((c :: w).take m) :=
      fun m hm => (byteLength_take_lt (Nat.lt_succ_of_le hm) hlength).ne'
    rw [outcome_of_relapses ha hrelapses, extent_report_succ] at heq
    rcases o with _ | ⟨symbol, _ | m⟩
    · rw [Option.none_or, extent_report_succ] at heq
      exact hlonger 1 hpos (Prod.mk.inj heq).2
    · rw [Option.some_or, extent_report_zero, ← hone] at heq
      exact hlonger 1 hpos (Prod.mk.inj heq).2
    · rw [Option.some_or, extent_report_succ] at heq
      exact hlonger (m + 1) (ho.le_of_relapses ha hrelapses) (Prod.mk.inj heq).2
  · intro hnot
    by_cases hzero : Relapses a a.start (c :: w) 0
    · -- the start has no case for the first character: both take the fallback
      obtain ⟨hacc, -, hlive⟩ := relapses_zero_iff.mp hzero
      have hblocked : Blocked a a.start (c :: w) := by simpa [Blocked] using hlive
      have hnone := isLongest_of_blocked ha hs hblocked
      rw [stopAt_of_rejecting hacc] at hnone
      rw [outcome_of_relapses ha hzero, ho.unique ha hnone, Option.none_or]
    · have hlongest := isLongest_outcome ha hs fun n hn => by
        rcases Nat.eq_zero_or_pos n with rfl | hpos
        · exact hzero hn
        · exact hnot n hpos hn
      rw [ho.unique ha hlongest]
      cases outcome a a.start (c :: w) with
      | none => rw [Option.none_or, extent_report_none, extent_report_succ, Nat.zero_add, hone]
      | some p => rw [Option.some_or]

/-! ## All tokens -/

/-- What the linked program finds is not changed when idle jumps are removed. -/
theorem search_removeDeadCode {p : Program} (h : Runnable p) (text : List Char) :
    search p.removeDeadCode text = search p text := by
  have hrun : ((Machine.ofProgram p.removeDeadCode).run { position := .start text }).result =
      ((Machine.ofProgram p).run { position := .start text }).result :=
    (run_removeDeadCode h rfl rfl _).1
  rw [Machine.run_result, Machine.run_result] at hrun
  exact hrun

/-- The code of an automaton that is deterministic as far as it can be reached splits a text alike
with and without a folded root, exactly if no token begins where the rest of the text relapses. -/
theorem tokens_foldRoot_eq_iff (ha : a.Valid)
    (hdet : ∀ i, a.Reaches a.start i → Determined (a.state i)) :
    ∃ code, ofAutomaton a = .ok code ∧ ∀ cur : Cursor,
      (Tokenizer.new (linkFragments [code]).removeDeadCode.foldRoot cur).tokens =
          (Tokenizer.new (linkFragments [code]).removeDeadCode cur).tokens ↔
        ∀ before x after,
          (Tokenizer.new (linkFragments [code]).removeDeadCode cur).tokens = before ++ x :: after →
          ∀ rest, cur.position.rest = before.flatMap (·.1.value.toList) ++ rest →
            ∀ n, 0 < n → ¬ Relapses a a.start rest n := by
  have hagrees := agrees_prune ha
  have hprune := deterministic_prune ha hdet
  have hsym := symbolled_prune ha hdet
  have hcode : ofAutomaton a = .ok (codeOf a.prune) := by
    rw [← ofAutomaton_congr hagrees ha, ofAutomaton_eq hsym]
  have hrunnable : Runnable (linkFragments [codeOf a.prune]) := runnable_linkFragments
    (List.forall_mem_singleton.mpr (selfContained_codeOf hprune hsym).targetsBelow)
  have hextent : ∀ c w,
      extent c (search (linkFragments [codeOf a.prune]).removeDeadCode.foldRoot (c :: w)) =
          extent c (search (linkFragments [codeOf a.prune]).removeDeadCode (c :: w)) ↔
        ∀ n, 0 < n → ¬ Relapses a a.start (c :: w) n := by
    intro c w
    obtain ⟨o, ho, hfinds⟩ := finds_linkFragments hprune hsym (c :: w)
    have hfolded := search_eq_of_finds (finds_linked hprune hsym (c :: w))
    rw [linked] at hfolded
    rw [hfolded, search_removeDeadCode hrunnable, search_eq_of_finds hfinds]
    simp only [← relapses_congr hagrees]
    exact extent_outcome_eq_iff hprune hsym ho
  refine ⟨_, hcode, fun cur => ?_⟩
  rw [tokens_eq_iff (Tokenizer.new (linkFragments [codeOf a.prune]).removeDeadCode cur)
    (Tokenizer.new (linkFragments [codeOf a.prune]).removeDeadCode.foldRoot cur) rfl rfl rfl rfl]
  constructor
  · intro hsame before x after htokens rest hrest n hpos
    cases rest with
    | nil => exact not_relapses_nil
    | cons c w => exact (hextent c w).mp (hsame c w ⟨before, x, after, htokens, hrest⟩) n hpos
  · rintro hnot c w ⟨before, x, after, htokens, hrest⟩
    exact (hextent c w).mpr (hnot before x after htokens (c :: w) hrest)

theorem tokens_foldRoot_eq_iff_seesaw :
    seesaw.Valid ∧ (∀ i, seesaw.Reaches seesaw.start i → Determined (seesaw.state i)) ∧
    ∃ code, ofAutomaton seesaw = .ok code ∧ ∀ cur : Cursor,
      (Tokenizer.new (linkFragments [code]).removeDeadCode.foldRoot cur).tokens =
          (Tokenizer.new (linkFragments [code]).removeDeadCode cur).tokens ↔
        ∀ before x after,
          (Tokenizer.new (linkFragments [code]).removeDeadCode cur).tokens = before ++ x :: after →
          ∀ rest, cur.position.rest = before.flatMap (·.1.value.toList) ++ rest →
            ∀ n, 0 < n → ¬ Relapses seesaw seesaw.start rest n :=
  ⟨by decide, determined_seesaw, tokens_foldRoot_eq_iff (by decide) determined_seesaw⟩

/-- The program of the seesaw: the states in preorder, and the end that goes with the symbol. -/
def seesawCode : Program :=
  [.switch [⟨#[⟨97, 97⟩], 1⟩] [], .jump [2, 3], .switch [⟨#[⟨98, 98⟩], 0⟩] [], .save 1, .accept 7]

theorem ofAutomaton_seesaw : ofAutomaton seesaw = .ok seesawCode := by
  have hsymbols : seesaw.symbolTable none = .ok [7] := by
    rw [symbolTable, closure_seesaw]
    decide +kernel
  rw [ofAutomaton, hsymbols]
  change Except.ok _ = Except.ok _
  rw [layout, closure_seesaw]
  decide +kernel

/-- After `ab` the automaton is back at its start, where `x` has no case. With the folded root the
whole of `abx` becomes one error token; without it, `a` is a token, and `b` and `x` are errors. -/
theorem tokens_foldRoot_ne_seesaw :
    seesaw.WellFormed ∧ (∀ i, seesaw.Reaches seesaw.start i → Determined (seesaw.state i)) ∧
    ofAutomaton seesaw = .ok seesawCode ∧
    (Tokenizer.new (linkFragments [seesawCode]).removeDeadCode.foldRoot (.ofString "abx")).tokens ≠
      (Tokenizer.new (linkFragments [seesawCode]).removeDeadCode (.ofString "abx")).tokens := by
  refine ⟨wellFormed_of_meets (by decide) (by decide), determined_seesaw, ofAutomaton_seesaw,
    fun heq => ?_⟩
  have hfolded : (Tokenizer.new (linkFragments [seesawCode]).removeDeadCode.foldRoot
      (.ofString "abx")).tokens = [(⟨-1, "abx", 1, 1, 0, 3⟩, 3)] := by cbv
  have hplain : (Tokenizer.new (linkFragments [seesawCode]).removeDeadCode
      (.ofString "abx")).tokens =
        [(⟨7, "a", 1, 1, 0, 1⟩, 1), (⟨-1, "b", 1, 2, 1, 1⟩, 2), (⟨-1, "x", 1, 3, 2, 1⟩, 3)] := by
    cbv
  rw [hfolded, hplain] at heq
  cases heq

end Program

end FiberLex
