import FiberLex.Proofs.Lexer.Build
import FiberLex.Proofs.Tokenizer

/-!
# Maximal munch

By the rule of the longest match, the token at some place is the longest text there that a rule
matches, with the symbol of the first such rule, and one character with the error symbol where no
rule matches (`IsMaximalMunch`). A lexer of regular rules keeps to it except where a text relapses:
the switch of the start has taken over the choice of the fallback, so when the merged automaton is
back at its start and the next character has no case there, everything up to that character becomes
one error token (`tokenize_isMaximalMunch_iff`). Whole texts are not concerned: a text is a match
exactly if some rule matches it (`isMatch_iff_exists_matches`).
-/

namespace FiberLex.Lexer

open Automaton Program Tokenizer

variable {rules : List Rule} {c : Char} {w : List Char}

/-- The token at the beginning of a text by the rule of the longest match. -/
inductive IsMaximalMunch (rules : List Rule) (rest : List Char) : Int → List Char → Prop where
  /-- The longest beginning that some rule matches, with the symbol of the first rule that does. -/
  | rule {symbol : Int} {value : List Char} (hvalue : value <+: rest) (hne : value ≠ [])
      (hfirst : FirstMatch rules value symbol)
      (hlongest : ∀ u, u <+: rest → (∃ r ∈ rules, r.Matches u) → u.length ≤ value.length) :
    IsMaximalMunch rules rest symbol value
  /-- One character, if no rule matches a beginning other than the empty one. -/
  | error {c : Char} (hc : [c] <+: rest)
      (hnone : ∀ u, u <+: rest → u ≠ [] → ∀ r ∈ rules, ¬ r.Matches u) :
    IsMaximalMunch rules rest errorSymbol [c]

/-- The merged automaton is back at its start, which does not accept, after some characters of the
text, and the next character has no case there. -/
def Relapses (rules : List Rule) (rest : List Char) : Prop :=
  ∃ n, 0 < n ∧ Program.Relapses (merge rules) (merge rules).start rest n

/-! ## The token of an outcome -/

/-- The symbol and the characters of the token for an outcome. -/
def tokenFor (c : Char) (w : List Char) : Option (Int × Nat) → Int × List Char
  | some (symbol, n + 1) => (symbol, (c :: w).take (n + 1))
  | _ => (errorSymbol, [c])

theorem firstToken_eq {p : Program} {o : Option (Int × Nat)}
    (h : Backtrack.search p (c :: w) = report (Backtrack.start (c :: w)) o) :
    firstToken p c w = tokenFor c w o := by
  have herror : (errorSymbol, takeBytes c.utf8Size (c :: w)) = (errorSymbol, [c]) := by
    rw [takeBytes_utf8Size]
  rw [firstToken, h]
  rcases o with _ | ⟨symbol, _ | n⟩
  · exact herror
  · exact herror
  · have hpos := c.utf8Size_pos
    have hfinish : byteLength ((c :: w).take (0 + (n + 1))) =
        byteLength ((c :: w).take (n + 1)) := by
      rw [Nat.zero_add]
    have hlt : 0 < byteLength ((c :: w).take (n + 1)) := by
      rw [List.take_succ_cons, byteLength_cons]
      omega
    simp only [report, Option.map_some, Backtrack.start, Fin.val_zero, extent, hfinish,
      if_pos hlt, tokenFor, takeBytes_byteLength]

/-! ## Longest matches -/

section Longest

variable (h : ∀ r ∈ rules, r.Regular)

include h

theorem yields_merge_iff {u : List Char} {s : Option Int} :
    (merge rules).Yields (merge rules).start u s ↔
      ∃ symbol, s = some symbol ∧ FirstMatch rules u symbol := (merge_spec h).2.2 u s

theorem exists_yields_merge_iff {u : List Char} :
    (∃ s, (merge rules).Yields (merge rules).start u s) ↔ ∃ r ∈ rules, r.Matches u := by
  rw [← exists_firstMatch_iff]
  constructor
  · rintro ⟨s, hs⟩
    obtain ⟨symbol, -, hfirst⟩ := (yields_merge_iff h).mp hs
    exact ⟨symbol, hfirst⟩
  · rintro ⟨symbol, hfirst⟩
    exact ⟨some symbol, (yields_merge_iff h).mpr ⟨symbol, rfl, hfirst⟩⟩

/-- The token for the longest match keeps to the rule. -/
theorem isMaximalMunch_of_isLongest {o : Option (Int × Nat)}
    (hlongest : IsLongest (merge rules) (merge rules).start (c :: w) o) :
    IsMaximalMunch rules (c :: w) (tokenFor c w o).1 (tokenFor c w o).2 := by
  have hlonger : ∀ n, (∀ m s, n < m → m ≤ (c :: w).length →
      ¬ (merge rules).Yields (merge rules).start ((c :: w).take m) s) →
      ∀ u, u <+: c :: w → (∃ r ∈ rules, r.Matches u) → u.length ≤ n := by
    intro n hn u hu hmatch
    obtain ⟨s, hs⟩ := (exists_yields_merge_iff h).mpr hmatch
    by_contra hlt
    rw [List.prefix_iff_eq_take.mp hu] at hs
    exact hn u.length s (by omega) hu.length_le hs
  have herror : (∀ m s, 0 < m → m ≤ (c :: w).length →
      ¬ (merge rules).Yields (merge rules).start ((c :: w).take m) s) →
      IsMaximalMunch rules (c :: w) errorSymbol [c] := by
    intro hnone
    refine .error (by simp) fun u hu hne r hr hmatch => hne ?_
    have := hlonger 0 hnone u hu ⟨r, hr, hmatch⟩
    exact List.length_eq_zero_iff.mp (by omega)
  rcases o with _ | ⟨symbol, _ | n⟩
  · exact herror fun m s _ _ => hlongest m s
  · exact herror hlongest.2.2
  · obtain ⟨hle, hyields, hmore⟩ := hlongest
    obtain ⟨symbol', hsymbol, hfirst⟩ := (yields_merge_iff h).mp hyields
    obtain rfl := Option.some.inj hsymbol
    refine .rule (List.take_prefix _ _) (by simp [tokenFor]) hfirst ?_
    rw [tokenFor, List.length_take, Nat.min_eq_left hle]
    exact hlonger (n + 1) hmore

/-- An error token of two characters or more breaks the rule: its symbol is that of no rule. -/
theorem not_isMaximalMunch_of_two_le {rest value : List Char} (hlen : 2 ≤ value.length) :
    ¬ IsMaximalMunch rules rest errorSymbol value := by
  intro hmunch
  generalize hsymbol : errorSymbol = symbol at hmunch
  cases hmunch with
  | rule _ _ hfirst _ =>
    obtain ⟨before, r, after, rfl, rfl, -⟩ := hfirst
    have hnonneg := (h r (by simp)).symbol_nonneg
    rw [← hsymbol] at hnonneg
    exact absurd hnonneg (by decide)
  | error _ _ => exact absurd hlen (by simp)

/-- A token keeps to the rule exactly if the text does not relapse. -/
theorem isMaximalMunch_tokenFor_iff :
    IsMaximalMunch rules (c :: w)
        (tokenFor c w (outcome (merge rules) (merge rules).start (c :: w))).1
        (tokenFor c w (outcome (merge rules) (merge rules).start (c :: w))).2 ↔
      ¬ Relapses rules (c :: w) := by
  obtain ⟨hdet, hsym, -⟩ := merge_spec h
  constructor
  · rintro hmunch ⟨n, hpos, hrelapses⟩
    have hlong : n + 1 ≤ (c :: w).length := by
      obtain ⟨-, u, d, v, hrest, hlen, -⟩ := hrelapses
      rw [hrest, List.length_append, List.length_cons, hlen]
      omega
    rw [outcome_of_relapses hdet hrelapses] at hmunch
    refine not_isMaximalMunch_of_two_le h ?_ hmunch
    rw [tokenFor, List.length_take, Nat.min_eq_left hlong]
    omega
  · intro hnot
    by_cases hzero : Program.Relapses (merge rules) (merge rules).start (c :: w) 0
    · obtain ⟨hacc, -, hlive⟩ := relapses_zero_iff.mp hzero
      have hblocked : Blocked (merge rules) (merge rules).start (c :: w) := by
        simpa [Blocked] using hlive
      have hlongest := isLongest_of_blocked hdet hsym hblocked
      rw [stopAt_of_rejecting hacc] at hlongest
      have htoken : tokenFor c w (some (errorSymbol, 0 + 1)) = tokenFor c w none := rfl
      rw [outcome_of_relapses hdet hzero, htoken]
      exact isMaximalMunch_of_isLongest h hlongest
    · refine isMaximalMunch_of_isLongest h (isLongest_outcome hdet hsym fun n hn => ?_)
      rcases Nat.eq_zero_or_pos n with rfl | hpos
      · exact hzero hn
      · exact hnot ⟨n, hpos, hn⟩

end Longest

/-- A lexer of regular rules can be built, and its tokens make up the text. Each token is the one
that the rule of the longest match asks for at its place, exactly if the rest of the text from there
on does not relapse. -/
theorem tokenize_isMaximalMunch_iff (rules : List Rule) (h : ∀ r ∈ rules, r.Regular) :
    ∃ l log, build rules = .ok (l, log) ∧ ∀ text : String,
      (l.tokenize text).flatMap (·.value.toList) = text.toList ∧
      ∀ before t after, l.tokenize text = before ++ t :: after →
        ∃ rest, text.toList = before.flatMap (·.value.toList) ++ rest ∧
          (IsMaximalMunch rules rest t.symbol t.value.toList ↔ ¬ Relapses rules rest) := by
  obtain ⟨l, log, hbuild, hsearch⟩ := exists_build h
  refine ⟨l, log, hbuild, fun text => ?_⟩
  obtain ⟨hcover, htokens⟩ := l.tokenize_spec text
  refine ⟨hcover, fun before t after hsplit => ?_⟩
  obtain ⟨c, w, hrest, hfirst⟩ := htokens before t after hsplit
  rw [firstToken_eq (hsearch (c :: w))] at hfirst
  refine ⟨c :: w, hrest, ?_⟩
  rw [← isMaximalMunch_tokenFor_iff h, ← hfirst]

/-- A rule whose automaton comes back to its start. -/
def pairs : List Rule := [⟨0, .pattern "(ab)*a"⟩]

theorem tokenize_isMaximalMunch_iff_pairs :
    (∀ r ∈ pairs, r.Regular) ∧ ∃ l log, build pairs = .ok (l, log) ∧ ∀ text : String,
      (l.tokenize text).flatMap (·.value.toList) = text.toList ∧
      ∀ before t after, l.tokenize text = before ++ t :: after →
        ∃ rest, text.toList = before.flatMap (·.value.toList) ++ rest ∧
          (IsMaximalMunch pairs rest t.symbol t.value.toList ↔ ¬ Relapses pairs rest) :=
  ⟨regular_of_all (by cbv), tokenize_isMaximalMunch_iff pairs (regular_of_all (by cbv))⟩

/-- After `ab` the automaton is back at its start, and `x` has no case there: the whole of `abx`
becomes one error token, though the rule matches `a`. -/
theorem not_isMaximalMunch_pairs :
    (∀ r ∈ pairs, r.Regular) ∧ ∃ l log t, build pairs = .ok (l, log) ∧ l.tokenize "abx" = [t] ∧
      ¬ IsMaximalMunch pairs "abx".toList t.symbol t.value.toList := by
  refine ⟨regular_of_all (by cbv), ?_⟩
  have htokens : ((build pairs).toOption.map fun r => r.1.tokenize "abx") =
      some [⟨-1, "abx", 1, 1, 0, 3⟩] := by cbv
  obtain ⟨⟨l, log⟩, hbuild, htokenize⟩ := Option.map_eq_some_iff.mp htokens
  refine ⟨l, log, _, ?_, htokenize, ?_⟩
  · cases hresult : build pairs with
    | error e => simp [hresult, Except.toOption] at hbuild
    | ok r => simpa [hresult, Except.toOption] using hbuild
  · exact not_isMaximalMunch_of_two_le (regular_of_all (by cbv)) (by decide)

/-! ## Whole texts -/

/-- The outcome on a text is the whole text with a symbol of a rule, exactly if a rule matches the
text. -/
theorem exists_outcome_whole_iff (h : ∀ r ∈ rules, r.Regular) {u : List Char} :
    (∃ symbol, symbol ≠ errorSymbol ∧
      outcome (merge rules) (merge rules).start u = some (symbol, u.length)) ↔
      ∃ r ∈ rules, r.Matches u := by
  obtain ⟨hdet, hsym, -⟩ := merge_spec h
  constructor
  · rintro ⟨symbol, hsymbol, houtcome⟩
    have hnot : ∀ n, ¬ Program.Relapses (merge rules) (merge rules).start u n := by
      intro n hn
      rw [outcome_of_relapses hdet hn] at houtcome
      obtain ⟨rfl, -⟩ := Prod.mk.inj (Option.some.inj houtcome)
      exact hsymbol rfl
    have hlongest := isLongest_outcome hdet hsym hnot
    rw [houtcome] at hlongest
    obtain ⟨-, hyields, -⟩ := hlongest
    rw [List.take_length] at hyields
    exact (exists_yields_merge_iff h).mp ⟨_, hyields⟩
  · intro hmatch
    obtain ⟨s, hs⟩ := (exists_yields_merge_iff h).mpr hmatch
    have hlongest := isLongest_outcome hdet hsym (not_relapses_of_yields hdet hs)
    cases houtcome : outcome (merge rules) (merge rules).start u with
    | none =>
      rw [houtcome] at hlongest
      exact absurd (by rw [List.take_length]; exact hs) (hlongest u.length s)
    | some p =>
      obtain ⟨symbol, n⟩ := p
      rw [houtcome] at hlongest
      obtain ⟨hle, hyields, hmore⟩ := hlongest
      have hn : n = u.length := by
        by_contra hne
        exact hmore u.length s (by omega) (Nat.le_refl _) (by rw [List.take_length]; exact hs)
      subst hn
      obtain ⟨symbol', heq, before, r, after, rfl, rfl, -⟩ := (yields_merge_iff h).mp hyields
      obtain rfl := Option.some.inj heq
      have hnonneg := (h r (by simp)).symbol_nonneg
      exact ⟨r.symbol, by unfold errorSymbol; omega, rfl⟩

/-- A lexer of regular rules can be built, and a text is a match as a whole exactly if some rule
matches it. -/
theorem isMatch_iff_exists_matches (rules : List Rule) (h : ∀ r ∈ rules, r.Regular) :
    ∃ l log, build rules = .ok (l, log) ∧
      ∀ text : String, l.isMatch text = true ↔ ∃ r ∈ rules, r.Matches text.toList := by
  obtain ⟨l, log, hbuild, hsearch⟩ := exists_build h
  refine ⟨l, log, hbuild, fun text => ?_⟩
  have hresult : ((Machine.ofProgram l.program).run (.ofString text)).result =
      report (Backtrack.start text.toList)
        (outcome (merge rules) (merge rules).start text.toList) :=
    (Machine.run_result _ _).trans (hsearch text.toList)
  rw [← exists_outcome_whole_iff h, isMatch, Machine.isMatch, hresult, utf8ByteSize_eq_byteLength]
  obtain ⟨hdet, hsym, -⟩ := merge_spec h
  cases houtcome : outcome (merge rules) (merge rules).start text.toList with
  | none => simp [report]
  | some p =>
    obtain ⟨symbol, n⟩ := p
    have hwhole := byteLength_take_eq_iff (le_length_of_outcome hdet hsym houtcome)
    simp [report, Backtrack.start, Match.isError, hwhole]

/-- Rules of which two match some texts in common, and one matches the empty text. -/
def words : List Rule :=
  [⟨0, .literal "aax"⟩, ⟨1, .pattern "a+(x|)"⟩, ⟨2, .pattern "(ab){2,3}|"⟩]

theorem isMatch_iff_exists_matches_words :
    (∀ r ∈ words, r.Regular) ∧ ∃ l log, build words = .ok (l, log) ∧
      ∀ text : String, l.isMatch text = true ↔ ∃ r ∈ words, r.Matches text.toList :=
  ⟨regular_of_all (by cbv), isMatch_iff_exists_matches words (regular_of_all (by cbv))⟩

end FiberLex.Lexer
