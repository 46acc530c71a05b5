import FiberLex.Proofs.Program.Execution

/-!
# Outcomes and longest matches

The outcome of a state on a text is the longest match (`IsLongest`), with one exception: on the way
the start may be come to again, and if it does not accept and has no case for the next character,
the text up to and including that character is what is found, with the error symbol (`Relapses`).
-/

namespace FiberLex.Program

open Automaton

variable {a : Automaton} {i j n : Nat} {c : Char} {w : List Char}

/-- The longest beginning of a text that is yielded from a state, by its symbol and its length; or
that there is none. -/
def IsLongest (a : Automaton) (i : Nat) (w : List Char) : Option (Int × Nat) → Prop
  | none => ∀ m s, ¬ a.Yields i (w.take m) s
  | some (symbol, n) =>
    n ≤ w.length ∧ a.Yields i (w.take n) (some symbol) ∧
      ∀ m s, n < m → m ≤ w.length → ¬ a.Yields i (w.take m) s

/-- The start, which does not accept, is come to after `n` characters of a text, and it has no case
for the character after them. -/
def Relapses (a : Automaton) (i : Nat) (w : List Char) (n : Nat) : Prop :=
  (a.state a.start).accepting = false ∧ ∃ u c v, w = u ++ c :: v ∧ u.length = n ∧
    a.follow? i u = some a.start ∧ live? a a.start c.toNat = none

/-! ## One character -/

theorem yields_cons_iff_next? (ha : a.Deterministic) {s : Option Int} :
    a.Yields i (c :: w) s ↔ ∃ j, a.next? i c.toNat = some j ∧ a.Yields j w s := by
  rw [ha.yields_iff]
  constructor
  · rintro ⟨k, hk, hacc⟩
    obtain ⟨j, hj, hk⟩ := Option.bind_eq_some_iff.mp hk
    exact ⟨j, hj, ha.yields_iff.mpr ⟨k, hk, hacc⟩⟩
  · rintro ⟨j, hj, hyields⟩
    obtain ⟨k, hk, hacc⟩ := ha.yields_iff.mp hyields
    exact ⟨k, by rw [follow?_cons, hj]; exact hk, hacc⟩

/-- From a state that is left out nothing is yielded. -/
theorem not_yields_of_isLeftOut (ha : a.Deterministic) (h : isLeftOut a j = true) {s : Option Int} :
    ¬ a.Yields j w s := by
  obtain ⟨hedges, -, hacc⟩ := (isLeftOut_iff ha).mp h
  intro hyields
  cases w with
  | nil =>
    obtain ⟨k, hk, haccept, -⟩ := ha.yields_iff.mp hyields
    cases hk
    rw [hacc] at haccept
    cases haccept
  | cons c w =>
    obtain ⟨k, hk, -⟩ := (yields_cons_iff_next? ha).mp hyields
    simp [next?, hedges] at hk

/-- What a state yields on a text goes through its next state that is not left out. -/
theorem yields_cons_iff_live? (ha : a.Deterministic) {s : Option Int} :
    a.Yields i (c :: w) s ↔ ∃ j, live? a i c.toNat = some j ∧ a.Yields j w s := by
  rw [yields_cons_iff_next? ha]
  constructor
  · rintro ⟨j, hj, hyields⟩
    refine ⟨j, Option.filter_eq_some_iff.mpr ⟨hj, ?_⟩, hyields⟩
    by_contra hleft
    exact not_yields_of_isLeftOut ha (by simpa using hleft) hyields
  · rintro ⟨j, hj, hyields⟩
    exact ⟨j, (Option.filter_eq_some_iff.mp hj).1, hyields⟩

theorem yields_nil_iff (ha : a.Deterministic) (hs : a.Symbolled) {s : Option Int} :
    a.Yields i [] s ↔ s.isSome = true ∧ acceptOf a i = s := by
  rw [ha.yields_iff]
  constructor
  · rintro ⟨k, hk, hacc, rfl⟩
    cases hk
    exact ⟨hs i hacc, by simp [acceptOf, hacc]⟩
  · rintro ⟨hsome, rfl⟩
    obtain ⟨symbol, hsymbol⟩ := Option.isSome_iff_exists.mp hsome
    obtain ⟨hacc, hsym⟩ := acceptOf_eq_some_iff.mp hsymbol
    exact ⟨i, rfl, hacc, hsym.trans hsymbol.symm⟩

/-- A state that takes no character has its own symbol as the longest match. -/
theorem isLongest_stopAt (ha : a.Deterministic) (hs : a.Symbolled)
    (h : ∀ m s, 0 < m → m ≤ w.length → ¬ a.Yields i (w.take m) s) :
    IsLongest a i w (stopAt a i) := by
  unfold stopAt
  cases haccept : acceptOf a i with
  | some symbol =>
    exact ⟨Nat.zero_le _, by simp [yields_nil_iff ha hs, haccept], h⟩
  | none =>
    intro m s hyields
    rcases Nat.eq_zero_or_pos (min m w.length) with hzero | hpos
    · have hnil : w.take m = [] := by
        rw [← List.length_eq_zero_iff, List.length_take]
        exact hzero
      rw [hnil, yields_nil_iff ha hs, haccept] at hyields
      obtain ⟨hsome, rfl⟩ := hyields
      cases hsome
    · refine h (min m w.length) s hpos (Nat.min_le_right _ _) ?_
      rw [← List.take_eq_take_min]
      exact hyields

theorem isLongest_of_blocked (ha : a.Deterministic) (hs : a.Symbolled) (h : Blocked a i w) :
    IsLongest a i w (stopAt a i) := by
  refine isLongest_stopAt ha hs fun m s hm hle hyields => ?_
  cases w with
  | nil =>
    rw [List.length_nil] at hle
    omega
  | cons c w =>
    obtain ⟨m, rfl⟩ := Nat.exists_eq_succ_of_ne_zero (by omega : m ≠ 0)
    rw [List.take_succ_cons] at hyields
    obtain ⟨j, hj, -⟩ := (yields_cons_iff_live? ha).mp hyields
    rw [h c rfl] at hj
    cases hj

/-- The longest match from the next state, or else what the state has of its own, is the longest
match. -/
theorem IsLongest.cons (ha : a.Deterministic) (hs : a.Symbolled)
    (hlive : live? a i c.toNat = some j) {o : Option (Int × Nat)} (h : IsLongest a j w o) :
    IsLongest a i (c :: w) ((o.map fun p => (p.1, p.2 + 1)).or (stopAt a i)) := by
  have hyields : ∀ u s, a.Yields i (c :: u) s ↔ a.Yields j u s := by
    intro u s
    rw [yields_cons_iff_live? ha]
    simp [hlive]
  cases o with
  | none =>
    rw [Option.map_none, Option.none_or]
    refine isLongest_stopAt ha hs fun m s hm _ hy => ?_
    obtain ⟨m, rfl⟩ := Nat.exists_eq_succ_of_ne_zero (by omega : m ≠ 0)
    rw [List.take_succ_cons, hyields] at hy
    exact h m s hy
  | some p =>
    obtain ⟨symbol, n⟩ := p
    obtain ⟨hle, hy, hlonger⟩ := h
    refine ⟨Nat.succ_le_succ hle, ?_, fun m s hm hmle => ?_⟩
    · rw [List.take_succ_cons, hyields]
      exact hy
    · obtain ⟨m, rfl⟩ := Nat.exists_eq_succ_of_ne_zero (by omega : m ≠ 0)
      rw [List.take_succ_cons, hyields]
      rw [List.length_cons] at hmle
      exact hlonger m s (by omega) (by omega)

/-! ## Relapses -/

theorem not_relapses_nil : ¬ Relapses a i [] n := by
  rintro ⟨-, u, c, v, hw, -⟩
  simp at hw

/-- A start that does not accept and has no case for the next character relapses at once. -/
theorem relapses_zero_iff :
    Relapses a i (c :: w) 0 ↔
      (a.state a.start).accepting = false ∧ i = a.start ∧ live? a a.start c.toNat = none := by
  constructor
  · rintro ⟨hacc, u, d, v, hw, hlen, hfollow, hlive⟩
    obtain rfl := List.length_eq_zero_iff.mp hlen
    obtain ⟨rfl, rfl⟩ := List.cons.inj hw
    exact ⟨hacc, Option.some.inj hfollow, hlive⟩
  · rintro ⟨hacc, rfl, hlive⟩
    exact ⟨hacc, [], c, w, rfl, rfl, rfl, hlive⟩

/-- A later relapse goes through the next state. -/
theorem relapses_succ_iff (ha : a.Deterministic) :
    Relapses a i (c :: w) (n + 1) ↔ ∃ j, live? a i c.toNat = some j ∧ Relapses a j w n := by
  constructor
  · rintro ⟨hacc, u, d, v, hw, hlen, hfollow, hlive⟩
    cases u with
    | nil => cases hlen
    | cons c' u =>
      obtain ⟨rfl, rfl⟩ := List.cons.inj hw
      obtain ⟨j, hj, hfollow⟩ := Option.bind_eq_some_iff.mp hfollow
      -- A state that is left out is not the start and leads nowhere.
      have hleft : isLeftOut a j = false := by
        by_contra hleft
        obtain ⟨hedges, hne, -⟩ := (isLeftOut_iff ha).mp (by simpa using hleft)
        cases u with
        | nil => exact hne (Option.some.inj hfollow)
        | cons d' u => simp [next?, hedges] at hfollow
      refine ⟨j, Option.filter_eq_some_iff.mpr ⟨hj, by simp [hleft]⟩, hacc, u, d, v, rfl, ?_,
        hfollow, hlive⟩
      simpa using hlen
  · rintro ⟨j, hj, hacc, u, d, v, rfl, rfl, hfollow, hlive⟩
    refine ⟨hacc, c :: u, d, v, rfl, rfl, ?_, hlive⟩
    rw [follow?_cons, (Option.filter_eq_some_iff.mp hj).1]
    exact hfollow

/-- Where the text relapses, it is taken up to the character without a case. -/
theorem outcome_of_relapses (ha : a.Deterministic) (h : Relapses a i w n) :
    outcome a i w = some (errorSymbol, n + 1) := by
  induction w generalizing i n with
  | nil => exact absurd h not_relapses_nil
  | cons c w ih =>
    cases n with
    | zero =>
      obtain ⟨hacc, rfl, hlive⟩ := relapses_zero_iff.mp h
      have hblocked : Blocked a a.start (c :: w) := by simpa [Blocked] using hlive
      rw [outcome_of_blocked hblocked, stopAt_of_rejecting hacc, if_pos rfl]
      rfl
    | succ n =>
      obtain ⟨j, hlive, hrelapses⟩ := (relapses_succ_iff ha).mp h
      rw [outcome_of_live hlive, ih hrelapses]
      rfl

/-- Where the text does not relapse, the outcome is the longest match. -/
theorem isLongest_outcome (ha : a.Deterministic) (hs : a.Symbolled)
    (h : ∀ n, ¬ Relapses a i w n) : IsLongest a i w (outcome a i w) := by
  induction w generalizing i with
  | nil =>
    have hblocked : Blocked a i [] := by simp [Blocked]
    rw [outcome_of_blocked hblocked]
    simpa using isLongest_of_blocked ha hs hblocked
  | cons c w ih =>
    rcases blocked_or a i (c :: w) with hblocked | ⟨c', w', j, hw, hlive⟩
    · have heq : outcome a i (c :: w) = stopAt a i := by
        rw [outcome_of_blocked hblocked]
        by_cases hstart : i = a.start
        · cases hacc : (a.state a.start).accepting with
          | false =>
            have hlive : live? a a.start c.toNat = none := hstart ▸ hblocked c rfl
            exact absurd (relapses_zero_iff.mpr ⟨hacc, hstart, hlive⟩) (h 0)
          | true =>
            obtain ⟨symbol, hsymbol⟩ := Option.isSome_iff_exists.mp (hs a.start hacc)
            rw [hstart, stopAt_of_accepting (acceptOf_eq_some_iff.mpr ⟨hacc, hsymbol⟩)]
            rfl
        · rw [if_neg hstart, Option.or_none]
      rw [heq]
      exact isLongest_of_blocked ha hs hblocked
    · obtain ⟨rfl, rfl⟩ := List.cons.inj hw
      rw [outcome_of_live hlive]
      refine (ih fun n hn => ?_).cons ha hs hlive
      exact h (n + 1) ((relapses_succ_iff ha).mpr ⟨j, hlive, hn⟩)

/-- A text that is yielded does not relapse, for after a relapse nothing more is. -/
theorem not_relapses_of_yields (ha : a.Deterministic) {s : Option Int}
    (h : a.Yields a.start w s) (n : Nat) : ¬ Relapses a a.start w n := by
  rintro ⟨-, before, d, after, rfl, -, hfollow, hlive⟩
  obtain ⟨j, hj, hacc, hsymbol⟩ := ha.yields_iff.mp h
  rw [follow?_append, hfollow] at hj
  have hyields : a.Yields a.start (d :: after) s := ha.yields_iff.mpr ⟨j, hj, hacc, hsymbol⟩
  obtain ⟨k, hk, -⟩ := (yields_cons_iff_live? ha).mp hyields
  rw [hlive] at hk
  cases hk

/-- An outcome takes no more than there is. -/
theorem le_length_of_outcome (ha : a.Deterministic) (hs : a.Symbolled) {symbol : Int}
    (h : outcome a i w = some (symbol, n)) : n ≤ w.length := by
  by_cases hrelapses : ∃ m, Relapses a i w m
  · obtain ⟨m, hm⟩ := hrelapses
    rw [outcome_of_relapses ha hm] at h
    obtain ⟨-, rfl⟩ := Prod.mk.inj (Option.some.inj h)
    obtain ⟨-, u, c, v, rfl, rfl, -⟩ := hm
    rw [List.length_append, List.length_cons]
    omega
  · have hlongest := isLongest_outcome ha hs fun m hm => hrelapses ⟨m, hm⟩
    rw [h] at hlongest
    exact hlongest.1

end FiberLex.Program
