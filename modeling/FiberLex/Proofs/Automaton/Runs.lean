import FiberLex.Proofs.Automaton.Semantics

/-!
# How far runs go

A run takes characters for as long as some state survives. So it takes the longest part of its text
that leads from the start to some state (`le_consumed_iff`), whether or not that state accepts, and
what it reports is read off the states to which that part leads. Two automata with the same texts
that lead somewhere and the same texts that they yield therefore run alike, whatever their states
are (`accepts_eq_of_yields_iff`, `lex_eq_of_yields_iff`).
-/

namespace FiberLex.Automaton

variable {a b : Automaton}

/-! ## Parts of texts -/

theorem after_append (a : Automaton) (states : List Nat) (u v : List Char) :
    a.after states (u ++ v) = a.after (a.after states u) v :=
  List.foldl_append

/-- The text leads from the start to some state. -/
def Survives (a : Automaton) (w : List Char) : Prop := ∃ k, a.ReachesBy a.start w k

theorem survives_nil (a : Automaton) : a.Survives [] := ⟨a.start, .here⟩

theorem survives_iff (ha : a.Valid) {w : List Char} :
    a.Survives w ↔ a.after a.initial w ≠ [] := by
  rw [ne_eq, List.eq_nil_iff_forall_not_mem]
  push Not
  exact exists_congr fun k => (mem_after_initial_iff ha).symm

/-! ## Where a run ends -/

/-- The number of characters that a run takes from a text. -/
def consumed (a : Automaton) (text : List Char) : Nat := text.length - (a.run text).2.length

/-- A run from a list of states takes the first part of the text, and stops where no state would be
left. -/
theorem exists_runFrom (a : Automaton) (states : List Nat) (text : List Char) :
    ∃ u, u ++ (a.runFrom states text).2 = text ∧ (a.runFrom states text).1 = a.after states u ∧
      (u ≠ [] → a.after states u ≠ []) ∧
      ∀ c v, (a.runFrom states text).2 = c :: v → a.after states (u ++ [c]) = [] := by
  induction text generalizing states with
  | nil => exact ⟨[], rfl, rfl, fun h => absurd rfl h, fun c v h => by cases h⟩
  | cons c text ih =>
    rw [runFrom]
    by_cases hmove : a.move states c.toNat = []
    · refine ⟨[], ?_⟩
      simp only [hmove, List.isEmpty_nil, if_true]
      refine ⟨rfl, rfl, fun h => absurd rfl h, ?_⟩
      intro d v h
      obtain ⟨rfl, -⟩ := List.cons.inj h
      exact hmove
    · obtain ⟨u, htext, hstates, hlive, hstop⟩ := ih (a.move states c.toNat)
      have hne : (a.move states c.toNat).isEmpty = false := by simpa using hmove
      refine ⟨c :: u, ?_⟩
      simp only [hne, Bool.false_eq_true, if_false]
      refine ⟨congrArg (c :: ·) htext, hstates, ?_, hstop⟩
      intro _
      rw [after_cons]
      cases u with
      | nil => exact hmove
      | cons d u => exact hlive (by simp)

/-- A run takes as much of the text as it has characters consumed. -/
theorem exists_run (a : Automaton) (text : List Char) :
    ∃ u v, u ++ v = text ∧ a.run text = (a.after a.initial u, v) ∧ a.consumed text = u.length ∧
      (u ≠ [] → a.after a.initial u ≠ []) ∧
      ∀ c v', v = c :: v' → a.after a.initial (u ++ [c]) = [] := by
  obtain ⟨u, htext, hstates, hlive, hstop⟩ := exists_runFrom a a.initial text
  refine ⟨u, (a.run text).2, htext, ?_, ?_, hlive, hstop⟩
  · rw [← hstates]
    rfl
  · have hlength := congrArg List.length htext
    rw [List.length_append] at hlength
    rw [consumed, run]
    omega

theorem consumed_le (a : Automaton) (text : List Char) : a.consumed text ≤ text.length :=
  Nat.sub_le _ _

theorem run_eq (a : Automaton) (text : List Char) :
    a.run text =
      (a.after a.initial (text.take (a.consumed text)), text.drop (a.consumed text)) := by
  obtain ⟨u, v, rfl, hrun, hconsumed, -, -⟩ := exists_run a text
  rw [hrun, hconsumed, List.take_left, List.drop_left]

/-- A part of a text that leads somewhere does so itself. -/
theorem Survives.of_append (ha : a.Valid) {u v : List Char} (h : a.Survives (u ++ v)) :
    a.Survives u := by
  rw [survives_iff ha] at h ⊢
  intro hnil
  rw [after_append, hnil, after_of_nil] at h
  exact h rfl

/-- A run takes the part of a text of the given length or more exactly if that part leads
somewhere. -/
theorem le_consumed_iff (ha : a.Valid) {text : List Char} {n : Nat} (hn : n ≤ text.length) :
    n ≤ a.consumed text ↔ a.Survives (text.take n) := by
  obtain ⟨u, v, rfl, -, hconsumed, hlive, hstop⟩ := exists_run a text
  rw [hconsumed]
  constructor
  · intro hle
    have hu : a.Survives u := by
      by_cases hnil : u = []
      · rw [hnil]
        exact survives_nil a
      · exact (survives_iff ha).mpr (hlive hnil)
    rw [List.take_append_of_le_length hle]
    rw [← List.take_append_drop n u] at hu
    exact hu.of_append ha
  · intro h
    by_contra hlt
    rw [List.length_append] at hn
    cases v with
    | nil =>
      rw [List.length_nil] at hn
      omega
    | cons c v =>
      -- one character more would have to lead somewhere
      have hsplit : (u ++ c :: v).take n = (u ++ [c]) ++ v.take (n - u.length - 1) := by
        have hpos : n - u.length = (n - u.length - 1) + 1 := by omega
        rw [List.take_append, List.take_of_length_le (by omega), hpos, List.take_succ_cons,
          List.append_assoc]
        rfl
      rw [hsplit] at h
      exact (survives_iff ha).mp (h.of_append ha) (hstop c v rfl)

/-- What is reported at a cursor is read off the states after the part of the text that the run
takes. -/
theorem lex_eq (a : Automaton) (cur : Cursor) :
    a.lex cur = (a.symbolOf (a.after a.initial
      (cur.position.rest.take (a.consumed cur.position.rest))),
        cur.consume (a.consumed cur.position.rest)) := by
  have hle := a.consumed_le cur.position.rest
  rw [lex]
  simp only [run_eq]
  rw [List.length_drop, Nat.sub_sub_self hle]

/-- The symbol of the states after a text is the least one with which the text is yielded. -/
theorem symbolOf_after_eq_some_iff (ha : a.Valid) {w : List Char} {s : Int} :
    a.symbolOf (a.after a.initial w) = some s ↔
      a.Yields a.start w (some s) ∧ ∀ t, a.Yields a.start w (some t) → s ≤ t := by
  rw [symbolOf_eq_some_iff, yields_start_iff ha]
  refine and_congr_right fun _ => ?_
  constructor
  · intro h t ht
    obtain ⟨j, hj, hacc, hsymbol⟩ := (yields_start_iff ha).mp ht
    exact h j hj hacc t hsymbol
  · intro h j hj hacc t hsymbol
    exact h t ((yields_start_iff ha).mpr ⟨j, hj, hacc, hsymbol⟩)

/-- The states after a text have no symbol exactly if the text is yielded with no symbol at all. -/
theorem symbolOf_after_eq_none_iff (ha : a.Valid) {w : List Char} :
    a.symbolOf (a.after a.initial w) = none ↔ ∀ t, ¬ a.Yields a.start w (some t) := by
  unfold symbolOf
  rw [List.min?_eq_none_iff, List.eq_nil_iff_forall_not_mem]
  simp only [List.mem_filterMap, List.mem_filter, yields_start_iff ha, and_assoc]

/-! ## Running alike -/

theorem consumed_eq_of_survives_iff (ha : a.Valid) (hb : b.Valid)
    (h : ∀ w, b.Survives w ↔ a.Survives w) (text : List Char) :
    b.consumed text = a.consumed text := by
  apply Nat.le_antisymm
  · have hle := b.consumed_le text
    rw [le_consumed_iff ha hle, ← h, ← le_consumed_iff hb hle]
  · have hle := a.consumed_le text
    rw [le_consumed_iff hb hle, h, ← le_consumed_iff ha hle]

theorem accepts_eq_of_yields_iff (ha : a.Valid) (hb : b.Valid)
    (h : ∀ w s, b.Yields b.start w s ↔ a.Yields a.start w s) (text : List Char) :
    b.accepts text = a.accepts text := by
  rw [Bool.eq_iff_iff, accepts_iff_yields hb, accepts_iff_yields ha]
  exact exists_congr fun s => h text s

theorem lex_eq_of_yields_iff (ha : a.Valid) (hb : b.Valid)
    (hsurvives : ∀ w, b.Survives w ↔ a.Survives w)
    (hyields : ∀ w s, b.Yields b.start w s ↔ a.Yields a.start w s) (cur : Cursor) :
    b.lex cur = a.lex cur := by
  have hsymbol : ∀ w, b.symbolOf (b.after b.initial w) = a.symbolOf (a.after a.initial w) := by
    intro w
    ext s
    rw [symbolOf_after_eq_some_iff ha, symbolOf_after_eq_some_iff hb]
    simp only [hyields]
  rw [lex_eq, lex_eq, consumed_eq_of_survives_iff ha hb hsurvives, hsymbol]

end FiberLex.Automaton
