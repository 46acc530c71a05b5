import FiberLex.Proofs.Automaton.Semantics

/-!
# Bisimulations

A relation between the states of two automata under which each can do what the other does: accept
with the same symbol, take an edge on the same code point, follow an epsilon. Runs keep all the
states they may be in, so what is carried along a text is that every state on one side has a related
state on the other, and back. Related starts then give the same runs: the same texts are accepted,
and a run at a cursor ends in the same place with the same symbol.
-/

namespace FiberLex.Automaton

variable {a b : Automaton} {r : Nat → Nat → Prop}

/-! ## One direction -/

/-- What a state of `a` does, every related state of `b` does as well, and leads to related
states. -/
structure Simulates (r : Nat → Nat → Prop) (a b : Automaton) : Prop where
  accepting : ∀ {i j}, r i j → (a.state i).accepting = true →
    (b.state j).accepting = true ∧ (b.state j).symbol = (a.state i).symbol
  edge : ∀ {i j}, r i j → ∀ {cp k}, Leads (a.state i).edges cp k →
    ∃ l, Leads (b.state j).edges cp l ∧ r k l
  epsilon : ∀ {i j}, r i j → ∀ {k}, k ∈ (a.state i).epsilons →
    ∃ l ∈ (b.state j).epsilons, r k l

/-- Every state of the first list has a related one on the second. -/
def Matched (r : Nat → Nat → Prop) (xs ys : List Nat) : Prop := ∀ i ∈ xs, ∃ j ∈ ys, r i j

namespace Simulates

variable {xs ys : List Nat}

theorem targets (h : Simulates r a b) (hxs : Matched r xs ys) (cp : Nat) :
    Matched r (a.targets xs cp) (b.targets ys cp) := by
  intro k hk
  obtain ⟨i, hi, hleads⟩ := mem_targets_iff.mp hk
  obtain ⟨j, hj, hr⟩ := hxs i hi
  obtain ⟨l, hleads', hr'⟩ := h.edge hr hleads
  exact ⟨l, mem_targets_iff.mpr ⟨j, hj, hleads'⟩, hr'⟩

theorem epsilonClosure (h : Simulates r a b) (hb : b.Valid) (hys : ∀ j ∈ ys, j < b.states.size)
    (hxs : Matched r xs ys) : Matched r (a.epsilonClosure xs) (b.epsilonClosure ys) := by
  intro k hk
  obtain ⟨-, i, hi, hpath⟩ := mem_epsilonClosure_iff.mp hk
  induction hpath with
  | refl =>
    obtain ⟨j, hj, hr⟩ := hxs i hi
    exact ⟨j, mem_epsilonClosure_of_mem hj (hys j hj), hr⟩
  | @tail k l hpath hstep ih =>
    -- a number that is no state has no epsilons
    have hlt : k < a.states.size := by
      by_contra hge
      rw [state_of_size_le (by omega)] at hstep
      cases hstep
    obtain ⟨j, hj, hr⟩ := ih (mem_epsilonClosure_iff.mpr ⟨hlt, i, hi, hpath⟩)
    obtain ⟨m, hm, hr'⟩ := h.epsilon hr hstep
    exact ⟨m, closed_epsilonClosure hb ys j hj m hm, hr'⟩

theorem move (h : Simulates r a b) (hb : b.Valid) (hxs : Matched r xs ys) (cp : Nat) :
    Matched r (a.move xs cp) (b.move ys cp) := by
  refine h.epsilonClosure hb (fun j hj => ?_) (h.targets hxs cp)
  obtain ⟨i, -, e, he, -, rfl⟩ := mem_targets_iff.mp hj
  exact hb.edge_lt he

end Simulates

/-- A list that is matched by an empty one is empty. -/
theorem Matched.eq_nil {xs : List Nat} (h : Matched r xs []) : xs = [] := by
  rw [List.eq_nil_iff_forall_not_mem]
  intro i hi
  obtain ⟨j, hj, -⟩ := h i hi
  cases hj

/-! ## Both directions -/

/-- Related states do the same and lead to related states, and the starts are related. -/
structure Bisimulation (r : Nat → Nat → Prop) (a b : Automaton) : Prop where
  forth : Simulates r a b
  back : Simulates (flip r) b a
  start : r a.start b.start

namespace Bisimulation

variable {xs ys : List Nat}

/-- Runs from lists that match each other stop at the same place, in lists that match each other. -/
theorem runFrom (h : Bisimulation r a b) (ha : a.Valid) (hb : b.Valid) (hxs : Matched r xs ys)
    (hys : Matched (flip r) ys xs) (text : List Char) :
    (b.runFrom ys text).2 = (a.runFrom xs text).2 ∧
      Matched r (a.runFrom xs text).1 (b.runFrom ys text).1 ∧
      Matched (flip r) (b.runFrom ys text).1 (a.runFrom xs text).1 := by
  induction text generalizing xs ys with
  | nil => exact ⟨rfl, hxs, hys⟩
  | cons c text ih =>
    have hforth := h.forth.move hb hxs c.toNat
    have hback := h.back.move ha hys c.toNat
    have hempty : (b.move ys c.toNat).isEmpty = (a.move xs c.toNat).isEmpty := by
      rw [Bool.eq_iff_iff, List.isEmpty_iff, List.isEmpty_iff]
      constructor
      · intro hnil
        rw [hnil] at hforth
        exact hforth.eq_nil
      · intro hnil
        rw [hnil] at hback
        exact hback.eq_nil
    simp only [Automaton.runFrom, hempty]
    split
    · exact ⟨rfl, hxs, hys⟩
    · exact ih hforth hback

theorem symbolOf_eq (h : Bisimulation r a b) (hxs : Matched r xs ys)
    (hys : Matched (flip r) ys xs) : b.symbolOf ys = a.symbolOf xs := by
  ext symbol
  rw [symbolOf_eq_some_iff, symbolOf_eq_some_iff]
  constructor
  · rintro ⟨⟨j, hj, hacc, hsymbol⟩, hleast⟩
    obtain ⟨i, hi, hr⟩ := hys j hj
    obtain ⟨hacc', hsymbol'⟩ := h.back.accepting hr hacc
    refine ⟨⟨i, hi, hacc', hsymbol'.trans hsymbol⟩, fun k hk hk' t ht => ?_⟩
    obtain ⟨l, hl, hr'⟩ := hxs k hk
    obtain ⟨hl', hsame⟩ := h.forth.accepting hr' hk'
    exact hleast l hl hl' t (hsame.trans ht)
  · rintro ⟨⟨i, hi, hacc, hsymbol⟩, hleast⟩
    obtain ⟨j, hj, hr⟩ := hxs i hi
    obtain ⟨hacc', hsymbol'⟩ := h.forth.accepting hr hacc
    refine ⟨⟨j, hj, hacc', hsymbol'.trans hsymbol⟩, fun l hl hl' t ht => ?_⟩
    obtain ⟨k, hk, hr'⟩ := hys l hl
    obtain ⟨hk', hsame⟩ := h.back.accepting hr' hl'
    exact hleast k hk hk' t (hsame.trans ht)

theorem anyAccepting_eq (h : Bisimulation r a b) (hxs : Matched r xs ys)
    (hys : Matched (flip r) ys xs) : b.anyAccepting ys = a.anyAccepting xs := by
  rw [Bool.eq_iff_iff, anyAccepting, anyAccepting, List.any_eq_true, List.any_eq_true]
  constructor
  · rintro ⟨j, hj, hacc⟩
    obtain ⟨i, hi, hr⟩ := hys j hj
    exact ⟨i, hi, (h.back.accepting hr hacc).1⟩
  · rintro ⟨i, hi, hacc⟩
    obtain ⟨j, hj, hr⟩ := hxs i hi
    exact ⟨j, hj, (h.forth.accepting hr hacc).1⟩

/-- Runs from the starts stop at the same place, in lists that match each other. -/
theorem run (h : Bisimulation r a b) (ha : a.Valid) (hb : b.Valid) (text : List Char) :
    (b.run text).2 = (a.run text).2 ∧ Matched r (a.run text).1 (b.run text).1 ∧
      Matched (flip r) (b.run text).1 (a.run text).1 := by
  have hforth : Matched r a.initial b.initial := by
    refine h.forth.epsilonClosure hb (by simpa using hb.start_lt) ?_
    simpa [Matched] using h.start
  have hback : Matched (flip r) b.initial a.initial := by
    refine h.back.epsilonClosure ha (by simpa using ha.start_lt) ?_
    simpa [Matched, flip] using h.start
  exact h.runFrom ha hb hforth hback text

theorem accepts_eq (h : Bisimulation r a b) (ha : a.Valid) (hb : b.Valid) (text : List Char) :
    b.accepts text = a.accepts text := by
  obtain ⟨hrest, hforth, hback⟩ := h.run ha hb text
  simp only [accepts, hrest, h.anyAccepting_eq hforth hback]

theorem lex_eq (h : Bisimulation r a b) (ha : a.Valid) (hb : b.Valid) (cur : Cursor) :
    b.lex cur = a.lex cur := by
  obtain ⟨hrest, hforth, hback⟩ := h.run ha hb cur.position.rest
  simp only [lex, hrest, h.symbolOf_eq hforth hback]

end Bisimulation

end FiberLex.Automaton
