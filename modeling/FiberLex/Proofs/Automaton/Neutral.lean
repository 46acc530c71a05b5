import FiberLex.Proofs.Automaton.Compaction
import FiberLex.Proofs.Automaton.Operations
import FiberLex.Proofs.Automaton.Runs

/-!
# Bypassing neutral states

A neutral state only forwards. A hop follows its one epsilon; other states stay where they are. As
many hops as there are states either come to a state that is not neutral or have gone in a circle,
so the counter with which chains are followed refuses exactly the states that hops never lead out of
(`chainEnd?_eq`, `trapped_iff`). When no reachable state is trapped, everything is led to where its
hops end. A text then leads to the ends of the states to which it led before (`reachesBy_bypass`,
`exists_reachesBy_of_bypass`), and runs do not notice.
-/

namespace FiberLex

theorem State.isNeutral_iff {s : State} :
    s.isNeutral = true ↔ s.accepting = false ∧ s.edges = [] ∧ ∃ j, s.epsilons = [j] := by
  simp [State.isNeutral, List.length_eq_one_iff, and_assoc]

namespace Automaton

variable {a b : Automaton} {i j : Nat}

/-! ## Chains -/

/-- The state to which a neutral state forwards; any other state stays. -/
def hop (a : Automaton) (i : Nat) : Nat :=
  if (a.state i).isNeutral then (a.state i).epsilons.headD i else i

/-- Hops from the state never leave neutral states. -/
def Trapped (a : Automaton) (i : Nat) : Prop := ∀ n, (a.state (a.hop^[n] i)).isNeutral = true

/-- Where hops from the state have led after as many as there are states. -/
def landing (a : Automaton) (i : Nat) : Nat := a.hop^[a.states.size] i

theorem hop_of_epsilons (hi : (a.state i).isNeutral = true) (hj : j ∈ (a.state i).epsilons) :
    a.hop i = j := by
  obtain ⟨-, -, k, hk⟩ := State.isNeutral_iff.mp hi
  rw [hk, List.mem_singleton] at hj
  rw [hop, if_pos hi, hk, hj]
  rfl

theorem hop_of_not_neutral (hi : (a.state i).isNeutral = false) : a.hop i = i := by
  rw [hop, hi]
  rfl

theorem iterate_hop_of_not_neutral (hi : (a.state i).isNeutral = false) (n : Nat) :
    a.hop^[n] i = i :=
  Function.iterate_fixed (hop_of_not_neutral hi) n

theorem lt_size_of_isNeutral (hi : (a.state i).isNeutral = true) : i < a.states.size := by
  by_contra hge
  rw [state_of_size_le (Nat.le_of_not_lt hge)] at hi
  cases hi

theorem epsilonReaches_hop (a : Automaton) (i : Nat) : a.EpsilonReaches i (a.hop i) := by
  by_cases hi : (a.state i).isNeutral = true
  · obtain ⟨-, -, j, hj⟩ := State.isNeutral_iff.mp hi
    have hmem : j ∈ (a.state i).epsilons := by simp [hj]
    rw [hop_of_epsilons hi hmem]
    exact .single hmem
  · rw [hop_of_not_neutral (Bool.eq_false_iff.mpr hi)]
    exact .refl

theorem epsilonReaches_iterate_hop (a : Automaton) (n i : Nat) :
    a.EpsilonReaches i (a.hop^[n] i) := by
  induction n generalizing i with
  | zero => exact .refl
  | succ n ih => exact (a.epsilonReaches_hop i).trans (ih (a.hop i))

/-- Following a chain with a counter is to hop as often as the counter says, and to look whether the
state to which that leads is neutral still. -/
theorem chainEnd?_eq (a : Automaton) (n i : Nat) :
    a.chainEnd? n i =
      if (a.state (a.hop^[n] i)).isNeutral then none else some (a.hop^[n] i) := by
  induction n generalizing i with
  | zero =>
    unfold chainEnd?
    rfl
  | succ n ih =>
    unfold chainEnd?
    by_cases hi : (a.state i).isNeutral = true
    · obtain ⟨-, -, j, hj⟩ := State.isNeutral_iff.mp hi
      have hhop : a.hop i = j := hop_of_epsilons hi (by simp [hj])
      simp only [hi, hj, if_true]
      rw [ih, Function.iterate_succ_apply, hhop]
    · rw [Bool.not_eq_true] at hi
      rw [iterate_hop_of_not_neutral hi]
      simp only [hi, Bool.false_eq_true, if_false]

section First

variable {m : Nat} (hfirst : (a.state (a.hop^[m] i)).isNeutral = false)
  (hbefore : ∀ k < m, (a.state (a.hop^[k] i)).isNeutral = true)

include hfirst hbefore

/-- Until hops come out of neutral states they do not visit a state twice: a circle would have been
left sooner by going around it once less. -/
theorem iterate_hop_ne {p q : Nat} (hpq : p < q) (hq : q ≤ m) : a.hop^[p] i ≠ a.hop^[q] i := by
  intro hsame
  have hsplit : m = (m - q) + q := by omega
  have hneutral := hbefore ((m - q) + p) (by omega)
  rw [Function.iterate_add_apply, hsame, ← Function.iterate_add_apply, ← hsplit, hfirst]
    at hneutral
  cases hneutral

/-- Hops that come out of neutral states do so before they have visited more states than there
are. -/
theorem le_size_of_first : m ≤ a.states.size := by
  by_contra hlt
  have hmaps : ∀ k ∈ Finset.range (a.states.size + 1),
      a.hop^[k] i ∈ Finset.range a.states.size := by
    intro k hk
    rw [Finset.mem_range] at hk ⊢
    exact lt_size_of_isNeutral (hbefore k (by omega))
  obtain ⟨p, hp, q, hq, hne, hsame⟩ :=
    Finset.exists_ne_map_eq_of_card_lt_of_maps_to (by simp) hmaps
  rw [Finset.mem_range] at hp hq
  rcases Nat.lt_or_gt_of_ne hne with hpq | hqp
  · exact iterate_hop_ne hfirst hbefore hpq (by omega) hsame
  · exact iterate_hop_ne hfirst hbefore hqp (by omega) hsame.symm

end First

theorem not_neutral_landing {n : Nat} (hn : (a.state (a.hop^[n] i)).isNeutral = false) :
    (a.state (a.landing i)).isNeutral = false := by
  classical
  have hex : ∃ n, (a.state (a.hop^[n] i)).isNeutral = false := ⟨n, hn⟩
  have hfirst := Nat.find_spec hex
  have hbefore : ∀ k < Nat.find hex, (a.state (a.hop^[k] i)).isNeutral = true := by
    intro k hk
    exact Bool.not_eq_false _ ▸ Nat.find_min hex hk
  have hle := le_size_of_first hfirst hbefore
  have hsplit : a.states.size = (a.states.size - Nat.find hex) + Nat.find hex := by omega
  rw [landing, hsplit, Function.iterate_add_apply, iterate_hop_of_not_neutral hfirst]
  exact hfirst

theorem trapped_iff : a.Trapped i ↔ (a.state (a.landing i)).isNeutral = true := by
  constructor
  · intro h
    exact h _
  · intro h n
    by_contra hn
    rw [not_neutral_landing (Bool.eq_false_iff.mpr hn)] at h
    cases h

theorem Trapped.isNeutral (h : a.Trapped i) : (a.state i).isNeutral = true := h 0

/-! ## Where everything is led -/

/-- The neutral states that can be reached. -/
def neutrals (a : Automaton) : List Nat := a.closure.filter fun i => (a.state i).isNeutral

/-- The state to which a state is led when neutral states are bypassed. -/
def bypass (a : Automaton) (i : Nat) : Nat := if i ∈ a.neutrals then a.landing i else i

theorem landing_of_not_neutral (hi : (a.state i).isNeutral = false) : a.landing i = i :=
  iterate_hop_of_not_neutral hi _

theorem landing_hop (hi : ¬ a.Trapped i) : a.landing (a.hop i) = a.landing i := by
  have hstay : a.hop (a.landing i) = a.landing i := by
    refine hop_of_not_neutral ?_
    rwa [trapped_iff, Bool.not_eq_true] at hi
  rw [landing, ← Function.iterate_succ_apply, Function.iterate_succ_apply']
  exact hstay

theorem mem_neutrals_iff (ha : a.Valid) :
    i ∈ a.neutrals ↔ a.Reaches a.start i ∧ (a.state i).isNeutral = true := by
  rw [neutrals, List.mem_filter, mem_closure_iff ha]

/-- A state that can be reached is led to where its hops end. -/
theorem bypass_eq_landing (ha : a.Valid) (hi : a.Reaches a.start i) : a.bypass i = a.landing i := by
  rw [bypass]
  split
  · rfl
  · rename_i hnot
    rw [mem_neutrals_iff ha] at hnot
    refine (landing_of_not_neutral (Bool.eq_false_iff.mpr fun hneutral => ?_)).symm
    exact hnot ⟨hi, hneutral⟩

theorem Reaches.landing (hi : a.Reaches a.start i) : a.Reaches a.start (a.landing i) :=
  hi.of_epsilonReaches (a.epsilonReaches_iterate_hop _ i)

theorem bypass_lt (ha : a.Valid) (hi : i < a.states.size) : a.bypass i < a.states.size := by
  rw [bypass]
  split
  · rename_i hmem
    exact ((mem_neutrals_iff ha).mp hmem).1.landing.lt_size ha ha.start_lt
  · exact hi

/-! ## What trimming does -/

/-- The ends of the chains are where the neutral states land, unless one lands on a neutral
state. -/
theorem neutralEnds_eq (a : Automaton) :
    a.neutralEnds = a.neutrals.mapM fun i =>
      if (a.state (a.landing i)).isNeutral then .error .neutralCycle else .ok (i, a.landing i) := by
  unfold neutralEnds neutrals
  congr 1
  funext i
  rw [chainEnd?_eq, landing]
  cases (a.state (a.hop^[a.states.size] i)).isNeutral with
  | false => rfl
  | true => rfl

/-- Trimming fails exactly if a reachable state is trapped, and always in the same way. -/
theorem trimNeutrals_eq_error_iff (ha : a.Valid) {e : BuildError} :
    a.trimNeutrals = .error e ↔
      e = .neutralCycle ∧ ∃ i, a.Reaches a.start i ∧ a.Trapped i := by
  have hfail : a.trimNeutrals = .error e ↔ a.neutralEnds = .error e := by
    rw [trimNeutrals_eq, Scan.bind_eq_error]
    constructor
    · rintro (h | ⟨ends, -, h⟩)
      · exact h
      · split at h <;> cases h
    · exact Or.inl
  have hfails : ∀ {e'}, a.neutralEnds = .error e' →
      e' = .neutralCycle ∧ ∃ i, a.Reaches a.start i ∧ a.Trapped i := by
    intro e' h
    rw [neutralEnds_eq] at h
    obtain ⟨i, hi, hfail⟩ := exists_of_mapM_eq_error h
    split at hfail
    · rename_i hneutral
      cases hfail
      exact ⟨rfl, i, ((mem_neutrals_iff ha).mp hi).1, trapped_iff.mpr hneutral⟩
    · cases hfail
  rw [hfail]
  constructor
  · exact hfails
  · rintro ⟨rfl, i, hi, htrapped⟩
    cases hends : a.neutralEnds with
    | error e' => rw [(hfails hends).1]
    | ok ends =>
      -- the chain of the trapped state has no end
      rw [neutralEnds_eq] at hends
      have hpairs := mapM_eq_ok_iff.mp hends
      have hmem := (mem_neutrals_iff ha).mpr ⟨hi, htrapped.isNeutral⟩
      obtain ⟨k, hk, rfl⟩ := List.mem_iff_getElem.mp hmem
      have hpair := hpairs.get hk (hpairs.length_eq ▸ hk)
      simp only [List.get_eq_getElem, trapped_iff.mp htrapped, if_true] at hpair
      cases hpair

/-- Where trimming succeeds, no reachable state is trapped. -/
theorem not_trapped_of_trimNeutrals (ha : a.Valid) (hok : a.trimNeutrals = .ok b)
    (hi : a.Reaches a.start i) : ¬ a.Trapped i := by
  intro htrapped
  rw [(trimNeutrals_eq_error_iff ha).mpr ⟨rfl, i, hi, htrapped⟩] at hok
  cases hok

/-- If no reachable state is trapped, everything is led past the neutral states. -/
theorem trimNeutrals_eq_ok (ha : a.Valid) (h : ∀ i, a.Reaches a.start i → ¬ a.Trapped i) :
    a.trimNeutrals = .ok (if a.neutrals = [] then a else (a.redirect a.bypass).compact) := by
  have hends : a.neutralEnds = .ok (a.neutrals.map fun i => (i, a.landing i)) := by
    rw [neutralEnds_eq]
    refine mapM_eq_ok_map fun i hi => ?_
    have htrapped := h i ((mem_neutrals_iff ha).mp hi).1
    rw [trapped_iff] at htrapped
    rw [if_neg htrapped]
  have hlookup : ∀ (l : List Nat) (i : Nat),
      ((l.map fun j => (j, a.landing j)).lookup i).getD i = if i ∈ l then a.landing i else i := by
    intro l i
    induction l with
    | nil => rfl
    | cons j l ih =>
      rw [List.map_cons, List.lookup_cons]
      by_cases hij : i = j
      · simp [hij]
      · have hbeq : (i == j) = false := beq_eq_false_iff_ne.mpr hij
        simp only [hbeq, ih, List.mem_cons, hij, false_or]
  rw [trimNeutrals_eq, hends]
  by_cases hnone : a.neutrals = []
  · rw [if_pos hnone, hnone]
    rfl
  · rw [if_neg hnone]
    have hfun : (fun i => ((a.neutrals.map fun i => (i, a.landing i)).lookup i).getD i) =
        a.bypass := funext (hlookup a.neutrals)
    cases hlist : a.neutrals with
    | nil => exact absurd hlist hnone
    | cons i rest =>
      rw [hlist] at hfun
      simp only [bind, Except.bind, List.map_cons] at hfun ⊢
      rw [hfun]

/-! ## Runs do not notice -/

section Runs

variable (ha : a.Valid) (hfree : ∀ i, a.Reaches a.start i → ¬ a.Trapped i)

include ha

theorem epsilonReaches_bypass (hi : a.Reaches a.start i) : a.EpsilonReaches i (a.bypass i) := by
  rw [bypass_eq_landing ha hi]
  exact a.epsilonReaches_iterate_hop _ i

theorem bypass_of_not_neutral (hi : a.Reaches a.start i)
    (hneutral : (a.state i).isNeutral = false) : a.bypass i = i := by
  rw [bypass_eq_landing ha hi, landing_of_not_neutral hneutral]

/-- A state with an edge is not neutral and stays where it is. -/
theorem bypass_of_mem_edges (hi : a.Reaches a.start i) {e : Edge} (he : e ∈ (a.state i).edges) :
    a.bypass i = i := by
  apply bypass_of_not_neutral ha hi
  by_contra hneutral
  obtain ⟨-, hedges, -⟩ := State.isNeutral_iff.mp (Bool.not_eq_false _ ▸ hneutral)
  rw [hedges] at he
  cases he

theorem bypass_of_accepting (hi : a.Reaches a.start i) (hacc : (a.state i).accepting = true) :
    a.bypass i = i := by
  apply bypass_of_not_neutral ha hi
  by_contra hneutral
  obtain ⟨hrejecting, -⟩ := State.isNeutral_iff.mp (Bool.not_eq_false _ ▸ hneutral)
  rw [hrejecting] at hacc
  cases hacc

include hfree

/-- A neutral state is led to where the state it forwards to is led. -/
theorem bypass_of_neutral (hi : a.Reaches a.start i) (hneutral : (a.state i).isNeutral = true)
    (hj : j ∈ (a.state i).epsilons) : a.bypass i = a.bypass j := by
  rw [bypass_eq_landing ha hi, bypass_eq_landing ha (hi.epsilon hj), ← landing_hop (hfree i hi),
    hop_of_epsilons hneutral hj]

theorem not_neutral_bypass (hi : a.Reaches a.start i) :
    (a.state (a.bypass i)).isNeutral = false := by
  have hi' := hfree i hi
  rw [trapped_iff, Bool.not_eq_true] at hi'
  rw [bypass_eq_landing ha hi]
  exact hi'

/-- A text leads to the ends of the chains of the states to which it led before. -/
theorem reachesBy_bypass {w : List Char} (hi : a.Reaches a.start i) (h : a.ReachesBy i w j) :
    (a.redirect a.bypass).ReachesBy (a.bypass i) w (a.bypass j) := by
  induction h with
  | here => exact .here
  | @epsilon i k j w hk _ ih =>
    have hrest := ih (hi.epsilon hk)
    by_cases hneutral : (a.state i).isNeutral = true
    · rwa [bypass_of_neutral ha hfree hi hneutral hk]
    · rw [bypass_of_not_neutral ha hi (Bool.eq_false_iff.mpr hneutral)]
      refine .epsilon ?_ hrest
      rw [state_redirect]
      exact List.mem_eraseDups.mpr (List.mem_map_of_mem hk)
  | @edge i j e c w he hc _ ih =>
    have hrest := ih (hi.edge he)
    rw [bypass_of_mem_edges ha hi he]
    have hmem : (⟨e.range, a.bypass e.target⟩ : Edge) ∈ ((a.redirect a.bypass).state i).edges := by
      rw [state_redirect]
      exact List.mem_map_of_mem he
    exact .edge hmem hc hrest

omit hfree in
/-- Where a text leads when neutral states are bypassed, there is the end of a chain to which it led
before. -/
theorem exists_reachesBy_of_bypass {w : List Char} {x : Nat} (hi : a.Reaches a.start i)
    (h : (a.redirect a.bypass).ReachesBy (a.bypass i) w x) :
    ∃ j, a.ReachesBy i w j ∧ a.bypass j = x := by
  generalize hy : a.bypass i = y at h
  induction h generalizing i with
  | here => exact ⟨i, .here, hy⟩
  | epsilon hk _ ih =>
    subst hy
    have hreaches := epsilonReaches_bypass ha hi
    rw [state_redirect] at hk
    obtain ⟨l, hl, rfl⟩ := List.mem_map.mp (List.mem_eraseDups.mp hk)
    obtain ⟨j, hj, hend⟩ := ih ((hi.of_epsilonReaches hreaches).epsilon hl) rfl
    exact ⟨j, .of_epsilonReaches hreaches (.epsilon hl hj), hend⟩
  | edge he hc _ ih =>
    subst hy
    have hreaches := epsilonReaches_bypass ha hi
    rw [state_redirect] at he
    obtain ⟨d, hd, rfl⟩ := List.mem_map.mp he
    obtain ⟨j, hj, hend⟩ := ih ((hi.of_epsilonReaches hreaches).edge hd) rfl
    exact ⟨j, .of_epsilonReaches hreaches (.edge hd hc hj), hend⟩

theorem survives_bypass_iff {w : List Char} :
    (a.redirect a.bypass).Survives w ↔ a.Survives w := by
  constructor
  · rintro ⟨x, hx⟩
    obtain ⟨j, hj, -⟩ := exists_reachesBy_of_bypass ha .refl hx
    exact ⟨j, hj⟩
  · rintro ⟨j, hj⟩
    exact ⟨a.bypass j, reachesBy_bypass ha hfree .refl hj⟩

theorem yields_bypass_iff {w : List Char} {s : Option Int} :
    (a.redirect a.bypass).Yields (a.redirect a.bypass).start w s ↔ a.Yields a.start w s := by
  rw [yields_iff_reachesBy, yields_iff_reachesBy]
  constructor
  · rintro ⟨x, hx, hacc, rfl⟩
    obtain ⟨j, hj, rfl⟩ := exists_reachesBy_of_bypass ha .refl hx
    have hreaches := epsilonReaches_bypass ha hj.reaches
    rw [state_redirect] at hacc ⊢
    exact ⟨a.bypass j, hj.epsilonReaches hreaches, hacc, rfl⟩
  · rintro ⟨j, hj, hacc, rfl⟩
    refine ⟨j, ?_, ?_, ?_⟩
    · have hleads := reachesBy_bypass ha hfree .refl hj
      rwa [bypass_of_accepting ha hj.reaches hacc] at hleads
    · rw [state_redirect]
      exact hacc
    · rw [state_redirect]

omit hfree in
theorem valid_bypass : (a.redirect a.bypass).Valid := valid_redirect ha fun _ => bypass_lt ha

/-- Bypassing neutral states and dropping what cannot be reached changes no run. -/
theorem accepts_and_lex_bypass :
    (∀ text, (a.redirect a.bypass).compact.accepts text = a.accepts text) ∧
      ∀ cur, (a.redirect a.bypass).compact.lex cur = a.lex cur := by
  have hvalid := valid_bypass ha
  have hbisim := bisimulation_compact hvalid
  constructor
  · intro text
    rw [hbisim.accepts_eq hvalid hvalid.compact]
    exact accepts_eq_of_yields_iff ha hvalid (fun _ _ => yields_bypass_iff ha hfree) text
  · intro cur
    rw [hbisim.lex_eq hvalid hvalid.compact]
    exact lex_eq_of_yields_iff ha hvalid (fun _ => survives_bypass_iff ha hfree)
      (fun _ _ => yields_bypass_iff ha hfree) cur

end Runs

/-- Trimming neutral states fails, with the error for a circle of them, exactly if a reachable state
is neutral and its epsilons never lead out of neutral states; the automata are then as they were.
Otherwise it succeeds, and what is accepted and how runs at a cursor end stays the same. -/
theorem trimNeutrals_sound (ha : a.Valid) :
    (∀ e, a.trimNeutrals = .error e ↔
      e = .neutralCycle ∧ ∃ i, a.Reaches a.start i ∧ a.Trapped i) ∧
    (∀ made k e, pick made k = a → a.trimNeutrals = .error e →
      perform made (.trimNeutrals k) = (made, some e)) ∧
    ∀ b, a.trimNeutrals = .ok b →
      (∀ text, b.accepts text = a.accepts text) ∧ ∀ cur, b.lex cur = a.lex cur := by
  refine ⟨fun e => trimNeutrals_eq_error_iff ha, ?_, ?_⟩
  · intro made k e hpick herror
    have hrun : bypassNeutrals.run (pick made k) = .error e (pick made k) :=
      atomic_bypassNeutrals.run_eq_error (hpick ▸ herror)
    simp only [perform, Op.act, hrun, set_pick]
  · intro b hok
    have hfree : ∀ i, a.Reaches a.start i → ¬ a.Trapped i := fun _ hi =>
      not_trapped_of_trimNeutrals ha hok hi
    rw [trimNeutrals_eq_ok ha hfree] at hok
    have hb := Except.ok.inj hok
    split at hb
    · subst hb
      exact ⟨fun _ => rfl, fun _ => rfl⟩
    · subst hb
      exact accepts_and_lex_bypass ha hfree

/-- Two neutral states in a circle, with a way in. -/
def carousel : Automaton where
  states := #[{ edges := [⟨⟨97, 97⟩, 1⟩] }, { epsilons := [2] }, { epsilons := [1] }]
  start := 0

theorem trimNeutrals_sound_carousel :
    carousel.Valid ∧ carousel.trimNeutrals = .error .neutralCycle ∧
      perform [carousel] (.trimNeutrals 0) = ([carousel], some .neutralCycle) := by
  have hvalid : carousel.Valid := by decide
  obtain ⟨herror, hunchanged, -⟩ := trimNeutrals_sound hvalid
  have hreach : carousel.Reaches carousel.start 1 := .single (by decide)
  have htrapped : carousel.Trapped 1 := trapped_iff.mpr (by decide)
  have hfails := (herror .neutralCycle).mpr ⟨rfl, 1, hreach, htrapped⟩
  exact ⟨hvalid, hfails, hunchanged [carousel] 0 .neutralCycle rfl hfails⟩

end Automaton

end FiberLex
