import FiberLex.Proofs.Automaton.WellFormed

/-!
# Sequences of operations

Automata are made from nothing by operations, one after the other, that either make one more
automaton or change one of those there are in place. `Op` lists the operations and `perform` carries
one out on the automata made so far, which are known by their places. A change that fails could
leave an automaton half changed; none does, since each looks at all it needs before it changes
anything (`perform_of_error`). What an operation makes or leaves of well-formed automata is
well-formed (`wellFormed_perform`), so all automata of a sequence are (`wellFormed_performAll`), and
in none of them does a number come up that is not that of a state.
-/

namespace FiberLex.Automaton

/-- An operation on the automata made so far. The first of them make one more, the last change the
automaton at `place`. -/
inductive Op where
  | new
  | empty (symbol : Option Int)
  | ofCodePoints (cps : List Nat) (symbol : Option Int)
  | ofSet (set : CodeSet) (symbol : Option Int)
  | concat (parts : List Nat) (symbol : Option Int)
  | choice (parts : List Nat) (symbol : Option Int)
  | optional (part : Nat) (symbol : Option Int)
  | repeated (part min : Nat) (max : Option Nat) (symbol : Option Int)
  | ignoringCase (part : Nat) (symbol : Option Int)
  | merged (parts : List Nat)
  | determinize (part : Nat)
  | subgraph (part root : Nat)
  | addState (place : Nat) (accepting : Bool) (symbol : Option Int)
  | addEdge (place source : Nat) (range : CodeRange) (target : Nat)
  | addEpsilon (place source target : Nat)
  | absorb (place part : Nat)
  | compact (place : Nat)
  | trimDuplicates (place : Nat)
  | trimNeutrals (place : Nat)

/-- The automaton at a place. -/
def pick (made : List Automaton) (k : Nat) : Automaton := made.getD k Automaton.new

/-- What an operation does. -/
inductive Act where
  /-- Makes one more automaton, if it does not fail. -/
  | make (a : Except BuildError Automaton)
  /-- Changes the automaton at a place. -/
  | change (place : Nat) (c : Change)

namespace Op

/-- What the operation does, given the automata made so far. -/
def act (made : List Automaton) : Op → Act
  | new => .make (.ok Automaton.new)
  | empty symbol => .make (.ok (Automaton.empty symbol))
  | ofCodePoints cps symbol => .make (.ok (Automaton.ofCodePoints cps symbol))
  | ofSet set symbol => .make (.ok (Automaton.ofSet set symbol))
  | concat parts symbol => .make (.ok (Automaton.concat (parts.map (pick made)) symbol))
  | choice parts symbol => .make (.ok (Automaton.choice (parts.map (pick made)) symbol))
  | optional part symbol => .make (.ok ((pick made part).optional symbol))
  | repeated part min max symbol => .make ((pick made part).repeated min max symbol)
  | ignoringCase part symbol => .make ((pick made part).ignoringCase symbol)
  | merged parts => .make (.ok (Automaton.merged (parts.map (pick made))))
  | determinize part => .make (.ok (pick made part).determinize.1)
  | subgraph part root => .make (.ok ((pick made part).subgraph root).1)
  | addState k accepting symbol => .change k (modify (·.addState accepting symbol |>.1))
  | addEdge k source range target => .change k (insertEdge source range target)
  | addEpsilon k source target => .change k (modify (·.addEpsilon source target))
  | absorb k part => .change k (modify (·.absorb (pick made part) |>.1))
  | compact k => .change k (modify Automaton.compact)
  | trimDuplicates k => .change k (modify (·.trimDuplicates.1))
  | trimNeutrals k => .change k bypassNeutrals

/-- The automata and states that are named exist, ranges are proper, and code points are such. -/
def Supplied (made : List Automaton) : Op → Prop
  | new | empty _ => True
  | ofCodePoints cps _ => ∀ cp ∈ cps, cp ≤ maxCodePoint
  | ofSet set _ => ∀ r ∈ set, r.Within
  | concat parts _ | choice parts _ | merged parts => ∀ k ∈ parts, k < made.length
  | optional k _ | repeated k _ _ _ | ignoringCase k _ | determinize k | addState k _ _ | compact k
  | trimDuplicates k | trimNeutrals k => k < made.length
  | subgraph k root => k < made.length ∧ root < (pick made k).states.size
  | addEdge k source range target => k < made.length ∧ source < (pick made k).states.size ∧
    range.Within ∧ target < (pick made k).states.size
  | addEpsilon k source target => k < made.length ∧ source < (pick made k).states.size ∧
    target < (pick made k).states.size
  | absorb k part => k < made.length ∧ part < made.length

instance (made : List Automaton) : (op : Op) → Decidable (op.Supplied made)
  | new | empty _ => inferInstanceAs (Decidable True)
  | ofCodePoints cps _ => inferInstanceAs (Decidable (∀ cp ∈ cps, cp ≤ maxCodePoint))
  | ofSet set _ => inferInstanceAs (Decidable (∀ r ∈ set, r.Within))
  | concat parts _ | choice parts _ | merged parts =>
    inferInstanceAs (Decidable (∀ k ∈ parts, k < made.length))
  | optional k _ | repeated k _ _ _ | ignoringCase k _ | determinize k | addState k _ _ | compact k
  | trimDuplicates k | trimNeutrals k => inferInstanceAs (Decidable (k < made.length))
  | subgraph _ _ | addEdge _ _ _ _ | addEpsilon _ _ _ | absorb _ _ =>
    inferInstanceAs (Decidable (_ ∧ _))

end Op

/-- The automata after an operation, and its error if it fails. A change that fails leaves the
automaton at its place as it is by then. -/
def perform (made : List Automaton) (op : Op) : List Automaton × Option BuildError :=
  match op.act made with
  | .make (.ok a) => (made ++ [a], none)
  | .make (.error e) => (made, some e)
  | .change k c =>
    match c.run (pick made k) with
    | .ok _ a => (made.set k a, none)
    | .error e a => (made.set k a, some e)

/-- The automata after several operations. -/
def performAll : List Automaton → List Op → List Automaton
  | made, [] => made
  | made, op :: ops => performAll (perform made op).1 ops

/-- What each of several operations is supplied with is in order when its turn comes. -/
def AllSupplied : List Automaton → List Op → Prop
  | _, [] => True
  | made, op :: ops => op.Supplied made ∧ AllSupplied (perform made op).1 ops

instance decidableAllSupplied : (made : List Automaton) → (ops : List Op) →
    Decidable (AllSupplied made ops)
  | _, [] => inferInstanceAs (Decidable True)
  | made, op :: ops =>
    have := decidableAllSupplied (perform made op).1 ops
    inferInstanceAs (Decidable (_ ∧ _))

/-! ## One operation -/

variable {made : List Automaton} {op : Op}

theorem wellFormed_pick (h : ∀ a ∈ made, a.WellFormed) {k : Nat} (hk : k < made.length) :
    (pick made k).WellFormed := by
  rw [pick, List.getD_eq_getElem _ _ hk]
  exact h _ (List.getElem_mem hk)

theorem wellFormed_map_pick (h : ∀ a ∈ made, a.WellFormed) {parts : List Nat}
    (hparts : ∀ k ∈ parts, k < made.length) : ∀ p ∈ parts.map (pick made), p.WellFormed :=
  List.forall_mem_map.mpr fun k hk => wellFormed_pick h (hparts k hk)

/-- An automaton that an operation makes of well-formed automata is well-formed. -/
theorem wellFormed_of_make (h : ∀ a ∈ made, a.WellFormed) (hop : op.Supplied made)
    {a : Automaton} (hact : op.act made = .make (.ok a)) : a.WellFormed := by
  cases op with
  | new =>
    cases hact
    exact wellFormed_new
  | empty symbol =>
    cases hact
    exact wellFormed_empty symbol
  | ofCodePoints cps symbol =>
    cases hact
    exact wellFormed_ofCodePoints hop symbol
  | ofSet set symbol =>
    cases hact
    exact wellFormed_ofSet hop symbol
  | concat parts symbol =>
    cases hact
    exact wellFormed_concat (wellFormed_map_pick h hop) symbol
  | choice parts symbol =>
    cases hact
    exact wellFormed_choice (wellFormed_map_pick h hop) symbol
  | optional part symbol =>
    cases hact
    exact (wellFormed_pick h hop).optional symbol
  | repeated part min max symbol =>
    exact (wellFormed_pick h hop).repeated (Act.make.inj hact)
  | ignoringCase part symbol => exact (wellFormed_pick h hop).ignoringCase (Act.make.inj hact)
  | merged parts =>
    cases hact
    exact wellFormed_merged (wellFormed_map_pick h hop)
  | determinize part =>
    cases hact
    exact (wellFormed_pick h hop).determinize
  | subgraph part root =>
    cases hact
    exact (wellFormed_pick h hop.1).subgraph hop.2
  | _ => cases hact

/-- A change that an operation carries out leaves a well-formed automaton. -/
theorem wellFormed_of_change (h : ∀ a ∈ made, a.WellFormed) (hop : op.Supplied made) {k : Nat}
    {c : Change} (hact : op.act made = .change k c) {b : Automaton}
    (hrun : c.run (pick made k) = .ok () b) : b.WellFormed := by
  cases op with
  | addState k accepting symbol =>
    cases hact
    cases hrun
    exact (wellFormed_pick h hop).addState accepting symbol
  | addEdge k source range target =>
    cases hact
    obtain ⟨hk, -, hrange, htarget⟩ := hop
    exact (wellFormed_pick h hk).addEdge hrange htarget (Change.outcome_of_run hrun)
  | addEpsilon k source target =>
    cases hact
    cases hrun
    obtain ⟨hk, -, htarget⟩ := hop
    exact (wellFormed_pick h hk).addEpsilon source htarget
  | absorb k part =>
    cases hact
    cases hrun
    exact (wellFormed_pick h hop.1).absorb (wellFormed_pick h hop.2)
  | compact k =>
    cases hact
    cases hrun
    exact (wellFormed_pick h hop).compact
  | trimDuplicates k =>
    cases hact
    cases hrun
    exact (wellFormed_pick h hop).trimDuplicates
  | trimNeutrals k =>
    cases hact
    exact (wellFormed_pick h hop).trimNeutrals (Change.outcome_of_run hrun)
  | _ => cases hact

/-! ## Operations that fail -/

/-- A change that fails leaves the automaton as it was. -/
def Change.Atomic (c : Change) : Prop := ∀ a e b, c.run a = .error e b → b = a

theorem Change.Atomic.run_eq_error {c : Change} (hc : c.Atomic) {a : Automaton} {e : BuildError}
    (h : c.outcome a = .error e) : c.run a = .error e a := by
  unfold outcome at h
  split at h
  · cases h
  · rename_i e' b hrun
    cases h
    rw [hrun, hc a e b hrun]

theorem atomic_modify (f : Automaton → Automaton) : Change.Atomic (modify f) := by
  intro a e b h
  cases h

/-- An edge is refused before it is added. -/
theorem atomic_insertEdge (source : Nat) (range : CodeRange) (target : Nat) :
    (insertEdge source range target).Atomic := by
  intro a e b h
  rw [run_insertEdge] at h
  split at h
  · cases h
    rfl
  · cases h

/-- All chains of neutral states are followed to their ends before any of them is bypassed. -/
theorem atomic_bypassNeutrals : bypassNeutrals.Atomic := by
  intro a e b h
  rw [run_bypassNeutrals] at h
  split at h
  · cases h
    rfl
  · cases h
  · cases h

theorem atomic_of_act {k : Nat} {c : Change} (h : op.act made = .change k c) : c.Atomic := by
  cases op with
  | addEdge k source range target =>
    cases h
    exact atomic_insertEdge source range target
  | trimNeutrals k =>
    cases h
    exact atomic_bypassNeutrals
  | addState | addEpsilon | absorb | compact | trimDuplicates =>
    cases h
    exact atomic_modify _
  | _ => cases h

theorem set_pick (made : List Automaton) (k : Nat) : made.set k (pick made k) = made := by
  by_cases hk : k < made.length
  · rw [pick, List.getD_eq_getElem _ _ hk, List.set_getElem_self]
  · exact List.set_eq_of_length_le (Nat.le_of_not_lt hk)

/-- An operation that fails changes nothing. -/
theorem perform_of_error {e : BuildError} (h : (perform made op).2 = some e) :
    (perform made op).1 = made := by
  unfold perform at h ⊢
  split at h
  · cases h
  · rfl
  · rename_i k c hact
    split at h
    · cases h
    · rename_i e' a hrun
      rw [atomic_of_act hact _ _ _ hrun, set_pick]

/-- What one operation leaves of well-formed automata is well-formed. -/
theorem wellFormed_perform (h : ∀ a ∈ made, a.WellFormed) (hop : op.Supplied made) :
    ∀ a ∈ (perform made op).1, a.WellFormed := by
  cases herror : (perform made op).2 with
  | some e =>
    rw [perform_of_error herror]
    exact h
  | none =>
    unfold perform at herror ⊢
    split at herror
    · rename_i a hact
      have ha := wellFormed_of_make h hop hact
      exact List.forall_mem_append.mpr ⟨h, List.forall_mem_singleton.mpr ha⟩
    · cases herror
    · rename_i k c hact
      split at herror
      · rename_i b hrun
        intro a ha
        rcases List.mem_or_eq_of_mem_set ha with ha | rfl
        · exact h a ha
        · exact wellFormed_of_change h hop hact hrun
      · cases herror

/-! ## Sequences -/

theorem wellFormed_performAll {ops : List Op} (h : ∀ a ∈ made, a.WellFormed)
    (hops : AllSupplied made ops) : ∀ a ∈ performAll made ops, a.WellFormed := by
  induction ops generalizing made with
  | nil => exact h
  | cons op ops ih => exact ih (wellFormed_perform h hops.1) hops.2

/-! ## What follows for automata without epsilons -/

theorem epsilons_of_isDeterministic {a : Automaton} (ha : a.Valid) (h : a.isDeterministic = true)
    {i : Nat} (hi : a.Reaches a.start i) : (a.state i).epsilons = [] := by
  have hclosure := (mem_closure_iff ha).mpr hi
  exact List.isEmpty_iff.mp (List.all_eq_true.mp h i hclosure)

/-- At most one edge of a tidy state has a code point. -/
theorem length_targets_le {a : Automaton} {i : Nat} (h : (a.state i).Tidy) (cp : Nat) :
    (a.targets [i] cp).length ≤ 1 := by
  have hpairwise := h.disjoint.sublist (List.filter_sublist (p := (·.range.contains cp)))
  rw [targets, List.flatMap_singleton, List.length_map]
  cases hfilter : (a.state i).edges.filter (·.range.contains cp) with
  | nil => simp
  | cons e rest =>
    cases rest with
    | nil => simp
    | cons f rest =>
      -- two edges on the code point would not be apart
      have hmem : ∀ d ∈ e :: f :: rest, d.range.contains cp = true := by
        intro d hd
        rw [← hfilter] at hd
        exact (List.mem_filter.mp hd).2
      rw [hfilter] at hpairwise
      have hapart := (List.pairwise_cons.mp hpairwise).1 f List.mem_cons_self
      exact absurd ⟨hmem e (by simp), hmem f (by simp)⟩ (hapart cp)

/-- Without epsilons at most one state follows a state on a code point. -/
theorem WellFormed.length_move_le {a : Automaton} (h : a.WellFormed)
    (hdet : a.isDeterministic = true) {i : Nat} (hi : a.Reaches a.start i) (cp : Nat) :
    (a.move [i] cp).length ≤ 1 := by
  have htargets := length_targets_le (h.tidy i) cp
  rw [move]
  -- what follows the one target by epsilons is that target
  have hsame : ∀ k ∈ a.epsilonClosure (a.targets [i] cp), k ∈ a.targets [i] cp := by
    intro k hk
    obtain ⟨-, j, hj, hreach⟩ := mem_epsilonClosure_iff.mp hk
    obtain ⟨i', hi', e, he, -, rfl⟩ := mem_targets_iff.mp hj
    obtain rfl := List.mem_singleton.mp hi'
    cases hreach using Relation.ReflTransGen.head_induction_on with
    | refl => exact hj
    | head hstep _ _ =>
      rw [epsilons_of_isDeterministic h.toValid hdet (hi.edge he)] at hstep
      cases hstep
  exact (List.subperm_of_subset (nodup_epsilonClosure a _) hsame).length_le.trans htargets

/-- Every automaton of a sequence of operations is well-formed. From its states only states are
reached. If it is deterministic, at most one edge of a state has a code point, and at most one state
follows a reachable one. An operation that fails changes nothing. -/
theorem performAll_invariant {ops : List Op} (h : AllSupplied [] ops) :
    (∀ a ∈ performAll [] ops, a.WellFormed ∧
      (∀ i < a.states.size, ∀ j, a.Reaches i j → j < a.states.size) ∧
      (a.isDeterministic = true → ∀ i cp, (a.targets [i] cp).length ≤ 1 ∧
        (a.Reaches a.start i → (a.state i).epsilons = [] ∧ (a.move [i] cp).length ≤ 1))) ∧
      ∀ op e, (perform (performAll [] ops) op).2 = some e →
        (perform (performAll [] ops) op).1 = performAll [] ops := by
  have hnone : ∀ a ∈ ([] : List Automaton), a.WellFormed := by simp
  refine ⟨fun a ha => ?_, fun op e he => perform_of_error he⟩
  have hwell := wellFormed_performAll hnone h a ha
  refine ⟨hwell, fun i hi j hj => hj.lt_size hwell.toValid hi, fun hdet i cp => ?_⟩
  refine ⟨length_targets_le (hwell.tidy i) cp, fun hi => ?_⟩
  exact ⟨epsilons_of_isDeterministic hwell.toValid hdet hi, hwell.length_move_le hdet hi cp⟩

/-- Two states with an edge, an edge that is refused and an epsilon back. What is reached from the
second state is copied, and a set of overlapping ranges absorbed. Of these a choice is made, made
deterministic and merged with the others, and the results are reduced. -/
def assembly : List Op :=
  [.new, .addState 0 true (some 3), .addEdge 0 0 ⟨97, 122⟩ 1, .addEdge 0 0 ⟨98, 98⟩ 0,
    .addEpsilon 0 1 0, .subgraph 0 1, .ofSet #[⟨120, 130⟩, ⟨100, 122⟩] none, .absorb 0 2,
    .choice [0, 2, 0] (some 1), .determinize 3, .merged [3, 1, 4], .compact 5, .trimDuplicates 4,
    .trimNeutrals 5]

theorem performAll_invariant_assembly :
    AllSupplied [] assembly ∧ (∀ a ∈ performAll [] assembly, a.WellFormed ∧
      (∀ i < a.states.size, ∀ j, a.Reaches i j → j < a.states.size) ∧
      (a.isDeterministic = true → ∀ i cp, (a.targets [i] cp).length ≤ 1 ∧
        (a.Reaches a.start i → (a.state i).epsilons = [] ∧ (a.move [i] cp).length ≤ 1))) ∧
      ∀ op e, (perform (performAll [] assembly) op).2 = some e →
        (perform (performAll [] assembly) op).1 = performAll [] assembly := by
  have hsupplied : AllSupplied [] assembly := by decide
  exact ⟨hsupplied, performAll_invariant hsupplied⟩

end FiberLex.Automaton
