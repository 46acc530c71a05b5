import FiberLex.Proofs.Automaton.Semantics
import Mathlib.Data.List.Permutation

/-!
# The order of closures

`depthFirst` is depth-first search by recursion: a number that was not seen before is listed, then
come all that the recursion lists for its children, and then the numbers behind it, with everything
seen on the way. A walk with a stack notes a number only when it is taken off the stack, so a number
may stand on the stack many times, and what comes next is decided much later than the recursion
decides it. The two list the same numbers in the same order (`visit_eq_depthFirst`): a walk over the
children and a walk over the rest are one walk over both on one stack.
-/

namespace FiberLex

namespace Preorder

variable {n : Nat} {children : Nat → List Nat}

/-- Seeing one number more leaves fewer to be seen. -/
theorem card_range_sdiff_lt {i : Nat} {seen later : Finset Nat} (hi : i < n) (hs : i ∉ seen)
    (h : insert i seen ⊆ later) :
    (Finset.range n \ later).card < (Finset.range n \ seen).card := by
  have hleft : i ∈ Finset.range n \ seen := Finset.mem_sdiff.mpr ⟨Finset.mem_range.mpr hi, hs⟩
  have htaken : i ∉ Finset.range n \ later := by
    intro hm
    exact (Finset.mem_sdiff.mp hm).2 (h (Finset.mem_insert_self i seen))
  have hsub : Finset.range n \ later ⊆ Finset.range n \ seen :=
    Finset.sdiff_subset_sdiff (Finset.Subset.refl _) ((Finset.subset_insert i seen).trans h)
  apply Finset.card_lt_card
  rw [Finset.ssubset_iff_of_subset hsub]
  exact ⟨i, hleft, htaken⟩

/-- The numbers of a list and their descendants below `n`, in depth-first order, without those seen
before. -/
def depthFirst (n : Nat) (children : Nat → List Nat) (items : List Nat) (seen : Finset Nat) :
    List Nat :=
  match items with
  | [] => []
  | i :: rest =>
    if _ : i < n ∧ i ∉ seen then
      let below := depthFirst n children (children i) (insert i seen)
      i :: below ++ depthFirst n children rest (insert i seen ∪ below.toFinset)
    else depthFirst n children rest seen
termination_by ((Finset.range n \ seen).card, items.length)
decreasing_by
  · rename_i h
    exact Prod.Lex.left _ _ (card_range_sdiff_lt h.1 h.2 (Finset.Subset.refl _))
  · rename_i h
    exact Prod.Lex.left _ _ (card_range_sdiff_lt h.1 h.2 Finset.subset_union_left)
  · exact Prod.Lex.right _ (Nat.lt_succ_self _)

/-- The recursion goes by the rules for walks. -/
theorem visits_depthFirst (items : List Nat) (seen : Finset Nat) :
    Visits n id children items seen (depthFirst n children items seen) := by
  fun_induction depthFirst n children items seen with
  | case1 seen => exact .done
  | case2 seen i rest h below ihbelow ihrest =>
    rw [Finset.coe_insert] at ihbelow
    have hseen : (↑(insert i seen ∪ below.toFinset) : Set Nat) =
        insert i ↑seen ∪ {k | k ∈ below.map id} := by
      ext k
      simp [or_assoc]
    rw [hseen] at ihrest
    exact .visit h.1 h.2 (ihbelow.append ihrest)
  | case3 seen i rest h ih =>
    refine .skip (fun hlt => ?_) ih
    by_contra hnew
    exact h ⟨hlt, hnew⟩

/-- A walk with a stack lists what the recursion lists. -/
theorem visit_eq_depthFirst (n : Nat) (children : Nat → List Nat) (items : List Nat) :
    visit n id children items = depthFirst n children items ∅ := by
  have h := @visits_depthFirst n children items ∅
  rw [Finset.coe_empty] at h
  exact (visits_visit n id children items).unique h

end Preorder

namespace Automaton

variable {a : Automaton}

theorem EpsilonReaches.lt_size (ha : a.Valid) {i j : Nat} (h : a.EpsilonReaches i j)
    (hi : i < a.states.size) : j < a.states.size :=
  (Reaches.of_epsilonReaches .refl h).lt_size ha hi

/-- **Closures are depth-first and complete.** The closure of a state is the list that depth-first
search by recursion makes, along the edges of each state in their order and then along its epsilons
in theirs, and it holds exactly the states that can be reached, each once. The closure of a list of
states under epsilons is made likewise along epsilons alone, from the states of the list one after
the other, and it holds exactly the states to which epsilons lead from one of them, each once. -/
theorem closures_eq_depthFirst (ha : a.Valid) {root : Nat} (hroot : root < a.states.size)
    {roots : List Nat} (hroots : ∀ i ∈ roots, i < a.states.size) :
    (a.closureFrom root = Preorder.depthFirst a.states.size
        (fun i => (a.state i).edges.map (·.target) ++ (a.state i).epsilons) [root] ∅ ∧
      (a.closureFrom root).Nodup ∧ ∀ j, j ∈ a.closureFrom root ↔ a.Reaches root j) ∧
    a.epsilonClosure roots =
        Preorder.depthFirst a.states.size (fun i => (a.state i).epsilons) roots ∅ ∧
      (a.epsilonClosure roots).Nodup ∧
      ∀ j, j ∈ a.epsilonClosure roots ↔ ∃ i ∈ roots, a.EpsilonReaches i j := by
  refine ⟨⟨?_, nodup_closureFrom a root, fun j => mem_closureFrom_iff ha hroot⟩, ?_,
    nodup_epsilonClosure a roots, fun j => ?_⟩
  · exact Preorder.visit_eq_depthFirst _ _ _
  · exact Preorder.visit_eq_depthFirst _ _ _
  · rw [mem_epsilonClosure_iff]
    constructor
    · exact And.right
    · rintro ⟨i, hi, h⟩
      exact ⟨h.lt_size ha (hroots i hi), i, hi, h⟩

/-- Edges and epsilons in circles. When the walk from the first state comes to the third, that stands
on the stack three times; the last state cannot be reached. -/
def knot : Automaton where
  states := #[
    { edges := [⟨⟨97, 97⟩, 1⟩, ⟨⟨98, 98⟩, 2⟩], epsilons := [3] },
    { edges := [⟨⟨97, 97⟩, 3⟩], epsilons := [0] },
    { epsilons := [1, 4] },
    { edges := [⟨⟨97, 97⟩, 2⟩], epsilons := [2, 0] },
    { accepting := true, symbol := some 7 },
    { epsilons := [0] }]
  start := 0

theorem closures_eq_depthFirst_knot :
    knot.Valid ∧ (knot.closureFrom 0 = [0, 1, 3, 2, 4] ∧ ¬knot.Reaches 0 5) ∧
      knot.epsilonClosure [3, 1, 3] = [3, 2, 1, 0, 4] ∧
      ¬∃ i ∈ [3, 1, 3], knot.EpsilonReaches i 5 := by
  have hvalid : knot.Valid := by decide
  have hroots : ∀ i ∈ [3, 1, 3], i < knot.states.size := by decide
  obtain ⟨⟨-, -, hreaches⟩, -, -, hreaches'⟩ :=
    closures_eq_depthFirst hvalid (show 0 < knot.states.size by decide) hroots
  have horder : knot.closureFrom 0 = [0, 1, 3, 2, 4] := by cbv
  have horder' : knot.epsilonClosure [3, 1, 3] = [3, 2, 1, 0, 4] := by cbv
  refine ⟨hvalid, ⟨horder, ?_⟩, horder', ?_⟩
  · rw [← hreaches, horder]
    decide
  · rw [← hreaches', horder']
    decide

end Automaton

end FiberLex
