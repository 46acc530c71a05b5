import FiberLex.Proofs.Automaton.Determinize

/-!
# The form of deterministic automata

The subset construction makes a state for each set of states that it finds, and nothing else: no
epsilons, no state without a way from the start, no code point on which no member of the set has an
edge, and no edge that could be part of its neighbour (`SubsetShape`). It reports each set once as it
is found, and it ends with the last set, since it has a round for each and there are no more sets than
subsets (`determinize_shape`).
-/

namespace FiberLex.Automaton

variable {a : Automaton} {set : List Nat}

/-! ## Edges that touch -/

/-- The second edge goes on where the first one ends, to the same state. -/
def Joinable (e f : Edge) : Prop := e.target = f.target ∧ e.range.high + 1 = f.range.low

/-- No edge goes on where its neighbour in front ends; the edges are listed from the last to the
first. -/
def JoinedBackwards (found : List Edge) : Prop := found.IsChain fun f e => ¬Joinable e f

theorem JoinedBackwards.addWindow {found : List Edge} (h : JoinedBackwards found) (w : CodeRange)
    (target : Nat) : JoinedBackwards (addWindow w target found) := by
  cases found with
  | nil => exact .singleton _
  | cons last rest =>
    rw [Automaton.addWindow]
    split
    · rename_i hjoin
      -- the longer edge begins where the last one began, and leads to the same state
      obtain ⟨hhead, hrest⟩ := List.isChain_cons.mp h
      refine List.isChain_cons.mpr ⟨fun e he hjoinable => hhead e he ?_, hrest⟩
      exact ⟨hjoinable.1.trans hjoin.1.symm, hjoinable.2⟩
    · rename_i hjoin
      exact List.isChain_cons_cons.mpr ⟨hjoin, h⟩

theorem joined_edgesOver (s : Subsets) {found : List Edge} (h : JoinedBackwards found)
    (ws : List CodeRange) :
    (a.edgesOver set s found ws).2.IsChain fun e f => ¬Joinable e f := by
  induction ws generalizing s found with
  | nil => exact List.isChain_reverse.mpr h
  | cons w ws ih =>
    rw [edgesOver]
    split
    · exact ih s h
    · exact ih _ (h.addWindow w _)

/-! ## Edges to new sets -/

/-- A window adds its target and keeps those found before. -/
theorem exists_target_addWindow {w : CodeRange} {target t : Nat} {found : List Edge}
    (h : t = target ∨ ∃ e ∈ found, e.target = t) :
    ∃ e ∈ addWindow w target found, e.target = t := by
  cases found with
  | nil => simpa [addWindow, eq_comm] using h
  | cons last rest =>
    rw [addWindow]
    split
    · rename_i hjoin
      obtain ⟨rfl, -⟩ := hjoin
      simpa [eq_comm] using h
    · simpa [eq_comm] using h

theorem exists_target_edgesOver (s : Subsets) {found : List Edge} {t : Nat}
    (h : ∃ e ∈ found, e.target = t) (ws : List CodeRange) :
    ∃ e ∈ (a.edgesOver set s found ws).2, e.target = t := by
  induction ws generalizing s found with
  | nil => simpa [edgesOver] using h
  | cons w ws ih =>
    rw [edgesOver]
    split
    · exact ih s h
    · exact ih _ (exists_target_addWindow (.inr h))

/-- A number that is new after a set has been numbered is that of the set. -/
theorem number_of_lt {s : Subsets} {t : Nat} (h : t < (s.number set).1.known.size) :
    t < s.known.size ∨ t = (s.number set).2 := by
  unfold Subsets.number at h ⊢
  split
  · rename_i hidx
    rw [hidx] at h
    exact .inl h
  · rename_i hidx
    rw [hidx] at h
    rw [Array.size_push] at h
    exact Nat.lt_succ_iff_lt_or_eq.mp h

/-- An edge leads to each set that is new. -/
theorem exists_edge_of_lt (s : Subsets) (found : List Edge) (ws : List CodeRange) {t : Nat}
    (h : t < (a.edgesOver set s found ws).1.known.size) :
    t < s.known.size ∨ ∃ e ∈ (a.edgesOver set s found ws).2, e.target = t := by
  induction ws generalizing s found with
  | nil => exact .inl h
  | cons w ws ih =>
    rw [edgesOver] at h ⊢
    split
    · rename_i hempty
      rw [if_pos hempty] at h
      exact ih s found h
    · rename_i hempty
      rw [if_neg hempty] at h
      rcases ih _ _ h with hlt | hedge
      · rcases number_of_lt hlt with hlt | rfl
        · exact .inl hlt
        · exact .inr (exists_target_edgesOver _ (exists_target_addWindow (.inl rfl)) ws)
      · exact .inr hedge

/-! ## Reports -/

/-- The reports of so many sets, in the order in which they are found. -/
def discoveries (n : Nat) : List Progress := (List.range n).map fun k => .discovered (k + 1)

/-- Each set has been reported as it was found, and nothing else. -/
def Subsets.Reported (s : Subsets) : Prop := s.log.toList = discoveries s.known.size

theorem Subsets.Reported.number {s : Subsets} (h : s.Reported) (set : List Nat) :
    (s.number set).1.Reported := by
  unfold Subsets.number
  split
  · exact h
  · rw [Reported, Array.toList_push, h, Array.size_push, discoveries, discoveries,
      List.range_succ, List.map_append, List.map_singleton]

theorem Subsets.Reported.edgesOver {s : Subsets} (h : s.Reported) (found : List Edge)
    (ws : List CodeRange) : (a.edgesOver set s found ws).1.Reported := by
  induction ws generalizing s found with
  | nil => exact h
  | cons w ws ih =>
    rw [Automaton.edgesOver]
    split
    · exact ih h found
    · exact ih (h.number _) _

/-! ## Rounds -/

/-- What has been found, and how: each set has been reported, none but the first was found without an
edge from a set before it, and no edges of a row could be joined. -/
structure Traced (s : Subsets) (done : Array State) : Prop where
  /-- There is one report of each set. -/
  reported : s.Reported
  /-- The rows found lead to the sets found, from the earlier to the later ones. -/
  found : ∀ t < s.known.size, t = 0 ∨ ∃ k < t, ∃ row, done[k]? = some row ∧
    ∃ e ∈ row.edges, e.target = t
  /-- Edges that touch lead to different states. -/
  joined : ∀ (k : Nat) row, done[k]? = some row → row.edges.IsChain fun e f => ¬Joinable e f

theorem Traced.push {s : Subsets} {done : Array State} (h : Traced s done)
    (hset : s.known[done.size]? = some set) :
    Traced (s.afterRow a set) (done.push (rowOf a s set)) := by
  refine ⟨h.reported.edgesOver _ _, fun t ht => ?_, fun k row hrow => ?_⟩
  · obtain ⟨hdone, -⟩ := Array.getElem?_eq_some_iff.mp hset
    by_cases hlt : t < s.known.size
    · refine (h.found t hlt).imp_right fun ⟨k, hk, row, hrow, hedge⟩ => ⟨k, hk, row, ?_, hedge⟩
      obtain ⟨hsize, -⟩ := Array.getElem?_eq_some_iff.mp hrow
      rw [Array.getElem?_push_lt hsize, ← Array.getElem?_eq_getElem hsize, hrow]
    · refine .inr ⟨done.size, by omega, _, Array.getElem?_push_size, ?_⟩
      exact (exists_edge_of_lt s [] _ ht).resolve_left hlt
  · rw [Array.getElem?_push] at hrow
    split at hrow
    · cases hrow
      exact joined_edgesOver s .nil _
    · exact h.joined k row hrow

theorem Traced.explore {s : Subsets} {done : Array State} (h : Traced s done) (fuel : Nat) :
    Traced (a.explore fuel s done).1 (a.explore fuel s done).2 := by
  induction fuel generalizing s done with
  | zero => exact h
  | succ fuel ih =>
    cases hset : s.known[done.size]? with
    | none =>
      rw [explore_eq_self hset]
      exact h
    | some set =>
      rw [explore_succ hset]
      exact ih (h.push hset)

theorem traced_firstSubsets (a : Automaton) : Traced a.firstSubsets #[] := by
  have hempty : ({} : Subsets).Reported := rfl
  refine ⟨hempty.number _, fun t ht => ?_, by simp⟩
  have hsize : a.firstSubsets.known.size = 1 := by simp [firstSubsets, Subsets.number]
  omega

/-! ## The last round -/

theorem size_le_explore (fuel : Nat) (s : Subsets) (done : Array State) :
    done.size ≤ (a.explore fuel s done).2.size := by
  induction fuel generalizing s done with
  | zero => exact Nat.le_refl _
  | succ fuel ih =>
    cases hset : s.known[done.size]? with
    | none => rw [explore_eq_self hset]
    | some set =>
      rw [explore_succ hset]
      exact Nat.le_trans (by simp) (ih _ _)

theorem size_explore_le (fuel : Nat) (s : Subsets) (done : Array State) :
    (a.explore fuel s done).2.size ≤ fuel + done.size := by
  induction fuel generalizing s done with
  | zero => exact Nat.le_add_left _ _
  | succ fuel ih =>
    cases hset : s.known[done.size]? with
    | none =>
      rw [explore_eq_self hset]
      exact Nat.le_add_left _ _
    | some set =>
      rw [explore_succ hset]
      refine (ih _ _).trans_eq ?_
      rw [Array.size_push]
      omega

/-- A round for each set is enough, and more rounds make no difference. -/
theorem explore_eq_of_size_le {fuel fuel' : Nat} {s : Subsets} {done : Array State}
    (hall : (a.explore fuel s done).1.known.size = (a.explore fuel s done).2.size)
    (hfuel : (a.explore fuel s done).2.size ≤ fuel' + done.size) :
    a.explore fuel' s done = a.explore fuel s done := by
  induction fuel generalizing s done fuel' with
  | zero => exact explore_eq_self (Array.getElem?_eq_none hall.le) fuel'
  | succ fuel ih =>
    cases hset : s.known[done.size]? with
    | none => rw [explore_eq_self hset, explore_eq_self hset]
    | some set =>
      rw [explore_succ hset] at hall hfuel ⊢
      have hsize := size_le_explore (a := a) fuel (s.afterRow a set) (done.push (rowOf a s set))
      rw [Array.size_push] at hsize
      obtain ⟨rounds, rfl⟩ : ∃ rounds, fuel' = rounds + 1 := ⟨fuel' - 1, by omega⟩
      rw [explore_succ hset]
      exact ih hall (by rw [Array.size_push]; omega)

/-! ## The whole automaton -/

/-- The form of the deterministic automaton `d` of `a`, whose states stand for the sets `members` of
states of `a`. -/
structure SubsetShape (a d : Automaton) (members : Array (List Nat)) : Prop where
  /-- Each state stands for a set. -/
  size_eq : members.size = d.states.size
  /-- No set has two states. -/
  nodup : members.toList.Nodup
  /-- The start stands for the states that runs begin in. -/
  start : members[d.start]? = some (a.closedSet [a.start])
  /-- Every state has a way from the start. -/
  reaches : ∀ k < d.states.size, d.Reaches d.start k
  /-- There are no epsilons. -/
  epsilons : ∀ k, (d.state k).epsilons = []
  /-- No range is empty. -/
  low_le_high : ∀ k, ∀ e ∈ (d.state k).edges, e.range.low ≤ e.range.high
  /-- Each range ends before the next one begins. -/
  ascending : ∀ k, (d.state k).edges.Pairwise fun e f => e.range.high < f.range.low
  /-- Ranges that touch belong to edges to different states. -/
  joined : ∀ k, (d.state k).edges.IsChain fun e f => ¬Joinable e f
  /-- There are edges on the code points on which some member has an edge. -/
  covers : ∀ k set, members[k]? = some set → ∀ cp,
    (∃ e ∈ (d.state k).edges, e.range.contains cp = true) ↔
      ∃ i ∈ set, ∃ e ∈ (a.state i).edges, e.range.contains cp = true
  /-- An edge leads to the state of the set that the members' edges lead to. -/
  leads : ∀ k set, members[k]? = some set → ∀ e ∈ (d.state k).edges, ∀ cp,
    e.range.contains cp = true → members[e.target]? = some (a.closedSet (a.targets set cp))

theorem targets_ne_nil_iff {cp : Nat} :
    a.targets set cp ≠ [] ↔ ∃ i ∈ set, ∃ e ∈ (a.state i).edges, e.range.contains cp = true := by
  constructor
  · intro hne
    obtain ⟨j, hj⟩ := List.exists_mem_of_ne_nil _ hne
    obtain ⟨i, hi, e, he, hc, -⟩ := mem_targets_iff.mp hj
    exact ⟨i, hi, e, he, hc⟩
  · rintro ⟨i, hi, e, he, hc⟩
    exact List.ne_nil_of_mem (mem_targets_iff.mpr ⟨i, hi, e, he, hc, rfl⟩)

theorem Traced.reaches {s : Subsets} {d : Automaton} (h : Traced s d.states) (hstart : d.start = 0)
    {k : Nat} (hk : k < s.known.size) : d.Reaches d.start k := by
  induction k using Nat.strong_induction_on with
  | h k ih =>
    rcases h.found k hk with rfl | ⟨j, hj, row, hrow, e, he, rfl⟩
    · rw [hstart]
      exact .refl
    · obtain ⟨hsize, hget⟩ := Array.getElem?_eq_some_iff.mp hrow
      refine (ih j hj (by omega)).edge ?_
      rw [state_eq_getElem hsize, hget]
      exact he

theorem Numbers.subsetShape {d : Automaton} {s : Subsets} (h : Numbers a d s.known)
    (htraced : Traced s d.states) (hstart : d.start = 0) : SubsetShape a d s.known where
  size_eq := h.size_eq.symm
  nodup := h.explored.nodup
  start := h.start
  reaches k hk := htraced.reaches hstart (h.size_eq ▸ hk)
  epsilons := h.deterministic.epsilons
  low_le_high := h.deterministic.low_le_high
  ascending k := by
    rcases h.row_or k with ⟨set, -, hrow⟩ | hnone
    · exact hrow.ascending
    · rw [hnone]
      exact .nil
  joined k := by
    by_cases hk : k < d.states.size
    · rw [state_eq_getElem hk]
      exact htraced.joined k _ (Array.getElem?_eq_getElem hk)
    · rw [state_of_size_le (by omega)]
      exact .nil
  covers k set hset cp := by
    have hrow := h.row hset
    rw [← targets_ne_nil_iff]
    constructor
    · rintro ⟨e, he, hc⟩
      exact (hrow.leads cp e.target ⟨e, he, hc, rfl⟩).1
    · intro hne
      obtain ⟨t, e, he, hc, -⟩ := hrow.covers cp hne
      exact ⟨e, he, hc⟩
  leads k set hset e he cp hc := ((h.row hset).leads cp e.target ⟨e, he, hc, rfl⟩).2

/-- **The form of deterministic automata.** The exploration ends: it is done after a round for each
state and not before, and there are no more states than subsets. The states stand for different sets,
all that have been found, and have a way from the start. Their ranges ascend, cover just what the
members' ranges cover, and belong to different targets where they touch. The reports count the states
one by one. -/
theorem determinize_shape (a : Automaton) :
    let d := a.determinize.1
    ∃ s : Subsets, SubsetShape a d s.known ∧ d.states.size ≤ 2 ^ a.states.size ∧
      (∀ rounds, a.explore rounds a.firstSubsets #[] = (s, d.states) ↔ d.states.size ≤ rounds) ∧
      a.determinize.2 = (List.range d.states.size).map fun k => .discovered (k + 1) := by
  intro d
  have hnumbers := numbers_determinize a
  have htraced := (traced_firstSubsets a).explore (a := a) (2 ^ a.states.size)
  refine ⟨(a.explore (2 ^ a.states.size) a.firstSubsets #[]).1, ?_, ?_, fun rounds => ⟨?_, ?_⟩, ?_⟩
  · have hstart : (({} : Subsets).number (a.closedSet [a.start])).2 = 0 := by simp [Subsets.number]
    exact hnumbers.subsetShape htraced hstart
  · exact hnumbers.size_eq.trans_le hnumbers.explored.size_known_le
  · intro hdone
    have hsize := size_explore_le (a := a) rounds a.firstSubsets #[]
    rwa [hdone] at hsize
  · exact explore_eq_of_size_le hnumbers.size_eq.symm
  · rw [hnumbers.size_eq]
    exact htraced.reported

end FiberLex.Automaton
