import FiberLex.Automaton.Determinize
import FiberLex.Proofs.Automaton.Deterministic

/-!
# Determinisation preserves behaviour

The state with number `k` of the deterministic automaton stands for the set `known[k]`. Three facts
carry the proof. All code points of a window have the same targets, and windows leave out only code
points without targets (`targets_of_mem_windows`, `exists_mem_windows`). The edges found for a set
lead, for each code point with targets, to the number of the set those targets close to
(`RowFor`). And the exploration stops only when every known set has its row (`explore_spec`), since
there are no more sets than subsets. Then both automata run in step: the one state of the
deterministic automaton is always the number of the set of states the other is in.
-/

namespace FiberLex.Automaton

variable {a : Automaton} {set : List Nat}

/-! ## Windows -/

/-- The windows between neighbouring points of a list. -/
def windowsOf (points : List Nat) : List CodeRange :=
  (points.zip points.tail).map fun p => ⟨p.1, p.2 - 1⟩

theorem windowsOf_cons_cons (p q : Nat) (points : List Nat) :
    windowsOf (p :: q :: points) = ⟨p, q - 1⟩ :: windowsOf (q :: points) := rfl

/-- A window begins at a point, is not empty, and no point lies inside it. -/
theorem mem_windowsOf {points : List Nat} (h : Ascending points) {w : CodeRange}
    (hw : w ∈ windowsOf points) :
    w.low ∈ points ∧ w.low ≤ w.high ∧ ∀ x ∈ points, x ≤ w.low ∨ w.high < x := by
  induction points with
  | nil => cases hw
  | cons p points ih =>
    cases points with
    | nil => cases hw
    | cons q points =>
      obtain ⟨hp, htail⟩ := List.pairwise_cons.mp h
      have hpq := hp q List.mem_cons_self
      rw [windowsOf_cons_cons] at hw
      rcases List.mem_cons.mp hw with rfl | hw
      · refine ⟨List.mem_cons_self, by simp only; omega, ?_⟩
        intro x hx
        rcases List.mem_cons.mp hx with rfl | hx
        · exact Or.inl (le_refl _)
        · have hqx : q ≤ x := by
            rcases List.mem_cons.mp hx with rfl | hx
            · exact le_refl _
            · exact ((List.pairwise_cons.mp htail).1 x hx).le
          exact Or.inr (by simp only; omega)
      · obtain ⟨h1, h2, h3⟩ := ih htail hw
        refine ⟨List.mem_cons_of_mem _ h1, h2, ?_⟩
        intro x hx
        rcases List.mem_cons.mp hx with rfl | hx
        · exact Or.inl (hp _ h1).le
        · exact h3 x hx

/-- Between two points every number lies in a window. -/
theorem exists_mem_windowsOf {points : List Nat} (h : Ascending points) {x y cp : Nat}
    (hx : x ∈ points) (hy : y ∈ points) (hxc : x ≤ cp) (hcy : cp < y) :
    ∃ w ∈ windowsOf points, w.contains cp = true := by
  induction points generalizing x with
  | nil => cases hx
  | cons p points ih =>
    obtain ⟨hp, htail⟩ := List.pairwise_cons.mp h
    have hpx : p ≤ x := by
      rcases List.mem_cons.mp hx with rfl | hx
      · exact le_refl _
      · exact (hp x hx).le
    have hy' : y ∈ points := by
      rcases List.mem_cons.mp hy with rfl | hy
      · omega
      · exact hy
    cases points with
    | nil => cases hy'
    | cons q points =>
      rw [windowsOf_cons_cons]
      by_cases hq : cp < q
      · refine ⟨_, List.mem_cons_self, ?_⟩
        rw [CodeRange.contains_iff]
        simp only
        omega
      · obtain ⟨w, hw, hc⟩ := ih htail List.mem_cons_self hy' (by omega)
        exact ⟨w, List.mem_cons_of_mem _ hw, hc⟩

/-- Windows come in order. -/
theorem pairwise_windowsOf {points : List Nat} (h : Ascending points) :
    (windowsOf points).Pairwise fun w w' => w.high < w'.low := by
  induction points with
  | nil => exact .nil
  | cons p points ih =>
    cases points with
    | nil => exact .nil
    | cons q points =>
      obtain ⟨hp, htail⟩ := List.pairwise_cons.mp h
      rw [windowsOf_cons_cons, List.pairwise_cons]
      refine ⟨fun w hw => ?_, ih htail⟩
      have hpq := hp q List.mem_cons_self
      have hlow := (mem_windowsOf htail hw).1
      have hq : q ≤ w.low := by
        rcases List.mem_cons.mp hlow with he | hlow
        · exact he.ge
        · exact ((List.pairwise_cons.mp htail).1 _ hlow).le
      simp only
      omega

theorem windows_eq (a : Automaton) (set : List Nat) : a.windows set = windowsOf (a.cuts set) := rfl

theorem ascending_cuts (a : Automaton) (set : List Nat) : Ascending (a.cuts set) :=
  ascending_mergeSort (nodup_eraseDups _)

/-- The ends of the edges of a member are cuts. -/
theorem mem_cuts {i : Nat} (hi : i ∈ set) {e : Edge} (he : e ∈ (a.state i).edges) :
    e.range.low ∈ a.cuts set ∧ e.range.high + 1 ∈ a.cuts set := by
  unfold cuts
  rw [List.mem_mergeSort, List.mem_mergeSort, List.mem_eraseDups, List.mem_eraseDups]
  have hmem : ∀ x ∈ [e.range.low, e.range.high + 1], x ∈ set.flatMap fun i =>
      (a.state i).edges.flatMap fun e => [e.range.low, e.range.high + 1] :=
    fun x hx => List.mem_flatMap.mpr ⟨i, hi, List.mem_flatMap.mpr ⟨e, he, hx⟩⟩
  exact ⟨hmem _ (by simp), hmem _ (by simp)⟩

/-- All code points of a window have the targets of the first one. -/
theorem targets_of_mem_windows {w : CodeRange} (hw : w ∈ a.windows set) {cp : Nat}
    (hc : w.contains cp = true) : a.targets set cp = a.targets set w.low := by
  rw [windows_eq] at hw
  obtain ⟨-, -, hpoints⟩ := mem_windowsOf (ascending_cuts a set) hw
  rw [CodeRange.contains_iff] at hc
  unfold targets
  refine List.flatMap_congr fun i hi => congrArg _ (List.filter_congr fun e he => ?_)
  obtain ⟨hlow, hhigh⟩ := mem_cuts hi he
  rw [Bool.eq_iff_iff, CodeRange.contains_iff, CodeRange.contains_iff]
  rcases hpoints _ hlow with h1 | h1
  · rcases hpoints _ hhigh with h2 | h2
    · constructor <;> intro h <;> omega
    · constructor <;> intro h <;> omega
  · constructor <;> intro h <;> omega

/-- A code point with targets lies in a window. -/
theorem exists_mem_windows {cp : Nat} (h : a.targets set cp ≠ []) :
    ∃ w ∈ a.windows set, w.contains cp = true := by
  obtain ⟨j, hj⟩ := List.exists_mem_of_ne_nil _ h
  obtain ⟨i, hi, e, he, hc, -⟩ := mem_targets_iff.mp hj
  obtain ⟨hlow, hhigh⟩ := mem_cuts hi he
  rw [CodeRange.contains_iff] at hc
  exact exists_mem_windowsOf (ascending_cuts a set) hlow hhigh hc.1 (by omega)

/-! ## Edges of one set -/

theorem leads_reverse {edges : List Edge} {cp target : Nat} :
    Leads edges.reverse cp target ↔ Leads edges cp target := by
  simp [Leads]

/-- Edges listed from the last to the first, each with a range that is not empty. -/
structure Descending (edges : List Edge) : Prop where
  /-- No range is empty. -/
  low_le_high : ∀ e ∈ edges, e.range.low ≤ e.range.high
  /-- Each range begins after the ranges of the edges listed behind it. -/
  pairwise : edges.Pairwise fun e f => f.range.high < e.range.low

/-- A window adds its code points to the edges. -/
theorem leads_addWindow {w : CodeRange} {target : Nat} {found : List Edge} (hw : w.low ≤ w.high)
    (hf : ∀ e ∈ found, e.range.low ≤ e.range.high) {cp t : Nat} :
    Leads (addWindow w target found) cp t ↔
      (w.contains cp = true ∧ target = t) ∨ Leads found cp t := by
  cases found with
  | nil => simp [addWindow, Leads]
  | cons last rest =>
    have hlast := hf last List.mem_cons_self
    by_cases hjoin : last.target = target ∧ last.range.high + 1 = w.low
    · obtain ⟨rfl, hadj⟩ := hjoin
      have hc : (⟨last.range.low, w.high⟩ : CodeRange).contains cp = true ↔
          w.contains cp = true ∨ last.range.contains cp = true := by
        simp only [CodeRange.contains_iff]
        omega
      simp only [addWindow, hadj, and_self, if_true, Leads, List.mem_cons, exists_eq_or_imp, hc]
      tauto
    · simp [addWindow, hjoin, Leads]

/-- A window after all edges keeps them in order. -/
theorem Descending.addWindow {w : CodeRange} {found : List Edge} (h : Descending found)
    (target : Nat) (hw : w.low ≤ w.high) (hafter : ∀ e ∈ found, e.range.high < w.low) :
    Descending (addWindow w target found) ∧
      ∀ e ∈ Automaton.addWindow w target found, e.range.high ≤ w.high := by
  cases found with
  | nil =>
    refine ⟨⟨?_, ?_⟩, ?_⟩
    · simpa [Automaton.addWindow] using hw
    · simp [Automaton.addWindow]
    · simp [Automaton.addWindow]
  | cons last rest =>
    have hlast := h.low_le_high last List.mem_cons_self
    have hpair := List.pairwise_cons.mp h.pairwise
    have hbefore := hafter last List.mem_cons_self
    by_cases hjoin : last.target = target ∧ last.range.high + 1 = w.low
    · simp only [Automaton.addWindow, hjoin, and_self, if_true]
      refine ⟨⟨?_, ?_⟩, ?_⟩
      · intro e he
        rcases List.mem_cons.mp he with rfl | he
        · simp only
          omega
        · exact h.low_le_high e (List.mem_cons_of_mem _ he)
      · exact List.pairwise_cons.mpr hpair
      · intro e he
        rcases List.mem_cons.mp he with rfl | he
        · exact le_refl _
        · have := hafter e (List.mem_cons_of_mem _ he)
          omega
    · simp only [Automaton.addWindow, hjoin, if_false]
      refine ⟨⟨?_, ?_⟩, ?_⟩
      · intro e he
        rcases List.mem_cons.mp he with rfl | he
        · exact hw
        · exact h.low_le_high e he
      · exact List.pairwise_cons.mpr ⟨hafter, h.pairwise⟩
      · intro e he
        rcases List.mem_cons.mp he with rfl | he
        · exact le_refl _
        · have := hafter e he
          omega

/-! ## Numbers of sets -/

/-- What has a number keeps it when sets are added. -/
theorem getElem?_of_isPrefix {known known' : Array (List Nat)} {t : Nat} {set : List Nat}
    (h : known.toList <+: known'.toList) (ht : known[t]? = some set) : known'[t]? = some set := by
  rw [← Array.getElem?_toList] at ht ⊢
  obtain ⟨hlt, hget⟩ := List.getElem?_eq_some_iff.mp ht
  rw [List.prefix_iff_getElem?.mp h t hlt, hget]

/-- Numbering a set adds it at the end if it is new, and returns where it stands. -/
theorem number_spec (s : Subsets) (set : List Nat) :
    s.known.toList <+: (s.number set).1.known.toList ∧
      (s.number set).1.known[(s.number set).2]? = some set ∧
      (∀ x ∈ (s.number set).1.known.toList, x ∈ s.known.toList ∨ x = set) ∧
      (s.known.toList.Nodup → (s.number set).1.known.toList.Nodup) := by
  unfold Subsets.number
  cases hidx : s.known.idxOf? set with
  | some i =>
    have hlist : s.known.toList.idxOf? set = some i := by
      rw [← List.idxOf?_toArray, Array.toArray_toList, hidx]
    obtain ⟨hlt, hget, -⟩ := List.idxOf?_eq_some_iff.mp hlist
    refine ⟨List.prefix_refl _, ?_, fun x hx => Or.inl hx, id⟩
    rw [← Array.getElem?_toList]
    exact List.getElem?_eq_some_iff.mpr ⟨hlt, hget⟩
  | none =>
    have hnew : set ∉ s.known.toList := by
      rw [Array.mem_toList_iff]
      exact Array.idxOf?_eq_none_iff.mp hidx
    refine ⟨by simp, by simp, fun x hx => ?_, fun hnodup => ?_⟩
    · simpa using hx
    · simp only [Array.toList_push]
      refine List.nodup_append.mpr ⟨hnodup, List.nodup_singleton _, ?_⟩
      rintro x hx y hy rfl
      rw [List.mem_singleton] at hy
      exact hnew (hy ▸ hx)

/-! ## Rows -/

/-- The state of the deterministic automaton for a set: it accepts what some member accepts, and its
edges lead from each code point that has targets to the number of the set the targets close to. -/
structure RowFor (a : Automaton) (known : Array (List Nat)) (set : List Nat) (s : State) :
    Prop where
  accepting : s.accepting = a.anyAccepting set
  symbol : s.symbol = a.symbolOf set
  epsilons : s.epsilons = []
  low_le_high : ∀ e ∈ s.edges, e.range.low ≤ e.range.high
  ascending : s.edges.Pairwise fun e f => e.range.high < f.range.low
  leads : ∀ cp t, Leads s.edges cp t →
    a.targets set cp ≠ [] ∧ known[t]? = some (a.closedSet (a.targets set cp))
  covers : ∀ cp, a.targets set cp ≠ [] → ∃ t, Leads s.edges cp t

theorem RowFor.of_isPrefix {known known' : Array (List Nat)} {s : State}
    (h : RowFor a known set s) (hp : known.toList <+: known'.toList) : RowFor a known' set s :=
  { h with leads := fun cp t ht => ⟨(h.leads cp t ht).1, getElem?_of_isPrefix hp (h.leads cp t ht).2⟩ }

/-- What the search for the edges of a set keeps: sets are only added, all of them closed and
numbered once. -/
structure Extends (a : Automaton) (s s' : Subsets) : Prop where
  known : s.known.toList <+: s'.known.toList
  nodup : s.known.toList.Nodup → s'.known.toList.Nodup
  closed : ∀ x ∈ s'.known.toList, x ∈ s.known.toList ∨ ∃ roots, x = a.closedSet roots

theorem Extends.refl (s : Subsets) : Extends a s s :=
  ⟨List.prefix_refl _, id, fun _ hx => Or.inl hx⟩

theorem Extends.trans {s s' s'' : Subsets} (h : Extends a s s') (h' : Extends a s' s'') :
    Extends a s s'' := by
  refine ⟨h.known.trans h'.known, fun hn => h'.nodup (h.nodup hn), fun x hx => ?_⟩
  rcases h'.closed x hx with hx | hx
  · exact h.closed x hx
  · exact Or.inr hx

theorem extends_number (s : Subsets) (roots : List Nat) :
    Extends a s (s.number (a.closedSet roots)).1 := by
  obtain ⟨h1, -, h3, h4⟩ := number_spec s (a.closedSet roots)
  exact ⟨h1, h4, fun x hx => (h3 x hx).imp_right fun he => ⟨roots, he⟩⟩

/-- The edges over the windows that are left, after those found before: they lead where they should
if those found before do, and no code point of these windows is lost. -/
theorem edgesOver_spec (s : Subsets) (found : List Edge) (ws : List CodeRange)
    (hws : ∀ w ∈ ws, w ∈ a.windows set) (horder : ws.Pairwise fun w w' => w.high < w'.low)
    (hdesc : Descending found) (hafter : ∀ e ∈ found, ∀ w ∈ ws, e.range.high < w.low)
    (hleads : ∀ cp t, Leads found cp t →
      a.targets set cp ≠ [] ∧ s.known[t]? = some (a.closedSet (a.targets set cp))) :
    Extends a s (a.edgesOver set s found ws).1 ∧
      Descending (a.edgesOver set s found ws).2.reverse ∧
      (∀ cp t, Leads (a.edgesOver set s found ws).2 cp t → a.targets set cp ≠ [] ∧
        (a.edgesOver set s found ws).1.known[t]? = some (a.closedSet (a.targets set cp))) ∧
      (∀ cp, (∃ t, Leads found cp t) ∨
        (a.targets set cp ≠ [] ∧ ∃ w ∈ ws, w.contains cp = true) →
        ∃ t, Leads (a.edgesOver set s found ws).2 cp t) := by
  induction ws generalizing s found with
  | nil =>
    refine ⟨.refl s, by simpa [edgesOver] using hdesc, ?_, ?_⟩
    · intro cp t ht
      exact hleads cp t (leads_reverse.mp ht)
    · rintro cp (⟨t, ht⟩ | ⟨-, w, hw, -⟩)
      · exact ⟨t, leads_reverse.mpr ht⟩
      · cases hw
  | cons w ws ih =>
    have hw := hws w List.mem_cons_self
    have hwle : w.low ≤ w.high := (mem_windowsOf (ascending_cuts a set) hw).2.1
    have hws' : ∀ v ∈ ws, v ∈ a.windows set := fun v hv => hws v (List.mem_cons_of_mem _ hv)
    obtain ⟨hnext, horder'⟩ := List.pairwise_cons.mp horder
    rw [edgesOver]
    by_cases hempty : (a.targets set w.low).isEmpty = true
    · -- no member has an edge here, and the window is passed over
      simp only [hempty, if_true]
      have hnil : a.targets set w.low = [] := List.isEmpty_iff.mp hempty
      obtain ⟨h1, h2, h3, h4⟩ := ih s found hws' horder' hdesc
        (fun e he v hv => hafter e he v (List.mem_cons_of_mem _ hv)) hleads
      refine ⟨h1, h2, h3, fun cp hcp => h4 cp ?_⟩
      rcases hcp with hcp | ⟨hne, v, hv, hc⟩
      · exact Or.inl hcp
      · rcases List.mem_cons.mp hv with rfl | hv
        · exact absurd ((targets_of_mem_windows hw hc).trans hnil) hne
        · exact Or.inr ⟨hne, v, hv, hc⟩
    · simp only [hempty, Bool.false_eq_true, if_false]
      have hne : a.targets set w.low ≠ [] := fun h => hempty (List.isEmpty_iff.mpr h)
      obtain ⟨hkept, hnumber, -, -⟩ := number_spec s (a.closedSet (a.targets set w.low))
      obtain ⟨hdesc', hhigh⟩ := hdesc.addWindow (s.number (a.closedSet (a.targets set w.low))).2
        hwle fun e he => hafter e he w List.mem_cons_self
      have hlead := @leads_addWindow w (s.number (a.closedSet (a.targets set w.low))).2 found hwle
        hdesc.low_le_high
      obtain ⟨h1, h2, h3, h4⟩ := ih (s.number (a.closedSet (a.targets set w.low))).1
        (addWindow w (s.number (a.closedSet (a.targets set w.low))).2 found) hws' horder' hdesc'
        (fun e he v hv => (hhigh e he).trans_lt (hnext v hv))
        (fun cp t ht => by
          rcases hlead.mp ht with ⟨hc, rfl⟩ | ht
          · rw [targets_of_mem_windows hw hc]
            exact ⟨hne, hnumber⟩
          · obtain ⟨hne', hknown⟩ := hleads cp t ht
            exact ⟨hne', getElem?_of_isPrefix hkept hknown⟩)
      refine ⟨(extends_number s _).trans h1, h2, h3, fun cp hcp => h4 cp ?_⟩
      rcases hcp with ⟨t, ht⟩ | ⟨hne', v, hv, hc⟩
      · exact Or.inl ⟨t, hlead.mpr (Or.inr ht)⟩
      · rcases List.mem_cons.mp hv with rfl | hv
        · exact Or.inl ⟨_, hlead.mpr (Or.inl ⟨hc, rfl⟩)⟩
        · exact Or.inr ⟨hne', v, hv, hc⟩

/-- The sets that are known once the row of a set has been found. -/
def Subsets.afterRow (a : Automaton) (s : Subsets) (set : List Nat) : Subsets :=
  (a.edgesOver set s [] (a.windows set)).1

/-- The row of a set. -/
def rowOf (a : Automaton) (s : Subsets) (set : List Nat) : State where
  accepting := a.anyAccepting set
  symbol := a.symbolOf set
  edges := (a.edgesOver set s [] (a.windows set)).2

/-- The edges of a set over all its windows make its row. -/
theorem rowFor_rowOf (s : Subsets) (set : List Nat) :
    Extends a s (s.afterRow a set) ∧ RowFor a (s.afterRow a set).known set (rowOf a s set) := by
  obtain ⟨h1, h2, h3, h4⟩ := @edgesOver_spec a set s [] (a.windows set)
    (fun w hw => hw) (pairwise_windowsOf (ascending_cuts a set)) ⟨by simp, .nil⟩ (by simp)
    (by simp [Leads])
  refine ⟨h1, ⟨rfl, rfl, rfl, ?_, ?_, h3, ?_⟩⟩
  · intro e he
    exact h2.low_le_high e (List.mem_reverse.mpr he)
  · exact List.pairwise_reverse.mp h2.pairwise
  · intro cp hne
    exact h4 cp (Or.inr ⟨hne, exists_mem_windows hne⟩)

/-! ## All sets -/

theorem mem_closedSet_iff {roots : List Nat} {i : Nat} :
    i ∈ a.closedSet roots ↔ i ∈ a.epsilonClosure roots :=
  List.mem_mergeSort

theorem ascending_closedSet (a : Automaton) (roots : List Nat) : Ascending (a.closedSet roots) :=
  ascending_mergeSort (nodup_epsilonClosure a roots)

/-- The known sets while their rows are found: each has its own number, and the first ones have
their rows. -/
structure Explored (a : Automaton) (known : Array (List Nat)) (done : Array State) : Prop where
  /-- No set has two numbers. -/
  nodup : known.toList.Nodup
  /-- Every set is closed. -/
  closed : ∀ x ∈ known.toList, ∃ roots, x = a.closedSet roots
  /-- Only known sets have rows. -/
  size_le : done.size ≤ known.size
  /-- The rows are those of the sets with their numbers. -/
  rows : ∀ (k : Nat) set s, known[k]? = some set → done[k]? = some s → RowFor a known set s

/-- No more sets are known than there are subsets of the states. -/
theorem Explored.size_known_le {known : Array (List Nat)} {done : Array State}
    (h : Explored a known done) : known.size ≤ 2 ^ a.states.size := by
  rw [← Array.length_toList]
  refine length_le_two_pow h.nodup ?_ ?_
  · intro x hx
    obtain ⟨roots, rfl⟩ := h.closed x hx
    exact ascending_closedSet a roots
  · intro x hx i hi
    obtain ⟨roots, rfl⟩ := h.closed x hx
    exact lt_size_of_mem_epsilonClosure (mem_closedSet_iff.mp hi)

/-- The row of the next set is added. -/
theorem Explored.push {s : Subsets} {done : Array State} (h : Explored a s.known done)
    (hset : s.known[done.size]? = some set) :
    Explored a (s.afterRow a set).known (done.push (rowOf a s set)) := by
  obtain ⟨hext, hrow⟩ := @rowFor_rowOf a s set
  have hset' := getElem?_of_isPrefix hext.known hset
  refine ⟨hext.nodup h.nodup, ?_, ?_, ?_⟩
  · intro x hx
    rcases hext.closed x hx with hx | hx
    · exact h.closed x hx
    · exact hx
  · obtain ⟨hlt, -⟩ := Array.getElem?_eq_some_iff.mp hset'
    rw [Array.size_push]
    exact hlt
  · intro k x row hx hdone
    rw [Array.getElem?_push] at hdone
    split at hdone
    · rename_i hk
      cases hdone
      rw [hk, hset'] at hx
      cases hx
      exact hrow
    · obtain ⟨hlt, -⟩ := Array.getElem?_eq_some_iff.mp hdone
      -- the set had its number before, and numbers do not change
      have hk : k < s.known.size := hlt.trans_le h.size_le
      have hold : s.known[k]? = some s.known[k] := Array.getElem?_eq_getElem hk
      have heq := getElem?_of_isPrefix hext.known hold
      rw [hx] at heq
      cases heq
      exact (h.rows k _ row hold hdone).of_isPrefix hext.known

/-- A round finds the row of the next set. -/
theorem explore_succ {s : Subsets} {done : Array State} (h : s.known[done.size]? = some set)
    (fuel : Nat) :
    a.explore (fuel + 1) s done = a.explore fuel (s.afterRow a set) (done.push (rowOf a s set)) := by
  rw [explore, h]
  rfl

/-- There is no round without a set that waits for its row. -/
theorem explore_eq_self {s : Subsets} {done : Array State} (h : s.known[done.size]? = none)
    (fuel : Nat) : a.explore fuel s done = (s, done) := by
  cases fuel with
  | zero => rfl
  | succ fuel => rw [explore, h]

/-- The exploration ends with a row for every known set, and keeps the numbers of the sets. -/
theorem explore_spec (fuel : Nat) (s : Subsets) (done : Array State) (h : Explored a s.known done)
    (hfuel : 2 ^ a.states.size ≤ fuel + done.size) :
    Explored a (a.explore fuel s done).1.known (a.explore fuel s done).2 ∧
      s.known.toList <+: (a.explore fuel s done).1.known.toList ∧
      (a.explore fuel s done).2.size = (a.explore fuel s done).1.known.size := by
  induction fuel generalizing s done with
  | zero =>
    have hsize := h.size_known_le
    have hle := h.size_le
    refine ⟨h, List.prefix_refl _, ?_⟩
    simp only [explore]
    omega
  | succ fuel ih =>
    cases hset : s.known[done.size]? with
    | none =>
      have hle := h.size_le
      have hge := Array.getElem?_eq_none_iff.mp hset
      rw [explore_eq_self hset]
      exact ⟨h, List.prefix_refl _, Nat.le_antisymm hle hge⟩
    | some set =>
      obtain ⟨h1, h2, h3⟩ := ih _ _ (h.push hset) (by rw [Array.size_push]; omega)
      rw [explore_succ hset]
      exact ⟨h1, (rowFor_rowOf s set).1.known.trans h2, h3⟩

/-- What the subset construction makes: for each of the sets, which are numbered once, a state that
is its row, and a start that stands for the states in which runs begin. -/
structure Numbers (a d : Automaton) (known : Array (List Nat)) : Prop where
  explored : Explored a known d.states
  size_eq : d.states.size = known.size
  start : known[d.start]? = some (a.closedSet [a.start])

/-- The sets that are known before any row is found: the one for the start. -/
def firstSubsets (a : Automaton) : Subsets := (({} : Subsets).number (a.closedSet [a.start])).1

theorem explored_firstSubsets (a : Automaton) : Explored a a.firstSubsets.known #[] := by
  obtain ⟨-, -, hmem, hnodup⟩ := number_spec {} (a.closedSet [a.start])
  refine ⟨hnodup (by simp), fun x hx => ?_, by simp, by simp⟩
  rcases hmem x hx with hx | rfl
  · simp at hx
  · exact ⟨_, rfl⟩

/-- The deterministic automaton comes from the numbering of the sets that have been found. -/
theorem numbers_determinize (a : Automaton) :
    Numbers a a.determinize.1 (a.explore (2 ^ a.states.size) a.firstSubsets #[]).1.known := by
  have hstart := (number_spec {} (a.closedSet [a.start])).2.1
  obtain ⟨h1, h2, h3⟩ := explore_spec (2 ^ a.states.size) _ _ (explored_firstSubsets a) (by simp)
  exact ⟨h1, h3, getElem?_of_isPrefix h2 hstart⟩

theorem exists_numbers_determinize (a : Automaton) : ∃ known, Numbers a a.determinize.1 known :=
  ⟨_, numbers_determinize a⟩

/-- A set with a number has the state with that number as its row. -/
theorem Numbers.row {d : Automaton} {known : Array (List Nat)} (h : Numbers a d known) {k : Nat}
    (hk : known[k]? = some set) : RowFor a known set (d.state k) := by
  obtain ⟨hlt, -⟩ := Array.getElem?_eq_some_iff.mp hk
  have hsize := h.size_eq
  refine h.explored.rows k set _ hk ?_
  rw [state_eq_getElem (by omega)]
  exact Array.getElem?_eq_getElem _

/-- A state is the row of a set, or no state at all. -/
theorem Numbers.row_or {d : Automaton} {known : Array (List Nat)} (h : Numbers a d known)
    (k : Nat) : (∃ set, known[k]? = some set ∧ RowFor a known set (d.state k)) ∨ d.state k = {} := by
  cases hk : known[k]? with
  | some set => exact Or.inl ⟨set, rfl, h.row hk⟩
  | none =>
    right
    apply state_of_size_le
    rw [h.size_eq]
    exact Array.getElem?_eq_none_iff.mp hk

theorem Numbers.deterministic {d : Automaton} {known : Array (List Nat)} (h : Numbers a d known) :
    d.Deterministic := by
  refine ⟨⟨?_, ?_⟩, ?_, ?_, ?_⟩
  · rw [h.size_eq]
    exact (Array.getElem?_eq_some_iff.mp h.start).1
  · intro k j hj
    rcases h.row_or k with ⟨set, -, hrow⟩ | hnone
    · rw [State.successors, hrow.epsilons, List.append_nil] at hj
      obtain ⟨e, he, rfl⟩ := List.mem_map.mp hj
      have hlead : Leads (d.state k).edges e.range.low e.target :=
        ⟨e, he, by simpa using hrow.low_le_high e he, rfl⟩
      rw [h.size_eq]
      exact (Array.getElem?_eq_some_iff.mp (hrow.leads _ _ hlead).2).1
    · rw [hnone] at hj
      cases hj
  · intro k
    rcases h.row_or k with ⟨set, -, hrow⟩ | hnone
    · exact hrow.epsilons
    · rw [hnone]
  · intro k e he
    rcases h.row_or k with ⟨set, -, hrow⟩ | hnone
    · exact hrow.low_le_high e he
    · rw [hnone] at he
      cases he
  · intro k
    rcases h.row_or k with ⟨set, -, hrow⟩ | hnone
    · refine hrow.ascending.imp fun {e f} hlt => ?_
      rw [Bool.eq_false_iff, ne_eq, CodeRange.meets_iff]
      omega
    · rw [hnone]
      exact .nil

theorem deterministic_determinize (a : Automaton) : a.determinize.1.Deterministic := by
  obtain ⟨known, h⟩ := exists_numbers_determinize a
  exact h.deterministic

/-! ## Running in step -/

/-- The number `k` stands for a list of states: it is the number of the set of its members. -/
def StandsFor (known : Array (List Nat)) (k : Nat) (states : List Nat) : Prop :=
  ∃ set, known[k]? = some set ∧ ∀ i, i ∈ set ↔ i ∈ states

section InStep

variable {d : Automaton} {known : Array (List Nat)} {k : Nat} {states : List Nat}

/-- On one code point both automata stop, or both go on to states that correspond. -/
theorem Numbers.next?_spec (h : Numbers a d known) (ha : a.Valid) (hk : StandsFor known k states)
    (cp : Nat) :
    (d.next? k cp = none ∧ a.move states cp = []) ∨
      ∃ j, d.next? k cp = some j ∧ a.move states cp ≠ [] ∧ StandsFor known j (a.move states cp) := by
  obtain ⟨set, hset, hmem⟩ := hk
  have hrow := h.row hset
  have hmove : ∀ i, i ∈ a.closedSet (a.targets set cp) ↔ i ∈ a.move states cp := by
    intro i
    rw [mem_closedSet_iff]
    exact mem_move_congr hmem cp i
  have hnil : a.move states cp = [] ↔ a.targets set cp = [] := by
    rw [move_eq_nil_iff ha, List.eq_nil_iff_forall_not_mem, List.eq_nil_iff_forall_not_mem]
    simp only [mem_targets_congr hmem cp]
  by_cases htargets : a.targets set cp = []
  · refine Or.inl ⟨?_, hnil.mpr htargets⟩
    cases hnext : d.next? k cp with
    | none => rfl
    | some j =>
      obtain ⟨e, he, hc, rfl⟩ := h.deterministic.next?_eq_some_iff.mp hnext
      exact absurd htargets (hrow.leads cp e.target ⟨e, he, hc, rfl⟩).1
  · obtain ⟨j, e, he, hc, rfl⟩ := hrow.covers cp htargets
    have hleads := hrow.leads cp e.target ⟨e, he, hc, rfl⟩
    exact Or.inr ⟨e.target, h.deterministic.next?_eq_some_iff.mpr ⟨e, he, hc, rfl⟩,
      fun hmv => htargets (hnil.mp hmv), _, hleads.2, hmove⟩

/-- Both automata use up the same part of a text and end in states that correspond. -/
theorem Numbers.runFrom_spec (h : Numbers a d known) (ha : a.Valid) (hk : StandsFor known k states)
    (text : List Char) :
    ∃ j, (d.runFrom [k] text).1 = [j] ∧ StandsFor known j (a.runFrom states text).1 ∧
      (d.runFrom [k] text).2 = (a.runFrom states text).2 := by
  induction text generalizing k states with
  | nil => exact ⟨k, rfl, hk, rfl⟩
  | cons c text ih =>
    simp only [runFrom, h.deterministic.move_singleton]
    rcases h.next?_spec ha hk c.toNat with ⟨hnext, hmove⟩ | ⟨j, hnext, hmove, hj⟩
    · rw [hnext, hmove]
      exact ⟨k, rfl, hk, rfl⟩
    · have hne : (a.move states c.toNat).isEmpty = false := by
        simpa using hmove
      rw [hnext, hne]
      exact ih hj

/-- A text is followed in the one automaton exactly as far as the other has states after it. -/
theorem Numbers.follow?_spec (h : Numbers a d known) (ha : a.Valid) (hk : StandsFor known k states)
    (w : List Char) :
    (d.follow? k w = none ∧ a.after states w = []) ∨
      ∃ j, d.follow? k w = some j ∧ StandsFor known j (a.after states w) := by
  induction w generalizing k states with
  | nil => exact Or.inr ⟨k, rfl, hk⟩
  | cons c w ih =>
    rw [follow?_cons, after_cons]
    rcases h.next?_spec ha hk c.toNat with ⟨hnext, hmove⟩ | ⟨j, hnext, -, hj⟩
    · rw [hnext, hmove, after_of_nil]
      exact Or.inl ⟨rfl, rfl⟩
    · rw [hnext]
      exact ih hj

theorem Numbers.accepting_eq (h : Numbers a d known) (hk : StandsFor known k states) :
    (d.state k).accepting = a.anyAccepting states := by
  obtain ⟨set, hset, hmem⟩ := hk
  rw [(h.row hset).accepting, anyAccepting_congr hmem]

theorem Numbers.symbol_eq (h : Numbers a d known) (hk : StandsFor known k states) :
    (d.state k).symbol = a.symbolOf states := by
  obtain ⟨set, hset, hmem⟩ := hk
  rw [(h.row hset).symbol, symbolOf_congr hmem]

/-- A state reports for itself the least symbol of the states it stands for. -/
theorem Numbers.symbolOf_singleton (h : Numbers a d known) (hk : StandsFor known k states) :
    d.symbolOf [k] = a.symbolOf states := by
  cases hacc : (d.state k).accepting with
  | true =>
    rw [← h.symbol_eq hk]
    cases hsym : (d.state k).symbol <;> simp [symbolOf, hacc, hsym]
  | false =>
    have hnone : states.filter (fun i => (a.state i).accepting) = [] := by
      rw [h.accepting_eq hk, anyAccepting, List.any_eq_false] at hacc
      exact List.filter_eq_nil_iff.mpr hacc
    simp [symbolOf, hacc, hnone]

theorem Numbers.standsFor_start (h : Numbers a d known) : StandsFor known d.start a.initial :=
  ⟨_, h.start, fun _ => mem_closedSet_iff⟩

theorem Numbers.initial_eq (h : Numbers a d known) : d.initial = [d.start] :=
  h.deterministic.epsilonClosure_singleton h.deterministic.valid.start_lt

/-- Runs use up the same part of a text, and the one ends in the state that stands for those in
which the other ends. -/
theorem Numbers.run_spec (h : Numbers a d known) (ha : a.Valid) (text : List Char) :
    ∃ j, (d.run text).1 = [j] ∧ StandsFor known j (a.run text).1 ∧
      (d.run text).2 = (a.run text).2 := by
  unfold run
  rw [h.initial_eq]
  exact h.runFrom_spec ha h.standsFor_start text

end InStep

/-- The deterministic automaton has symbols if the given one has. -/
theorem symbolled_determinize (ha : a.Symbolled) : a.determinize.1.Symbolled := by
  obtain ⟨known, h⟩ := exists_numbers_determinize a
  intro k hacc
  rcases h.row_or k with ⟨set, -, hrow⟩ | hnone
  · rw [hrow.accepting, anyAccepting, List.any_eq_true] at hacc
    obtain ⟨i, hi, hacc⟩ := hacc
    obtain ⟨t, ht⟩ := Option.isSome_iff_exists.mp (ha i hacc)
    rw [hrow.symbol, symbolOf, List.isSome_min?_iff]
    exact List.ne_nil_of_mem
      (List.mem_filterMap.mpr ⟨i, List.mem_filter.mpr ⟨hi, hacc⟩, ht⟩)
  · rw [hnone] at hacc
    cases hacc

/-- The deterministic automaton reports the same symbol at a cursor and stops at the same place. -/
theorem lex_determinize (ha : a.Valid) (cur : Cursor) : a.determinize.1.lex cur = a.lex cur := by
  obtain ⟨known, h⟩ := exists_numbers_determinize a
  obtain ⟨j, hj, hstands, hrest⟩ := h.run_spec ha cur.position.rest
  simp only [lex, hj, hrest, h.symbolOf_singleton hstands]

/-- The deterministic automaton yields a text exactly if the states after it are not all rejecting,
and then with their least symbol. -/
theorem yields_determinize_iff (ha : a.Valid) {w : List Char} {s : Option Int} :
    a.determinize.1.Yields a.determinize.1.start w s ↔
      a.anyAccepting (a.after a.initial w) = true ∧ a.symbolOf (a.after a.initial w) = s := by
  obtain ⟨known, h⟩ := exists_numbers_determinize a
  rw [h.deterministic.yields_iff]
  rcases h.follow?_spec ha h.standsFor_start w with ⟨hnone, hnil⟩ | ⟨j, hj, hstands⟩
  · rw [hnone, hnil]
    simp [anyAccepting]
  · rw [hj, ← h.accepting_eq hstands, ← h.symbol_eq hstands]
    simp

/-- The deterministic automaton accepts the same texts, and run at a cursor it reports the same
symbol, captures the same text and stops at the same place. -/
theorem determinize_accepts_and_lex (ha : a.Valid) (text : List Char) (cur : Cursor) :
    a.determinize.1.Deterministic ∧ a.determinize.1.accepts text = a.accepts text ∧
      a.determinize.1.lex cur = a.lex cur := by
  obtain ⟨known, h⟩ := exists_numbers_determinize a
  refine ⟨h.deterministic, ?_, lex_determinize ha cur⟩
  obtain ⟨j, hj, hstands, hrest⟩ := h.run_spec ha text
  simp only [accepts, hj, hrest, ← h.accepting_eq hstands]
  simp [anyAccepting]

/-- An automaton with a circle of epsilons, edges that overlap and an accepting state without a
symbol. -/
def tangled : Automaton where
  states := #[
    { epsilons := [1, 2] },
    { edges := [⟨⟨97, 99⟩, 3⟩], epsilons := [0] },
    { edges := [⟨⟨98, 100⟩, 4⟩], epsilons := [1] },
    { accepting := true, symbol := some 7, epsilons := [4] },
    { accepting := true, edges := [⟨⟨97, 122⟩, 2⟩] }]
  start := 0

theorem determinize_accepts_and_lex_tangled :
    tangled.Valid ∧ tangled.determinize.1.Deterministic ∧
      tangled.determinize.1.accepts "bxd".toList = tangled.accepts "bxd".toList ∧
      tangled.determinize.1.lex (.ofString "bx") = tangled.lex (.ofString "bx") := by
  have hvalid : tangled.Valid := by decide
  exact ⟨hvalid, determinize_accepts_and_lex hvalid "bxd".toList (.ofString "bx")⟩

end FiberLex.Automaton
