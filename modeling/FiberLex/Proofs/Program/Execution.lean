import FiberLex.Proofs.Program.Link

/-!
# Running the code of an automaton

What a search through the linked code of a deterministic automaton comes to. `outcome` says it by
recursion on the text: where the text goes on to a state that is not left out, what is found from
there is preferred; otherwise a state that accepts has its symbol, and the start, where it does not
accept, takes one character for the fallback. That last case is met whenever the start is come to,
not only at the beginning of the text.
-/

namespace FiberLex.Program

open Automaton Backtrack

variable {a : Automaton} {text : List Char} {code : Program} {own : Nat → Nat}
  {finish : Int → Nat} {otherwise : List Nat}

/-- The symbol of a state that accepts, with no character taken. -/
def stopAt (a : Automaton) (i : Nat) : Option (Int × Nat) := (acceptOf a i).map (·, 0)

/-- What is found from a state on a text: a symbol, and how many characters are taken. -/
def outcome (a : Automaton) (i : Nat) : List Char → Option (Int × Nat)
  | [] => stopAt a i
  | c :: w =>
    match live? a i c.toNat with
    | some j => ((outcome a j w).map fun p => (p.1, p.2 + 1)).or (stopAt a i)
    | none => if i = a.start then (stopAt a i).or (some (errorSymbol, 1)) else stopAt a i

/-- The path goes on at an address behind the next character. -/
def past (x : Config text) (t : Nat) (h : x.place.val < text.length) : Config text :=
  ⟨t, ⟨x.place + 1, Nat.succ_lt_succ h⟩, x.span⟩

/-- The match for an outcome at a place. -/
def report (x : Config text) (o : Option (Int × Nat)) : Option Match :=
  o.map fun p => ⟨p.1, x.span.start, byteLength (text.take (x.place + p.2))⟩

theorem report_or (x : Config text) (o o' : Option (Int × Nat)) :
    report x (o.or o') = (report x o).or (report x o') := by
  cases o <;> rfl

/-! ## Single instructions -/

section Instructions

variable {p : Program} {x : Config text}

theorem getElem?_toArray {k : Nat} : p.toArray[k]? = p[k]? := by simp

/-- At the end of a symbol the match is reported. -/
theorem finds_end {symbol : Int} (hsave : p[x.address]? = some (.save 1))
    (haccept : p[x.address + 1]? = some (.accept symbol)) :
    Finds p.toArray [x] (report x (some (symbol, 0))) := by
  refine .step (getElem?_toArray.trans hsave) rfl ?_
  exact .found (getElem?_toArray.trans haccept) rfl

/-- The instructions of the fallback. -/
def Falls (p : Program) (k : Nat) : Prop :=
  p[k]? = some .any ∧ p[k + 1]? = some (.save 1) ∧ p[k + 2]? = some (.accept errorSymbol)

/-- The fallback takes one character, if there is one. -/
theorem finds_fallback (h : Falls p x.address) :
    Finds p.toArray [x] (report x (x.next?.map fun _ => (errorSymbol, 1))) := by
  obtain ⟨hany, hsave, haccept⟩ := h
  by_cases hlt : x.place.val < text.length
  · have hnext : x.next? = some text[x.place.val] := List.getElem?_eq_getElem hlt
    refine .step (getElem?_toArray.trans hany) rfl ?_
    have hsucc : successors .any x ++ [] = [past x (x.address + 1) hlt] := by
      simp [successors, hnext, takes, Config.consumeTo, hlt, past]
    rw [hsucc, hnext]
    exact finds_end hsave haccept
  · have hnext : x.next? = none := List.getElem?_eq_none (by omega)
    refine .step (getElem?_toArray.trans hany) rfl ?_
    rw [hnext]
    have hsucc : successors .any x ++ [] = [] := by simp [successors, hnext]
    rw [hsucc]
    exact .nil

/-- A switch with a case for the next character goes on behind the character. -/
theorem finds_switch_case {cases : List Case} {c : Char} {i j : Nat} {r : Option Match}
    (hswitch : p[x.address]? = some (.switch cases otherwise)) (hselects : Selects a own i cases)
    (hnext : x.next? = some c) (hlive : live? a i c.toNat = some j) (hlt : x.place.val < text.length)
    (h : Finds p.toArray [past x (own j) hlt] r) : Finds p.toArray [x] r := by
  have hfind := hselects c.toNat
  rw [hlive] at hfind
  obtain ⟨case, hcase, htarget⟩ := Option.map_eq_some_iff.mp hfind
  refine .step (getElem?_toArray.trans hswitch) rfl ?_
  have hsucc : successors (.switch cases otherwise) x ++ [] = [past x (own j) hlt] := by
    simp [successors, hnext, hcase, Config.consumeTo, hlt, htarget, past]
  rw [hsucc]
  exact h

/-- A switch without a case goes on to its other targets. -/
theorem finds_switch_otherwise {cases : List Case} {i : Nat} {r : Option Match}
    (hswitch : p[x.address]? = some (.switch cases otherwise)) (hselects : Selects a own i cases)
    (hnone : ∀ c, x.next? = some c → live? a i c.toNat = none)
    (h : Finds p.toArray (otherwise.map x.goto) r) : Finds p.toArray [x] r := by
  refine .step (getElem?_toArray.trans hswitch) rfl ?_
  have hfind : (x.next?.bind fun c => cases.find? (·.set.contains c.toNat)) = none := by
    cases hnext : x.next? with
    | none => rfl
    | some c =>
      have := hselects c.toNat
      rw [hnone c hnext] at this
      exact Option.map_eq_none_iff.mp this
  have hsucc : successors (.switch cases otherwise) x ++ [] = otherwise.map x.goto := by
    simp [successors, hfind]
  rw [hsucc]
  exact h

/-- Of two targets of a jump the first is preferred. -/
theorem finds_jump_pair {t t' : Nat} {o o' : Option (Int × Nat)}
    (hjump : p[x.address]? = some (.jump [t, t']))
    (h : Finds p.toArray [x.goto t] (report x o))
    (h' : Finds p.toArray [x.goto t'] (report x o')) :
    Finds p.toArray [x] (report x (o.or o')) := by
  refine .step (getElem?_toArray.trans hjump) rfl ?_
  change Finds p.toArray ([x.goto t] ++ [x.goto t']) _
  rw [report_or]
  cases hreport : report x o with
  | none =>
    rw [hreport] at h
    exact h.append_none h'
  | some m =>
    rw [hreport] at h
    exact h.append_some _

end Instructions

/-! ## Whole searches -/

/-- The code can be run: everything is at its place, and where the start does not accept its
switch goes on to the fallback. -/
structure Runs (code : Program) (a : Automaton) (own : Nat → Nat) (finish : Int → Nat)
    (otherwise : List Nat) : Prop extends Hosts code a own finish otherwise where
  /-- The start has edges. -/
  start_edges : (a.state a.start).edges ≠ []
  /-- The other target of the start is the fallback. -/
  falls : (a.state a.start).accepting = false → ∃ k, otherwise = [k] ∧ Falls code k

theorem live?_eq_none_of_terminal {i : Nat} (h : (a.state i).edges = []) (cp : Nat) :
    live? a i cp = none := by
  simp [live?, next?, h]

theorem outcome_of_terminal {i : Nat} (h : (a.state i).edges = []) (hi : i ≠ a.start)
    (w : List Char) : outcome a i w = stopAt a i := by
  cases w with
  | nil => rfl
  | cons c w => simp [outcome, live?_eq_none_of_terminal h, hi]

theorem reaches_of_live? (ha : a.Deterministic) {i j cp : Nat} (hi : a.Reaches a.start i)
    (h : live? a i cp = some j) : a.Reaches a.start j ∧ isLeftOut a j = false := by
  obtain ⟨hnext, hleft⟩ := Option.filter_eq_some_iff.mp h
  obtain ⟨e, he, -, rfl⟩ := ha.next?_eq_some_iff.mp hnext
  exact ⟨hi.edge he, by simpa using hleft⟩

theorem stopAt_of_accepting {i : Nat} {symbol : Int} (h : acceptOf a i = some symbol) :
    stopAt a i = some (symbol, 0) := by
  rw [stopAt, h]
  rfl

theorem stopAt_of_rejecting {i : Nat} (h : (a.state i).accepting = false) : stopAt a i = none := by
  simp [stopAt, acceptOf, h]

/-- No case of a state has the next character, or there is none. -/
def Blocked (a : Automaton) (i : Nat) (w : List Char) : Prop :=
  ∀ c ∈ w.head?, live? a i c.toNat = none

theorem blocked_or (a : Automaton) (i : Nat) (w : List Char) :
    Blocked a i w ∨ ∃ c w' j, w = c :: w' ∧ live? a i c.toNat = some j := by
  cases w with
  | nil => exact Or.inl (by simp [Blocked])
  | cons c w =>
    cases hlive : live? a i c.toNat with
    | none => exact Or.inl (by simpa [Blocked] using hlive)
    | some j => exact Or.inr ⟨c, w, j, rfl, hlive⟩

/-- A blocked state has its own symbol, and the start has the fallback after it. -/
theorem outcome_of_blocked {i : Nat} {w : List Char} (h : Blocked a i w) :
    outcome a i w = (stopAt a i).or
      (if i = a.start then w.head?.map fun _ => (errorSymbol, 1) else none) := by
  cases w with
  | nil => simp [outcome]
  | cons c w =>
    have hlive : live? a i c.toNat = none := h c rfl
    rw [outcome, hlive]
    by_cases hstart : i = a.start
    · simp only [hstart, if_true, List.head?_cons, Option.map_some]
    · simp only [hstart, if_false, Option.or_none]

theorem outcome_of_live {i j : Nat} {c : Char} {w : List Char}
    (h : live? a i c.toNat = some j) :
    outcome a i (c :: w) =
      ((outcome a j w).map fun p => (p.1, p.2 + 1)).or (stopAt a i) := by
  rw [outcome, h]

/-- A path that has taken one more character comes to an outcome that takes one more. -/
theorem report_consume (x : Config text) (t : Nat) (hlt : x.place.val < text.length)
    (o : Option (Int × Nat)) :
    report (past x t hlt) o = report x (o.map fun p => (p.1, p.2 + 1)) := by
  cases o with
  | none => rfl
  | some p => simp [report, past, Nat.add_assoc, Nat.add_comm 1]

theorem next?_eq_head? (x : Config text) : x.next? = (text.drop x.place).head? := by
  rw [Config.next?, List.head?_drop]

/-- Behind the next character a search comes to the outcome of the next state. -/
def FindsAfter (code : Program) (a : Automaton) (own : Nat → Nat) (i : Nat) (x : Config text) :
    Prop :=
  ∀ c w j, text.drop x.place = c :: w → live? a i c.toNat = some j →
    ∀ y : Config text, y.address = own j → y.place.val = x.place + 1 →
      Finds code.toArray [y] (report y (outcome a j w))

/-- A switch comes to what is found behind the next character. The switch may be that of `x` itself
or one to which control goes on from there. -/
theorem FindsAfter.switch {i j : Nat} {x : Config text} (h : FindsAfter code a own i x) {c : Char}
    {w : List Char} (hw : text.drop x.place = c :: w) (hlive : live? a i c.toNat = some j)
    {address : Nat} {cases : List Case} {others : List Nat}
    (hswitch : code[address]? = some (.switch cases others)) (hselects : Selects a own i cases) :
    Finds code.toArray [x.goto address]
      (report x ((outcome a j w).map fun p => (p.1, p.2 + 1))) := by
  have hlt : x.place.val < text.length := by
    by_contra hge
    rw [List.drop_eq_nil_of_le (by omega)] at hw
    cases hw
  have hnext : (x.goto address).next? = some c := by
    rw [next?_eq_head?]
    change (text.drop x.place).head? = some c
    rw [hw]
    rfl
  refine finds_switch_case (x := x.goto address) hswitch hselects hnext hlive hlt ?_
  rw [← report_consume x (own j) hlt]
  exact h c w j hw hlive _ rfl rfl

section State

variable (h : Runs code a own finish otherwise) {i : Nat} (hi : a.Reaches a.start i)
  {x : Config text} (hx : x.address = own i)

include h hi hx

/-- A state without edges that is not left out is the end of its symbol. -/
theorem Runs.finds_terminal (ha : a.Deterministic) (hs : a.Symbolled)
    (hleft : isLeftOut a i = false) (hedges : (a.state i).edges = []) (w : List Char) :
    Finds code.toArray [x] (report x (outcome a i w)) := by
  have hstart : i ≠ a.start := by
    rintro rfl
    exact h.start_edges hedges
  have hacc : (a.state i).accepting = true := by
    by_contra hacc
    rw [(isLeftOut_iff ha).mpr ⟨hedges, hstart, by simpa using hacc⟩] at hleft
    cases hleft
  obtain ⟨symbol, hsymbol⟩ := Option.isSome_iff_exists.mp (hs i hacc)
  have haccept := acceptOf_eq_some_iff.mpr ⟨hacc, hsymbol⟩
  obtain ⟨-, hsave, hend⟩ := h.ends i symbol hi haccept
  rw [outcome_of_terminal hedges hstart, stopAt_of_accepting haccept]
  rw [h.terminal i symbol hi hedges hstart haccept] at hx
  exact finds_end (hx ▸ hsave) (hx ▸ hend)

/-- A state with edges that does not accept goes through its switch; where there is no case, the
start goes on to the fallback. -/
theorem Runs.finds_rejecting (hedges : (a.state i).edges ≠ [])
    (hacc : (a.state i).accepting = false) (hafter : FindsAfter code a own i x) :
    Finds code.toArray [x] (report x (outcome a i (text.drop x.place))) := by
  obtain ⟨-, cases, hselects, hswitch⟩ := h.rejecting i hi hedges hacc
  rw [← hx] at hswitch
  rcases blocked_or a i (text.drop x.place) with hblocked | ⟨c, w, j, hw, hlive⟩
  · rw [outcome_of_blocked hblocked, stopAt_of_rejecting hacc, Option.none_or]
    refine finds_switch_otherwise hswitch hselects ?_ ?_
    · intro c hc
      exact hblocked c (by rw [← next?_eq_head?]; exact hc)
    · by_cases hstart : i = a.start
      · obtain ⟨k, rfl, hfalls⟩ := h.falls (hstart ▸ hacc)
        rw [if_pos hstart, if_pos hstart, ← next?_eq_head?]
        exact finds_fallback (x := x.goto k) hfalls
      · rw [if_neg hstart, if_neg hstart]
        exact .nil
  · rw [hw, outcome_of_live hlive, stopAt_of_rejecting hacc, Option.or_none]
    exact hafter.switch hw hlive hswitch hselects

/-- A state with edges that accepts prefers its switch to the end of its symbol. -/
theorem Runs.finds_accepting (hedges : (a.state i).edges ≠ []) {symbol : Int}
    (haccept : acceptOf a i = some symbol) (hafter : FindsAfter code a own i x) :
    Finds code.toArray [x] (report x (outcome a i (text.drop x.place))) := by
  obtain ⟨-, cases, hselects, hjump, hswitch⟩ := h.accepting i symbol hi hedges haccept
  obtain ⟨-, hsave, hend⟩ := h.ends i symbol hi haccept
  rw [← hx] at hjump hswitch
  have hfinish : Finds code.toArray [x.goto (finish symbol)] (report x (some (symbol, 0))) :=
    finds_end hsave hend
  rcases blocked_or a i (text.drop x.place) with hblocked | ⟨c, w, j, hw, hlive⟩
  · rw [outcome_of_blocked hblocked, stopAt_of_accepting haccept, Option.some_or]
    refine finds_jump_pair (o := none) hjump ?_ hfinish
    refine finds_switch_otherwise (x := x.goto (x.address + 1)) hswitch hselects ?_ .nil
    intro c hc
    exact hblocked c (by rw [← next?_eq_head?]; exact hc)
  · rw [hw, outcome_of_live hlive, stopAt_of_accepting haccept]
    exact finds_jump_pair hjump (hafter.switch hw hlive hswitch hselects) hfinish

/-- What a state does, once it is known what is found behind the next character. -/
theorem Runs.finds_state (ha : a.Deterministic) (hs : a.Symbolled) (hleft : isLeftOut a i = false)
    (hafter : FindsAfter code a own i x) :
    Finds code.toArray [x] (report x (outcome a i (text.drop x.place))) := by
  by_cases hedges : (a.state i).edges = []
  · exact h.finds_terminal hi hx ha hs hleft hedges _
  · cases hacc : (a.state i).accepting with
    | false => exact h.finds_rejecting hi hx hedges hacc hafter
    | true =>
      obtain ⟨symbol, hsymbol⟩ := Option.isSome_iff_exists.mp (hs i hacc)
      exact h.finds_accepting hi hx hedges (acceptOf_eq_some_iff.mpr ⟨hacc, hsymbol⟩) hafter

end State

/-- A search from the code of a state comes to the outcome of the state on what is left of the
text. -/
theorem Runs.finds (h : Runs code a own finish otherwise) (ha : a.Deterministic)
    (hs : a.Symbolled) {i : Nat} (hi : a.Reaches a.start i) (hleft : isLeftOut a i = false)
    (x : Config text) (hx : x.address = own i) :
    Finds code.toArray [x] (report x (outcome a i (text.drop x.place))) := by
  generalize hw : text.drop x.place = w
  induction w generalizing i x with
  | nil =>
    rw [← hw]
    refine h.finds_state hi hx ha hs hleft ?_
    intro c w j hcons
    rw [hw] at hcons
    cases hcons
  | cons c w ih =>
    rw [← hw]
    refine h.finds_state hi hx ha hs hleft ?_
    intro c' w' j hcons hlive y hy hplace
    rw [hw] at hcons
    obtain ⟨rfl, rfl⟩ := List.cons.inj hcons
    obtain ⟨hj, hjleft⟩ := reaches_of_live? ha hi hlive
    refine ih hj hjleft y hy ?_
    rw [hplace, ← List.drop_drop, hw]
    rfl

/-! ## The linked program -/

theorem falls_append (p : Program) : Falls (p ++ fallback) p.length := by
  refine ⟨?_, ?_, ?_⟩
  · simp [fallback]
  · simp [fallback]
  · simp [fallback]

theorem runs_of_accepting (ha : a.Deterministic) (hs : a.Symbolled)
    (hstart : (a.state a.start).edges ≠ []) (hacc : (a.state a.start).accepting = true) :
    Runs (linked [codeOf a]) a (ownOf a · + 2) ((layoutOf a).endOf · + 2) [] := by
  have hhosts := (hosts_codeOf ha hs).relocate [.save 0, .jump [2, 2 + (codeOf a).length]] fallback
  rw [linked_of_accepting ha hs hstart hacc, linkFragments_singleton]
  refine ⟨hhosts, hstart, fun hrejecting => ?_⟩
  rw [hacc] at hrejecting
  cases hrejecting

theorem runs_of_rejecting (ha : a.Deterministic) (hs : a.Symbolled)
    (hstart : (a.state a.start).edges ≠ []) (hacc : (a.state a.start).accepting = false) :
    Runs (linked [codeOf a]) a (ownOf a · + 1) ((layoutOf a).endOf · + 1)
      [(codeOf a).length + 1] := by
  obtain ⟨cases, more, hcode, hlinked⟩ := linked_of_rejecting ha hs hstart hacc
  have hhosts := hosts_codeOf ha hs
  rw [hcode] at hhosts
  have hset := hhosts.setOtherwise (ownOf_start ha.valid) hacc [(codeOf a).length]
  have hrelocated := hset.relocate [.save 0] fallback
  rw [hlinked]
  refine ⟨hrelocated, hstart, fun _ => ⟨_, rfl, ?_⟩⟩
  have hlen : ([.save 0] ++ relocate (.switch cases [(codeOf a).length] :: more) 1 :
      Program).length = (codeOf a).length + 1 := by
    rw [List.length_append, length_relocate, hcode]
    simp [Nat.add_comm]
  rw [← hlen]
  exact falls_append _

/-- What an accepting state finds is at least its own symbol. -/
theorem outcome_isSome {i : Nat} {symbol : Int} (h : acceptOf a i = some symbol)
    (w : List Char) : (outcome a i w).isSome = true := by
  rcases blocked_or a i w with hblocked | ⟨c, w, j, rfl, hlive⟩
  · rw [outcome_of_blocked hblocked, stopAt_of_accepting h]
    rfl
  · rw [outcome_of_live hlive, stopAt_of_accepting h]
    cases outcome a j w <;> rfl

/-- The first instruction records the beginning. -/
theorem finds_start {p : Program} {r : Option Match} (hsave : p[0]? = some (.save 0))
    (h : Finds p.toArray [(⟨1, 0, {}⟩ : Config text)] r) :
    Finds p.toArray [Backtrack.start text] r := by
  refine .step (getElem?_toArray.trans hsave) rfl ?_
  exact h

theorem isLeftOut_start (a : Automaton) : isLeftOut a a.start = false := by
  simp [isLeftOut, hasCode_start]

/-- A start without edges has its own symbol, or the fallback. -/
theorem finds_linked_of_terminal (ha : a.Deterministic) (hs : a.Symbolled)
    (hstart : (a.state a.start).edges = []) (text : List Char) :
    Finds (linked [codeOf a]).toArray [Backtrack.start text]
      (report (Backtrack.start text) (outcome a a.start text)) := by
  have hblocked : Blocked a a.start text := fun c _ => live?_eq_none_of_terminal hstart c.toNat
  rw [outcome_of_blocked hblocked, if_pos rfl, linked_of_terminal ha hs hstart]
  cases haccept : acceptOf a a.start with
  | some symbol =>
    rw [stopAt_of_accepting haccept, Option.some_or]
    refine finds_start rfl ?_
    exact finds_jump_pair (o := some (symbol, 0)) rfl (finds_end rfl rfl)
      (finds_fallback ⟨rfl, rfl, rfl⟩)
  | none =>
    rw [stopAt, haccept, Option.map_none]
    refine finds_start rfl ?_
    refine finds_jump_pair (o := none) rfl (.step rfl rfl .nil) ?_
    have hfallback := finds_fallback (p := [.save 0, .jump [2, 3], .jump []] ++ fallback)
      (x := (⟨3, 0, {}⟩ : Config text)) ⟨rfl, rfl, rfl⟩
    rw [next?_eq_head?] at hfallback
    exact hfallback

/-- A start that accepts always finds something, so that the fallback is never come to. -/
theorem finds_linked_of_accepting (ha : a.Deterministic) (hs : a.Symbolled)
    (hstart : (a.state a.start).edges ≠ []) (hacc : (a.state a.start).accepting = true)
    (text : List Char) :
    Finds (linked [codeOf a]).toArray [Backtrack.start text]
      (report (Backtrack.start text) (outcome a a.start text)) := by
  have hruns := runs_of_accepting ha hs hstart hacc
  obtain ⟨symbol, hsymbol⟩ := Option.isSome_iff_exists.mp (hs a.start hacc)
  obtain ⟨o, ho⟩ := Option.isSome_iff_exists.mp
    (outcome_isSome (acceptOf_eq_some_iff.mpr ⟨hacc, hsymbol⟩) text)
  have hmain : Finds (linked [codeOf a]).toArray [(⟨2, 0, {}⟩ : Config text)]
      (report (Backtrack.start text) (outcome a a.start text)) :=
    hruns.finds ha hs .refl (isLeftOut_start a) ⟨2, 0, {}⟩ (by rw [ownOf_start ha.valid])
  have hlinked := linked_of_accepting ha hs hstart hacc
  rw [linkFragments_singleton] at hlinked
  rw [ho] at hmain ⊢
  rw [hlinked] at hmain ⊢
  refine finds_start rfl ?_
  refine .step (getElem?_toArray.trans rfl) rfl ?_
  exact hmain.append_some _

theorem finds_linked_of_rejecting (ha : a.Deterministic) (hs : a.Symbolled)
    (hstart : (a.state a.start).edges ≠ []) (hacc : (a.state a.start).accepting = false)
    (text : List Char) :
    Finds (linked [codeOf a]).toArray [Backtrack.start text]
      (report (Backtrack.start text) (outcome a a.start text)) := by
  have hruns := runs_of_rejecting ha hs hstart hacc
  obtain ⟨cases, more, -, hlinked⟩ := linked_of_rejecting ha hs hstart hacc
  refine finds_start (by rw [hlinked]; rfl) ?_
  exact hruns.finds ha hs .refl (isLeftOut_start a) (⟨1, 0, {}⟩ : Config text)
    (by rw [ownOf_start ha.valid])

/-- A search through the improved program of an automaton comes to the outcome of the start. -/
theorem finds_linked (ha : a.Deterministic) (hs : a.Symbolled) (text : List Char) :
    Finds (linked [codeOf a]).toArray [Backtrack.start text]
      (report (Backtrack.start text) (outcome a a.start text)) := by
  by_cases hstart : (a.state a.start).edges = []
  · exact finds_linked_of_terminal ha hs hstart text
  · cases hacc : (a.state a.start).accepting with
    | true => exact finds_linked_of_accepting ha hs hstart hacc text
    | false => exact finds_linked_of_rejecting ha hs hstart hacc text

/-- Without rules only the fallback is found. -/
theorem finds_linked_nil (text : List Char) :
    Finds (linked []).toArray [Backtrack.start text]
      (report (Backtrack.start text) (text.head?.map fun _ => (errorSymbol, 1))) := by
  rw [linked_nil]
  refine finds_start rfl ?_
  have hfallback := finds_fallback (p := .save 0 :: fallback)
    (x := (⟨1, 0, {}⟩ : Config text)) ⟨rfl, rfl, rfl⟩
  rw [next?_eq_head?] at hfallback
  exact hfallback

end FiberLex.Program
