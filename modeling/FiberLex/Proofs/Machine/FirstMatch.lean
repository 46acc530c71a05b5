import FiberLex.Proofs.Machine.Backtrack

/-!
# Search without a memory

A search that comes to an end need not remember what it has entered: `Finds` describes it by rules,
without the set of entered pairs, and `search_eq_of_finds` says that the search of `Backtrack` comes
to the same. A pair that is met again was searched in vain before, and whether a search is in vain
does not depend on what has been recorded on the way. Nor is a pair met again while it is being
searched, as that search would go on for ever.
-/

namespace FiberLex.Backtrack

variable {text : List Char} {code : Array Instr}

/-- The first match that the configurations of a stack come to, or that there is none. -/
inductive Finds (code : Array Instr) : List (Config text) → Option Match → Prop where
  /-- Nothing is left to try. -/
  | nil : Finds code [] none
  /-- The path has left the program. -/
  | outside {x : Config text} {rest : List (Config text)} {r : Option Match}
      (hx : code[x.address]? = none) (hr : Finds code rest r) : Finds code (x :: rest) r
  /-- The path has come to a match. -/
  | found {x : Config text} {rest : List (Config text)} {i : Instr} {m : Match}
      (hx : code[x.address]? = some i) (hm : found? i x = some m) :
      Finds code (x :: rest) (some m)
  /-- The path goes on. -/
  | step {x : Config text} {rest : List (Config text)} {i : Instr} {r : Option Match}
      (hx : code[x.address]? = some i) (hm : found? i x = none)
      (hr : Finds code (successors i x ++ rest) r) : Finds code (x :: rest) r

namespace Finds

/-- A stack comes to one result only. -/
theorem unique {stack : List (Config text)} {r r' : Option Match} (h : Finds code stack r)
    (h' : Finds code stack r') : r = r' := by
  induction h with
  | nil =>
    cases h'
    rfl
  | outside hx _ ih =>
    cases h' with
    | outside _ hr => exact ih hr
    | found hx' _ => simp [hx] at hx'
    | step hx' _ _ => simp [hx] at hx'
  | found hx hm =>
    cases h' with
    | outside hx' _ => simp [hx] at hx'
    | found hx' hm' =>
      obtain rfl : _ = _ := Option.some.inj (hx.symm.trans hx')
      rw [← hm, hm']
    | step hx' hm' _ =>
      obtain rfl : _ = _ := Option.some.inj (hx.symm.trans hx')
      simp [hm] at hm'
  | step hx hm _ ih =>
    cases h' with
    | outside hx' _ => simp [hx] at hx'
    | found hx' hm' =>
      obtain rfl : _ = _ := Option.some.inj (hx.symm.trans hx')
      simp [hm] at hm'
    | step hx' _ hr =>
      obtain rfl : _ = _ := Option.some.inj (hx.symm.trans hx')
      exact ih hr

/-- A match on the first of two stacks ends the search. -/
theorem append_some {xs : List (Config text)} {m : Match} (h : Finds code xs (some m))
    (ys : List (Config text)) : Finds code (xs ++ ys) (some m) := by
  generalize hr : some m = r at h
  induction h with
  | nil => cases hr
  | outside hx _ ih => exact .outside hx (ih hr)
  | found hx hm => exact .found hx hm
  | step hx hm _ ih =>
    rw [List.cons_append]
    refine .step hx hm ?_
    rw [← List.append_assoc]
    exact ih hr

/-- After a first stack in vain the search comes to the second. -/
theorem append_none {xs ys : List (Config text)} {r : Option Match} (h : Finds code xs none)
    (hy : Finds code ys r) : Finds code (xs ++ ys) r := by
  generalize hr : none = r' at h
  induction h with
  | nil => exact hy
  | outside hx _ ih => exact .outside hx (ih hr)
  | found _ _ => cases hr
  | step hx hm _ ih =>
    rw [List.cons_append]
    refine .step hx hm ?_
    rw [← List.append_assoc]
    exact ih hr

/-- A search over two stacks ends in the first, or goes through it in vain. -/
theorem split {xs ys : List (Config text)} {r : Option Match} (h : Finds code (xs ++ ys) r) :
    (∃ m, r = some m ∧ Finds code xs (some m)) ∨ (Finds code xs none ∧ Finds code ys r) := by
  generalize hs : xs ++ ys = stack at h
  induction h generalizing xs with
  | nil =>
    obtain ⟨rfl, rfl⟩ := List.append_eq_nil_iff.mp hs
    exact Or.inr ⟨.nil, .nil⟩
  | @outside x rest r hx hr ih =>
    cases xs with
    | nil =>
      refine Or.inr ⟨.nil, ?_⟩
      rw [List.nil_append] at hs
      exact hs ▸ .outside hx hr
    | cons y xs =>
      obtain ⟨rfl, hs'⟩ := List.cons.inj hs
      rcases ih hs' with ⟨m, hm, hxs⟩ | ⟨hxs, hys⟩
      · exact Or.inl ⟨m, hm, .outside hx hxs⟩
      · exact Or.inr ⟨.outside hx hxs, hys⟩
  | @found x rest i m hx hm =>
    cases xs with
    | nil =>
      refine Or.inr ⟨.nil, ?_⟩
      rw [List.nil_append] at hs
      exact hs ▸ .found hx hm
    | cons y xs =>
      obtain ⟨rfl, -⟩ := List.cons.inj hs
      exact Or.inl ⟨m, rfl, .found hx hm⟩
  | @step x rest i r hx hm hr ih =>
    cases xs with
    | nil =>
      refine Or.inr ⟨.nil, ?_⟩
      rw [List.nil_append] at hs
      exact hs ▸ .step hx hm hr
    | cons y xs =>
      obtain ⟨rfl, rfl⟩ := List.cons.inj hs
      rcases ih (List.append_assoc ..) with ⟨m, hm', hxs⟩ | ⟨hxs, hys⟩
      · exact Or.inl ⟨m, hm', .step hx hm hxs⟩
      · exact Or.inr ⟨.step hx hm hxs, hys⟩

/-- What is left to search after an instruction that comes to no match. -/
theorem of_step {x : Config text} {rest : List (Config text)} {i : Instr} {r : Option Match}
    (h : Finds code (x :: rest) r) (hx : code[x.address]? = some i) (hm : found? i x = none) :
    Finds code (successors i x ++ rest) r := by
  cases h with
  | outside hx' _ => simp [hx] at hx'
  | found hx' hm' =>
    obtain rfl := Option.some.inj (hx.symm.trans hx')
    simp [hm] at hm'
  | step hx' _ hr =>
    obtain rfl := Option.some.inj (hx.symm.trans hx')
    exact hr

/-- What is left to search after a path that has left the program. -/
theorem of_outside {x : Config text} {rest : List (Config text)} {r : Option Match}
    (h : Finds code (x :: rest) r) (hx : code[x.address]? = none) : Finds code rest r := by
  cases h with
  | outside _ hr => exact hr
  | found hx' _ => simp [hx] at hx'
  | step hx' _ _ => simp [hx] at hx'

/-- What is left to search after a path that comes to nothing. -/
theorem of_vain {x : Config text} {rest : List (Config text)} {r : Option Match}
    (h : Finds code (x :: rest) r) (hx : Finds code [x] none) : Finds code rest r := by
  have hsplit : Finds code ([x] ++ rest) r := h
  rcases hsplit.split with ⟨m, -, hfound⟩ | ⟨-, hr⟩
  · cases hx.unique hfound
  · exact hr

/-- If a stack is searched in vain, so is every configuration of it. -/
theorem of_mem {xs : List (Config text)} {x : Config text} (h : Finds code xs none)
    (hx : x ∈ xs) : Finds code [x] none := by
  obtain ⟨before, after, rfl⟩ := List.append_of_mem hx
  rcases h.split with ⟨m, hm, -⟩ | ⟨-, hrest⟩
  · cases hm
  · have hsplit : Finds code ([x] ++ after) none := hrest
    rcases hsplit.split with ⟨m, hm, -⟩ | ⟨hvain, -⟩
    · cases hm
    · exact hvain

end Finds

/-! ## What has been recorded -/

/-- The address and the place of a configuration. -/
def Config.key (x : Config text) : Nat × Fin (text.length + 1) := (x.address, x.place)

/-- Where a path goes does not depend on what has been recorded. -/
theorem map_key_successors {x y : Config text} (h : x.key = y.key) (i : Instr) :
    (successors i x).map Config.key = (successors i y).map Config.key := by
  obtain ⟨a, k, s⟩ := x
  obtain ⟨b, l, t⟩ := y
  obtain ⟨rfl, rfl⟩ : a = b ∧ k = l := by simpa [Config.key] using h
  have hconsume : ∀ target, ((⟨a, k, s⟩ : Config text).consumeTo target).map Config.key =
      ((⟨a, k, t⟩ : Config text).consumeTo target).map Config.key := by
    intro target
    by_cases hk : k.val < text.length
    · simp [Config.consumeTo, hk, Config.key]
    · simp [Config.consumeTo, hk]
  have hgoto : ∀ targets : List Nat, (targets.map (⟨a, k, s⟩ : Config text).goto).map Config.key =
      (targets.map (⟨a, k, t⟩ : Config text).goto).map Config.key := by
    intro targets
    simp [Config.goto, Config.key]
  cases i with
  | jump targets => exact hgoto targets
  | save slot => simp [successors, Config.key]
  | switch cases otherwise =>
    simp only [successors, Config.next?]
    split
    · exact hconsume _
    · exact hgoto otherwise
  | accept symbol => rfl
  | _ =>
    simp only [successors]
    rw [apply_ite (List.map Config.key), apply_ite (List.map Config.key), hconsume]
    rfl

theorem found?_eq_none_iff_of_key {x y : Config text} {i : Instr} :
    found? i x = none ↔ found? i y = none := by
  cases i <;> simp [found?]

/-- Whether a search is in vain does not depend on what has been recorded. -/
theorem Finds.none_of_key {xs ys : List (Config text)} (h : Finds code xs none)
    (hkey : xs.map Config.key = ys.map Config.key) : Finds code ys none := by
  generalize hr : none = r at h
  induction h generalizing ys with
  | nil =>
    obtain rfl : ys = [] := by simpa using hkey.symm
    exact .nil
  | @outside x rest r hx _ ih =>
    cases ys with
    | nil => simp at hkey
    | cons y ys =>
      obtain ⟨hxy, hrest⟩ := List.cons.inj hkey
      have haddr : x.address = y.address := congrArg Prod.fst hxy
      exact .outside (haddr ▸ hx) (ih hrest hr)
  | found _ _ => cases hr
  | @step x rest i r hx hm _ ih =>
    cases ys with
    | nil => simp at hkey
    | cons y ys =>
      obtain ⟨hxy, hrest⟩ := List.cons.inj hkey
      have haddr : x.address = y.address := congrArg Prod.fst hxy
      refine .step (haddr ▸ hx) (found?_eq_none_iff_of_key.mp hm) (ih ?_ hr)
      rw [List.map_append, List.map_append, map_key_successors hxy, hrest]

/-! ## How long a search lasts -/

/-- The search of a stack, in which nothing is remembered, takes so many configurations. -/
inductive Lasts (code : Array Instr) : List (Config text) → Nat → Prop where
  /-- Nothing is left to try. -/
  | nil : Lasts code [] 0
  /-- The path has left the program. -/
  | outside {x : Config text} {rest : List (Config text)} {n : Nat}
      (hx : code[x.address]? = none) (hn : Lasts code rest n) : Lasts code (x :: rest) (n + 1)
  /-- The path has come to a match. -/
  | found {x : Config text} {rest : List (Config text)} {i : Instr} {m : Match}
      (hx : code[x.address]? = some i) (hm : found? i x = some m) : Lasts code (x :: rest) 1
  /-- The path goes on. -/
  | step {x : Config text} {rest : List (Config text)} {i : Instr} {n : Nat}
      (hx : code[x.address]? = some i) (hm : found? i x = none)
      (hn : Lasts code (successors i x ++ rest) n) : Lasts code (x :: rest) (n + 1)

/-- A search that comes to a result takes finitely many configurations. -/
theorem Finds.exists_lasts {stack : List (Config text)} {r : Option Match}
    (h : Finds code stack r) : ∃ n, Lasts code stack n := by
  induction h with
  | nil => exact ⟨0, .nil⟩
  | outside hx _ ih =>
    obtain ⟨n, hn⟩ := ih
    exact ⟨n + 1, .outside hx hn⟩
  | found hx hm => exact ⟨1, .found hx hm⟩
  | step hx hm _ ih =>
    obtain ⟨n, hn⟩ := ih
    exact ⟨n + 1, .step hx hm hn⟩

namespace Lasts

/-- How long a search lasts does not depend on what has been recorded. -/
theorem unique_of_key {xs ys : List (Config text)} {n n' : Nat} (h : Lasts code xs n)
    (h' : Lasts code ys n') (hkey : xs.map Config.key = ys.map Config.key) : n = n' := by
  induction h generalizing ys n' with
  | nil =>
    obtain rfl : ys = [] := by simpa using hkey.symm
    cases h'
    rfl
  | @outside x rest n hx _ ih =>
    obtain ⟨y, ys, rfl, hxy, hrest⟩ := List.map_eq_cons_iff.mp hkey.symm
    have haddress : x.address = y.address := (congrArg Prod.fst hxy).symm
    rw [haddress] at hx
    cases h' with
    | outside _ hn => rw [ih hn hrest.symm]
    | found hy _ => simp [hx] at hy
    | step hy _ _ => simp [hx] at hy
  | @found x rest i m hx hm =>
    obtain ⟨y, ys, rfl, hxy, hrest⟩ := List.map_eq_cons_iff.mp hkey.symm
    have haddress : x.address = y.address := (congrArg Prod.fst hxy).symm
    rw [haddress] at hx
    cases h' with
    | outside hy _ => simp [hx] at hy
    | found _ _ => rfl
    | step hy hm' _ =>
      obtain rfl := Option.some.inj (hx.symm.trans hy)
      rw [found?_eq_none_iff_of_key (y := x)] at hm'
      simp [hm] at hm'
  | @step x rest i n hx hm _ ih =>
    obtain ⟨y, ys, rfl, hxy, hrest⟩ := List.map_eq_cons_iff.mp hkey.symm
    have haddress : x.address = y.address := (congrArg Prod.fst hxy).symm
    rw [haddress] at hx
    cases h' with
    | outside hy _ => simp [hx] at hy
    | found hy hm' =>
      obtain rfl := Option.some.inj (hx.symm.trans hy)
      rw [found?_eq_none_iff_of_key (y := y)] at hm
      simp [hm] at hm'
    | step hy _ hn =>
      obtain rfl := Option.some.inj (hx.symm.trans hy)
      rw [ih hn]
      rw [List.map_append, List.map_append, map_key_successors hxy, hrest]

theorem pos {x : Config text} {rest : List (Config text)} {n : Nat}
    (h : Lasts code (x :: rest) n) : 0 < n := by
  cases h <;> exact Nat.succ_pos _

/-- The search goes on for one configuration less after an instruction that comes to no match. -/
theorem of_step {x : Config text} {rest : List (Config text)} {i : Instr} {n : Nat}
    (h : Lasts code (x :: rest) n) (hx : code[x.address]? = some i) (hm : found? i x = none) :
    ∃ k, n = k + 1 ∧ Lasts code (successors i x ++ rest) k := by
  cases h with
  | outside hx' _ => simp [hx] at hx'
  | found hx' hm' =>
    obtain rfl := Option.some.inj (hx.symm.trans hx')
    simp [hm] at hm'
  | step hx' _ hn =>
    obtain rfl := Option.some.inj (hx.symm.trans hx')
    exact ⟨_, rfl, hn⟩

/-- The search of two stacks lasts as long as that of the first, and if that is in vain as long as
both together. -/
theorem split {xs ys : List (Config text)} {n : Nat} (h : Lasts code (xs ++ ys) n) :
    ∃ k ≤ n, Lasts code xs k ∧ (Finds code xs none → ∃ l, n = k + l ∧ Lasts code ys l) := by
  generalize hs : xs ++ ys = stack at h
  induction h generalizing xs with
  | nil =>
    obtain ⟨rfl, rfl⟩ := List.append_eq_nil_iff.mp hs
    exact ⟨0, Nat.le_refl 0, .nil, fun _ => ⟨0, rfl, .nil⟩⟩
  | @outside x rest n hx hn ih =>
    cases xs with
    | nil =>
      obtain rfl : ys = x :: rest := hs
      exact ⟨0, Nat.zero_le _, .nil, fun _ => ⟨n + 1, by omega, .outside hx hn⟩⟩
    | cons y xs =>
      obtain ⟨rfl, hs'⟩ := List.cons.inj hs
      obtain ⟨k, hk, hxs, hys⟩ := ih hs'
      refine ⟨k + 1, by omega, .outside hx hxs, fun hvain => ?_⟩
      obtain ⟨l, rfl, hl⟩ := hys (hvain.of_outside hx)
      exact ⟨l, by omega, hl⟩
  | @found x rest i m hx hm =>
    cases xs with
    | nil =>
      obtain rfl : ys = x :: rest := hs
      exact ⟨0, Nat.zero_le _, .nil, fun _ => ⟨1, rfl, .found hx hm⟩⟩
    | cons y xs =>
      obtain ⟨rfl, -⟩ := List.cons.inj hs
      refine ⟨1, Nat.le_refl 1, .found hx hm, fun hvain => ?_⟩
      cases hvain.unique (.found hx hm)
  | @step x rest i n hx hm hn ih =>
    cases xs with
    | nil =>
      obtain rfl : ys = x :: rest := hs
      exact ⟨0, Nat.zero_le _, .nil, fun _ => ⟨n + 1, by omega, .step hx hm hn⟩⟩
    | cons y xs =>
      obtain ⟨rfl, rfl⟩ := List.cons.inj hs
      obtain ⟨k, hk, hxs, hys⟩ := ih (List.append_assoc ..)
      refine ⟨k + 1, by omega, .step hx hm hxs, fun hvain => ?_⟩
      obtain ⟨l, rfl, hl⟩ := hys (hvain.of_step hx hm)
      exact ⟨l, by omega, hl⟩

end Lasts

/-! ## What has been entered -/

/-- A pair from which every search is in vain. -/
def Vain (code : Array Instr) (p : Nat × Fin (text.length + 1)) : Prop :=
  ∀ x : Config text, x.key = p → Finds code [x] none

theorem vain_of_finds {x : Config text} (h : Finds code [x] none) : Vain code x.key := by
  intro y hy
  exact h.none_of_key (by simp [hy])

/-- The pair of address and place that an entry stands for. -/
def entryKey (p : Fin code.size × Fin (text.length + 1)) : Nat × Fin (text.length + 1) :=
  (p.1.val, p.2)

/-- Every search from the pair takes more than so many configurations. -/
def Outlasts (code : Array Instr) (n : Nat) (p : Nat × Fin (text.length + 1)) : Prop :=
  ∀ x : Config text, x.key = p → ∀ k, Lasts code [x] k → n < k

theorem Outlasts.mono {n n' : Nat} {p : Nat × Fin (text.length + 1)} (h : Outlasts code n p)
    (hle : n' ≤ n) : Outlasts code n' p := fun x hx k hk => Nat.lt_of_le_of_lt hle (h x hx k hk)

/-- Everything that has been entered is vain, or was entered on the way to a stack that takes so many
configurations, and outlasts it. -/
def Harmless (n : Nat) (e : Entered code text) : Prop :=
  ∀ p ∈ e, Vain code (entryKey p) ∨ Outlasts code n (entryKey p)

namespace Harmless

variable {n n' : Nat} {e e' : Entered code text}

/-- What has been entered in vain since does no harm. -/
theorem of_vain (h : Harmless n e) (he : ∀ p ∈ e', p ∈ e ∨ Vain code (entryKey p))
    (hle : n' ≤ n) : Harmless n' e' := by
  intro p hp
  rcases he p hp with hp | hp
  · exact (h p hp).imp_right fun houtlasts => houtlasts.mono hle
  · exact Or.inl hp

/-- The search from a configuration outlasts the search of what follows it. -/
theorem insert (h : Harmless n e) {x : Config text} (hx : x.address < code.size)
    (hn : Lasts code [x] (n' + 1)) (hle : n' ≤ n) :
    Harmless n' (insert (⟨x.address, hx⟩, x.place) e) := by
  intro p hp
  rcases Finset.mem_insert.mp hp with rfl | hp
  · refine Or.inr fun y hy k hk => ?_
    have hkey : [x].map Config.key = [y].map Config.key := congrArg ([·]) hy.symm
    have := hn.unique_of_key hk hkey
    omega
  · exact h.of_vain (fun _ => Or.inl) hle p hp

end Harmless

/-- Exploring a stack comes to what the rules say if what has been entered before does no harm.
Whatever is entered in vain is vain. -/
theorem explore_of_finds {n : Nat} {stack : List (Config text)} {e : Entered code text}
    {r : Option Match} (hn : Lasts code stack n) (he : Harmless n e) (h : Finds code stack r) :
    (explore code e stack).1 = r ∧
      (r = none → ∀ p ∈ (explore code e stack).2, p ∈ e ∨ Vain code (entryKey p)) := by
  induction n using Nat.strong_induction_on generalizing stack e r with
  | _ n ih =>
  cases stack with
  | nil =>
    cases h
    rw [explore]
    exact ⟨rfl, fun _ p hp => Or.inl hp⟩
  | cons x rest =>
    have hsplit : Lasts code ([x] ++ rest) n := hn
    obtain ⟨k, hk, hx, hrest⟩ := hsplit.split
    -- the rest of the stack, once the configuration on its top has been searched in vain
    have hgo : Finds code [x] none → ∀ e' : Entered code text,
        (∀ p ∈ e', p ∈ e ∨ Vain code (entryKey p)) →
        (explore code e' rest).1 = r ∧ (r = none → ∀ p ∈ (explore code e' rest).2,
          p ∈ e ∨ Vain code (entryKey p)) := by
      intro hvain e' he'
      obtain ⟨l, rfl, hl⟩ := hrest hvain
      have hpos := hx.pos
      obtain ⟨hfound, hentered⟩ :=
        ih l (by omega) hl (he.of_vain he' (by omega)) (h.of_vain hvain)
      refine ⟨hfound, fun hnone p hp => ?_⟩
      rcases hentered hnone p hp with hp | hp
      · exact he' p hp
      · exact Or.inr hp
    by_cases hlt : x.address < code.size
    · have hcode : code[x.address]? = some code[x.address] := Array.getElem?_eq_getElem hlt
      by_cases hnew : (⟨x.address, hlt⟩, x.place) ∉ e
      · cases hm : found? code[x.address] x with
        | some m =>
          obtain rfl : r = some m := h.unique (.found hcode hm)
          rw [explore_found hlt hnew hm]
          exact ⟨rfl, fun hr => by cases hr⟩
        | none =>
          obtain ⟨k, rfl, hsucc⟩ := hx.of_step hcode hm
          rw [List.append_nil] at hsucc
          have he₁ := he.insert hlt hx (Nat.le_of_succ_le hk)
          rw [explore_step hlt hnew hm]
          rcases (h.of_step hcode hm).split with ⟨m, rfl, hs⟩ | ⟨hs, -⟩
          · obtain ⟨hfound, -⟩ := ih k (by omega) hsucc he₁ hs
            exact ⟨explore_append_of_some hfound rest, fun hr => by cases hr⟩
          · obtain ⟨hfound, hentered⟩ := ih k (by omega) hsucc he₁ hs
            have hvain : Finds code [x] none := .step hcode hm (by rwa [List.append_nil])
            rw [explore_append_of_none hfound]
            refine hgo hvain _ fun p hp => ?_
            rcases hentered rfl p hp with hp | hp
            · rcases Finset.mem_insert.mp hp with rfl | hp
              · exact Or.inr (vain_of_finds hvain)
              · exact Or.inl hp
            · exact Or.inr hp
      · rw [explore_entered hlt (not_not.mp hnew)]
        refine hgo ?_ e fun p hp => Or.inl hp
        rcases he _ (not_not.mp hnew) with hvain | houtlasts
        · exact hvain x rfl
        · exact absurd (houtlasts x rfl k hx) (by omega)
    · rw [explore_outside hlt]
      have hcode : code[x.address]? = none := Array.getElem?_eq_none (by omega)
      exact hgo (.outside hcode .nil) e fun p hp => Or.inl hp

/-- A search from the beginning comes to what the rules without a memory say, if they say
anything. -/
theorem search_eq_of_finds {p : Program} {r : Option Match} (h : Finds p.toArray [start text] r) :
    search p text = r := by
  obtain ⟨n, hn⟩ := h.exists_lasts
  have hnothing : Harmless n (∅ : Entered p.toArray text) := by simp [Harmless]
  exact (explore_of_finds hn hnothing h).1

end FiberLex.Backtrack
