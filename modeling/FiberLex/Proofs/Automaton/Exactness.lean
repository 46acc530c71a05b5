import FiberLex.Proofs.Automaton.OfPattern
import FiberLex.Proofs.Pattern.Denotation

/-!
# Which patterns have automata

A pattern has an automaton unless one of its repetitions is lazy or has its bounds out of order.
The automaton accepts the texts of the pattern, and every accepting state that can be reached
carries the symbol it was asked for (`Carries`), also one that no text leads to.
-/

namespace FiberLex.Automaton

variable {a c part : Automaton} {last : Nat} {f : Nat → Nat} {symbol : Option Int}

/-- Every accepting state that can be reached has the symbol. -/
def Carries (a : Automaton) (symbol : Option Int) : Prop :=
  ∀ i, a.Reaches a.start i → (a.state i).accepting = true → (a.state i).symbol = symbol

/-! ## Symbols of composed automata -/

/-- A state of a copy whose accepting states forward to `last`. -/
def InCopy (c : Automaton) (last x : Nat) : Prop :=
  ∃ (part : Automaton) (f : Nat → Nat) (i : Nat),
    Continues part part.start f c last ∧ part.Reaches part.start i ∧ f i = x

theorem InCopy.accepting_eq {x : Nat} (h : InCopy c last x) : (c.state x).accepting = false := by
  obtain ⟨part, f, i, hcontinues, hi, rfl⟩ := h
  exact hcontinues.accepting_eq hi

/-- From a copy one only gets to other states of the copy and to the last state. -/
theorem InCopy.successor {x y : Nat} (h : InCopy c last x) (hy : y ∈ (c.state x).successors) :
    y = last ∨ InCopy c last y := by
  obtain ⟨part, f, i, hcontinues, hi, rfl⟩ := h
  rcases List.mem_append.mp hy with hy | hy
  · obtain ⟨e, he, rfl⟩ := List.mem_map.mp hy
    obtain ⟨e', he', rfl⟩ := (hcontinues.mem_edges_iff hi).mp he
    exact Or.inr ⟨part, f, e'.target, hcontinues, hi.edge he', rfl⟩
  · rcases (hcontinues.mem_epsilons_iff hi).mp hy with ⟨k, hk, rfl⟩ | ⟨-, rfl⟩
    · exact Or.inr ⟨part, f, k, hcontinues, hi.epsilon hk, rfl⟩
    · exact Or.inl rfl

/-- Copies between a start and a last state leave only the last state accepting. -/
theorem carries_of_copies (last : Nat) (hacc : (c.state c.start).accepting = false)
    (hstart : ∀ x ∈ (c.state c.start).successors, x = last ∨ InCopy c last x)
    (hlast : ∀ x ∈ (c.state last).successors, x = c.start)
    (hsymbol : (c.state last).symbol = symbol) : c.Carries symbol := by
  have hreach : ∀ x, c.Reaches c.start x → x = c.start ∨ x = last ∨ InCopy c last x := by
    intro x hx
    induction hx with
    | refl => exact Or.inl rfl
    | tail _ hstep ih =>
      rcases ih with rfl | rfl | hcopy
      · exact Or.inr (hstart _ hstep)
      · exact Or.inl (hlast _ hstep)
      · exact Or.inr (hcopy.successor hstep)
  intro x hx haccept
  rcases hreach x hx with rfl | rfl | hcopy
  · rw [hacc] at haccept
    cases haccept
  · exact hsymbol
  · rw [hcopy.accepting_eq] at haccept
    cases haccept

theorem Loop.carries {skip again : Bool} (h : Loop part symbol skip again f last c) :
    c.Carries symbol := by
  refine carries_of_copies last h.start_accepting ?_ ?_ h.last_symbol
  · intro x hx
    rw [State.successors, h.start_edges, List.map_nil, List.nil_append, h.start_epsilons] at hx
    rcases hx with rfl | ⟨-, rfl⟩
    · exact Or.inr ⟨part, f, part.start, h.continues, .refl, rfl⟩
    · exact Or.inl rfl
  · intro x hx
    rw [State.successors, h.last_edges, List.map_nil, List.nil_append, h.last_epsilons] at hx
    exact hx.2

theorem carries_choice {parts : List Automaton} (h : ∀ p ∈ parts, p.Valid) (hne : parts ≠ [])
    (symbol : Option Int) : (choice parts symbol).Carries symbol := by
  have hbranches := branches_addBranches h
  rw [choice_eq_joinEnds h hne]
  generalize (new.addBranches parts).1 = c at hbranches
  generalize (new.addBranches parts).2 = ends at hbranches
  have hstart := hbranches.state_start_joinEnds symbol
  have hlast := state_joinEnds_last hbranches.ends_accepting symbol
  refine carries_of_copies c.states.size ?_ ?_ ?_ ?_
  · rw [start_joinEnds, hstart, hbranches.start_accepting]
  · intro x hx
    rw [start_joinEnds, hstart, State.successors, hbranches.start_edges, List.map_nil,
      List.nil_append] at hx
    obtain ⟨p, -, f, hf, rfl⟩ := hbranches.epsilon x hx
    exact Or.inr
      ⟨p, f, p.start, hf.continues_joinEnds hbranches.ends_accepting symbol, .refl, rfl⟩
  · intro x hx
    rw [hlast] at hx
    cases hx
  · rw [hlast]

theorem carries_ofCodePoints (cps : List Nat) (symbol : Option Int) :
    (ofCodePoints cps symbol).Carries symbol := by
  intro i _ hacc
  rw [state_ofCodePoints] at hacc ⊢
  split at hacc
  · cases hacc
  · rename_i hlt
    split at hacc
    · rename_i heq
      rw [dif_neg hlt, if_pos heq]
    · cases hacc

theorem carries_ofSet (set : CodeSet) (symbol : Option Int) :
    (ofSet set symbol).Carries symbol := by
  intro i hi hacc
  have hlt : i < 2 := hi.lt_size (recognizes_ofSet set symbol).valid (by simp [ofSet])
  have hcases : i = 0 ∨ i = 1 := by omega
  rcases hcases with rfl | rfl
  · cases hacc
  · rfl

theorem carries_setSymbol (ha : a.Valid) (symbol : Option Int) :
    (a.setSymbol symbol).Carries symbol := fun _ hi hacc => symbol_setSymbol ha symbol hi hacc

theorem carries_concat {parts : List Automaton} (h : ∀ p ∈ parts, p.Valid)
    (symbol : Option Int) : (concat parts symbol).Carries symbol := by
  cases parts with
  | nil =>
    intro i hi _
    have hlt : i < 1 := hi.lt_size (recognizes_empty symbol).valid (by simp [concat, empty])
    obtain rfl : i = 0 := by omega
    rfl
  | cons first rest =>
    obtain ⟨hfirst, hrest⟩ := List.forall_mem_cons.mp h
    exact carries_setSymbol (texts_foldl_append hfirst.compact hrest).1 symbol

/-! ## Repetitions -/

theorem repeated_upperBound (part : Automaton) (min : Nat) (max : Option Nat)
    (symbol : Option Int) :
    part.repeated min (Pattern.upperBound min max) symbol = part.repeated min max symbol := by
  by_cases hzero : min = 0 ∧ max = some 0
  · obtain ⟨rfl, rfl⟩ := hzero
    rfl
  · rw [Pattern.upperBound, if_neg hzero]

/-- A repetition is refused exactly if its least count exceeds its greatest. -/
theorem repeated_eq_error_iff {min : Nat} {max : Option Nat} {e : BuildError} :
    part.repeated min max symbol = .error e ↔
      ∃ m, max = some m ∧ m < min ∧ e = .invalidBounds min m := by
  constructor
  · intro h
    unfold repeated at h
    split at h <;> try cases h
    rename_i m _ _ _
    split at h
    · cases h
      exact ⟨m, rfl, by assumption, rfl⟩
    · cases h
  · rintro ⟨m, rfl, hlt, rfl⟩
    unfold repeated
    split
    · rename_i heq
      cases heq
    · omega
    · omega
    · rename_i heq
      cases heq
    · rename_i heq
      cases heq
      omega
    · rename_i heq
      cases heq
    · rename_i heq
      cases heq
      rw [if_pos hlt]

theorem carries_repeated (hp : part.Valid) {min : Nat} {max : Option Nat}
    (h : part.repeated min max symbol = .ok a) : a.Carries symbol := by
  obtain ⟨f, hloop⟩ := loop_enclosed hp symbol
  have hstar := (recognizes_star hp none).valid
  have hoptional := (recognizes_optional hp none).valid
  unfold repeated at h
  split at h
  · cases h
    exact hloop.addSkip.addAgain.carries
  · cases h
    exact hloop.addSkip.addAgain.carries
  · cases h
    exact hloop.addSkip.carries
  · cases h
    exact hloop.addAgain.carries
  · cases h
    exact carries_setSymbol hp.compact symbol
  · cases h
    refine carries_concat (fun p hmem => ?_) symbol
    rcases List.mem_append.mp hmem with hmem | hmem
    · exact List.eq_of_mem_replicate hmem ▸ hp
    · exact List.mem_singleton.mp hmem ▸ hstar
  · split at h
    · cases h
    · cases h
      refine carries_concat (fun p hmem => ?_) symbol
      rcases List.mem_append.mp hmem with hmem | hmem
      · exact List.eq_of_mem_replicate hmem ▸ hp
      · exact List.eq_of_mem_replicate hmem ▸ hoptional

/-! ## Several patterns -/

theorem exists_of_ofPatterns_eq_error {ps : List Pattern} {e : BuildError}
    (h : ofPatterns ps = .error e) : ∃ p ∈ ps, ofPattern p none = .error e := by
  induction ps with
  | nil =>
    rw [ofPatterns] at h
    cases h
  | cons p ps ih =>
    rw [ofPatterns] at h
    rcases Scan.bind_eq_error.mp h with hp | ⟨part, -, h⟩
    · exact ⟨p, List.mem_cons_self, hp⟩
    · rcases Scan.bind_eq_error.mp h with hps | ⟨parts, -, h⟩
      · obtain ⟨q, hq, herror⟩ := ih hps
        exact ⟨q, List.mem_cons_of_mem _ hq, herror⟩
      · cases h

theorem exists_ofPatterns_eq_error {ps : List Pattern} {p : Pattern} (hp : p ∈ ps)
    (h : ∃ e, ofPattern p none = .error e) : ∃ e, ofPatterns ps = .error e := by
  cases hps : ofPatterns ps with
  | error e => exact ⟨e, rfl⟩
  | ok parts =>
    exfalso
    obtain ⟨e, he⟩ := h
    induction ps generalizing parts with
    | nil => cases hp
    | cons q ps ih =>
      rw [ofPatterns] at hps
      obtain ⟨part, hq, hps⟩ := Scan.bind_eq_ok.mp hps
      obtain ⟨rest, hrest, -⟩ := Scan.bind_eq_ok.mp hps
      rcases List.mem_cons.mp hp with rfl | hp
      · rw [he] at hq
        cases hq
      · exact ih hp rest hrest

theorem ofPatterns_openedAll {ps : List Pattern}
    (h : ∀ p ∈ ps, ofPattern p.opened none = ofPattern p none) :
    ofPatterns (Pattern.openedAll ps) = ofPatterns ps := by
  induction ps with
  | nil => rfl
  | cons p ps ih =>
    obtain ⟨hp, hps⟩ := List.forall_mem_cons.mp h
    rw [Pattern.openedAll, ofPatterns, ofPatterns, hp, ih hps]

theorem mapM_literal?_openedAll (ps : List Pattern) :
    (Pattern.openedAll ps).mapM Pattern.literal? = ps.mapM Pattern.literal? := by
  rw [Pattern.openedAll_eq_map, List.mapM_map]
  congr 1
  funext p
  cases p <;> rfl

theorem eq_literal_of_mapM {ps : List Pattern} {cps : List Nat}
    (h : ps.mapM Pattern.literal? = some cps) {p : Pattern} (hp : p ∈ ps) :
    ∃ cp, p = .literal cp := by
  induction ps generalizing cps with
  | nil => cases hp
  | cons q ps ih =>
    rw [List.mapM_cons] at h
    obtain ⟨cp, hcp, h⟩ := Option.bind_eq_some_iff.mp h
    obtain ⟨rest, hrest, -⟩ := Option.bind_eq_some_iff.mp h
    rcases List.mem_cons.mp hp with rfl | hp
    · cases p <;> cases hcp
      exact ⟨cp, rfl⟩
    · exact ih hrest hp

/-! ## Whole patterns -/

/-- Bounds of zero and zero make the automaton of no bounds. -/
theorem ofPattern_opened {p : Pattern} (h : p.Composed) (symbol : Option Int) :
    ofPattern p.opened symbol = ofPattern p symbol := by
  induction h generalizing symbol with
  | literal cp => rfl
  | dot => rfl
  | oneOf _ negated => rfl
  | category cat negated => rfl
  | concat _ ih =>
    rw [Pattern.opened, ofPattern, ofPattern, mapM_literal?_openedAll,
      ofPatterns_openedAll fun p hp => ih p hp none]
  | alt _ _ ih =>
    rw [Pattern.opened, ofPattern, ofPattern, ofPatterns_openedAll fun p hp => ih p hp none]
  | repetition _ min max isLazy ih =>
    rw [Pattern.opened, ofPattern, ofPattern, ih none]
    simp only [repeated_upperBound]

/-- Only repetitions are refused. -/
def IsRepetitionError (e : BuildError) : Prop :=
  e = .lazyRepetition ∨ ∃ min max, max < min ∧ e = .invalidBounds min max

theorem isRepetitionError_of_ofPattern {p : Pattern} (h : p.Composed) {e : BuildError}
    (he : ofPattern p symbol = .error e) : IsRepetitionError e := by
  induction h generalizing symbol with
  | literal cp => cases he
  | dot => cases he
  | oneOf _ negated => cases he
  | category cat negated => cases he
  | concat _ ih =>
    rw [ofPattern] at he
    split at he
    · cases he
    · rcases Scan.bind_eq_error.mp he with hparts | ⟨parts, -, he⟩
      · obtain ⟨p, hp, herror⟩ := exists_of_ofPatterns_eq_error hparts
        exact ih p hp herror
      · cases he
  | alt _ _ ih =>
    rw [ofPattern] at he
    rcases Scan.bind_eq_error.mp he with hparts | ⟨parts, -, he⟩
    · obtain ⟨p, hp, herror⟩ := exists_of_ofPatterns_eq_error hparts
      exact ih p hp herror
    · cases he
  | @repetition body _ min max isLazy ih =>
    rw [ofPattern] at he
    split at he
    · cases he
      exact Or.inl rfl
    · rcases Scan.bind_eq_error.mp he with hbody | ⟨part, -, he⟩
      · exact ih hbody
      · obtain ⟨m, -, hlt, rfl⟩ := repeated_eq_error_iff.mp he
        exact Or.inr ⟨min, m, hlt, rfl⟩

/-- A repetition that is refused leaves the whole pattern without an automaton. -/
theorem exists_error_of_refused {p : Pattern} (h : p.Refused) (symbol : Option Int) :
    ∃ e, ofPattern p symbol = .error e := by
  induction h generalizing symbol with
  | isLazy => exact ⟨_, by rw [ofPattern]; rfl⟩
  | @bounds body min max isLazy hlt =>
    rw [ofPattern]
    split
    · exact ⟨_, rfl⟩
    · cases hbody : ofPattern body none with
      | error e => exact ⟨e, rfl⟩
      | ok part => exact ⟨_, repeated_eq_error_iff.mpr ⟨max, rfl, hlt, rfl⟩⟩
  | @body body min max isLazy _ ih =>
    obtain ⟨e, he⟩ := ih none
    rw [ofPattern, he]
    split
    · exact ⟨_, rfl⟩
    · exact ⟨e, rfl⟩
  | @item items p hp hrefused ih =>
    have hlit : items.mapM Pattern.literal? = none := by
      cases hlit : items.mapM Pattern.literal? with
      | none => rfl
      | some cps =>
        obtain ⟨cp, rfl⟩ := eq_literal_of_mapM hlit hp
        cases hrefused
    obtain ⟨e, he⟩ := exists_ofPatterns_eq_error hp (ih none)
    rw [ofPattern, hlit, he]
    exact ⟨e, rfl⟩
  | branch hp _ ih =>
    obtain ⟨e, he⟩ := exists_ofPatterns_eq_error hp (ih none)
    rw [ofPattern, he]
    exact ⟨e, rfl⟩

/-- The automaton of a well-formed pattern has the symbol on all its accepting states. -/
theorem carries_ofPattern {p : Pattern} (h : p.WellFormed) (hlazy : p.hasLazy = false)
    (hok : ofPattern p symbol = .ok a) : a.Carries symbol := by
  -- The parts only have to be valid, so one look at the outermost node is enough.
  have hparts : ∀ {ps : List Pattern} {parts : List Automaton}, (∀ p ∈ ps, p.WellFormed) →
      Pattern.anyLazy ps = false → ofPatterns ps = .ok parts → (∀ b ∈ parts, b.Valid) ∧
        parts.map texts = ps.map Pattern.language := by
    intro ps parts hps hlazy hparts
    rw [Pattern.anyLazy_eq_false_iff] at hlazy
    obtain ⟨parts', hparts', hvalid, htexts⟩ :=
      exists_ofPatterns fun p hp => exists_ofPattern (hps p hp) (hlazy p hp) none
    obtain rfl := Except.ok.inj (hparts.symm.trans hparts')
    exact ⟨hvalid, htexts⟩
  cases h with
  | literal cp =>
    rw [ofPattern] at hok
    cases hok
    exact carries_ofCodePoints [cp] symbol
  | dot =>
    rw [ofPattern] at hok
    cases hok
    exact carries_ofSet _ symbol
  | oneOf hset negated =>
    rw [ofPattern] at hok
    cases hok
    exact carries_ofSet _ symbol
  | category cat negated =>
    rw [ofPattern] at hok
    cases hok
    exact carries_ofSet _ symbol
  | concat hitems =>
    rw [Pattern.hasLazy] at hlazy
    rw [ofPattern] at hok
    split at hok
    · cases hok
      exact carries_ofCodePoints _ symbol
    · obtain ⟨parts, hofs, hok⟩ := Scan.bind_eq_ok.mp hok
      cases hok
      exact carries_concat (hparts hitems hlazy hofs).1 symbol
  | alt hne hbranches =>
    rw [Pattern.hasLazy] at hlazy
    rw [ofPattern] at hok
    obtain ⟨parts, hofs, hok⟩ := Scan.bind_eq_ok.mp hok
    cases hok
    obtain ⟨hvalid, htexts⟩ := hparts hbranches hlazy hofs
    refine carries_choice hvalid ?_ symbol
    rintro rfl
    exact hne (List.map_eq_nil_iff.mp htexts.symm)
  | repetition hbody hbounds isLazy =>
    rw [Pattern.hasLazy, Bool.or_eq_false_iff] at hlazy
    rw [ofPattern, hlazy.1] at hok
    obtain ⟨part, hpart, hok⟩ := Scan.bind_eq_ok.mp hok
    obtain ⟨part', hpart', hrec⟩ := exists_ofPattern hbody hlazy.2 none
    obtain rfl := Except.ok.inj (hpart.symm.trans hpart')
    exact carries_repeated hrec.valid hok

/-- A pattern has an automaton unless some repetition is lazy or has its bounds out of order. The
automaton accepts exactly the texts of the pattern, and its accepting states have the symbol. -/
theorem ofPattern_exact {p : Pattern} (hp : p.Composed) (symbol : Option Int) :
    ((∃ e, ofPattern p symbol = .error e) ↔ p.Refused) ∧
      (∀ e, ofPattern p symbol = .error e → IsRepetitionError e) ∧
      ∀ a, ofPattern p symbol = .ok a →
        (∀ w, a.accepts w = true ↔ w ∈ p.denotation) ∧ a.Carries symbol := by
  have hrefused : ∀ {a : Automaton}, ofPattern p symbol = .ok a → ¬ p.Refused := by
    intro a hok hr
    obtain ⟨e, he⟩ := exists_error_of_refused hr symbol
    rw [hok] at he
    cases he
  refine ⟨⟨?_, fun h => exists_error_of_refused h symbol⟩,
    fun e he => isRepetitionError_of_ofPattern hp he, ?_⟩
  · rintro ⟨e, he⟩
    by_contra hr
    obtain ⟨hform, hlazy⟩ := hp.wellFormed_opened hr
    obtain ⟨a, ha, -⟩ := exists_ofPattern hform hlazy symbol
    rw [ofPattern_opened hp, he] at ha
    cases ha
  · intro a hok
    obtain ⟨hform, hlazy⟩ := hp.wellFormed_opened (hrefused hok)
    obtain ⟨a', ha', hrec⟩ := exists_ofPattern hform hlazy symbol
    have hopened := (ofPattern_opened hp symbol).trans hok
    obtain rfl := Except.ok.inj (hopened.symm.trans ha')
    refine ⟨fun w => ?_, carries_ofPattern hform hlazy hopened⟩
    rw [accepts_iff_yields hrec.valid, ← mem_texts, hrec.texts_eq]
    rfl

/-- Any number of copies, by bounds of zero and zero, of a choice between nothing, a code point that
no text has, and two or three characters outside a set. -/
def nested : Pattern :=
  .repetition (.alt [.concat [], .literal 0xD800,
    .repetition (.oneOf #[⟨48, 57⟩, ⟨97, 102⟩] true) 2 (some 3) false]) 0 (some 0) false

theorem ofPattern_exact_nested :
    nested.Composed ∧ ¬ nested.Refused ∧
      ∀ a, ofPattern nested (some 7) = .ok a →
        (∀ w, a.accepts w = true ↔ w ∈ nested.denotation) ∧ a.Carries (some 7) := by
  have hset : CodeSet.Ordered (#[⟨48, 57⟩, ⟨97, 102⟩] : CodeSet).toList :=
    ⟨by unfold CodeSet.Proper; decide, by decide⟩
  have hcomposed : nested.Composed := by
    refine .repetition (.alt (by simp) ?_) 0 (some 0) false
    simp only [List.forall_mem_cons]
    exact ⟨.concat (by simp), .literal _, .repetition (.oneOf hset true) 2 (some 3) false, by simp⟩
  refine ⟨hcomposed, ?_, (ofPattern_exact hcomposed (some 7)).2.2⟩
  intro hrefused
  cases hrefused with
  | bounds hlt => cases hlt
  | body hrefused =>
    cases hrefused with
    | branch hp hrefused =>
      simp only [List.mem_cons, List.not_mem_nil, or_false] at hp
      rcases hp with rfl | rfl | rfl
      · cases hrefused with
        | item hp _ => cases hp
      · cases hrefused
      · cases hrefused with
        | bounds hlt => omega
        | body hrefused => cases hrefused

end FiberLex.Automaton
