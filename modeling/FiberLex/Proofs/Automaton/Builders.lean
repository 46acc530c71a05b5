import FiberLex.Proofs.Automaton.Exactness
import FiberLex.Proofs.Automaton.Runs

/-!
# Composing any automata

What the composed automata accept, in terms of what their parts accept, and with which symbols. The
parts are any automata at all: accepting states of theirs may have edges out of them, edges may lead
back to their starts, and some may accept nothing. Repetitions take as many pieces as their bounds
allow. In the automaton of several rules a run goes on for as long as a run of one of the parts
does, since a text leads there to copies of the states to which it leads in the parts; and what is
reported is the least symbol among those of all parts for the text that has been consumed.
-/

namespace FiberLex.Automaton

variable {a c part : Automaton} {parts : List Automaton} {symbol : Option Int}

/-! ## Texts and pieces -/

theorem Recognizes.accepts_iff {l : Language Char} (h : a.Recognizes l symbol) {w : List Char} :
    a.accepts w = true ↔ w ∈ l := by
  rw [accepts_iff_yields h.valid, ← mem_texts, h.texts_eq]

theorem accepts_iff_mem_texts (ha : a.Valid) {w : List Char} :
    a.accepts w = true ↔ w ∈ a.texts := by
  rw [accepts_iff_yields ha, mem_texts]

/-- A text of the product of the parts splits into pieces, one for each part. -/
theorem mem_prod_texts {w : List Char} :
    w ∈ (parts.map texts).prod ↔
      ∃ pieces, List.Forall₂ (fun p u => u ∈ p.texts) parts pieces ∧ pieces.flatten = w := by
  induction parts generalizing w with
  | nil =>
    rw [List.map_nil, List.prod_nil, Language.mem_one]
    constructor
    · rintro rfl
      exact ⟨[], .nil, rfl⟩
    · rintro ⟨pieces, hpieces, rfl⟩
      cases hpieces
      rfl
  | cons p parts ih =>
    rw [List.map_cons, List.prod_cons, Language.mem_mul]
    constructor
    · rintro ⟨u, hu, v, hv, rfl⟩
      obtain ⟨pieces, hpieces, rfl⟩ := ih.mp hv
      exact ⟨u :: pieces, .cons hu hpieces, rfl⟩
    · rintro ⟨pieces, hpieces, rfl⟩
      cases hpieces with
      | @cons _ u _ pieces hu hpieces =>
        exact ⟨u, hu, pieces.flatten, ih.mpr ⟨pieces, hpieces, rfl⟩, rfl⟩

theorem accepts_concat_iff (h : ∀ p ∈ parts, p.Valid) (symbol : Option Int) {w : List Char} :
    (concat parts symbol).accepts w = true ↔
      ∃ pieces, List.Forall₂ (fun p u => p.accepts u = true) parts pieces ∧
        pieces.flatten = w := by
  rw [(recognizes_concat h symbol).accepts_iff, mem_prod_texts]
  have hpieces : ∀ pieces : List (List Char),
      List.Forall₂ (fun p u => u ∈ p.texts) parts pieces ↔
        List.Forall₂ (fun p u => p.accepts u = true) parts pieces := by
    intro pieces
    induction parts generalizing pieces with
    | nil => simp only [List.forall₂_nil_left_iff]
    | cons p parts ih =>
      obtain ⟨hp, hparts⟩ := List.forall_mem_cons.mp h
      simp only [List.forall₂_cons_left_iff, ih hparts, accepts_iff_mem_texts hp]
  simp only [hpieces]

/-! ## Choices -/

/-- A choice without parts goes from its start to its end. -/
theorem choice_nil (symbol : Option Int) :
    choice [] symbol = ⟨#[{ epsilons := [1] }, { accepting := true, symbol }], 0⟩ := rfl

theorem recognizes_choice_nil (symbol : Option Int) : (choice [] symbol).Recognizes 1 symbol := by
  have hstart : (choice [] symbol).state 0 = { epsilons := [1] } := rfl
  have hlast : (choice [] symbol).state 1 = { accepting := true, symbol } := rfl
  refine ⟨valid_iff.mpr ?_, fun w s => ?_⟩
  · rw [choice_nil]
    simp [State.successors]
  · have hhub : (choice [] symbol).Yields 0 w s ↔
        ∃ j ∈ ((choice [] symbol).state 0).epsilons, (choice [] symbol).Yields j w s := by
      apply yields_hub_iff
      · rw [hstart]
      · rw [hstart]
    have hzero : (choice [] symbol).start = 0 := rfl
    rw [hzero, hhub, hstart, Language.mem_one]
    simp only [List.mem_singleton, exists_eq_left]
    exact yields_final_iff hlast

theorem carries_choice_nil (symbol : Option Int) : (choice [] symbol).Carries symbol := by
  intro i hi hacc
  have hvalid := (recognizes_choice_nil symbol).valid
  have hlt : i < 2 := hi.lt_size hvalid hvalid.start_lt
  obtain rfl | rfl : i = 0 ∨ i = 1 := by omega
  · cases hacc
  · rfl

theorem accepts_choice_iff (h : ∀ p ∈ parts, p.Valid) (symbol : Option Int) {w : List Char} :
    (choice parts symbol).accepts w = true ↔
      (parts = [] ∧ w = []) ∨ ∃ p ∈ parts, p.accepts w = true := by
  by_cases hnil : parts = []
  · subst hnil
    rw [(recognizes_choice_nil symbol).accepts_iff, Language.mem_one]
    simp
  · rw [(recognizes_choice h hnil symbol).accepts_iff, mem_sum_texts]
    have hparts : (∃ p ∈ parts, w ∈ p.texts) ↔ ∃ p ∈ parts, p.accepts w = true := by
      refine exists_congr fun p => and_congr_right fun hp => ?_
      rw [accepts_iff_mem_texts (h p hp)]
    rw [hparts]
    simp [hnil]

theorem carries_choice_any (h : ∀ p ∈ parts, p.Valid) (symbol : Option Int) :
    (choice parts symbol).Carries symbol := by
  by_cases hnil : parts = []
  · subst hnil
    exact carries_choice_nil symbol
  · exact carries_choice h hnil symbol

/-! ## Repetitions -/

theorem accepts_optional_iff (hp : part.Valid) (symbol : Option Int) {w : List Char} :
    (part.optional symbol).accepts w = true ↔ w = [] ∨ part.accepts w = true := by
  rw [(recognizes_optional hp symbol).accepts_iff, Language.mem_add, Language.mem_one,
    accepts_iff_mem_texts hp]

theorem carries_optional (hp : part.Valid) (symbol : Option Int) :
    (part.optional symbol).Carries symbol := by
  obtain ⟨f, hloop⟩ := loop_enclosed hp symbol
  exact hloop.addSkip.carries

/-- A repetition accepts what splits into as many texts of the part as its bounds allow. -/
theorem accepts_repeated_iff (hp : part.Valid) {min : Nat} {max : Option Nat}
    (hok : part.repeated min max symbol = .ok a) {w : List Char} :
    a.accepts w = true ↔ ∃ pieces : List (List Char),
      Pattern.InBounds min (Pattern.upperBound min max) pieces.length ∧
      (∀ u ∈ pieces, part.accepts u = true) ∧ pieces.flatten = w := by
  have hbounds : ∀ m, max = some m → min ≤ m := by
    rintro m rfl
    by_contra hlt
    have herror : part.repeated min (some m) symbol = .error (.invalidBounds min m) :=
      repeated_eq_error_iff.mpr ⟨m, rfl, Nat.lt_of_not_le hlt, rfl⟩
    rw [hok] at herror
    cases herror
  obtain ⟨a', ha', hrec⟩ := recognizes_repeated hp (Pattern.upperBound_spec hbounds) symbol
  rw [repeated_upperBound, hok] at ha'
  obtain rfl := Except.ok.inj ha'
  rw [hrec.accepts_iff]
  constructor
  · rintro ⟨k, hk, hw⟩
    obtain ⟨pieces, rfl, rfl, hpieces⟩ := Language.mem_pow.mp hw
    exact ⟨pieces, hk, fun u hu => (accepts_iff_mem_texts hp).mpr (hpieces u hu), rfl⟩
  · rintro ⟨pieces, hk, hpieces, rfl⟩
    refine ⟨pieces.length, hk, Language.mem_pow.mpr ⟨pieces, rfl, rfl, ?_⟩⟩
    intro u hu
    exact (accepts_iff_mem_texts hp).mp (hpieces u hu)

/-! ## Several rules -/

/-- The symbols of the accepting states to which a text leads from the start. -/
def symbolsAt (a : Automaton) (w : List Char) : Set Int :=
  {t | ∃ j, a.ReachesBy a.start w j ∧ (a.state j).accepting = true ∧ (a.state j).symbol = some t}

theorem mem_symbolsAt_iff {w : List Char} {t : Int} :
    t ∈ a.symbolsAt w ↔ a.Yields a.start w (some t) := yields_iff_reachesBy.symm

/-- A text leads from one copy to another as it does between the states that are copied. -/
theorem Embeds.reachesBy_iff {b : Automaton} {root : Nat} {f : Nat → Nat} (h : Embeds b root f c)
    {i x : Nat} (hi : b.Reaches root i) {w : List Char} :
    c.ReachesBy (f i) w x ↔ ∃ j, b.ReachesBy i w j ∧ f j = x := by
  constructor
  · intro hx
    generalize hy : f i = y at hx
    induction hx generalizing i with
    | here => exact ⟨i, .here, hy⟩
    | epsilon hj _ ih =>
      subst hy
      rw [h.state_eq i hi] at hj
      obtain ⟨k, hk, rfl⟩ := State.mem_epsilons_mapTargets.mp hj
      obtain ⟨j, hj, hend⟩ := ih (hi.epsilon hk) rfl
      exact ⟨j, .epsilon hk hj, hend⟩
    | edge he hc _ ih =>
      subst hy
      rw [h.state_eq i hi] at he
      obtain ⟨e, he', rfl⟩ := State.mem_edges_mapTargets.mp he
      obtain ⟨j, hj, hend⟩ := ih (hi.edge he') rfl
      exact ⟨j, .edge he' hc hj, hend⟩
  · rintro ⟨j, hj, rfl⟩
    induction hj with
    | here => exact .here
    | epsilon hk _ ih =>
      refine .epsilon ?_ (ih (hi.epsilon hk))
      rw [h.state_eq _ hi]
      exact State.mem_epsilons_mapTargets.mpr ⟨_, hk, rfl⟩
    | @edge i j e ch w he hc _ ih =>
      have hmem : (⟨e.range, f e.target⟩ : Edge) ∈ (c.state (f i)).edges := by
        rw [h.state_eq i hi]
        exact State.mem_edges_mapTargets.mpr ⟨e, he, rfl⟩
      exact .edge hmem hc (ih (hi.edge he))

/-- Besides the empty text, a text leads somewhere exactly if it does so in some part. -/
theorem survives_merged_iff (h : ∀ p ∈ parts, p.Valid) {w : List Char} :
    (merged parts).Survives w ↔ w = [] ∨ ∃ p ∈ parts, p.Survives w := by
  have hbranches := branches_addBranches h
  rw [merged_eq]
  constructor
  · rintro ⟨x, hx⟩
    cases hx with
    | here => exact Or.inl rfl
    | epsilon hj hrest =>
      obtain ⟨p, hp, f, hf, rfl⟩ := hbranches.epsilon _ hj
      obtain ⟨k, hk, -⟩ := (hf.embeds.reachesBy_iff .refl).mp hrest
      exact Or.inr ⟨p, hp, k, hk⟩
    | edge he _ _ =>
      rw [hbranches.start_edges] at he
      cases he
  · rintro (rfl | ⟨p, hp, k, hk⟩)
    · exact survives_nil _
    · obtain ⟨f, hf, hmem⟩ := hbranches.entry p hp
      exact ⟨f k, .epsilon hmem ((hf.embeds.reachesBy_iff .refl).mpr ⟨k, hk, rfl⟩)⟩

theorem le_foldr_max_iff {l : List Nat} {n : Nat} :
    n ≤ l.foldr max 0 ↔ n = 0 ∨ ∃ m ∈ l, n ≤ m := by
  induction l with
  | nil => simp
  | cons m l ih =>
    rw [List.foldr_cons, le_max_iff, ih, List.exists_mem_cons_iff]
    tauto

/-- A run of several rules takes as much of a text as the run of a part that takes the most. -/
theorem consumed_merged (h : ∀ p ∈ parts, p.Valid) (text : List Char) :
    (merged parts).consumed text = (parts.map (·.consumed text)).foldr max 0 := by
  have hle : ∀ n ≤ text.length, n ≤ (merged parts).consumed text ↔
      n ≤ (parts.map (·.consumed text)).foldr max 0 := by
    intro n hn
    rw [le_consumed_iff (Valid.merged h) hn, survives_merged_iff h, le_foldr_max_iff]
    have hnil : text.take n = [] ↔ n = 0 := by
      rw [List.take_eq_nil_iff]
      constructor
      · rintro (hzero | rfl)
        · exact hzero
        · exact Nat.le_zero.mp hn
      · exact Or.inl
    have hparts : (∃ p ∈ parts, p.Survives (text.take n)) ↔
        ∃ m ∈ parts.map (·.consumed text), n ≤ m := by
      simp only [List.mem_map, exists_exists_and_eq_and]
      refine exists_congr fun p => and_congr_right fun hp => ?_
      rw [le_consumed_iff (h p hp) hn]
    rw [hnil, hparts]
  have hmost : (parts.map (·.consumed text)).foldr max 0 ≤ text.length := by
    rcases le_foldr_max_iff.mp (Nat.le_refl ((parts.map (·.consumed text)).foldr max 0)) with
      hzero | ⟨m, hm, hlem⟩
    · rw [hzero]
      exact Nat.zero_le _
    · obtain ⟨p, -, rfl⟩ := List.mem_map.mp hm
      exact hlem.trans (p.consumed_le text)
  apply Nat.le_antisymm
  · exact (hle _ ((merged parts).consumed_le text)).mp (Nat.le_refl _)
  · exact (hle _ hmost).mpr (Nat.le_refl _)

theorem accepts_merged_iff (h : ∀ p ∈ parts, p.Valid) {w : List Char} :
    (merged parts).accepts w = true ↔ ∃ p ∈ parts, p.accepts w = true := by
  rw [accepts_iff_yields (Valid.merged h)]
  simp only [yields_merged_iff h]
  constructor
  · rintro ⟨s, p, hp, hy⟩
    exact ⟨p, hp, (accepts_iff_yields (h p hp)).mpr ⟨s, hy⟩⟩
  · rintro ⟨p, hp, haccepts⟩
    obtain ⟨s, hy⟩ := (accepts_iff_yields (h p hp)).mp haccepts
    exact ⟨s, p, hp, hy⟩

theorem mem_symbolsAt_merged_iff (h : ∀ p ∈ parts, p.Valid) {w : List Char} {t : Int} :
    t ∈ (merged parts).symbolsAt w ↔ ∃ p ∈ parts, t ∈ p.symbolsAt w := by
  simp only [mem_symbolsAt_iff]
  exact yields_merged_iff h

theorem symbolOf_merged_eq_some_iff (h : ∀ p ∈ parts, p.Valid) {w : List Char} {s : Int} :
    (merged parts).symbolOf ((merged parts).after (merged parts).initial w) = some s ↔
      IsLeast {t | ∃ p ∈ parts, t ∈ p.symbolsAt w} s := by
  rw [symbolOf_after_eq_some_iff (Valid.merged h)]
  simp only [← mem_symbolsAt_iff, mem_symbolsAt_merged_iff h]
  rfl

theorem symbolOf_merged_eq_none_iff (h : ∀ p ∈ parts, p.Valid) {w : List Char} :
    (merged parts).symbolOf ((merged parts).after (merged parts).initial w) = none ↔
      ∀ p ∈ parts, p.symbolsAt w = ∅ := by
  rw [symbolOf_after_eq_none_iff (Valid.merged h)]
  simp only [← mem_symbolsAt_iff, mem_symbolsAt_merged_iff h, Set.eq_empty_iff_forall_notMem]
  constructor
  · intro hnone p hp t ht
    exact hnone t ⟨p, hp, ht⟩
  · rintro hnone t ⟨p, hp, ht⟩
    exact hnone p hp t ht

/-- Composed automata accept what their parts say, whatever the parts are. A sequence accepts what
splits into a text of each part, in order; a choice what some part accepts, and the empty text if
there are no parts; an optional part its texts and the empty text; a repetition what splits into as
many texts of the part as its bounds allow, where bounds of zero and zero count as none, and it is
refused if they are out of order; all of these with the symbol they were given. The automaton of
several rules accepts what some part accepts. A run of it takes as much as the run of a part that
takes the most, and reports the least symbol with which some part accepts what was taken. -/
theorem composed_exact (h : ∀ p ∈ parts, p.Valid) (hp : part.Valid) (symbol : Option Int) :
    ((∀ w, (concat parts symbol).accepts w = true ↔
      ∃ pieces, List.Forall₂ (fun p u => p.accepts u = true) parts pieces ∧ pieces.flatten = w) ∧
      (concat parts symbol).Carries symbol) ∧
    ((∀ w, (choice parts symbol).accepts w = true ↔
      (parts = [] ∧ w = []) ∨ ∃ p ∈ parts, p.accepts w = true) ∧
      (choice parts symbol).Carries symbol) ∧
    ((∀ w, (part.optional symbol).accepts w = true ↔ w = [] ∨ part.accepts w = true) ∧
      (part.optional symbol).Carries symbol) ∧
    (∀ min max,
      (∀ e, part.repeated min max symbol = .error e ↔
        ∃ m, max = some m ∧ m < min ∧ e = .invalidBounds min m) ∧
      ∀ a, part.repeated min max symbol = .ok a →
        (∀ w, a.accepts w = true ↔ ∃ pieces : List (List Char),
          Pattern.InBounds min (Pattern.upperBound min max) pieces.length ∧
          (∀ u ∈ pieces, part.accepts u = true) ∧ pieces.flatten = w) ∧
        a.Carries symbol) ∧
    (∀ w, (merged parts).accepts w = true ↔ ∃ p ∈ parts, p.accepts w = true) ∧
    ∀ cur : Cursor, ∃ n, n = (parts.map (·.consumed cur.position.rest)).foldr max 0 ∧
      ((merged parts).lex cur).2 = cur.consume n ∧
      (∀ s, ((merged parts).lex cur).1 = some s ↔
        IsLeast {t | ∃ p ∈ parts, t ∈ p.symbolsAt (cur.position.rest.take n)} s) ∧
      (((merged parts).lex cur).1 = none ↔
        ∀ p ∈ parts, p.symbolsAt (cur.position.rest.take n) = ∅) := by
  have hmerged := Valid.merged h
  refine ⟨⟨fun w => accepts_concat_iff h symbol, carries_concat h symbol⟩,
    ⟨fun w => accepts_choice_iff h symbol, carries_choice_any h symbol⟩,
    ⟨fun w => accepts_optional_iff hp symbol, carries_optional hp symbol⟩, ?_, ?_, ?_⟩
  · intro min max
    refine ⟨fun e => repeated_eq_error_iff, fun a hok => ⟨fun w => ?_, carries_repeated hp hok⟩⟩
    exact accepts_repeated_iff hp hok
  · intro w
    exact accepts_merged_iff h
  · intro cur
    refine ⟨_, consumed_merged h cur.position.rest, ?_, fun s => ?_, ?_⟩
    · rw [lex_eq]
    · rw [lex_eq]
      exact symbolOf_merged_eq_some_iff h
    · rw [lex_eq]
      exact symbolOf_merged_eq_none_iff h

/-- A start that is come back to, and an accepting state that can be left. -/
def treadmill : Automaton where
  states := #[{ edges := [⟨⟨97, 97⟩, 1⟩] },
    { accepting := true, symbol := some 7, edges := [⟨⟨98, 98⟩, 0⟩], epsilons := [1] }]
  start := 0

theorem accepts_treadmill : treadmill.Valid ∧ treadmill.accepts ['a'] = true := by
  have hvalid : treadmill.Valid := by decide
  have hstep : treadmill.Yields 0 ['a'] (treadmill.state 1).symbol :=
    @Yields.edge _ 0 ⟨⟨97, 97⟩, 1⟩ 'a' [] _ (by decide) (by decide) (.stop rfl)
  exact ⟨hvalid, (accepts_iff_yields hvalid).mpr ⟨_, hstep⟩⟩

theorem composed_exact_treadmill :
    (∀ p ∈ [treadmill, new, treadmill], p.Valid) ∧
      (choice [treadmill, new, treadmill] (some 3)).accepts ['a'] = true ∧
      (treadmill.optional (some 3)).accepts [] = true ∧
      (merged [treadmill, new, treadmill]).accepts ['a'] = true ∧
      ∀ a, treadmill.repeated 2 none (some 3) = .ok a →
        a.accepts ['a', 'a', 'a'] = true ∧ a.Carries (some 3) := by
  obtain ⟨hpart, haccepts⟩ := accepts_treadmill
  have hparts : ∀ p ∈ [treadmill, new, treadmill], p.Valid := by decide
  obtain ⟨-, ⟨hchoice, -⟩, ⟨hoptional, -⟩, hrepeated, hmerged, -⟩ :=
    composed_exact hparts hpart (some 3)
  have hmem : ∃ p ∈ [treadmill, new, treadmill], p.accepts ['a'] = true :=
    ⟨treadmill, by simp, haccepts⟩
  refine ⟨hparts, (hchoice _).mpr (Or.inr hmem), (hoptional []).mpr (Or.inl rfl),
    (hmerged _).mpr hmem, fun a hok => ?_⟩
  obtain ⟨htexts, hcarries⟩ := (hrepeated 2 none).2 a hok
  refine ⟨(htexts _).mpr ⟨[['a'], ['a'], ['a']], ⟨by decide, ?_⟩, ?_, rfl⟩, hcarries⟩
  · intro m hm
    cases hm
  · simpa using haccepts

end FiberLex.Automaton
