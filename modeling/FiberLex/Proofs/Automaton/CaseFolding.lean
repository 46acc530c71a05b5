import FiberLex.Lexer
import FiberLex.Proofs.Automaton.Builders
import FiberLex.Proofs.Automaton.Bundled
import FiberLex.Proofs.Automaton.Compaction
import Mathlib.Data.List.Permutation

/-!
# Texts in any letter case

Letters of ASCII are matched in either case by edges that are added beside those there are. A range
that begins with a letter holds letters of one case only, or it is refused, and the range of the
other case is added to its bundle as far as the bundle does not cover it. A range that begins with
no letter is left alone whatever it holds, so a letter in the middle of it is matched in its own
case only. Hence no text is accepted that does not differ from one of the original in the case of
letters alone, and all of these are accepted if the ranges that begin with no letter need nothing
added (`accepts_ignoringCase`).
-/

namespace FiberLex

open CodeSet Text

/-! ## Letters of ASCII -/

/-- A letter of ASCII. -/
def IsLetter (cp : Nat) : Prop := (65 ≤ cp ∧ cp ≤ 90) ∨ (97 ≤ cp ∧ cp ≤ 122)

/-- The code point, in lower case if it is a letter of ASCII. -/
def lowered (cp : Nat) : Nat := if 65 ≤ cp ∧ cp ≤ 90 then cp + 32 else cp

theorem toNat_toLower (c : Char) : c.toLower.toNat = lowered c.toNat := by
  have hupper : (c.val ≥ 'A'.val ∧ c.val ≤ 'Z'.val) ↔ 65 ≤ c.toNat ∧ c.toNat ≤ 90 := by
    rw [ge_iff_le, UInt32.le_iff_toNat_le, UInt32.le_iff_toNat_le]
    rfl
  unfold Char.toLower lowered
  by_cases h : 65 ≤ c.toNat ∧ c.toNat ≤ 90
  · rw [dif_pos (hupper.mpr h), if_pos h]
    show (c.val + ('a'.val - 'A'.val)).toNat = c.val.toNat + 32
    rw [UInt32.toNat_add]
    have hlt : c.val.toNat ≤ 90 := h.2
    show (c.val.toNat + 32) % 2 ^ 32 = _
    omega
  · rw [dif_neg fun h' => h (hupper.mp h'), if_neg h]

/-- Two texts that differ in the case of letters of ASCII alone. -/
def SameLetters (w v : List Char) : Prop :=
  List.Forall₂ (fun c d : Char => c.toLower = d.toLower) w v

theorem toLower_eq_iff {c d : Char} : c.toLower = d.toLower ↔ lowered c.toNat = lowered d.toNat := by
  rw [← toNat_toLower, ← toNat_toLower]
  exact ⟨congrArg Char.toNat, Char.toNat_inj.mp⟩

section Ascii

variable {cp : Nat}

theorem isLowercase_iff (h : cp < 128) : isLowercase cp = true ↔ 97 ≤ cp ∧ cp ≤ 122 := by
  simp [isLowercase, h]

theorem isUppercase_iff (h : cp < 128) : isUppercase cp = true ↔ 65 ≤ cp ∧ cp ≤ 90 := by
  simp [isUppercase, h]

theorem isCharacter_of_lt (h : cp < 128) : isCharacter cp = true := by
  simp only [isCharacter, Bool.or_eq_true, decide_eq_true_eq]
  omega

end Ascii

namespace Automaton

/-! ## The other case of a range -/

section OtherCase

variable {r other : CodeRange}

/-- The counterparts of the ends make another range if they are away from the ends. -/
theorem counterpart?_of_ne {low high : Nat} (hle : low ≤ high) (hne : low ≠ r.low) :
    counterpart? r (some low) (some high) = some ⟨low, high⟩ := by
  rw [counterpart?, if_pos ⟨hle, fun heq => hne (congrArg CodeRange.low heq)⟩]

/-- A range that begins with a lower-case letter holds nothing else, or it is refused. -/
theorem otherCase_of_lower (hle : r.low ≤ r.high) (hhigh : r.high < 128)
    (hlow : 97 ≤ r.low ∧ r.low ≤ 122) :
    otherCase r =
      if r.high ≤ 122 then .ok (some ⟨r.low - 32, r.high - 32⟩) else .error (.mixedCase r) := by
  have hlower : isLowercase r.low = true := (isLowercase_iff (by omega)).mpr hlow
  have hlower' : isLowercase r.high = true ↔ r.high ≤ 122 := by
    rw [isLowercase_iff hhigh]
    omega
  rw [otherCase, isCharacter_of_lt hhigh, isCharacter_of_lt (by omega), hlower]
  simp only [Bool.and_self, if_true, hlower']
  split
  · rename_i hend
    have hupper : upper? r.low = some (r.low - 32) ∧ upper? r.high = some (r.high - 32) := by
      unfold upper?
      constructor
      · rw [if_pos (by omega), if_pos hlow]
      · rw [if_pos hhigh, if_pos (by omega)]
    rw [hupper.1, hupper.2, counterpart?_of_ne (by omega) (by omega)]
  · rfl

/-- A range that begins with an upper-case letter holds nothing else, or it is refused. -/
theorem otherCase_of_upper (hle : r.low ≤ r.high) (hhigh : r.high < 128)
    (hlow : 65 ≤ r.low ∧ r.low ≤ 90) :
    otherCase r =
      if r.high ≤ 90 then .ok (some ⟨r.low + 32, r.high + 32⟩) else .error (.mixedCase r) := by
  have hlower : isLowercase r.low = false := by
    rw [Bool.eq_false_iff, ne_eq, isLowercase_iff (by omega)]
    omega
  have hupper : isUppercase r.low = true := (isUppercase_iff (by omega)).mpr hlow
  have hupper' : isUppercase r.high = true ↔ r.high ≤ 90 := by
    rw [isUppercase_iff hhigh]
    omega
  rw [otherCase, isCharacter_of_lt hhigh, isCharacter_of_lt (by omega), hlower, hupper]
  simp only [Bool.and_self, Bool.false_eq_true, if_true, if_false, hupper']
  split
  · rename_i hend
    have hlowered : lower? r.low = some (r.low + 32) ∧ lower? r.high = some (r.high + 32) := by
      unfold lower?
      constructor
      · rw [if_pos (by omega), if_pos hlow]
      · rw [if_pos hhigh, if_pos (by omega)]
    rw [hlowered.1, hlowered.2, counterpart?_of_ne (by omega) (by omega)]
  · rfl

/-- A range that begins with no letter is left alone. -/
theorem otherCase_of_not_isLetter (hlow : r.low < 128) (h : ¬ IsLetter r.low) :
    otherCase r = .ok none := by
  have hlower : isLowercase r.low = false := by
    rw [Bool.eq_false_iff, ne_eq, isLowercase_iff hlow]
    exact fun h' => h (.inr h')
  have hupper : isUppercase r.low = false := by
    rw [Bool.eq_false_iff, ne_eq, isUppercase_iff hlow]
    exact fun h' => h (.inl h')
  rw [otherCase, hlower, hupper]
  simp only [Bool.false_eq_true, if_false, ite_self]

/-- The other case of a range holds nothing but letters of the range in the other case. -/
theorem exists_lowered_of_otherCase (hle : r.low ≤ r.high) (hhigh : r.high < 128)
    (hother : otherCase r = .ok (some other)) {cp : Nat} (hcp : other.contains cp = true) :
    ∃ d, r.contains d = true ∧ lowered d = lowered cp := by
  by_cases hletter : IsLetter r.low
  · rcases hletter with hlow | hlow
    · rw [otherCase_of_upper hle hhigh hlow] at hother
      split at hother
      · cases hother
        have hin : r.low + 32 ≤ cp ∧ cp ≤ r.high + 32 := CodeRange.contains_iff.mp hcp
        refine ⟨cp - 32, CodeRange.contains_iff.mpr (by omega), ?_⟩
        unfold lowered
        rw [if_pos (by omega), if_neg (by omega)]
        omega
      · cases hother
    · rw [otherCase_of_lower hle hhigh hlow] at hother
      split at hother
      · cases hother
        have hin : r.low - 32 ≤ cp ∧ cp ≤ r.high - 32 := CodeRange.contains_iff.mp hcp
        refine ⟨cp + 32, CodeRange.contains_iff.mpr (by omega), ?_⟩
        unfold lowered
        rw [if_neg (by omega), if_pos (by omega)]
      · cases hother
  · rw [otherCase_of_not_isLetter (by omega) hletter] at hother
    cases hother

/-- A range that begins with a letter and is not refused holds each of its characters in either case,
together with its other case. -/
theorem contains_or_of_otherCase (hle : r.low ≤ r.high) (hhigh : r.high < 128)
    (hletter : IsLetter r.low) {x : Option CodeRange} (hother : otherCase r = .ok x) {cp d : Nat}
    (hd : r.contains d = true) (hsame : lowered cp = lowered d) :
    r.contains cp = true ∨ ∃ other, x = some other ∧ other.contains cp = true := by
  rw [CodeRange.contains_iff] at hd
  unfold lowered at hsame
  rcases hletter with hlow | hlow
  · rw [otherCase_of_upper hle hhigh hlow] at hother
    split at hother
    · cases hother
      rw [if_pos (by omega : 65 ≤ d ∧ d ≤ 90)] at hsame
      split at hsame
      · exact .inl (CodeRange.contains_iff.mpr (by omega))
      · exact .inr ⟨_, rfl, CodeRange.contains_iff.mpr (by dsimp only; omega)⟩
    · cases hother
  · rw [otherCase_of_lower hle hhigh hlow] at hother
    split at hother
    · cases hother
      rw [if_neg (by omega : ¬ (65 ≤ d ∧ d ≤ 90))] at hsame
      split at hsame
      · exact .inr ⟨_, rfl, CodeRange.contains_iff.mpr (by dsimp only; omega)⟩
      · exact .inl (CodeRange.contains_iff.mpr (by omega))
    · cases hother

end OtherCase

/-! ## The edges that are added -/

section Widening

variable {s t : State} {target : Nat} {cp : Nat}

/-- The ranges of the edges of a state. -/
abbrev rangesOf (edges : List Edge) : List CodeRange := edges.map (·.range)

theorem covers_coverRest (range : CodeRange) :
    Covers (rangesOf (coverRest s range target).edges) cp ↔
      Covers (rangesOf s.edges) cp ∨ range.contains cp = true := by
  have hrest : s.edges.foldl (fun pieces e => CodeRange.minusAll pieces e.range) [range] =
      (rangesOf s.edges).foldl CodeRange.minusAll [range] := List.foldl_map.symm
  have hranges : rangesOf (coverRest s range target).edges =
      rangesOf s.edges ++ (rangesOf s.edges).foldl CodeRange.minusAll [range] := by
    rw [coverRest, hrest, rangesOf, List.map_append, List.map_map]
    simp [Function.comp_def]
  have hone : Covers [range] cp ↔ range.contains cp = true := by simp [Covers]
  rw [hranges, covers_append, covers_foldl_minusAll, hone]
  by_cases hcovers : Covers (rangesOf s.edges) cp
  · simp only [hcovers, true_or]
  · simp only [hcovers, false_or, not_false_eq_true, and_true]

/-- Beside the edges of a bundle, the state gets those for their other case. -/
theorem addOtherCases_spec {edges : List Edge} (hok : addOtherCases s edges = .ok t)
    (hs : ∀ e ∈ s.edges, e.target = target) (hedges : ∀ e ∈ edges, e.target = target) :
    t.accepting = s.accepting ∧ t.symbol = s.symbol ∧ t.epsilons = s.epsilons ∧
      (∀ e ∈ t.edges, e.target = target) ∧ (∀ e ∈ edges, ∃ x, otherCase e.range = .ok x) ∧
      ∀ cp, Covers (rangesOf t.edges) cp ↔ Covers (rangesOf s.edges) cp ∨
        ∃ e ∈ edges, ∃ other, otherCase e.range = .ok (some other) ∧ other.contains cp = true := by
  induction edges generalizing s with
  | nil =>
    cases hok
    exact ⟨rfl, rfl, rfl, hs, by simp, by simp⟩
  | cons e edges ih =>
    obtain ⟨he, hrest⟩ := List.forall_mem_cons.mp hedges
    obtain ⟨x, hx, hok⟩ := Scan.bind_eq_ok.mp hok
    rcases x with _ | range
    · obtain ⟨hacc, hsymbol, hepsilons, htargets, hothers, hcovers⟩ := ih hok hs hrest
      refine ⟨hacc, hsymbol, hepsilons, htargets,
        List.forall_mem_cons.mpr ⟨⟨none, hx⟩, hothers⟩, fun cp => ?_⟩
      rw [hcovers]
      simp [hx]
    · have hs' : ∀ e' ∈ (coverRest s range e.target).edges, e'.target = target := by
        refine List.forall_mem_append.mpr ⟨hs, List.forall_mem_map.mpr fun _ _ => he⟩
      obtain ⟨hacc, hsymbol, hepsilons, htargets, hothers, hcovers⟩ := ih hok hs' hrest
      refine ⟨hacc, hsymbol, hepsilons, htargets,
        List.forall_mem_cons.mpr ⟨⟨some range, hx⟩, hothers⟩, fun cp => ?_⟩
      rw [hcovers, covers_coverRest]
      simp [hx, or_assoc]

end Widening

/-! ## Bundles -/

/-- The ranges are proper and hold characters of ASCII alone. -/
def AsciiRanges (rs : List CodeRange) : Prop := ∀ r ∈ rs, r.low ≤ r.high ∧ r.high < 128

/-- With what a range that begins with no letter holds, the ranges have it in either case. -/
def CaseClosed (rs : List CodeRange) : Prop :=
  ∀ r ∈ rs, ¬ IsLetter r.low → ∀ d, r.contains d = true →
    ∀ cp, lowered cp = lowered d → Covers rs cp

section Bundles

variable {s t : State} {target : Nat} {rs : List CodeRange}

/-- What a bundle of ASCII holds after widening is what it holds in one case or the other. -/
theorem exists_covers_of_widened (hascii : AsciiRanges rs)
    (hwidened : ∀ cp, Covers (rangesOf t.edges) cp ↔ Covers rs cp ∨
      ∃ r ∈ rs, ∃ other, otherCase r = .ok (some other) ∧ other.contains cp = true) {cp : Nat}
    (hcp : Covers (rangesOf t.edges) cp) : ∃ d, Covers rs d ∧ lowered d = lowered cp := by
  rcases (hwidened cp).mp hcp with hcp | ⟨r, hr, other, hother, hcp⟩
  · exact ⟨cp, hcp, rfl⟩
  · obtain ⟨hle, hhigh⟩ := hascii r hr
    obtain ⟨d, hd, hsame⟩ := exists_lowered_of_otherCase hle hhigh hother hcp
    exact ⟨d, ⟨r, hr, hd⟩, hsame⟩

theorem covers_widened (hascii : AsciiRanges rs) (hclosed : CaseClosed rs)
    (hok : ∀ r ∈ rs, ∃ x, otherCase r = .ok x)
    (hwidened : ∀ cp, Covers (rangesOf t.edges) cp ↔ Covers rs cp ∨
      ∃ r ∈ rs, ∃ other, otherCase r = .ok (some other) ∧ other.contains cp = true) {cp d : Nat}
    (hd : Covers rs d) (hsame : lowered cp = lowered d) : Covers (rangesOf t.edges) cp := by
  obtain ⟨r, hr, hd⟩ := hd
  rw [hwidened]
  by_cases hletter : IsLetter r.low
  · obtain ⟨hle, hhigh⟩ := hascii r hr
    obtain ⟨x, hx⟩ := hok r hr
    rcases contains_or_of_otherCase hle hhigh hletter hx hd hsame with hcp | ⟨other, rfl, hcp⟩
    · exact .inl ⟨r, hr, hcp⟩
    · exact .inr ⟨r, hr, other, hx, hcp⟩
  · exact .inl (hclosed r hr hletter d hd cp hsame)

end Bundles

/-- The states of an automaton of bundles with the other case of what the bundles hold. -/
structure Widens (R : List CodeRange → Prop) (a b : Automaton) : Prop where
  start : b.start = a.start
  accepting : ∀ i, (b.state i).accepting = (a.state i).accepting
  symbol : ∀ i, (b.state i).symbol = (a.state i).symbol
  epsilons : ∀ i, (b.state i).epsilons = (a.state i).epsilons
  bundle : ∀ i, ∃ target rs, (a.state i).edges = rs.map (⟨·, target⟩) ∧ R rs ∧
    (∀ e ∈ (b.state i).edges, e.target = target) ∧ (∀ r ∈ rs, ∃ x, otherCase r = .ok x) ∧
    ∀ cp, Covers (rangesOf (b.state i).edges) cp ↔ Covers rs cp ∨
      ∃ r ∈ rs, ∃ other, otherCase r = .ok (some other) ∧ other.contains cp = true

section Widens

variable {R : List CodeRange → Prop} {a b : Automaton}

theorem addOtherCases_state {states : List State}
    (hstates : a.states.toList.mapM (fun s => addOtherCases s s.edges) = .ok states) (i : Nat) :
    addOtherCases (a.state i) (a.state i).edges =
      .ok (Automaton.state { a with states := states.toArray } i) := by
  have hpairs := mapM_eq_ok_iff.mp hstates
  have hsize : states.length = a.states.size := hpairs.length_eq.symm
  by_cases hi : i < a.states.size
  · have hi' : i < states.length := hsize ▸ hi
    rw [state_eq_getElem hi, state_eq_getElem (by simpa using hi')]
    exact hpairs.get hi hi'
  · rw [state_of_size_le (Nat.le_of_not_lt hi), state_of_size_le (by simpa [hsize] using hi)]
    rfl

theorem Bundled.widens (h : a.Bundled R) {states : List State}
    (hstates : a.states.toList.mapM (fun s => addOtherCases s s.edges) = .ok states) :
    Widens R a { a with states := states.toArray } := by
  have hspec := fun i => addOtherCases_state hstates i
  have hbundle : ∀ i, ∃ target rs, (a.state i).edges = rs.map (⟨·, target⟩) ∧ R rs ∧
      ∀ e ∈ (a.state i).edges, e.target = target := by
    intro i
    obtain ⟨target, rs, hedges, hR⟩ := h.bundle i
    refine ⟨target, rs, hedges, hR, ?_⟩
    rw [hedges]
    exact List.forall_mem_map.mpr fun _ _ => rfl
  refine ⟨rfl, fun i => ?_, fun i => ?_, fun i => ?_, fun i => ?_⟩
  all_goals
    obtain ⟨target, rs, hedges, hR, htarget⟩ := hbundle i
    obtain ⟨hacc, hsymbol, hepsilons, htargets, hothers, hcovers⟩ :=
      addOtherCases_spec (hspec i) htarget htarget
  · exact hacc
  · exact hsymbol
  · exact hepsilons
  · rw [hedges] at hothers hcovers
    refine ⟨target, rs, hedges, hR, htargets, fun r hr => ?_, fun cp => ?_⟩
    · exact hothers ⟨r, target⟩ (List.mem_map_of_mem hr)
    · rw [hcovers]
      simp [rangesOf, Function.comp_def]

/-- What is yielded after widening differs from what was yielded before in the case of letters
alone. -/
theorem Widens.exists_yields (h : Widens R a b) (hascii : ∀ rs, R rs → AsciiRanges rs) {i : Nat}
    {w : List Char} {symbol : Option Int} (hw : b.Yields i w symbol) :
    ∃ v, SameLetters w v ∧ a.Yields i v symbol := by
  induction hw with
  | @stop i hacc =>
    rw [h.accepting] at hacc
    rw [h.symbol]
    exact ⟨[], .nil, .stop hacc⟩
  | epsilon hj _ ih =>
    rw [h.epsilons] at hj
    obtain ⟨v, hsame, hv⟩ := ih
    exact ⟨v, hsame, .epsilon hj hv⟩
  | @edge i e c w symbol he hc _ ih =>
    obtain ⟨v, hsame, hv⟩ := ih
    obtain ⟨target, rs, hedges, hR, htargets, -, hwidened⟩ := h.bundle i
    have hcovers : Covers (rangesOf (b.state i).edges) c.toNat :=
      ⟨e.range, List.mem_map_of_mem he, hc⟩
    obtain ⟨d, ⟨r, hr, hd⟩, hlowered⟩ := exists_covers_of_widened (hascii rs hR) hwidened hcovers
    have hlt : d < 128 :=
      Nat.lt_of_le_of_lt (CodeRange.contains_iff.mp hd).2 (hascii rs hR r hr).2
    have hchar := Char.toNat_ofNat_of_isCharacter (isCharacter_of_lt hlt)
    refine ⟨Char.ofNat d :: v, .cons ?_ hsame, ?_⟩
    · rw [toLower_eq_iff, hchar, hlowered]
    · have hedge : (⟨r, target⟩ : Edge) ∈ (a.state i).edges := hedges ▸ List.mem_map_of_mem hr
      rw [htargets e he] at hv
      exact .edge hedge (hchar.symm ▸ hd) hv

theorem Widens.yields (h : Widens R a b) (hR : ∀ rs, R rs → AsciiRanges rs ∧ CaseClosed rs)
    {i : Nat} {w v : List Char} {symbol : Option Int} (hv : a.Yields i v symbol)
    (hsame : SameLetters w v) : b.Yields i w symbol := by
  induction hv generalizing w with
  | @stop i hacc =>
    cases hsame
    rw [← h.accepting] at hacc
    rw [← h.symbol]
    exact .stop hacc
  | epsilon hj _ ih =>
    rw [← h.epsilons] at hj
    exact .epsilon hj (ih hsame)
  | @edge i e d v symbol he hd _ ih =>
    obtain ⟨c, w, hletter, hrest, rfl⟩ := List.forall₂_cons_right_iff.mp hsame
    obtain ⟨target, rs, hedges, hrs, htargets, hothers, hwidened⟩ := h.bundle i
    obtain ⟨hascii, hclosed⟩ := hR rs hrs
    obtain ⟨r, hr, rfl⟩ := List.mem_map.mp (hedges ▸ he)
    obtain ⟨_, hmem, hc⟩ := covers_widened hascii hclosed hothers hwidened ⟨r, hr, hd⟩
      (toLower_eq_iff.mp hletter)
    obtain ⟨e, he', rfl⟩ := List.mem_map.mp hmem
    refine .edge he' hc ?_
    rw [htargets e he']
    exact ih hrest

end Widens

/-! ## Patterns -/

/-- Matching in any letter case is widening the bundles, but for the symbols. -/
theorem exists_widens_of_ignoringCase {R : List CodeRange → Prop} {a b : Automaton}
    {symbol : Option Int} (ha : a.WellFormed) (h : a.Bundled R)
    (hok : a.ignoringCase symbol = .ok b) :
    ∃ c, Widens R a.compact c ∧ b.texts = c.texts := by
  obtain ⟨states, hstates, hok⟩ := Scan.bind_eq_ok.mp hok
  have hplain : a.ignoringCase none = .ok { a.compact with states := states.toArray } :=
    Scan.bind_eq_ok.mpr ⟨states, hstates, rfl⟩
  have hvalid := (ha.ignoringCase hplain).toValid
  refine ⟨_, h.compact.widens hstates, ?_⟩
  cases hok
  split
  · exact (recognizes_setSymbol hvalid symbol).texts_eq
  · rfl

end Automaton

namespace Pattern

/-- The literals and classes of the pattern hold characters of ASCII alone. -/
def IsAscii (p : Pattern) : Prop := p.MadeOf (· < 128) fun set => ∀ r ∈ set, r.high < 128

/-- What a range of a class holds that begins with no letter, the class holds in either case. -/
def IsCaseClosed (p : Pattern) : Prop :=
  p.MadeOf (fun _ => True) fun set => Automaton.CaseClosed set.normalize.toList

end Pattern

namespace Automaton

theorem asciiRanges_single {cp : Nat} (h : cp < 128) : AsciiRanges [.single cp] :=
  List.forall_mem_singleton.mpr ⟨Nat.le_refl cp, h⟩

theorem caseClosed_single (cp : Nat) : CaseClosed [.single cp] := by
  intro r hr hletter d hd cp' hsame
  obtain rfl := List.mem_singleton.mp hr
  obtain rfl : d = cp := by
    have hin : cp ≤ d ∧ d ≤ cp := CodeRange.contains_iff.mp hd
    omega
  have hplain : ¬ ((65 ≤ d ∧ d ≤ 90) ∨ (97 ≤ d ∧ d ≤ 122)) := hletter
  have hcp : cp' = d := by
    unfold lowered at hsame
    split at hsame <;> split at hsame <;> omega
  exact ⟨_, List.mem_singleton_self _, hcp ▸ hd⟩

theorem asciiRanges_normalize {set : CodeSet} (hascii : ∀ r ∈ set, r.high < 128)
    (hwithin : ∀ r ∈ set, r.Within) : AsciiRanges set.normalize.toList := by
  intro r hr
  have hordered := ordered_normalList fun r (hr : r ∈ set.toList) =>
    (hwithin r (Array.mem_toList_iff.mp hr)).1
  have hle : r.low ≤ r.high := hordered.proper r hr
  have hcovers : Covers set.normalize.toList r.high :=
    ⟨r, hr, CodeRange.contains_iff.mpr ⟨hle, Nat.le_refl _⟩⟩
  obtain ⟨r', hr', hin⟩ := covers_normalList.mp hcovers
  exact ⟨hle, Nat.lt_of_le_of_lt (CodeRange.contains_iff.mp hin).2
    (hascii r' (Array.mem_toList_iff.mp hr'))⟩

/-- **Matching in any letter case.** For a pattern of ASCII, a text that is accepted in any letter
case is one that the automaton of the pattern accepts, but for the case of letters. If what a range
holds that begins with no letter is in its class in either case, all these texts are. -/
theorem accepts_ignoringCase {text : String} {p : Pattern} {a b : Automaton}
    {symbol symbol' : Option Int} (hparse : Pattern.parse text false = .ok p) (hascii : p.IsAscii)
    (ha : Automaton.parse text symbol = .ok a) (hb : a.ignoringCase symbol' = .ok b) :
    (∀ w, b.accepts w = true → ∃ v, SameLetters w v ∧ a.accepts v = true) ∧
    (p.IsCaseClosed →
      ∀ w, b.accepts w = true ↔ ∃ v, SameLetters w v ∧ a.accepts v = true) := by
  have hlegible := Pattern.legible_parse hparse
  have hbuilt : ofPattern p symbol = .ok a := by
    rw [Automaton.parse, hparse] at ha
    change (ofPattern p symbol).mapError LexerError.build = .ok a at ha
    cases hp : ofPattern p symbol with
    | error e =>
      rw [hp] at ha
      cases ha
    | ok a' =>
      rw [hp] at ha
      cases ha
      rfl
  have hwell := wellFormed_ofPattern hlegible hbuilt
  have hranges := (hascii.and (madeOf_of_legible hlegible)).mono (fun _ h => asciiRanges_single h.1)
    fun _ h => asciiRanges_normalize h.1 h.2
  have hvalid := (hwell.ignoringCase hb).toValid
  have hsound : ∀ w, b.accepts w = true → ∃ v, SameLetters w v ∧ a.accepts v = true := by
    intro w hw
    have hbundled := bundled_ofPattern (R := AsciiRanges) (by simp [AsciiRanges]) hranges hbuilt
    obtain ⟨c, hwidens, htexts⟩ := exists_widens_of_ignoringCase hwell hbundled hb
    rw [accepts_iff_mem_texts hvalid, htexts, mem_texts, hwidens.start] at hw
    obtain ⟨s, hw⟩ := hw
    obtain ⟨v, hsame, hv⟩ := hwidens.exists_yields (fun _ h => h) hw
    refine ⟨v, hsame, ?_⟩
    rw [accepts_iff_mem_texts hwell.toValid, ← texts_compact hwell.toValid, mem_texts]
    exact ⟨s, hv⟩
  refine ⟨hsound, fun hclosed w => ⟨hsound w, ?_⟩⟩
  rintro ⟨v, hsame, hv⟩
  have hboth := (hranges.and hclosed).mono (fun cp h => And.intro h.1 (caseClosed_single cp))
    fun _ h => h
  have hbundled := bundled_ofPattern (R := fun rs => AsciiRanges rs ∧ CaseClosed rs)
    (by simp [AsciiRanges, CaseClosed]) hboth hbuilt
  obtain ⟨c, hwidens, htexts⟩ := exists_widens_of_ignoringCase hwell hbundled hb
  rw [accepts_iff_mem_texts hwell.toValid, ← texts_compact hwell.toValid, mem_texts] at hv
  obtain ⟨s, hv⟩ := hv
  rw [accepts_iff_mem_texts hvalid, htexts, mem_texts, hwidens.start]
  exact ⟨s, hwidens.yields (fun _ h => h) hv hsame⟩

/-- If the end can be reached, the automaton of a set is compact. -/
theorem compact_ofSet {set : CodeSet} {symbol : Option Int} (hset : ∀ r ∈ set, r.Within)
    (hclosure : (ofSet set symbol).closure = [0, 1]) :
    (ofSet set symbol).compact = ofSet set symbol :=
  compact_eq_self (wellFormed_ofSet hset symbol).toValid hclosure

theorem parse_ofRange {text : String} {r : CodeRange}
    (hparse : Pattern.parse text false = .ok (.oneOf #[r] false)) :
    Automaton.parse text none = .ok (ofSet #[r] none) := by
  rw [Automaton.parse, hparse]
  rfl

/-- A class of letters is matched in either case. -/
theorem accepts_ignoringCase_letters :
    ∃ (p : Pattern) (a b : Automaton), Pattern.parse "[a-c]" false = .ok p ∧ p.IsAscii ∧
      Automaton.parse "[a-c]" none = .ok a ∧ a.ignoringCase none = .ok b ∧ p.IsCaseClosed ∧
      (∀ w, b.accepts w = true ↔ ∃ v, SameLetters w v ∧ a.accepts v = true) ∧
      b.accepts ['B'] = true := by
  have hparse : Pattern.parse "[a-c]" false = .ok (.oneOf #[⟨97, 99⟩] false) :=
    Pattern.parse_bracket (show "[a-c]".toList = '[' :: ['a', '-', 'c', ']'] from rfl) (by cbv)
  have hascii : (Pattern.oneOf #[⟨97, 99⟩] false).IsAscii := .oneOf (by decide)
  have hclosed : (Pattern.oneOf #[⟨97, 99⟩] false).IsCaseClosed := by
    have hranges : (normalize (negateIf false #[⟨97, 99⟩])).toList = [⟨97, 99⟩] := by cbv
    refine .oneOf fun r hr hletter => absurd ?_ hletter
    rw [hranges] at hr
    obtain rfl := List.mem_singleton.mp hr
    exact .inr ⟨by decide, by decide⟩
  have hwidened : (ofSet #[⟨97, 99⟩] none).ignoringCase none =
      .ok ⟨#[{ edges := [⟨⟨97, 99⟩, 1⟩, ⟨⟨65, 67⟩, 1⟩] }, { accepting := true }], 0⟩ := by
    rw [ignoringCase, compact_ofSet (by decide) (by cbv)]
    decide +kernel
  have hfolds := accepts_ignoringCase hparse hascii (parse_ofRange hparse) hwidened
  exact ⟨_, _, _, hparse, hascii, parse_ofRange hparse, hwidened, hclosed, hfolds.2 hclosed,
    by cbv⟩

/-- The class of the at sign and a letter is one range, which is left alone since it begins with the
at sign, so the letter is not matched in the other case. -/
theorem accepts_ignoringCase_ne_atSign :
    ∃ (p : Pattern) (a b : Automaton), Pattern.parse "[@A]" false = .ok p ∧ p.IsAscii ∧
      Automaton.parse "[@A]" none = .ok a ∧ a.ignoringCase none = .ok b ∧
      ¬ ∀ w, b.accepts w = true ↔ ∃ v, SameLetters w v ∧ a.accepts v = true := by
  have hparse : Pattern.parse "[@A]" false = .ok (.oneOf #[⟨64, 65⟩] false) :=
    Pattern.parse_bracket (show "[@A]".toList = '[' :: ['@', 'A', ']'] from rfl) (by cbv)
  have hsame : (ofSet #[⟨64, 65⟩] none).ignoringCase none = .ok (ofSet #[⟨64, 65⟩] none) := by
    rw [ignoringCase, compact_ofSet (by decide) (by cbv)]
    decide +kernel
  have hupper : (ofSet #[⟨64, 65⟩] none).accepts ['A'] = true := by cbv
  have hlower : (ofSet #[⟨64, 65⟩] none).accepts ['a'] = false := by cbv
  refine ⟨_, _, _, hparse, .oneOf (by decide), parse_ofRange hparse, hsame, fun hfolds => ?_⟩
  have haccepts := (hfolds ['a']).mpr ⟨['A'], .cons (by decide) .nil, hupper⟩
  rw [hlower] at haccepts
  cases haccepts

end Automaton

end FiberLex
