import FiberLex.Pattern.Parser
import FiberLex.Proofs.Category

/-!
# Patterns that have been read

What the reader makes of a text. An atom is made of code points, and a class has at least one range
(`Atomic`). What holds of atoms and is kept when patterns are put together as the reader does it
(`KeptByReader`) is kept by each step of the reader of groups, and so holds of every pattern that has
been read (`KeptByReader.parse`). In particular every such pattern is legible (`legible_parse`):
literals and the ends of ranges are code points, a class has at least one range, a choice at least one
branch, and the bounds of a repetition are in order and allow a copy.
-/

namespace FiberLex.Pattern

open CodeSet

/-- The pattern is an atom other than a group, and can be read. -/
inductive Atomic : Pattern → Prop where
  | literal {cp : Nat} (h : cp ≤ maxCodePoint) : Atomic (literal cp)
  | dot : Atomic dot
  | ofRanges {rs : List CodeRange} (h : Filled rs) (negated : Bool) : Atomic (ofRanges rs negated)
  | category (cat : Category) (negated : Bool) : Atomic (category cat negated)

/-! ## Characters and classes -/

section Classes

variable {rs : List CodeRange} {cs rest : List Char}

theorem filled_singleton {r : CodeRange} (h : r.Within) : Filled [r] :=
  ⟨List.cons_ne_nil _ _, List.forall_mem_singleton.mpr h⟩

theorem within_single {cp : Nat} (h : cp ≤ maxCodePoint) : (CodeRange.single cp).Within :=
  ⟨Nat.le_refl cp, h⟩

theorem escapeValue_le (inBrackets : Bool) (c : Char) :
    escapeValue inBrackets c ≤ maxCodePoint := by
  have hchar := Char.toNat_le_maxCodePoint c
  unfold escapeValue
  split
  case h_9 =>
    split
    · decide
    · exact hchar
  case h_10 => exact hchar
  all_goals decide

theorem le_of_readEscapedChar {inBrackets : Bool} {cp : Nat}
    (h : readEscapedChar inBrackets cs = .ok (cp, rest)) : cp ≤ maxCodePoint := by
  cases cs with
  | nil => cases h
  | cons c cs =>
    simp only [readEscapedChar] at h
    split at h
    · cases h
      exact escapeValue_le inBrackets c
    · obtain ⟨⟨value, rest'⟩, -, h⟩ := Scan.bind_eq_ok.mp h
      dsimp only at h
      split at h
      · cases h
      · rename_i hle
        cases h
        exact Nat.le_of_not_lt hle

/-- What is in a class, or outside it, is not empty if it has a code point. -/
theorem filled_negateIf {negated : Bool} {cp : Nat} (h : ∀ r ∈ rs, r.Within)
    (hcp : cp ≤ maxCodePoint) (hcovers : Covers rs cp ↔ negated = false) :
    Filled ((CodeSet.ofRanges rs).negateIf negated).toList := by
  have hordered : Ordered (CodeSet.ofRanges rs).toList :=
    ordered_normalList fun r hr => (h r hr).1
  have hthere : Covers ((CodeSet.ofRanges rs).negateIf negated).toList cp := by
    rw [covers_negateIf hordered negated hcp]
    exact (iff_congr covers_normalList Iff.rfl).mpr hcovers
  exact filled_of_covers (within_negateIf hordered (within_normalList h) negated) hthere

/-- A class named by a letter has code points, and so has what is outside it. -/
theorem filled_of_shorthand? {c : Char} {negated : Bool}
    (h : CharClass.shorthand? c = some (rs, negated)) :
    Filled rs ∧ Filled ((CodeSet.ofRanges rs).negateIf negated).toList := by
  have hdigit : Filled CharClass.digit := ⟨by decide, by decide⟩
  have hspace : Filled CharClass.space := ⟨by decide, by decide⟩
  have hword : Filled CharClass.word := ⟨by decide, by decide⟩
  -- the digit zero and the blank tell the classes apart
  have hzero : 0x30 ≤ maxCodePoint := by decide
  have hblank : 0x20 ≤ maxCodePoint := by decide
  unfold CharClass.shorthand? at h
  split at h <;> cases h
  · exact ⟨hdigit, filled_negateIf hdigit.within hzero (by simp [CharClass.digit])⟩
  · exact ⟨hdigit, filled_negateIf hdigit.within hblank (by simp [CharClass.digit])⟩
  · exact ⟨hspace, filled_negateIf hspace.within hblank (by simp [CharClass.space])⟩
  · exact ⟨hspace, filled_negateIf hspace.within hzero (by simp [CharClass.space])⟩
  · exact ⟨hword, filled_negateIf hword.within hzero (by simp [CharClass.word])⟩
  · exact ⟨hword, filled_negateIf hword.within hblank (by simp [CharClass.word])⟩

theorem filled_of_ofName? {name : String} (h : CharClass.ofName? name = some rs) : Filled rs := by
  have hnamed : ∀ entry ∈ CharClass.named, entry.2 ≠ [] ∧ ∀ r ∈ entry.2, r.Within := by decide
  rw [CharClass.ofName?, List.lookup_eq_some_iff] at h
  obtain ⟨before, after, hsplit, -⟩ := h
  obtain ⟨hne, hwithin⟩ := hnamed (name, rs) (hsplit ▸ by simp)
  exact ⟨hne, hwithin⟩

/-- What is read as an escape has a property if classes, categories and code points have it. -/
theorem of_readEscapeAs {α : Type} {P : α → Prop} {inBrackets : Bool}
    {ofClass : List CodeRange → Bool → α} {ofCategory : Category → Bool → α} {ofCode : Nat → α}
    {v : α} (h : readEscapeAs inBrackets ofClass ofCategory ofCode cs = .ok (v, rest))
    (hclass : ∀ {c ranges negated}, CharClass.shorthand? c = some (ranges, negated) →
      P (ofClass ranges negated))
    (hcategory : ∀ cat negated, P (ofCategory cat negated))
    (hcode : ∀ {cp}, cp ≤ maxCodePoint → P (ofCode cp)) : P v := by
  cases cs with
  | nil => cases h
  | cons c cs =>
    simp only [readEscapeAs] at h
    split at h
    · rename_i hshorthand
      cases h
      exact hclass hshorthand
    · split at h
      · obtain ⟨r, -, h⟩ := Scan.bind_eq_ok.mp h
        cases h
        exact hcategory _ _
      · obtain ⟨r, hchar, h⟩ := Scan.bind_eq_ok.mp h
        cases h
        exact hcode (le_of_readEscapedChar hchar)

/-- An item of a bracket class stands for code points, and for at least one. -/
def ClassItem.IsFilled : ClassItem → Prop
  | .char cp => cp ≤ maxCodePoint
  | .ranges rs => Filled rs

theorem isFilled_of_readClassEscape {item : ClassItem}
    (h : readClassEscape cs = .ok (item, rest)) : item.IsFilled := by
  refine of_readEscapeAs h (fun hclass => (filled_of_shorthand? hclass).2) (fun cat negated => ?_) id
  obtain ⟨cp, hcp⟩ := cat.exists_covers_negateIf negated
  exact filled_of_covers (within_negateIf cat.ordered_ranges cat.within_ranges _) hcp

theorem isFilled_of_readClassItem {item : ClassItem} (h : readClassItem cs = .ok (item, rest)) :
    item.IsFilled := by
  unfold readClassItem at h
  split at h
  · cases h
  · exact isFilled_of_readClassEscape h
  · obtain ⟨⟨rs, rest'⟩, hname, h⟩ := Scan.bind_eq_ok.mp h
    cases h
    obtain ⟨cs₁, -, hname⟩ := Scan.bind_eq_ok.mp hname
    obtain ⟨cs₂, -, hname⟩ := Scan.bind_eq_ok.mp hname
    obtain ⟨cs₃, -, hname⟩ := Scan.bind_eq_ok.mp hname
    split at hname
    · rename_i ranges hranges
      cases hname
      exact filled_of_ofName? hranges
    · cases hname
  · cases h
    exact Char.toNat_le_maxCodePoint _

theorem filled_of_readRangeEnd {low : Nat} (hlow : low ≤ maxCodePoint)
    (h : readRangeEnd low cs = .ok (rs, rest)) : Filled rs := by
  have hdash : Filled [.single low, .single '-'.toNat] :=
    ⟨List.cons_ne_nil _ _, List.forall_mem_cons.mpr ⟨within_single hlow, by decide⟩⟩
  unfold readRangeEnd at h
  split at h
  · cases h
    exact hdash
  · cases h
    exact hdash
  · obtain ⟨⟨item, rest'⟩, hitem, h⟩ := Scan.bind_eq_ok.mp h
    have hhigh := isFilled_of_readClassItem hitem
    split at h
    · cases h
    · split at h
      · cases h
      · rename_i heq hle
        cases heq
        cases h
        exact filled_singleton ⟨Nat.le_of_not_lt hle, hhigh⟩
  · cases h
    exact filled_singleton (within_single hlow)

theorem filled_of_readElement (h : readElement cs = .ok (rs, rest)) : Filled rs := by
  obtain ⟨⟨item, rest'⟩, hitem, h⟩ := Scan.bind_eq_ok.mp h
  have hfilled := isFilled_of_readClassItem hitem
  cases item with
  | ranges rs' =>
    cases h
    exact hfilled
  | char low => exact filled_of_readRangeEnd hfilled h

/-- The elements up to the closing bracket, of which there may be none. -/
theorem within_of_readElements (h : readElements cs = .ok (rs, rest)) : ∀ r ∈ rs, r.Within := by
  fun_induction readElements cs generalizing rs rest with
  | case1 => cases h
  | case2 rest' =>
    cases h
    simp
  | case3 => cases h
  | case4 c cs _ rs' rest' he ih =>
    obtain ⟨⟨more, rest''⟩, hm, h⟩ := Scan.bind_eq_ok.mp h
    cases h
    exact List.forall_mem_append.mpr ⟨(filled_of_readElement he).within, ih hm⟩

end Classes

/-! ## Atoms -/

section Atoms

variable {p : Pattern} {c : Char} {cs rest : List Char}

theorem atomic_of_readBody {negated : Bool} (h : readBody negated cs = .ok (p, rest)) :
    p.Atomic := by
  obtain ⟨⟨first, rest₁⟩, h₁, h⟩ := Scan.bind_eq_ok.mp h
  obtain ⟨⟨more, rest₂⟩, h₂, h⟩ := Scan.bind_eq_ok.mp h
  cases h
  have hfirst := filled_of_readElement h₁
  refine .ofRanges ⟨List.append_ne_nil_of_left_ne_nil hfirst.ne_nil _, ?_⟩ negated
  exact List.forall_mem_append.mpr ⟨hfirst.within, within_of_readElements h₂⟩

theorem atomic_of_readEscape (h : readEscape cs = .ok (p, rest)) : p.Atomic :=
  of_readEscapeAs h (fun hclass => .ofRanges (filled_of_shorthand? hclass).1 _) .category .literal

theorem atomic_of_readAtom (h : readAtom c cs = .ok (p, rest)) : p.Atomic := by
  simp only [readAtom] at h
  split at h
  · unfold readBracket at h
    split at h
    · exact atomic_of_readBody h
    · exact atomic_of_readBody h
  · split at h
    · cases h
      exact .dot
    · split at h
      · exact atomic_of_readEscape h
      · cases h
        exact .literal (Char.toNat_le_maxCodePoint c)

end Atoms

/-! ## Modifiers -/

theorem bounds_of_readBoundsEnd {site cs rest : List Char} {min : Nat} {max : Option Nat}
    {b : Nat × Option Nat} (h : readBoundsEnd site min max cs = .ok (b, rest)) :
    ∀ m, b.2 = some m → b.1 ≤ m := by
  unfold readBoundsEnd at h
  split at h
  · split at h
    · split at h
      · cases h
      · rename_i hle
        cases h
        rintro m hm
        cases hm
        exact Nat.le_of_not_lt hle
    · cases h
      rintro m hm
      cases hm
  · cases h

theorem bounds_of_readModifier {c : Char} {cs rest : List Char} {b : Nat × Option Nat}
    (h : readModifier c cs = .ok (b, rest)) : ∀ m, b.2 = some m → b.1 ≤ m := by
  simp only [readModifier] at h
  split at h
  · cases h
    simp
  · split at h
    · cases h
      simp
    · split at h
      · cases h
        simp
      · obtain ⟨⟨first, cs₁⟩, -, h⟩ := Scan.bind_eq_ok.mp h
        dsimp only at h
        split at h
        · obtain ⟨⟨second, cs₂⟩, -, h⟩ := Scan.bind_eq_ok.mp h
          exact bounds_of_readBoundsEnd h
        · split at h
          · exact bounds_of_readBoundsEnd h
          · cases h

theorem allowLazy_of_readLazy {allowLazy : Bool} {cs : List Char}
    (h : (readLazy allowLazy cs).1 = true) : allowLazy = true := by
  unfold readLazy at h
  split at h
  · split at h
    · rename_i hallowed
      exact hallowed
    · cases h
  · cases h

/-! ## Groups -/

/-- The property holds of atoms and is kept when patterns are put together as the reader does it. -/
structure KeptByReader (allowLazy : Bool) (P : Pattern → Prop) : Prop where
  atom : ∀ {p}, p.Atomic → P p
  modified : ∀ {p} {bounds : Nat × Option Nat} {isLazy : Bool}, P p →
    (∀ m, bounds.2 = some m → bounds.1 ≤ m) → (isLazy = true → allowLazy = true) →
    P (modified p bounds isLazy)
  sequence : ∀ {items : List Pattern}, (∀ p ∈ items, P p) → P (sequence items)
  choice : ∀ {branches : List Pattern}, branches ≠ [] → (∀ p ∈ branches, P p) → P (choice branches)

/-- All patterns of a group have the property. -/
def Group.All (P : Pattern → Prop) (g : Group) : Prop :=
  (∀ p ∈ g.branches, P p) ∧ ∀ p ∈ g.items, P p

/-- All patterns of the open groups have the property. -/
def OpenGroups.All (P : Pattern → Prop) (s : OpenGroups) : Prop :=
  s.inner.All P ∧ ∀ g ∈ s.outer, g.All P

section Kept

variable {P : Pattern → Prop} {allowLazy : Bool} {g g' : Group} {s s' : OpenGroups} {c : Char}
  {cs rest : List Char}

theorem Group.All.push (h : g.All P) {p : Pattern} (hp : P p) : (g.push p).All P :=
  ⟨h.1, List.forall_mem_cons.mpr ⟨hp, h.2⟩⟩

theorem KeptByReader.sequence_items (hP : KeptByReader allowLazy P) (h : g.All P) :
    P (Pattern.sequence g.items.reverse) :=
  hP.sequence fun p hp => h.2 p (List.mem_reverse.mp hp)

theorem KeptByReader.bar (hP : KeptByReader allowLazy P) (h : g.All P) : g.bar.All P :=
  ⟨List.forall_mem_cons.mpr ⟨hP.sequence_items h, h.1⟩, by simp [Group.bar]⟩

theorem KeptByReader.close (hP : KeptByReader allowLazy P) (h : g.All P) : P g.close := by
  refine hP.choice (by simp) fun p hp => ?_
  rcases List.mem_append.mp hp with hp | hp
  · exact h.1 p (List.mem_reverse.mp hp)
  · rw [List.mem_singleton] at hp
    exact hp ▸ hP.sequence_items h

theorem KeptByReader.modifyLast (hP : KeptByReader allowLazy P) (hg : g.All P)
    (h : modifyLast allowLazy g c cs = .ok (g', rest)) : g'.All P := by
  unfold Pattern.modifyLast at h
  split at h
  · cases h
  · rename_i last items hitems
    obtain ⟨⟨bounds, rest₁⟩, hbounds, h⟩ := Scan.bind_eq_ok.mp h
    cases h
    have hall : ∀ p ∈ last :: items, P p := hitems ▸ hg.2
    obtain ⟨hlast, hrest⟩ := List.forall_mem_cons.mp hall
    exact ⟨hg.1, List.forall_mem_cons.mpr
      ⟨hP.modified hlast (bounds_of_readModifier hbounds) allowLazy_of_readLazy, hrest⟩⟩

/-- A step keeps the property of all patterns. -/
theorem KeptByReader.readStep (hP : KeptByReader allowLazy P)
    (h : readStep allowLazy s c cs = .ok (s', rest)) (hs : s.All P) : s'.All P := by
  simp only [Pattern.readStep] at h
  split at h
  · cases h
    exact ⟨⟨by simp, by simp⟩, List.forall_mem_cons.mpr hs⟩
  · split at h
    · cases h
      exact ⟨hP.bar hs.1, hs.2⟩
    · split at h
      · split at h
        · cases h
        · rename_i g outer houter
          cases h
          have hall : ∀ g' ∈ g :: outer, g'.All P := houter ▸ hs.2
          obtain ⟨hg, hrest⟩ := List.forall_mem_cons.mp hall
          exact ⟨hg.push (hP.close hs.1), hrest⟩
      · split at h
        · obtain ⟨⟨g, rest₁⟩, h₁, h⟩ := Scan.bind_eq_ok.mp h
          cases h
          exact ⟨hP.modifyLast hs.1 h₁, hs.2⟩
        · obtain ⟨⟨atom, rest₁⟩, h₁, h⟩ := Scan.bind_eq_ok.mp h
          cases h
          exact ⟨hs.1.push (hP.atom (atomic_of_readAtom h₁)), hs.2⟩

theorem KeptByReader.readGroups (hP : KeptByReader allowLazy P) {p : Pattern}
    (h : readGroups allowLazy s cs = .ok (p, rest)) (hs : s.All P) : P p := by
  fun_induction Pattern.readGroups allowLazy s cs generalizing p rest with
  | case1 =>
    cases h
    exact hP.close hs.1
  | case2 => cases h
  | case3 =>
    cases h
    exact hP.close hs.1
  | case4 => cases h
  | case5 s c cs _ s' rest' hstep ih => exact ih h (hP.readStep hstep hs)

end Kept

/-! ## Whole patterns -/

/-- Reading goes on after a step. -/
theorem readGroups_of_readStep {allowLazy : Bool} {s s' : OpenGroups} {c : Char}
    {cs rest : List Char} (hstep : readStep allowLazy s c cs = .ok (s', rest)) :
    readGroups allowLazy s (c :: cs) = readGroups allowLazy s' rest := by
  have hopen : ¬ (c = ')' ∧ s.outer = []) := by
    rintro ⟨rfl, houter⟩
    simp [readStep, houter] at hstep
  rw [readGroups, if_neg hopen]
  split
  · rename_i f hfails
    rw [hstep] at hfails
    cases hfails
  · rename_i hfound
    rw [hstep] at hfound
    cases hfound
    rfl

/-- A text is a pattern if reading its groups gets to the end. -/
theorem parse_eq_ok_iff {text : String} {allowLazy : Bool} {p : Pattern} :
    parse text allowLazy = .ok p ↔ readGroups allowLazy {} text.toList = .ok (p, []) := by
  have hwhole : readWhole allowLazy text.toList = .ok p ↔
      readGroups allowLazy {} text.toList = .ok (p, []) := by
    refine Scan.bind_eq_ok.trans ⟨?_, fun hread => ⟨_, hread, rfl⟩⟩
    rintro ⟨⟨q, _ | ⟨c, rest⟩⟩, hread, hend⟩
    · cases hend
      exact hread
    · cases hend
  rw [← hwhole]
  simp only [parse, Cursor.readPattern, Bool.false_eq_true, if_false]
  change _ ↔ readWhole allowLazy (Cursor.ofString text).position.rest = _
  cases readWhole allowLazy (Cursor.ofString text).position.rest with
  | error f => exact ⟨nofun, nofun⟩
  | ok q => exact ⟨fun h => Except.ok.inj h ▸ rfl, fun h => Except.ok.inj h ▸ rfl⟩

/-- A text that is a bracket class is the pattern of the class. -/
theorem parse_bracket {text : String} {allowLazy : Bool} {cs : List Char} {p : Pattern}
    (htext : text.toList = '[' :: cs) (h : readBracket cs = .ok (p, [])) :
    parse text allowLazy = .ok p := by
  have hstep : readStep allowLazy {} '[' cs = .ok (⟨⟨[], [p]⟩, []⟩, []) :=
    Scan.bind_eq_ok.mpr ⟨(p, []), h, rfl⟩
  rw [parse_eq_ok_iff, htext, readGroups_of_readStep hstep, readGroups]
  rfl

/-- What the reader keeps holds of every pattern that has been read. -/
theorem KeptByReader.parse {P : Pattern → Prop} {allowLazy : Bool} (hP : KeptByReader allowLazy P)
    {text : String} {p : Pattern} (h : parse text allowLazy = .ok p) : P p :=
  hP.readGroups (parse_eq_ok_iff.mp h) ⟨⟨by simp, by simp⟩, by simp⟩

/-! ## Legible patterns -/

/-- The pattern is one that can be read. -/
inductive Legible : Pattern → Prop where
  | literal {cp : Nat} (h : cp ≤ maxCodePoint) : Legible (literal cp)
  | dot : Legible dot
  | ofRanges {rs : List CodeRange} (h : Filled rs) (negated : Bool) : Legible (ofRanges rs negated)
  | category (cat : Category) (negated : Bool) : Legible (category cat negated)
  | concat {items : List Pattern} (h : ∀ p ∈ items, Legible p) : Legible (concat items)
  | alt {branches : List Pattern} (hne : branches ≠ []) (h : ∀ p ∈ branches, Legible p) :
    Legible (alt branches)
  | repetition {body : Pattern} {min : Nat} {max : Option Nat} (h : Legible body)
      (hbounds : ∀ m, max = some m → min ≤ m ∧ 0 < m) (isLazy : Bool) :
    Legible (repetition body min max isLazy)

theorem legible_sequence {items : List Pattern} (h : ∀ p ∈ items, p.Legible) :
    (sequence items).Legible := by
  unfold sequence
  split
  · exact h _ (by simp)
  · exact .concat h

theorem legible_choice {branches : List Pattern} (hne : branches ≠ [])
    (h : ∀ p ∈ branches, p.Legible) : (choice branches).Legible := by
  unfold choice
  split
  · exact h _ (by simp)
  · exact .alt hne h

theorem Atomic.legible {p : Pattern} (h : p.Atomic) : p.Legible := by
  cases h with
  | literal h => exact .literal h
  | dot => exact .dot
  | ofRanges h negated => exact .ofRanges h negated
  | category cat negated => exact .category cat negated

theorem Legible.modified {p : Pattern} (h : p.Legible) {bounds : Nat × Option Nat}
    (hbounds : ∀ m, bounds.2 = some m → bounds.1 ≤ m) (isLazy : Bool) :
    (modified p bounds isLazy).Legible := by
  unfold Pattern.modified
  split
  · exact .concat (by simp)
  · rename_i hzero
    refine .repetition h (fun m hm => ⟨hbounds m hm, ?_⟩) isLazy
    rcases Nat.eq_zero_or_pos m with rfl | hpos
    · exact absurd hm hzero
    · exact hpos

/-- A pattern that has been read is legible. -/
theorem legible_parse {text : String} {allowLazy : Bool} {p : Pattern}
    (h : parse text allowLazy = .ok p) : p.Legible := by
  have hkept : KeptByReader allowLazy Legible :=
    { atom := Atomic.legible
      modified := fun hp hbounds _ => hp.modified hbounds _
      sequence := legible_sequence
      choice := legible_choice }
  exact hkept.parse h

end FiberLex.Pattern
