import FiberLex.Program.Listing
import FiberLex.Program.Operand
import FiberLex.Proofs.CodeSet
import FiberLex.Proofs.Text.Numeral
import Mathlib.Data.List.Forall2

/-!
# Reading operands back

What a listing writes for an operand, the readers of operands read back. In a listing an operand is
followed by a comma, a colon or the end of the line, and none of these can belong to it, so each
reader stops where the operand ends. Lists are read back because what stands between two commas is.
-/

namespace FiberLex.Operand

open Text

/-! ## Blanks -/

@[simp] theorem skipBlanks_space (cs : List Char) : skipBlanks (' ' :: cs) = skipBlanks cs := by
  simp [skipBlanks, isBlank]

/-- The text begins with a character that shows and is no colon. -/
def Shown (text : List Char) : Prop :=
  ∃ c cs, text = c :: cs ∧ c ≠ ';' ∧ c ≠ ':' ∧ isBlank c = false

theorem Shown.append {text : List Char} (h : Shown text) (more : List Char) :
    Shown (text ++ more) := by
  obtain ⟨c, cs, rfl, hc⟩ := h
  exact ⟨c, cs ++ more, rfl, hc⟩

/-- What shows is not skipped. -/
theorem Shown.skipBlanks {text : List Char} (h : Shown text) : skipBlanks text = text := by
  obtain ⟨c, cs, rfl, hsemicolon, -, hblank⟩ := h
  simp [Operand.skipBlanks, hsemicolon, hblank]

theorem Shown.skipLines {text : List Char} (h : Shown text) : skipLines false text = text := by
  obtain ⟨c, cs, rfl, hsemicolon, -, hblank⟩ := h
  have hline : c ≠ '\n' := by
    rintro rfl
    cases hblank
  simp [Operand.skipLines, hline, hsemicolon, hblank]

theorem shown_quoted (cp : Nat) : Shown (Listing.quoted cp) :=
  ⟨'"', _, rfl, by decide, by decide, by decide⟩

/-- What may follow an operand in a listing. -/
def separators : List Char := [',', ':', '\n']

theorem forall_separator {P : Char → Prop} (hcomma : P ',') (hcolon : P ':') (hline : P '\n')
    {c : Char} (hc : c ∈ separators) : P c := by
  rcases List.mem_cons.mp hc with rfl | hc
  · exact hcomma
  · rcases List.mem_pair.mp hc with rfl | rfl
    · exact hcolon
    · exact hline

theorem skipBlanks_separator {c : Char} (hc : c ∈ separators) (cs : List Char) :
    skipBlanks (c :: cs) = c :: cs :=
  forall_separator (P := fun c => skipBlanks (c :: cs) = c :: cs) rfl rfl rfl hc

/-- In front of any of the given characters, the reader reads a text back as something with a
property. -/
def Reads {α : Type} (stops : List Char) (read : List Char → Except Fault (α × List Char))
    (text : List Char) (P : α → Prop) : Prop :=
  ∀ c ∈ stops, ∀ rest, ∃ a, P a ∧ read (text ++ c :: rest) = .ok (a, c :: rest)

/-! ## Characters and ranges -/

theorem quotedBody_letter {cp : Nat} {letter : Char} (h : Listing.escapeLetter? cp = some letter)
    (site rest : List Char) : quotedBody site ('\\' :: letter :: rest) = .ok (cp, rest) := by
  unfold Listing.escapeLetter? at h
  split at h <;> cases h <;> rfl

/-- A character that stands for itself is neither a backslash nor the end of the line. -/
theorem quotedBody_itself {c : Char} (h : Listing.escapeLetter? c.toNat = none)
    (site rest : List Char) : quotedBody site (c :: rest) = .ok (c.toNat, rest) := by
  have hslash : c ≠ '\\' := by
    rintro rfl
    cases h
  have hline : c ≠ '\n' := by
    rintro rfl
    cases h
  unfold quotedBody
  split
  · rename_i heq
    cases heq
  · rename_i heq
    exact absurd (List.cons.inj heq).1 hslash
  · rename_i heq
    exact absurd (List.cons.inj heq).1 hslash
  · rename_i heq
    obtain ⟨rfl, rfl⟩ := List.cons.inj heq
    rw [if_neg hline]

theorem quotedBody_quotedBody {cp : Nat} (h : cp ≤ maxCodePoint) (site rest : List Char) :
    quotedBody site (Listing.quotedBody cp ++ rest) = .ok (cp, rest) := by
  unfold Listing.quotedBody
  split
  · rename_i letter hletter
    exact quotedBody_letter hletter site rest
  · rename_i hletter
    split
    · rename_i hshows
      have hcp := Char.toNat_ofNat_of_isCharacter (Bool.and_eq_true_iff.mp hshows).1
      have := quotedBody_itself (c := Char.ofNat cp) (by rw [hcp]; exact hletter) site rest
      rwa [hcp] at this
    · split
      · exact Scan.hex_padZeros rest (by omega)
      · exact Scan.hex_padZeros rest (by unfold maxCodePoint at h; omega)

theorem character_quoted {cp : Nat} (h : cp ≤ maxCodePoint) (rest : List Char) :
    character (Listing.quoted cp ++ rest) = .ok (cp, rest) := by
  have hskip : skipBlanks (Listing.quoted cp ++ rest) =
      '"' :: (Listing.quotedBody cp ++ '"' :: rest) := by
    rw [((shown_quoted cp).append rest).skipBlanks, Listing.quoted, List.cons_append,
      List.append_assoc, List.singleton_append]
  unfold character
  rw [hskip]
  simp only [true_or, if_true]
  refine Scan.bind_eq_ok.mpr ⟨_, quotedBody_quotedBody h _ _, ?_⟩
  refine Scan.bind_eq_ok.mpr ⟨_, Scan.char_cons _ rest, ?_⟩
  exact if_neg (Nat.not_lt.mpr h)

theorem range_listing {r : CodeRange} (hproper : r.low ≤ r.high) (hmax : r.high ≤ maxCodePoint) :
    Reads separators range (Listing.range r) (r = ·) := by
  intro c hc rest
  refine ⟨r, rfl, ?_⟩
  have hlow := character_quoted (Nat.le_trans hproper hmax)
  have hskip := skipBlanks_separator hc rest
  -- what follows an operand does not begin with a dot
  have hdot : c ≠ '.' := by
    rintro rfl
    revert hc
    decide
  unfold Listing.range
  split
  · rename_i heq
    refine Scan.bind_eq_ok.mpr ⟨_, hlow (c :: rest), ?_⟩
    simp only [hskip]
    split
    · rename_i heq'
      exact absurd (List.cons.inj heq').1 hdot
    · obtain ⟨low, high⟩ := r
      cases heq
      rfl
  · rw [List.append_assoc]
    refine Scan.bind_eq_ok.mpr ⟨_, hlow _, ?_⟩
    have hdots : ∀ cs, skipBlanks ('.' :: cs) = '.' :: cs := fun _ => rfl
    simp only [List.cons_append, hdots]
    refine Scan.bind_eq_ok.mpr ⟨_, character_quoted hmax _, ?_⟩
    exact if_neg (Nat.not_lt.mpr hproper)

/-! ## Names and labels -/

theorem toNat_of_isAlpha {c : Char} (h : c.isAlpha = true) :
    (65 ≤ c.toNat ∧ c.toNat ≤ 90) ∨ (97 ≤ c.toNat ∧ c.toNat ≤ 122) := by
  rcases Bool.or_eq_true_iff.mp (show (c.isUpper || c.isLower) = true from h) with h | h
  · obtain ⟨hlow, hhigh⟩ : 'A'.val ≤ c.val ∧ c.val ≤ 'Z'.val := of_decide_eq_true h
    exact Or.inl ⟨UInt32.le_iff_toNat_le.mp hlow, UInt32.le_iff_toNat_le.mp hhigh⟩
  · have hboth : (decide ('a'.val ≤ c.val) && decide (c.val ≤ 'z'.val)) = true := h
    obtain ⟨hlow, hhigh⟩ : 'a'.val ≤ c.val ∧ c.val ≤ 'z'.val := by simpa using hboth
    exact Or.inr ⟨UInt32.le_iff_toNat_le.mp hlow, UInt32.le_iff_toNat_le.mp hhigh⟩

theorem toNat_of_isDigit {c : Char} (h : c.isDigit = true) : 48 ≤ c.toNat ∧ c.toNat ≤ 57 := by
  simpa [Char.isDigit, UInt32.le_iff_toNat_le] using h

theorem shown_of_isAlphanum {c : Char} (h : c.isAlphanum = true) (cs : List Char) :
    Shown (c :: cs) := by
  have hblank : isBlank c = false := by
    have hrange : 48 ≤ c.toNat ∧ c.toNat ≤ 122 := by
      rcases Bool.or_eq_true_iff.mp h with h | h
      · have := toNat_of_isAlpha h
        omega
      · have := toNat_of_isDigit h
        omega
    simp [isBlank]
    omega
  refine ⟨c, cs, rfl, ?_, ?_, hblank⟩
  · rintro rfl
    cases h
  · rintro rfl
    cases h

/-- Letters and digits of ASCII can stand in names. -/
theorem isNameChar_of_isAlphanum {c : Char} (h : c.isAlphanum = true) : isNameChar c = true := by
  rcases Bool.or_eq_true_iff.mp h with h | h
  · have hlt : c.toNat < 128 := by
      have := toNat_of_isAlpha h
      omega
    simp [isNameChar, isAlphanumeric, isAlphabetic, hlt, h]
  · have hlt : c.toNat < 128 := by
      have := toNat_of_isDigit h
      omega
    simp [isNameChar, isAlphanumeric, isNumeric, hlt, h]

/-- A word of letters and digits of ASCII that begins with a letter. -/
def IsWord : List Char → Prop
  | [] => False
  | c :: cs => c.isAlpha = true ∧ cs.all Char.isAlphanum = true

instance : (w : List Char) → Decidable (IsWord w)
  | [] => isFalse id
  | c :: cs => inferInstanceAs (Decidable (c.isAlpha = true ∧ cs.all Char.isAlphanum = true))

theorem IsWord.shown {w : List Char} (h : IsWord w) : Shown w := by
  cases w with
  | nil => cases h
  | cons c w => exact shown_of_isAlphanum (by simp [Char.isAlphanum, h.1]) w

/-- A word is read up to the first character that cannot stand in a name. -/
theorem name_of_skipBlanks {cs w : List Char} (h : IsWord w) {c : Char}
    (hc : isNameChar c = false) {rest : List Char} (hcs : skipBlanks cs = w ++ c :: rest) :
    name cs = .ok (String.ofList w, c :: rest) := by
  have hall : ∀ d ∈ w, isNameChar d = true := by
    intro d hd
    cases w with
    | nil => cases h
    | cons e w =>
      rcases List.mem_cons.mp hd with rfl | hd
      · exact isNameChar_of_isAlphanum (by simp [Char.isAlphanum, h.1])
      · exact isNameChar_of_isAlphanum (List.all_eq_true.mp h.2 d hd)
  have hname : isName w = true := by
    cases w with
    | nil => cases h
    | cons e w =>
      have := toNat_of_isAlpha h.1
      have hdigit : e.isDigit = false := by
        by_contra hdigit
        have := toNat_of_isDigit (by simpa using hdigit)
        omega
      simp [isName, hdigit]
  unfold name
  simp only [hcs]
  rw [List.takeWhile_append_of_pos hall, List.dropWhile_append_of_pos hall,
    List.takeWhile_cons_of_neg (by simp [hc]), List.dropWhile_cons_of_neg (by simp [hc]),
    List.append_nil, if_pos hname]

theorem name_word {w : List Char} (h : IsWord w) {c : Char} (hc : isNameChar c = false)
    (rest : List Char) : name (w ++ c :: rest) = .ok (String.ofList w, c :: rest) :=
  name_of_skipBlanks h hc (h.shown.append _).skipBlanks

theorem isNameChar_separator {c : Char} (hc : c ∈ separators) : isNameChar c = false :=
  forall_separator (P := fun c => isNameChar c = false) rfl rfl rfl hc

theorem isWord_label (t : Nat) : IsWord (Numeral.label t) := by
  refine ⟨rfl, List.all_eq_true.mpr fun c hc => ?_⟩
  rw [Numeral.padZeros_decimal] at hc
  obtain ⟨d, hd, rfl⟩ := List.mem_map.mp hc
  have := Numeral.isDigit_lowerDigit (Numeral.lt_of_mem_paddedDigits (by decide) hd)
  simp [Char.isAlphanum, this]

/-- The name of the label of an address. -/
def labelName (t : Nat) : String := String.ofList (Numeral.label t)

theorem labelName_inj {s t : Nat} : labelName s = labelName t ↔ s = t :=
  ⟨fun h => Numeral.label_injective (String.ofList_injective h), fun h => h ▸ rfl⟩

/-- The label of an address is used. -/
def LabelUse.Names (use : LabelUse) (t : Nat) : Prop := use.name = labelName t

theorem label_listing (t : Nat) : Reads separators label (Numeral.label t) (·.Names t) := by
  intro c hc rest
  have hname := name_word (isWord_label t) (isNameChar_separator hc) rest
  exact ⟨⟨_, skipBlanks (Numeral.label t ++ c :: rest)⟩, rfl, Scan.bind_eq_ok.mpr ⟨_, hname, rfl⟩⟩

/-! ## Numbers and categories -/

theorem decimalValue?_separator {c : Char} (hc : c ∈ separators) :
    Numeral.decimalValue? c = none :=
  forall_separator (P := fun c => Numeral.decimalValue? c = none) rfl rfl rfl hc

theorem exists_decimal_eq_cons (n : Nat) :
    ∃ c cs, Numeral.decimal n = c :: cs ∧ c.isDigit = true := by
  unfold Numeral.decimal
  cases hdigits : Numeral.digits 10 n with
  | nil => exact absurd hdigits (Numeral.digits_ne_nil 10 n)
  | cons d ds =>
    have hd : d < 10 := Numeral.lt_of_mem_digits (n := n) (by decide) (by simp [hdigits])
    exact ⟨_, _, rfl, Numeral.isDigit_lowerDigit hd⟩

theorem shown_decimal (n : Nat) : Shown (Numeral.decimal n) := by
  obtain ⟨c, cs, hcons, hdigit⟩ := exists_decimal_eq_cons n
  rw [hcons]
  exact shown_of_isAlphanum (by simp [Char.isAlphanum, hdigit]) cs

section Integers

variable (rest : List Char) (hrest : rest.head?.bind Numeral.decimalValue? = none)

include hrest

theorem magnitude_decimal {n : Nat} (hn : n < integerLimit) :
    magnitude (Numeral.decimal n ++ rest) = .ok (n, rest) := by
  have hvalue := Numeral.valueFrom_digits 10 n
  have hread := Scan.decimal_append .integerOutOfRange none rest
    (fun d hd => Numeral.lt_of_mem_digits (by decide) hd) hrest
    (by rw [Option.getD_none, hvalue]; exact hn)
  rw [if_neg (Numeral.digits_ne_nil 10 n), Option.getD_none, hvalue] at hread
  exact Scan.bind_eq_ok.mpr ⟨_, hread, rfl⟩

theorem integer_decimal {n : Nat} (hn : n < integerLimit) :
    integer (Numeral.decimal n ++ rest) = .ok ((n : Int), rest) := by
  have hread := magnitude_decimal rest hrest hn
  unfold integer
  rw [((shown_decimal n).append _).skipBlanks]
  obtain ⟨d, ds, hcons, hdigit⟩ := exists_decimal_eq_cons n
  rw [hcons, List.cons_append] at hread ⊢
  split
  · rename_i heq
    obtain ⟨rfl, -⟩ := List.cons.inj heq
    cases hdigit
  · exact Scan.bind_eq_ok.mpr ⟨_, hread, rfl⟩

theorem integer_decimalInt {i : Int} (hi : i.natAbs < integerLimit) :
    integer (Numeral.decimalInt i ++ rest) = .ok (i, rest) := by
  unfold Numeral.decimalInt
  split
  · rename_i hneg
    refine Scan.bind_eq_ok.mpr ⟨_, magnitude_decimal rest hrest hi, ?_⟩
    simp only [show -(i.natAbs : Int) = i by omega]
  · rename_i hpos
    rw [integer_decimal rest hrest hi, show (i.natAbs : Int) = i by omega]

end Integers

theorem category_decimal (cat : Category) :
    Reads separators category (Numeral.decimal cat.number) (cat = ·) := by
  intro c hc rest
  refine ⟨cat, rfl, ?_⟩
  have hsmall : cat.number < integerLimit := by cases cat <;> decide
  have hread := integer_decimal (c :: rest) (decimalValue?_separator hc) hsmall
  have hcategory : category? (Numeral.decimal cat.number ++ c :: rest) =
      .ok (some cat, c :: rest) := by
    obtain ⟨d, ds, hcons, hdigit⟩ := exists_decimal_eq_cons cat.number
    unfold category?
    rw [if_pos (by simp [hcons, hdigit])]
    refine Scan.bind_eq_ok.mpr ⟨_, hread, ?_⟩
    simp only [Int.toNat_natCast, Category.ofNumber?_number]
  unfold category
  rw [((shown_decimal _).append _).skipBlanks]
  exact Scan.bind_eq_ok.mpr ⟨_, hcategory, rfl⟩

/-! ## Lists -/

theorem listing_commaSeparated_singleton (x : List Char) : Listing.commaSeparated [x] = x := by
  simp [Listing.commaSeparated, List.intercalate]

theorem listing_commaSeparated_cons {x : List Char} {xs : List (List Char)} (h : xs ≠ []) :
    Listing.commaSeparated (x :: xs) = x ++ ',' :: ' ' :: Listing.commaSeparated xs := by
  cases xs with
  | nil => exact absurd rfl h
  | cons y ys => simp [Listing.commaSeparated, List.intercalate]

/-- What may follow a list in a listing. -/
def listEnds : List Char := [':', '\n']

theorem mem_separators_of_mem_listEnds {c : Char} (hc : c ∈ listEnds) : c ∈ separators :=
  List.mem_cons_of_mem _ hc

section Lists

variable {α β : Type} {one : List Char → Except Fault (α × List Char)}
  {consumes : ∀ {cs a rest}, one cs = .ok (a, rest) → Scan.Consumes cs rest}

/-- The reader of lists without the facts for its termination. -/
theorem commaSeparated_eq (cs : List Char) :
    commaSeparated one consumes cs = one cs >>= fun (a, rest) =>
      match skipBlanks rest with
      | ',' :: rest => do
        let (more, rest) ← commaSeparated one consumes rest
        .ok (a :: more, rest)
      | rest => .ok ([a], rest) := by
  rw [commaSeparated]
  split
  · rename_i h
    rw [h]
    rfl
  · rename_i h
    rw [h]
    simp only [bind, Except.bind]
    split
    · rename_i hcomma
      simp only [hcomma]
    · rename_i hlast
      split
      · rename_i hcomma
        exact absurd hcomma (hlast _)
      · rfl

theorem commaSeparated_last {cs rest : List Char} {a : α} {c : Char}
    (h : one cs = .ok (a, c :: rest)) (hc : c ∈ listEnds) :
    commaSeparated one consumes cs = .ok ([a], c :: rest) := by
  rw [commaSeparated_eq]
  refine Scan.bind_eq_ok.mpr ⟨_, h, ?_⟩
  simp only [skipBlanks_separator (mem_separators_of_mem_listEnds hc)]
  split
  · rename_i heq
    rw [(List.cons.inj heq).1] at hc
    exact absurd hc (by decide)
  · rfl

theorem commaSeparated_cons {cs rest rest' : List Char} {a : α} {as : List α}
    (h : one cs = .ok (a, ',' :: rest))
    (hmore : commaSeparated one consumes rest = .ok (as, rest')) :
    commaSeparated one consumes cs = .ok (a :: as, rest') := by
  rw [commaSeparated_eq]
  refine Scan.bind_eq_ok.mpr ⟨_, h, ?_⟩
  simp only [skipBlanks_separator (c := ',') (by decide)]
  exact Scan.bind_eq_ok.mpr ⟨_, hmore, rfl⟩

/-- A blank in front of a list is skipped if it is skipped in front of what it lists. -/
theorem commaSeparated_space (hblank : ∀ cs, one (' ' :: cs) = one cs) (cs : List Char) :
    commaSeparated one consumes (' ' :: cs) = commaSeparated one consumes cs := by
  rw [commaSeparated_eq, hblank, ← commaSeparated_eq]

/-- A list is read back if everything it lists is. -/
theorem reads_commaSeparated {shown : β → List Char} {R : β → α → Prop}
    (hblank : ∀ cs, one (' ' :: cs) = one cs) {xs : List β} (hne : xs ≠ [])
    (h : ∀ x ∈ xs, Reads separators one (shown x) (R x)) :
    Reads listEnds (commaSeparated one consumes) (Listing.commaSeparated (xs.map shown))
      (List.Forall₂ R xs) := by
  intro c hc rest
  induction xs with
  | nil => exact absurd rfl hne
  | cons x xs ih =>
    obtain ⟨hx, hxs⟩ := List.forall_mem_cons.mp h
    cases xs with
    | nil =>
      obtain ⟨a, ha, hread⟩ := hx c (mem_separators_of_mem_listEnds hc) rest
      refine ⟨[a], .cons ha .nil, ?_⟩
      rw [List.map_singleton, listing_commaSeparated_singleton]
      exact commaSeparated_last hread hc
    | cons y ys =>
      obtain ⟨as, has, hmore⟩ := ih (by simp) hxs
      obtain ⟨a, ha, hread⟩ := hx ',' (by decide)
        (' ' :: (Listing.commaSeparated ((y :: ys).map shown) ++ c :: rest))
      refine ⟨a :: as, .cons ha has, ?_⟩
      have htext : Listing.commaSeparated ((x :: y :: ys).map shown) ++ c :: rest =
          shown x ++ ',' :: ' ' ::
            (Listing.commaSeparated ((y :: ys).map shown) ++ c :: rest) := by
        rw [List.map_cons, listing_commaSeparated_cons (by simp), List.append_assoc]
        rfl
      rw [htext]
      exact commaSeparated_cons hread ((commaSeparated_space hblank _).trans hmore)

end Lists

/-! ## Sets and label lists -/

theorem range_space (cs : List Char) : range (' ' :: cs) = range cs := by
  simp [range, character]

theorem label_space (cs : List Char) : label (' ' :: cs) = label cs := by
  simp [label, name]

theorem set_space (cs : List Char) : set (' ' :: cs) = set cs := by
  rw [set, commaSeparated_space range_space, set]

theorem labels_space (cs : List Char) : labels (' ' :: cs) = labels cs :=
  commaSeparated_space label_space cs

/-- The set can be written down: it has ranges, they are in normal form, and they are made of code
points. -/
structure Listable (s : CodeSet) : Prop where
  /-- There is a range. -/
  nonempty : s.toList ≠ []
  /-- No range is empty. -/
  proper : CodeSet.Proper s.toList
  /-- The ranges ascend, and no two of them touch. -/
  apart : s.toList.Pairwise fun r t => r.high + 1 < t.low
  /-- The ranges are made of code points. -/
  bounded : ∀ r ∈ s.toList, r.high ≤ maxCodePoint

instance (s : CodeSet) : Decidable (Listable s) :=
  decidable_of_iff
    (s.toList ≠ [] ∧ (∀ r ∈ s.toList, r.low ≤ r.high) ∧
      s.toList.Pairwise (fun r t => r.high + 1 < t.low) ∧ ∀ r ∈ s.toList, r.high ≤ maxCodePoint)
    ⟨fun h => ⟨h.1, h.2.1, h.2.2.1, h.2.2.2⟩, fun h => ⟨h.1, h.2, h.3, h.4⟩⟩

theorem joinFrom_of_apart {r : CodeRange} {rs : List CodeRange}
    (h : (r :: rs).Pairwise fun r t => r.high + 1 < t.low) :
    CodeSet.joinFrom r rs = r :: rs := by
  induction rs generalizing r with
  | nil => rfl
  | cons t rs ih =>
    obtain ⟨hr, hrs⟩ := List.pairwise_cons.mp h
    have := hr t List.mem_cons_self
    rw [CodeSet.joinFrom, if_neg (by omega), ih hrs]

/-- A set in normal form is its own normal form. -/
theorem Listable.ofRanges {s : CodeSet} (h : Listable s) : CodeSet.ofRanges s.toList = s := by
  have hsorted : s.toList.mergeSort CodeRange.atMost = s.toList := by
    refine List.mergeSort_of_pairwise (h.apart.imp_of_mem fun {r t} hr ht hlt => ?_)
    have := h.proper r hr
    simp [CodeRange.atMost, CodeRange.before]
    omega
  unfold CodeSet.ofRanges CodeSet.normalList
  rw [hsorted]
  cases hs : s.toList with
  | nil => exact absurd hs h.nonempty
  | cons r rs =>
    rw [CodeSet.join, joinFrom_of_apart (hs ▸ h.apart), ← hs, Array.toArray_toList]

theorem set_listing {s : CodeSet} (h : Listable s) :
    Reads listEnds set (Listing.set s) (s = ·) := by
  intro c hc rest
  refine ⟨s, rfl, ?_⟩
  have hranges : Reads listEnds (commaSeparated range range_consumes) (Listing.set s)
      (List.Forall₂ Eq s.toList) :=
    reads_commaSeparated range_space h.nonempty fun r hr =>
      range_listing (h.proper r hr) (h.bounded r hr)
  obtain ⟨ranges, hall, hread⟩ := hranges c hc rest
  rw [List.forall₂_eq_eq_eq] at hall
  subst hall
  refine Scan.bind_eq_ok.mpr ⟨_, hread, ?_⟩
  simp only [h.ofRanges]

theorem labels_listing (targets : List Nat) (hne : targets ≠ []) :
    Reads listEnds labels (Listing.labels targets)
      (List.Forall₂ (fun t use => use.Names t) targets) :=
  reads_commaSeparated label_space hne fun t _ => label_listing t

end FiberLex.Operand
