import Mathlib.Data.List.TakeWhile
import FiberLex.Proofs.Pattern.Reading

/-!
# How far readers look ahead

Every reader of patterns takes what it reads from the front of the text and looks at most one
character further. So the rest of the text may be exchanged: by any other text behind an atom, by
one with the same next character behind an element of a class, and by one that brings up no question
mark behind a step (`readStep_takes`), which also does the same within any groups that are open.
-/

namespace FiberLex

namespace Scan

variable {α β : Type}

/-- The reader takes `v` from the front of `cs`, and takes it as well if another text of a certain
kind follows than `rest`. -/
def Takes (follows : List Char → Prop) (read : List Char → Except Fault (α × List Char))
    (cs : List Char) (v : α) (rest : List Char) : Prop :=
  ∃ used, cs = used ++ rest ∧ ∀ rest', follows rest' → read (used ++ rest') = .ok (v, rest')

/-- Any text may follow. -/
abbrev Anything : List Char → Prop := fun _ => True

/-- The next character stays the same. -/
abbrev SameNext (rest : List Char) : List Char → Prop := fun rest' => rest'.head? = rest.head?

section Takes

variable {follows follows' : List Char → Prop} {cs rest : List Char} {v : α}

/-- Two readers after each other, the second of which may know the whole text: what follows the
first one is what the second one takes and then what follows that. -/
theorem Takes.bind {read : List Char → Except Fault (α × List Char)}
    {next : List Char → α × List Char → Except Fault (β × List Char)} {rest' : List Char} {v' : β}
    (h : Takes follows read cs v rest)
    (h' : ∀ whole, Takes follows' (fun cs => next whole (v, cs)) rest v' rest')
    (hf : ∀ used, rest = used ++ rest' → ∀ more, follows' more → follows (used ++ more)) :
    Takes follows' (fun cs => read cs >>= next cs) cs v' rest' := by
  obtain ⟨used', rfl, -⟩ := h' cs
  obtain ⟨used, rfl, hread⟩ := h
  refine ⟨used ++ used', (List.append_assoc ..).symm, fun more hmore => ?_⟩
  obtain ⟨used'', hused, hread'⟩ := h' (used ++ used' ++ more)
  obtain rfl : used' = used'' := List.append_cancel_right hused
  show (read (used ++ used' ++ more) >>= next _) = _
  rw [List.append_assoc, hread _ (hf used' rfl more hmore), ← List.append_assoc]
  exact hread' more hmore

/-- A reader that takes nothing. -/
theorem takes_nothing {read : List Char → Except Fault (α × List Char)}
    (h : ∀ cs, read cs = .ok (v, cs)) : Takes follows read cs v cs :=
  ⟨[], rfl, fun rest' _ => h rest'⟩

theorem Takes.of_anything {read : List Char → Except Fault (α × List Char)}
    (h : Takes Anything read cs v rest) : Takes follows read cs v rest := by
  obtain ⟨used, hcs, hread⟩ := h
  exact ⟨used, hcs, fun rest' _ => hread rest' trivial⟩

/-- One character, and then what is taken behind it. -/
theorem Takes.cons {read : List Char → Except Fault (α × List Char)} {c : Char}
    (h : Takes follows (fun cs => read (c :: cs)) cs v rest) :
    Takes follows read (c :: cs) v rest := by
  obtain ⟨used, rfl, htaken⟩ := h
  exact ⟨c :: used, rfl, htaken⟩

/-- The next character of a text stays the same if it stays the same behind a part of the text. -/
theorem SameNext.append {more : List Char} (h : SameNext rest more) (used : List Char) :
    SameNext (used ++ rest) (used ++ more) := by
  show (used ++ more).head? = (used ++ rest).head?
  rw [List.head?_append, List.head?_append, h]

/-- Behind a text that is not empty, the next character does not hang on what follows it. -/
theorem sameNext_append {used : List Char} (hne : used ≠ []) (more : List Char) :
    SameNext (used ++ rest) (used ++ more) := by
  cases used with
  | nil => exact absurd rfl hne
  | cons c used => rfl

theorem Consumes.ne_nil {used : List Char} (h : Consumes (used ++ rest) rest) : used ≠ [] := by
  rintro rfl
  exact Nat.lt_irrefl _ h.length_lt

end Takes

/-! ## Characters and numbers -/

variable {cs rest : List Char}

theorem char_eq_ok_iff {wanted : Char} : char wanted cs = .ok rest ↔ cs = wanted :: rest := by
  cases cs with
  | nil => simp [char]
  | cons c cs =>
    by_cases h : c = wanted
    · simp [char, h]
    · simp [char, h]

/-- The characters up to a certain one do not hang on what follows it. -/
theorem takeWhile_dropWhile_cons {p : Char → Bool} {c : Char} (h : cs.dropWhile p = c :: rest)
    (rest' : List Char) :
    cs = cs.takeWhile p ++ c :: rest ∧
      (cs.takeWhile p ++ c :: rest').takeWhile p = cs.takeWhile p ∧
      (cs.takeWhile p ++ c :: rest').dropWhile p = c :: rest' := by
  have hall : ∀ d ∈ cs.takeWhile p, p d = true := fun d hd => List.mem_takeWhile_imp hd
  have hc : ¬ p c = true := by
    have hhead := List.head?_dropWhile_not p cs
    rw [h] at hhead
    simpa using hhead
  refine ⟨?_, ?_, ?_⟩
  · rw [← h, List.takeWhile_append_dropWhile]
  · rw [List.takeWhile_append_of_pos hall, List.takeWhile_cons_of_neg hc, List.append_nil]
  · rw [List.dropWhile_append_of_pos hall, List.dropWhile_cons_of_neg hc]

/-- Decimal digits are taken as long as there are any. -/
theorem decimal_takes {limit : Nat} {issue : SyntaxIssue} {value result : Option Nat}
    (h : decimal limit issue value cs = .ok (result, rest)) :
    Takes (SameNext rest) (decimal limit issue value) cs result rest := by
  induction cs generalizing value with
  | nil =>
    cases h
    refine ⟨[], rfl, fun rest' hrest' => ?_⟩
    obtain rfl : rest' = [] := List.head?_eq_none_iff.mp hrest'
    rfl
  | cons c cs ih =>
    simp only [decimal] at h
    split at h
    · rename_i hc
      cases h
      refine ⟨[], rfl, fun rest' hrest' => ?_⟩
      obtain ⟨more, rfl⟩ : ∃ more, rest' = c :: more := List.head?_eq_some_iff.mp hrest'
      simp only [List.nil_append, decimal, hc]
    · rename_i d hd
      split at h
      · rename_i hlt
        obtain ⟨used, rfl, hread⟩ := ih h
        refine ⟨c :: used, rfl, fun rest' hrest' => ?_⟩
        rw [List.cons_append, decimal, hd]
        simp only [hlt, if_true]
        exact hread rest' hrest'
      · cases h

/-- If as many digits are there as may be taken, it does not matter what follows. -/
theorem hexDigits_takes {n : Nat} (h : n ≤ (hexDigits n cs).1.length) :
    ∃ used, cs = used ++ (hexDigits n cs).2 ∧
      ∀ rest', hexDigits n (used ++ rest') = ((hexDigits n cs).1, rest') := by
  induction n generalizing cs with
  | zero => exact ⟨[], by simp [hexDigits], fun rest' => by simp [hexDigits]⟩
  | succ n ih =>
    cases cs with
    | nil => simp [hexDigits] at h
    | cons c cs =>
      simp only [hexDigits] at h ⊢
      cases hc : Numeral.hexValue? c with
      | none => simp [hc] at h
      | some d =>
        simp only [hc, List.length_cons, Nat.add_le_add_iff_right] at h
        obtain ⟨used, hcs, hread⟩ := ih h
        refine ⟨c :: used, by rw [List.cons_append, ← hcs], fun rest' => ?_⟩
        rw [List.cons_append, hexDigits, hc]
        simp only [hread]

theorem hex_takes {width value : Nat} (h : hex width width cs = .ok (value, rest)) :
    Takes Anything (hex width width) cs value rest := by
  simp only [hex] at h
  split at h
  · cases h
  · rename_i hlength
    cases h
    obtain ⟨used, hcs, hread⟩ := hexDigits_takes (Nat.le_of_not_lt hlength)
    refine ⟨used, hcs, fun rest' _ => ?_⟩
    simp only [hex, hread, hlength, if_false]

end Scan

namespace Pattern

open Scan

/-! ## Escapes -/

section Escapes

variable {c : Char} {cs rest : List Char}

theorem readEscapedChar_takes {inBrackets : Bool} {cp : Nat}
    (h : readEscapedChar inBrackets (c :: cs) = .ok (cp, rest)) :
    Takes Anything (fun cs => readEscapedChar inBrackets (c :: cs)) cs cp rest := by
  simp only [readEscapedChar] at h ⊢
  split at h
  · cases h
    exact takes_nothing fun _ => rfl
  · obtain ⟨⟨value, rest₁⟩, hhex, h⟩ := bind_eq_ok.mp h
    dsimp only at h
    split at h
    · cases h
    · rename_i hle
      cases h
      exact (hex_takes hhex).bind (fun _ => takes_nothing fun _ => if_neg hle)
        fun _ _ _ _ => trivial

theorem readCategory_takes {cat : Category} (h : readCategory cs = .ok (cat, rest)) :
    Takes Anything readCategory cs cat rest := by
  obtain ⟨cs₁, h₁, h⟩ := bind_eq_ok.mp h
  obtain ⟨cs₂, h₂, hnamed⟩ := bind_eq_ok.mp h
  rw [char_eq_ok_iff] at h₁ h₂
  subst h₁
  split at hnamed
  · rename_i hname
    cases hnamed
    refine ⟨'{' :: (cs₁.takeWhile (· ≠ '}') ++ ['}']), ?_, fun rest' _ => ?_⟩
    · rw [List.cons_append, List.append_assoc, List.singleton_append,
        ← (takeWhile_dropWhile_cons h₂ []).1]
    · obtain ⟨-, htake, hdrop⟩ := takeWhile_dropWhile_cons h₂ rest'
      rw [List.cons_append, List.append_assoc, List.singleton_append]
      refine bind_eq_ok.mpr ⟨_, char_eq_ok_iff.mpr rfl, ?_⟩
      refine bind_eq_ok.mpr ⟨rest', by rw [hdrop, char_eq_ok_iff], ?_⟩
      rw [htake, hname]
  · cases hnamed

theorem readEscapeAs_takes {α : Type} {inBrackets : Bool} {ofClass : List CodeRange → Bool → α}
    {ofCategory : Category → Bool → α} {ofCode : Nat → α} {v : α}
    (h : readEscapeAs inBrackets ofClass ofCategory ofCode cs = .ok (v, rest)) :
    Takes Anything (readEscapeAs inBrackets ofClass ofCategory ofCode) cs v rest := by
  cases cs with
  | nil => cases h
  | cons c cs =>
    apply Takes.cons
    simp only [readEscapeAs] at h ⊢
    split at h
    · cases h
      exact takes_nothing fun _ => rfl
    · split at h
      · rename_i hp
        obtain ⟨⟨cat, rest₁⟩, hcat, h⟩ := bind_eq_ok.mp h
        cases h
        simp only [hp, if_true]
        exact (readCategory_takes hcat).bind (fun _ => takes_nothing fun _ => rfl)
          fun _ _ _ _ => trivial
      · rename_i hp
        obtain ⟨⟨cp, rest₁⟩, hchar, h⟩ := bind_eq_ok.mp h
        cases h
        simp only [hp, if_false]
        exact (readEscapedChar_takes hchar).bind (fun _ => takes_nothing fun _ => rfl)
          fun _ _ _ _ => trivial

end Escapes

/-! ## Bracket classes -/

section Brackets

variable {cs rest : List Char} {rs : List CodeRange}

theorem readNamedClass_takes (h : readNamedClass (':' :: cs) = .ok (rs, rest)) :
    Takes Anything (fun cs => readNamedClass (':' :: cs)) cs rs rest := by
  obtain ⟨cs₁, h₁, h⟩ := bind_eq_ok.mp h
  obtain ⟨cs₂, h₂, h⟩ := bind_eq_ok.mp h
  obtain ⟨cs₃, h₃, hnamed⟩ := bind_eq_ok.mp h
  rw [char_eq_ok_iff] at h₁ h₂ h₃
  cases h₁
  subst h₃
  split at hnamed
  · rename_i hname
    cases hnamed
    refine ⟨cs.takeWhile Char.isAlpha ++ [':', ']'], ?_, fun rest' _ => ?_⟩
    · rw [List.append_assoc, List.cons_append, List.singleton_append,
        ← (takeWhile_dropWhile_cons h₂ []).1]
    · obtain ⟨-, htake, hdrop⟩ := takeWhile_dropWhile_cons h₂ (']' :: rest')
      rw [List.append_assoc, List.cons_append, List.singleton_append]
      refine bind_eq_ok.mpr ⟨_, char_eq_ok_iff.mpr rfl, ?_⟩
      refine bind_eq_ok.mpr ⟨']' :: rest', by rw [hdrop, char_eq_ok_iff], ?_⟩
      refine bind_eq_ok.mpr ⟨rest', char_eq_ok_iff.mpr rfl, ?_⟩
      rw [htake, hname]
  · cases hnamed

/-- A character other than a backslash stands for itself in a class, and so does an opening bracket
before anything but a colon. -/
theorem readClassItem_char {c : Char} (hescape : c ≠ '\\') (hnamed : c = '[' → cs.head? ≠ some ':') :
    readClassItem (c :: cs) = .ok (.char c.toNat, cs) := by
  unfold readClassItem
  split
  · rename_i heq
    cases heq
  · rename_i heq
    cases heq
    exact absurd rfl hescape
  · rename_i heq
    cases heq
    exact absurd rfl (hnamed rfl)
  · rename_i heq
    cases heq
    rfl

theorem readClassItem_takes {item : ClassItem} (h : readClassItem cs = .ok (item, rest)) :
    Takes (SameNext rest) readClassItem cs item rest := by
  unfold readClassItem at h
  split at h
  · cases h
  · exact Takes.cons (readEscapeAs_takes h).of_anything
  · obtain ⟨⟨rs, rest₁⟩, hnamed, h⟩ := bind_eq_ok.mp h
    cases h
    obtain ⟨used, rfl, hread⟩ := readNamedClass_takes hnamed
    exact ⟨'[' :: ':' :: used, rfl, fun rest' _ => bind_eq_ok.mpr ⟨_, hread rest' trivial, rfl⟩⟩
  · rename_i c cs₁ hescape hopen
    cases h
    refine ⟨[c], rfl, fun rest' hrest' => readClassItem_char (fun hc => ?_) fun hc hcolon => ?_⟩
    · exact hescape hc
    · obtain ⟨more, rfl⟩ := List.head?_eq_some_iff.mp (hrest'.symm.trans hcolon)
      exact hopen more hc rfl

/-- A dash before anything but a closing bracket makes a range. -/
theorem readRangeEnd_dash {low high : Nat} {c : Char} (hc : c ≠ ']')
    (h : readClassItem (c :: cs) = .ok (.char high, rest)) (hle : ¬ high < low) :
    readRangeEnd low ('-' :: c :: cs) = .ok ([⟨low, high⟩], rest) := by
  rw [readRangeEnd]
  · refine bind_eq_ok.mpr ⟨_, h, ?_⟩
    exact if_neg hle
  · rintro heq
    cases heq
  · rintro more heq
    cases heq
    exact hc rfl

/-- A code point not before a dash stands for itself. -/
theorem readRangeEnd_of_ne {low : Nat} (h : cs.head? ≠ some '-') :
    readRangeEnd low cs = .ok ([.single low], cs) := by
  unfold readRangeEnd
  split
  · exact absurd rfl h
  · exact absurd rfl h
  · exact absurd rfl h
  · rfl

theorem readRangeEnd_takes {low : Nat} (h : readRangeEnd low cs = .ok (rs, rest)) :
    Takes (SameNext rest) (readRangeEnd low) cs rs rest := by
  unfold readRangeEnd at h
  split at h
  · cases h
    refine ⟨['-'], rfl, fun rest' hrest' => ?_⟩
    obtain rfl : rest' = [] := List.head?_eq_none_iff.mp hrest'
    rfl
  · cases h
    refine ⟨['-'], rfl, fun rest' hrest' => ?_⟩
    obtain ⟨more, rfl⟩ : ∃ more, rest' = ']' :: more := List.head?_eq_some_iff.mp hrest'
    rfl
  · rename_i cs₁ hend hclose
    obtain ⟨⟨item, rest₁⟩, hitem, h⟩ := bind_eq_ok.mp h
    split at h
    · cases h
    · rename_i heq
      cases heq
      split at h
      · cases h
      · rename_i hle
        cases h
        obtain ⟨used, rfl, hread⟩ := readClassItem_takes hitem
        obtain ⟨c, used, rfl⟩ := List.exists_cons_of_ne_nil (readClassItem_consumes hitem).ne_nil
        refine ⟨'-' :: c :: used, rfl, fun rest' hrest' => ?_⟩
        have hc : c ≠ ']' := fun hc => hclose (used ++ rest) (by rw [hc]; rfl)
        exact readRangeEnd_dash hc (hread rest' hrest') hle
  · rename_i hend hclose hdash
    cases h
    refine ⟨[], rfl, fun rest' hrest' => readRangeEnd_of_ne fun hhead => ?_⟩
    obtain ⟨more, rfl⟩ := List.head?_eq_some_iff.mp (hrest'.symm.trans hhead)
    exact hdash more rfl

theorem readElement_takes (h : readElement cs = .ok (rs, rest)) :
    Takes (SameNext rest) readElement cs rs rest := by
  obtain ⟨⟨item, rest₁⟩, hitem, h⟩ := bind_eq_ok.mp h
  cases item with
  | ranges rs' =>
    cases h
    exact (readClassItem_takes hitem).bind (fun _ => takes_nothing fun _ => rfl)
      fun used hused more hmore => by
        rw [List.self_eq_append_left] at hused
        exact hused ▸ hmore
  | char low =>
    exact (readClassItem_takes hitem).bind (fun _ => readRangeEnd_takes h)
      fun used hused more hmore => hused ▸ SameNext.append hmore used

/-- The next element of a class is read if the class does not end. -/
theorem readElements_of_readElement {c : Char} (hc : c ≠ ']')
    (h : readElement (c :: cs) = .ok (rs, rest)) :
    readElements (c :: cs) = (readElements rest >>= fun r => .ok (rs ++ r.1, r.2)) := by
  rw [readElements]
  · split
    · rename_i hfails
      rw [h] at hfails
      cases hfails
    · rename_i hfound
      rw [h] at hfound
      cases hfound
      rfl
  · exact hc

theorem readElements_takes (h : readElements cs = .ok (rs, rest)) :
    Takes Anything readElements cs rs rest := by
  fun_induction readElements cs generalizing rs rest with
  | case1 => cases h
  | case2 rest' =>
    cases h
    exact ⟨[']'], rfl, fun rest' _ => by rw [List.singleton_append, readElements]⟩
  | case3 => cases h
  | case4 c cs hc rs' rest' hfirst ih =>
    obtain ⟨⟨more, rest₂⟩, hmore, h⟩ := bind_eq_ok.mp h
    cases h
    obtain ⟨used, hused, hread⟩ := readElement_takes hfirst
    obtain ⟨used', rfl, hread'⟩ := ih hmore
    have hne := (readElements_consumes hmore).ne_nil
    obtain ⟨d, used, rfl⟩ := List.exists_cons_of_ne_nil
      (hused ▸ readElement_consumes hfirst : Consumes (used ++ (used' ++ rest)) _).ne_nil
    obtain ⟨rfl, rfl⟩ := List.cons.inj hused
    refine ⟨c :: used ++ used', (List.append_assoc (c :: used) used' rest).symm, fun rest' _ => ?_⟩
    have hfirst' := hread (used' ++ rest') (sameNext_append hne rest')
    rw [List.append_assoc]
    refine (readElements_of_readElement hc hfirst').trans (bind_eq_ok.mpr ⟨_, hread' rest' trivial, rfl⟩)

theorem readBody_takes {negated : Bool} {p : Pattern} (h : readBody negated cs = .ok (p, rest)) :
    Takes Anything (readBody negated) cs p rest := by
  obtain ⟨⟨first, rest₁⟩, hfirst, h⟩ := bind_eq_ok.mp h
  obtain ⟨⟨more, rest₂⟩, hmore, h⟩ := bind_eq_ok.mp h
  cases h
  refine (readElement_takes hfirst).bind (fun _ => ?_) ?_
  · exact (readElements_takes hmore).bind (fun _ => takes_nothing fun _ => rfl) fun _ _ _ _ => trivial
  · rintro used rfl more -
    exact sameNext_append (readElements_consumes hmore).ne_nil more

theorem readBracket_takes {p : Pattern} (h : readBracket cs = .ok (p, rest)) :
    Takes Anything readBracket cs p rest := by
  have hconsumes := readBracket_consumes h
  unfold readBracket at h
  split at h
  · exact Takes.cons (readBody_takes h)
  · rename_i hplain
    obtain ⟨used, rfl, hread⟩ := readBody_takes h
    obtain ⟨c, used, rfl⟩ := List.exists_cons_of_ne_nil hconsumes.ne_nil
    refine ⟨c :: used, rfl, fun rest' hrest' => ?_⟩
    rw [List.cons_append, readBracket]
    · exact hread rest' hrest'
    · rintro more heq
      obtain ⟨rfl, -⟩ := List.cons.inj heq
      exact hplain (used ++ rest) rfl

end Brackets

/-! ## Atoms and modifiers -/

section Atoms

variable {c : Char} {cs rest : List Char}

theorem readAtom_takes {p : Pattern} (h : readAtom c cs = .ok (p, rest)) :
    Takes Anything (readAtom c) cs p rest := by
  unfold readAtom at h ⊢
  by_cases hbracket : c = '['
  · simp only [hbracket, if_true] at h ⊢
    exact readBracket_takes h
  · simp only [hbracket, if_false] at h ⊢
    by_cases hdot : c = '.'
    · simp only [hdot, if_true] at h ⊢
      cases h
      exact takes_nothing fun _ => rfl
    · simp only [hdot, if_false] at h ⊢
      by_cases hescape : c = '\\'
      · simp only [hescape, if_true] at h ⊢
        exact readEscapeAs_takes h
      · simp only [hescape, if_false] at h ⊢
        cases h
        exact takes_nothing fun _ => rfl

theorem readBoundsEnd_takes {site : List Char} {min : Nat} {max : Option Nat} {b : Nat × Option Nat}
    (h : readBoundsEnd site min max cs = .ok (b, rest)) (site' : List Char) :
    Takes Anything (readBoundsEnd site' min max) cs b rest := by
  unfold readBoundsEnd at h
  split at h
  · split at h
    · split at h
      · cases h
      · rename_i hle
        cases h
        exact ⟨['\x7d'], rfl, fun rest' _ => if_neg hle⟩
    · cases h
      exact ⟨['\x7d'], rfl, fun rest' _ => rfl⟩
  · cases h

/-- The place of the bounds shows in faults only, so it may be taken from the text. -/
theorem readBounds_takes {site : List Char} {b : Nat × Option Nat}
    (h : readBounds site cs = .ok (b, rest)) (mark : List Char → List Char) :
    Takes Anything (fun cs => readBounds (mark cs) cs) cs b rest := by
  obtain ⟨⟨first, cs₁⟩, hfirst, h⟩ := bind_eq_ok.mp h
  dsimp only at h
  split at h
  · obtain ⟨⟨second, cs₂⟩, hsecond, h⟩ := bind_eq_ok.mp h
    refine (decimal_takes hfirst).bind (fun whole => Takes.cons ?_) ?_
    · refine (decimal_takes hsecond).bind (fun _ => readBoundsEnd_takes h (mark whole)) ?_
      rintro used rfl more -
      exact sameNext_append (readBoundsEnd_consumes h).ne_nil more
    · rintro used hused more -
      have hleaves := ((decimal_leaves hsecond).consumes (readBoundsEnd_consumes h)).leaves
      have hconsumes : Consumes (',' :: _) rest := hleaves.cons
      rw [hused] at hconsumes ⊢
      exact sameNext_append hconsumes.ne_nil more
  · rename_i hcomma
    split at h
    · refine (decimal_takes hfirst).bind (fun whole => ?_) ?_
      · have hconsumes := readBoundsEnd_consumes h
        obtain ⟨used, rfl, hread⟩ := readBoundsEnd_takes h (mark whole)
        obtain ⟨c, used, rfl⟩ := List.exists_cons_of_ne_nil hconsumes.ne_nil
        refine ⟨c :: used, rfl, fun rest' hrest' => ?_⟩
        dsimp only
        split
        · rename_i heq
          obtain ⟨rfl, -⟩ := List.cons.inj heq
          exact absurd rfl (hcomma _)
        · exact hread rest' hrest'
      · rintro used rfl more -
        exact sameNext_append (readBoundsEnd_consumes h).ne_nil more
    · cases h

theorem readModifier_takes {b : Nat × Option Nat} (h : readModifier c cs = .ok (b, rest)) :
    Takes Anything (readModifier c) cs b rest := by
  unfold readModifier at h ⊢
  by_cases hstar : c = '*'
  · simp only [hstar, if_true] at h ⊢
    cases h
    exact takes_nothing fun _ => rfl
  · simp only [hstar, if_false] at h ⊢
    by_cases hplus : c = '+'
    · simp only [hplus, if_true] at h ⊢
      cases h
      exact takes_nothing fun _ => rfl
    · simp only [hplus, if_false] at h ⊢
      by_cases hmark : c = '?'
      · simp only [hmark, if_true] at h ⊢
        cases h
        exact takes_nothing fun _ => rfl
      · simp only [hmark, if_false] at h ⊢
        exact readBounds_takes h (c :: ·)

/-- No question mark comes up that was not there. -/
abbrev NoNewMark (rest : List Char) : List Char → Prop := fun rest' =>
  rest'.head? = some '?' → rest.head? = some '?'

theorem readLazy_of_ne {allowLazy : Bool} (h : allowLazy = true → cs.head? ≠ some '?') :
    readLazy allowLazy cs = (false, cs) := by
  unfold readLazy
  split
  · cases allowLazy with
    | false => rfl
    | true => exact absurd rfl (h rfl)
  · rfl

theorem exists_used_of_readLazy (allowLazy : Bool) (cs : List Char) :
    ∃ used, cs = used ++ (readLazy allowLazy cs).2 ∧
      ∀ rest', NoNewMark (readLazy allowLazy cs).2 rest' →
        readLazy allowLazy (used ++ rest') = ((readLazy allowLazy cs).1, rest') := by
  by_cases hmark : allowLazy = true → cs.head? ≠ some '?'
  · rw [readLazy_of_ne hmark]
    exact ⟨[], rfl, fun rest' hrest' => readLazy_of_ne fun hlazy h => hmark hlazy (hrest' h)⟩
  · push Not at hmark
    obtain ⟨rfl, hhead⟩ := hmark
    obtain ⟨rest, rfl⟩ := List.head?_eq_some_iff.mp hhead
    exact ⟨['?'], rfl, fun rest' _ => rfl⟩

theorem modifyLast_takes {allowLazy : Bool} {g g' : Group}
    (h : modifyLast allowLazy g c cs = .ok (g', rest)) :
    Takes (NoNewMark rest) (modifyLast allowLazy g c) cs g' rest := by
  unfold modifyLast at h ⊢
  split at h
  · cases h
  · obtain ⟨⟨bounds, rest₁⟩, hbounds, h⟩ := bind_eq_ok.mp h
    refine (readModifier_takes hbounds).bind (fun _ => ?_) fun _ _ _ _ => trivial
    obtain ⟨used, hused, hread⟩ := exists_used_of_readLazy allowLazy rest₁
    dsimp only at h
    generalize readLazy allowLazy rest₁ = r at h hused hread
    cases h
    refine ⟨used, hused, fun rest' hrest' => ?_⟩
    dsimp only
    rw [hread rest' hrest']

end Atoms

/-! ## Steps -/

/-- The groups with more groups around them. -/
def OpenGroups.within (s : OpenGroups) (around : List Group) : OpenGroups :=
  { s with outer := s.outer ++ around }

/-- A step does the same within any groups. -/
theorem readStep_takes {allowLazy : Bool} {s s' : OpenGroups} {c : Char} {cs rest : List Char}
    (h : readStep allowLazy s c cs = .ok (s', rest)) (around : List Group) :
    Takes (NoNewMark rest) (readStep allowLazy (s.within around) c) cs (s'.within around) rest := by
  unfold readStep at h ⊢
  by_cases hopen : c = '('
  · simp only [hopen, if_true] at h ⊢
    cases h
    exact takes_nothing fun _ => rfl
  simp only [hopen, if_false] at h ⊢
  by_cases hbar : c = '|'
  · simp only [hbar, if_true] at h ⊢
    cases h
    exact takes_nothing fun _ => rfl
  simp only [hbar, if_false] at h ⊢
  by_cases hclose : c = ')'
  · simp only [hclose, if_true] at h ⊢
    rcases s with ⟨inner, _ | ⟨g, outer⟩⟩
    · cases h
    · cases h
      exact takes_nothing fun _ => rfl
  simp only [hclose, if_false] at h ⊢
  by_cases hmodifier : beginsModifier c = true
  · simp only [hmodifier, if_true] at h ⊢
    obtain ⟨⟨g, rest₁⟩, hlast, h⟩ := bind_eq_ok.mp h
    cases h
    refine (modifyLast_takes hlast).bind (fun _ => takes_nothing fun _ => rfl) ?_
    rintro used hused more hmore
    rw [List.self_eq_append_left] at hused
    exact hused ▸ hmore
  · simp only [hmodifier] at h ⊢
    obtain ⟨⟨atom, rest₁⟩, hatom, h⟩ := bind_eq_ok.mp h
    cases h
    exact (readAtom_takes hatom).bind (fun _ => takes_nothing fun _ => rfl) fun _ _ _ _ => trivial

end Pattern

end FiberLex
