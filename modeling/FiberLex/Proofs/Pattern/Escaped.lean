import FiberLex.Proofs.Pattern.Lookahead
import FiberLex.Proofs.Pattern.Language
import FiberLex.Proofs.Text.Numeral
import Mathlib.Data.List.Permutation

/-!
# Escaped code points

Every code point can be written as an escape of eight hexadecimal digits, surrogates and the
characters with a meaning of their own included. Escapes in a row are read back as literals, and
pairs of escapes in brackets as ranges, in whatever order the ranges come and however they overlap
(`parse_escaped`): an escape ends with its eighth digit, so nothing of what follows gets into it.
-/

namespace FiberLex.Pattern

open Numeral CodeSet

theorem sequence_of_length_ne_one {items : List Pattern} (h : items.length ≠ 1) :
    sequence items = concat items := by
  unfold sequence
  split
  · exact absurd rfl h
  · rfl

/-! ## Escapes -/

/-- An escape of eight hexadecimal digits. -/
structure Escape where
  /-- The digits, most significant first, and whether each is written in upper case. -/
  digits : List (Fin 16 × Bool)
  length_digits : digits.length = 8

namespace Escape

/-- The character of a digit in upper or in lower case. -/
def character (d : Fin 16 × Bool) : Char := if d.2 then upperDigit d.1 else lowerDigit d.1

/-- What stands behind the backslash. -/
def spelling (e : Escape) : List Char := 'U' :: e.digits.map character

/-- The escape as it is written. -/
def text (e : Escape) : List Char := '\\' :: e.spelling

/-- The number that the digits stand for. -/
def value (e : Escape) : Nat := valueFrom 16 0 (e.digits.map (·.1.val))

theorem hexValue?_character (d : Fin 16 × Bool) : hexValue? (character d) = some d.1.val := by
  obtain ⟨d, isUpper⟩ := d
  cases isUpper with
  | true => exact hexValue?_upperDigit d.isLt
  | false => exact hexValue?_lowerDigit d.isLt

/-- Every code point has an escape. -/
theorem exists_value {cp : Nat} (h : cp ≤ maxCodePoint) : ∃ e : Escape, e.value = cp := by
  have hlt : cp < 16 ^ (7 + 1) := Nat.lt_of_le_of_lt h (by decide)
  refine ⟨⟨(paddedDigits 8 16 cp).map fun d => (Fin.ofNat 16 d, true), ?_⟩, ?_⟩
  · rw [List.length_map, length_paddedDigits (by decide) hlt]
  · have hdigits : (paddedDigits 8 16 cp).map (fun d => (Fin.ofNat 16 d).val) =
        paddedDigits 8 16 cp := by
      refine (List.map_congr_left fun d hd => ?_).trans (List.map_id _)
      exact Nat.mod_eq_of_lt (lt_of_mem_paddedDigits (by decide) hd)
    rw [value, List.map_map]
    exact (congrArg _ hdigits).trans (valueFrom_paddedDigits 8 16 cp)

variable {e : Escape}

theorem readEscapedChar_spelling (h : e.value ≤ maxCodePoint) (inBrackets : Bool)
    (rest : List Char) :
    readEscapedChar inBrackets (e.spelling ++ rest) = .ok (e.value, rest) := by
  have hvalues : (e.digits.map character).map hexValue? = (e.digits.map (·.1.val)).map some := by
    rw [List.map_map, List.map_map]
    exact List.map_congr_left fun d _ => hexValue?_character d
  have hhex : Scan.hex 8 8 (e.digits.map character ++ rest) = .ok (e.value, rest) :=
    Scan.hex_of_map hvalues (by rw [List.length_map, e.length_digits]) rest
  exact Scan.bind_eq_ok.mpr ⟨_, hhex, if_neg (Nat.not_lt.mpr h)⟩

theorem readEscape_spelling (h : e.value ≤ maxCodePoint) (rest : List Char) :
    readEscape (e.spelling ++ rest) = .ok (literal e.value, rest) :=
  Scan.bind_eq_ok.mpr ⟨_, readEscapedChar_spelling h false rest, rfl⟩

theorem readClassItem_text (h : e.value ≤ maxCodePoint) (rest : List Char) :
    readClassItem (e.text ++ rest) = .ok (.char e.value, rest) :=
  Scan.bind_eq_ok.mpr ⟨_, readEscapedChar_spelling h true rest, rfl⟩

/-- An escape outside brackets is one more item, whatever follows it. -/
theorem readGroups_text (h : e.value ≤ maxCodePoint) (allowLazy : Bool) (s : OpenGroups)
    (rest : List Char) :
    readGroups allowLazy s (e.text ++ rest) =
      readGroups allowLazy { s with inner := s.inner.push (literal e.value) } rest :=
  readGroups_of_readStep (Scan.bind_eq_ok.mpr ⟨_, readEscape_spelling h rest, rfl⟩)

/-- Escapes in a row are as many items, the last one being the latest. -/
theorem readGroups_flatMap_text {es : List Escape} (h : ∀ e ∈ es, e.value ≤ maxCodePoint)
    (allowLazy : Bool) (branches items : List Pattern) (outer : List Group) (rest : List Char) :
    readGroups allowLazy ⟨⟨branches, items⟩, outer⟩ (es.flatMap text ++ rest) =
      readGroups allowLazy ⟨⟨branches, (es.map fun e => literal e.value).reverse ++ items⟩, outer⟩
        rest := by
  induction es generalizing items with
  | nil => rfl
  | cons e es ih =>
    obtain ⟨he, hes⟩ := List.forall_mem_cons.mp h
    rw [List.flatMap_cons, List.append_assoc, readGroups_text he, Group.push, ih hes,
      List.map_cons, List.reverse_cons, List.append_assoc, List.singleton_append]

theorem parse_flatMap_text {es : List Escape} (h : ∀ e ∈ es, e.value ≤ maxCodePoint)
    (allowLazy : Bool) :
    parse (String.ofList (es.flatMap text)) allowLazy =
      .ok (sequence (es.map fun e => literal e.value)) := by
  have hread := readGroups_flatMap_text h allowLazy [] [] [] []
  rw [List.append_nil, List.append_nil] at hread
  rw [parse_eq_ok_iff, String.toList_ofList]
  refine hread.trans ?_
  rw [readGroups, Group.close, List.reverse_reverse]
  rfl

end Escape

/-! ## Ranges of escapes -/

/-- A range in brackets whose ends are escapes. -/
structure EscapedRange where
  /-- The escape in front of the dash. -/
  low : Escape
  /-- The escape behind the dash. -/
  high : Escape

namespace EscapedRange

/-- The range as it is written. -/
def text (r : EscapedRange) : List Char := r.low.text ++ '-' :: r.high.text

/-- The range of code points from one end to the other. -/
def range (r : EscapedRange) : CodeRange := ⟨r.low.value, r.high.value⟩

/-- The class of several ranges as it is written. -/
def classText (rs : List EscapedRange) (negated : Bool) : List Char :=
  '[' :: (if negated then ['^'] else []) ++ rs.flatMap text ++ [']']

variable {r : EscapedRange} {rs : List EscapedRange}

theorem readElement_text (h : r.range.Within) (rest : List Char) :
    readElement (r.text ++ rest) = .ok ([r.range], rest) := by
  obtain ⟨hle, hhigh⟩ := h
  have hitem := Escape.readClassItem_text hhigh rest
  rw [text, List.append_assoc]
  refine Scan.bind_eq_ok.mpr ⟨_, Escape.readClassItem_text (Nat.le_trans hle hhigh) _, ?_⟩
  exact readRangeEnd_dash (by decide) hitem (Nat.not_lt.mpr hle)

theorem readElements_flatMap_text (h : ∀ r ∈ rs, r.range.Within) (rest : List Char) :
    readElements (rs.flatMap text ++ ']' :: rest) = .ok (rs.map range, rest) := by
  induction rs with
  | nil => rw [List.flatMap_nil, List.nil_append, readElements, List.map_nil]
  | cons r rs ih =>
    obtain ⟨hr, hrs⟩ := List.forall_mem_cons.mp h
    rw [List.flatMap_cons, List.append_assoc]
    have hfirst := readElement_text hr (rs.flatMap text ++ ']' :: rest)
    exact (readElements_of_readElement (by decide) hfirst).trans
      (Scan.bind_eq_ok.mpr ⟨_, ih hrs, rfl⟩)

theorem readBracket_classText (hne : rs ≠ []) (h : ∀ r ∈ rs, r.range.Within) (negated : Bool) :
    readBracket (classText rs negated).tail = .ok (ofRanges (rs.map range) negated, []) := by
  obtain ⟨r, rs, rfl⟩ := List.exists_cons_of_ne_nil hne
  obtain ⟨hr, hrs⟩ := List.forall_mem_cons.mp h
  have hbody : readBody negated ((r :: rs).flatMap text ++ [']']) =
      .ok (ofRanges ((r :: rs).map range) negated, []) := by
    rw [List.flatMap_cons, List.append_assoc]
    refine Scan.bind_eq_ok.mpr ⟨_, readElement_text hr _, ?_⟩
    exact Scan.bind_eq_ok.mpr ⟨_, readElements_flatMap_text hrs [], rfl⟩
  cases negated with
  | true => exact hbody
  | false => exact hbody

end EscapedRange

/-! ## Reading them back -/

/-- The code points that a class of ranges takes: those in some range, or if the class is negated,
those in none. -/
def EscapedRange.Takes (rs : List EscapedRange) (negated : Bool) (cp : Nat) : Prop :=
  (∃ r ∈ rs, r.low.value ≤ cp ∧ cp ≤ r.high.value) ↔ negated = false

theorem EscapedRange.covers_iff_takes {rs : List EscapedRange} {negated : Bool} {cp : Nat} :
    (Covers (CodeSet.ofRanges (rs.map range)).toList cp ↔ negated = false) ↔ Takes rs negated cp :=
  iff_congr (covers_normalList.trans (by simp [Covers, range])) Iff.rfl

/-- The set of a class holds the code points that the class takes. -/
theorem EscapedRange.exists_codeSet? {rs : List EscapedRange} (h : ∀ r ∈ rs, r.range.Within)
    (negated : Bool) :
    ∃ s, (ofRanges (rs.map range) negated).codeSet? = some s ∧ ∀ cp ≤ maxCodePoint,
      s.contains cp = true ↔ Takes rs negated cp := by
  have hordered : Ordered (CodeSet.ofRanges (rs.map range)).toList :=
    ordered_normalList (List.forall_mem_map.mpr fun r hr => (h r hr).1)
  refine ⟨_, rfl, fun cp hcp => ?_⟩
  rw [contains_iff_covers (ordered_negateIf hordered negated), covers_negateIf hordered negated hcp]
  exact covers_iff_takes

/-- **Escaped code points.** Every code point has an escape. Escapes in a row are read as their code
points in order. Pairs of escapes in brackets are read as the set of their ranges in normal form, so
that the class takes the code points in some range, or with `^` in front, those in none. -/
theorem parse_escaped :
    (∀ cp ≤ maxCodePoint, ∃ e : Escape, e.value = cp) ∧
      (∀ (es : List Escape) (allowLazy : Bool), (∀ e ∈ es, e.value ≤ maxCodePoint) →
        ∃ p, parse (String.ofList (es.flatMap Escape.text)) allowLazy = .ok p ∧
          (∀ e, es = [e] → p = literal e.value) ∧
          (es.length ≠ 1 → p = concat (es.map fun e => literal e.value))) ∧
      ∀ (rs : List EscapedRange) (negated allowLazy : Bool), rs ≠ [] →
        (∀ r ∈ rs, r.low.value ≤ r.high.value ∧ r.high.value ≤ maxCodePoint) →
        let p := oneOf (CodeSet.ofRanges (rs.map EscapedRange.range)) negated
        parse (String.ofList (EscapedRange.classText rs negated)) allowLazy = .ok p ∧
          (∃ s, p.codeSet? = some s ∧
            ∀ cp ≤ maxCodePoint, s.contains cp = true ↔ EscapedRange.Takes rs negated cp) ∧
          ∀ w, w ∈ p.language ↔ ∃ c : Char, w = [c] ∧ EscapedRange.Takes rs negated c.toNat := by
  refine ⟨fun cp => Escape.exists_value, fun es allowLazy hes =>
      ⟨_, Escape.parse_flatMap_text hes allowLazy, ?_, fun hlength => ?_⟩,
    fun rs negated allowLazy hne hrs => ⟨?_, EscapedRange.exists_codeSet? hrs negated, fun w => ?_⟩⟩
  · rintro e rfl
    rfl
  · exact sequence_of_length_ne_one (by rwa [List.length_map])
  · exact parse_bracket String.toList_ofList (EscapedRange.readBracket_classText hne hrs negated)
  · exact exists_congr fun c => and_congr_right fun _ => EscapedRange.covers_iff_takes

/-- A surrogate in front of the largest code point, and a class of three ranges of which the last
touches the second and overlaps the first. -/
theorem parse_escaped_touching :
    let surrogate : Escape := ⟨[0, 0, 0, 0, 13, 8, 0, 0].map (·, false), rfl⟩
    let largest : Escape := ⟨[0, 0, 1, 0, 15, 15, 15, 15].map (·, true), rfl⟩
    let digit (d : Fin 16) : Escape := ⟨[0, 0, 0, 0, 0, 0, 3, d].map (·, true), rfl⟩
    let ranges : List EscapedRange :=
      [⟨digit 6, digit 9⟩, ⟨digit 1, digit 3⟩, ⟨digit 4, digit 7⟩]
    (String.ofList ([surrogate, largest].flatMap Escape.text) = "\\U0000d800\\U0010FFFF" ∧
        parse "\\U0000d800\\U0010FFFF" true = .ok (concat [literal 0xD800, literal 0x10FFFF])) ∧
      String.ofList (EscapedRange.classText ranges true) =
        "[^\\U00000036-\\U00000039\\U00000031-\\U00000033\\U00000034-\\U00000037]" ∧
      parse "[^\\U00000036-\\U00000039\\U00000031-\\U00000033\\U00000034-\\U00000037]" false =
        .ok (oneOf #[⟨0x31, 0x39⟩] true) := by
  intro surrogate largest digit ranges
  obtain ⟨-, hliterals, hclasses⟩ := parse_escaped
  refine ⟨⟨by decide +kernel, ?_⟩, by decide +kernel, ?_⟩
  · obtain ⟨p, hparse, -, hconcat⟩ := hliterals [surrogate, largest] true (by decide)
    exact hconcat (by decide) ▸ hparse
  · have hset : CodeSet.ofRanges (ranges.map EscapedRange.range) = #[⟨0x31, 0x39⟩] := by cbv
    exact hset ▸ (hclasses ranges true false (by decide) (by decide)).1

end FiberLex.Pattern
