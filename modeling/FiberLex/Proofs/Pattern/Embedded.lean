import FiberLex.Proofs.Pattern.Lookahead
import Mathlib.Tactic

/-!
# Patterns in front of a closing parenthesis

A pattern ends with the text or before a closing parenthesis that closes no open group. A text that
has been read up to its end leads to the same group before any other end, also within groups that
are open (`exists_leads_of_readGroups`). So a pattern that is embedded in a text is the one that its
part of the text has when it stands alone (`readEmbedded_eq_ok_iff`).
-/

namespace FiberLex

namespace Pattern

open Scan

/-! ## Reading up to an end -/

/-- A text where a pattern may end: nothing, or a closing parenthesis in front. -/
def Stops (rest : List Char) : Prop := rest = [] ∨ ∃ more, rest = ')' :: more

theorem Stops.noNewMark {used rest rest' : List Char} (h : Stops rest') :
    NoNewMark (used ++ rest) (used ++ rest') := by
  intro hhead
  rcases used with _ | ⟨c, used⟩
  · rcases h with rfl | ⟨more, rfl⟩
    · cases hhead
    · cases hhead
  · exact hhead

/-- Reading `used` leads from some groups to others, whatever end follows. -/
def Leads (allowLazy : Bool) (s : OpenGroups) (used : List Char) (s' : OpenGroups) : Prop :=
  ∀ rest, Stops rest → readGroups allowLazy s (used ++ rest) = readGroups allowLazy s' rest

/-- A pattern that has been read ends with the text or before a closing parenthesis, and the same
text leads to the same group within any groups that are open. -/
theorem exists_leads_of_readGroups {allowLazy : Bool} {s : OpenGroups} {cs rest : List Char}
    {p : Pattern} (h : readGroups allowLazy s cs = .ok (p, rest)) :
    Stops rest ∧ ∃ used g, cs = used ++ rest ∧ g.close = p ∧
      ∀ around, Leads allowLazy (s.within around) used ⟨g, around⟩ := by
  fun_induction readGroups allowLazy s cs generalizing p rest with
  | case1 s houter =>
    cases h
    refine ⟨.inl rfl, [], s.inner, rfl, rfl, fun around more _ => ?_⟩
    rw [List.nil_append, OpenGroups.within, houter, List.nil_append]
  | case2 => cases h
  | case3 s c cs hclose =>
    obtain ⟨rfl, houter⟩ := hclose
    cases h
    refine ⟨.inr ⟨cs, rfl⟩, [], s.inner, rfl, rfl, fun around more _ => ?_⟩
    rw [List.nil_append, OpenGroups.within, houter, List.nil_append]
  | case4 => cases h
  | case5 s c cs _ s' rest₁ hstep ih =>
    obtain ⟨hstops, used, g, rfl, hg, hleads⟩ := ih h
    obtain ⟨first, rfl, -⟩ := readStep_takes hstep []
    refine ⟨hstops, c :: first ++ used, g, (List.append_assoc (c :: first) used rest).symm, hg,
      fun around more hmore => ?_⟩
    obtain ⟨first', hfirst, hread⟩ := readStep_takes hstep around
    obtain rfl : first = first' := List.append_cancel_right hfirst
    have hstep' := hread (used ++ more) hmore.noNewMark
    rw [List.append_assoc, List.cons_append, readGroups_of_readStep hstep']
    exact hleads around more hmore

/-- Where a pattern may end, it ends if no group is open. -/
theorem readGroups_of_stops {allowLazy : Bool} (g : Group) {rest : List Char} (h : Stops rest) :
    readGroups allowLazy ⟨g, []⟩ rest = .ok (g.close, rest) := by
  rcases h with rfl | ⟨more, rfl⟩
  · rw [readGroups]
  · rw [readGroups, if_pos ⟨rfl, rfl⟩]

/-- A text that is a pattern leads to one group, within any groups that are open. -/
theorem exists_leads_of_parse {allowLazy : Bool} {text : String} {p : Pattern}
    (h : parse text allowLazy = .ok p) :
    ∃ g : Group, g.close = p ∧
      ∀ around, Leads allowLazy ⟨{}, around⟩ text.toList ⟨g, around⟩ := by
  obtain ⟨-, used, g, hused, hg, hleads⟩ := exists_leads_of_readGroups (parse_eq_ok_iff.mp h)
  rw [List.append_nil] at hused
  exact ⟨g, hg, hused ▸ hleads⟩

/-- A pattern embedded in a text is the pattern of the part before the end that is found. -/
theorem readEmbedded_eq_ok_iff {allowLazy : Bool} {cs rest : List Char} {p : Pattern} :
    readEmbedded allowLazy cs = .ok (p, rest) ↔
      Stops rest ∧ ∃ text : String, cs = text.toList ++ rest ∧ parse text allowLazy = .ok p := by
  constructor
  · intro h
    obtain ⟨hstops, used, g, hcs, rfl, hleads⟩ := exists_leads_of_readGroups h
    refine ⟨hstops, String.ofList used, by rw [String.toList_ofList, hcs], ?_⟩
    rw [parse_eq_ok_iff, String.toList_ofList, ← List.append_nil used]
    exact (hleads [] [] (.inl rfl)).trans (readGroups_of_stops g (.inl rfl))
  · rintro ⟨hstops, text, rfl, hparse⟩
    obtain ⟨g, rfl, hleads⟩ := exists_leads_of_parse hparse
    exact (hleads [] rest hstops).trans (readGroups_of_stops g hstops)

end Pattern

/-! ## At a cursor -/

namespace Cursor

/-- The end of a part of the text is as many characters further on. -/
theorem seek_of_append {cur : Cursor} {used rest : List Char} (h : cur.position.rest = used ++ rest) :
    cur.seek rest = cur.advanceBy used.length := by
  have hlength : (used ++ rest).length - rest.length = used.length := by
    rw [List.length_append, Nat.add_sub_cancel]
  rw [seek, Position.seek, h, hlength, advanceBy]

@[simp] theorem rest_advanceBy (n : Nat) (cur : Cursor) :
    (cur.advanceBy n).position.rest = cur.position.rest.drop n :=
  Position.rest_advanceBy _ _ _

/-- An embedded pattern is read where the text goes on with a pattern and an end. -/
theorem readPattern_embedded_eq_ok_iff {cur cur' : Cursor} {allowLazy : Bool} {p : Pattern} :
    cur.readPattern true allowLazy = (.ok p, cur') ↔
      ∃ (text : String) (rest : List Char), cur.position.rest = text.toList ++ rest ∧
        Pattern.Stops rest ∧ Pattern.parse text allowLazy = .ok p ∧
        cur' = cur.advanceBy text.length := by
  have hread : cur.readPattern true allowLazy = (.ok p, cur') ↔
      ∃ rest, Pattern.readEmbedded allowLazy cur.position.rest = .ok (p, rest) ∧
        cur' = cur.seek rest := by
    simp only [readPattern, if_true]
    cases Pattern.readEmbedded allowLazy cur.position.rest with
    | error f => simp
    | ok r =>
      obtain ⟨q, rest⟩ := r
      simp [eq_comm]
  rw [hread]
  constructor
  · rintro ⟨rest, hembedded, rfl⟩
    obtain ⟨hstops, text, htext, hparse⟩ := Pattern.readEmbedded_eq_ok_iff.mp hembedded
    exact ⟨text, rest, htext, hstops, hparse, String.length_toList ▸ seek_of_append htext⟩
  · rintro ⟨text, rest, htext, hstops, hparse, rfl⟩
    refine ⟨rest, Pattern.readEmbedded_eq_ok_iff.mpr ⟨hstops, text, htext, hparse⟩, ?_⟩
    rw [seek_of_append htext, String.length_toList]

/-- **Embedded patterns.** An embedded pattern ends with the text or at a closing parenthesis, and is
the pattern that what has been read is on its own. Conversely, where the text goes on with a pattern
and a closing parenthesis, just this pattern is read, up to the parenthesis. -/
theorem readPattern_embedded (cur : Cursor) (allowLazy : Bool) (p : Pattern) :
    (∀ cur', cur.readPattern true allowLazy = (.ok p, cur') →
      (cur'.current? = none ∨ cur'.current? = some ')') ∧
        ∃ text : String, cur.remaining = text ++ cur'.remaining ∧
          cur' = cur.advanceBy text.length ∧ Pattern.parse text allowLazy = .ok p) ∧
    ∀ text more : String, Pattern.parse text allowLazy = .ok p →
      cur.remaining = text ++ ")" ++ more →
      cur.readPattern true allowLazy = (.ok p, cur.advanceBy text.length) ∧
        (cur.advanceBy text.length).remaining = ")" ++ more := by
  constructor
  · intro cur' h
    obtain ⟨text, rest, htext, hstops, hparse, rfl⟩ := readPattern_embedded_eq_ok_iff.mp h
    have hrest : (cur.advanceBy text.length).position.rest = rest := by
      rw [rest_advanceBy, htext, ← String.length_toList, List.drop_left]
    refine ⟨?_, text, ?_, rfl, hparse⟩
    · rw [current?, hrest]
      rcases hstops with rfl | ⟨more, rfl⟩
      · exact .inl rfl
      · exact .inr rfl
    · rw [remaining, remaining, hrest, htext, String.ofList_append, String.ofList_toList]
  · intro text more hparse hremaining
    have htext : cur.position.rest = text.toList ++ ')' :: more.toList := by
      rw [← String.toList_ofList (l := cur.position.rest), ← remaining, hremaining]
      simp
    refine ⟨readPattern_embedded_eq_ok_iff.mpr
      ⟨text, _, htext, .inr ⟨more.toList, rfl⟩, hparse, rfl⟩, ?_⟩
    rw [remaining, rest_advanceBy, htext, ← String.length_toList, List.drop_left]
    simp

/-- Both ways at a cursor in the middle of a text, for a pattern with parentheses of its own. -/
theorem readPattern_embedded_parenthesized :
    let cur := (Cursor.ofString "r(a(b)\\)) x").advanceBy 2
    let p := Pattern.concat [.literal 97, .literal 98, .literal 41]
    (cur.readPattern true true = (.ok p, cur.advanceBy 6) ∧
        (cur.advanceBy 6).remaining = ")" ++ " x") ∧
      ((cur.advanceBy 6).current? = none ∨ (cur.advanceBy 6).current? = some ')') ∧
      ∃ text : String, cur.remaining = text ++ (cur.advanceBy 6).remaining ∧
        cur.advanceBy 6 = cur.advanceBy text.length ∧ Pattern.parse text true = .ok p := by
  intro cur p
  have hparse : Pattern.parse "a(b)\\)" true = .ok p := by cbv
  have hremaining : cur.remaining = "a(b)\\)" ++ ")" ++ " x" := by decide +kernel
  obtain ⟨hends, hreads⟩ := readPattern_embedded cur true p
  have hread := hreads "a(b)\\)" " x" hparse hremaining
  exact ⟨hread, hends _ hread.1⟩

end Cursor

end FiberLex
