import FiberLex.Proofs.Pattern.Embedded
import FiberLex.Proofs.Text.Numeral

/-!
# Patterns in parentheses

A pattern in parentheses is one item, whatever it is made of: two of them side by side are a
sequence, two with a bar between them a choice, and a modifier behind one applies to all of it. What
a modifier makes of the pattern hangs on nothing but its counts and the mark that makes it lazy.
-/

namespace FiberLex.Pattern

open Scan

/-! ## Modifiers as they are written -/

/-- A count as it is written: a decimal numeral, perhaps with zeros in front. -/
structure Count where
  /-- The digits, the most significant first. -/
  digits : List (Fin 10)
  /-- A count has at least one digit. -/
  ne_nil : digits ≠ []

namespace Count

/-- The number that is meant. -/
def value (n : Count) : Nat := Numeral.valueFrom 10 0 (n.digits.map Fin.val)

/-- The characters of the numeral. -/
def text (n : Count) : List Char := (n.digits.map Fin.val).map Numeral.lowerDigit

end Count

/-- A modifier without the mark that makes it lazy. -/
inductive Modifier where
  /-- Any number of copies. -/
  | star
  /-- At least one copy. -/
  | plus
  /-- One copy or none. -/
  | optional
  /-- A count between braces. -/
  | exactly (n : Count)
  /-- Two counts between braces with a comma between them, either of which may be left out. -/
  | range (least most : Option Count)

namespace Modifier

/-- The characters of a count, if there is one. -/
def countText : Option Count → List Char
  | none => []
  | some n => n.text

/-- The first character of a modifier. -/
def opening : Modifier → Char
  | star => '*'
  | plus => '+'
  | optional => '?'
  | exactly _ | range _ _ => '{'

/-- The characters of a modifier after the first one. -/
def tail : Modifier → List Char
  | star | plus | optional => []
  | exactly n => n.text ++ ['}']
  | range least most => countText least ++ ',' :: (countText most ++ ['}'])

/-- The modifier as it is written, followed by a question mark if it is lazy. -/
def text (m : Modifier) (isLazy : Bool) : String :=
  String.ofList (m.opening :: m.tail) ++ if isLazy then "?" else ""

/-- The counts in a modifier. -/
def counts : Modifier → List Count
  | star | plus | optional => []
  | exactly n => [n]
  | range least most => least.toList ++ most.toList

/-- The least number of copies. -/
def min : Modifier → Nat
  | star | optional => 0
  | plus => 1
  | exactly n => n.value
  | range least _ => (least.map Count.value).getD 0

/-- The greatest number of copies, if there is one. -/
def max : Modifier → Option Nat
  | star | plus => none
  | optional => some 1
  | exactly n => some n.value
  | range _ most => most.map Count.value

/-- The bounds of a repetition, which have to be in order. -/
def ordered (min : Nat) : Option Nat → Except SyntaxIssue (Nat × Option Nat)
  | none => .ok (min, none)
  | some most => if most < min then .error (.invalidBounds min most) else .ok (min, some most)

/-- The bounds that a modifier gives, unless one of its counts is too large. -/
def bounds (m : Modifier) : Except SyntaxIssue (Nat × Option Nat) :=
  if ∃ n ∈ m.counts, countLimit ≤ n.value then .error .countTooLarge else ordered m.min m.max

/-- What a modifier makes of a pattern: a repetition within its bounds, or the empty text if no copy
is allowed. -/
def outcome (m : Modifier) (p : Pattern) (isLazy : Bool) : Except SyntaxIssue Pattern :=
  m.bounds.map fun b => if b.2 = some 0 then empty else repetition p b.1 b.2 isLazy

end Modifier

/-! ## Reading modifiers -/

section Reading

variable {ε ε' α β : Type}

/-- Faults of two steps after each other are faults of one of them. -/
theorem mapError_bind {x : Except ε α} {f : α → Except ε β} {g : ε → ε'} :
    (x >>= f).mapError g = (x.mapError g >>= fun a => (f a).mapError g) := by
  cases x <;> rfl

theorem Count.lt_ten (n : Count) : ∀ d ∈ n.digits.map Fin.val, d < 10 := by
  intro d hd
  obtain ⟨d, -, rfl⟩ := List.mem_map.mp hd
  exact d.isLt

theorem issue_readCount (n : Option Count) {c : Char} (rest : List Char)
    (hc : Numeral.decimalValue? c = none) :
    (readCount (Modifier.countText n ++ c :: rest)).mapError Fault.issue =
      if ∃ k ∈ n, countLimit ≤ k.value then .error .countTooLarge
      else .ok (n.map Count.value, c :: rest) := by
  rcases n with _ | n
  · rw [if_neg (by simp)]
    simp [Modifier.countText, readCount, decimal, hc, Except.mapError]
  by_cases hlarge : countLimit ≤ n.value
  · rw [if_pos ⟨n, rfl, hlarge⟩]
    exact issue_decimal _ _ n.lt_ten (by decide) hlarge
  · rw [if_neg (by simpa using hlarge)]
    have hread := decimal_append .countTooLarge none (c :: rest) n.lt_ten hc
      (Nat.lt_of_not_le hlarge)
    rw [if_neg (by simpa using n.ne_nil)] at hread
    rw [readCount, Modifier.countText, Count.text, hread]
    rfl

theorem issue_readBoundsEnd (site : List Char) (min : Nat) (max : Option Nat) (rest : List Char) :
    (readBoundsEnd site min max ('}' :: rest)).mapError Fault.issue =
      (Modifier.ordered min max).map (·, rest) := by
  rcases max with _ | most
  · rfl
  · simp only [readBoundsEnd, Modifier.ordered]
    split <;> rfl

/-- A modifier is read up to its end, whatever follows. -/
theorem issue_readModifier (m : Modifier) (rest : List Char) :
    (readModifier m.opening (m.tail ++ rest)).mapError Fault.issue = m.bounds.map (·, rest) := by
  cases m with
  | star => rfl
  | plus => rfl
  | optional => rfl
  | exactly n =>
    have hcount := issue_readCount (some n) rest (c := '}') rfl
    rw [Modifier.bounds]
    simp only [Modifier.countText, Option.mem_some, exists_eq_left'] at hcount
    simp only [Modifier.tail, List.append_assoc, List.singleton_append, Modifier.opening]
    show (readCount (n.text ++ '}' :: rest) >>= _).mapError _ = _
    rw [mapError_bind, hcount]
    simp only [Modifier.counts, List.mem_singleton, exists_eq_left]
    by_cases hlarge : countLimit ≤ n.value
    · simp only [hlarge, if_true]
      rfl
    · simp only [hlarge, if_false]
      exact issue_readBoundsEnd _ _ _ _
  | range least most =>
    have hleast := issue_readCount least (Modifier.countText most ++ '}' :: rest) (c := ',') rfl
    have hmost := issue_readCount most rest (c := '}') rfl
    have hcounts : (∃ n ∈ (Modifier.range least most).counts, countLimit ≤ n.value) ↔
        (∃ k ∈ least, countLimit ≤ k.value) ∨ ∃ k ∈ most, countLimit ≤ k.value := by
      simp [Modifier.counts, or_and_right, exists_or]
    have htext : (Modifier.range least most).tail ++ rest =
        Modifier.countText least ++ ',' :: (Modifier.countText most ++ '}' :: rest) := by
      simp [Modifier.tail]
    rw [htext, Modifier.bounds]
    show (readCount (Modifier.countText least ++ ',' :: _) >>= _).mapError _ = _
    rw [mapError_bind, hleast]
    by_cases hlarge : ∃ k ∈ least, countLimit ≤ k.value
    · rw [if_pos hlarge, if_pos (hcounts.mpr (.inl hlarge))]
      rfl
    rw [if_neg hlarge]
    show (readCount (Modifier.countText most ++ '}' :: rest) >>= _).mapError _ = _
    rw [mapError_bind, hmost]
    by_cases hlarge' : ∃ k ∈ most, countLimit ≤ k.value
    · rw [if_pos hlarge', if_pos (hcounts.mpr (.inr hlarge'))]
      rfl
    · rw [if_neg hlarge', if_neg fun h => (hcounts.mp h).elim hlarge hlarge']
      exact issue_readBoundsEnd _ _ _ _

end Reading

/-! ## Patterns in parentheses -/

section Groups

variable {allowLazy : Bool} {text : String} {p : Pattern}

/-- A pattern in parentheses is one item of the group around it, whatever follows. -/
theorem readGroups_parenthesized (h : parse text allowLazy = .ok p) (s : OpenGroups)
    (rest : List Char) :
    readGroups allowLazy s ('(' :: (text.toList ++ ')' :: rest)) =
      readGroups allowLazy ⟨s.inner.push p, s.outer⟩ rest := by
  obtain ⟨g, rfl, hleads⟩ := exists_leads_of_parse h
  have hopen : readStep allowLazy s '(' (text.toList ++ ')' :: rest) =
      .ok (⟨{}, s.inner :: s.outer⟩, text.toList ++ ')' :: rest) := rfl
  have hclose : readStep allowLazy ⟨g, s.inner :: s.outer⟩ ')' rest =
      .ok (⟨s.inner.push g.close, s.outer⟩, rest) := rfl
  rw [readGroups_of_readStep hopen, hleads _ _ (.inr ⟨rest, rfl⟩), readGroups_of_readStep hclose]

/-- Reading goes on after a step that is no closing parenthesis, or fails with it. -/
theorem readGroups_cons {s : OpenGroups} {c : Char} {cs : List Char} (hc : c ≠ ')') :
    readGroups allowLazy s (c :: cs) =
      (readStep allowLazy s c cs >>= fun r => readGroups allowLazy r.1 r.2) := by
  rw [readGroups, if_neg fun hclosing => hc hclosing.1]
  split
  · rename_i hstep
    rw [hstep]
    rfl
  · rename_i hstep
    rw [hstep]
    rfl

/-- A modifier behind an item that ends the text applies to the item. -/
theorem issue_readGroups_modifier (m : Modifier) (p : Pattern) (isLazy : Bool) :
    (readGroups true ⟨⟨[], [p]⟩, []⟩ (m.text isLazy).toList).mapError Fault.issue =
      (m.outcome p isLazy).map (·, []) := by
  have htext : (m.text isLazy).toList =
      m.opening :: (m.tail ++ if isLazy then ['?'] else []) := by
    cases isLazy <;> simp [Modifier.text]
  have hopening : m.opening ≠ ')' := by cases m <;> simp [Modifier.opening]
  have hstep : ∀ cs, readStep true ⟨⟨[], [p]⟩, []⟩ m.opening cs =
      (modifyLast true ⟨[], [p]⟩ m.opening cs >>= fun r => .ok (⟨r.1, []⟩, r.2)) := by
    intro cs
    cases m <;> rfl
  rw [htext, readGroups_cons hopening, hstep, modifyLast, mapError_bind, mapError_bind,
    mapError_bind, issue_readModifier, Modifier.outcome]
  rcases m.bounds with issue | b
  · rfl
  · cases isLazy
    · exact congrArg (Except.mapError Fault.issue) (readGroups_of_stops _ (.inl rfl))
    · exact congrArg (Except.mapError Fault.issue) (readGroups_of_stops _ (.inl rfl))

/-- What is wrong with a text is what is wrong where reading its groups fails. -/
theorem issue_parse (text : String) (allowLazy : Bool) :
    (parse text allowLazy).mapError (·.issue) =
      (readWhole allowLazy text.toList).mapError Fault.issue := by
  simp only [parse, Cursor.readPattern, Bool.false_eq_true, if_false]
  rw [show (Cursor.ofString text).position.rest = text.toList from rfl]
  cases readWhole allowLazy text.toList <;> rfl

end Groups

/-- **Patterns in parentheses.** Patterns in parentheses are put together as a whole: one on its own
is itself, two are a sequence or, with a bar between them, a choice, and a modifier makes a repetition
of the whole pattern, unless it is faulty or allows no copy. -/
theorem parse_parenthesized {p q : String} {P Q : Pattern} (hp : parse p = .ok P)
    (hq : parse q = .ok Q) :
    parse ("(" ++ p ++ ")") = .ok P ∧
    parse ("(" ++ p ++ ")(" ++ q ++ ")") = .ok (concat [P, Q]) ∧
    parse ("(" ++ p ++ ")|(" ++ q ++ ")") = .ok (alt [P, Q]) ∧
    ∀ (m : Modifier) (isLazy : Bool),
      (parse ("(" ++ p ++ ")" ++ m.text isLazy)).mapError (·.issue) = m.outcome P isLazy := by
  refine ⟨?_, ?_, ?_, fun m isLazy => ?_⟩
  · rw [parse_eq_ok_iff, show ("(" ++ p ++ ")").toList = '(' :: (p.toList ++ [')']) by simp,
      readGroups_parenthesized hp]
    exact readGroups_of_stops _ (.inl rfl)
  · have htext : ("(" ++ p ++ ")(" ++ q ++ ")").toList =
        '(' :: (p.toList ++ ')' :: '(' :: (q.toList ++ [')'])) := by simp
    rw [parse_eq_ok_iff, htext, readGroups_parenthesized hp, readGroups_parenthesized hq]
    exact readGroups_of_stops _ (.inl rfl)
  · have htext : ("(" ++ p ++ ")|(" ++ q ++ ")").toList =
        '(' :: (p.toList ++ ')' :: '|' :: '(' :: (q.toList ++ [')'])) := by simp
    have hbar : ∀ cs, readStep true ⟨⟨[], [P]⟩, []⟩ '|' cs = .ok (⟨⟨[P], []⟩, []⟩, cs) :=
      fun _ => rfl
    rw [parse_eq_ok_iff, htext, readGroups_parenthesized hp]
    refine (readGroups_of_readStep (hbar _)).trans ?_
    rw [readGroups_parenthesized hq]
    exact readGroups_of_stops _ (.inl rfl)
  · have htext : ("(" ++ p ++ ")" ++ m.text isLazy).toList =
        '(' :: (p.toList ++ ')' :: (m.text isLazy).toList) := by simp
    have hread : (readGroups true ⟨({} : OpenGroups).inner.push P, ({} : OpenGroups).outer⟩
        (m.text isLazy).toList).mapError Fault.issue = (m.outcome P isLazy).map (·, []) :=
      issue_readGroups_modifier m P isLazy
    rw [issue_parse, htext, readWhole, readEmbedded, readGroups_parenthesized hp, mapError_bind,
      hread]
    cases m.outcome P isLazy <;> rfl

/-- Two patterns with bars, parentheses and modifiers of their own. -/
theorem parse_parenthesized_bars :
    (parse "a|b" = .ok (alt [literal 97, literal 98]) ∧
        parse "c*" = .ok (repetition (literal 99) 0 none false)) ∧
      parse ("(" ++ "a|b" ++ ")(" ++ "c*" ++ ")") =
        .ok (concat [alt [literal 97, literal 98], repetition (literal 99) 0 none false]) ∧
      (parse ("(" ++ "a|b" ++ ")" ++
          (Modifier.range (some ⟨[2], by decide⟩) none).text true)).mapError (·.issue) =
        .ok (repetition (alt [literal 97, literal 98]) 2 none true) := by
  have hp : parse "a|b" = .ok (alt [literal 97, literal 98]) := by cbv
  have hq : parse "c*" = .ok (repetition (literal 99) 0 none false) := by cbv
  obtain ⟨-, hconcat, -, hmodifier⟩ := parse_parenthesized hp hq
  exact ⟨⟨hp, hq⟩, hconcat, (hmodifier _ true).trans rfl⟩

end FiberLex.Pattern
