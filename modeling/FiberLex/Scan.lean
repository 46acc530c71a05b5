import FiberLex.Cursor

/-!
# Reading characters

Readers work on the list of characters that is left and return what they read with the characters
after it. They keep no track of lines and columns: a failed reader names the two suffixes of its
input where the fault is and where it stopped, and the place in the text follows from their lengths.
-/

namespace FiberLex

/-- Why and where reading failed. -/
structure Fault where
  /-- What is wrong. -/
  issue : SyntaxIssue
  /-- What is left from the faulty place on. -/
  site : List Char
  /-- What is left from the place where reading stopped. -/
  stop : List Char
deriving DecidableEq, Repr

namespace Fault

/-- A fault where reading stopped. -/
def here (issue : SyntaxIssue) (rest : List Char) : Fault := ⟨issue, rest, rest⟩

/-- The fault that one of a few things is expected next. -/
def expecting (expected : List String) (rest : List Char) : Fault :=
  here (.unexpected rest.head? expected) rest

/-- The error for a fault of a text read from position `p` on. -/
def toError (f : Fault) (tabWidth : Nat) (p : Position) : SyntaxError :=
  (p.seek tabWidth f.site).error f.issue

end Fault

namespace Scan

/-- Reads the wanted character. -/
def char (wanted : Char) : List Char → Except Fault (List Char)
  | [] => .error (.expecting [String.ofList [wanted]] [])
  | c :: cs => if c = wanted then .ok cs else .error (.expecting [String.ofList [wanted]] (c :: cs))

/-- Reads decimal digits after those that gave `value`, as long as the number stays below
`limit`. -/
def decimal (limit : Nat) (tooLarge : SyntaxIssue) (value : Option Nat) :
    List Char → Except Fault (Option Nat × List Char)
  | [] => .ok (value, [])
  | c :: cs =>
    match Numeral.decimalValue? c with
    | none => .ok (value, c :: cs)
    | some d =>
      let next := value.getD 0 * 10 + d
      if next < limit then decimal limit tooLarge (some next) cs
      else .error (.here tooLarge (c :: cs))

/-- The hexadecimal digits in front, at most `n` of them, and what follows. -/
def hexDigits : Nat → List Char → List Nat × List Char
  | n + 1, c :: cs =>
    match Numeral.hexValue? c with
    | some d => (d :: (hexDigits n cs).1, (hexDigits n cs).2)
    | none => ([], c :: cs)
  | _, cs => ([], cs)

/-- The number with the given hexadecimal digits. -/
def hexNumber (digits : List Nat) : Nat := digits.foldl (fun value d => value * 16 + d) 0

/-- Reads a hexadecimal number of `least` to `most` digits. -/
def hex (least most : Nat) (cs : List Char) : Except Fault (Nat × List Char) :=
  let (digits, rest) := hexDigits most cs
  if digits.length < least then .error (.expecting ["hex digit"] rest)
  else .ok (hexNumber digits, rest)

/-! ## Readers in sequence -/

/-- A sequence of two steps succeeds when both do. -/
theorem bind_eq_ok {ε α β : Type} {x : Except ε α} {f : α → Except ε β} {b : β} :
    (x >>= f) = .ok b ↔ ∃ a, x = .ok a ∧ f a = .ok b := by
  cases x <;> simp [bind, Except.bind]

/-- A sequence of two steps fails when the first one fails, or else the second. -/
theorem bind_eq_error {ε α β : Type} {x : Except ε α} {f : α → Except ε β} {e : ε} :
    (x >>= f) = .error e ↔ x = .error e ∨ ∃ a, x = .ok a ∧ f a = .error e := by
  cases x <;> simp [bind, Except.bind]

/-! ## What readers leave -/

/-- `rest` is what is left of `cs` after at least one character. -/
def Consumes (cs rest : List Char) : Prop := ∃ used, used ≠ [] ∧ cs = used ++ rest

/-- `rest` is what is left of `cs` after some characters, perhaps none. -/
def Leaves (cs rest : List Char) : Prop := ∃ used, cs = used ++ rest

theorem Leaves.refl (cs : List Char) : Leaves cs cs := ⟨[], rfl⟩

theorem Consumes.leaves {cs rest : List Char} (h : Consumes cs rest) : Leaves cs rest := by
  obtain ⟨used, -, e⟩ := h
  exact ⟨used, e⟩

theorem Consumes.cons (c : Char) (cs : List Char) : Consumes (c :: cs) cs := ⟨[c], by simp, rfl⟩

theorem Leaves.trans {a b c : List Char} (h : Leaves a b) (k : Leaves b c) : Leaves a c := by
  obtain ⟨u, rfl⟩ := h
  obtain ⟨v, rfl⟩ := k
  exact ⟨u ++ v, by simp⟩

theorem Leaves.cons {c : Char} {cs rest : List Char} (h : Leaves cs rest) :
    Consumes (c :: cs) rest := by
  obtain ⟨u, rfl⟩ := h
  exact ⟨c :: u, by simp, rfl⟩

theorem Consumes.trans {a b c : List Char} (h : Consumes a b) (k : Leaves b c) :
    Consumes a c := by
  obtain ⟨u, hu, rfl⟩ := h
  obtain ⟨v, rfl⟩ := k
  exact ⟨u ++ v, by simp [hu], by simp⟩

theorem Leaves.consumes {a b c : List Char} (h : Leaves a b) (k : Consumes b c) :
    Consumes a c := by
  obtain ⟨u, rfl⟩ := h
  obtain ⟨v, hv, rfl⟩ := k
  exact ⟨u ++ v, by simp [hv], by simp⟩

theorem Leaves.length_le {cs rest : List Char} (h : Leaves cs rest) : rest.length ≤ cs.length := by
  obtain ⟨u, rfl⟩ := h
  simp

theorem Consumes.length_lt {cs rest : List Char} (h : Consumes cs rest) :
    rest.length < cs.length := by
  obtain ⟨u, hu, rfl⟩ := h
  have := List.length_pos_iff.mpr hu
  simp
  omega

/-- A reader that returns without reading on leaves all. -/
theorem leaves_of_ok {α : Type} {a b : α} {cs rest : List Char}
    (h : (.ok (a, cs) : Except Fault _) = .ok (b, rest)) : Leaves cs rest := by
  cases h
  exact .refl _

/-- Reading on leaves what it leaves of what the first reader leaves. -/
theorem leaves_of_bind {α β : Type} {first : Except Fault (α × List Char)}
    {next : α × List Char → Except Fault (β × List Char)} {b : β} {cs rest : List Char}
    (h : (first >>= next) = .ok (b, rest))
    (hfirst : ∀ {a left}, first = .ok (a, left) → Leaves cs left)
    (hnext : ∀ {a left}, next (a, left) = .ok (b, rest) → Leaves left rest) : Leaves cs rest := by
  obtain ⟨⟨a, left⟩, h₁, h⟩ := bind_eq_ok.mp h
  exact (hfirst h₁).trans (hnext h)

theorem Leaves.dropWhile (p : Char → Bool) (cs : List Char) : Leaves cs (cs.dropWhile p) :=
  ⟨cs.takeWhile p, by simp⟩

theorem char_consumes {wanted : Char} {cs rest : List Char} (h : char wanted cs = .ok rest) :
    Consumes cs rest := by
  cases cs with
  | nil => simp [char] at h
  | cons c cs =>
    simp only [char] at h
    split at h
    · cases h
      exact .cons _ _
    · cases h

theorem decimal_leaves {limit : Nat} {issue : SyntaxIssue} {cs rest : List Char}
    {value result : Option Nat} (h : decimal limit issue value cs = .ok (result, rest)) :
    Leaves cs rest := by
  induction cs generalizing value with
  | nil =>
    simp [decimal] at h
    exact h.2 ▸ .refl _
  | cons c cs ih =>
    simp only [decimal] at h
    split at h
    · cases h
      exact .refl _
    · split at h
      · exact (ih h).cons.leaves
      · cases h

theorem hexDigits_leaves (n : Nat) (cs : List Char) : Leaves cs (hexDigits n cs).2 := by
  induction n generalizing cs with
  | zero => simpa [hexDigits] using .refl _
  | succ n ih =>
    cases cs with
    | nil => simpa [hexDigits] using .refl _
    | cons c cs =>
      simp only [hexDigits]
      split
      · exact (ih cs).cons.leaves
      · exact .refl _

theorem hex_leaves {least most value : Nat} {cs rest : List Char}
    (h : hex least most cs = .ok (value, rest)) : Leaves cs rest := by
  simp only [hex] at h
  split at h
  · cases h
  · cases h
    exact hexDigits_leaves most cs

end Scan

end FiberLex
