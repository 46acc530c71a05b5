import FiberLex.Scan
import FiberLex.Text.Numeral
import Mathlib.Algebra.Group.Nat.Defs
import Mathlib.Data.List.Basic

/-!
# Reading numerals back

A numeral is made of the digits of its number, so a reader that takes the digits up one by one comes
to the number again, as long as what follows is no digit. Zeros in front do not count.
-/

namespace FiberLex.Numeral

variable {base n : Nat}

/-! ## Digits -/

/-- The number with the given digits after those that gave `value`. -/
def valueFrom (base value : Nat) (ds : List Nat) : Nat := ds.foldl (fun v d => v * base + d) value

@[simp] theorem valueFrom_cons (base value d : Nat) (ds : List Nat) :
    valueFrom base value (d :: ds) = valueFrom base (value * base + d) ds := rfl

theorem digits_ne_nil (base n : Nat) : digits base n ≠ [] := by
  rw [digits]
  split <;> simp

theorem lt_of_mem_digits (hbase : 2 ≤ base) {d : Nat} (hd : d ∈ digits base n) : d < base := by
  fun_induction digits base n with
  | case1 n h =>
    rw [List.mem_singleton] at hd
    omega
  | case2 n h ih =>
    rcases List.mem_append.mp hd with hd | hd
    · exact ih hd
    · rw [List.mem_singleton.mp hd]
      exact Nat.mod_lt _ (by omega)

theorem valueFrom_digits (base n : Nat) : valueFrom base 0 (digits base n) = n := by
  fun_induction digits base n with
  | case1 n h => simp [valueFrom]
  | case2 n h ih =>
    unfold valueFrom at ih ⊢
    rw [List.foldl_append, ih]
    exact Nat.div_add_mod' n base

/-- A number below a power of the base has no more digits than the power says. -/
theorem length_digits_le (hbase : 2 ≤ base) {k : Nat} (hn : n < base ^ (k + 1)) :
    (digits base n).length ≤ k + 1 := by
  induction k generalizing n with
  | zero =>
    rw [digits, dif_pos (Or.inl (by simpa using hn))]
    simp
  | succ k ih =>
    rw [digits]
    split
    · simp
    · have hdiv : n / base < base ^ (k + 1) := by
        rw [Nat.div_lt_iff_lt_mul (by omega), ← Nat.pow_succ]
        exact hn
      have := ih hdiv
      rw [List.length_append, List.length_singleton]
      omega

/-- More digits make no smaller number. -/
theorem le_valueFrom (hbase : 2 ≤ base) (value : Nat) (ds : List Nat) :
    value ≤ valueFrom base value ds := by
  induction ds generalizing value with
  | nil => exact Nat.le_refl _
  | cons d ds ih =>
    have hmul : value ≤ value * base := Nat.le_mul_of_pos_right value (by omega)
    calc value ≤ value * base + d := by omega
      _ ≤ valueFrom base (value * base + d) ds := ih _

theorem valueFrom_replicate_zero (base k : Nat) (ds : List Nat) :
    valueFrom base 0 (List.replicate k 0 ++ ds) = valueFrom base 0 ds := by
  induction k with
  | zero => rfl
  | succ k ih =>
    rw [List.replicate_succ, List.cons_append, valueFrom_cons]
    simpa using ih

/-! ## Characters of digits -/

theorem decimalValue?_lowerDigit {d : Nat} (h : d < 10) :
    decimalValue? (lowerDigit d) = some d := by
  revert d
  decide

theorem hexValue?_upperDigit {d : Nat} (h : d < 16) : hexValue? (upperDigit d) = some d := by
  revert d
  decide

theorem hexValue?_lowerDigit {d : Nat} (h : d < 16) : hexValue? (lowerDigit d) = some d := by
  revert d
  decide

theorem isDigit_lowerDigit {d : Nat} (h : d < 10) : (lowerDigit d).isDigit = true := by
  revert d
  decide

/-- The digits of a number with as many zeros in front as it takes to reach `width` digits. -/
def paddedDigits (width base n : Nat) : List Nat :=
  List.replicate (width - (digits base n).length) 0 ++ digits base n

theorem lt_of_mem_paddedDigits (hbase : 2 ≤ base) {width d : Nat}
    (hd : d ∈ paddedDigits width base n) : d < base := by
  rcases List.mem_append.mp hd with hd | hd
  · rw [(List.mem_replicate.mp hd).2]
    omega
  · exact lt_of_mem_digits hbase hd

theorem valueFrom_paddedDigits (width base n : Nat) :
    valueFrom base 0 (paddedDigits width base n) = n := by
  rw [paddedDigits, valueFrom_replicate_zero, valueFrom_digits]

theorem length_paddedDigits (hbase : 2 ≤ base) {k : Nat} (hn : n < base ^ (k + 1)) :
    (paddedDigits (k + 1) base n).length = k + 1 := by
  have := length_digits_le hbase hn
  rw [paddedDigits, List.length_append, List.length_replicate]
  omega

theorem padZeros_decimal (width n : Nat) :
    padZeros width (decimal n) = (paddedDigits width 10 n).map lowerDigit := by
  simp [padZeros, decimal, paddedDigits, lowerDigit]

theorem padZeros_hexUpper (width n : Nat) :
    padZeros width (hexUpper n) = (paddedDigits width 16 n).map upperDigit := by
  simp [padZeros, hexUpper, paddedDigits, upperDigit]

/-- Different addresses have different labels. -/
theorem label_injective : Function.Injective label := by
  intro m n h
  have hdigits : ∀ k, (label k).tail.map decimalValue? = (paddedDigits 4 10 k).map some := by
    intro k
    rw [label, List.tail_cons, padZeros_decimal, List.map_map]
    refine List.map_congr_left fun d hd => ?_
    exact decimalValue?_lowerDigit (lt_of_mem_paddedDigits (by decide) hd)
  have hsame : paddedDigits 4 10 m = paddedDigits 4 10 n := by
    refine List.map_injective_iff.mpr (fun _ _ => Option.some.inj) ?_
    rw [← hdigits, h, hdigits]
  rw [← valueFrom_paddedDigits 4 10 m, hsame, valueFrom_paddedDigits]

end FiberLex.Numeral

namespace FiberLex.Scan

open Numeral

/-! ## Readers -/

@[simp] theorem char_cons (wanted : Char) (rest : List Char) :
    char wanted (wanted :: rest) = .ok rest := by
  simp [char]

/-- Decimal digits are taken up to the end of the text or the first character that is none. -/
theorem decimal_append {limit : Nat} (issue : SyntaxIssue) (value : Option Nat) {ds : List Nat}
    (rest : List Char) (hds : ∀ d ∈ ds, d < 10) (hrest : rest.head?.bind decimalValue? = none)
    (hlimit : valueFrom 10 (value.getD 0) ds < limit) :
    decimal limit issue value (ds.map lowerDigit ++ rest) =
      .ok (if ds = [] then value else some (valueFrom 10 (value.getD 0) ds), rest) := by
  induction ds generalizing value with
  | nil =>
    cases rest with
    | nil => rfl
    | cons c rest =>
      have hc : decimalValue? c = none := hrest
      simp [decimal, hc]
  | cons d ds ih =>
    obtain ⟨hd, hds⟩ := List.forall_mem_cons.mp hds
    rw [valueFrom_cons] at hlimit
    have hnext : value.getD 0 * 10 + d < limit :=
      Nat.lt_of_le_of_lt (le_valueFrom (by decide) _ ds) hlimit
    rw [List.map_cons, List.cons_append, decimal, decimalValue?_lowerDigit hd]
    simp only [hnext, if_true]
    rw [ih (some (value.getD 0 * 10 + d)) hds hlimit]
    cases ds <;> rfl

/-- A number that does not stay below the limit is too large, whatever follows its digits. -/
theorem issue_decimal (issue : SyntaxIssue) {limit : Nat} {value : Option Nat} {ds : List Nat}
    (rest : List Char) (hds : ∀ d ∈ ds, d < 10) (hvalue : value.getD 0 < limit)
    (hlimit : limit ≤ valueFrom 10 (value.getD 0) ds) :
    (decimal limit issue value (ds.map lowerDigit ++ rest)).mapError Fault.issue = .error issue := by
  induction ds generalizing value with
  | nil => exact absurd hlimit (Nat.not_le.mpr hvalue)
  | cons d ds ih =>
    obtain ⟨hd, hds⟩ := List.forall_mem_cons.mp hds
    rw [List.map_cons, List.cons_append, decimal, decimalValue?_lowerDigit hd]
    by_cases hnext : value.getD 0 * 10 + d < limit
    · simp only [hnext, if_true]
      exact ih hds hnext hlimit
    · simp only [hnext, if_false]
      rfl

/-- As many hexadecimal digits are taken as are wanted, in whatever case they are. -/
theorem hexDigits_of_map {ds : List Nat} {cs : List Char} (h : cs.map hexValue? = ds.map some)
    (rest : List Char) : hexDigits ds.length (cs ++ rest) = (ds, rest) := by
  induction ds generalizing cs with
  | nil =>
    obtain rfl : cs = [] := List.map_eq_nil_iff.mp h
    rfl
  | cons d ds ih =>
    obtain ⟨c, cs, rfl, hc, hcs⟩ := List.map_eq_cons_iff.mp h
    rw [List.cons_append, List.length_cons, hexDigits, hc]
    simp only [ih hcs]

/-- A hexadecimal number of a fixed number of digits is the number that the digits stand for. -/
theorem hex_of_map {ds : List Nat} {cs : List Char} (h : cs.map hexValue? = ds.map some)
    {width : Nat} (hwidth : ds.length = width) (rest : List Char) :
    hex width width (cs ++ rest) = .ok (valueFrom 16 0 ds, rest) := by
  subst hwidth
  rw [hex, hexDigits_of_map h]
  simp only [Nat.lt_irrefl, if_false]
  rfl

/-- A hexadecimal numeral of a fixed number of digits is read back. -/
theorem hex_padZeros {k n : Nat} (rest : List Char) (hn : n < 16 ^ (k + 1)) :
    hex (k + 1) (k + 1) (padZeros (k + 1) (hexUpper n) ++ rest) = .ok (n, rest) := by
  have hlength := length_paddedDigits (by decide : 2 ≤ 16) hn
  have hvalues : ((paddedDigits (k + 1) 16 n).map upperDigit).map hexValue? =
      (paddedDigits (k + 1) 16 n).map some := by
    rw [List.map_map]
    exact List.map_congr_left fun d hd => hexValue?_upperDigit (lt_of_mem_paddedDigits (by decide) hd)
  rw [padZeros_hexUpper, hex_of_map hvalues hlength, valueFrom_paddedDigits]

end FiberLex.Scan
