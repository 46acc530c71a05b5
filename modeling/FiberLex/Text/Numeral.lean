/-!
# Numerals

Decimal and hexadecimal numerals, written without leading zeros or padded to a least width, and the
value of a single digit. The digits of a number are computed by repeated division, so the last digit
is the remainder and the digits before it are those of the quotient.
-/

namespace FiberLex.Numeral

/-- The digits of `n` in base `base`, most significant first; zero has one digit. -/
def digits (base n : Nat) : List Nat :=
  if _ : n < base ∨ base < 2 then [n] else digits base (n / base) ++ [n % base]
termination_by n
decreasing_by
  have : 2 ≤ base := by omega
  exact Nat.div_lt_self (by omega) this

/-- The character of a digit below sixteen, with lower-case letters from ten on. -/
def lowerDigit (d : Nat) : Char :=
  if d < 10 then Char.ofNat ('0'.toNat + d) else Char.ofNat ('a'.toNat + (d - 10))

/-- The character of a digit below sixteen, with upper-case letters from ten on. -/
def upperDigit (d : Nat) : Char :=
  if d < 10 then Char.ofNat ('0'.toNat + d) else Char.ofNat ('A'.toNat + (d - 10))

/-- The value of a decimal digit. -/
def decimalValue? (c : Char) : Option Nat :=
  if '0' ≤ c ∧ c ≤ '9' then some (c.toNat - '0'.toNat) else none

/-- The value of a hexadecimal digit, in either case. -/
def hexValue? (c : Char) : Option Nat :=
  if '0' ≤ c ∧ c ≤ '9' then some (c.toNat - '0'.toNat)
  else if 'a' ≤ c ∧ c ≤ 'f' then some (c.toNat - 'a'.toNat + 10)
  else if 'A' ≤ c ∧ c ≤ 'F' then some (c.toNat - 'A'.toNat + 10)
  else none

/-- `cs` with as many zeros in front as it takes to reach `width` characters. -/
def padZeros (width : Nat) (cs : List Char) : List Char :=
  List.replicate (width - cs.length) '0' ++ cs

/-- The decimal numeral of a natural number. -/
def decimal (n : Nat) : List Char := (digits 10 n).map lowerDigit

/-- The decimal numeral of an integer, with a minus sign in front of a negative one. -/
def decimalInt (i : Int) : List Char :=
  if i < 0 then '-' :: decimal i.natAbs else decimal i.natAbs

/-- The hexadecimal numeral of a natural number, in lower case. -/
def hex (n : Nat) : List Char := (digits 16 n).map lowerDigit

/-- The hexadecimal numeral of a natural number, in upper case. -/
def hexUpper (n : Nat) : List Char := (digits 16 n).map upperDigit

/-- The lower-case hexadecimal numeral with the mark `0x` in front. -/
def hex0x (n : Nat) : String := "0x" ++ String.ofList (hex n)

/-- The label of an address: `L` and the address in at least four digits. -/
def label (address : Nat) : List Char := 'L' :: padZeros 4 (decimal address)

end FiberLex.Numeral
