import Mathlib.Data.Int.Order.Basic
import Teleproxy.ProxyProtocol
import Teleproxy.Lib.Numeral

/-!
# Numbers in decimal text

The C library reads a number from the start of a text: space, a sign and digits.
`strtol` stays within a `long`; `strtoul` takes a minus sign, and returns the
largest `unsigned long` only when the digits are too large.
-/
namespace Teleproxy.DecimalNumber
open ClientInput ProxyProtocol

/-- `isspace` of the C locale. -/
def isspace (b : UInt8) : Bool := b = 32 || (9 ≤ b && b ≤ 13)

theorem isspace_of_isDigit (b : UInt8) (h : isDigit b) : isspace b = false := by
  simp only [isDigit,Bool.and_eq_true,decide_eq_true_eq,UInt8.le_iff_toNat_le] at h
  simp only [isspace,Bool.or_eq_false_iff,Bool.and_eq_false_iff,decide_eq_false_iff_not,
    UInt8.le_iff_toNat_le,← UInt8.toNat_inj]
  simp at *
  omega

/-- The characters of numbers of base 10. -/
def decimal : Numeral.Alphabet UInt8 where
  blank := isspace
  digit := isDigit
  plus := 43
  minus := 45
  blank_plus := by decide
  blank_minus := by decide
  blank_digit := isspace_of_isDigit
  digit_plus := by decide
  digit_minus := by decide

def numeralValue (sign : Option UInt8) (digits : Bytes) : ℤ :=
  if sign = some 45 then -(digitsValue digits : ℤ) else digitsValue digits

/-- `strtol` with base 10: the number, as large as a `long` can be, and the text
at `endptr`, which is the whole text when there is no digit. -/
def strtol (s : Bytes) : ℤ × Bytes :=
  let (sign,digits,rest) := decimal.lex s
  if digits = [] then (0,s)
  else (max (-2^63) (min (numeralValue sign digits) (2^63-1)),rest)

/-- The number that `strtoul` makes of a numeral. Past the largest `unsigned long`
it is that one, and a minus sign negates modulo 2^64. -/
def unsignedValue (sign : Option UInt8) (digits : Bytes) : ℕ :=
  if 2^64 ≤ digitsValue digits then 2^64-1
  else if sign = some 45 then (2^64-digitsValue digits)%2^64
  else digitsValue digits

/-- `strtoul` with base 10: the number and the text at `endptr`. -/
def strtoul (s : Bytes) : ℕ × Bytes :=
  let (sign,digits,rest) := decimal.lex s
  if digits = [] then (0,s) else (unsignedValue sign digits,rest)

end Teleproxy.DecimalNumber
