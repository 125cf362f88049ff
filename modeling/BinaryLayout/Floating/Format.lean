import BinaryLayout.Power

/-!
# Binary floating-point formats

A format of `fractionBits` stored significand bits and `exponentBits` exponent bits. Without the
sign, a number is its code, exponent field above fraction field, and codes are ordered as the
numbers are. Every finite number is a whole multiple, `steps`, of the least positive one, and
`1` is `unit` of them, so all arithmetic here is on natural numbers.

`round` gives the code nearest to a quotient, with ties to the even code, which is the even
significand; what lies half a step above the largest number goes to infinity.
-/

namespace BinaryLayout

structure Format where
  fractionBits : Nat
  exponentBits : Nat
  deriving DecidableEq

namespace Format

@[reducible] def binary64 : Format := ⟨52, 11⟩

@[reducible] def binary32 : Format := ⟨23, 8⟩

/-- The bits below the sign. -/
def width (f : Format) : Nat := f.fractionBits + f.exponentBits

/-- The code of infinity; those above it are not numbers. -/
def infinity (f : Format) : Nat := (2 ^ f.exponentBits - 1) * 2 ^ f.fractionBits

/-- The fraction bit that a quiet NaN has set. -/
def quietBit (f : Format) : Nat := 2 ^ (f.fractionBits - 1)

/-- How many times the least positive number fits into the number with this code. -/
def steps (f : Format) (code : Nat) : Nat :=
  let exponent := code / 2 ^ f.fractionBits
  let fraction := code % 2 ^ f.fractionBits
  if exponent = 0 then fraction else (2 ^ f.fractionBits + fraction) * 2 ^ (exponent - 1)

/-- How many times the least positive number fits into one. -/
def unit (f : Format) : Nat := 2 ^ (2 ^ (f.exponentBits - 1) - 2 + f.fractionBits)

/-- The natural number nearest to `num / den`, of two the even one. -/
def nearest (num den : Nat) : Nat :=
  let low := num / den
  let rest := num % den
  if 2 * rest < den then low
  else if den < 2 * rest then low + 1
  else low + low % 2

/-- The code of the number nearest to `num / den`. -/
def round (f : Format) (num den : Nat) : Nat :=
  let steps := num * f.unit
  let octave := Nat.log2 (steps / den) - f.fractionBits
  min (octave * 2 ^ f.fractionBits + nearest steps (den * 2 ^ octave)) f.infinity

end Format

end BinaryLayout
