import BinaryLayout.Floating.Basic
import BinaryLayout.Text.Decimal

/-!
# The fewest digits that read back

A finite number other than zero stands for the interval of reals that round to it, whose ends
belong to it when its code is even. Among the decimals in the interval those with the fewest
digits are taken, of them the nearest to the number, and a tie between two is for the caller.

On the grid of a decimal place only the two neighbours of the number have to be tried: if any point
of the grid is in the interval, one of them is.
-/

namespace BinaryLayout

/-- The number `significand * 10 ^ exponent`. -/
structure Decimal.Scaled where
  significand : Nat
  exponent : Int
  deriving DecidableEq, Repr

/-- Which of two equally near decimals is taken. -/
inductive Decimal.Tie
  | even
  | up
  deriving DecidableEq

namespace Decimal

/-- The exponent of the leading decimal digit of `num / den`. -/
def leading (num den : Nat) : Int :=
  if den ≤ num then ((digits (num / den)).length : Int) - 1
  else -((digits ((den - 1) / num)).length : Int)

/-- Moves factors of ten from the significand into the exponent. -/
def Scaled.reduced (d : Scaled) : Scaled :=
  if h : d.significand ≠ 0 ∧ d.significand % 10 = 0 then
    Scaled.reduced ⟨d.significand / 10, d.exponent + 1⟩
  else d
termination_by d.significand
decreasing_by omega

end Decimal

namespace Floating

variable {f : Format}

/-- Whether `c * a / b` rounds to the number with this code. -/
def readsBack (f : Format) (code c a b : Nat) : Bool :=
  let point := 2 * f.unit * (c * a)
  let low := (f.steps (code - 1) + f.steps code) * b
  let high := (f.steps code + f.steps (code + 1)) * b
  if code % 2 = 0 then low ≤ point && point ≤ high else low < point && point < high

/-- The decimal on the grid of `10 ^ place` next to the number that reads back as it, if any. -/
def onGrid? (f : Format) (tie : Decimal.Tie) (code : Nat) (place : Int) : Option Decimal.Scaled :=
  let a := 10 ^ place.toNat
  let b := 10 ^ (-place).toNat
  let num := f.steps code * b
  let den := f.unit * a
  let low := num / den
  let middle := (2 * low + 1) * den
  match readsBack f code low a b, readsBack f code (low + 1) a b with
  | false, false => none
  | true, false => some ⟨low, place⟩
  | false, true => some ⟨low + 1, place⟩
  | true, true =>
    if 2 * num < middle then some ⟨low, place⟩
    else if middle < 2 * num then some ⟨low + 1, place⟩
    else match tie with
      | .even => some ⟨low + low % 2, place⟩
      | .up => some ⟨low + 1, place⟩

/-- Seventeen digits always read back. -/
def maxDigits : Nat := 17

/-- The fewest digits of a finite number; zero is itself. -/
def shortest (tie : Decimal.Tie) (x : Floating f) : Decimal.Scaled :=
  let top := Decimal.leading (f.steps x.code) f.unit
  let found := (List.range maxDigits).findSome? fun (n : Nat) =>
    onGrid? f tie x.code (top - n)
  if x.isZero then ⟨0, 0⟩ else (found.getD ⟨0, 0⟩).reduced

end Floating

end BinaryLayout
