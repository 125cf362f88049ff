import BinaryLayout.Floating.Shortest

/-!
# Floating-point numbers as text

Two ways to lay out the fewest digits: always positional, for people, and positional in a middle
range of magnitudes with an exponent outside it, for data. Each has its own rule for ties.
-/

namespace BinaryLayout

namespace Decimal

/-- The digits with a point before the last `-exponent` of them, without a point if none follows. -/
def positional (d : Scaled) : List Char :=
  let ds := digits d.significand
  if 0 ≤ d.exponent then
    if d.significand = 0 then ds else ds ++ List.replicate d.exponent.toNat '0'
  else
    let places := (-d.exponent).toNat
    if places < ds.length then ds.take (ds.length - places) ++ '.' :: ds.drop (ds.length - places)
    else '0' :: '.' :: List.replicate (places - ds.length) '0' ++ ds

/-- One digit before the point, and the exponent with its sign. -/
def scientific (d : Scaled) : List Char :=
  let ds := digits d.significand
  let exponent : Int := d.exponent + ds.length - 1
  let fraction := if ds.length = 1 then [] else '.' :: ds.drop 1
  let sign := if exponent < 0 then '-' else '+'
  ds.take 1 ++ fraction ++ 'e' :: sign :: digits exponent.natAbs

end Decimal

/-- The exponents of the leading digit for which a number is written without an exponent. -/
structure PlainRange where
  least : Int
  most : Int

namespace PlainRange

def double : PlainRange := ⟨-5, 15⟩

def single : PlainRange := ⟨-6, 12⟩

end PlainRange

namespace Floating

variable {f : Format}

def sign (x : Floating f) : List Char := if x.negative then ['-'] else []

/-- For people: every digit up to the units, no exponent, no point without a fraction. -/
def display (x : Floating f) : String :=
  if x.isNaN then "NaN"
  else if x.isInfinite then String.ofList (x.sign ++ ['i', 'n', 'f'])
  else String.ofList (x.sign ++ Decimal.positional (x.shortest .up))

/-- For data: a point or an exponent marks the number as a fraction. -/
def literal (plain : PlainRange) (x : Floating f) : List Char :=
  let d := x.shortest .even
  let leading : Int := d.exponent + (Decimal.digits d.significand).length - 1
  let text :=
    if plain.least ≤ leading ∧ leading ≤ plain.most then
      let ds := Decimal.positional d
      if 0 ≤ d.exponent then ds ++ ['.', '0'] else ds
    else Decimal.scientific d
  x.sign ++ text

end Floating

end BinaryLayout
