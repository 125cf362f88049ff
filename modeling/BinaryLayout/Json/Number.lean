import BinaryLayout.Floating.Text

/-!
# Numbers in JSON

A number text is a sign, digits, and possibly a fraction and an exponent. Without the last two it is
an integer if 64 bits hold it. Any other number becomes a double in two steps: as many leading
digits as 64 bits hold are taken as its significand, and that is multiplied or divided by a power of
ten in double arithmetic. The result can be off by a rounding or two; a number beyond the largest
double is refused.
-/

namespace BinaryLayout

namespace Json

/-- A number that is read is an integer or a double; singles are only written. -/
inductive Number
  | natural (n : UInt64)
  | negative (n : Int64)
  | double (x : Double)
  | single (x : Single)
  deriving DecidableEq

namespace Number

/-- An integer of either sign. -/
def ofInt64 (n : Int64) : Number :=
  if 0 ≤ n.toInt then .natural n.toUInt64 else .negative n

def chars : Number → List Char
  | .natural n => Decimal.digits n.toNat
  | .negative n => '-' :: Decimal.digits n.toInt.natAbs
  | .double x => x.literal .double
  | .single x => x.literal .single

def toDouble : Number → Double
  | .natural n => .ofNat n.toNat
  | .negative n => .ofInt n.toInt
  | .double x => x
  | .single x => x.convert

end Number

/-- The parts of a number text; the exponent comes with its sign. -/
structure NumberParts where
  negative : Bool
  whole : List Char
  fraction : Option (List Char)
  exponent : Option (Bool × List Char)
  deriving DecidableEq

namespace NumberParts

/-- Takes leading digits into a significand as long as it stays below `2 ^ 64`; gives the
significand and the number of digits taken. -/
def absorb (significand taken : Nat) : List Char → Nat × Nat
  | [] => (significand, taken)
  | c :: cs =>
    let next := 10 * significand + (c.toNat - 48)
    if next < 2 ^ 64 then absorb next (taken + 1) cs else (significand, taken)

/-- `x * 10 ^ exponent` in double arithmetic, by steps of `10 ^ 308` at most; none beyond the
largest double. -/
def scale (x : Double) (exponent : Int) : Option Double :=
  if 0 ≤ exponent ∧ exponent ≤ 308 then
    let y := x.mul (.ofNat (10 ^ exponent.toNat))
    if y.isInfinite then none else some y
  else if -308 ≤ exponent ∧ exponent < 0 then some (x.div (.ofNat (10 ^ exponent.natAbs)))
  else if x.isZero then some x
  else if 0 ≤ exponent then none
  else scale (x.div (.ofNat (10 ^ 308))) (exponent + 308)
termination_by exponent.natAbs
decreasing_by omega

/-- The number a text stands for; none beyond the largest double. -/
def toNumber? (p : NumberParts) : Option Number :=
  let (significand, taken) := absorb 0 0 p.whole
  let dropped := p.whole.length - taken
  if p.fraction = none ∧ p.exponent = none ∧ dropped = 0 then
    if !p.negative then some (.natural (UInt64.ofNat significand))
    else if 0 < significand ∧ significand ≤ 2 ^ 63 then
      some (.negative (Int64.ofInt (-significand)))
    else some (.double (Floating.ofNat significand).neg)
  else
    let (significand, places) := absorb significand 0 (p.fraction.getD [])
    let written : Int := match p.exponent with
      | none => 0
      | some (down, ds) => if down then -(Decimal.value ds : Int) else Decimal.value ds
    let exponent := (dropped : Int) - places + written
    (scale (.ofNat significand) exponent).map fun x => .double (if p.negative then x.neg else x)

end NumberParts

end Json

end BinaryLayout
