import BinaryLayout.Byte.Word

/-!
# Hexadecimal text

Two lower-case digits a byte, most significant first.
-/

namespace BinaryLayout

namespace Hex

def digit (n : Nat) : Char :=
  if n < 10 then Char.ofNat (48 + n) else Char.ofNat (87 + n)

def digit? (c : Char) : Option Nat :=
  if '0' ≤ c ∧ c ≤ '9' then some (c.toNat - 48)
  else if 'a' ≤ c ∧ c ≤ 'f' then some (c.toNat - 87)
  else if 'A' ≤ c ∧ c ≤ 'F' then some (c.toNat - 55)
  else none

/-- The lowest `width` hexadecimal digits of `n`, most significant first. -/
def digits : Nat → Nat → List Char
  | 0, _ => []
  | width + 1, n => digits width (n / 16) ++ [digit (n % 16)]

/-- The number a run of hexadecimal digits writes. -/
def value? (cs : List Char) : Option Nat :=
  cs.foldlM (fun n c => (digit? c).map (16 * n + ·)) 0

def ofByte (b : UInt8) : List Char := digits 2 b.toNat

def ofBytes (bytes : Bytes) : String := String.ofList (bytes.flatMap ofByte)

/-- Two digits make a byte; an odd rest or another character is refused. -/
def toBytes? : List Char → Option Bytes
  | [] => some []
  | [_] => none
  | h :: l :: rest => do
    let h ← digit? h
    let l ← digit? l
    return UInt8.ofNat (16 * h + l) :: (← toBytes? rest)

end Hex

end BinaryLayout
