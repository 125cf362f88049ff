import BinaryLayout.Counters.Basic

/-!
# Stored counters

Counters are stored one behind the other, each in one byte up to 250, else behind a marker in two,
four or eight bytes, least significant first. The shortest form is written and any is read; bytes
behind the last counter are left alone.
-/

namespace BinaryLayout

namespace Counters

def storedWord (n : Nat) : Bytes :=
  if n < 251 then [UInt8.ofNat n]
  else if n < 2 ^ 16 then 251 :: Bytes.digits 2 n
  else if n < 2 ^ 32 then 252 :: Bytes.digits 4 n
  else 253 :: Bytes.digits 8 n

/-- The bytes that follow a marker. -/
def markedWidth? (marker : UInt8) : Option Nat :=
  if marker = 251 then some 2
  else if marker = 252 then some 4
  else if marker = 253 then some 8
  else none

/-- The number in front and what follows it. -/
def takeWord? : Bytes → Option (Nat × Bytes)
  | [] => none
  | b :: bs =>
    if b < 251 then some (b.toNat, bs)
    else (markedWidth? b).bind fun width =>
      if bs.length < width then none else some (Bytes.value (bs.take width), bs.drop width)

/-- A stored number is read back, whatever follows it. -/
theorem takeWord?_storedWord {n : Nat} (h : n < 2 ^ 64) (rest : Bytes) :
    takeWord? (storedWord n ++ rest) = some (n, rest) := by
  have marked {marker : UInt8} {width : Nat} (hm : ¬marker < 251)
      (hw : markedWidth? marker = some width) (hn : n < 256 ^ width) :
      takeWord? (marker :: Bytes.digits width n ++ rest) = some (n, rest) := by
    have hl := Bytes.length_digits width n
    rw [List.cons_append, takeWord?, if_neg hm, hw, Option.bind_some, if_neg (by simp)]
    rw [List.take_append_of_le_length (by omega), List.take_of_length_le (by omega),
      List.drop_append_of_le_length (by omega), List.drop_of_length_le (by omega),
      Bytes.value_digits, Nat.mod_eq_of_lt hn, List.nil_append]
  unfold storedWord
  split
  · rename_i hn
    have hb : (UInt8.ofNat n).toNat = n := by
      rw [UInt8.toNat_ofNat', Nat.mod_eq_of_lt (by omega)]
    rw [List.singleton_append, takeWord?, if_pos (UInt8.lt_iff_toNat_lt.2 (by rw [hb]; exact hn)),
      hb]
  · split
    · exact marked (by decide) rfl (by omega)
    · split
      · exact marked (by decide) rfl (by omega)
      · exact marked (by decide) rfl (by omega)

/-- The first `count` numbers. -/
def takeWords? : Nat → Bytes → Option (List Nat)
  | 0, _ => some []
  | count + 1, bytes =>
    (takeWord? bytes).bind fun (n, rest) => (takeWords? count rest).map (n :: ·)

def toBytes (c : Counters) : Bytes := c.toList.flatMap storedWord

def ofBytes (bytes : Bytes) : Except CodecError Counters :=
  match (takeWords? 9 bytes).bind ofList? with
  | some c => .ok c
  | none => .error (.telemetry none)

end Counters

end BinaryLayout
