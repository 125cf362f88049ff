import BinaryLayout.Byte.Hex
import BinaryLayout.Text.Hidden

/-!
# Quoted text

Text between double quotes as messages show it: the quote and the backslash are escaped, four
controls have a letter, and the other hidden characters are written by code point.
-/

namespace BinaryLayout

namespace Text

/-- The hexadecimal digits of `n` without leading zeros. -/
def hexDigits (n : Nat) : List Char :=
  if n < 16 then [Hex.digit n] else hexDigits (n / 16) ++ [Hex.digit (n % 16)]
termination_by n

def quoteChar (c : Char) : List Char :=
  if c = '"' ∨ c = '\\' then ['\\', c]
  else if c = '\n' then ['\\', 'n']
  else if c = '\r' then ['\\', 'r']
  else if c = '\t' then ['\\', 't']
  else if c = Char.ofNat 0 then ['\\', '0']
  else if isHidden c then ['\\', 'u', '{'] ++ hexDigits c.toNat ++ ['}']
  else [c]

def quote (s : String) : String :=
  String.ofList ('"' :: s.toList.flatMap quoteChar ++ ['"'])

end Text

end BinaryLayout
