import BinaryLayout.Json.Number
import BinaryLayout.Text.Quoted

/-!
# JSON tokens

A text is a sequence of tokens with white space between them. The characters of a token and what
they stand for are related here in one direction, `Token.chars`; the other is the scanner's.
-/

namespace BinaryLayout

namespace Json

/-- A text may hold the escape of an unpaired surrogate, and a number may be beyond the largest
double; they are tokens all the same, without a content. Where a text goes wrong stands a fault. -/
inductive Token
  | openBracket
  | closeBracket
  | openBrace
  | closeBrace
  | colon
  | comma
  | null
  | bool (b : Bool)
  | number (n : Option Number)
  | text (s : Option String)
  | fault
  deriving DecidableEq

/-- Quotes, backslashes and controls are escaped, five of the controls by a letter. -/
def escapeChar (c : Char) : List Char :=
  if c = '"' ∨ c = '\\' then ['\\', c]
  else if c = Char.ofNat 8 then ['\\', 'b']
  else if c = Char.ofNat 12 then ['\\', 'f']
  else if c = '\n' then ['\\', 'n']
  else if c = '\r' then ['\\', 'r']
  else if c = '\t' then ['\\', 't']
  else if c.toNat < 32 then '\\' :: 'u' :: Hex.digits 4 c.toNat
  else [c]

namespace Token

def chars : Token → List Char
  | .openBracket => ['[']
  | .closeBracket => [']']
  | .openBrace => ['{']
  | .closeBrace => ['}']
  | .colon => [':']
  | .comma => [',']
  | .null => ['n', 'u', 'l', 'l']
  | .bool true => ['t', 'r', 'u', 'e']
  | .bool false => ['f', 'a', 'l', 's', 'e']
  | .number (some n) => n.chars
  | .number none => ['1', 'e', '4', '0', '0']
  | .text (some s) => '"' :: s.toList.flatMap escapeChar ++ ['"']
  | .text none => ['"', '\\', 'u', 'd', '8', '0', '0', '"']
  | .fault => ['?']

end Token

end Json

end BinaryLayout
