import BinaryLayout.Descriptor.Basic
import BinaryLayout.Tag.Name

/-!
# Descriptor texts

A descriptor text is an identifier, then a repeat count in brackets and a byte order behind a bar,
in either order, with white space between the parts. Reading is lenient: whatever follows the
parts that were recognised is ignored, a count that is no number from 1 to `2 ^ 32 - 1` reads as 1,
and unknown letters behind the bar read as no order. Only an unknown tag is refused.
-/

namespace BinaryLayout

namespace Descriptor

/-- What a descriptor text says before its tag is looked up. -/
structure Parts where
  tag : List Char
  count : UInt32
  order : Option ByteOrder
  deriving DecidableEq

def isNameStart (c : Char) : Bool := c.isAlpha || c == '_'

def isNameChar (c : Char) : Bool := c.isAlphanum || c == '_'

/-- The identifier in front and what follows it. -/
def takeName? : List Char → Option (List Char × List Char)
  | [] => none
  | c :: cs =>
    if isNameStart c then some (c :: cs.takeWhile isNameChar, cs.dropWhile isNameChar) else none

/-- The text in brackets in front and what follows it; an unclosed bracket is none. -/
def takeBracket? : List Char → Option (List Char × List Char)
  | '[' :: cs =>
    match cs.dropWhile (· != ']') with
    | [] => none
    | _ :: rest => some (cs.takeWhile (· != ']'), rest)
  | _ => none

/-- The letters behind a bar in front and what follows them. -/
def takeModifier? : List Char → Option (List Char × List Char)
  | '|' :: cs =>
    let cs := Text.trimLeft cs
    some (cs.takeWhile Char.isAlpha, cs.dropWhile Char.isAlpha)
  | _ => none

/-- An optional part behind white space. -/
def optional (part? : List Char → Option (List Char × List Char)) (cs : List Char) :
    Option (List Char) × List Char :=
  let cs := Text.trimLeft cs
  match part? cs with
  | some (found, rest) => (some found, rest)
  | none => (none, cs)

/-- Digits behind an optional plus sign. -/
def unsigned? : List Char → Option Nat
  | '+' :: cs => Decimal.toNat? cs
  | cs => Decimal.toNat? cs

/-- The count written in brackets, or 1 where none is written. -/
def countOf (cs : List Char) : UInt32 :=
  match unsigned? (Text.trim cs) with
  | some n => if 1 ≤ n ∧ n < 2 ^ 32 then UInt32.ofNat n else 1
  | none => 1

/-- The parts of a text; without an identifier the whole text stands for the tag. -/
def split (cs : List Char) : Parts :=
  match takeName? (Text.trimLeft cs) with
  | none => ⟨Text.trim cs, 1, none⟩
  | some (tag, rest) =>
    let (first, rest) := optional takeBracket? rest
    let (letters, rest) := optional takeModifier? rest
    let (second, _) := optional takeBracket? rest
    ⟨tag, ((first.or second).map countOf).getD 1, letters.bind ByteOrder.ofModifier?⟩

/-- Reads a descriptor text; the only error is an unknown tag. It stays folded where the readers of
layouts are unfolded: looking into it compares the names of all tags. -/
@[irreducible]
def parse (text : String) : Except CodecError Descriptor :=
  let parts := split text.toList
  (Tag.resolve (String.ofList parts.tag)).map fun tag => ⟨tag, parts.count, parts.order⟩

theorem parse_eq (text : String) : parse text
    = (Tag.resolve (String.ofList (split text.toList).tag)).map fun tag =>
      ⟨tag, (split text.toList).count, (split text.toList).order⟩ := by
  delta parse
  rfl

end Descriptor

end BinaryLayout
