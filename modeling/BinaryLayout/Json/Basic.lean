import BinaryLayout.Json.Token
import BinaryLayout.NameMap

/-!
# JSON trees

A tree keeps the members of an object as they are written, repeated keys included, and the leaves
that have no content. `tokens` writes a tree down.
-/

namespace BinaryLayout

inductive Json
  | null
  | bool (b : Bool)
  | number (n : Option Json.Number)
  | text (s : Option String)
  | array (items : List Json)
  | object (members : List (Option String × Json))

namespace Json

def ofText (s : String) : Json := .text (some s)

def ofNat (n : Nat) : Json := .number (some (.natural (UInt64.ofNat n)))

/-- A number if it is finite, else null. -/
def ofFloating {f : Format} (number : Floating f → Number) (x : Floating f) : Json :=
  if x.isFinite then .number (some (number x)) else .null

/-- An object with readable keys. -/
def ofMembers (members : List (String × Json)) : Json :=
  .object (members.map fun m => (some m.1, m.2))

mutual

/-- The tokens of a tree, without white space. -/
def toTokens : Json → List Token
  | .null => [.null]
  | .bool b => [.bool b]
  | .number n => [.number n]
  | .text s => [.text s]
  | .array items => .openBracket :: itemTokens items ++ [.closeBracket]
  | .object members => .openBrace :: memberTokens members ++ [.closeBrace]

def itemTokens : List Json → List Token
  | [] => []
  | [j] => toTokens j
  | j :: js => toTokens j ++ .comma :: itemTokens js

def memberTokens : List (Option String × Json) → List Token
  | [] => []
  | [(k, j)] => .text k :: .colon :: toTokens j
  | (k, j) :: ms => .text k :: .colon :: (toTokens j ++ .comma :: memberTokens ms)

end

def render (j : Json) : String := String.ofList (j.toTokens.flatMap Token.chars)

mutual

/-- How deep arrays and objects are nested. -/
def depth : Json → Nat
  | .array items => depthOfItems items + 1
  | .object members => depthOfMembers members + 1
  | _ => 0

def depthOfItems : List Json → Nat
  | [] => 0
  | j :: js => max (depth j) (depthOfItems js)

def depthOfMembers : List (Option String × Json) → Nat
  | [] => 0
  | (_, j) :: ms => max (depth j) (depthOfMembers ms)

end

/-- Deeper nesting is refused where every part of a text is read. -/
def maxDepth : Nat := 127

mutual

/-- Whether every leaf and every key has a content. -/
def isReadable : Json → Bool
  | .number n => n.isSome
  | .text s => s.isSome
  | .array items => areReadable items
  | .object members => haveReadable members
  | _ => true

def areReadable : List Json → Bool
  | [] => true
  | j :: js => isReadable j && areReadable js

def haveReadable : List (Option String × Json) → Bool
  | [] => true
  | (k, j) :: ms => k.isSome && isReadable j && haveReadable ms

end

/-- The members of an object whose keys all have a content. -/
def members? : Json → Option (List (String × Json))
  | .object members => members.mapM fun m => m.1.map (·, m.2)
  | _ => none

mutual

/-- Merges the members of every object that have one key: the first place, the last value. -/
def merged : Json → Json
  | .array items => .array (mergedItems items)
  | .object members => .object (mergedMembers members [])
  | j => j

def mergedItems : List Json → List Json
  | [] => []
  | j :: js => merged j :: mergedItems js

def mergedMembers : List (Option String × Json) → List (String × Json) →
    List (Option String × Json)
  | [], done => done.map fun m => (some m.1, m.2)
  | (k, j) :: ms, done => mergedMembers ms (Entries.put (k.getD "") (merged j) done)

end

end Json

end BinaryLayout
