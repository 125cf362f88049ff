import BinaryLayout.Json.Token

/-!
# Scanning JSON texts

`tokens` cuts a text into its tokens. Each takes at least one character, so the scan ends; where no
token begins, a fault stands for the rest of the text.
-/

namespace BinaryLayout

namespace Json

def isSpace (c : Char) : Bool := c == ' ' || c == '\n' || c == '\t' || c == '\r'

/-- The code point a one-letter escape stands for. -/
def escaped? : Char → Option Nat
  | '"' => some 34
  | '\\' => some 92
  | '/' => some 47
  | 'b' => some 8
  | 'f' => some 12
  | 'n' => some 10
  | 'r' => some 13
  | 't' => some 9
  | _ => none

/-- The code units of a text up to its closing quote, and what follows it. A control character, an
unknown escape and a missing quote are faults. -/
def takeUnits? : List Char → Option (List Nat × List Char)
  | [] => none
  | '"' :: rest => some ([], rest)
  | '\\' :: 'u' :: a :: b :: c :: d :: rest =>
    match Hex.value? [a, b, c, d], takeUnits? rest with
    | some u, some (us, rest) => some (u :: us, rest)
    | _, _ => none
  | ['\\'] => none
  | '\\' :: c :: rest =>
    match escaped? c, takeUnits? rest with
    | some u, some (us, rest) => some (u :: us, rest)
    | _, _ => none
  | c :: rest =>
    if c.toNat < 32 then none
    else match takeUnits? rest with
      | some (us, rest) => some (c.toNat :: us, rest)
      | none => none

def isHigh (u : Nat) : Bool := 0xD800 ≤ u && u < 0xDC00

def isLow (u : Nat) : Bool := 0xDC00 ≤ u && u < 0xE000

/-- Joins pairs of surrogates; none where one stands alone. -/
def joinUnits : List Nat → Option (List Char)
  | [] => some []
  | [u] => if isHigh u || isLow u then none else some [Char.ofNat u]
  | u :: l :: rest =>
    if isHigh u then
      if isLow l then
        (joinUnits rest).map (Char.ofNat (0x10000 + 0x400 * (u - 0xD800) + (l - 0xDC00)) :: ·)
      else none
    else if isLow u then none
    else (joinUnits (l :: rest)).map (Char.ofNat u :: ·)

/-- One or more digits in front. -/
def takeDigits? (cs : List Char) : Option (List Char × List Char) :=
  match cs.takeWhile Char.isDigit with
  | [] => none
  | ds => some (ds, cs.dropWhile Char.isDigit)

/-- The digits before the point: a zero stands alone. -/
def takeWhole? (cs : List Char) : Option (List Char × List Char) :=
  match takeDigits? cs with
  | some ('0' :: _ :: _, _) => none
  | found => found

def takeFraction? : List Char → Option (Option (List Char) × List Char)
  | '.' :: cs => (takeDigits? cs).map fun (ds, rest) => (some ds, rest)
  | cs => some (none, cs)

/-- The sign of an exponent, if one is written. -/
def takeSign : List Char → Bool × List Char
  | '+' :: cs => (false, cs)
  | '-' :: cs => (true, cs)
  | cs => (false, cs)

def takeExponent? : List Char → Option (Option (Bool × List Char) × List Char)
  | 'e' :: cs | 'E' :: cs =>
    let (down, cs) := takeSign cs
    (takeDigits? cs).map fun (ds, rest) => (some (down, ds), rest)
  | cs => some (none, cs)

def takeMinus : List Char → Bool × List Char
  | '-' :: cs => (true, cs)
  | cs => (false, cs)

/-- The parts of a number in front and what follows it. -/
def takeNumber? (cs : List Char) : Option (NumberParts × List Char) := do
  let (negative, cs) := takeMinus cs
  let (whole, cs) ← takeWhole? cs
  let (fraction, cs) ← takeFraction? cs
  let (exponent, cs) ← takeExponent? cs
  return (⟨negative, whole, fraction, exponent⟩, cs)

/-- The token in front and what follows it. -/
def takeToken? : List Char → Option (Token × List Char)
  | '[' :: rest => some (.openBracket, rest)
  | ']' :: rest => some (.closeBracket, rest)
  | '{' :: rest => some (.openBrace, rest)
  | '}' :: rest => some (.closeBrace, rest)
  | ':' :: rest => some (.colon, rest)
  | ',' :: rest => some (.comma, rest)
  | 'n' :: 'u' :: 'l' :: 'l' :: rest => some (.null, rest)
  | 't' :: 'r' :: 'u' :: 'e' :: rest => some (.bool true, rest)
  | 'f' :: 'a' :: 'l' :: 's' :: 'e' :: rest => some (.bool false, rest)
  | '"' :: rest =>
    (takeUnits? rest).map fun (us, rest) => (.text ((joinUnits us).map String.ofList), rest)
  | cs => (takeNumber? cs).map fun (p, rest) => (.number p.toNumber?, rest)

theorem length_takeUnits? {cs rest : List Char} {us : List Nat}
    (h : takeUnits? cs = some (us, rest)) : rest.length < cs.length := by
  fun_induction takeUnits? cs generalizing us rest with
  | case1 | case4 | case5 | case7 | case8 | case10 => cases h
  | case2 =>
    cases h
    simp
  | case3 _ _ _ _ _ _ _ _ hr _ ih =>
    cases h
    have := ih hr
    simp only [List.length_cons]
    omega
  | case6 _ _ _ _ _ _ hr _ ih =>
    cases h
    have := ih hr
    simp only [List.length_cons]
    omega
  | case9 =>
    rename_i hr ih
    cases h
    have := ih hr
    simp only [List.length_cons]
    omega

theorem length_takeDigits? {cs ds rest : List Char} (h : takeDigits? cs = some (ds, rest)) :
    rest.length < cs.length := by
  unfold takeDigits? at h
  split at h
  · cases h
  · rename_i hne
    cases h
    have := congrArg List.length (List.takeWhile_append_dropWhile (p := Char.isDigit) (l := cs))
    have : 0 < (cs.takeWhile Char.isDigit).length := List.length_pos_iff.2 hne
    simp only [List.length_append] at *
    omega

theorem length_takeWhole? {cs ds rest : List Char} (h : takeWhole? cs = some (ds, rest)) :
    rest.length < cs.length := by
  unfold takeWhole? at h
  split at h
  · cases h
  · exact length_takeDigits? h

theorem length_takeFraction? {cs rest : List Char} {ds : Option (List Char)}
    (h : takeFraction? cs = some (ds, rest)) : rest.length ≤ cs.length := by
  unfold takeFraction? at h
  split at h
  · obtain ⟨⟨ds, r⟩, hd, he⟩ := Option.map_eq_some_iff.1 h
    cases he
    have := length_takeDigits? hd
    simp only [List.length_cons]
    omega
  · cases h
    exact Nat.le_refl _

theorem length_takeSign (cs : List Char) : (takeSign cs).2.length ≤ cs.length := by
  unfold takeSign
  split <;> simp

theorem length_takeExponent? {cs rest : List Char} {ds : Option (Bool × List Char)}
    (h : takeExponent? cs = some (ds, rest)) : rest.length ≤ cs.length := by
  unfold takeExponent? at h
  split at h
  case h_3 =>
    cases h
    exact Nat.le_refl _
  all_goals
    rename_i cs
    obtain ⟨⟨ds, r⟩, hd, he⟩ := Option.map_eq_some_iff.1 h
    cases he
    exact Nat.le_of_lt (Nat.lt_of_lt_of_le (length_takeDigits? hd)
      (Nat.le_trans (length_takeSign cs) (Nat.le_succ _)))

theorem length_takeMinus (cs : List Char) : (takeMinus cs).2.length ≤ cs.length := by
  unfold takeMinus
  split <;> simp

theorem length_takeNumber? {cs rest : List Char} {p : NumberParts}
    (h : takeNumber? cs = some (p, rest)) : rest.length < cs.length := by
  simp only [takeNumber?, Option.bind_eq_bind, Option.bind_eq_some_iff, Prod.exists] at h
  obtain ⟨whole, r, hw, fraction, r', hf, exponent, r'', he, h⟩ := h
  cases h
  have := length_takeMinus cs
  have := length_takeWhole? hw
  have := length_takeFraction? hf
  have := length_takeExponent? he
  omega

theorem length_takeToken? {cs rest : List Char} {t : Token}
    (h : takeToken? cs = some (t, rest)) : rest.length < cs.length := by
  unfold takeToken? at h
  split at h
  case h_10 =>
    obtain ⟨⟨us, r⟩, hu, he⟩ := Option.map_eq_some_iff.1 h
    cases he
    have := length_takeUnits? hu
    simp only [List.length_cons]
    omega
  case h_11 =>
    obtain ⟨⟨p, r⟩, hn, he⟩ := Option.map_eq_some_iff.1 h
    cases he
    exact length_takeNumber? hn
  all_goals
    cases h
    simp only [List.length_cons]
    omega

/-- The tokens of a text. -/
def tokens (cs : List Char) : List Token :=
  match cs with
  | [] => []
  | c :: cs =>
    if isSpace c then tokens cs
    else match _h : takeToken? (c :: cs) with
      | none => [.fault]
      | some (t, rest) => t :: tokens rest
termination_by cs.length
decreasing_by
  · simp
  · exact length_takeToken? ‹_›

end Json

end BinaryLayout
