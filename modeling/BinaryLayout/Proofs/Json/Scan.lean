import BinaryLayout.Json.Parse
import BinaryLayout.Proofs.Text.Run
import Mathlib.Tactic.SplitIfs

/-!
# Scanning what was written

Text is scanned as it was escaped (`takeUnits?_escape`), an integer as it was printed unless what
follows it goes on with the number (`takeToken?_number`). So a tree of texts and integers is
scanned into its own tokens (`scanned_toTokens`), for behind each of its numbers stands a bracket, a
comma or nothing, and reading its text gives the tree back (`ofStringStrict?_render`).
-/

namespace BinaryLayout

namespace Hex

theorem digit?_digit {n : Nat} (h : n < 16) : digit? (digit n) = some n := by
  have hd : ∀ n : Fin 16, digit? (digit n) = some n.val := by decide
  exact hd ⟨n, h⟩

theorem value?_digits : ∀ {width n : Nat}, n < 16 ^ width → value? (digits width n) = some n
  | 0, n, h => by
    obtain rfl : n = 0 := by simpa using h
    rfl
  | width + 1, n, h => by
    rw [Nat.pow_succ] at h
    have ih : (digits width (n / 16)).foldlM (fun n c => (digit? c).map (16 * n + ·)) 0
        = some (n / 16) := value?_digits (by omega)
    have hd := digit?_digit (Nat.mod_lt n (show 0 < 16 by decide))
    rw [digits, value?, List.foldlM_append, ih]
    simp only [Option.bind_eq_bind, Option.bind_some, List.foldlM_cons, List.foldlM_nil, hd,
      Option.map_some]
    exact congrArg some (by omega)

end Hex

namespace Json

/-! ## Texts -/

theorem takeUnits?_escapeChar (c : Char) {cs rest : List Char} {us : List Nat}
    (h : takeUnits? cs = some (us, rest)) :
    takeUnits? (escapeChar c ++ cs) = some (c.toNat :: us, rest) := by
  unfold escapeChar
  split_ifs with h1 h2 h3 h4 h5 h6 h7
  · rcases h1 with rfl | rfl <;> simp [takeUnits?, escaped?, h]
  · subst h2
    simp [takeUnits?, escaped?, h]
  · subst h3
    simp [takeUnits?, escaped?, h]
  · subst h4
    simp [takeUnits?, escaped?, h]
  · subst h5
    simp [takeUnits?, escaped?, h]
  · subst h6
    simp [takeUnits?, escaped?, h]
  · have hv := Hex.value?_digits (show c.toNat < 16 ^ 4 by omega)
    simp only [Hex.digits, List.nil_append, List.cons_append] at hv ⊢
    simp only [takeUnits?, hv, h]
  · obtain ⟨hq, hb⟩ := not_or.1 h1
    rw [List.singleton_append]
    unfold takeUnits?
    split <;> simp_all

theorem takeUnits?_escape : ∀ cs rest : List Char,
    takeUnits? (cs.flatMap escapeChar ++ '"' :: rest) = some (cs.map Char.toNat, rest)
  | [], _ => rfl
  | c :: cs, rest => by
    rw [List.flatMap_cons, List.append_assoc,
      takeUnits?_escapeChar c (takeUnits?_escape cs rest), List.map_cons]

theorem not_isSurrogate (c : Char) : isHigh c.toNat = false ∧ isLow c.toNat = false := by
  have h : c.toNat < 0xD800 ∨ 0xDFFF < c.toNat ∧ c.toNat < 0x110000 := c.valid
  simp only [isHigh, isLow, Bool.and_eq_false_iff, decide_eq_false_iff_not]
  omega

theorem joinUnits_toNat : ∀ cs : List Char, joinUnits (cs.map Char.toNat) = some cs
  | [] => rfl
  | [c] => by simp [joinUnits, not_isSurrogate]
  | c :: d :: cs => by
    have ih := joinUnits_toNat (d :: cs)
    simp only [List.map_cons] at ih ⊢
    simp [joinUnits, not_isSurrogate, ih]

/-! ## Integers -/

/-- What stands behind a number so that it goes no further. -/
def EndsNumber (rest : List Char) : Prop :=
  ∀ c ∈ rest.head?, c.isDigit = false ∧ c ≠ '.' ∧ c ≠ 'e' ∧ c ≠ 'E'

theorem EndsNumber.takeDigits? {ds rest : List Char} (hr : EndsNumber rest) (hn : ds ≠ [])
    (hd : ∀ c ∈ ds, c.isDigit = true) : takeDigits? (ds ++ rest) = some (ds, rest) := by
  have he : ∀ c ∈ rest.head?, c.isDigit = false := fun c h => (hr c h).1
  rw [Json.takeDigits?, Text.takeWhile_append hd he, Text.dropWhile_append hd he]
  cases ds with
  | nil => exact absurd rfl hn
  | cons d ds => rfl

theorem EndsNumber.takeWhole? {rest : List Char} (hr : EndsNumber rest) (n : Nat) :
    takeWhole? (Decimal.digits n ++ rest) = some (Decimal.digits n, rest) := by
  have hd := hr.takeDigits? (Decimal.digits_ne_nil n) fun _ h => Decimal.isDigit_of_mem_digits h
  rw [Json.takeWhole?, hd]
  split
  · rename_i h
    simp only [Option.some.injEq, Prod.mk.injEq] at h
    exact absurd h.1 (Decimal.digits_ne_zero_cons n)
  · rfl

theorem EndsNumber.takeFraction? {rest : List Char} (hr : EndsNumber rest) :
    takeFraction? rest = some (none, rest) := by
  unfold Json.takeFraction?
  split
  · exact absurd rfl (hr '.' rfl).2.1
  · rfl

theorem EndsNumber.takeExponent? {rest : List Char} (hr : EndsNumber rest) :
    takeExponent? rest = some (none, rest) := by
  unfold Json.takeExponent?
  split
  · exact absurd rfl (hr 'e' rfl).2.2.1
  · exact absurd rfl (hr 'E' rfl).2.2.2
  · rfl

theorem takeMinus_digits (n : Nat) (rest : List Char) :
    takeMinus (Decimal.digits n ++ rest) = (false, Decimal.digits n ++ rest) := by
  unfold takeMinus
  split
  · rename_i h
    obtain ⟨d, ds, hd⟩ := List.exists_cons_of_ne_nil (Decimal.digits_ne_nil n)
    have hm : d.isDigit = true := Decimal.isDigit_of_mem_digits (n := n) (by simp [hd])
    rw [hd, List.cons_append, List.cons.injEq] at h
    rw [h.1] at hm
    cases hm
  · rfl

theorem EndsNumber.takeNumber? {rest : List Char} (hr : EndsNumber rest) (n : Nat) :
    takeNumber? (Decimal.digits n ++ rest) = some (⟨false, Decimal.digits n, none, none⟩, rest) ∧
      takeNumber? ('-' :: Decimal.digits n ++ rest)
        = some (⟨true, Decimal.digits n, none, none⟩, rest) := by
  have hw := hr.takeWhole? n
  have hf := hr.takeFraction?
  have he := hr.takeExponent?
  constructor
  · simp only [Json.takeNumber?, takeMinus_digits, Option.bind_eq_bind, hw, hf, he,
      Option.bind_some]
    rfl
  · simp only [Json.takeNumber?, List.cons_append, takeMinus, Option.bind_eq_bind, hw, hf, he,
      Option.bind_some]
    rfl

namespace NumberParts

theorem le_foldl_value (n : Nat) : ∀ cs : List Char,
    n ≤ cs.foldl (fun n c => 10 * n + (c.toNat - 48)) n
  | [] => Nat.le_refl n
  | c :: cs => Nat.le_trans (by omega) (le_foldl_value (10 * n + (c.toNat - 48)) cs)

/-- Digits of a number below `2 ^ 64` are all taken into the significand. -/
theorem absorb_eq : ∀ {cs : List Char} {significand : Nat} (taken : Nat),
    cs.foldl (fun n c => 10 * n + (c.toNat - 48)) significand < 2 ^ 64 →
      absorb significand taken cs
        = (cs.foldl (fun n c => 10 * n + (c.toNat - 48)) significand, taken + cs.length)
  | [], _, _, _ => rfl
  | c :: cs, significand, taken, h => by
    rw [List.foldl_cons] at h ⊢
    have hn := Nat.lt_of_le_of_lt (le_foldl_value (10 * significand + (c.toNat - 48)) cs) h
    rw [absorb, if_pos hn, absorb_eq (taken + 1) h, List.length_cons, Nat.add_assoc,
      Nat.add_comm 1]

theorem absorb_digits {n : Nat} (h : n < 2 ^ 64) :
    absorb 0 0 (Decimal.digits n) = (n, (Decimal.digits n).length) := by
  have hv : (Decimal.digits n).foldl (fun n c => 10 * n + (c.toNat - 48)) 0 = n :=
    Decimal.value_digits n
  rw [absorb_eq 0 (by rwa [hv]), hv, Nat.zero_add]

theorem toNumber?_digits (u : UInt64) :
    toNumber? ⟨false, Decimal.digits u.toNat, none, none⟩ = some (.natural u) := by
  simp [toNumber?, absorb_digits u.toNat_lt]

theorem toNumber?_minus {n : Int64} (h : n.toInt < 0) :
    toNumber? ⟨true, Decimal.digits n.toInt.natAbs, none, none⟩ = some (.negative n) := by
  have hl : -2 ^ 63 ≤ n.toInt := n.le_toInt
  have hp : 0 < n.toInt.natAbs ∧ n.toInt.natAbs ≤ 2 ^ 63 := by omega
  have hz : -(n.toInt.natAbs : Int) = n.toInt := by omega
  have ha := absorb_digits (show n.toInt.natAbs < 2 ^ 64 by omega)
  have hi : Int64.ofInt (-(n.toInt.natAbs : Int)) = n := by rw [hz, Int64.ofInt_toInt]
  simp only [toNumber?, ha, hi, if_pos hp, Nat.sub_self, and_self, Bool.not_true,
    Bool.false_eq_true, if_true, if_false]

end NumberParts

/-! ## Tokens -/

namespace Token

def isNumber : Token → Bool
  | .number _ => true
  | _ => false

/-- Tokens that are scanned as they were written: there is a content, and a number is an integer,
which is written as negative only if it is. -/
def IsExact : Token → Prop
  | .number (some (.natural _)) => True
  | .number (some (.negative n)) => n.toInt < 0
  | .number _ | .text none | .fault => False
  | _ => True

end Token

theorem takeToken?_of_number {c : Char} (h : c.isDigit = true ∨ c = '-') (cs : List Char) :
    takeToken? (c :: cs)
      = (takeNumber? (c :: cs)).map fun found => (.number found.1.toNumber?, found.2) := by
  unfold takeToken?
  split
  case h_11 => rfl
  all_goals
    rename_i he
    rw [List.cons.injEq] at he
    rw [he.1] at h
    simp at h

theorem takeToken?_number {n : Number} (h : Token.IsExact (.number (some n))) {rest : List Char}
    (hr : EndsNumber rest) :
    takeToken? (n.chars ++ rest) = some (.number (some n), rest) := by
  cases n with
  | natural u =>
    have hn := (hr.takeNumber? u.toNat).1
    obtain ⟨d, ds, hd⟩ := List.exists_cons_of_ne_nil (Decimal.digits_ne_nil u.toNat)
    have hm : d.isDigit = true := Decimal.isDigit_of_mem_digits (n := u.toNat) (by simp [hd])
    have ht := takeToken?_of_number (.inl hm) (ds ++ rest)
    rw [← List.cons_append, ← hd, hn, Option.map_some, NumberParts.toNumber?_digits] at ht
    exact ht
  | negative m =>
    have hn := (hr.takeNumber? m.toInt.natAbs).2
    have ht := takeToken?_of_number (.inr rfl) (Decimal.digits m.toInt.natAbs ++ rest)
    rw [← List.cons_append, hn, Option.map_some, NumberParts.toNumber?_minus h] at ht
    exact ht
  | double x => exact h.elim
  | single x => exact h.elim

theorem takeToken?_chars {t : Token} (h : t.IsExact) {rest : List Char}
    (hr : t.isNumber = true → EndsNumber rest) : takeToken? (t.chars ++ rest) = some (t, rest) := by
  match t with
  | .openBracket | .closeBracket | .openBrace | .closeBrace | .colon | .comma | .null
  | .bool true | .bool false => rfl
  | .number (some n) => exact takeToken?_number h (hr rfl)
  | .text (some s) =>
    have hu := takeUnits?_escape s.toList rest
    simp only [Token.chars, List.cons_append, List.append_assoc, List.nil_append, takeToken?, hu,
      joinUnits_toNat, Option.map_some, String.ofList_toList]

theorem tokens_of_takeToken? {c : Char} {cs rest : List Char} {t : Token}
    (hs : isSpace c = false) (h : takeToken? (c :: cs) = some (t, rest)) :
    tokens (c :: cs) = t :: tokens rest := by
  rw [tokens, if_neg (by simp [hs])]
  split
  · rename_i hn
    rw [hn] at h
    cases h
  · rename_i hf
    rw [hf] at h
    cases h
    rfl

theorem Token.exists_chars {t : Token} (h : t.IsExact) :
    ∃ c cs, t.chars = c :: cs ∧ isSpace c = false := by
  match t with
  | .openBracket | .closeBracket | .openBrace | .closeBrace | .colon | .comma | .null
  | .bool true | .bool false | .text (some _) | .number (some (.negative _)) =>
    exact ⟨_, _, rfl, rfl⟩
  | .number (some (.natural u)) =>
    obtain ⟨d, ds, hd⟩ := List.exists_cons_of_ne_nil (Decimal.digits_ne_nil u.toNat)
    have hm : d.isDigit = true := Decimal.isDigit_of_mem_digits (n := u.toNat) (by simp [hd])
    refine ⟨d, ds, hd, ?_⟩
    simp only [isSpace, Bool.or_eq_false_iff, beq_eq_false_iff_ne]
    refine ⟨⟨⟨?_, ?_⟩, ?_⟩, ?_⟩ <;> (rintro rfl; cases hm)

theorem tokens_chars {t : Token} (h : t.IsExact) {rest : List Char}
    (hr : t.isNumber = true → EndsNumber rest) : tokens (t.chars ++ rest) = t :: tokens rest := by
  obtain ⟨c, cs, hc, hs⟩ := Token.exists_chars h
  have ht := takeToken?_chars h hr
  rw [hc, List.cons_append] at ht ⊢
  exact tokens_of_takeToken? hs ht

/-! ## Trees -/

theorem endsNumber_cons {c : Char} (h : c.isDigit = false ∧ c ≠ '.' ∧ c ≠ 'e' ∧ c ≠ 'E')
    (cs : List Char) : EndsNumber (c :: cs) := by
  intro d hd
  cases hd
  exact h

/-- Tokens that are scanned from their characters, whatever follows them that does not go on with a
number. -/
def Scanned (ts : List Token) : Prop :=
  ∀ rest, EndsNumber rest → tokens (ts.flatMap Token.chars ++ rest) = ts ++ tokens rest

theorem scanned_nil : Scanned [] := fun _ _ => rfl

theorem scanned_singleton {t : Token} (h : t.IsExact) : Scanned [t] := by
  intro rest hr
  rw [List.flatMap_singleton]
  exact tokens_chars h fun _ => hr

/-- Behind a token that is no number anything may stand. -/
theorem Scanned.cons {t : Token} {ts : List Token} (h : t.IsExact) (hn : t.isNumber = false)
    (hs : Scanned ts) : Scanned (t :: ts) := by
  intro rest hr
  have ht : tokens (t.chars ++ (ts.flatMap Token.chars ++ rest))
      = t :: tokens (ts.flatMap Token.chars ++ rest) :=
    tokens_chars h fun hi => by simp [hn] at hi
  rw [List.flatMap_cons, List.append_assoc, ht, hs rest hr, List.cons_append]

theorem Scanned.append {ts us : List Token} (hs : Scanned ts) (hu : Scanned us)
    (he : ∀ rest, EndsNumber (us.flatMap Token.chars ++ rest)) : Scanned (ts ++ us) := by
  intro rest hr
  rw [List.flatMap_append, List.append_assoc, hs _ (he rest), hu rest hr, List.append_assoc]

/-- A tree that is read as it was written: all its tokens are. -/
def IsExact (j : Json) : Prop := ∀ t ∈ j.toTokens, t.IsExact

theorem isExact_ofText (s : String) : (ofText s).IsExact := by
  rw [IsExact, ofText, toTokens, List.forall_mem_singleton]
  trivial

mutual

theorem scanned_toTokens : ∀ j : Json, (∀ t ∈ j.toTokens, t.IsExact) → Scanned j.toTokens
  | .null, h | .bool _, h | .number _, h | .text _, h => by
    rw [toTokens] at h ⊢
    exact scanned_singleton (h _ (List.mem_singleton_self _))
  | .array items, h => by
    simp only [toTokens, List.forall_mem_append, List.forall_mem_cons] at h
    have hi := scanned_itemTokens items h.1.2
    exact (hi.cons (t := .openBracket) trivial rfl).append (scanned_singleton trivial)
      fun rest => endsNumber_cons (c := ']') (by decide) rest
  | .object members, h => by
    simp only [toTokens, List.forall_mem_append, List.forall_mem_cons] at h
    have hi := scanned_memberTokens members h.1.2
    exact (hi.cons (t := .openBrace) trivial rfl).append (scanned_singleton trivial)
      fun rest => endsNumber_cons (c := '}') (by decide) rest

theorem scanned_itemTokens : ∀ items : List Json,
    (∀ t ∈ itemTokens items, t.IsExact) → Scanned (itemTokens items)
  | [], _ => scanned_nil
  | [j], h => scanned_toTokens j h
  | j :: k :: items, h => by
    simp only [itemTokens, List.forall_mem_append, List.forall_mem_cons] at h
    have hi := scanned_itemTokens (k :: items) h.2.2
    exact (scanned_toTokens j h.1).append (hi.cons (t := .comma) trivial rfl)
      fun rest => endsNumber_cons (c := ',') (by decide) _

theorem scanned_memberTokens : ∀ members : List (Option String × Json),
    (∀ t ∈ memberTokens members, t.IsExact) → Scanned (memberTokens members)
  | [], _ => scanned_nil
  | [(k, j)], h => by
    simp only [memberTokens, List.forall_mem_cons] at h
    exact ((scanned_toTokens j h.2.2).cons h.2.1 rfl).cons h.1 rfl
  | (k, j) :: m :: members, h => by
    simp only [memberTokens, List.forall_mem_append, List.forall_mem_cons] at h
    have hi := scanned_memberTokens (m :: members) h.2.2.2.2
    have hj := (scanned_toTokens j h.2.2.1).append (hi.cons (t := .comma) trivial rfl)
      fun rest => endsNumber_cons (c := ',') (by decide) _
    exact (hj.cons h.2.1 rfl).cons h.1 rfl

end

mutual

theorem isReadable_of_isExact : ∀ j : Json, (∀ t ∈ j.toTokens, t.IsExact) → j.isReadable = true
  | .null, _ | .bool _, _ | .number (some _), _ | .text (some _), _ => rfl
  | .number none, h | .text none, h => (h _ (List.mem_singleton_self _)).elim
  | .array items, h => by
    simp only [toTokens, List.forall_mem_append, List.forall_mem_cons] at h
    exact areReadable_of_isExact items h.1.2
  | .object members, h => by
    simp only [toTokens, List.forall_mem_append, List.forall_mem_cons] at h
    exact haveReadable_of_isExact members h.1.2

theorem areReadable_of_isExact : ∀ items : List Json,
    (∀ t ∈ itemTokens items, t.IsExact) → areReadable items = true
  | [], _ => rfl
  | [j], h => by simp [areReadable, isReadable_of_isExact j h]
  | j :: k :: items, h => by
    simp only [itemTokens, List.forall_mem_append, List.forall_mem_cons] at h
    rw [areReadable, isReadable_of_isExact j h.1, areReadable_of_isExact (k :: items) h.2.2,
      Bool.and_true]

theorem haveReadable_of_isExact : ∀ members : List (Option String × Json),
    (∀ t ∈ memberTokens members, t.IsExact) → haveReadable members = true
  | [], _ => rfl
  | [(none, _)], h => (h _ List.mem_cons_self).elim
  | [(some k, j)], h => by
    simp only [memberTokens, List.forall_mem_cons] at h
    simp [haveReadable, isReadable_of_isExact j h.2.2]
  | (none, _) :: _ :: _, h => (h (.text none) List.mem_cons_self).elim
  | (some k, j) :: m :: members, h => by
    simp only [memberTokens, List.forall_mem_append, List.forall_mem_cons] at h
    rw [haveReadable, isReadable_of_isExact j h.2.2.1,
      haveReadable_of_isExact (m :: members) h.2.2.2.2]
    rfl

end

theorem tokens_render {j : Json} (h : j.IsExact) : tokens j.render.toList = j.toTokens := by
  have hs := scanned_toTokens j h [] (fun _ hc => by cases hc)
  rw [List.append_nil, tokens, List.append_nil] at hs
  rw [render, String.toList_ofList, hs]

theorem ofString?_eq_some_iff {text : String} {j : Json} :
    ofString? text = some j ↔ tokens text.toList = j.toTokens :=
  parse_eq_some_iff

theorem ofStringStrict?_of_tokens {text : String} {j : Json} (h : tokens text.toList = j.toTokens)
    (hr : j.isReadable = true) (hd : j.depth ≤ maxDepth) : ofStringStrict? text = some j := by
  rw [ofStringStrict?, ofString?_eq_some_iff.2 h, Option.filter_some, hr]
  simp [hd]

theorem ofStringStrict?_render {j : Json} (h : j.IsExact) (hd : j.depth ≤ maxDepth) :
    ofStringStrict? j.render = some j :=
  ofStringStrict?_of_tokens (tokens_render h) (isReadable_of_isExact j h) hd

/-! ## Objects with readable keys -/

theorem isExact_memberTokens : ∀ {members : List (String × Json)}, (∀ m ∈ members, m.2.IsExact) →
    ∀ t ∈ memberTokens (members.map fun m => (some m.1, m.2)), t.IsExact
  | [], _ => by simp [memberTokens]
  | [m], h => by
    simp only [List.map_cons, List.map_nil, memberTokens, List.forall_mem_cons]
    exact ⟨trivial, trivial, h m List.mem_cons_self⟩
  | m :: n :: members, h => by
    rw [List.forall_mem_cons] at h
    have ih := isExact_memberTokens h.2
    simp only [List.map_cons, memberTokens, List.forall_mem_cons, List.forall_mem_append] at ih ⊢
    exact ⟨trivial, trivial, h.1, trivial, ih⟩

theorem isExact_ofMembers {members : List (String × Json)} (h : ∀ m ∈ members, m.2.IsExact) :
    (ofMembers members).IsExact := by
  have hm := isExact_memberTokens h
  simp only [IsExact, ofMembers, toTokens, List.forall_mem_append, List.forall_mem_cons]
  exact ⟨⟨trivial, hm⟩, trivial, by simp⟩

theorem depthOfMembers_le {depth : Nat} : ∀ {members : List (String × Json)},
    (∀ m ∈ members, m.2.depth ≤ depth) →
      depthOfMembers (members.map fun m => (some m.1, m.2)) ≤ depth
  | [], _ => Nat.zero_le depth
  | m :: members, h => by
    rw [List.forall_mem_cons] at h
    exact Nat.max_le.2 ⟨h.1, depthOfMembers_le h.2⟩

theorem members?_ofMembers : ∀ members : List (String × Json),
    (ofMembers members).members? = some members
  | [] => rfl
  | m :: members => by
    have ih : (members.map fun m => (some m.1, m.2)).mapM
        (fun m : Option String × Json => m.1.map (·, m.2)) = some members :=
      members?_ofMembers members
    simp [ofMembers, members?, List.mapM_cons, ih]

theorem eq_ofMembers_of_members? : ∀ {ms : List (Option String × Json)}
    {members : List (String × Json)}, (object ms).members? = some members →
      object ms = .ofMembers members
  | [], _, h => by
    cases h
    rfl
  | (none, _) :: _, _, h => by simp [members?] at h
  | (some name, item) :: ms, members, h => by
    simp only [members?, List.mapM_cons, Option.map_some, Option.bind_eq_bind, Option.bind_some,
      Option.bind_eq_some_iff, Option.pure_def, Option.some.injEq] at h
    obtain ⟨rest, hr, rfl⟩ := h
    have hi := eq_ofMembers_of_members? hr
    simp only [ofMembers, object.injEq] at hi
    simp only [ofMembers, List.map_cons, hi]

/-- Only an object with readable keys has members, which are those it was built from. -/
theorem members?_eq_some_iff {j : Json} {members : List (String × Json)} :
    j.members? = some members ↔ j = .ofMembers members := by
  constructor
  · intro h
    cases j with
    | object ms => exact eq_ofMembers_of_members? h
    | _ => cases h
  · rintro rfl
    exact members?_ofMembers members

/-- The members of an object are read from its text. -/
theorem members?_render {members : List (String × Json)} (h : ∀ m ∈ members, m.2.IsExact)
    (hd : ∀ m ∈ members, m.2.depth < maxDepth) :
    (ofStringStrict? (ofMembers members).render).bind members? = some members := by
  have hm : (ofMembers members).depth ≤ maxDepth := Nat.succ_le_succ <|
    depthOfMembers_le fun m hm => Nat.le_of_lt_succ (hd m hm)
  rw [ofStringStrict?_render (isExact_ofMembers h) hm, Option.bind_some, members?_ofMembers]

end Json

end BinaryLayout
