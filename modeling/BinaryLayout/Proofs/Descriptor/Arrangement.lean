import BinaryLayout.Proofs.Descriptor.Parts
import Mathlib.Data.Nat.Digits.Defs

/-!
# A count and an order in either order

What stands in brackets is a count if it is digits behind an optional plus sign (`Writes`,
`counts_iff`), and the letters behind a bar are an order in any case (`ofModifier?_eq_some_iff`).
Each of the two parts is taken as far as it goes and no further, whatever white space stands in
front of it (`optional_bracket`, `optional_modifier`), so a descriptor text has the same parts with
the two in either order (`split_of_either_order`).
-/

namespace BinaryLayout

open Text (upper)

/-- The letters that stand for an order, in any case. -/
def ByteOrder.IsModifier (order : ByteOrder) (letters : List Char) : Prop :=
  upper letters = order.modifier.toList

theorem ByteOrder.ofModifier?_eq_some_iff {letters : List Char} {order : ByteOrder} :
    ofModifier? letters = some order ↔ order.IsModifier letters := by
  have hl : ByteOrder.little.modifier.toList = ['L', 'E'] := rfl
  have hb : ByteOrder.big.modifier.toList = ['B', 'E'] := rfl
  unfold ofModifier? IsModifier upper
  split_ifs with h1 h2
  · cases order <;> simp [h1, hl, hb]
  · cases order <;> simp [h2, hl, hb]
  · cases order <;> simp [h1, h2, hl, hb]

namespace Decimal

theorem value_eq_ofDigits (cs : List Char) :
    value cs = Nat.ofDigits 10 (cs.reverse.map fun c => c.toNat - 48) := by
  rw [Nat.ofDigits_eq_foldr, List.foldr_map, List.foldr_reverse, value]
  simp only [Nat.cast_id, Nat.add_comm]

theorem toNat?_eq_some_iff {cs : List Char} {n : Nat} :
    toNat? cs = some n ↔ cs ≠ [] ∧ (∀ c ∈ cs, c.isDigit = true) ∧ value cs = n := by
  unfold toNat?
  split_ifs with he ha
  · simp [List.isEmpty_iff.1 he]
  · rw [List.isEmpty_iff] at he
    rw [Option.some_inj]
    exact ⟨fun hv => ⟨he, List.all_eq_true.1 ha, hv⟩, fun h => h.2.2⟩
  · constructor
    · rintro ⟨⟩
    · rintro ⟨-, hd, -⟩
      exact absurd (List.all_eq_true.2 hd) ha

end Decimal

namespace Descriptor

/-- Between white space stands the number `n` in decimal digits, perhaps behind a plus sign. -/
def Writes (inside : List Char) (n : Nat) : Prop :=
  ∃ front sign digits back, inside = front ++ (sign ++ digits) ++ back ∧
    (∀ c ∈ front, Text.isBlank c = true) ∧ (∀ c ∈ back, Text.isBlank c = true) ∧
    (sign = [] ∨ sign = ['+']) ∧ digits ≠ [] ∧ (∀ c ∈ digits, c.isDigit = true) ∧
    Nat.ofDigits 10 (digits.reverse.map fun c => c.toNat - 48) = n

/-- The count that stands in brackets: the number written there, if a count can be it, and else
one. -/
inductive Counts (inside : List Char) : UInt32 → Prop
  | written {count : UInt32} : Writes inside count.toNat → count ≠ 0 → Counts inside count
  | default : (∀ n, 1 ≤ n → n < 2 ^ 32 → ¬Writes inside n) → Counts inside 1

theorem unsigned?_eq_some_iff {cs : List Char} {n : Nat} : unsigned? cs = some n ↔
    ∃ sign digits, cs = sign ++ digits ∧ (sign = [] ∨ sign = ['+']) ∧
      Decimal.toNat? digits = some n := by
  constructor
  · intro h
    unfold unsigned? at h
    split at h
    · rename_i ds
      exact ⟨['+'], ds, rfl, .inr rfl, h⟩
    · exact ⟨[], cs, rfl, .inl rfl, h⟩
  · rintro ⟨sign, digits, rfl, rfl | rfl, h⟩
    · have hp : ∀ ds, digits ≠ '+' :: ds := by
        rintro ds rfl
        cases (Decimal.toNat?_eq_some_iff.1 h).2.1 '+' List.mem_cons_self
      rwa [List.nil_append, unsigned?_of_ne hp]
    · exact h

theorem writes_iff {inside : List Char} {n : Nat} :
    Writes inside n ↔ unsigned? (Text.trim inside) = some n := by
  simp only [unsigned?_eq_some_iff, Decimal.toNat?_eq_some_iff, Decimal.value_eq_ofDigits]
  constructor
  · rintro ⟨front, sign, digits, back, rfl, hf, hb, hs, hn, hd, hv⟩
    have hc : ∀ c ∈ sign ++ digits, Text.isBlank c = false := by
      intro c hm
      rcases List.mem_append.1 hm with hm | hm
      · rcases hs with rfl | rfl
        · cases hm
        · rw [List.mem_singleton.1 hm]
          rfl
      · exact isBlank_of_isNameChar (by simp [isNameChar, Char.isAlphanum, hd c hm])
    rw [Text.trim_append hf hc hb (List.append_ne_nil_of_right_ne_nil sign hn)]
    exact ⟨sign, digits, rfl, hs, hn, hd, hv⟩
  · rintro ⟨sign, digits, ht, hs, hn, hd, hv⟩
    obtain ⟨front, back, hi, hf, hb⟩ := Text.exists_eq_append_trim inside
    rw [ht] at hi
    exact ⟨front, sign, digits, back, hi, hf, hb, hs, hn, hd, hv⟩

theorem counts_iff {inside : List Char} {count : UInt32} :
    Counts inside count ↔ countOf inside = count := by
  have hw : ∀ n, Writes inside n ↔ unsigned? (Text.trim inside) = some n := fun n => writes_iff
  unfold countOf
  constructor
  · rintro (⟨h, hn⟩ | h)
    · have hpos : 1 ≤ count.toNat := Nat.pos_of_ne_zero fun h0 => hn (UInt32.toNat_inj.1 h0)
      rw [(hw _).1 h]
      simp only [hpos, count.toNat_lt, and_self, if_true, UInt32.ofNat_toNat]
    · split
      · rename_i n hu
        rw [if_neg fun hn => h n hn.1 hn.2 ((hw n).2 hu)]
      · rfl
  · split
    · rename_i n hu
      split_ifs with hn
      · rintro rfl
        have ht : (UInt32.ofNat n).toNat = n := by
          rw [UInt32.toNat_ofNat', Nat.mod_eq_of_lt hn.2]
        refine .written (ht.symm ▸ (hw n).2 hu) fun h0 => ?_
        rw [h0, UInt32.toNat_zero] at ht
        omega
      · rintro rfl
        refine .default fun m h1 h2 hm => hn ?_
        cases hu.symm.trans ((hw m).1 hm)
        exact ⟨h1, h2⟩
    · rename_i hu
      rintro rfl
      refine .default fun m _ _ hm => ?_
      cases hu.symm.trans ((hw m).1 hm)

/-! ## Parts behind white space -/

section Behind

variable {blanks : List Char} (hb : ∀ c ∈ blanks, Text.isBlank c = true)
include hb

/-- Behind a name or letters stands something else: white space or the mark of the next part. -/
theorem not_isNameChar_head? {mark : Char} (hm : isNameChar mark = false) (rest : List Char) :
    ∀ c ∈ (blanks ++ mark :: rest).head?, isNameChar c = false := by
  intro c hc
  cases blanks with
  | nil =>
    cases hc
    exact hm
  | cons b bs =>
    cases hc
    refine Bool.eq_false_iff.2 fun hn => ?_
    have hc := hb c List.mem_cons_self
    rw [isBlank_of_isNameChar hn] at hc
    cases hc

theorem trimLeft_blanks {mark : Char} (hm : Text.isBlank mark = false) (rest : List Char) :
    Text.trimLeft (blanks ++ mark :: rest) = mark :: rest := by
  rw [Text.trimLeft_append hb]
  exact Text.trimLeft_eq_self fun c hc => by cases hc; exact hm

theorem optional_bracket {inside : List Char} (hi : ']' ∉ inside) (rest : List Char) :
    optional takeBracket? (blanks ++ '[' :: (inside ++ ']' :: rest)) = (some inside, rest) := by
  refine optional_of_some ?_
  rw [trimLeft_blanks hb rfl]
  exact takeBracket?_append hi rest

theorem optional_bracket_of_bar (rest : List Char) :
    optional takeBracket? (blanks ++ '|' :: rest) = (none, '|' :: rest) := by
  rw [optional, trimLeft_blanks hb rfl]
  rfl

theorem optional_modifier {gap letters rest : List Char}
    (hg : ∀ c ∈ gap, Text.isBlank c = true) (hn : letters ≠ [])
    (hl : ∀ c ∈ letters, c.isAlpha = true) (hr : ∀ c ∈ rest.head?, c.isAlpha = false) :
    optional takeModifier? (blanks ++ '|' :: (gap ++ (letters ++ rest)))
      = (some letters, rest) := by
  obtain ⟨c, cs, rfl⟩ := List.exists_cons_of_ne_nil hn
  have hc : Text.isBlank c = false := isBlank_of_isNameChar
    (by simp [isNameChar, Char.isAlphanum, hl c List.mem_cons_self])
  refine optional_of_some ?_
  rw [trimLeft_blanks hb rfl, takeModifier?, List.cons_append, trimLeft_blanks hg hc,
    ← List.cons_append]
  simp only [Text.takeWhile_append hl hr, Text.dropWhile_append hl hr]

end Behind

theorem isAlpha_eq_false {c : Char} (h : isNameChar c = false) : c.isAlpha = false := by
  simp only [isNameChar, Char.isAlphanum, Bool.or_eq_false_iff] at h
  exact h.1.1

/-- A count in brackets and letters behind a bar, in either order and with white space between the
parts, are read as the same count and the same order. What stands behind them makes no difference,
be it a further bracket; only letters right behind the letters would belong to these. -/
theorem split_of_either_order {name inside letters w₀ w₁ w₂ w₃ : List Char}
    (hn : IsIdentifier name) (hi : ']' ∉ inside) (hl : letters ≠ [])
    (ha : ∀ c ∈ letters, c.isAlpha = true) (h₀ : ∀ c ∈ w₀, Text.isBlank c = true)
    (h₁ : ∀ c ∈ w₁, Text.isBlank c = true) (h₂ : ∀ c ∈ w₂, Text.isBlank c = true)
    (h₃ : ∀ c ∈ w₃, Text.isBlank c = true) :
    ∃ count order, Counts inside count ∧
      (∀ o : ByteOrder, order = some o ↔ o.IsModifier letters) ∧
      (∀ tail, (∀ c ∈ tail.head?, c.isAlpha = false) →
        split (w₀ ++ (name ++ (w₁ ++ '[' :: (inside ++ ']' ::
          (w₂ ++ '|' :: (w₃ ++ (letters ++ tail))))))) = ⟨name, count, order⟩) ∧
      ∀ tail,
        split (w₀ ++ (name ++ (w₁ ++ '|' :: (w₃ ++ (letters ++
          (w₂ ++ '[' :: (inside ++ ']' :: tail))))))) = ⟨name, count, order⟩ := by
  have hname : ∀ {mark : Char}, isNameChar mark = false → ∀ rest,
      takeName? (Text.trimLeft (w₀ ++ (name ++ (w₁ ++ mark :: rest))))
        = some (name, w₁ ++ mark :: rest) := by
    intro mark hm rest
    rw [Text.trimLeft_append h₀, hn.takeName?_trimLeft (not_isNameChar_head? h₁ hm rest)]
  refine ⟨countOf inside, ByteOrder.ofModifier? letters, counts_iff.2 rfl,
    fun o => ByteOrder.ofModifier?_eq_some_iff, fun tail ht => ?_, fun tail => ?_⟩
  · -- the first bracket wins, so the second is looked for and left out
    rw [split_of_optional (hname rfl _) (optional_bracket h₁ hi _)
      (optional_modifier h₂ h₃ hl ha ht) rfl]
    rfl
  · have hr : ∀ c ∈ (w₂ ++ '[' :: (inside ++ ']' :: tail)).head?, c.isAlpha = false :=
      fun c hc => isAlpha_eq_false (not_isNameChar_head? h₂ rfl _ c hc)
    have hm := optional_modifier (List.forall_mem_nil fun c => Text.isBlank c = true) h₃ hl ha hr
    rw [List.nil_append] at hm
    rw [split_of_optional (hname rfl _) (optional_bracket_of_bar h₁ _) hm
      (optional_bracket h₂ hi tail)]
    rfl

/-- A sign and leading zeros, letters in mixed case, and a further bracket that is left out. -/
theorem split_of_either_order_signed :
    IsIdentifier "sHort".toList ∧ ']' ∉ " +007 ".toList ∧
    split "\u2003sHort [ +007 ] |\tbE[9]".toList = ⟨"sHort".toList, 7, some .big⟩ ∧
    split "\u2003sHort |\tbE [ +007 ]]".toList = ⟨"sHort".toList, 7, some .big⟩ := by
  have hn : IsIdentifier "sHort".toList := ⟨rfl, List.all_eq_true.1 rfl⟩
  have hi : ']' ∉ " +007 ".toList := by decide
  have hb : ∀ {blanks : List Char}, blanks.all Text.isBlank = true →
      ∀ c ∈ blanks, Text.isBlank c = true := List.all_eq_true.1
  obtain ⟨count, order, hc, ho, hfirst, hsecond⟩ := @split_of_either_order "sHort".toList
    " +007 ".toList "bE".toList ['\u2003'] [' '] [' '] ['\t'] hn hi (by decide)
    (List.all_eq_true.1 rfl) (hb rfl) (hb rfl) (hb rfl) (hb rfl)
  have h7 : count = 7 := (counts_iff.1 hc).symm.trans (by decide)
  have hbig : order = some .big := (ho .big).2 (by unfold ByteOrder.IsModifier; decide)
  rw [h7, hbig] at hfirst hsecond
  exact ⟨hn, hi, hfirst "[9]".toList fun c hc => by cases hc; rfl, hsecond [']']⟩

end Descriptor

end BinaryLayout
