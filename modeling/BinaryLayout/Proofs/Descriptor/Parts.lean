import BinaryLayout.Descriptor.Grammar
import BinaryLayout.Proofs.Text.Run

/-!
# The parts of a descriptor text

An identifier is taken as far as it goes (`takeName?_eq_some_iff`), a bracket up to the first one
that closes, and letters behind a bar as far as they go. A text is split by taking them one behind
the other (`split_of_optional`); whatever is in the brackets, the count is never zero.
-/

namespace BinaryLayout

namespace Descriptor

/-- A letter or an underscore, and further ones and digits behind it. -/
def IsIdentifier : List Char → Prop
  | [] => False
  | c :: cs => isNameStart c = true ∧ ∀ d ∈ cs, isNameChar d = true

theorem isNameChar_of_isNameStart {c : Char} (h : isNameStart c = true) :
    isNameChar c = true := by
  simp only [isNameStart, isNameChar, Char.isAlphanum, Bool.or_eq_true] at h ⊢
  exact h.imp_left .inl

theorem IsIdentifier.isNameChar : ∀ {name : List Char}, IsIdentifier name →
    ∀ c ∈ name, isNameChar c = true
  | _ :: _, h => List.forall_mem_cons.2 ⟨isNameChar_of_isNameStart h.1, h.2⟩

theorem toNat_lt_of_isNameChar {c : Char} (h : isNameChar c = true) : c.toNat < 128 := by
  have hr : ∀ last : Char, last.toNat < 128 → c.val ≤ last.val → c.toNat < 128 :=
    fun last hl hc => Nat.lt_of_le_of_lt (UInt32.le_iff_toNat_le.1 hc) hl
  rcases Bool.or_eq_true_iff.1 h with h | h
  · rcases Bool.or_eq_true_iff.1 (show (c.isAlpha || c.isDigit) = true from h) with h | h
    · rcases Bool.or_eq_true_iff.1 (show (c.isUpper || c.isLower) = true from h) with h | h
      · exact hr 'Z' (by decide) (of_decide_eq_true h).2
      · exact hr 'z' (by decide) (of_decide_eq_true (Bool.and_eq_true_iff.1 h).2)
    · exact hr '9' (by decide) (of_decide_eq_true (Bool.and_eq_true_iff.1 h).2)
  · rw [beq_iff_eq.1 h]
    decide

theorem isBlank_of_isNameChar {c : Char} (h : isNameChar c = true) : Text.isBlank c = false := by
  have hd : ∀ n : Fin 128, Descriptor.isNameChar (Char.ofNat n) = true →
      Text.isBlank (Char.ofNat n) = false := by decide
  have hn := hd ⟨c.toNat, toNat_lt_of_isNameChar h⟩
  simp only [Char.ofNat_toNat] at hn
  exact hn h

theorem IsIdentifier.isBlank {name : List Char} (h : IsIdentifier name) :
    ∀ c ∈ name, Text.isBlank c = false :=
  fun c hc => isBlank_of_isNameChar (h.isNameChar c hc)

theorem takeName?_eq_some_iff {cs name rest : List Char} : takeName? cs = some (name, rest) ↔
    cs = name ++ rest ∧ IsIdentifier name ∧ ∀ c ∈ rest.head?, isNameChar c = false := by
  constructor
  · intro h
    cases cs with
    | nil => cases h
    | cons c cs =>
      rw [takeName?] at h
      split at h
      · rename_i hc
        cases h
        refine ⟨?_, ⟨hc, List.all_eq_true.1 List.all_takeWhile⟩, fun d hd => ?_⟩
        · rw [List.cons_append, List.takeWhile_append_dropWhile]
        · have hn := List.head?_dropWhile_not isNameChar cs
          rw [Option.mem_def.1 hd] at hn
          exact hn
      · cases h
  · rintro ⟨rfl, hn, hr⟩
    cases name with
    | nil => cases hn
    | cons c name =>
      rw [List.cons_append, takeName?, if_pos hn.1, Text.takeWhile_append hn.2 hr,
        Text.dropWhile_append hn.2 hr]

theorem IsIdentifier.takeName?_trimLeft {name rest : List Char} (hn : IsIdentifier name)
    (hr : ∀ c ∈ rest.head?, Descriptor.isNameChar c = false) :
    takeName? (Text.trimLeft (name ++ rest)) = some (name, rest) := by
  have hb : ∀ c ∈ (name ++ rest).head?, Text.isBlank c = false := by
    cases name with
    | nil => cases hn
    | cons c cs =>
      intro d hd
      cases hd
      exact hn.isBlank c List.mem_cons_self
  rw [Text.trimLeft_eq_self hb]
  exact takeName?_eq_some_iff.2 ⟨rfl, hn, hr⟩

theorem takeName?_eq_none_iff {cs : List Char} :
    takeName? cs = none ↔ ∀ c ∈ cs.head?, isNameStart c = false := by
  cases cs with
  | nil => simp [takeName?]
  | cons c cs => simp [takeName?]

/-! ## Optional parts -/

/-- What is taken when a part stands there, behind white space. -/
theorem optional_of_some {part? : List Char → Option (List Char × List Char)}
    {cs found rest : List Char} (h : part? (Text.trimLeft cs) = some (found, rest)) :
    optional part? cs = (some found, rest) := by
  rw [optional, h]

theorem takeBracket?_append {inside : List Char} (h : ']' ∉ inside) (rest : List Char) :
    takeBracket? ('[' :: inside ++ ']' :: rest) = some (inside, rest) := by
  have hp : ∀ c ∈ inside, (c != ']') = true := fun c hc => bne_iff_ne.2 fun he => h (he ▸ hc)
  have hr : ∀ c ∈ (']' :: rest).head?, (c != ']') = false := by
    intro c hc
    cases hc
    rfl
  rw [List.cons_append, takeBracket?, Text.dropWhile_append hp hr, Text.takeWhile_append hp hr]

theorem takeBracket?_of_ne {cs : List Char} (h : ∀ ds, cs ≠ '[' :: ds) :
    takeBracket? cs = none := by
  unfold takeBracket?
  split
  · exact absurd rfl (h _)
  · rfl

theorem takeModifier?_of_ne {cs : List Char} (h : ∀ ds, cs ≠ '|' :: ds) :
    takeModifier? cs = none := by
  unfold takeModifier?
  split
  · exact absurd rfl (h _)
  · rfl

/-! ## Counts -/

theorem countOf_ne_zero (cs : List Char) : countOf cs ≠ 0 := by
  unfold countOf
  split
  · rename_i n _
    split
    · rename_i hn
      intro h
      have ht := congrArg UInt32.toNat h
      rw [UInt32.toNat_ofNat', Nat.mod_eq_of_lt hn.2] at ht
      exact absurd ht (Nat.ne_of_gt hn.1)
    · decide
  · decide

theorem unsigned?_of_ne {cs : List Char} (h : ∀ ds, cs ≠ '+' :: ds) :
    unsigned? cs = Decimal.toNat? cs := by
  unfold unsigned?
  split
  · exact absurd rfl (h _)
  · rfl

theorem unsigned?_digits (n : Nat) : unsigned? (Decimal.digits n) = some n := by
  have hp : ∀ ds, Decimal.digits n ≠ '+' :: ds := by
    intro ds h
    have hd : ('+').isDigit = true := Decimal.isDigit_of_mem_digits (n := n) (by simp [h])
    cases hd
  rw [unsigned?_of_ne hp, Decimal.toNat?_digits]

theorem countOf_digits {count : UInt32} (h : count ≠ 0) :
    countOf (Decimal.digits count.toNat) = count := by
  have hb : ∀ c ∈ Decimal.digits count.toNat, Text.isBlank c = false := fun c hc =>
    isBlank_of_isNameChar (by simp [isNameChar, Char.isAlphanum, Decimal.isDigit_of_mem_digits hc])
  have hn : 1 ≤ count.toNat ∧ count.toNat < 2 ^ 32 := by
    refine ⟨Nat.pos_of_ne_zero fun h0 => h ?_, count.toNat_lt⟩
    exact UInt32.toNat_inj.1 h0
  rw [countOf, Text.trim_of_not_isBlank hb, unsigned?_digits]
  simp only [if_pos hn, UInt32.ofNat_toNat]

/-! ## The split -/

theorem tag_split_of_takeName? {cs name rest : List Char}
    (h : takeName? (Text.trimLeft cs) = some (name, rest)) : (split cs).tag = name := by
  rw [split, h]

/-- The parts are taken one behind the other. -/
theorem split_of_optional {cs name rest afterFirst afterLetters last : List Char}
    {first letters second : Option (List Char)}
    (hn : takeName? (Text.trimLeft cs) = some (name, rest))
    (hf : optional takeBracket? rest = (first, afterFirst))
    (hl : optional takeModifier? afterFirst = (letters, afterLetters))
    (hs : optional takeBracket? afterLetters = (second, last)) :
    split cs = ⟨name, ((first.or second).map countOf).getD 1,
      letters.bind ByteOrder.ofModifier?⟩ := by
  rw [split, hn]
  simp only [hf, hl, hs]

theorem split_of_takeName?_eq_none {cs : List Char} (h : takeName? (Text.trimLeft cs) = none) :
    split cs = ⟨Text.trim cs, 1, none⟩ := by
  rw [split, h]

theorem count_split_ne_zero (cs : List Char) : (split cs).count ≠ 0 := by
  have h1 : (1 : UInt32) ≠ 0 := by decide
  unfold split
  split
  · exact h1
  · simp only []
    cases Option.or _ _ with
    | none => exact h1
    | some found => exact countOf_ne_zero found

end Descriptor

end BinaryLayout
