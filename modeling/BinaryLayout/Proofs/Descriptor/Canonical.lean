import BinaryLayout.Proofs.Descriptor.Case

/-!
# The canonical text of a descriptor

The text a descriptor is written as is split into the name of its tag, its count and its order
(`split_chars`), so it is read as that descriptor (`parse_text`). A count that is read is never
zero, so whatever is read has one canonical text, and no other descriptor has it (`text_canonical`).
-/

namespace BinaryLayout

namespace Descriptor

theorem isIdentifier_name (tag : Tag) : IsIdentifier tag.name.toList := by
  cases tag <;> exact ⟨rfl, List.all_eq_true.1 rfl⟩

/-- Digits hold no closing bracket, so they are what stands in brackets around them. -/
theorem takeBracket?_digits (n : Nat) (rest : List Char) :
    takeBracket? ('[' :: Decimal.digits n ++ ']' :: rest) = some (Decimal.digits n, rest) := by
  refine takeBracket?_append (fun hm => ?_) rest
  have hd : (']').isDigit = true := Decimal.isDigit_of_mem_digits hm
  cases hd

/-- How an order of its own is written, if there is one. -/
def orderChars (order : Option ByteOrder) : List Char :=
  order.elim [] fun o => '|' :: o.modifier.toList

theorem isNameChar_orderChars (order : Option ByteOrder) :
    ∀ c ∈ (orderChars order).head?, isNameChar c = false := by
  intro c hc
  cases order with
  | none => cases hc
  | some order =>
    cases hc
    rfl

theorem optional_orderChars (order : Option ByteOrder) :
    optional takeBracket? (orderChars order) = (none, orderChars order) ∧
      optional takeModifier? (orderChars order) = (order.map (·.modifier.toList), []) := by
  rcases order with _ | _ | _ <;> exact ⟨rfl, rfl⟩

theorem bind_ofModifier?_modifier (order : Option ByteOrder) :
    (order.map (·.modifier.toList)).bind ByteOrder.ofModifier? = order := by
  rcases order with _ | _ | _ <;> rfl

theorem chars_eq (d : Descriptor) : d.chars = d.tag.name.toList ++
    ((if d.count = 1 then [] else '[' :: Decimal.digits d.count.toNat ++ [']'])
      ++ orderChars d.order) := by
  obtain ⟨tag, count, order⟩ := d
  rw [← List.append_assoc]
  cases order <;> rfl

theorem split_chars {d : Descriptor} (h : d.count ≠ 0) :
    split d.chars = ⟨d.tag.name.toList, d.count, d.order⟩ := by
  have hi := isIdentifier_name d.tag
  obtain ⟨hb, hm⟩ := optional_orderChars d.order
  by_cases h1 : d.count = 1
  -- the order stands right behind the name, and no bracket is taken from it
  · have hr := isNameChar_orderChars d.order
    rw [chars_eq, if_pos h1, List.nil_append,
      split_of_optional (hi.takeName?_trimLeft hr) hb hm rfl, bind_ofModifier?_modifier, h1]
    rfl
  · have hd : optional takeBracket?
        ('[' :: Decimal.digits d.count.toNat ++ [']'] ++ orderChars d.order)
          = (some (Decimal.digits d.count.toNat), orderChars d.order) := by
      rw [List.append_assoc]
      exact optional_of_some (takeBracket?_digits _ _)
    have hr : ∀ c ∈ ('[' :: Decimal.digits d.count.toNat ++ [']'] ++ orderChars d.order).head?,
        isNameChar c = false := by
      intro c hc
      cases hc
      rfl
    rw [chars_eq, if_neg h1, split_of_optional (hi.takeName?_trimLeft hr) hd hm rfl,
      bind_ofModifier?_modifier, Option.some_or, Option.map_some, countOf_digits h,
      Option.getD_some]

/-- A descriptor is read from its canonical text. -/
theorem parse_text {d : Descriptor} (h : d.count ≠ 0) : parse d.text = .ok d := by
  have hn : ∀ tag : Tag, Tag.ofName? tag.name.toList = some tag := by
    intro tag
    cases tag <;> decide
  have hb := (isIdentifier_name d.tag).isBlank
  rw [parse_eq_ok_iff, text, String.toList_ofList, split_chars h, Text.trim_of_not_isBlank hb]
  exact ⟨hn d.tag, rfl, rfl⟩

theorem count_ne_zero_of_parse {text : String} {d : Descriptor} (h : parse text = .ok d) :
    d.count ≠ 0 := by
  obtain ⟨-, hc, -⟩ := parse_eq_ok_iff.1 h
  rw [← hc]
  exact count_split_ne_zero _

/-- A descriptor with a count is read from its canonical text, whatever its tag, count and order. So
what any text is read as is read again from its own text, and two descriptors with the same text are
the same. -/
theorem text_canonical :
    (∀ d : Descriptor, d.count ≠ 0 → parse d.text = .ok d) ∧
      (∀ (text : String) (d : Descriptor), parse text = .ok d → parse d.text = .ok d) ∧
      ∀ d e : Descriptor, d.count ≠ 0 → e.count ≠ 0 → d.text = e.text → d = e := by
  refine ⟨fun d hd => parse_text hd, fun text d h => parse_text (count_ne_zero_of_parse h), ?_⟩
  intro d e hd he ht
  have hp : parse d.text = .ok e := by
    rw [ht]
    exact parse_text he
  rw [parse_text hd] at hp
  exact Except.ok.inj hp

/-- The greatest count behind a name that ends in digits, and an alias with its parts in the other
order. -/
theorem text_canonical_greatest :
    (⟨.uint24, 4294967295, some .little⟩ : Descriptor).count ≠ 0 ∧
      parse "UINT24[4294967295]|LE" = .ok ⟨.uint24, 4294967295, some .little⟩ ∧
      parse "short|be[3]" = .ok ⟨.int16, 3, some .big⟩ ∧
      parse "INT16[3]|BE" = .ok ⟨.int16, 3, some .big⟩ ∧
      (⟨.uint24, 4294967295, some .little⟩ : Descriptor).text
        ≠ text ⟨.uint24, 1, some .little⟩ := by
  obtain ⟨hread, hagain, hinj⟩ := text_canonical
  have hg : (⟨.uint24, 4294967295, some .little⟩ : Descriptor).count ≠ 0 := by decide
  have hs : parse "short|be[3]" = .ok ⟨.int16, 3, some .big⟩ :=
    parse_eq_ok_iff.2 (by decide)
  refine ⟨hg, ?_, hs, ?_, fun ht => ?_⟩
  · have ht : text ⟨.uint24, 4294967295, some .little⟩ = "UINT24[4294967295]|LE" := by
      simp [text, chars, Decimal.digits]
      decide
    exact ht ▸ hread _ hg
  · have ht : text ⟨.int16, 3, some .big⟩ = "INT16[3]|BE" := by
      simp [text, chars, Decimal.digits]
      decide
    exact ht ▸ hagain _ _ hs
  · have he := hinj _ _ hg (by decide) ht
    cases he

/-- A count of zero is written, but not read. -/
example : (split (chars ⟨.int8, 0, none⟩)).count = 1 := by
  simp [chars, Decimal.digits]
  decide

end Descriptor

end BinaryLayout
