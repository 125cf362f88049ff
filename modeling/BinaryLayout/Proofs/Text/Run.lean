import BinaryLayout.Text.Decimal
import BinaryLayout.Text.Blank

/-!
# Runs of characters

A run of one class of characters is taken off the front of a text up to the first character outside
the class (`takeWhile_append`, `dropWhile_append`). A class that does not tell upper from lower case
takes the same run whatever the case of its letters (`takeWhile_upper`, `dropWhile_upper`); white
space and digits are such classes (`trim_upper`, `Decimal.toNat?_upper`).
-/

namespace BinaryLayout

namespace Text

variable {p : Char → Bool} {run rest : List Char}

theorem takeWhile_append (hp : ∀ c ∈ run, p c = true) (hr : ∀ c ∈ rest.head?, p c = false) :
    (run ++ rest).takeWhile p = run := by
  rw [List.takeWhile_append_of_pos hp]
  cases rest with
  | nil => exact List.append_nil run
  | cons c cs =>
    have hc := hr c rfl
    rw [List.takeWhile_cons_of_neg (by simp [hc]), List.append_nil]

theorem dropWhile_append (hp : ∀ c ∈ run, p c = true) (hr : ∀ c ∈ rest.head?, p c = false) :
    (run ++ rest).dropWhile p = rest := by
  rw [List.dropWhile_append_of_pos hp]
  cases rest with
  | nil => rfl
  | cons c cs =>
    have hc := hr c rfl
    exact List.dropWhile_cons_of_neg (by simp [hc])

/-! ## The case of letters -/

/-- With every ASCII letter in upper case. -/
def upper (cs : List Char) : List Char := cs.map Char.toUpper

theorem toUpper_of_le {c : Char} (h : 128 ≤ c.toNat) : c.toUpper = c := by
  have hz : ¬c.val ≤ 'z'.val := by
    rw [UInt32.le_iff_toNat_le]
    exact Nat.not_le.2 (Nat.lt_of_lt_of_le (by decide) h)
  exact dif_neg fun hc => hz hc.2

/-- What does not tell upper from lower case among the ASCII characters never does. -/
theorem apply_toUpper {α : Type} (f : Char → α)
    (h : ∀ n : Fin 128, f (Char.ofNat n).toUpper = f (Char.ofNat n)) (c : Char) :
    f c.toUpper = f c := by
  rcases Nat.lt_or_ge c.toNat 128 with hlt | hle
  · have hc := h ⟨c.toNat, hlt⟩
    rwa [Char.ofNat_toNat] at hc
  · rw [toUpper_of_le hle]

theorem toUpper_toUpper (c : Char) : c.toUpper.toUpper = c.toUpper :=
  apply_toUpper Char.toUpper (by decide) c

theorem upper_upper (cs : List Char) : upper (upper cs) = upper cs := by
  rw [upper, upper, List.map_map]
  exact List.map_congr_left fun c _ => toUpper_toUpper c

@[simp] theorem upper_nil : upper [] = [] := rfl

@[simp] theorem upper_cons (c : Char) (cs : List Char) : upper (c :: cs) = c.toUpper :: upper cs :=
  rfl

theorem takeWhile_upper (hp : ∀ c, p c.toUpper = p c) (cs : List Char) :
    (upper cs).takeWhile p = upper (cs.takeWhile p) := by
  have hc : p ∘ Char.toUpper = p := funext hp
  rw [upper, List.takeWhile_map, hc, upper]

theorem dropWhile_upper (hp : ∀ c, p c.toUpper = p c) (cs : List Char) :
    (upper cs).dropWhile p = upper (cs.dropWhile p) := by
  have hc : p ∘ Char.toUpper = p := funext hp
  rw [upper, List.dropWhile_map, hc, upper]

theorem trimLeft_upper (cs : List Char) : trimLeft (upper cs) = upper (trimLeft cs) :=
  dropWhile_upper (apply_toUpper isBlank (by decide)) cs

theorem trim_upper (cs : List Char) : trim (upper cs) = upper (trim cs) := by
  have hr : ∀ ds, (upper ds).reverse = upper ds.reverse := fun ds => List.map_reverse.symm
  rw [trim, trimLeft_upper, hr, trimLeft_upper, hr, trim]

theorem toUpper_of_isDigit {c : Char} (h : c.isDigit = true) : c.toUpper = c := by
  have hd := apply_toUpper (fun c => !c.isDigit || c.toUpper == c) (by decide) c
  simp only [h, Bool.not_true, Bool.false_or, toUpper_toUpper, beq_self_eq_true, Bool.or_true] at hd
  exact beq_iff_eq.1 hd.symm

end Text

theorem Decimal.toNat?_upper (cs : List Char) : toNat? (Text.upper cs) = toNat? cs := by
  have hd : Char.isDigit ∘ Char.toUpper = Char.isDigit :=
    funext (Text.apply_toUpper Char.isDigit (by decide))
  have ha : (Text.upper cs).all Char.isDigit = cs.all Char.isDigit := by
    rw [Text.upper, List.all_map, hd]
  have he : (Text.upper cs).isEmpty = cs.isEmpty := List.isEmpty_map
  rw [toNat?, ha, he, toNat?]
  by_cases h : cs.all Char.isDigit = true
  · have hu : Text.upper cs = id cs := by
      rw [Text.upper, List.map_congr_left fun c hc =>
        Text.toUpper_of_isDigit (List.all_eq_true.1 h c hc)]
      exact List.map_id cs
    rw [hu, id]
  · simp [h]

end BinaryLayout
