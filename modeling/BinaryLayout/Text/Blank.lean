/-!
# White space

The characters with the Unicode property `White_Space`, and text with its outer white space
removed.
-/

namespace BinaryLayout

namespace Text

/-- The code points with the property `White_Space`, as closed ranges. -/
def blankRanges : List (Nat × Nat) :=
  [(0x9, 0xD), (0x20, 0x20), (0x85, 0x85), (0xA0, 0xA0), (0x1680, 0x1680), (0x2000, 0x200A),
    (0x2028, 0x2029), (0x202F, 0x202F), (0x205F, 0x205F), (0x3000, 0x3000)]

def isBlank (c : Char) : Bool :=
  blankRanges.any fun r => r.1 ≤ c.toNat && c.toNat ≤ r.2

def trimLeft (cs : List Char) : List Char := cs.dropWhile isBlank

/-- Without the white space at both ends. -/
def trim (cs : List Char) : List Char := (trimLeft (trimLeft cs).reverse).reverse

theorem takeWhile_append_trimLeft (cs : List Char) : cs.takeWhile isBlank ++ trimLeft cs = cs :=
  List.takeWhile_append_dropWhile

theorem trimLeft_append {blanks : List Char} (h : ∀ c ∈ blanks, isBlank c = true)
    (cs : List Char) : trimLeft (blanks ++ cs) = trimLeft cs :=
  List.dropWhile_append_of_pos h

theorem trimLeft_eq_self {cs : List Char} (h : ∀ c ∈ cs.head?, isBlank c = false) :
    trimLeft cs = cs := by
  cases cs with
  | nil => rfl
  | cons c cs =>
    have hc := h c rfl
    exact List.dropWhile_cons_of_neg (by simp [hc])

theorem isBlank_of_mem_head?_trimLeft {cs : List Char} {c : Char}
    (h : c ∈ (trimLeft cs).head?) : isBlank c = false := by
  have hn := List.head?_dropWhile_not isBlank cs
  rw [trimLeft, Option.mem_def] at h
  rwa [h] at hn

theorem trimLeft_trimLeft (cs : List Char) : trimLeft (trimLeft cs) = trimLeft cs :=
  trimLeft_eq_self fun _ h => isBlank_of_mem_head?_trimLeft h

theorem trim_of_not_isBlank {cs : List Char} (h : ∀ c ∈ cs, isBlank c = false) : trim cs = cs := by
  have hl : trimLeft cs = cs := trimLeft_eq_self fun c hc => h c (List.mem_of_mem_head? hc)
  have hr : trimLeft cs.reverse = cs.reverse := trimLeft_eq_self fun c hc =>
    h c (List.mem_reverse.1 (List.mem_of_mem_head? hc))
  rw [trim, hl, hr, List.reverse_reverse]

/-- What trimming takes off at the end is white space. -/
theorem exists_trimLeft_eq (cs : List Char) :
    ∃ back, trimLeft cs = trim cs ++ back ∧ ∀ c ∈ back, isBlank c = true := by
  refine ⟨((trimLeft cs).reverse.takeWhile isBlank).reverse, ?_, fun c hc => ?_⟩
  · have hs := takeWhile_append_trimLeft (trimLeft cs).reverse
    rw [trim, ← List.reverse_append, hs, List.reverse_reverse]
  · exact List.all_eq_true.1 List.all_takeWhile c (List.mem_reverse.1 hc)

theorem mem_head?_trimLeft {cs : List Char} {c : Char} (h : c ∈ (trim cs).head?) :
    c ∈ (trimLeft cs).head? := by
  obtain ⟨back, hp, -⟩ := exists_trimLeft_eq cs
  rw [hp, List.head?_append, Option.mem_def, h, Option.some_or]

theorem trim_trim (cs : List Char) : trim (trim cs) = trim cs := by
  have hl : trimLeft (trim cs) = trim cs :=
    trimLeft_eq_self fun _ hc => isBlank_of_mem_head?_trimLeft (mem_head?_trimLeft hc)
  have hr : trimLeft (trim cs).reverse = (trim cs).reverse := by
    rw [trim, List.reverse_reverse, trimLeft_trimLeft]
  rw [trim.eq_1 (trim cs), hl, hr, List.reverse_reverse]

/-- Text is its trimmed part between white space. -/
theorem exists_eq_append_trim (cs : List Char) : ∃ front back, cs = front ++ trim cs ++ back ∧
    (∀ c ∈ front, isBlank c = true) ∧ ∀ c ∈ back, isBlank c = true := by
  obtain ⟨back, hp, hb⟩ := exists_trimLeft_eq cs
  refine ⟨cs.takeWhile isBlank, back, ?_, List.all_eq_true.1 List.all_takeWhile, hb⟩
  rw [List.append_assoc, ← hp, takeWhile_append_trimLeft]

theorem trim_append {front core back : List Char} (hf : ∀ c ∈ front, isBlank c = true)
    (hc : ∀ c ∈ core, isBlank c = false) (hb : ∀ c ∈ back, isBlank c = true) (hn : core ≠ []) :
    trim (front ++ core ++ back) = core := by
  have hl : trimLeft (core ++ back) = core ++ back := by
    obtain ⟨c, cs, rfl⟩ := List.exists_cons_of_ne_nil hn
    refine trimLeft_eq_self fun d h => ?_
    cases h
    exact hc c List.mem_cons_self
  have hr : trimLeft core.reverse = core.reverse := trimLeft_eq_self fun c h =>
    hc c (List.mem_reverse.1 (List.mem_of_mem_head? h))
  rw [trim, List.append_assoc, trimLeft_append hf, hl, List.reverse_append,
    trimLeft_append fun c h => hb c (List.mem_reverse.1 h), hr, List.reverse_reverse]

example : (blankRanges.map fun r => r.2 + 1 - r.1).sum = 25 := rfl

end Text

end BinaryLayout
