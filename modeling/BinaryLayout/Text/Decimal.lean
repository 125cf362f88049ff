/-!
# Decimal text

Numbers written in decimal without leading zeros, and digit strings read back.
-/

namespace BinaryLayout

namespace Decimal

def digit (n : Nat) : Char := Char.ofNat (48 + n)

def digit? (c : Char) : Option Nat := if c.isDigit then some (c.toNat - 48) else none

/-- The decimal digits of `n`; zero has one digit. -/
def digits (n : Nat) : List Char :=
  if n < 10 then [digit n] else digits (n / 10) ++ [digit (n % 10)]
termination_by n

/-- The number a run of digits writes; zero for none. -/
def value (cs : List Char) : Nat :=
  cs.foldl (fun n c => 10 * n + (c.toNat - 48)) 0

def ofNat (n : Nat) : String := String.ofList (digits n)

def ofInt : Int → String
  | .ofNat n => ofNat n
  | .negSucc n => String.ofList ('-' :: digits (n + 1))

/-- Reads one or more digits and nothing else. -/
def toNat? (cs : List Char) : Option Nat :=
  if cs.isEmpty then none else if cs.all Char.isDigit then some (value cs) else none

/-- Reads digits behind an optional minus sign. -/
def toInt? : List Char → Option Int
  | '-' :: cs => (toNat? cs).map fun n => -(n : Int)
  | cs => (toNat? cs).map Int.ofNat

theorem digit_spec {n : Nat} (h : n < 10) :
    (digit n).isDigit = true ∧ (digit n).toNat - 48 = n := by
  have : ∀ n : Fin 10, (digit n).isDigit = true ∧ (digit n).toNat - 48 = n := by decide
  exact this ⟨n, h⟩

theorem isDigit_of_mem_digits {n : Nat} {c : Char} (h : c ∈ digits n) : c.isDigit = true := by
  fun_induction digits n with
  | case1 n hn =>
    rw [List.mem_singleton.1 h]
    exact (digit_spec hn).1
  | case2 n hn ih =>
    rcases List.mem_append.1 h with h | h
    · exact ih h
    · rw [List.mem_singleton.1 h]
      exact (digit_spec (Nat.mod_lt _ (by decide))).1

theorem value_digits (n : Nat) : value (digits n) = n := by
  fun_induction digits n with
  | case1 n hn => simpa [value] using (digit_spec hn).2
  | case2 n hn ih =>
    rw [value, List.foldl_append]
    show 10 * value (digits (n / 10)) + _ = n
    rw [ih, (digit_spec (Nat.mod_lt _ (by decide))).2]
    omega

theorem digits_ne_nil (n : Nat) : digits n ≠ [] := by
  fun_cases digits n <;> simp

theorem toNat?_digits (n : Nat) : toNat? (digits n) = some n := by
  have hall : (digits n).all Char.isDigit = true :=
    List.all_eq_true.2 fun _ h => isDigit_of_mem_digits h
  rw [toNat?, if_neg (by simp [digits_ne_nil]), if_pos hall, value_digits]

theorem head_digits_ne_zero {n : Nat} (h : n ≠ 0) : (digits n).head? ≠ some '0' := by
  fun_induction digits n with
  | case1 n hn =>
    have hd : ∀ n : Fin 10, n.val ≠ 0 → some (digit n) ≠ some '0' := by decide
    exact hd ⟨n, hn⟩ h
  | case2 n hn ih =>
    rw [List.head?_append, Option.or_of_isSome (by simp [digits_ne_nil])]
    exact ih (by omega)

/-- Only zero has a leading zero. -/
theorem digits_ne_zero_cons (n : Nat) {d : Char} {ds : List Char} :
    digits n ≠ '0' :: d :: ds := by
  intro h
  rcases Nat.eq_zero_or_pos n with rfl | hn
  · rw [digits] at h
    simp at h
  · refine head_digits_ne_zero (Nat.pos_iff_ne_zero.1 hn) ?_
    rw [h]
    rfl

end Decimal

end BinaryLayout
