/-!
# Powers of two

Words, significands and buffers are bounded by powers of two and of 256. Powers with a natural
exponent are those of the core library in all modules, also where an import has another instance
for them, so that the same bound is the same term everywhere.
-/

attribute [default_instance 10100, instance(1100)] instPowNat

namespace BinaryLayout

theorem pow_width (width : Nat) : 256 ^ width = 2 ^ (8 * width) := by
  rw [Nat.pow_mul]

theorem pow_dvd_word {width : Nat} (h : width ≤ 8) : 256 ^ width ∣ 2 ^ 64 :=
  Nat.pow_dvd_pow 256 h

end BinaryLayout
