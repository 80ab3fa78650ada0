/-
JsonLines.Number.Word — the bounds of machine words.

Counts and offsets are naturals; where a word limits them, these are the limits.
-/
namespace JsonLines.Word

/-- The number of 64-bit words: two to the power of 64. -/
def modulus : Nat := 18446744073709551616

/-- Half of the 64-bit words, the first one with the sign bit: two to the power of 63. -/
def half : Nat := 9223372036854775808

/-- Half of the 32-bit words: two to the power of 31. -/
def half32 : Nat := 2147483648

/-- The words number two for each of 64 bits. -/
theorem modulus_eq : modulus = Nat.pow 2 64 := by decide

/-- Two halves make all words. -/
theorem half_add_half : half + half = modulus := by decide

end JsonLines.Word
