import Mathlib.Data.Int.Init
import Mathlib.Tactic.Ring

/-!
# Machine Sizes

The sizes, positions and capacities of the daemon are `size_t` values. They are modelled
as naturals below `2 ^ 64`, with the arithmetic of the machine written out: `szAdd`,
`szMul` and `szSub` wrap as the C operators do. The three `SAFE_TO_*` macros of `array.h`,
on which the run-time guards rest, are stated with the same truncations as in the source
(`sizeMax / b`, `sizeMax - b`).

The lemmas say when an operation does not wrap; a guard that holds supplies their
hypotheses.
-/

namespace Backd

/-- `SIZE_MAX`. -/
def sizeMax : ℕ := 2 ^ 64 - 1

/-- `PTRDIFF_MAX`, the size of the largest object. -/
def ptrdiffMax : ℕ := 2 ^ 63 - 1

/-- `INT_MAX`. -/
def intMax : ℕ := 2 ^ 31 - 1

/-- `sizeof(void *)`. -/
def ptrSize : ℕ := 8

/-- `size_t` addition. -/
def szAdd (a b : ℕ) : ℕ := (a + b) % 2 ^ 64

/-- `size_t` multiplication. -/
def szMul (a b : ℕ) : ℕ := (a * b) % 2 ^ 64

/-- `size_t` subtraction. -/
def szSub (a b : ℕ) : ℕ := (a + (2 ^ 64 - b)) % 2 ^ 64

/-- `int64_t` arithmetic: the value of `x` as a 64-bit signed integer. -/
def wrapInt64 (x : ℤ) : ℤ := x.bmod (2 ^ 64)

/-- `SIZE_T_SAFE_TO_ADD(a, b)`: `a <= max - b`. -/
def safeToAdd (a b : ℕ) : Bool := decide (a ≤ sizeMax - b)

/-- `SIZE_T_SAFE_TO_MUL(a, b)`: `b == 0 || a <= max / b`. -/
def safeToMul (a b : ℕ) : Bool := decide (b = 0 ∨ a ≤ sizeMax / b)

/-- `SIZE_T_SAFE_TO_SUB(a, b)`: `a >= min + b`, with `min` zero. -/
def safeToSub (a b : ℕ) : Bool := decide (b ≤ a)

/-- `size_align`: round up to the machine word. The mask `~(sizeof(void *) - 1)` clears
the low three bits. -/
def sizeAlign (n : ℕ) : ℕ :=
  szSub (szAdd n ptrSize) 1 / ptrSize * ptrSize

/-! ### Operations that do not wrap -/

theorem szAdd_eq {a b : ℕ} (h : a + b ≤ sizeMax) : szAdd a b = a + b :=
  Nat.mod_eq_of_lt (by simp only [sizeMax] at h; omega)

theorem szMul_eq {a b : ℕ} (h : a * b ≤ sizeMax) : szMul a b = a * b :=
  Nat.mod_eq_of_lt (by simp only [sizeMax] at h; omega)

theorem szSub_eq {a b : ℕ} (h : b ≤ a) (ha : a ≤ sizeMax) : szSub a b = a - b := by
  simp only [szSub, sizeMax] at *
  omega

theorem wrapInt64_eq {x : ℤ} (h₁ : -2 ^ 63 ≤ x) (h₂ : x < 2 ^ 63) : wrapInt64 x = x := by
  simp only [wrapInt64, Int.bmod]
  omega

/-! ### Signed and unsigned numbers -/

/-- The value of an `int` in terms of its bits. -/
theorem int32_value (c : Int32) :
    c.toInt = if 2 * c.toUInt32.toNat < 2 ^ 32 then (c.toUInt32.toNat : ℤ)
      else (c.toUInt32.toNat : ℤ) - (2 ^ 32 : ℕ) :=
  BitVec.toInt_eq_toNat_cond c.toBitVec

/-- An `int` that is not negative has the same value as an unsigned number. -/
theorem int32_toUInt32 {c : Int32} (h : 0 ≤ c.toInt) : (c.toUInt32.toNat : ℤ) = c.toInt := by
  have hvalue := int32_value c
  have hlt := c.toUInt32.toNat_lt
  split at hvalue <;> omega

/-! ### The guard macros -/

theorem safeToAdd_iff {a b : ℕ} (hb : b ≤ sizeMax) :
    safeToAdd a b = true ↔ a + b ≤ sizeMax := by
  simp only [safeToAdd, decide_eq_true_eq]
  omega

theorem safeToMul_iff {a b : ℕ} : safeToMul a b = true ↔ a * b ≤ sizeMax := by
  simp only [safeToMul, decide_eq_true_eq]
  constructor
  · rintro (rfl | h)
    · simp
    · calc a * b ≤ sizeMax / b * b := Nat.mul_le_mul_right b h
        _ ≤ sizeMax := Nat.div_mul_le_self _ _
  · intro h
    rcases Nat.eq_zero_or_pos b with hb | hb
    · exact .inl hb
    · exact .inr ((Nat.le_div_iff_mul_le hb).mpr h)

theorem safeToSub_iff {a b : ℕ} : safeToSub a b = true ↔ b ≤ a := by
  simp [safeToSub]

/-! ### Alignment -/

/-- Rounding up covers the size, unless the size is within a word of the top, where it
wraps to zero. -/
theorem sizeAlign_cases {n : ℕ} (h : n ≤ sizeMax) :
    n ≤ sizeAlign n ∨ sizeAlign n = 0 ∧ sizeMax < n + ptrSize := by
  simp only [sizeAlign, szAdd, szSub, ptrSize, sizeMax] at *
  omega

end Backd
