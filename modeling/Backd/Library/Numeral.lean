import Mathlib.Data.Nat.Digits.Lemmas

/-!
# Numerals

The digits of a number in a base, the most significant first, as numerals are written. A
printer finds them from the other end: it takes the last digit off, until nothing is left,
and fills a buffer from the back.

## Main results

* `places_step`: the last digit, and the digits in front of it.
* `length_places_le`: how many digits a bounded number has.
* `value_numeral`: a reader that takes the digits in from the front gets the number back.
-/

namespace Numeral

variable {b n : ℕ}

/-- The digits of `n` in base `b`, the most significant first; none for zero. -/
def places (b n : ℕ) : List ℕ := (Nat.digits b n).reverse

/-- The numeral of `n` in base `b`. -/
def numeral (b n : ℕ) : List ℕ := if n = 0 then [0] else places b n

@[simp] theorem places_zero : places b 0 = [] := by simp [places]

/-- The last digit, and the digits in front of it. -/
theorem places_step (hb : 1 < b) (hn : n ≠ 0) : places b n = places b (n / b) ++ [n % b] := by
  rw [places, Nat.digits_def' hb (Nat.pos_of_ne_zero hn), List.reverse_cons, places]

/-- A number below `b ^ k` has at most `k` digits. -/
theorem length_places_le (hb : 1 < b) {k : ℕ} (h : n < b ^ k) : (places b n).length ≤ k := by
  rw [places, List.length_reverse]
  exact (Nat.digits_length_le_iff hb n).mpr h

/-- The number some digits stand for, read from the front. -/
def value (b : ℕ) (ds : List ℕ) : ℕ := ds.foldl (fun n d => n * b + d) 0

/-- Reading the digits of a number gives it back. -/
theorem value_places (b n : ℕ) : value b (places b n) = n := by
  rw [value, places, List.foldl_reverse]
  calc (Nat.digits b n).foldr (fun d n => n * b + d) 0
      = (Nat.digits b n).foldr (fun d n => d + b * n) 0 := by simp only [Nat.mul_comm, Nat.add_comm]
    _ = Nat.ofDigits b (Nat.digits b n) := (Nat.ofDigits_eq_foldr b _).symm
    _ = n := Nat.ofDigits_digits b n

/-- Reading a numeral gives the number back. -/
theorem value_numeral (b n : ℕ) : value b (numeral b n) = n := by
  rw [numeral]
  split
  · next h => simp [value, h]
  · exact value_places b n

/-- The digits of a numeral are below the base. -/
theorem lt_of_mem_numeral (hb : 1 < b) {d : ℕ} (h : d ∈ numeral b n) : d < b := by
  rw [numeral] at h
  split at h
  · rw [List.mem_singleton.mp h]
    exact Nat.zero_lt_of_lt hb
  · exact Nat.digits_lt_base hb (List.mem_reverse.mp h)

/-- A numeral of a number other than zero begins with a digit other than zero. -/
theorem numeral_cons (hn : n ≠ 0) : ∃ d ds, numeral b n = d :: ds ∧ d ≠ 0 := by
  have hne : Nat.digits b n ≠ [] := Nat.digits_ne_nil_iff_ne_zero.mpr hn
  refine ⟨(Nat.digits b n).getLast hne, (Nat.digits b n).dropLast.reverse, ?_,
    Nat.getLast_digit_ne_zero b hn⟩
  rw [numeral, if_neg hn, places]
  conv_lhs => rw [← List.dropLast_append_getLast hne]
  rw [List.reverse_append]
  rfl

/-- A numeral has a digit. -/
theorem numeral_ne_nil (b n : ℕ) : numeral b n ≠ [] := by
  by_cases hn : n = 0
  · rw [numeral, if_pos hn]
    exact List.cons_ne_nil _ _
  · obtain ⟨d, ds, hds, -⟩ := numeral_cons (b := b) hn
    rw [hds]
    exact List.cons_ne_nil d ds

end Numeral
