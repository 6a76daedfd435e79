import Mathlib.Data.List.Basic
import Backd.CString
import Backd.Size

/-!
# Reading a Number

`atoi32` of `atoi.c`, with the `strtol` it calls for hexadecimal, octal and binary numbers.

## Conventions

`strtol` follows ISO C, for a `long` of 64 bits. Of `errno` only matters whether it is
`ERANGE`: `strtol` sets it on overflow, and nothing clears it.
-/

namespace Backd

/-! ### `strtol` -/

/-- The value of a digit or a letter as a digit; 36 for any other character. -/
def digitValue (c : CChar) : ℕ :=
  if 48 ≤ c.1 ∧ c.1 ≤ 57 then c.1.toNat - 48
  else if 97 ≤ c.1 ∧ c.1 ≤ 122 then c.1.toNat - 87
  else if 65 ≤ c.1 ∧ c.1 ≤ 90 then c.1.toNat - 55
  else 36

/-- The character is a digit of the base. -/
def isDigitOf (base : ℕ) (c : CChar) : Bool := decide (digitValue c < base)

/-- The number some digits stand for. -/
def digitsValue (base : ℕ) (digits : CStr) : ℕ :=
  digits.foldl (fun n c => n * base + digitValue c) 0

/-- An optional sign: whether it is `-`, and what follows. -/
def readSign : CStr → Bool × CStr
  | [] => (false, [])
  | c :: s => if c = dash then (true, s) else if c.1 = 43 then (false, s) else (false, c :: s)

/-- The prefix `0x` of a hexadecimal number, when a digit follows. -/
def skipPrefix (base : ℕ) : CStr → CStr
  | z :: x :: d :: s =>
    if base = 16 ∧ z.1 = 48 ∧ (x.1 = 120 ∨ x.1 = 88) ∧ isDigitOf 16 d then d :: s
    else z :: x :: d :: s
  | s => s

/-- A number, brought into the range of `long`, and whether it was outside. -/
def clampLong (v : ℤ) : ℤ × Bool :=
  if 2 ^ 63 ≤ v then (2 ^ 63 - 1, true)
  else if v < -2 ^ 63 then (-2 ^ 63, true)
  else (v, false)

/-- `strtol`: the result, `*endptr`, and whether the number is out of range. -/
def strtol (nptr : CStr) (base : ℕ) : ℤ × CStr × Bool :=
  let (negative, ptr) := readSign (skipSpace nptr)
  let ptr := skipPrefix base ptr
  let digits := ptr.takeWhile (isDigitOf base)
  if digits = [] then (0, nptr, false)
  else
    let n : ℤ := digitsValue base digits
    let (v, range) := clampLong (if negative then -n else n)
    (v, ptr.dropWhile (isDigitOf base), range)

/-! ### `atoi32` -/

/-- `while (*ptr >= '0' && *ptr <= '9')`, which gives up past `limit`: the number and the
rest. -/
def atoiLoop (limit tmp : ℤ) : CStr → Option (ℤ × CStr)
  | [] => some (tmp, [])
  | c :: ptr =>
    if isdigit c then
      let tmp := tmp * 10 + (c.1 &&& 0xcf).toNat
      if tmp > limit then none else atoiLoop limit tmp ptr
    else some (tmp, c :: ptr)

/-- The call of `strtol` for a number that begins with a zero, by the character behind it. -/
def strtolMarked (ptr : CStr) (mark : Option UInt8) : ℤ × CStr × Bool :=
  if mark = some 120 ∨ mark = some 88 then strtol ptr 16
  else if mark = some 98 ∨ mark = some 66 then strtol (ptr.drop 2) 2
  else strtol ptr 8

/-- `atoi32`: the result, `*result`, and whether `errno` is `ERANGE` afterwards. -/
def atoi32 (erange : Bool) (str : CStr) (result : Int32) : Option CStr × Int32 × Bool :=
  let negative : Bool := decide (str.head? = some dash)
  let ptr := if negative then str.tail else str
  let limit : ℤ := intMax + if negative then 1 else 0
  let done (tmp : ℤ) (ptr : CStr) (erange : Bool) : Option CStr × Int32 × Bool :=
    (some ptr, Int32.ofInt (if negative then wrapInt64 (-tmp) else tmp), erange)
  match ptr with
  | [] => (some str, result, erange)
  | c :: behind =>
    if !isdigit c then (some str, result, erange)
    else if c.1 = 48 then
      let (tmp, endptr, range) := strtolMarked ptr (behind.head?.map Subtype.val)
      let erange := erange || range
      if erange ∨ tmp > limit then (none, result, erange) else done tmp endptr erange
    else
      match atoiLoop limit 0 ptr with
      | none => (none, result, erange)
      | some (tmp, ptr) => done tmp ptr erange

/-- A pointer is returned with `errno` as it was, and `NULL` with `*result` as it was; what
was in `*result` decides nothing. -/
theorem atoi32_outcome (erange : Bool) (str : CStr) :
    (∃ ptr v, ∀ result, atoi32 erange str result = (some ptr, Option.getD v result, erange)) ∨
      ∃ erange', ∀ result, atoi32 erange str result = (none, result, erange') := by
  simp only [atoi32]
  generalize decide (str.head? = some dash) = negative
  generalize (if negative = true then str.tail else str) = ptr
  generalize (intMax : ℤ) + (if negative = true then 1 else 0) = limit
  cases ptr with
  | nil => exact .inl ⟨str, none, fun result => rfl⟩
  | cons c behind =>
      dsimp only
      by_cases hdigit : isdigit c
      · by_cases hzero : c.1 = 48
        · simp only [hdigit, hzero, Bool.not_true, Bool.false_eq_true, if_false, if_true]
          obtain ⟨tmp, endptr, range⟩ := strtolMarked (c :: behind) (behind.head?.map Subtype.val)
          dsimp only
          by_cases hfail : (erange || range) = true ∨ tmp > limit
          · simp only [if_pos hfail]
            exact .inr ⟨erange || range, fun result => rfl⟩
          · simp only [if_neg hfail]
            have hsame : (erange || range) = erange := by
              cases erange with
              | true => rfl
              | false => simpa using fun h => hfail (.inl h)
            rw [hsame]
            exact .inl ⟨endptr, some _, fun result => rfl⟩
        · simp only [hdigit, hzero, Bool.not_true, Bool.false_eq_true, if_false]
          cases atoiLoop _ 0 (c :: behind) with
          | none => exact .inr ⟨erange, fun result => rfl⟩
          | some out => exact .inl ⟨out.2, some _, fun result => rfl⟩
      · simp only [hdigit, Bool.not_false, if_true]
        exact .inl ⟨str, none, fun result => rfl⟩

end Backd
