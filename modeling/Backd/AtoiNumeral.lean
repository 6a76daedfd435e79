import Mathlib.Data.List.TakeWhile
import Backd.Atoi

/-!
# Numerals

What `atoi32` is meant to read: an optional `-`, and a magnitude in one of four notations.
`IsNumeral` is the grammar of whole strings; `leading` is the reader that goes with it, which
takes the longest numeral a string begins with.

`atoi32` reads decimal numerals itself and leaves the other notations to `strtol`, which has
rules of its own: it skips blanks and a sign, it takes no digits at all for a number zero, and
it reports an overflow through `errno`, which `atoi32` tests but never resets. For a numeral
that begins with a zero `atoi32` therefore fails whenever `errno` was `ERANGE` before; and
behind `0b`, which `atoi32` skips itself, it accepts what `strtol` accepts.

## Main results

* `isNumeral_iff`: the grammar and the reader agree.
* `atoi32_cases`: what `atoi32` does, by what the string begins with.
* `atoi32_reads_iff`: `atoi32` accepts exactly the numerals in range as a whole, unless `errno`
  or a stray `0b` is in the way.
-/

namespace Backd

/-! ### Digits -/

/-- The character `0`. -/
def digitZero : CChar := ⟨48, by decide⟩

theorem isDigitOf_iff {base : ℕ} {c : CChar} : isDigitOf base c = true ↔ digitValue c < base :=
  decide_eq_true_iff

/-- A zero is a digit of every base. -/
theorem isDigitOf_digitZero {base : ℕ} (hbase : 0 < base) : isDigitOf base digitZero = true :=
  isDigitOf_iff.mpr hbase

theorem digitValue_alnum {c : CChar} (h : digitValue c < 36) : 48 ≤ c.1.toNat := by
  unfold digitValue at h
  simp only [UInt8.le_iff_toNat_le, UInt8.reduceToNat] at h
  split_ifs at h <;> omega

/-- A digit is neither a blank nor a sign. -/
theorem digit_not_skipped {base : ℕ} {c : CChar} (hbase : base ≤ 36)
    (h : isDigitOf base c = true) : isspace c = false ∧ c ≠ dash ∧ c.1 ≠ 43 := by
  have hcode : 48 ≤ c.1.toNat := digitValue_alnum (lt_of_lt_of_le (isDigitOf_iff.mp h) hbase)
  refine ⟨?_, ?_, ?_⟩
  · simp only [isspace, UInt8.le_iff_toNat_le, ← UInt8.toNat_inj, UInt8.reduceToNat,
      decide_eq_false_iff_not]
    omega
  · rintro rfl
    exact absurd hcode (by decide)
  · intro hplus
    rw [hplus] at hcode
    exact absurd hcode (by decide)

/-- `*ptr & 0xcf`, where it is a digit. -/
theorem decimal_digit {c : CChar} (h : isdigit c = true) :
    (c.1 &&& 0xcf).toNat = digitValue c := by
  have hall : ∀ n < 10, ((UInt8.ofNat (48 + n)) &&& 0xcf).toNat = n := by decide
  have h : 48 ≤ c.1 ∧ c.1 ≤ 57 := of_decide_eq_true h
  have hval : digitValue c = c.1.toNat - 48 := if_pos h
  simp only [UInt8.le_iff_toNat_le, UInt8.reduceToNat] at h
  have hc : c.1 = UInt8.ofNat (48 + (c.1.toNat - 48)) := by
    rw [Nat.add_sub_cancel' h.1, UInt8.ofNat_toNat]
  rw [hc, hall _ (by omega), hval]

theorem isDigitOf_ten (c : CChar) : isDigitOf 10 c = isdigit c := by
  simp only [isDigitOf, isdigit, digitValue, UInt8.le_iff_toNat_le, UInt8.reduceToNat]
  have := c.1.toNat_lt
  congr 1
  simp only [eq_iff_iff]
  split_ifs <;> omega

/-- The number the digits at the beginning of a string stand for, and what is behind them. -/
def readDigits (base : ℕ) (s : CStr) : ℕ × CStr :=
  (digitsValue base (s.takeWhile (isDigitOf base)), s.dropWhile (isDigitOf base))

/-- Nothing is left behind the digits exactly when all characters are. -/
theorem readDigits_eq_nil {base n : ℕ} {s : CStr} :
    readDigits base s = (n, []) ↔ (∀ c ∈ s, isDigitOf base c = true) ∧ digitsValue base s = n := by
  constructor
  · intro h
    obtain ⟨hvalue, hrest⟩ := Prod.mk.inj h
    have hall := List.dropWhile_eq_nil_iff.mp hrest
    rw [List.takeWhile_eq_self_iff.mpr hall] at hvalue
    exact ⟨hall, hvalue⟩
  · rintro ⟨hall, rfl⟩
    rw [readDigits, List.takeWhile_eq_self_iff.mpr hall, List.dropWhile_eq_nil_iff.mpr hall]

/-! ### The grammar -/

/-- The letters that mark a hexadecimal numeral. -/
def hexMark (c : CChar) : Bool := decide (c.1 = 120 ∨ c.1 = 88)

/-- The letters that mark a binary numeral. -/
def binaryMark (c : CChar) : Bool := decide (c.1 = 98 ∨ c.1 = 66)

theorem hexMark_iff {c : CChar} : hexMark c = true ↔ c.1 = 120 ∨ c.1 = 88 := decide_eq_true_iff

theorem binaryMark_iff {c : CChar} : binaryMark c = true ↔ c.1 = 98 ∨ c.1 = 66 :=
  decide_eq_true_iff

/-- The string is a numeral without a sign, of the given value: decimal without a leading
zero; `0x` or `0X` and hexadecimal digits; `0b` or `0B` and binary digits; or a zero and
octal digits. -/
inductive Magnitude : CStr → ℕ → Prop
  | decimal {c : CChar} {ds : CStr} (hc : c ≠ digitZero)
      (hds : ∀ d ∈ c :: ds, isDigitOf 10 d = true) :
      Magnitude (c :: ds) (digitsValue 10 (c :: ds))
  | hex {x d : CChar} {ds : CStr} (hx : hexMark x = true)
      (hds : ∀ e ∈ d :: ds, isDigitOf 16 e = true) :
      Magnitude (digitZero :: x :: d :: ds) (digitsValue 16 (d :: ds))
  | binary {x d : CChar} {ds : CStr} (hx : binaryMark x = true)
      (hds : ∀ e ∈ d :: ds, isDigitOf 2 e = true) :
      Magnitude (digitZero :: x :: d :: ds) (digitsValue 2 (d :: ds))
  | octal {ds : CStr} (hds : ∀ d ∈ ds, isDigitOf 8 d = true) :
      Magnitude (digitZero :: ds) (digitsValue 8 ds)

/-- The string is a numeral with an optional `-`, of the given value. -/
inductive IsNumeral : CStr → ℤ → Prop
  | plain {s : CStr} {n : ℕ} (h : Magnitude s n) : IsNumeral s n
  | minus {s : CStr} {n : ℕ} (h : Magnitude s n) : IsNumeral (dash :: s) (-n)

/-! ### The reader -/

/-- The string begins with the mark of a notation and a digit of its base. -/
def marked (mark : CChar → Bool) (base : ℕ) : CStr → Bool
  | x :: d :: _ => mark x && isDigitOf base d
  | _ => false

theorem exists_of_marked {mark : CChar → Bool} {base : ℕ} {s : CStr}
    (h : marked mark base s = true) :
    ∃ x d ds, s = x :: d :: ds ∧ mark x = true ∧ isDigitOf base d = true := by
  rcases s with _ | ⟨x, _ | ⟨d, ds⟩⟩
  · cases h
  · cases h
  · obtain ⟨hx, hd⟩ := Bool.and_eq_true_iff.mp h
    exact ⟨x, d, ds, rfl, hx, hd⟩

/-- The longest numeral without a sign that a string begins with: its value, and what is
behind it. -/
def leadingNat : CStr → Option (ℕ × CStr)
  | [] => none
  | c :: s =>
    if c = digitZero then
      if marked hexMark 16 s then some (readDigits 16 s.tail)
      else if marked binaryMark 2 s then some (readDigits 2 s.tail)
      else some (readDigits 8 s)
    else if isDigitOf 10 c then some (readDigits 10 (c :: s))
    else none

/-- The string begins with `-`. -/
def isNegative (str : CStr) : Bool := decide (str.head? = some dash)

theorem exists_of_isNegative {str : CStr} (h : isNegative str = true) :
    ∃ s, str = dash :: s :=
  List.head?_eq_some_iff.mp (decide_eq_true_iff.mp h)

/-- The string without the `-` it may begin with. -/
def magnitudeOf (str : CStr) : CStr := if isNegative str then str.tail else str

/-- A number with the sign of a string. -/
def signed (negative : Bool) (n : ℕ) : ℤ := if negative then -n else n

/-- The longest numeral a string begins with: its value, and what is behind it. -/
def leading (str : CStr) : Option (ℤ × CStr) :=
  (leadingNat (magnitudeOf str)).map fun (n, rest) => (signed (isNegative str) n, rest)

/-- The digit `x` would be. -/
theorem digitValue_hexMark {x : CChar} (hx : hexMark x = true) : digitValue x = 33 := by
  rcases hexMark_iff.mp hx with hmark | hmark <;> simp [digitValue, hmark]

/-- The digit `b` would be. -/
theorem digitValue_binaryMark {x : CChar} (hx : binaryMark x = true) : digitValue x = 11 := by
  rcases binaryMark_iff.mp hx with hmark | hmark <;> simp [digitValue, hmark]

/-- The marks are no octal digits. -/
theorem mark_not_octal {x : CChar} (hx : isDigitOf 8 x = true) :
    hexMark x = false ∧ binaryMark x = false := by
  have hlt := isDigitOf_iff.mp hx
  constructor
  · refine Bool.eq_false_iff.mpr fun hmark => ?_
    rw [digitValue_hexMark hmark] at hlt
    omega
  · refine Bool.eq_false_iff.mpr fun hmark => ?_
    rw [digitValue_binaryMark hmark] at hlt
    omega

/-- The marks differ. -/
theorem hexMark_of_binaryMark {x : CChar} (hx : binaryMark x = true) : hexMark x = false := by
  refine Bool.eq_false_iff.mpr fun hmark => ?_
  have hvalue := digitValue_hexMark hmark
  rw [digitValue_binaryMark hx] at hvalue
  omega

theorem mark_of_marked {mark : CChar → Bool} {base : ℕ} {x : CChar} {s : CStr}
    (h : marked mark base (x :: s) = true) : mark x = true := by
  obtain ⟨y, _, _, hs, hy, -⟩ := exists_of_marked h
  rwa [(List.cons.inj hs).1]

/-- Octal digits carry no mark. -/
theorem marked_octal {ds : CStr} (h : ∀ d ∈ ds, isDigitOf 8 d = true) :
    marked hexMark 16 ds = false ∧ marked binaryMark 2 ds = false := by
  rcases ds with _ | ⟨x, _ | ⟨d, ds⟩⟩
  · exact ⟨rfl, rfl⟩
  · exact ⟨rfl, rfl⟩
  · obtain ⟨hhex, hbinary⟩ := mark_not_octal (h x (by simp))
    simp [marked, hhex, hbinary]

/-- The grammar and the reader agree on magnitudes. -/
theorem magnitude_iff {s : CStr} {n : ℕ} : Magnitude s n ↔ leadingNat s = some (n, []) := by
  constructor
  · intro h
    cases h with
    | decimal hc hds =>
        rw [leadingNat, if_neg hc, if_pos (hds _ (by simp)), readDigits_eq_nil.mpr ⟨hds, rfl⟩]
    | @hex x d ds hx hds =>
        have hmarked : marked hexMark 16 (x :: d :: ds) = true := by
          simp [marked, hx, hds d]
        rw [leadingNat, if_pos rfl, if_pos hmarked, List.tail_cons,
          readDigits_eq_nil.mpr ⟨hds, rfl⟩]
    | @binary x d ds hx hds =>
        have hhex : ¬ marked hexMark 16 (x :: d :: ds) = true := by
          simp [marked, hexMark_of_binaryMark hx]
        have hmarked : marked binaryMark 2 (x :: d :: ds) = true := by
          simp [marked, hx, hds d]
        rw [leadingNat, if_pos rfl, if_neg hhex, if_pos hmarked, List.tail_cons,
          readDigits_eq_nil.mpr ⟨hds, rfl⟩]
    | octal hds =>
        obtain ⟨hhex, hbinary⟩ := marked_octal hds
        rw [leadingNat, if_pos rfl, if_neg (by simp [hhex]), if_neg (by simp [hbinary]),
          readDigits_eq_nil.mpr ⟨hds, rfl⟩]
  · intro h
    rcases s with _ | ⟨c, s⟩
    · cases h
    rw [leadingNat] at h
    split at h
    · next hzero =>
        subst hzero
        split at h
        · next hmarked =>
            obtain ⟨x, d, ds, rfl, hx, -⟩ := exists_of_marked hmarked
            obtain ⟨hds, rfl⟩ := readDigits_eq_nil.mp (Option.some.inj h)
            exact .hex hx hds
        split at h
        · next hmarked =>
            obtain ⟨x, d, ds, rfl, hx, -⟩ := exists_of_marked hmarked
            obtain ⟨hds, rfl⟩ := readDigits_eq_nil.mp (Option.some.inj h)
            exact .binary hx hds
        · obtain ⟨hds, rfl⟩ := readDigits_eq_nil.mp (Option.some.inj h)
          exact .octal hds
    · next hzero =>
        split at h
        · obtain ⟨hds, rfl⟩ := readDigits_eq_nil.mp (Option.some.inj h)
          exact .decimal hzero hds
        · cases h

/-- A magnitude begins with a digit. -/
theorem leadingNat_dash (s : CStr) : leadingNat (dash :: s) = none := by
  rw [leadingNat, if_neg (by decide), if_neg (by decide)]

/-- **The grammar and the reader agree**: a numeral is a string that begins with a numeral,
with nothing behind it. -/
theorem isNumeral_iff {str : CStr} {v : ℤ} : IsNumeral str v ↔ leading str = some (v, []) := by
  constructor
  · intro h
    cases h with
    | @plain _ n h =>
        have hread := magnitude_iff.mp h
        have hplain : isNegative str = false := by
          refine Bool.eq_false_iff.mpr fun hdash => ?_
          obtain ⟨s, rfl⟩ := exists_of_isNegative hdash
          rw [leadingNat_dash] at hread
          cases hread
        simp [leading, magnitudeOf, hplain, hread, signed]
    | @minus s n h =>
        have hminus : isNegative (dash :: s) = true := by simp [isNegative]
        simp [leading, magnitudeOf, hminus, magnitude_iff.mp h, signed]
  · intro h
    obtain ⟨⟨n, rest⟩, hread, hout⟩ := Option.map_eq_some_iff.mp h
    obtain ⟨rfl, rfl⟩ := Prod.mk.inj hout
    by_cases hneg : isNegative str = true
    · obtain ⟨s, rfl⟩ := exists_of_isNegative hneg
      rw [magnitudeOf, if_pos hneg, List.tail_cons] at hread
      rw [signed, if_pos hneg]
      exact .minus (magnitude_iff.mpr hread)
    · rw [magnitudeOf, if_neg hneg] at hread
      rw [signed, if_neg hneg]
      exact .plain (magnitude_iff.mpr hread)

/-! ### The digit loop -/

/-- The number some digits stand for behind a number that is read already. -/
def digitsFrom (base n : ℕ) (digits : CStr) : ℕ :=
  digits.foldl (fun n c => n * base + digitValue c) n

/-- More digits never make a number smaller. -/
theorem le_digitsFrom {base : ℕ} (hbase : 0 < base) (digits : CStr) :
    ∀ n : ℕ, n ≤ digitsFrom base n digits := by
  induction digits with
  | nil => exact fun n => le_rfl
  | cons d digits ih =>
      intro n
      calc n ≤ n * base := Nat.le_mul_of_pos_right n hbase
        _ ≤ n * base + digitValue d := Nat.le_add_right _ _
        _ ≤ digitsFrom base n (d :: digits) := ih _

/-- The loop reads all digits, and gives up exactly when their number is above the limit: what
it has read of a number is never more than the number. -/
theorem atoiLoop_eq {limit : ℤ} (s : CStr) :
    ∀ n : ℕ, (n : ℤ) ≤ limit →
      atoiLoop limit n s =
        if limit < digitsFrom 10 n (s.takeWhile isdigit) then none
        else some (((digitsFrom 10 n (s.takeWhile isdigit) : ℕ) : ℤ), s.dropWhile isdigit) := by
  induction s with
  | nil =>
      intro n hn
      rw [atoiLoop, List.takeWhile_nil, List.dropWhile_nil]
      exact (if_neg hn.not_gt).symm
  | cons c s ih =>
      intro n hn
      rw [atoiLoop]
      by_cases hdigit : isdigit c = true
      · rw [if_pos hdigit, List.takeWhile_cons_of_pos hdigit, List.dropWhile_cons_of_pos hdigit,
          decimal_digit hdigit]
        have hstep : digitsFrom 10 n (c :: s.takeWhile isdigit)
            = digitsFrom 10 (n * 10 + digitValue c) (s.takeWhile isdigit) := rfl
        have hcast : (n : ℤ) * 10 + (digitValue c : ℕ) = ((n * 10 + digitValue c : ℕ) : ℤ) := by
          push_cast
          rfl
        rw [hstep, hcast]
        by_cases hover : limit < ((n * 10 + digitValue c : ℕ) : ℤ)
        · have hmore : n * 10 + digitValue c ≤ _ :=
            le_digitsFrom (by omega : 0 < 10) (s.takeWhile isdigit) _
          rw [if_pos hover, if_pos (hover.trans_le (Int.ofNat_le.mpr hmore))]
        · rw [if_neg hover, ih _ (not_lt.mp hover)]
      · rw [if_neg hdigit, List.takeWhile_cons_of_neg hdigit, List.dropWhile_cons_of_neg hdigit]
        exact (if_neg hn.not_gt).symm

/-! ### `strtol` on digits -/

/-- `strtol` of a string that begins with a digit skips nothing in front of it. -/
theorem strtol_of_digit {base : ℕ} {d : CChar} {s : CStr} (hbase : base ≤ 36)
    (hd : isDigitOf base d = true)
    (hp : (skipPrefix base (d :: s)).takeWhile (isDigitOf base) ≠ []) :
    strtol (d :: s) base =
      ((clampLong (readDigits base (skipPrefix base (d :: s))).1).1,
        (readDigits base (skipPrefix base (d :: s))).2,
        (clampLong (readDigits base (skipPrefix base (d :: s))).1).2) := by
  obtain ⟨hspace, hdash, hplus⟩ := digit_not_skipped hbase hd
  have hskip : skipSpace (d :: s) = d :: s := List.dropWhile_cons_of_neg (by simp [hspace])
  have hsign : readSign (d :: s) = (false, d :: s) := by
    rw [readSign, if_neg hdash, if_neg hplus]
  simp only [strtol, hskip, hsign, if_neg hp, Bool.false_eq_true, if_false, readDigits]

/-- Only a hexadecimal number has a prefix. -/
theorem skipPrefix_of_ne {base : ℕ} (hbase : base ≠ 16) (s : CStr) : skipPrefix base s = s := by
  unfold skipPrefix
  split
  · rw [if_neg (fun h => hbase h.1)]
  · rfl

/-- A zero in front of a number changes nothing. -/
theorem readDigits_zero {base : ℕ} (hbase : 0 < base) (s : CStr) :
    readDigits base (digitZero :: s) = readDigits base s := by
  have hzero := isDigitOf_digitZero hbase
  simp only [readDigits, List.takeWhile_cons_of_pos hzero, List.dropWhile_cons_of_pos hzero,
    digitsValue, List.foldl_cons, Nat.zero_mul]
  rfl

/-- What does not begin with a digit has no digits to read. -/
theorem readDigits_of_not {base : ℕ} {c : CChar} {s : CStr} (hc : isDigitOf base c = false) :
    readDigits base (c :: s) = (0, c :: s) := by
  have hc : ¬ isDigitOf base c = true := by simp [hc]
  simp only [readDigits, List.takeWhile_cons_of_neg hc, List.dropWhile_cons_of_neg hc]
  rfl

/-- `strtol` of a zero and whatever is behind it, where there is no prefix to skip. -/
theorem strtol_zero {base : ℕ} {s : CStr} (hbase : 0 < base ∧ base ≤ 36)
    (hnone : skipPrefix base (digitZero :: s) = digitZero :: s) :
    strtol (digitZero :: s) base =
      ((clampLong (readDigits base s).1).1, (readDigits base s).2,
        (clampLong (readDigits base s).1).2) := by
  have hzero := isDigitOf_digitZero hbase.1
  have hp : (skipPrefix base (digitZero :: s)).takeWhile (isDigitOf base) ≠ [] := by
    rw [hnone, List.takeWhile_cons_of_pos hzero]
    simp
  rw [strtol_of_digit hbase.2 hzero hp, hnone, readDigits_zero hbase.1]

/-- `0b` or `0B` with something else than a binary digit behind it. -/
def strayMark : CStr → Bool
  | [] => false
  | x :: s => binaryMark x && !s.head?.any (isDigitOf 2)

/-- Base sixteen, for a zero and the mark of a hexadecimal number: without a digit behind the
mark only the zero is read. -/
theorem strtol_hex {x : CChar} {t rest : CStr} {n : ℕ} (hx : hexMark x = true)
    (hread : leadingNat (digitZero :: x :: t) = some (n, rest)) :
    strtol (digitZero :: x :: t) 16 = ((clampLong n).1, rest, (clampLong n).2) := by
  rw [leadingNat, if_pos rfl] at hread
  by_cases hmarked : marked hexMark 16 (x :: t) = true
  · obtain ⟨x, d, ds, hs, -, hd⟩ := exists_of_marked hmarked
    obtain ⟨rfl, rfl⟩ := List.cons.inj hs
    rw [if_pos hmarked, List.tail_cons] at hread
    have hskip : skipPrefix 16 (digitZero :: x :: d :: ds) = d :: ds :=
      if_pos ⟨rfl, rfl, hexMark_iff.mp hx, hd⟩
    have hdigit : isDigitOf 16 digitZero = true := isDigitOf_digitZero (by omega)
    rw [strtol_of_digit (by omega) hdigit (by rw [hskip]; simp [hd]), hskip,
      Option.some.inj hread]
  · have hskip : skipPrefix 16 (digitZero :: x :: t) = digitZero :: x :: t := by
      rcases t with _ | ⟨d, ds⟩
      · rfl
      · refine if_neg fun hmark => hmarked ?_
        exact Bool.and_eq_true_iff.mpr ⟨hx, hmark.2.2.2⟩
    have hbinary : ¬ marked binaryMark 2 (x :: t) = true := fun hmark => by
      rw [hexMark_of_binaryMark (mark_of_marked hmark)] at hx
      cases hx
    have hdigit : ∀ base ≤ 33, isDigitOf base x = false := fun base hbase =>
      decide_eq_false (by rw [digitValue_hexMark hx]; omega)
    rw [if_neg hmarked, if_neg hbinary, readDigits_of_not (hdigit 8 (by omega))] at hread
    rw [strtol_zero (by omega) hskip, readDigits_of_not (hdigit 16 (by omega))]
    obtain ⟨rfl, rfl⟩ := Prod.mk.inj (Option.some.inj hread)
    rfl

/-- Base two, for what is behind the mark of a binary number that is not a stray one. -/
theorem strtol_binary {x : CChar} {t rest : CStr} {n : ℕ} (hx : binaryMark x = true)
    (hstray : strayMark (x :: t) = false)
    (hread : leadingNat (digitZero :: x :: t) = some (n, rest)) :
    strtol t 2 = ((clampLong n).1, rest, (clampLong n).2) := by
  rcases t with _ | ⟨d, ds⟩
  · simp [strayMark, hx] at hstray
  have hd : isDigitOf 2 d = true := by simpa [strayMark, hx] using hstray
  have hhex : ¬ marked hexMark 16 (x :: d :: ds) = true := fun hmark => by
    have hno := hexMark_of_binaryMark hx
    rw [mark_of_marked hmark] at hno
    cases hno
  have hmarked : marked binaryMark 2 (x :: d :: ds) = true :=
    Bool.and_eq_true_iff.mpr ⟨hx, hd⟩
  have hskip : skipPrefix 2 (d :: ds) = d :: ds := skipPrefix_of_ne (by omega) _
  rw [leadingNat, if_pos rfl, if_neg hhex, if_pos hmarked, List.tail_cons] at hread
  rw [strtol_of_digit (by omega) hd (by rw [hskip]; simp [hd]), hskip, Option.some.inj hread]

/-- Base eight, for a zero without a mark. -/
theorem strtol_octal {s rest : CStr} {n : ℕ} (hhex : ¬ marked hexMark 16 s = true)
    (hbinary : ¬ marked binaryMark 2 s = true)
    (hread : leadingNat (digitZero :: s) = some (n, rest)) :
    strtol (digitZero :: s) 8 = ((clampLong n).1, rest, (clampLong n).2) := by
  rw [leadingNat, if_pos rfl, if_neg hhex, if_neg hbinary] at hread
  rw [strtol_zero (by omega) (skipPrefix_of_ne (by omega) _), Option.some.inj hread]

/-- For a number that begins with a zero `strtol` gives what the reader gives, except behind
a stray mark. -/
theorem strtolMarked_leading {s rest : CStr} {n : ℕ}
    (hread : leadingNat (digitZero :: s) = some (n, rest)) (hstray : strayMark s = false) :
    strtolMarked (digitZero :: s) (s.head?.map Subtype.val) =
      ((clampLong n).1, rest, (clampLong n).2) := by
  rcases s with _ | ⟨x, t⟩
  · exact strtol_octal (by simp [marked]) (by simp [marked]) hread
  rw [List.head?_cons, Option.map_some, strtolMarked]
  simp only [Option.some.injEq, ← hexMark_iff, ← binaryMark_iff]
  by_cases hhex : hexMark x = true
  · rw [if_pos hhex]
    exact strtol_hex hhex hread
  rw [if_neg hhex]
  by_cases hbinary : binaryMark x = true
  · rw [if_pos hbinary]
    exact strtol_binary hbinary hstray hread
  · rw [if_neg hbinary]
    exact strtol_octal (fun hmark => hhex (mark_of_marked hmark))
      (fun hmark => hbinary (mark_of_marked hmark)) hread

/-! ### `atoi32` by the reader -/

/-- The largest magnitude `atoi32` lets pass. -/
def limitOf (str : CStr) : ℤ := intMax + if isNegative str then 1 else 0

/-- A number that fits an `int32_t`. -/
def FitsInt32 (v : ℤ) : Prop := -2 ^ 31 ≤ v ∧ v < 2 ^ 31

/-- The string begins with a zero, behind the sign. -/
def zeroLed (str : CStr) : Bool := decide ((magnitudeOf str).head? = some digitZero)

/-- The string begins with `0b` or `0B`, and something else than a binary digit behind it. -/
def isStray (str : CStr) : Bool := zeroLed str && strayMark (magnitudeOf str).tail

theorem limitOf_bounds (str : CStr) : 0 ≤ limitOf str ∧ limitOf str ≤ 2 ^ 31 := by
  unfold limitOf intMax
  split <;> omega

/-- The limit depends on the sign as the range does. -/
theorem fitsInt32_iff {str : CStr} {n : ℕ} :
    FitsInt32 (signed (isNegative str) n) ↔ (n : ℤ) ≤ limitOf str := by
  unfold FitsInt32 signed limitOf intMax
  split <;> push_cast <;> omega

/-- What is written to `*result`: the `-tmp` of the code does not wrap. -/
theorem wrapInt64_signed {str : CStr} {n : ℕ} (hn : (n : ℤ) ≤ limitOf str) :
    (if isNegative str = true then wrapInt64 (-n) else (n : ℤ)) = signed (isNegative str) n := by
  have hmax := (limitOf_bounds str).2
  unfold signed
  rw [wrapInt64_eq (by omega) (by omega)]

/-- `*result` holds a number that fits. -/
theorem toInt_ofInt_fits {v : ℤ} (h : FitsInt32 v) : (Int32.ofInt v).toInt = v := by
  obtain ⟨hlow, hhigh⟩ := h
  exact Int32.toInt_ofInt_of_le hlow hhigh

/-- A number that is let pass: its rest is returned, and `*result` written. -/
def taken (str : CStr) (erange : Bool) (n : ℤ) (rest : CStr) :
    Option CStr × Int32 × Bool :=
  (some rest, Int32.ofInt (if isNegative str then wrapInt64 (-n) else n), erange)

/-- `atoi32` of a string with a digit at the beginning, behind the sign. -/
theorem atoi32_cons {erange : Bool} {str s : CStr} {c : CChar} {result : Int32}
    (hptr : magnitudeOf str = c :: s) :
    atoi32 erange str result =
      if !isdigit c then (some str, result, erange)
      else if c.1 = 48 then
        let (tmp, endptr, range) := strtolMarked (c :: s) (s.head?.map Subtype.val)
        if (erange || range) = true ∨ tmp > limitOf str then (none, result, erange || range)
        else taken str (erange || range) tmp endptr
      else
        match atoiLoop (limitOf str) 0 (c :: s) with
        | none => (none, result, erange)
        | some (tmp, ptr) => taken str erange tmp ptr := by
  have hptr : (if decide (str.head? = some dash) = true then str.tail else str) = c :: s := hptr
  simp only [atoi32, hptr]
  rfl

/-- `atoi32` returns a string that does not begin with a numeral. -/
theorem atoi32_nothing {erange : Bool} {str : CStr} {result : Int32}
    (hread : leadingNat (magnitudeOf str) = none) :
    atoi32 erange str result = (some str, result, erange) := by
  cases hptr : magnitudeOf str with
  | nil =>
      have hptr : (if decide (str.head? = some dash) = true then str.tail else str) = [] := hptr
      simp only [atoi32, hptr]
  | cons c s =>
      rw [hptr, leadingNat] at hread
      have hdigit : isdigit c = false := by
        rw [← isDigitOf_ten]
        split_ifs at hread with _ _ _ hdigit
        exact Bool.not_eq_true _ ▸ hdigit
      rw [atoi32_cons hptr, hdigit]
      rfl

/-- A number within the limit is written with its sign. -/
theorem taken_eq {str rest : CStr} {erange : Bool} {n : ℕ} (hn : (n : ℤ) ≤ limitOf str) :
    taken str erange n rest = (some rest, Int32.ofInt (signed (isNegative str) n), erange) := by
  rw [taken, wrapInt64_signed hn]

/-- The digit loop of `atoi32`: a number that does not begin with a zero. -/
theorem atoi32_decimal {erange : Bool} {str s : CStr} {c : CChar} {result : Int32}
    (hptr : magnitudeOf str = c :: s) (hzero : c ≠ digitZero) (hdigit : isDigitOf 10 c = true) :
    atoi32 erange str result =
      if limitOf str < (readDigits 10 (c :: s)).1 then (none, result, erange)
      else (some (readDigits 10 (c :: s)).2,
        Int32.ofInt (signed (isNegative str) (readDigits 10 (c :: s)).1), erange) := by
  have hbase : isDigitOf 10 = isdigit := funext isDigitOf_ten
  have hlimit : ((0 : ℕ) : ℤ) ≤ limitOf str := (limitOf_bounds str).1
  rw [atoi32_cons hptr, if_neg (by simp [← isDigitOf_ten, hdigit]),
    if_neg fun h : c.1 = 48 => hzero (Subtype.ext h)]
  have hloop := atoiLoop_eq (c :: s) 0 hlimit
  rw [← hbase] at hloop
  rw [Nat.cast_zero] at hloop
  rw [hloop]
  change (match (if limitOf str < (readDigits 10 (c :: s)).1 then none
    else some (((readDigits 10 (c :: s)).1 : ℤ), (readDigits 10 (c :: s)).2)) with
    | none => (none, result, erange)
    | some (tmp, ptr) => taken str erange tmp ptr) = _
  by_cases hover : limitOf str < (readDigits 10 (c :: s)).1
  · rw [if_pos hover, if_pos hover]
  · rw [if_neg hover, if_neg hover]
    exact taken_eq (not_lt.mp hover)

/-- A `long` is not changed. -/
theorem clampLong_eq {v : ℤ} (hlow : -2 ^ 63 ≤ v) (hhigh : v < 2 ^ 63) :
    clampLong v = (v, false) := by
  rw [clampLong, if_neg (by omega), if_neg (by omega)]

/-- A number that is no `long` is reported or far above any limit. -/
theorem clampLong_refused {limit v : ℤ}
    (h : ¬ (-2 ^ 63 ≤ v ∧ v ≤ limit)) : (clampLong v).2 = true ∨ limit < (clampLong v).1 := by
  unfold clampLong
  split_ifs
  · exact .inl rfl
  · exact .inl rfl
  · exact .inr (by dsimp only; omega)

/-- The `strtol` branch of `atoi32`, by the number `strtol` has read. -/
theorem atoi32_strtol {str s rest : CStr} {v : ℤ} (hptr : magnitudeOf str = digitZero :: s)
    (hread : strtolMarked (digitZero :: s) (s.head?.map Subtype.val) =
      ((clampLong v).1, rest, (clampLong v).2)) (erange : Bool) (result : Int32) :
    ∃ erange', atoi32 erange str result =
      if erange = true ∨ ¬ (-2 ^ 63 ≤ v ∧ v ≤ limitOf str) then (none, result, erange')
      else taken str erange v rest := by
  rw [atoi32_cons hptr, if_neg (by decide), if_pos (by rfl), hread]
  refine ⟨erange || (clampLong v).2, ?_⟩
  dsimp only
  by_cases hrefuse : erange = true ∨ ¬ (-2 ^ 63 ≤ v ∧ v ≤ limitOf str)
  · rw [if_pos hrefuse, if_pos ?_]
    rcases hrefuse with herr | hover
    · exact .inl (by simp [herr])
    · rcases clampLong_refused hover with hrange | hover
      · exact .inl (by simp [hrange])
      · exact .inr hover
  · obtain ⟨herr, hlow, hhigh⟩ := by simpa only [not_or, not_not] using hrefuse
    have herr : erange = false := Bool.not_eq_true _ ▸ herr
    have hmax := (limitOf_bounds str).2
    rw [if_neg hrefuse, clampLong_eq hlow (by omega), herr]
    exact if_neg (by simpa using hhigh)

/-- `atoi32` of a number that begins with a zero, where no stray mark is behind it. -/
theorem atoi32_zero {str s rest : CStr} {n : ℕ} (hptr : magnitudeOf str = digitZero :: s)
    (hstray : strayMark s = false) (hread : leadingNat (digitZero :: s) = some (n, rest))
    (erange : Bool) (result : Int32) :
    ∃ erange', atoi32 erange str result =
      if erange = true ∨ limitOf str < n then (none, result, erange')
      else (some rest, Int32.ofInt (signed (isNegative str) n), erange) := by
  obtain ⟨erange', hout⟩ :=
    atoi32_strtol hptr (strtolMarked_leading hread hstray) erange result
  refine ⟨erange', hout.trans ?_⟩
  have hlow : -2 ^ 63 ≤ (n : ℤ) := by omega
  simp only [hlow, true_and, not_le]
  by_cases hrefuse : erange = true ∨ limitOf str < n
  · rw [if_pos hrefuse, if_pos hrefuse]
  · rw [if_neg hrefuse, if_neg hrefuse]
    exact taken_eq (not_lt.mp fun h => hrefuse (.inr h))

/-- **`atoi32` is the reader with a limit**: it takes the numeral the string begins with, and
gives up on one outside the range; on one that begins with a zero also when `errno` was
`ERANGE` before. -/
theorem atoi32_leading {str rest : CStr} {n : ℕ}
    (hread : leadingNat (magnitudeOf str) = some (n, rest)) (hstray : isStray str = false)
    (erange : Bool) (result : Int32) :
    ∃ erange', atoi32 erange str result =
      if erange = true ∧ zeroLed str = true ∨ limitOf str < n then (none, result, erange')
      else (some rest, Int32.ofInt (signed (isNegative str) n), erange) := by
  cases hptr : magnitudeOf str with
  | nil =>
      rw [hptr] at hread
      cases hread
  | cons c s =>
      rw [hptr] at hread
      by_cases hzero : c = digitZero
      · subst hzero
        have hled : zeroLed str = true := by simp [zeroLed, hptr]
        rw [isStray, hled, hptr] at hstray
        simpa [hled] using atoi32_zero hptr hstray hread erange result
      · have hled : zeroLed str = false := by simp [zeroLed, hptr, hzero]
        rw [leadingNat, if_neg hzero] at hread
        split at hread
        · next hdigit =>
            rw [atoi32_decimal hptr hzero hdigit, Option.some.inj hread]
            exact ⟨erange, by simp [hled]⟩
        · cases hread

/-! ### Behind a stray mark -/

/-- What `strtol` reads behind a skipped `0b`: blanks, a sign and binary digits, or a zero where
there are no digits; and what is behind it. -/
def strayRead (s : CStr) : ℤ × CStr :=
  let (negative, digits) := readSign (skipSpace s)
  if digits.takeWhile (isDigitOf 2) = [] then (0, s)
  else (signed negative (readDigits 2 digits).1, (readDigits 2 digits).2)

theorem strtol_two (s : CStr) :
    strtol s 2 =
      ((clampLong (strayRead s).1).1, (strayRead s).2, (clampLong (strayRead s).1).2) := by
  rcases hsign : readSign (skipSpace s) with ⟨negative, digits⟩
  simp only [strtol, strayRead, hsign, skipPrefix_of_ne (by omega : 2 ≠ 16)]
  by_cases hnone : digits.takeWhile (isDigitOf 2) = []
  · rw [if_pos hnone, if_pos hnone]
    rfl
  · rw [if_neg hnone, if_neg hnone]
    rfl

/-- A stray mark: `atoi32` lets pass what `strtol` makes of the rest. -/
theorem atoi32_stray {str s : CStr} {x : CChar}
    (hptr : magnitudeOf str = digitZero :: x :: s) (hx : binaryMark x = true) (erange : Bool)
    (result : Int32) :
    ∃ erange', atoi32 erange str result =
      if erange = true ∨ ¬ (-2 ^ 63 ≤ (strayRead s).1 ∧ (strayRead s).1 ≤ limitOf str) then
        (none, result, erange')
      else taken str erange (strayRead s).1 (strayRead s).2 := by
  refine atoi32_strtol hptr ?_ erange result
  have hhex : ¬ (x.1 = 120 ∨ x.1 = 88) := fun hmark => by
    have hno := hexMark_of_binaryMark hx
    rw [hexMark_iff.mpr hmark] at hno
    cases hno
  rw [List.head?_cons, Option.map_some, strtolMarked]
  simp only [Option.some.injEq]
  rw [if_neg hhex, if_pos (binaryMark_iff.mp hx)]
  exact strtol_two s

theorem exists_of_isStray {str : CStr} (h : isStray str = true) :
    ∃ x s, magnitudeOf str = digitZero :: x :: s ∧ binaryMark x = true ∧
      marked binaryMark 2 (x :: s) = false := by
  obtain ⟨hled, hmark⟩ := Bool.and_eq_true_iff.mp h
  obtain ⟨t, ht⟩ := List.head?_eq_some_iff.mp (of_decide_eq_true hled)
  rw [ht, List.tail_cons] at hmark
  rcases t with _ | ⟨x, s⟩
  · cases hmark
  obtain ⟨hx, hs⟩ := Bool.and_eq_true_iff.mp hmark
  refine ⟨x, s, ht, hx, ?_⟩
  rcases s with _ | ⟨d, s⟩
  · rfl
  · simpa [marked, hx] using hs

/-- The reader stops in front of a stray mark. -/
theorem leadingNat_stray {str : CStr} (h : isStray str = true) :
    ∃ rest, rest ≠ [] ∧ leadingNat (magnitudeOf str) = some (0, rest) := by
  obtain ⟨x, s, hptr, hx, hmarked⟩ := exists_of_isStray h
  have hhex : ¬ marked hexMark 16 (x :: s) = true := fun hmark => by
    have hmark := mark_of_marked hmark
    rw [hexMark_of_binaryMark hx] at hmark
    cases hmark
  have hoctal : isDigitOf 8 x = false :=
    decide_eq_false (by rw [digitValue_binaryMark hx]; omega)
  rw [hptr, leadingNat, if_pos rfl, if_neg hhex, if_neg (by simp [hmarked]),
    readDigits_of_not hoctal]
  exact ⟨x :: s, List.cons_ne_nil _ _, rfl⟩

theorem leading_stray {str : CStr} (h : isStray str = true) : leading str ≠ none := by
  obtain ⟨rest, -, hread⟩ := leadingNat_stray h
  simp [leading, hread]

/-- A string with a stray mark is no numeral. -/
theorem not_isNumeral_stray {str : CStr} {v : ℤ} (h : isStray str = true) :
    ¬ IsNumeral str v := by
  intro hnum
  obtain ⟨rest, hrest, hread⟩ := leadingNat_stray h
  obtain ⟨⟨n, _⟩, hread', hout⟩ := Option.map_eq_some_iff.mp (isNumeral_iff.mp hnum)
  rw [hread] at hread'
  obtain ⟨-, rfl⟩ := Prod.mk.inj (Option.some.inj hread')
  exact hrest (Prod.mk.inj hout).2

/-! ### All cases of `atoi32` -/

/-- What `strtol` reads behind the stray mark of a string. -/
def strayPart (str : CStr) : ℤ × CStr := strayRead ((magnitudeOf str).drop 2)

/-- The number behind a stray mark, with the sign of the string. -/
def strayValue (str : CStr) : ℤ :=
  if isNegative str then -(strayPart str).1 else (strayPart str).1

/-- The number behind a stray mark is a `long` up to the limit. -/
def StrayFits (str : CStr) : Prop := -2 ^ 63 ≤ (strayPart str).1 ∧ (strayPart str).1 ≤ limitOf str

/-- The cases of `atoi32`, by what the string begins with. -/
inductive AtoiCase (erange : Bool) (str : CStr) : Prop
  /-- No numeral: the string itself is returned. -/
  | nothing (hread : leading str = none)
      (hout : ∀ result, atoi32 erange str result = (some str, result, erange))
  /-- A numeral in range: what is behind it is returned. -/
  | numeral {v : ℤ} {rest : CStr} (hstray : isStray str = false)
      (hread : leading str = some (v, rest)) (hfits : FitsInt32 v)
      (herrno : ¬ (erange = true ∧ zeroLed str = true))
      (hout : ∀ result, atoi32 erange str result = (some rest, Int32.ofInt v, erange))
  /-- A stray mark: what is behind a number that `strtol` finds is returned. -/
  | stray (hstray : isStray str = true) (herrno : erange = false) (hfits : StrayFits str)
      (hout : ∀ result, atoi32 erange str result =
        (some (strayPart str).2, Int32.ofInt (strayValue str), erange))
  /-- A number outside the range, or `errno` in its way: `NULL` is returned. -/
  | refused (hnumeral : ∀ v rest, isStray str = false → leading str = some (v, rest) →
        ¬ FitsInt32 v ∨ erange = true ∧ zeroLed str = true)
      (hmark : isStray str = true → erange = true ∨ ¬ StrayFits str)
      (hout : ∀ result, ∃ erange', atoi32 erange str result = (none, result, erange'))

/-- The wrap of the negation is lost in the narrower `*result`. -/
theorem ofInt_wrapInt64 (x : ℤ) : Int32.ofInt (wrapInt64 x) = Int32.ofInt x := by
  rw [← Int32.toInt_inj, Int32.toInt_ofInt, Int32.toInt_ofInt]
  exact Int.bmod_bmod_of_dvd (by decide)

theorem atoi32_cases (erange : Bool) (str : CStr) : AtoiCase erange str := by
  by_cases hstray : isStray str = true
  · obtain ⟨x, s, hptr, hx, -⟩ := exists_of_isStray hstray
    have hpart : strayPart str = strayRead s := by rw [strayPart, hptr]; rfl
    by_cases hrefuse : erange = true ∨ ¬ StrayFits str
    · refine .refused (fun v rest hno => ?_) (fun _ => hrefuse) fun result => ?_
      · rw [hstray] at hno
        cases hno
      · obtain ⟨erange', hout⟩ := atoi32_stray hptr hx erange result
        rw [StrayFits, hpart] at hrefuse
        exact ⟨erange', hout.trans (if_pos hrefuse)⟩
    · obtain ⟨herrno, hfits⟩ := by simpa only [not_or, not_not] using hrefuse
      refine .stray hstray (Bool.not_eq_true _ ▸ herrno) hfits fun result => ?_
      obtain ⟨erange', hout⟩ := atoi32_stray hptr hx erange result
      rw [StrayFits, hpart] at hrefuse
      rw [hout, if_neg hrefuse, taken, strayValue, hpart]
      split
      · rw [ofInt_wrapInt64]
      · rfl
  · have hstray : isStray str = false := Bool.not_eq_true _ ▸ hstray
    rcases hread : leadingNat (magnitudeOf str) with _ | ⟨n, rest⟩
    · exact .nothing (by simp [leading, hread]) fun result => atoi32_nothing hread
    · have hlead : leading str = some (signed (isNegative str) n, rest) := by
        simp [leading, hread]
      have hout := atoi32_leading hread hstray erange
      by_cases hrefuse : erange = true ∧ zeroLed str = true ∨ limitOf str < n
      · refine .refused (fun v rest' _ hv => ?_) (fun hyes => ?_) fun result => ?_
        · obtain ⟨rfl, rfl⟩ := Prod.mk.inj (Option.some.inj (hlead.symm.trans hv))
          rcases hrefuse with herrno | hover
          · exact .inr herrno
          · exact .inl fun hfits => hover.not_ge (fitsInt32_iff.mp hfits)
        · rw [hstray] at hyes
          cases hyes
        · obtain ⟨erange', hout⟩ := hout result
          exact ⟨erange', hout.trans (if_pos hrefuse)⟩
      · refine .numeral hstray hlead ?_ (fun h => hrefuse (.inl h)) fun result => ?_
        · exact fitsInt32_iff.mpr (not_lt.mp fun h => hrefuse (.inr h))
        · obtain ⟨erange', hout⟩ := hout result
          exact hout.trans (if_neg hrefuse)

/-! ### Reading whole strings -/

/-- `atoi32` reads a string as it should: what it accepts as a whole is a numeral of an
`int32_t`, and every such numeral is accepted as a whole; the number written is its value. -/
structure AtoiReads (erange : Bool) (str : CStr) : Prop where
  /-- What is accepted is a numeral. -/
  sound : ∀ result, str ≠ [] → (atoi32 erange str result).1 = some [] →
    ∃ v, IsNumeral str v ∧ FitsInt32 v ∧ (atoi32 erange str result).2.1.toInt = v
  /-- A numeral is accepted. -/
  complete : ∀ v, IsNumeral str v → FitsInt32 v → ∀ result,
    (atoi32 erange str result).1 = some [] ∧ (atoi32 erange str result).2.1.toInt = v

/-- Neither `errno` nor a stray mark is in the way: on entry `errno` is not `ERANGE`, or the
string is no numeral in range that begins with a zero; and when `errno` is not `ERANGE`, there
is no stray mark with a number behind it, or with nothing, that ends where the string does. -/
structure AtoiSafe (erange : Bool) (str : CStr) : Prop where
  /-- No `ERANGE` is left from an earlier call. -/
  errno : erange = true → zeroLed str = true → ∀ v, IsNumeral str v → ¬ FitsInt32 v
  /-- No stray mark. -/
  mark : erange = false → isStray str = true → StrayFits str → (strayPart str).2 ≠ []

/-- A numeral is a magnitude as a whole, and has no stray mark. -/
theorem leadingNat_of_isNumeral {str : CStr} {v : ℤ} (h : IsNumeral str v) :
    isStray str = false ∧
      ∃ n : ℕ, leadingNat (magnitudeOf str) = some (n, []) ∧ v = signed (isNegative str) n := by
  refine ⟨Bool.eq_false_iff.mpr fun hstray => not_isNumeral_stray hstray h, ?_⟩
  obtain ⟨⟨n, rest⟩, hread, hout⟩ := Option.map_eq_some_iff.mp (isNumeral_iff.mp h)
  obtain ⟨rfl, rfl⟩ := Prod.mk.inj hout
  exact ⟨n, hread, rfl⟩

/-- `atoi32` accepts a numeral in range as a whole, unless `errno` was `ERANGE` and it begins
with a zero. -/
theorem atoi32_numeral {erange : Bool} {str : CStr} {v : ℤ} (h : IsNumeral str v)
    (hfits : FitsInt32 v) (herrno : ¬ (erange = true ∧ zeroLed str = true)) (result : Int32) :
    atoi32 erange str result = (some [], Int32.ofInt v, erange) := by
  obtain ⟨hstray, n, hread, rfl⟩ := leadingNat_of_isNumeral h
  obtain ⟨_, hout⟩ := atoi32_leading hread hstray erange result
  rw [hout, if_neg]
  rintro (herr | hover)
  · exact herrno herr
  · exact hover.not_ge (fitsInt32_iff.mp hfits)

/-- **Reading whole strings**: `atoi32` accepts exactly the numerals of an `int32_t` as a
whole, with their values, precisely when neither `errno` nor a stray mark is in the way. -/
theorem atoi32_reads_iff (erange : Bool) (str : CStr) :
    AtoiReads erange str ↔ AtoiSafe erange str := by
  constructor
  · intro h
    constructor
    · intro herr hled v hnum hfits
      obtain ⟨hstray, n, hread, rfl⟩ := leadingNat_of_isNumeral hnum
      obtain ⟨_, hout⟩ := atoi32_leading hread hstray erange 0
      have hsome := (h.complete _ hnum hfits 0).1
      rw [hout, if_pos (.inl ⟨herr, hled⟩)] at hsome
      cases hsome
    · intro herr hstray hfits hrest
      rcases atoi32_cases erange str with ⟨hread, -⟩ | ⟨hno, -⟩ | ⟨-, -, -, hout⟩ | ⟨-, hmark, -⟩
      · exact absurd hread (leading_stray hstray)
      · rw [hstray] at hno
        cases hno
      · have hnonempty : str ≠ [] := by
          rintro rfl
          cases hstray
        obtain ⟨v, hnum, -⟩ := h.sound 0 hnonempty (by rw [hout, hrest])
        exact not_isNumeral_stray hstray hnum
      · rcases hmark hstray with herr' | hfits'
        · rw [herr] at herr'
          cases herr'
        · exact hfits' hfits
  · intro h
    constructor
    · intro result hnonempty hwhole
      rcases atoi32_cases erange str with
        ⟨-, hout⟩ | ⟨-, hread, hfits, -, hout⟩ | ⟨hstray, herr, hfits, hout⟩ | ⟨-, -, hout⟩
      · rw [hout] at hwhole
        exact absurd (Option.some.inj hwhole) hnonempty
      · rw [hout] at hwhole ⊢
        obtain rfl := Option.some.inj hwhole
        exact ⟨_, isNumeral_iff.mpr hread, hfits, toInt_ofInt_fits hfits⟩
      · rw [hout] at hwhole
        exact absurd (Option.some.inj hwhole) (h.mark herr hstray hfits)
      · obtain ⟨_, hout⟩ := hout result
        rw [hout] at hwhole
        cases hwhole
    · intro v hnum hfits result
      have herrno : ¬ (erange = true ∧ zeroLed str = true) := fun ⟨herr, hled⟩ =>
        h.errno herr hled v hnum hfits
      rw [atoi32_numeral hnum hfits herrno]
      exact ⟨rfl, toInt_ofInt_fits hfits⟩

/-- `0b` is accepted, and no numeral; and `0` is refused when `errno` is `ERANGE` from an
earlier call. -/
theorem atoi32_stray_and_errno :
    ¬ AtoiReads false [digitZero, ⟨98, by decide⟩] ∧ ¬ AtoiReads true [digitZero] := by
  constructor
  · intro h
    obtain ⟨v, hnum, -⟩ := h.sound 0 (by simp) (by decide)
    exact not_isNumeral_stray (by decide) hnum
  · intro h
    have hnum : IsNumeral [digitZero] 0 := isNumeral_iff.mpr (by decide)
    exact absurd (h.complete 0 hnum ⟨by decide, by decide⟩ 0).1 (by decide)

end Backd
