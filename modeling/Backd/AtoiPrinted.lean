import Backd.AtoiNumeral
import Backd.StringRender

/-!
# Printed Numbers Are Read Back

`cpyf` prints an `int32_t` with `%d`, and `0x%x` prints one that is not negative in base
sixteen; `atoi32` reads either text back. The printer takes the digits off the back of the
number, and the parser takes them in from the front of the text: both sides meet in the
numeral of the number.

## Main results

* `decimal_isNumeral`, `hex_isNumeral`: what is printed is a numeral of the number.
* `printed_is_read`: `cpyf` and `atoi32` are inverse.
-/

namespace Backd

open Numeral

/-! ### Digits as characters -/

/-- A digit up to fifteen as a character, lower case. -/
def digitChar (i : ℕ) : CChar :=
  if h : hexDigit i ≠ 0 then ⟨hexDigit i, h⟩ else digitZero

/-- The character of a digit is what is printed for it, and is read as the digit. -/
theorem digitChar_spec : ∀ i < 16, (digitChar i).1 = hexDigit i ∧ digitValue (digitChar i) = i := by
  decide

theorem digitChar_ne_zero {i : ℕ} (hi : i < 16) (hne : i ≠ 0) : digitChar i ≠ digitZero := by
  intro h
  have hvalue := (digitChar_spec i hi).2
  rw [h] at hvalue
  exact hne hvalue.symm

/-- A numeral as a string. -/
def numeralStr (b n : ℕ) : CStr := (numeral b n).map digitChar

section Digits

variable {b n : ℕ}

/-- The string is the text the printers write. -/
theorem bytes_numeralStr (hb : 1 < b) (hbase : b ≤ 16) :
    (numeralStr b n).bytes = digitText b n := by
  rw [CStr.bytes, numeralStr, digitText, List.map_map]
  refine List.map_congr_left fun d hd => ?_
  exact (digitChar_spec d ((lt_of_mem_numeral hb hd).trans_le hbase)).1

/-- Its characters are digits of the base, and stand for the number. -/
theorem numeralStr_spec (hb : 1 < b) (hbase : b ≤ 16) :
    (∀ c ∈ numeralStr b n, isDigitOf b c = true) ∧ digitsValue b (numeralStr b n) = n := by
  have hchar : ∀ d ∈ numeral b n, digitValue (digitChar d) = d := fun d hd =>
    (digitChar_spec d ((lt_of_mem_numeral hb hd).trans_le hbase)).2
  constructor
  · intro c hc
    obtain ⟨d, hd, rfl⟩ := List.mem_map.mp hc
    rw [isDigitOf_iff, hchar d hd]
    exact lt_of_mem_numeral hb hd
  · calc digitsValue b (numeralStr b n)
        = (numeral b n).foldl (fun n d => n * b + digitValue (digitChar d)) 0 := List.foldl_map
      _ = value b (numeral b n) := List.foldl_ext _ _ _ fun m d hd => by rw [hchar d hd]
      _ = n := value_numeral b n

/-- A number other than zero is written without a leading zero. -/
theorem numeralStr_cons (hb : 1 < b) (hbase : b ≤ 16) (hn : n ≠ 0) :
    ∃ c s, numeralStr b n = c :: s ∧ c ≠ digitZero := by
  obtain ⟨d, ds, hds, hne⟩ := numeral_cons (b := b) hn
  have hlt : d < b := lt_of_mem_numeral hb (hds ▸ List.mem_cons_self)
  refine ⟨digitChar d, ds.map digitChar, ?_, digitChar_ne_zero (hlt.trans_le hbase) hne⟩
  rw [numeralStr, hds, List.map_cons]

end Digits

/-! ### What is printed is a numeral -/

/-- The decimal digits of a number are a numeral of it; those of zero are an octal one. -/
theorem decimal_magnitude (n : ℕ) : Magnitude (numeralStr 10 n) n := by
  rcases Nat.eq_zero_or_pos n with rfl | hpos
  · exact magnitude_iff.mpr (by decide)
  · obtain ⟨hdigits, hvalue⟩ := numeralStr_spec (b := 10) (n := n) (by omega) (by omega)
    obtain ⟨c, s, hs, hzero⟩ :=
      numeralStr_cons (b := 10) (by omega) (by omega) (Nat.ne_of_gt hpos)
    rw [hs] at hdigits hvalue ⊢
    have hnum := Magnitude.decimal hzero hdigits
    rwa [hvalue] at hnum

/-- The hexadecimal digits of a number behind `0x` are a numeral of it. -/
theorem hex_magnitude (n : ℕ) : Magnitude (digitZero :: letterX :: numeralStr 16 n) n := by
  obtain ⟨hdigits, hvalue⟩ := numeralStr_spec (b := 16) (n := n) (by omega) (by omega)
  rcases hs : numeralStr 16 n with _ | ⟨d, ds⟩
  · exact absurd (List.map_eq_nil_iff.mp hs) (numeral_ne_nil 16 n)
  · rw [hs] at hdigits hvalue
    have hnum := Magnitude.hex (x := letterX) rfl hdigits
    rwa [hvalue] at hnum

/-- The string `%d` writes. -/
def decimalStr (v : Int32) : CStr :=
  if v.toInt < 0 then dash :: numeralStr 10 v.toInt.natAbs else numeralStr 10 v.toInt.natAbs

theorem bytes_decimalStr (v : Int32) : (decimalStr v).bytes = decimalText v := by
  have hdigits := bytes_numeralStr (b := 10) (n := v.toInt.natAbs) (by omega) (by omega)
  rw [decimalStr, decimalText, ← hdigits]
  split <;> rfl

/-- `%d` writes a numeral of the number. -/
theorem decimal_isNumeral (v : Int32) : IsNumeral (decimalStr v) v.toInt := by
  have hnum := decimal_magnitude v.toInt.natAbs
  rw [decimalStr]
  split
  · next hneg =>
      have hv : v.toInt = -(v.toInt.natAbs : ℤ) := by omega
      have hminus := IsNumeral.minus hnum
      rwa [← hv] at hminus
  · next hpos =>
      have hv : v.toInt = (v.toInt.natAbs : ℤ) := by omega
      have hplain := IsNumeral.plain hnum
      rwa [← hv] at hplain

/-- The string `0x%x` writes. -/
def hexStr (n : ℕ) : CStr := digitZero :: letterX :: numeralStr 16 n

theorem bytes_hexStr (n : ℕ) : (hexStr n).bytes = 48 :: 120 :: digitText 16 n := by
  rw [← bytes_numeralStr (b := 16) (by omega) (by omega)]
  rfl

/-- `0x%x` writes a numeral of the number. -/
theorem hex_isNumeral (n : ℕ) : IsNumeral (hexStr n) n := .plain (hex_magnitude n)

/-! ### The round trip -/

/-- The format `%d`. -/
def formatDecimal : CStr := [percent, letterD]

/-- The format `0x%x`. -/
def formatHex : CStr := [digitZero, letterX, percent, letterX]

theorem rendering_formatDecimal (v : Int32) :
    rendering formatDecimal [.int v] = some (decimalText v) := by
  simp [formatDecimal, letterD, rendering, fieldText, vaInt]

theorem rendering_formatHex (n : UInt32) :
    rendering formatHex [.uint n] = some (48 :: 120 :: digitText 16 n.toNat) := by
  have hzero : digitZero ≠ percent := by decide
  have hletter : letterX ≠ percent := by decide
  have hfield : fieldText letterX [.uint n] = some (some (digitText 16 n.toNat, [])) := rfl
  have hcodes : digitZero.1 = 48 ∧ letterX.1 = 120 := ⟨rfl, rfl⟩
  simp [formatHex, rendering, hzero, hletter, hfield, hcodes]

/-- A number goes through a format and comes back: `cpyf` leaves a text wherever it has room,
and `atoi32` reads all of it as the number. -/
def ComesBack (format : CStr) (arg : Arg) (v : Int32) : Prop :=
  ∃ text : CStr,
    (∀ (dst : Bytes) (dstsize : ℕ), text.length ≤ dstsize → dstsize ≤ dst.length →
      cpyf dst dstsize format [arg] =
        some (text.bytes ++ dst.drop text.length, text.length)) ∧
    ∀ result, atoi32 false text result = (some [], v, false)

/-- A numeral that a format renders comes back. -/
theorem comesBack_of_rendering {format text : CStr} {arg : Arg} {v : Int32}
    (hr : rendering format [arg] = some text.bytes) (hnum : IsNumeral text v.toInt) :
    ComesBack format arg v := by
  refine ⟨text, fun dst dstsize hroom hdst => ?_, fun result => ?_⟩
  · have hlen : text.bytes.length = text.length := List.length_map _
    have htakes : Takes dst dstsize text.bytes := (Nat.min_le_right _ _).trans hdst
    rw [cpyf_renders hr htakes, hlen, Nat.min_eq_left hroom,
      List.take_of_length_le (hlen.trans_le hroom)]
  · have hfits : FitsInt32 v.toInt := ⟨v.le_toInt, v.toInt_lt⟩
    rw [atoi32_numeral hnum hfits (by simp), Int32.ofInt_toInt]

/-- **The printers and the parser are inverse**: every number comes back from `%d`, and every
number that is not negative from `0x%x`, when `errno` is not `ERANGE` before. -/
theorem printed_is_read (v : Int32) :
    ComesBack formatDecimal (.int v) v ∧
      (0 ≤ v.toInt → ComesBack formatHex (.uint v.toUInt32) v) := by
  constructor
  · refine comesBack_of_rendering ?_ (decimal_isNumeral v)
    rw [rendering_formatDecimal, bytes_decimalStr]
  · intro hpos
    have hnum := hex_isNumeral v.toUInt32.toNat
    rw [int32_toUInt32 hpos] at hnum
    refine comesBack_of_rendering ?_ hnum
    rw [rendering_formatHex, bytes_hexStr]

/-- `INT_MAX` comes back from both formats. -/
theorem printed_max :
    ComesBack formatDecimal (.int 2147483647) 2147483647 ∧
      ComesBack formatHex (.uint (2147483647 : Int32).toUInt32) 2147483647 :=
  ⟨(printed_is_read 2147483647).1, (printed_is_read 2147483647).2 (by decide)⟩

end Backd
