import Backd.Args
import Backd.AtoiNumeral

/-!
# Reading an Unsigned Number

`uint32_parse` lets `atoi32` write through a cast pointer, and takes it for a success that
the pointer returned is at the end of the string. So it succeeds on the empty string, it
takes negative numbers modulo `2 ^ 32`, it refuses the numbers above `INT_MAX`, and where it
fails because something is behind a number, the number is written all the same.

## Main results

* `uint32Parse_numeral`: the numerals it is right about.
* `uint32Parse_right_iff`: exactly when it does what it should.
-/

namespace Backd

/-- A number that fits a `uint32_t`. -/
def FitsUint32 (v : ℤ) : Prop := 0 ≤ v ∧ v < 2 ^ 32

/-- A string has at most one value. -/
theorem IsNumeral.unique {str : CStr} {v w : ℤ} (hv : IsNumeral str v) (hw : IsNumeral str w) :
    v = w := by
  have h := (isNumeral_iff.mp hv).symm.trans (isNumeral_iff.mp hw)
  exact (Prod.mk.inj (Option.some.inj h)).1

theorem not_isNumeral_nil {v : ℤ} : ¬ IsNumeral [] v := by
  intro h
  rcases h with ⟨⟨⟩⟩

/-- What is written through the cast pointer. -/
theorem toNat_ofInt_toUInt32 {v : ℤ} (hpos : 0 ≤ v) (hfits : FitsInt32 v) :
    ((Int32.ofInt v).toUInt32.toNat : ℤ) = v := by
  have hvalue := toInt_ofInt_fits hfits
  have hpos : 0 ≤ (Int32.ofInt v).toInt := hvalue.symm ▸ hpos
  rw [int32_toUInt32 hpos, hvalue]

/-! ### What it does with what `atoi32` returns -/

section Returned

variable {erange erange' : Bool} {expr rest : CStr} {dest : UInt32} {x : Int32}

/-- `NULL`. -/
theorem uint32Parse_null
    (h : ∀ result, ∃ erange', atoi32 erange expr result = (none, result, erange')) :
    (uint32Parse erange expr dest).1 = false ∧ (uint32Parse erange expr dest).2.1 = dest := by
  obtain ⟨erange', hout⟩ := h dest.toInt32
  simp [uint32Parse, hout]

/-- A number, and what is behind it. -/
theorem uint32Parse_taken (h : ∀ result, atoi32 erange expr result = (some rest, x, erange')) :
    (uint32Parse erange expr dest).1 = decide (rest = []) ∧
      (uint32Parse erange expr dest).2.1 = x.toUInt32 := by
  simp [uint32Parse, h]

/-- The string itself. -/
theorem uint32Parse_same (h : ∀ result, atoi32 erange expr result = (some expr, result, erange')) :
    (uint32Parse erange expr dest).1 = decide (expr = []) ∧
      (uint32Parse erange expr dest).2.1 = dest := by
  simp [uint32Parse, h]

end Returned

/-! ### What it should do -/

/-- `uint32_parse` does what it should: it succeeds exactly on the numerals of a `uint32_t`,
whose value it writes, and when it fails it writes nothing. -/
structure ParsesUint32 (erange : Bool) (expr : CStr) (dest : UInt32) : Prop where
  /-- It succeeds exactly on numerals in range. -/
  accepts : (uint32Parse erange expr dest).1 = true ↔ ∃ v, IsNumeral expr v ∧ FitsUint32 v
  /-- The value of a numeral is written. -/
  value : ∀ v, IsNumeral expr v → FitsUint32 v →
    ((uint32Parse erange expr dest).2.1.toNat : ℤ) = v
  /-- A failure leaves `*dest`. -/
  kept : (uint32Parse erange expr dest).1 = false → (uint32Parse erange expr dest).2.1 = dest

/-- Nothing is in the way of `uint32_parse`. -/
structure Uint32Safe (erange : Bool) (expr : CStr) (dest : UInt32) : Prop where
  /-- The string is not empty. -/
  nonempty : expr ≠ []
  /-- A numeral below zero is no `int32_t` either, or begins with a zero while `errno` is
  `ERANGE`. -/
  sign : ∀ v, IsNumeral expr v → FitsInt32 v → ¬ (erange = true ∧ zeroLed expr = true) → 0 ≤ v
  /-- A numeral of a `uint32_t` is one of an `int32_t`, and does not begin with a zero while
  `errno` is `ERANGE`. -/
  range : ∀ v, IsNumeral expr v → FitsUint32 v →
    FitsInt32 v ∧ ¬ (erange = true ∧ zeroLed expr = true)
  /-- A number with something behind it is out of range, or `errno` is in its way, or `*dest`
  holds it already. -/
  front : ∀ v rest, isStray expr = false → leading expr = some (v, rest) → rest ≠ [] →
    FitsInt32 v → ¬ (erange = true ∧ zeroLed expr = true) → (Int32.ofInt v).toUInt32 = dest
  /-- So is a number behind a stray mark, and there is something behind it. -/
  mark : erange = false → isStray expr = true → StrayFits expr →
    (strayPart expr).2 ≠ [] ∧ (Int32.ofInt (strayValue expr)).toUInt32 = dest

/-- The numerals `uint32_parse` is right about. -/
theorem uint32Parse_numeral {erange : Bool} {expr : CStr} {v : ℤ} (hnum : IsNumeral expr v)
    (hfits : FitsInt32 v) (herrno : ¬ (erange = true ∧ zeroLed expr = true)) (dest : UInt32) :
    (uint32Parse erange expr dest).1 = true ∧
      (uint32Parse erange expr dest).2.1 = (Int32.ofInt v).toUInt32 := by
  exact uint32Parse_taken fun result => atoi32_numeral hnum hfits herrno result

/-- A success without anything in the way is a numeral in range. -/
theorem Uint32Safe.isNumeral {erange : Bool} {expr : CStr} {dest : UInt32}
    (h : Uint32Safe erange expr dest) (hok : (uint32Parse erange expr dest).1 = true) :
    ∃ v, IsNumeral expr v ∧ FitsUint32 v := by
  rcases atoi32_cases erange expr with
    ⟨-, hout⟩ | ⟨-, hread, hfits, herrno, hout⟩ | ⟨hstray, herr, hfits, hout⟩ | ⟨-, -, hout⟩
  · rw [(uint32Parse_same hout).1] at hok
    exact absurd (of_decide_eq_true hok) h.nonempty
  · rw [(uint32Parse_taken hout).1] at hok
    rw [of_decide_eq_true hok] at hread
    have hnum := isNumeral_iff.mpr hread
    have hhigh := hfits.2
    exact ⟨_, hnum, h.sign _ hnum hfits herrno, by omega⟩
  · rw [(uint32Parse_taken hout).1] at hok
    exact absurd (of_decide_eq_true hok) (h.mark herr hstray hfits).1
  · rw [(uint32Parse_null hout).1] at hok
    cases hok

/-- A failure without anything in the way writes nothing new. -/
theorem Uint32Safe.kept {erange : Bool} {expr : CStr} {dest : UInt32}
    (h : Uint32Safe erange expr dest) (hfail : (uint32Parse erange expr dest).1 = false) :
    (uint32Parse erange expr dest).2.1 = dest := by
  rcases atoi32_cases erange expr with
    ⟨-, hout⟩ | ⟨hstray, hread, hfits, herrno, hout⟩ | ⟨hstray, herr, hfits, hout⟩ | ⟨-, -, hout⟩
  · exact (uint32Parse_same hout).2
  · rw [(uint32Parse_taken hout).1] at hfail
    rw [(uint32Parse_taken hout).2]
    exact h.front _ _ hstray hread (of_decide_eq_false hfail) hfits herrno
  · rw [(uint32Parse_taken hout).2]
    exact (h.mark herr hstray hfits).2
  · exact (uint32Parse_null hout).2

section Harm

variable {erange : Bool} {expr : CStr} {dest : UInt32} (h : ParsesUint32 erange expr dest)

include h

/-- A numeral that `atoi32` refuses should not be one of a `uint32_t`. -/
theorem ParsesUint32.range {v : ℤ} (hnum : IsNumeral expr v) (hfits : FitsUint32 v) :
    FitsInt32 v ∧ ¬ (erange = true ∧ zeroLed expr = true) := by
  have hok := h.accepts.mpr ⟨v, hnum, hfits⟩
  have hlead := isNumeral_iff.mp hnum
  rcases atoi32_cases erange expr with
    ⟨hread, -⟩ | ⟨-, hread, hint, herrno, -⟩ | ⟨hstray, -⟩ | ⟨-, -, hout⟩
  · rw [hlead] at hread
    cases hread
  · obtain ⟨rfl, -⟩ := Prod.mk.inj (Option.some.inj (hlead.symm.trans hread))
    exact ⟨hint, herrno⟩
  · exact absurd hnum (not_isNumeral_stray hstray)
  · rw [(uint32Parse_null hout).1] at hok
    cases hok

/-- A number with something behind it should not be written. -/
theorem ParsesUint32.taken {rest : CStr} {x : Int32} (hrest : rest ≠ [])
    (hout : ∀ result, atoi32 erange expr result = (some rest, x, erange)) :
    x.toUInt32 = dest := by
  rw [← (uint32Parse_taken hout).2]
  refine h.kept ?_
  rw [(uint32Parse_taken hout).1]
  exact decide_eq_false hrest

/-- Nor should one behind a stray mark, and it should not be accepted. -/
theorem ParsesUint32.mark (herr : erange = false) (hstray : isStray expr = true)
    (hfits : StrayFits expr) :
    (strayPart expr).2 ≠ [] ∧ (Int32.ofInt (strayValue expr)).toUInt32 = dest := by
  rcases atoi32_cases erange expr with
    ⟨hnone, -⟩ | ⟨hno, -⟩ | ⟨-, -, -, hout⟩ | ⟨-, hmark, -⟩
  · exact absurd hnone (leading_stray hstray)
  · rw [hstray] at hno
    cases hno
  · have hrest : (strayPart expr).2 ≠ [] := fun hrest => by
      obtain ⟨v, hnum, -⟩ := h.accepts.mp (by rw [(uint32Parse_taken hout).1, hrest]; rfl)
      exact not_isNumeral_stray hstray hnum
    exact ⟨hrest, h.taken hrest hout⟩
  · rcases hmark hstray with herr' | hfits'
    · rw [herr] at herr'
      cases herr'
    · exact absurd hfits hfits'

/-- What is in the way does harm. -/
theorem ParsesUint32.safe : Uint32Safe erange expr dest := by
  refine ⟨?_, ?_, fun v => h.range, ?_, h.mark⟩
  · rintro rfl
    obtain ⟨v, hnum, -⟩ := h.accepts.mp rfl
    exact not_isNumeral_nil hnum
  · intro v hnum hfits herrno
    obtain ⟨w, hnum', hpos, -⟩ := h.accepts.mp (uint32Parse_numeral hnum hfits herrno dest).1
    rwa [hnum.unique hnum']
  · intro v rest hstray hread hrest hfits herrno
    rcases atoi32_cases erange expr with
      ⟨hnone, -⟩ | ⟨-, hread', -, -, hout⟩ | ⟨hyes, -⟩ | ⟨hnumeral, -, -⟩
    · rw [hread] at hnone
      cases hnone
    · obtain ⟨rfl, rfl⟩ := Prod.mk.inj (Option.some.inj (hread.symm.trans hread'))
      exact h.taken hrest hout
    · rw [hstray] at hyes
      cases hyes
    · rcases hnumeral v rest hstray hread with hfits' | herrno'
      · exact absurd hfits hfits'
      · exact absurd herrno' herrno

end Harm

/-- **Reading an unsigned number**: `uint32_parse` does what it should exactly if nothing is
in its way. -/
theorem uint32Parse_right_iff (erange : Bool) (expr : CStr) (dest : UInt32) :
    ParsesUint32 erange expr dest ↔ Uint32Safe erange expr dest := by
  constructor
  · exact ParsesUint32.safe
  · intro h
    refine ⟨⟨h.isNumeral, ?_⟩, ?_, h.kept⟩
    · rintro ⟨v, hnum, hfits⟩
      obtain ⟨hint, herrno⟩ := h.range v hnum hfits
      exact (uint32Parse_numeral hnum hint herrno dest).1
    · intro v hnum hfits
      obtain ⟨hint, herrno⟩ := h.range v hnum hfits
      rw [(uint32Parse_numeral hnum hint herrno dest).2]
      exact toNat_ofInt_toUInt32 hfits.1 hint

/-- The string `-1`. -/
def minusOne : CStr := [dash, ⟨49, by decide⟩]

/-- The string `0x80000000`. -/
def pastIntMax : CStr :=
  digitZero :: letterX :: ⟨56, by decide⟩ :: List.replicate 7 digitZero

/-- The string `1x`. -/
def oneAndMore : CStr := [⟨49, by decide⟩, letterX]

/-- The empty string and `-1` are accepted, `0x80000000` is refused, and `1x` is refused but
written. -/
theorem uint32Parse_wrong :
    ¬ ParsesUint32 false [] 0 ∧ ¬ ParsesUint32 false minusOne 0 ∧
      ¬ ParsesUint32 false pastIntMax 0 ∧ ¬ ParsesUint32 false oneAndMore 0 := by
  refine ⟨fun h => ?_, fun h => ?_, fun h => ?_, fun h => ?_⟩
  · obtain ⟨v, hnum, -⟩ := h.accepts.mp (by decide)
    exact not_isNumeral_nil hnum
  · obtain ⟨v, hnum, hpos, -⟩ := h.accepts.mp (by decide)
    have hnum' : IsNumeral minusOne (-1) := isNumeral_iff.mpr (by decide)
    rw [hnum.unique hnum'] at hpos
    omega
  · have hnum : IsNumeral pastIntMax 2147483648 := isNumeral_iff.mpr (by decide)
    exact absurd (h.accepts.mpr ⟨_, hnum, by decide, by decide⟩) (by decide)
  · exact absurd (h.kept (by decide)) (by decide)

end Backd
