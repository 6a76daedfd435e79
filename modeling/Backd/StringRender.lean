import Backd.StringF

/-!
# What the Formatted Writers Write

`rendering` is the whole text of a format with its arguments, with no buffer in sight; it
is `none` where the arguments do not match. The writers of `stringf.c` leave this text as
far as there is room, and return how long it is.

## Main results

* `iobFormatStr_renders`: walking through a format writes its rendering.
* `writers_render`: what each front end leaves in memory, and what it returns.
* `fill_within_iff`: filling a buffer by `cpyf` after `cpyf` goes right exactly as long as
  nothing has to be cut.
-/

namespace Backd

open Numeral Splice

/-! ### Renderings -/

/-- A number in a base up to sixteen, with lower case letters. -/
def digitText (b n : ℕ) : Bytes := (numeral b n).map hexDigit

/-- `%d`. -/
def decimalText (v : Int32) : Bytes :=
  if v.toInt < 0 then 45 :: digitText 10 v.toInt.natAbs else digitText 10 v.toInt.natAbs

/-- `%c`: a printable character, or `\` and the two digits of its low byte. -/
def charText (c : Int32) : Bytes :=
  if 32 ≤ c.toInt ∧ c.toInt ≤ 126 then [UInt8.ofNat c.toInt.toNat]
  else
    let low := c.toUInt32.toNat % 256
    [92, hexDigit (low / 16), hexDigit (low % 16)]

/-- `%s`. -/
def strText (s : Option CStr) : Bytes := (s.map CStr.bytes).getD nullText

/-- `%p`. -/
def ptrText (p : UInt64) : Bytes := 48 :: 120 :: digitText 16 p.toNat

/-- The text of a field, and the arguments behind it; the outer `none` for a character
that names no field, the inner one for arguments that do not match. -/
def fieldText (c : CChar) (ap : List Arg) : Option (Option (Bytes × List Arg)) :=
  if c.1 = 100 then some ((vaInt ap).map fun (v, ap) => (decimalText v, ap))
  else if c.1 = 115 then some ((vaStr ap).map fun (s, ap) => (strText s, ap))
  else if c.1 = 99 then some ((vaInt ap).map fun (v, ap) => (charText v, ap))
  else if c.1 = 120 then some ((vaUint ap).map fun (v, ap) => (digitText 16 v.toNat, ap))
  else if c.1 = 112 then some ((vaPtr ap).map fun (p, ap) => (ptrText p, ap))
  else none

/-- The rendering of a format. A `%` in front of anything but a field stands for itself, and
the character behind it is read afresh. -/
def rendering : CStr → List Arg → Option Bytes
  | [], _ => some []
  | [c], _ => some [c.1]
  | c :: d :: format, ap =>
    if c ≠ percent then (rendering (d :: format) ap).map (c.1 :: ·)
    else
      match fieldText d ap with
      | none => (rendering (d :: format) ap).map (percent.1 :: ·)
      | some field => do
        let (text, ap) ← field
        let rest ← rendering format ap
        return text ++ rest

/-! ### The writer -/

/-- A buffer on `dst` with room for `cap` bytes, into which `text` has been written. -/
def Iobuf.written (dst : Bytes) (cap : ℕ) (text : Bytes) : Iobuf :=
  { data := text.take cap ++ dst.drop (min text.length cap), cap := cap,
    len := min text.length cap, disc := text.length - cap, width := 0 }

/-- The memory takes as much of the text as the room admits. -/
def Takes (dst : Bytes) (cap : ℕ) (text : Bytes) : Prop := min text.length cap ≤ dst.length

theorem Iobuf.written_nil (dst : Bytes) (cap : ℕ) : written dst cap [] = .on dst cap := by
  simp [written, Iobuf.on]

theorem Takes.front {dst text more : Bytes} {cap : ℕ} (h : Takes dst cap (text ++ more)) :
    Takes dst cap text := by
  simp only [Takes, List.length_append] at *
  omega

/-- The loop of `iob_write` copies what fits. -/
theorem iobCopy_eq {cap len : ℕ} {mem src : Bytes} {i : ℕ}
    (h : len + i + min src.length (cap - (len + i)) ≤ mem.length) :
    iobCopy cap len mem i src =
      some (overwrite mem (len + i) (src.take (cap - (len + i))),
        i + min src.length (cap - (len + i)), src.length - (cap - (len + i))) := by
  induction src generalizing mem i with
  | nil => simp [iobCopy]
  | cons c src ih =>
      rw [iobCopy]
      split
      · next hroom =>
          obtain ⟨room, hsub⟩ : ∃ room, cap - (len + i) = room + 1 :=
            ⟨cap - (len + i) - 1, by omega⟩
          have hsub' : cap - (len + (i + 1)) = room := by omega
          rw [hsub, List.length_cons] at h
          have hput : putAt mem (len + i) c = some (mem.set (len + i) c) := if_pos (by omega)
          have hnext : len + (i + 1) + min src.length (cap - (len + (i + 1))) ≤
              (mem.set (len + i) c).length := by
            rw [hsub', List.length_set]
            omega
          have hone : overwrite mem (len + i) (c :: src.take room) =
              overwrite (mem.set (len + i) c) (len + (i + 1)) (src.take room) :=
            overwrite_cons (by omega) c _
          simp only [hput, Option.bind_eq_bind, Option.bind_some]
          rw [ih hnext, hsub', hsub, List.take_succ_cons, hone, List.length_cons]
          simp only [Option.some.injEq, Prod.mk.injEq, true_and]
          omega
      · next hroom =>
          have hsub : cap - (len + i) = 0 := by omega
          simp [hsub]

/-- **`iob_write`** appends to the text. -/
theorem iobWrite_written {dst text src : Bytes} {cap : ℕ} (h : Takes dst cap (text ++ src)) :
    iobWrite (.written dst cap text) src = some (.written dst cap (text ++ src)) := by
  simp only [Takes, List.length_append] at h
  have hlen : (text.take cap).length = min text.length cap := by
    rw [List.length_take, Nat.min_comm]
  have hroom : min text.length cap + 0 + min src.length (cap - (min text.length cap + 0)) ≤
      (text.take cap ++ dst.drop (min text.length cap)).length := by
    rw [List.length_append, hlen, List.length_drop]
    omega
  have hcopy := iobCopy_eq hroom
  have hdata : overwrite (text.take cap ++ dst.drop (min text.length cap))
      (min text.length cap) (src.take (cap - min text.length cap)) =
      (text ++ src).take cap ++ dst.drop (min (text ++ src).length cap) := by
    have hsplit : dst.drop (min text.length cap) =
        (dst.drop (min text.length cap)).take (src.take (cap - min text.length cap)).length ++
          dst.drop (min (text ++ src).length cap) := by
      have hsum : min text.length cap + (src.take (cap - min text.length cap)).length =
          min (text ++ src).length cap := by
        rw [List.length_take, List.length_append]
        omega
      rw [← hsum, ← List.drop_drop, List.take_append_drop]
    have hold : (src.take (cap - min text.length cap)).length =
        ((dst.drop (min text.length cap)).take
          (src.take (cap - min text.length cap)).length).length := by
      simp only [List.length_take, List.length_drop]
      omega
    have htext : text.take cap ++ src.take (cap - min text.length cap) =
        (text ++ src).take cap := by
      rw [List.take_append]
      congr 2
      omega
    rw [hsplit, ← hlen, overwrite_append (hlen ▸ hold), ← List.append_assoc, hlen, htext]
  rw [iobWrite]
  simp only [Iobuf.written, hcopy, Nat.add_zero, hdata, Option.bind_eq_bind, Option.bind_some]
  simp only [Option.pure_def, Option.some.injEq, Iobuf.mk.injEq, List.length_append, true_and,
    and_true]
  omega

/-! ### Numbers -/

/-- The last four bits of an `int`. -/
theorem low_nibble (c : Int32) : (c &&& 0xf).toUInt32.toNat = c.toUInt32.toNat % 16 := by
  simp only [Int32.toUInt32_and, UInt32.toNat_and]
  exact Nat.and_two_pow_sub_one_eq_mod _ 4

/-- The four bits in front of these; the sign that a shift pulls in does not reach
them. -/
theorem high_nibble (c : Int32) :
    ((c >>> 4) &&& 0xf).toUInt32.toNat = c.toUInt32.toNat / 16 % 16 := by
  have hshift : c.toBitVec.sshiftRight 4 &&& 15#32 = (c.toBitVec >>> 4) &&& 15#32 := by
    apply BitVec.eq_of_getLsbD_eq
    intro i hi
    rw [BitVec.getLsbD_and, BitVec.getLsbD_and, BitVec.getLsbD_sshiftRight,
      BitVec.getLsbD_ushiftRight]
    by_cases h : i < 4
    · simp [show 4 + i < 32 by omega, show ¬ 32 ≤ i by omega]
    · have hpow : 15 < 2 ^ i :=
        Nat.lt_of_lt_of_le (by decide) (Nat.pow_le_pow_right (by decide) (Nat.le_of_not_lt h))
      have hzero : (15#32).getLsbD i = false := by
        rw [BitVec.getLsbD_ofNat, Nat.testBit_lt_two_pow hpow, Bool.and_false]
      rw [hzero, Bool.and_false, Bool.and_false]
  change (c.toBitVec.sshiftRight 4 &&& 15#32).toNat = c.toBitVec.toNat / 16 % 16
  rw [hshift, BitVec.toNat_and, BitVec.toNat_ushiftRight, Nat.shiftRight_eq_div_pow]
  exact Nat.and_two_pow_sub_one_eq_mod _ 4

/-- The number `__int` prints behind the sign; the negation wraps. -/
theorem int32_magnitude (c : Int32) :
    (if c < 0 then (c * -1).toUInt32 else c.toUInt32).toNat = c.toInt.natAbs := by
  have hvalue := int32_value c
  have hlt := c.toUInt32.toNat_lt
  have hneg : (c * -1).toUInt32.toNat = (2 ^ 32 - c.toUInt32.toNat) % 2 ^ 32 := by
    rw [Int32.mul_neg, Int32.mul_one, Int32.toUInt32_neg, UInt32.toNat_neg]
    rfl
  by_cases h : c < 0
  · have hsign : c.toInt < 0 := by simpa [Int32.lt_iff_toInt_lt] using h
    rw [if_pos h, hneg]
    split at hvalue <;> omega
  · have hsign : 0 ≤ c.toInt := by simpa [Int32.lt_iff_toInt_lt] using h
    rw [if_neg h]
    split at hvalue <;> omega

/-- The digits of `__hex` and `__ptr`, when the array has room for them. -/
theorem hexLoop_eq {i n : ℕ} (h : n < 16 ^ i) (text : Bytes) :
    hexLoop i n text =
      ⟨i - (places 16 n).length, (places 16 n).map hexDigit ++ text⟩ := by
  induction i generalizing n text with
  | zero =>
      obtain rfl : n = 0 := by simpa using h
      simp [hexLoop]
  | succ i ih =>
      rw [hexLoop]
      by_cases hn : n = 0
      · simp [hn]
      · have hdiv : n >>> 4 = n / 16 := Nat.shiftRight_eq_div_pow n 4
        have hmod : n &&& 0xf = n % 16 := Nat.and_two_pow_sub_one_eq_mod n 4
        have hnext : n / 16 < 16 ^ i := by
          rw [Nat.pow_succ] at h
          exact Nat.div_lt_of_lt_mul (by omega)
        rw [if_neg hn, hdiv, hmod, ih hnext, places_step (by decide) hn]
        simp

/-- The digits of `__int`. -/
theorem decLoop_eq {i n : ℕ} (h : n < 10 ^ i) (text : Bytes) :
    decLoop i n text =
      some ⟨i - (places 10 n).length, (places 10 n).map hexDigit ++ text⟩ := by
  induction i generalizing n text with
  | zero =>
      obtain rfl : n = 0 := by simpa using h
      simp [decLoop]
  | succ i ih =>
      rw [decLoop]
      by_cases hn : n = 0
      · simp [hn]
      · have hdigit : ∀ d < 10, UInt8.ofNat (d ||| 0x30) = hexDigit d := by decide
        have hnext : n / 10 < 10 ^ i := by
          rw [Nat.pow_succ] at h
          exact Nat.div_lt_of_lt_mul (by omega)
        rw [if_neg hn, hdigit _ (Nat.mod_lt _ (by decide)), ih hnext,
          places_step (by decide) hn]
        simp

/-! ### Fields -/

section Fields

variable (iob : Iobuf)

theorem printChr_eq (c : Int32) : printChr iob c = iobWrite iob (charText c) := by
  have hrange : (c ≥ 32 ∧ c ≤ 126) ↔ 32 ≤ c.toInt ∧ c.toInt ≤ 126 := by
    rw [ge_iff_le, Int32.le_iff_toInt_le, Int32.le_iff_toInt_le]
    rfl
  rw [printChr, charText]
  by_cases h : 32 ≤ c.toInt ∧ c.toInt ≤ 126
  · rw [if_pos (hrange.mpr h), if_pos h]
    have hvalue := int32_value c
    have hbyte : c.toUInt32.toNat = c.toInt.toNat := by
      have := c.toUInt32.toNat_lt
      split at hvalue <;> omega
    have hchar : c.toUInt32.toUInt8 = UInt8.ofNat c.toInt.toNat := by
      rw [← hbyte]
      rfl
    rw [hchar]
  · rw [if_neg (mt hrange.mp h), if_neg h, high_nibble, low_nibble]
    have hhigh : c.toUInt32.toNat / 16 % 16 = c.toUInt32.toNat % 256 / 16 := by omega
    have hlow : c.toUInt32.toNat % 16 = c.toUInt32.toNat % 256 % 16 := by omega
    rw [hhigh, hlow]

theorem printHex_eq (n : UInt32) : printHex iob n = iobWrite iob (digitText 16 n.toNat) := by
  by_cases hn : n = 0
  · subst hn
    rfl
  · have hne : n.toNat ≠ 0 := fun h => hn (UInt32.toNat_inj.mp h)
    have hlt : n.toNat < 16 ^ 16 := Nat.lt_trans n.toNat_lt (by decide)
    simp [printHex, hn, hexLoop_eq hlt, digitText, numeral, hne]

theorem printInt_eq (c : Int32) : printInt iob c = iobWrite iob (decimalText c) := by
  have hmagnitude := int32_magnitude c
  have hsign : c < 0 ↔ c.toInt < 0 := Int32.lt_iff_toInt_lt
  simp only [printInt]
  generalize (if c < 0 then (c * -1).toUInt32 else c.toUInt32) = n at hmagnitude
  rw [decimalText, ← hmagnitude]
  by_cases hn : n = 0
  · subst hn
    have hpos : ¬ c.toInt < 0 := by
      rw [UInt32.toNat_zero] at hmagnitude
      omega
    rw [if_neg hpos]
    simp [Back.put, decLoop, hsign, hpos, digitText, numeral, hexDigit, hexDigits]
  · have hne : n.toNat ≠ 0 := fun h => hn (UInt32.toNat_inj.mp h)
    have hlt : n.toNat < 10 ^ 10 := Nat.lt_trans n.toNat_lt (by decide)
    have hlen := length_places_le (by decide) hlt
    have hfree : ∃ i, 20 - (places 10 n.toNat).length = i + 1 :=
      ⟨20 - (places 10 n.toNat).length - 1, by omega⟩
    obtain ⟨i, hi⟩ := hfree
    have hloop := decLoop_eq (i := 20) (Nat.lt_trans n.toNat_lt (by decide)) []
    rw [hi] at hloop
    by_cases hneg : c.toInt < 0
    · simp [hn, hloop, Back.put, hsign, hneg, digitText, numeral, hne]
    · simp [hn, hloop, hsign, hneg, digitText, numeral, hne]

theorem printPtr_eq (p : UInt64) : printPtr iob p = iobWrite iob (ptrText p) := by
  by_cases hp : p = 0
  · subst hp
    rfl
  · have hne : p.toNat ≠ 0 := fun h => hp (UInt64.toNat_inj.mp h)
    have hlt : p.toNat < 16 ^ 16 := Nat.lt_of_lt_of_eq p.toNat_lt (by decide)
    have hlen := length_places_le (by decide) hlt
    obtain ⟨i, hi⟩ : ∃ i, 18 - (places 16 p.toNat).length = i + 1 + 1 :=
      ⟨18 - (places 16 p.toNat).length - 2, by omega⟩
    have hloop := hexLoop_eq (i := 18) (Nat.lt_trans hlt (by decide)) []
    rw [hi] at hloop
    simp [printPtr, hp, hloop, Back.put, ptrText, digitText, numeral, hne]

theorem printStr_eq (s : Option CStr) : printStr iob s = iobWrite iob (strText s) := by
  cases s <;> rfl

/-- `format_field` writes the text of the field, or the `%` itself. -/
theorem formatField_eq (d : CChar) (tmp : CStr) (ap : List Arg) :
    formatField iob (d :: tmp) ap =
      match fieldText d ap with
      | none => (iobWrite iob [percent.1]).map fun iob => (iob, d :: tmp, ap)
      | some field => do
        let (text, ap) ← field
        let iob ← iobWrite iob text
        return (iob, tmp, ap) := by
  simp only [formatField, fieldText]
  split_ifs
  · cases vaInt ap <;> simp [printInt_eq]
  · cases vaStr ap <;> simp [printStr_eq]
  · cases vaInt ap <;> simp [printChr_eq]
  · cases vaUint ap <;> simp [printHex_eq]
  · cases vaPtr ap <;> simp [printPtr_eq]
  · rfl

end Fields

/-! ### The walk through a format -/

section Walk

variable {dst : Bytes} {cap : ℕ}

/-- Literals are written up to the next `%`. -/
theorem copyLiterals_eq {text : Bytes} {ptr : CStr}
    (h : Takes dst cap (text ++ CStr.bytes (ptr.takeWhile (· ≠ percent)))) :
    copyLiterals (.written dst cap text) ptr =
      some (.written dst cap (text ++ CStr.bytes (ptr.takeWhile (· ≠ percent))),
        ptr.dropWhile (· ≠ percent)) := by
  induction ptr generalizing text with
  | nil => simp [copyLiterals, CStr.bytes]
  | cons c ptr ih =>
      rw [copyLiterals]
      by_cases hc : c = percent
      · simp [hc, CStr.bytes]
      · have hbytes : CStr.bytes ((c :: ptr).takeWhile (· ≠ percent)) =
            [c.1] ++ CStr.bytes (ptr.takeWhile (· ≠ percent)) := by
          simp [hc, CStr.bytes]
        rw [hbytes, ← List.append_assoc] at h ⊢
        have hdrop : (c :: ptr).dropWhile (· ≠ percent) = ptr.dropWhile (· ≠ percent) := by
          simp [hc]
        rw [if_pos hc, iobWrite_written h.front, hdrop]
        exact ih h

/-- A literal stands for itself. -/
theorem rendering_cons {c : CChar} (hc : c ≠ percent) (ptr : CStr) (ap : List Arg) :
    rendering (c :: ptr) ap = (rendering ptr ap).map (c.1 :: ·) := by
  cases ptr with
  | nil => rfl
  | cons d ptr => rw [rendering, if_pos hc]

/-- The rendering of a format begins with its literals. -/
theorem rendering_literals (ptr : CStr) (ap : List Arg) :
    rendering ptr ap = (rendering (ptr.dropWhile (· ≠ percent)) ap).map
      (CStr.bytes (ptr.takeWhile (· ≠ percent)) ++ ·) := by
  induction ptr with
  | nil => simp [CStr.bytes]
  | cons c ptr ih =>
      by_cases hc : c = percent
      · simp [hc, CStr.bytes]
      · rw [rendering_cons hc, ih, Option.map_map]
        simp [hc, CStr.bytes, Function.comp_def]

/-- What is behind a `%` is a text to be written and a rest of the format; the text is `%`
itself where no field is named. -/
theorem formatField_renders {rest : CStr} {ap : List Arg} {r : Bytes}
    (hr : rendering (percent :: rest) ap = some r) :
    ∃ text ptr ap' r', r = text ++ r' ∧ rendering ptr ap' = some r' ∧
      ptr.length ≤ rest.length ∧ ∀ lead, Takes dst cap (lead ++ text) →
        formatField (.written dst cap lead) rest ap =
          some (.written dst cap (lead ++ text), ptr, ap') := by
  cases rest with
  | nil =>
      refine ⟨[percent.1], [], ap, [], ?_, rfl, Nat.le_refl _, fun lead h => ?_⟩
      · simpa [rendering, eq_comm] using hr
      · rw [formatField, iobWrite_written h, Option.map_some]
  | cons d rest =>
      rw [rendering, if_neg (not_not.mpr rfl)] at hr
      cases hfield : fieldText d ap with
      | none =>
          simp only [hfield] at hr
          obtain ⟨r', hr', rfl⟩ := Option.map_eq_some_iff.mp hr
          refine ⟨[percent.1], d :: rest, ap, r', rfl, hr', Nat.le_refl _, fun lead h => ?_⟩
          simp only [formatField_eq, hfield, iobWrite_written h, Option.map_some]
      | some field =>
          simp only [hfield] at hr
          obtain ⟨⟨text, ap'⟩, hpair, hr⟩ := Option.bind_eq_some_iff.mp hr
          obtain ⟨r', hr', hr⟩ := Option.bind_eq_some_iff.mp hr
          refine ⟨text, rest, ap', r', (Option.some.inj hr).symm, hr', Nat.le_succ _,
            fun lead h => ?_⟩
          simp only [formatField_eq, hfield, hpair, iobWrite_written h, Option.bind_eq_bind,
            Option.bind_some, Option.pure_def]

/-- The walk, from any point of the format on. -/
theorem formatLoop_renders {turns : ℕ} {text r : Bytes} {ptr : CStr} {ap : List Arg}
    (hturns : ptr.length < turns) (hr : rendering ptr ap = some r)
    (h : Takes dst cap (text ++ r)) :
    formatLoop turns (.written dst cap text) ptr ap = some (.written dst cap (text ++ r)) := by
  induction turns generalizing text r ptr ap with
  | zero => omega
  | succ turns ih =>
      rw [rendering_literals] at hr
      obtain ⟨r', hr', rfl⟩ := Option.map_eq_some_iff.mp hr
      rw [← List.append_assoc] at h ⊢
      have hrest : (ptr.dropWhile (· ≠ percent)).length ≤ ptr.length :=
        (List.dropWhile_suffix _).length_le
      have hhead := List.head?_dropWhile_not (· ≠ percent) ptr
      simp only [formatLoop, copyLiterals_eq h.front, Option.bind_eq_bind, Option.bind_some]
      generalize text ++ CStr.bytes (ptr.takeWhile (· ≠ percent)) = lead at *
      generalize ptr.dropWhile (· ≠ percent) = rest at *
      cases rest with
      | nil =>
          obtain rfl : r' = [] := by simpa [rendering, eq_comm] using hr'
          rw [List.append_nil]
      | cons p rest =>
          obtain rfl : p = percent := by simpa using hhead
          obtain ⟨field, next, ap', r'', rfl, hr'', hnext, hfield⟩ := formatField_renders hr'
          have hwidth : { Iobuf.written dst cap lead with width := 0 } =
            Iobuf.written dst cap lead := rfl
          rw [List.length_cons] at hrest
          rw [← List.append_assoc] at h ⊢
          dsimp only
          rw [hwidth, hfield lead h.front, Option.bind_some]
          have hturns' : next.length < turns := by omega
          exact ih hturns' hr'' h

/-- **`iob_format_str`** writes the rendering of the format. -/
theorem iobFormatStr_renders {r : Bytes} {format : CStr} {ap : List Arg}
    (hr : rendering format ap = some r) (h : Takes dst cap r) :
    iobFormatStr (.on dst cap) format ap = some (.written dst cap r) := by
  rw [← List.nil_append r] at h ⊢
  rw [← Iobuf.written_nil]
  exact formatLoop_renders (Nat.lt_succ_self format.length) hr h

end Walk

/-! ### The front ends -/

section FrontEnds

variable {format : CStr} {ap : List Arg} {r : Bytes}

/-- A zero behind the text that has been written. -/
theorem putAt_behind {dst text : Bytes} {n : ℕ} (hn : n = text.length) (h : n < dst.length) :
    putAt (text ++ dst.drop n) n 0 = some (text ++ 0 :: dst.drop (n + 1)) := by
  subst hn
  have hlt : text.length < (text ++ dst.drop text.length).length := by
    rw [List.length_append, List.length_drop]
    omega
  rw [putAt, if_pos hlt, List.set_append_right _ _ (Nat.le_refl _), Nat.sub_self,
    List.drop_eq_getElem_cons h, List.set_cons_zero]

/-- A zero in place of the last byte that has been written. -/
theorem putAt_last {dst : Bytes} {n : ℕ} (h : n + 1 ≤ r.length) :
    putAt (r.take (n + 1) ++ dst) n 0 = some (r.take n ++ 0 :: dst) := by
  have hlen : (r.take n).length = n := List.length_take_of_le (by omega)
  have hlt : n < (r.take (n + 1) ++ dst).length := by
    rw [List.length_append, List.length_take]
    omega
  rw [putAt, if_pos hlt, List.take_succ_eq_append_getElem h, List.append_assoc,
    List.set_append_right _ _ (Nat.le_of_eq hlen), hlen, Nat.sub_self]
  rfl

/-- **`cpyf`** leaves the rendering, cut at `dstsize`. -/
theorem cpyf_renders (hr : rendering format ap = some r) {dst : Bytes} {dstsize : ℕ}
    (h : Takes dst dstsize r) :
    cpyf dst dstsize format ap =
      some (r.take dstsize ++ dst.drop (min r.length dstsize), r.length) := by
  have hsum : min r.length dstsize + (r.length - dstsize) = r.length := by omega
  simp only [cpyf, iobFormatStr_renders hr h, Iobuf.written, Option.bind_eq_bind,
    Option.bind_some, hsum, Option.pure_def]

/-- **`scpyf`** cuts at `IOBUF_MAX - 1` and puts a zero behind. -/
theorem scpyf_renders (hr : rendering format ap = some r) {str : Bytes}
    (h : min r.length (iobufMax - 1) + 1 ≤ str.length) :
    scpyf str format ap =
      some (r.take (iobufMax - 1) ++ 0 :: str.drop (min r.length (iobufMax - 1) + 1),
        r.length) := by
  have hroom : Takes str (iobufMax - 1) r := Nat.le_of_succ_le h
  have hsum : min r.length (iobufMax - 1) + (r.length - (iobufMax - 1)) = r.length := by omega
  have hlen : min r.length (iobufMax - 1) = (r.take (iobufMax - 1)).length := by
    rw [List.length_take, Nat.min_comm]
  simp only [scpyf, iobFormatStr_renders hr hroom, Iobuf.written, Option.bind_eq_bind,
    Option.bind_some, putAt_behind hlen h, hsum, Option.pure_def]

/-- `slcpyf` with no room at all. -/
theorem slcpyf_zero (hr : rendering format ap = some r) (dst : Bytes) :
    slcpyf dst 0 format ap = some (dst, r.length) := by
  have hroom : Takes dst 0 r := by simp [Takes]
  simp [slcpyf, iobFormatStr_renders hr hroom, Iobuf.written]

/-- **`slcpyf`** keeps the last byte of its room for the zero. -/
theorem slcpyf_renders (hr : rendering format ap = some r) {dst : Bytes} {dstsize : ℕ}
    (hpos : 0 < dstsize) (h : min r.length (dstsize - 1) + 1 ≤ dst.length) :
    slcpyf dst dstsize format ap =
      some (r.take (dstsize - 1) ++ 0 :: dst.drop (min r.length (dstsize - 1) + 1),
        r.length) := by
  obtain ⟨n, rfl⟩ : ∃ n, dstsize = n + 1 := ⟨dstsize - 1, by omega⟩
  rw [Nat.add_sub_cancel] at h ⊢
  have hroom : Takes dst (n + 1) r := by
    simp only [Takes]
    omega
  have hsum : min r.length (n + 1) + (r.length - (n + 1)) = r.length := by omega
  simp only [slcpyf, iobFormatStr_renders hr hroom, Iobuf.written, Option.bind_eq_bind,
    Option.bind_some, hsum, Option.pure_def]
  rw [if_pos (Nat.succ_ne_zero n)]
  by_cases hfull : n + 1 ≤ r.length
  · -- the text fills the room, and its last byte makes way
    have hmin : min r.length (n + 1) = n + 1 := by omega
    have hmin' : min r.length n = n := by omega
    rw [hmin, hmin', if_pos rfl, Nat.add_sub_cancel, putAt_last hfull]
    rfl
  · have hmin : min r.length (n + 1) = r.length := by omega
    have hmin' : min r.length n = r.length := by omega
    have htake : r.take (n + 1) = r := List.take_of_length_le (by omega)
    have htake' : r.take n = r := List.take_of_length_le (by omega)
    rw [hmin'] at h
    rw [hmin, hmin', htake, htake', if_neg (by omega), Nat.sub_zero, putAt_behind rfl h]
    rfl

/-- **`ssavef`** hands out a fresh copy. -/
theorem ssavef_renders (hr : rendering format ap = some r) (A : Allocator) (call : ℕ)
    (buf : StaticBuf) :
    ssavef A call buf format ap =
      if A.serves call (min r.length (iobufMax - 1) + 1) then
        some (some (r.take (iobufMax - 1) ++ [0]), (r.length : ℤ))
      else some (none, -1) := by
  have hroom : Takes buf.1 (iobufMax - 1) r := by
    rw [Takes, buf.2, iobufMax]
    omega
  have hsum : min r.length (iobufMax - 1) + (r.length - (iobufMax - 1)) = r.length := by omega
  have hlen : (r.take (iobufMax - 1)).length = min r.length (iobufMax - 1) := by
    rw [List.length_take, Nat.min_comm]
  have hcopy : (r.take (iobufMax - 1) ++ buf.1.drop (min r.length (iobufMax - 1))).take
      (min r.length (iobufMax - 1)) = r.take (iobufMax - 1) :=
    List.take_left' hlen
  simp only [ssavef, iobFormatStr_renders hr hroom, Iobuf.written, Option.bind_eq_bind,
    Option.bind_some, hsum, hcopy, Option.pure_def]
  split
  · have hfresh : overwrite (A.fresh call 0 (min r.length (iobufMax - 1) + 1)) 0
        (r.take (iobufMax - 1)) = r.take (iobufMax - 1) ++
          (A.fresh call 0 (min r.length (iobufMax - 1) + 1)).drop
            (min r.length (iobufMax - 1)) := by
      rw [overwrite, List.take_zero, List.nil_append, Nat.zero_add, hlen]
    have hlt : min r.length (iobufMax - 1) <
        (A.fresh call 0 (min r.length (iobufMax - 1) + 1)).length := by
      rw [Allocator.length_fresh]
      exact Nat.lt_succ_self _
    have hend : (A.fresh call 0 (min r.length (iobufMax - 1) + 1)).drop
        (min r.length (iobufMax - 1) + 1) = [] :=
      List.drop_of_length_le (by rw [Allocator.length_fresh])
    rw [hfresh, putAt_behind hlen.symm hlt, hend]
    rfl
  · rfl

/-- **`fputstr`** writes the rendering, cut at `IOBUF_MAX`, whatever its buffer held. -/
theorem fputstr_renders (hr : rendering format ap = some r) (buf : StaticBuf) :
    fputstr buf format ap = some (r.take iobufMax) := by
  have hroom : Takes buf.1 iobufMax r := by
    rw [Takes, buf.2]
    exact Nat.min_le_right _ _
  have hlen : (r.take iobufMax).length = min r.length iobufMax := by
    rw [List.length_take, Nat.min_comm]
  simp only [fputstr, iobFormatStr_renders hr hroom, Iobuf.written, Option.bind_eq_bind,
    Option.bind_some, Option.pure_def, List.take_left' hlen]

end FrontEnds

/-- The front ends write the rendering of the format, each cut where its room ends and with
the zero it promises, touch nothing behind, and return the length of the whole text. -/
theorem writers_render (format : CStr) (ap : List Arg) (r : Bytes)
    (hr : rendering format ap = some r) :
    (∀ (dst : Bytes) (dstsize : ℕ), min r.length dstsize ≤ dst.length →
      cpyf dst dstsize format ap =
        some (r.take dstsize ++ dst.drop (min r.length dstsize), r.length)) ∧
    (∀ (dst : Bytes) (dstsize : ℕ), 0 < dstsize →
      min r.length (dstsize - 1) + 1 ≤ dst.length →
      slcpyf dst dstsize format ap =
        some (r.take (dstsize - 1) ++ 0 :: dst.drop (min r.length (dstsize - 1) + 1),
          r.length)) ∧
    (∀ dst : Bytes, slcpyf dst 0 format ap = some (dst, r.length)) ∧
    (∀ str : Bytes, min r.length (iobufMax - 1) + 1 ≤ str.length →
      scpyf str format ap =
        some (r.take (iobufMax - 1) ++ 0 :: str.drop (min r.length (iobufMax - 1) + 1),
          r.length)) ∧
    ∀ (A : Allocator) (call : ℕ) (buf : StaticBuf),
      ssavef A call buf format ap =
        if A.serves call (min r.length (iobufMax - 1) + 1) then
          some (some (r.take (iobufMax - 1) ++ [0]), (r.length : ℤ))
        else some (none, -1) := by
  refine ⟨?_, ?_, slcpyf_zero hr, ?_, ssavef_renders hr⟩
  · intro dst dstsize hroom
    exact cpyf_renders hr hroom
  · intro dst dstsize hpos hroom
    exact slcpyf_renders hr hpos hroom
  · intro str hroom
    exact scpyf_renders hr hroom

/-- A writer is asked for `"%d%c"` with two arguments. -/
theorem writers_render_pair :
    rendering [percent, ⟨100, by decide⟩, percent, ⟨99, by decide⟩] [.int (-7), .int 10] =
        some [45, 55, 92, 48, 97] ∧
      cpyf [0, 0, 0, 1] 3 [percent, ⟨100, by decide⟩, percent, ⟨99, by decide⟩]
        [.int (-7), .int 10] = some ([45, 55, 92, 1], 5) := by
  have hr : rendering [percent, ⟨100, by decide⟩, percent, ⟨99, by decide⟩]
      [.int (-7), .int 10] = some [45, 55, 92, 48, 97] := by
    simp [rendering, fieldText, percent, vaInt, decimalText, charText, digitText, numeral, places]
    decide
  refine ⟨hr, ?_⟩
  exact (writers_render _ _ _ hr).1 [0, 0, 0, 1] 3 (by decide)

/-! ### Filling a buffer -/

section Fill

variable {buf : Bytes} {off : ℕ}

/-- What `cpyf` leaves in the middle of a buffer. -/
theorem cpyfAt_renders {format : CStr} {ap : List Arg} {r : Bytes}
    (hr : rendering format ap = some r) (hoff : off ≤ buf.length) (hbuf : buf.length ≤ sizeMax) :
    cpyfAt buf off format ap =
      some (overwrite buf off (r.take (buf.length - off)), off + r.length) := by
  have hroom : Takes (buf.drop off) (buf.length - off) r := by
    simp only [Takes, List.length_drop]
    omega
  have hmem : buf.take off ++ (r.take (buf.length - off) ++
      (buf.drop off).drop (min r.length (buf.length - off))) =
      overwrite buf off (r.take (buf.length - off)) := by
    rw [overwrite, List.drop_drop, List.length_take, Nat.min_comm, List.append_assoc]
  simp only [cpyfAt, szSub_eq hoff hbuf, cpyf_renders hr hroom, Option.bind_eq_bind,
    Option.bind_some, Option.pure_def, hmem]

/-- A whole fill, for as long as nothing has to be cut. -/
theorem cpyfAll_fits {calls : List (CStr × List Arg)} {texts : List Bytes}
    (hr : List.Forall₂ (fun call r => rendering call.1 call.2 = some r) calls texts)
    (hbuf : buf.length ≤ sizeMax) (h : off + texts.flatten.length ≤ buf.length) :
    ∃ offs, cpyfAll buf off calls = some (overwrite buf off texts.flatten, offs) ∧
      ∀ o ∈ offs, o ≤ buf.length := by
  induction hr generalizing buf off with
  | nil => exact ⟨[], by simp [cpyfAll], by simp⟩
  | @cons call r calls texts hr _ ih =>
      rw [List.flatten_cons, List.length_append] at h
      have hfit : r.take (buf.length - off) = r := List.take_of_length_le (by omega)
      have hlen : (overwrite buf off r).length = buf.length := length_overwrite (by omega)
      have hoff : off ≤ buf.length := by omega
      have hcall := cpyfAt_renders hr hoff hbuf
      rw [hfit] at hcall
      have hrest : off + r.length + texts.flatten.length ≤ (overwrite buf off r).length := by
        rw [hlen, Nat.add_assoc]
        exact h
      obtain ⟨offs, hcalls, hoffs⟩ := ih (hlen ▸ hbuf) hrest
      refine ⟨(off + r.length) :: offs, ?_, ?_⟩
      · rw [cpyfAll, hcall]
        simp only [Option.bind_eq_bind, Option.bind_some, hcalls, Option.pure_def,
          List.flatten_cons,
          overwrite_overwrite_append (Nat.le_trans (Nat.le_add_right _ _) (hlen ▸ hrest))]
      · intro o ho
        rcases List.mem_cons.mp ho with rfl | ho
        · omega
        · exact hlen ▸ hoffs o ho

/-- The offsets add up to the lengths of all texts, so one that stays inside the buffer has
had all of them fit. -/
theorem cpyfAll_within {calls : List (CStr × List Arg)} {texts : List Bytes}
    (hr : List.Forall₂ (fun call r => rendering call.1 call.2 = some r) calls texts)
    (hbuf : buf.length ≤ sizeMax) (hoff : off ≤ buf.length) {buf' : Bytes} {offs : List ℕ}
    (hrun : cpyfAll buf off calls = some (buf', offs)) (h : ∀ o ∈ offs, o ≤ buf.length) :
    off + texts.flatten.length ≤ buf.length := by
  induction hr generalizing buf off offs with
  | nil => simpa using hoff
  | @cons call r calls texts hr _ ih =>
      rw [cpyfAll, cpyfAt_renders hr hoff hbuf] at hrun
      simp only [Option.bind_eq_bind, Option.bind_some] at hrun
      obtain ⟨⟨mem, offs'⟩, hrun', hpair⟩ := Option.bind_eq_some_iff.mp hrun
      obtain ⟨rfl, rfl⟩ : mem = buf' ∧ (off + r.length) :: offs' = offs := by
        simpa using hpair
      have hnext : off + r.length ≤ buf.length := h _ List.mem_cons_self
      have hlen : (overwrite buf off (r.take (buf.length - off))).length = buf.length :=
        length_overwrite (by rw [List.length_take]; omega)
      have hrest := ih (by rwa [hlen]) (by rwa [hlen]) hrun'
        (fun o ho => by rw [hlen]; exact h o (List.mem_cons_of_mem _ ho))
      rw [hlen] at hrest
      rw [List.flatten_cons, List.length_append]
      omega

end Fill

/-- A fill goes right: no offset leaves the buffer, and in the end it holds all texts, cut at
its size. -/
def FillsBuffer (buf : Bytes) (calls : List (CStr × List Arg)) (texts : List Bytes) : Prop :=
  ∃ offs, cpyfAll buf 0 calls = some (texts.flatten.take buf.length ++
      buf.drop (min texts.flatten.length buf.length), offs) ∧
    ∀ off ∈ offs, off ≤ buf.length

/-- Filling a buffer by `cpyf` after `cpyf` goes right exactly if all texts together fit:
the result counts the bytes that were cut off, too, and leads the next offset astray. -/
theorem fill_within_iff (buf : Bytes) (calls : List (CStr × List Arg)) (texts : List Bytes)
    (hbuf : buf.length ≤ sizeMax)
    (hr : List.Forall₂ (fun call r => rendering call.1 call.2 = some r) calls texts) :
    FillsBuffer buf calls texts ↔ texts.flatten.length ≤ buf.length := by
  constructor
  · rintro ⟨offs, hrun, hoffs⟩
    have h := cpyfAll_within hr hbuf (Nat.zero_le _) hrun hoffs
    rwa [Nat.zero_add] at h
  · intro h
    obtain ⟨offs, hrun, hoffs⟩ := cpyfAll_fits hr hbuf (by rwa [Nat.zero_add])
    refine ⟨offs, ?_, hoffs⟩
    rw [hrun, overwrite, List.take_zero, List.nil_append, Nat.zero_add,
      List.take_of_length_le h, Nat.min_eq_left h]

/-- A buffer of two bytes is filled by two calls. -/
theorem fill_two :
    FillsBuffer [0, 0] [([⟨97, by decide⟩], []), ([⟨98, by decide⟩], [])] [[97], [98]] :=
  (fill_within_iff _ _ _ (by decide) (.cons rfl (.cons rfl .nil))).mpr (by decide)

/-- With one text of two bytes in a buffer of one, the offset leaves the buffer. -/
theorem fill_leaves_buffer :
    ¬ FillsBuffer [0] [([⟨97, by decide⟩, ⟨98, by decide⟩], [])] [[97, 98]] := by
  rintro ⟨offs, hrun, hoffs⟩
  have hpair : cpyfAll [0] 0 [([⟨97, by decide⟩, ⟨98, by decide⟩], [])] = some ([97], [2]) := by
    decide
  rw [hpair] at hrun
  obtain rfl : [2] = offs := by simpa using hrun
  exact absurd (hoffs 2 List.mem_cons_self) (by decide)

end Backd
