import Backd.StringF

/-!
# Dynamic Strings

`dynstr.c`: a text in a block that grows, with the size in use, which counts the final zero,
and the capacity.

## Conventions

A `dynstr_t` carries the block its `_ptr` points to. An access outside the block stops the
operation with `none`. The allocator's answers go by the number of its call, `k`, and every
operation says how many calls have been made when it is done. Source strings are objects
of their own, and no object is larger than `PTRDIFF_MAX`.
-/

namespace Backd

open Splice

/-- `dynstr_t`. -/
structure Dynstr where
  block : Bytes
  size : ℕ
  cap : ℕ
  deriving DecidableEq, Repr

/-- `sizeof(dynstr_t)`. -/
def dynstrHeader : ℕ := 24

/-- A string a caller hands in. -/
abbrev SrcStr := {s : CStr // s.length < ptrdiffMax}

/-- The bytes of such a string. -/
def SrcStr.bytes (src : SrcStr) : Bytes := CStr.bytes src.1

/-- The final zero. -/
def nulByte : UInt8 := 0

/-! ### Memory -/

/-- `memcpy(mem + off, src, n)`, or `memmove`, from another object. -/
def writeAt (mem : Bytes) (off : ℕ) (src : Bytes) : Option Bytes :=
  if off + src.length ≤ mem.length then some (overwrite mem off src) else none

/-- `memmove(mem + dst, mem + src, n)`. -/
def moveWithin (mem : Bytes) (dst src n : ℕ) : Option Bytes :=
  if src + n ≤ mem.length then writeAt mem dst (window mem src n) else none

/-! ### Construction -/

/-- `dynstr_new`, with `none` for `NULL`. -/
def dynstrNew (A : Allocator) (k n : ℕ) : Option (Option Dynstr × ℕ) :=
  let initSize := szAdd n 1
  if !A.serves k dynstrHeader then some (none, k + 1)
  else if !A.serves (k + 1) initSize then some (none, k + 2)
  else do
    let block ← putAt (A.fresh (k + 1) 0 initSize) 0 nulByte
    return (some { block := block, size := 1, cap := initSize }, k + 2)

/-- `dynstr_from`, of the bytes `src`. -/
def dynstrFrom (A : Allocator) (k : ℕ) (src : Bytes) : Option (Option Dynstr × ℕ) :=
  let initSize := szAdd src.length 1
  if !A.serves k dynstrHeader then some (none, k + 1)
  else if !A.serves (k + 1) initSize then some (none, k + 2)
  else do
    let block ← writeAt (A.fresh (k + 1) 0 initSize) 0 src
    let block ← putAt block src.length nulByte
    return (some { block := block, size := szAdd src.length 1, cap := initSize }, k + 2)

/-- `dynstr_assign`. -/
def dynstrAssign (A : Allocator) (k : ℕ) (src : SrcStr) : Option (Option Dynstr × ℕ) := do
  let strSize := src.1.length
  let (str, k) ← dynstrNew A k strSize
  match str with
  | none => return (none, k)
  | some str => do
    let block ← writeAt str.block 0 (src.bytes ++ [nulByte])
    return (some { str with block := block, size := szAdd strSize 1 }, k)

/-! ### Operations -/

/-- `dynstr_adjust`. A block that is moved keeps what it has in common with the old one. -/
def dynstrAdjust (A : Allocator) (k : ℕ) (self : Dynstr) (n : ℕ) : Bool × Dynstr × ℕ :=
  if szAdd n 1 < self.cap then (true, self, k)
  else
    let size := if n < szMul self.cap 2 then szMul self.cap 2 else n
    if A.serves k size then
      (true, { self with
        block := self.block.take size ++ A.fresh k self.block.length (size - self.block.length)
        cap := size }, k + 1)
    else (false, self, k + 1)

/-- `dynstr_append`. -/
def dynstrAppend (A : Allocator) (k : ℕ) (self : Dynstr) (src : SrcStr) :
    Option (Bool × Dynstr × ℕ) :=
  let size := src.1.length
  match dynstrAdjust A k self (szAdd self.size size) with
  | (false, self, k) => some (false, self, k)
  | (true, self, k) => do
    let block ← writeAt self.block (szSub self.size 1) (src.bytes ++ [nulByte])
    return (true, { self with block := block, size := szAdd self.size size }, k)

/-- `dynstr_inject`. -/
def dynstrInject (A : Allocator) (k : ℕ) (self : Dynstr) (src : SrcStr) (p : ℕ) :
    Option (Bool × Dynstr × ℕ) :=
  let strSize := src.1.length
  match dynstrAdjust A k self (szAdd self.size strSize) with
  | (false, self, k) => some (false, self, k)
  | (true, self, k) => do
    let block ← if self.size = 1 then some self.block
      else moveWithin self.block (p + strSize) p (szSub self.size p)
    let block ← writeAt block p src.bytes
    return (true, { self with block := block, size := szAdd self.size strSize }, k)

/-- `dynstr_wipe`. -/
def dynstrWipe (self : Dynstr) (start stop : ℕ) : Option Dynstr := do
  let n := szSub stop start
  let block ← moveWithin self.block start stop (szSub (szSub self.size start) n)
  return { self with block := block, size := szSub self.size n }

/-- `dynstr_clear`. -/
def dynstrClear (self : Dynstr) : Option Dynstr := do
  let block ← putAt self.block 0 nulByte
  return { self with block := block, size := 0 }

/-! ### What a dynamic string holds -/

/-- The string holds a text, with the zero behind it, in a block of its capacity. -/
structure Dynstr.Holds (d : Dynstr) (text : Bytes) : Prop where
  block_eq : ∃ rest, d.block = text ++ nulByte :: rest
  size_eq : d.size = text.length + 1
  cap_eq : d.block.length = d.cap
  object : d.cap ≤ ptrdiffMax

/-- What every operation may rely on: the size counts a zero that is there, within the
allocated bytes. -/
structure Dynstr.WellFormed (d : Dynstr) : Prop where
  size_pos : 1 ≤ d.size
  size_le : d.size ≤ d.cap
  nul : d.block[d.size - 1]? = some nulByte
  allocated : d.block.length = d.cap
  object : d.cap ≤ ptrdiffMax

section Operations

variable {A : Allocator} {d : Dynstr} {text : Bytes}

/-- What is in use fits into the block. -/
theorem Dynstr.Holds.size_le (h : d.Holds text) : d.size ≤ d.cap := by
  obtain ⟨rest, hblock⟩ := h.block_eq
  rw [h.size_eq, ← h.cap_eq, hblock, List.length_append, List.length_cons]
  omega

/-- A dynamic string is well formed exactly if it holds a text. -/
theorem wellFormed_iff : d.WellFormed ↔ ∃ text, d.Holds text := by
  constructor
  · intro h
    have hlt : d.size - 1 < d.block.length := by
      have hpos := h.size_pos
      have hle := h.size_le
      rw [h.allocated]
      omega
    refine ⟨d.block.take (d.size - 1), ⟨d.block.drop (d.size - 1 + 1), ?_⟩, ?_, h.allocated,
      h.object⟩
    · have hcell : d.block[d.size - 1] = nulByte := by
        have hnul := h.nul
        rw [List.getElem?_eq_getElem hlt] at hnul
        exact Option.some.inj hnul
      rw [← hcell, ← List.drop_eq_getElem_cons hlt, List.take_append_drop]
    · have hpos := h.size_pos
      rw [List.length_take_of_le (Nat.le_of_lt hlt)]
      omega
  · rintro ⟨text, h⟩
    obtain ⟨rest, hblock⟩ := h.block_eq
    refine ⟨?_, h.size_le, ?_, h.cap_eq, h.object⟩
    · rw [h.size_eq]
      exact Nat.le_add_left _ _
    · rw [h.size_eq, hblock, Nat.add_sub_cancel]
      simp

/-- Sizes of objects are far from the end of `size_t`. -/
theorem ptrdiffMax_double : 2 * ptrdiffMax + 1 = sizeMax := by decide

/-- A longer block holds the same text. -/
theorem Dynstr.Holds.extend (h : d.Holds text) (extra : Bytes)
    (hsmall : d.cap + extra.length ≤ ptrdiffMax) :
    ({ d with block := d.block ++ extra, cap := d.cap + extra.length } : Dynstr).Holds text := by
  obtain ⟨rest, hblock⟩ := h.block_eq
  refine ⟨⟨rest ++ extra, by simp [hblock]⟩, h.size_eq, ?_, hsmall⟩
  rw [List.length_append, h.cap_eq]

/-- **`dynstr_adjust`** at most lengthens the block; a success makes room for `n` bytes. -/
theorem dynstrAdjust_grows (A : Allocator) (k : ℕ) (h : d.Holds text) (n : ℕ) :
    ∃ ok extra k', dynstrAdjust A k d n =
        (ok, { d with block := d.block ++ extra, cap := d.cap + extra.length }, k') ∧
      d.cap + extra.length ≤ ptrdiffMax ∧
      (ok = true → n < sizeMax → n ≤ d.cap + extra.length) ∧ (ok = false → extra = []) := by
  have hsame : d = { d with block := d.block ++ [], cap := d.cap + 0 } := by simp
  have hobject := h.object
  have hdouble := ptrdiffMax_double
  rw [dynstrAdjust]
  by_cases hfits : szAdd n 1 < d.cap
  · rw [if_pos hfits]
    refine ⟨true, [], k, congrArg (fun x => (true, x, k)) hsame, hobject, fun _ hn => ?_, nofun⟩
    rw [szAdd_eq (by omega)] at hfits
    rw [List.length_nil]
    omega
  rw [if_neg hfits, szMul_eq (by omega)]
  dsimp only
  have hlarge : d.cap ≤ (if n < d.cap * 2 then d.cap * 2 else n) ∧
      n ≤ if n < d.cap * 2 then d.cap * 2 else n := by
    split <;> omega
  generalize (if n < d.cap * 2 then d.cap * 2 else n) = size at hlarge
  by_cases hserves : A.serves k size
  · have hsmall : size ≤ ptrdiffMax := by
      simp only [Allocator.serves, Bool.and_eq_true, decide_eq_true_eq] at hserves
      exact hserves.1
    have htake : d.block.take size = d.block :=
      List.take_of_length_le (h.cap_eq ▸ hlarge.1)
    have hsize : d.cap + (A.fresh k d.block.length (size - d.block.length)).length = size := by
      rw [Allocator.length_fresh, h.cap_eq]
      omega
    rw [if_pos hserves, htake]
    refine ⟨true, _, k + 1, by rw [hsize], hsize.symm ▸ hsmall, fun _ _ => ?_, nofun⟩
    rw [hsize]
    exact hlarge.2
  · rw [if_neg hserves]
    exact ⟨false, [], k + 1, congrArg (fun x => (false, x, k + 1)) hsame, hobject, nofun,
      fun _ => rfl⟩

/-- A write over what a text ends in. -/
theorem writeAt_append {a b c src : Bytes} (h : src.length = b.length) :
    writeAt (a ++ (b ++ c)) a.length src = some (a ++ (src ++ c)) := by
  rw [writeAt, if_pos (by simp only [List.length_append]; omega), overwrite_append h]

/-- A read from behind a front. -/
theorem moveWithin_append (a b c : Bytes) (dst : ℕ) :
    moveWithin (a ++ (b ++ c)) dst a.length b.length = writeAt (a ++ (b ++ c)) dst b := by
  rw [moveWithin, if_pos (by simp only [List.length_append]; omega), window_append]

/-- Some room behind a text is as long as what is to be written there. -/
theorem split_room (rest : Bytes) (n : ℕ) (h : n ≤ rest.length) :
    ∃ b c, rest = b ++ c ∧ b.length = n :=
  ⟨rest.take n, rest.drop n, (List.take_append_drop n rest).symm, List.length_take_of_le h⟩

/-- Bytes are put in between: what stands behind a front is moved to make room for them. -/
theorem write_between (f m rest src : Bytes) (h : src.length ≤ rest.length) :
    ∃ b z, moveWithin (f ++ (m ++ rest)) (f.length + src.length) f.length m.length = some b ∧
      writeAt b f.length src = some (f ++ (src ++ (m ++ z))) ∧
      src.length + z.length = rest.length := by
  obtain ⟨x, yz, hx, hxlen⟩ := split_room (m ++ rest) src.length (by
    rw [List.length_append]
    omega)
  have htotal := congrArg List.length hx
  rw [List.length_append, List.length_append] at htotal
  obtain ⟨y, z, rfl, hylen⟩ := split_room yz m.length (by omega)
  have hback : f ++ (m ++ rest) = (f ++ x) ++ (y ++ z) := by rw [hx, List.append_assoc]
  have hdst : f.length + src.length = (f ++ x).length := by rw [List.length_append, hxlen]
  refine ⟨(f ++ x) ++ (m ++ z), z, ?_, ?_, ?_⟩
  · rw [moveWithin_append, hback, hdst]
    exact writeAt_append hylen.symm
  · rw [List.append_assoc]
    exact writeAt_append hxlen.symm
  · rw [List.length_append] at htotal
    omega

/-- **`dynstr_append`** appends, or leaves the string as it was. -/
theorem dynstrAppend_holds (A : Allocator) (k : ℕ) (h : d.Holds text) (src : SrcStr) :
    ∃ ok d' k', dynstrAppend A k d src = some (ok, d', k') ∧
      (ok = true → d'.Holds (text ++ src.bytes)) ∧ (ok = false → d' = d) := by
  obtain ⟨rest, hblock⟩ := h.block_eq
  have hsize := h.size_eq
  have hle := h.size_le
  have hobject := h.object
  have hdouble := ptrdiffMax_double
  have hsrc : src.bytes.length = src.1.length := List.length_map _
  have hsrcobj := src.2
  have hn : szAdd d.size src.1.length = d.size + src.1.length := szAdd_eq (by omega)
  obtain ⟨ok, extra, k', hadjust, hsmall, hroom, hfail⟩ :=
    dynstrAdjust_grows A k h (d.size + src.1.length)
  rw [dynstrAppend, hn, hadjust]
  cases ok with
  | false => exact ⟨false, _, k', rfl, nofun, fun _ => by simp [hfail rfl]⟩
  | true =>
      have hcap := hroom rfl (by omega)
      have hlen := h.cap_eq
      rw [hblock, List.length_append, List.length_cons] at hlen
      obtain ⟨b, c, hrest, hb⟩ := split_room (nulByte :: (rest ++ extra))
        (src.1.length + 1) (by
          rw [List.length_cons, List.length_append]
          omega)
      have hwhole : d.block ++ extra = text ++ (b ++ c) := by rw [← hrest, hblock]; simp
      have hoff : szSub d.size 1 = text.length := by
        rw [szSub_eq (by omega) (by omega)]
        omega
      have hwrite : writeAt (d.block ++ extra) (szSub d.size 1) (src.bytes ++ [nulByte]) =
          some (text ++ (src.bytes ++ [nulByte] ++ c)) := by
        rw [hwhole, hoff]
        exact writeAt_append (by rw [List.length_append, hsrc, hb]; rfl)
      simp only [hwrite, Option.bind_eq_bind, Option.bind_some]
      refine ⟨true, _, k', rfl, fun _ => ⟨⟨c, by simp⟩, ?_, ?_, hsmall⟩, nofun⟩
      · simp only [List.length_append, hsrc]
        omega
      · have htotal := congrArg List.length hwhole
        simp only [List.length_append, List.length_singleton, hsrc] at htotal ⊢
        rw [h.cap_eq] at htotal
        omega

/-- The injected text is moved into place behind what stays in front. -/
theorem dynstrInject_holds (A : Allocator) (k : ℕ) {f g : Bytes} (h : d.Holds (f ++ g))
    (src : SrcStr) (hempty : f ++ g = [] → src.1 = []) :
    ∃ ok d' k', dynstrInject A k d src f.length = some (ok, d', k') ∧
      (ok = true → d'.Holds (f ++ src.bytes ++ g)) ∧ (ok = false → d' = d) := by
  obtain ⟨rest, hblock⟩ := h.block_eq
  have hsize := h.size_eq
  have hle := h.size_le
  have hobject := h.object
  have hdouble := ptrdiffMax_double
  have hsrc : src.bytes.length = src.1.length := List.length_map _
  have hsrcobj := src.2
  have hn : szAdd d.size src.1.length = d.size + src.1.length := szAdd_eq (by omega)
  obtain ⟨ok, extra, k', hadjust, hsmall, hroom, hfail⟩ :=
    dynstrAdjust_grows A k h (d.size + src.1.length)
  rw [dynstrInject, hn, hadjust]
  cases ok with
  | false => exact ⟨false, _, k', rfl, nofun, fun _ => by simp [hfail rfl]⟩
  | true =>
      have hcap := hroom rfl (by omega)
      have hlen := h.cap_eq
      rw [List.length_append] at hsize
      by_cases hone : d.size = 1
      · -- an empty text, into which nothing is injected
        have hnil : f ++ g = [] := by
          rw [List.append_eq_nil_iff, List.eq_nil_iff_length_eq_zero,
            List.eq_nil_iff_length_eq_zero]
          omega
        have hsrcnil := hempty hnil
        obtain ⟨rfl, rfl⟩ := List.append_eq_nil_iff.mp hnil
        have hbytes : src.bytes = [] := by rw [SrcStr.bytes, hsrcnil]; rfl
        have hwrite : writeAt (d.block ++ extra) 0 src.bytes = some (d.block ++ extra) := by
          rw [writeAt, if_pos (by rw [hbytes]; exact Nat.zero_le _), hbytes, overwrite_nil]
        have hsame : szAdd d.size src.1.length = d.size := by rw [hn, hsrcnil]; rfl
        simp only [if_pos hone, List.length_nil, Option.bind_eq_bind, Option.bind_some, hwrite,
          hsame]
        refine ⟨true, _, k', rfl, fun _ => ?_, nofun⟩
        rw [hbytes]
        exact h.extend extra hsmall
      have hbehind : szSub d.size f.length = (g ++ [nulByte]).length := by
        rw [szSub_eq (by omega) (by omega), List.length_append, List.length_singleton]
        omega
      have hfront : d.block ++ extra = f ++ ((g ++ [nulByte]) ++ (rest ++ extra)) := by
        rw [hblock]
        simp
      have htotal := congrArg List.length hfront
      simp only [List.length_append, List.length_singleton] at htotal
      obtain ⟨b, z, hmove, hwrite, hzlen⟩ :=
        write_between f (g ++ [nulByte]) (rest ++ extra) src.bytes (by
          rw [List.length_append, hsrc]
          omega)
      rw [← hfront, ← hbehind, hsrc] at hmove
      simp only [if_neg hone, hmove, hwrite, hn, Option.bind_eq_bind, Option.bind_some]
      refine ⟨true, _, k', rfl, fun _ => ⟨⟨z, by simp⟩, ?_, ?_, hsmall⟩, nofun⟩
      · simp only [List.length_append, hsrc]
        omega
      · simp only [List.length_append, List.length_singleton, hsrc] at hzlen ⊢
        omega

/-- Into an empty text, only the bytes of the source are copied: whether a zero stands behind
them is left to what the block held there. -/
theorem dynstrInject_empty (A : Allocator) (k : ℕ) (h : d.Holds []) (src : SrcStr) :
    ∃ ok d₁ d' k', dynstrAdjust A k d (szAdd d.size src.1.length) = (ok, d₁, k') ∧
      dynstrInject A k d src 0 = some (ok, d', k') ∧ (ok = false → d' = d) ∧
      (ok = true → (d'.WellFormed → d₁.block[src.1.length]? = some nulByte) ∧
        (d₁.block[src.1.length]? = some nulByte → d'.Holds src.bytes)) := by
  have hsize : d.size = 1 := h.size_eq
  have hle := h.size_le
  have hobject := h.object
  have hdouble := ptrdiffMax_double
  have hsrc : src.bytes.length = src.1.length := List.length_map _
  have hsrcobj := src.2
  have hn : szAdd d.size src.1.length = 1 + src.1.length := by
    rw [hsize]
    exact szAdd_eq (by omega)
  obtain ⟨ok, extra, k', hadjust, hsmall, hroom, hfail⟩ :=
    dynstrAdjust_grows A k h (1 + src.1.length)
  rw [dynstrInject, hn, hadjust]
  cases ok with
  | false => exact ⟨false, _, _, k', rfl, rfl, fun _ => by simp [hfail rfl],
      fun h => absurd h Bool.false_ne_true⟩
  | true =>
      have hcap := hroom rfl (by omega)
      have hlen : (d.block ++ extra).length = d.cap + extra.length := by
        rw [List.length_append, h.cap_eq]
      have hfits : 0 + src.bytes.length ≤ (d.block ++ extra).length := by
        rw [hlen, hsrc]
        omega
      have hwrite : writeAt (d.block ++ extra) 0 src.bytes =
          some (src.bytes ++ (d.block ++ extra).drop src.1.length) := by
        rw [writeAt, if_pos hfits, overwrite, List.take_zero, Nat.zero_add, hsrc,
          List.nil_append]
      simp only [if_pos hsize, hwrite, hn, Option.bind_eq_bind, Option.bind_some]
      refine ⟨true, _, _, k', rfl, rfl, fun h => absurd h.symm Bool.false_ne_true,
        fun _ => ?_⟩
      have hcell : (src.bytes ++ (d.block ++ extra).drop src.1.length)[src.1.length]? =
          (d.block ++ extra)[src.1.length]? := by
        rw [List.getElem?_append_right (Nat.le_of_eq hsrc), hsrc, Nat.sub_self,
          List.getElem?_drop, Nat.add_zero]
      constructor
      · intro hwell
        have hnul := hwell.nul
        rw [Nat.add_sub_cancel_left] at hnul
        rw [← hcell]
        exact hnul
      · intro hzero
        obtain ⟨hlt, hcell⟩ := List.getElem?_eq_some_iff.mp hzero
        refine ⟨⟨(d.block ++ extra).drop (src.1.length + 1), ?_⟩, ?_, ?_, hsmall⟩
        · rw [List.drop_eq_getElem_cons hlt, hcell]
        · rw [hsrc, Nat.add_comm]
        · change (src.bytes ++ _).length = d.cap + extra.length
          rw [List.length_append, List.length_drop, hsrc, hlen]
          omega

/-- **`dynstr_wipe`** takes a range out of the text. -/
theorem dynstrWipe_holds {f m g : Bytes} (h : d.Holds (f ++ (m ++ g))) :
    ∃ d', dynstrWipe d f.length (f.length + m.length) = some d' ∧ d'.Holds (f ++ g) := by
  obtain ⟨rest, hblock⟩ := h.block_eq
  have hsize := h.size_eq
  have hle := h.size_le
  have hobject := h.object
  have hdouble := ptrdiffMax_double
  simp only [List.length_append] at hsize
  have hn : szSub (f.length + m.length) f.length = m.length := by
    rw [szSub_eq (by omega) (by omega)]
    omega
  have hcount : szSub (szSub d.size f.length) m.length = g.length + 1 := by
    have hbehind : szSub d.size f.length = d.size - f.length := szSub_eq (by omega) (by omega)
    rw [hbehind, szSub_eq (by omega) (by omega)]
    omega
  have hnew : szSub d.size m.length = f.length + g.length + 1 := by
    rw [szSub_eq (by omega) (by omega)]
    omega
  have hfront : d.block = (f ++ m) ++ ((g ++ [nulByte]) ++ rest) := by rw [hblock]; simp
  obtain ⟨b, c, hsplit, hb⟩ := split_room (m ++ ((g ++ [nulByte]) ++ rest))
    (g ++ [nulByte]).length (by simp only [List.length_append]; omega)
  have hback : d.block = f ++ (b ++ c) := by rw [← hsplit, hfront]; simp
  have hmove : moveWithin d.block f.length (f.length + m.length) (g.length + 1) =
      some (f ++ ((g ++ [nulByte]) ++ c)) := by
    have hread := moveWithin_append (f ++ m) (g ++ [nulByte]) rest f.length
    rw [← hfront, List.length_append, List.length_append, List.length_singleton] at hread
    rw [hread, hback]
    exact writeAt_append hb.symm
  simp only [dynstrWipe, hn, hcount, hmove, hnew, Option.bind_eq_bind, Option.bind_some]
  refine ⟨_, rfl, ⟨c, by simp⟩, by simp only [List.length_append], ?_, hobject⟩
  have htotal := congrArg List.length hback
  simp only [List.length_append, List.length_singleton] at hb htotal ⊢
  rw [h.cap_eq] at htotal
  omega

end Operations

end Backd
