import Mathlib.Data.List.Basic
import Backd.ArrayState
import Backd.CString
import Backd.Library.Numeral

/-!
# The Formatted Writers

`stringf.c`: a small `printf`. `iob_format_str` walks through a format and hands every
character and every field to `iob_write`, which copies into the destination as far as
there is room and counts what it discards. The front ends `cpyf`, `scpyf`, `slcpyf` and
`ssavef` differ in the room they give and in the zero they put behind the text; `fputstr`
puts none, and writes to a descriptor.

## Conventions

The destination is the memory `dst` points to, which may go on behind `dstsize`; a write
outside it stops the call with `none`. So does an argument that is missing, or is not of
the type the format reads. Lengths of texts are naturals: `len` never exceeds the room,
and `disc` would need a text of `2 ^ 64` bytes to wrap.

The digits of a number are written into a local array from its back. `Back` is such an
array while it is filled; to go past its front stops the call too.
-/

namespace Backd

/-! ### Arguments -/

/-- An argument of a variadic call. -/
inductive Arg
  | int (v : Int32)
  | uint (v : UInt32)
  | str (s : Option CStr)
  | ptr (p : UInt64)
  deriving DecidableEq

/-- `va_arg(*ap, int32_t)`, which is `va_arg(*ap, int)` too. -/
def vaInt : List Arg → Option (Int32 × List Arg)
  | .int v :: ap => some (v, ap)
  | _ => none

/-- `va_arg(*ap, uint32_t)`. -/
def vaUint : List Arg → Option (UInt32 × List Arg)
  | .uint v :: ap => some (v, ap)
  | _ => none

/-- `va_arg(*ap, char *)`. -/
def vaStr : List Arg → Option (Option CStr × List Arg)
  | .str s :: ap => some (s, ap)
  | _ => none

/-- `va_arg(*ap, uint64_t *)`. -/
def vaPtr : List Arg → Option (UInt64 × List Arg)
  | .ptr p :: ap => some (p, ap)
  | _ => none

/-! ### The buffer -/

/-- `t_iobuf`, with the memory its `data` points to. -/
structure Iobuf where
  data : Bytes
  cap : ℕ
  len : ℕ
  disc : ℕ
  width : ℕ
  deriving DecidableEq, Repr

/-- A `t_iobuf` cleared by `xmemset`, with its destination. -/
def Iobuf.on (data : Bytes) (cap : ℕ) : Iobuf :=
  { data := data, cap := cap, len := 0, disc := 0, width := 0 }

/-- `*(mem + i) = c`. -/
def putAt (mem : Bytes) (i : ℕ) (c : UInt8) : Option Bytes :=
  if i < mem.length then some (mem.set i c) else none

/-- The loop of `iob_write`, from position `i` on: the memory, `i` and the rest of `n`. -/
def iobCopy (cap len : ℕ) (mem : Bytes) (i : ℕ) : Bytes → Option (Bytes × ℕ × ℕ)
  | [] => some (mem, i, 0)
  | c :: src =>
    if len + i < cap then do
      let mem ← putAt mem (len + i) c
      iobCopy cap len mem (i + 1) src
    else some (mem, i, (c :: src).length)

/-- `iob_write`, of the bytes `src`. -/
def iobWrite (iob : Iobuf) (src : Bytes) : Option Iobuf := do
  let (data, i, n) ← iobCopy iob.cap iob.len iob.data 0 src
  return { iob with data := data, len := iob.len + i, disc := iob.disc + n }

/-! ### Fields -/

/-- A local array that is filled from the back: its free cells, and the text behind
them. -/
structure Back where
  free : ℕ
  text : Bytes
  deriving DecidableEq, Repr

/-- `array[--i] = c`. -/
def Back.put (b : Back) (c : UInt8) : Option Back :=
  match b.free with
  | 0 => none
  | i + 1 => some { free := i, text := c :: b.text }

/-- `"0123456789abcdef"`. -/
def hexDigits : Bytes :=
  [48, 49, 50, 51, 52, 53, 54, 55, 56, 57, 97, 98, 99, 100, 101, 102]

/-- `"0123456789abcdef"[i]`. -/
def hexDigit (i : ℕ) : UInt8 := hexDigits.getD i 0

/-- `__chr`. -/
def printChr (iob : Iobuf) (c : Int32) : Option Iobuf :=
  if c ≥ 32 ∧ c ≤ 126 then iobWrite iob [c.toUInt32.toUInt8]
  else iobWrite iob [92, hexDigit ((c >>> 4) &&& 0xf).toUInt32.toNat,
    hexDigit (c &&& 0xf).toUInt32.toNat]

/-- `while (i && n)`, a digit in base sixteen at a time. -/
def hexLoop (i n : ℕ) (text : Bytes) : Back :=
  match i with
  | 0 => ⟨0, text⟩
  | i + 1 =>
    if n = 0 then ⟨i + 1, text⟩ else hexLoop i (n >>> 4) (hexDigit (n &&& 0xf) :: text)

/-- `__hex`. -/
def printHex (iob : Iobuf) (n : UInt32) : Option Iobuf := do
  let bytes ← if n = 0 then (Back.mk 16 []).put 48 else some (hexLoop 16 n.toNat [])
  iobWrite iob bytes.text

/-- `while (n)`, a digit in base ten at a time. -/
def decLoop (i n : ℕ) (text : Bytes) : Option Back :=
  match i with
  | 0 => if n = 0 then some ⟨0, text⟩ else none
  | i + 1 =>
    if n = 0 then some ⟨i + 1, text⟩
    else decLoop i (n / 10) (UInt8.ofNat ((n % 10) ||| 0x30) :: text)

/-- `__int`. -/
def printInt (iob : Iobuf) (c : Int32) : Option Iobuf := do
  let n := if c < 0 then (c * -1).toUInt32 else c.toUInt32
  let nbr ← if n = 0 then (Back.mk 20 []).put 48 else some ⟨20, []⟩
  let nbr ← decLoop nbr.free n.toNat nbr.text
  let nbr ← if c < 0 then nbr.put 45 else some nbr
  iobWrite iob nbr.text

/-- `__ptr`. -/
def printPtr (iob : Iobuf) (p : UInt64) : Option Iobuf := do
  let hex ← if p = 0 then (Back.mk 18 []).put 48 else some ⟨18, []⟩
  let hex ← (hexLoop hex.free p.toNat hex.text).put 120
  let hex ← hex.put 48
  iobWrite iob hex.text

/-- `"(null)"`. -/
def nullText : Bytes := [40, 110, 117, 108, 108, 41]

/-- `__str`. -/
def printStr (iob : Iobuf) (s : Option CStr) : Option Iobuf :=
  match s with
  | some s => iobWrite iob s.bytes
  | none => iobWrite iob nullText

/-! ### Formats -/

/-- The character `%`. -/
def percent : CChar := ⟨37, by decide⟩

/-- `format_field`, at the characters behind a `%`. -/
def formatField (iob : Iobuf) (ptr : CStr) (ap : List Arg) :
    Option (Iobuf × CStr × List Arg) :=
  match ptr with
  | [] => (iobWrite iob [percent.1]).map fun iob => (iob, ptr, ap)
  | c :: tmp =>
    if c.1 = 100 then do
      let (v, ap) ← vaInt ap
      let iob ← printInt iob v
      return (iob, tmp, ap)
    else if c.1 = 115 then do
      let (s, ap) ← vaStr ap
      let iob ← printStr iob s
      return (iob, tmp, ap)
    else if c.1 = 99 then do
      let (v, ap) ← vaInt ap
      let iob ← printChr iob v
      return (iob, tmp, ap)
    else if c.1 = 120 then do
      let (v, ap) ← vaUint ap
      let iob ← printHex iob v
      return (iob, tmp, ap)
    else if c.1 = 112 then do
      let (p, ap) ← vaPtr ap
      let iob ← printPtr iob p
      return (iob, tmp, ap)
    else (iobWrite iob [percent.1]).map fun iob => (iob, ptr, ap)

/-- `while (*ptr && *ptr != '%') iob_write(iob, ptr++, 1);`. -/
def copyLiterals (iob : Iobuf) : CStr → Option (Iobuf × CStr)
  | [] => some (iob, [])
  | c :: ptr =>
    if c ≠ percent then do
      let iob ← iobWrite iob [c.1]
      copyLiterals iob ptr
    else some (iob, c :: ptr)

/-- The loop of `iob_format_str`. Each turn but the last passes a `%`, so a format has
more characters than turns. -/
def formatLoop : ℕ → Iobuf → CStr → List Arg → Option Iobuf
  | 0, _, _, _ => none
  | turns + 1, iob, ptr, ap => do
    let (iob, ptr) ← copyLiterals iob ptr
    match ptr with
    | [] => some iob
    | _ :: ptr =>
      let (iob, ptr, ap) ← formatField { iob with width := 0 } ptr ap
      formatLoop turns iob ptr ap

/-- `iob_format_str`. -/
def iobFormatStr (iob : Iobuf) (format : CStr) (ap : List Arg) : Option Iobuf :=
  formatLoop (format.length + 1) iob format ap

/-! ### Front ends -/

/-- `IOBUF_MAX`. -/
def iobufMax : ℕ := 4096

/-- `cpyf`: the memory at `dst`, and the result. -/
def cpyf (dst : Bytes) (dstsize : ℕ) (format : CStr) (ap : List Arg) :
    Option (Bytes × ℕ) := do
  let iob ← iobFormatStr (.on dst dstsize) format ap
  return (iob.data, iob.len + iob.disc)

/-- `scpyf`. -/
def scpyf (str : Bytes) (format : CStr) (ap : List Arg) : Option (Bytes × ℕ) := do
  let iob ← iobFormatStr (.on str (iobufMax - 1)) format ap
  let data ← putAt iob.data iob.len 0
  return (data, iob.len + iob.disc)

/-- `slcpyf`. -/
def slcpyf (dst : Bytes) (dstsize : ℕ) (format : CStr) (ap : List Arg) :
    Option (Bytes × ℕ) := do
  let iob ← iobFormatStr (.on dst dstsize) format ap
  let last := iob.len - if iob.len = dstsize then 1 else 0
  let data ← if dstsize ≠ 0 then putAt iob.data last 0 else some iob.data
  return (data, iob.len + iob.disc)

/-- The static buffer of `ssavef`. -/
abbrev StaticBuf := {buf : Bytes // buf.length = iobufMax}

/-- `ssavef`: the memory `*dst` points to, or `none` for `NULL`, and the result. The
allocation is call number `call` of the allocator. -/
def ssavef (A : Allocator) (call : ℕ) (buf : StaticBuf) (format : CStr) (ap : List Arg) :
    Option (Option Bytes × ℤ) := do
  let iob ← iobFormatStr (.on buf.1 (iobufMax - 1)) format ap
  if A.serves call (iob.len + 1) then
    let dst := Splice.overwrite (A.fresh call 0 (iob.len + 1)) 0 (iob.data.take iob.len)
    let dst ← putAt dst iob.len 0
    return (some dst, (iob.len + iob.disc : ℕ))
  else return (none, -1)

/-- `fputstr`: what is handed to `write`. Its static buffer has no room for a zero. -/
def fputstr (buf : StaticBuf) (format : CStr) (ap : List Arg) : Option Bytes := do
  let iob ← iobFormatStr (.on buf.1 iobufMax) format ap
  return iob.data.take iob.len

/-! ### Filling a buffer -/

/-- A `cpyf` into the middle of a buffer: at an offset, with the size that remains. The
offset moves on by the result. -/
def cpyfAt (buf : Bytes) (off : ℕ) (format : CStr) (ap : List Arg) : Option (Bytes × ℕ) := do
  let (mem, n) ← cpyf (buf.drop off) (szSub buf.length off) format ap
  return (buf.take off ++ mem, off + n)

/-- One `cpyf` after the other into one buffer: the buffer, and the offsets they reach. -/
def cpyfAll (buf : Bytes) (off : ℕ) : List (CStr × List Arg) → Option (Bytes × List ℕ)
  | [] => some (buf, [])
  | (format, ap) :: calls => do
    let (buf, off) ← cpyfAt buf off format ap
    let (buf, offs) ← cpyfAll buf off calls
    return (buf, off :: offs)

end Backd
