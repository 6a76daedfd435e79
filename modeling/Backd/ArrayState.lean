import Mathlib.Tactic.Common
import Backd.Library.Splice
import Backd.Size

/-!
# The State of an Array

An array of the daemon (`array_t`) is a header on the heap that points to a raw byte
block. This module fixes what an operation of `array.c` can see and touch:

* `ArrayT`, the header together with the block `_ptr` points to;
* `Allocator`, which requests the C allocator grants and what fresh memory holds;
* `ArrSt`, the header under the operation (or `none` once it has been released), the
  number of allocator calls made, and the events so far;
* `ArrM`, the state monad of the operations. An operation stops with `Stop.bug` where
  `notify_bug_on` raises its segmentation fault, and with `Stop.fault` where the C code
  would touch memory that is not there.

## Memory conventions

Every read and write of the buffer goes through `readBlock` and `writeBlock`, which fault
outside the block; an access of length zero touches nothing. A request above
`PTRDIFF_MAX` is never granted. `realloc` keeps the common initial part; on size zero it
releases the block and returns `NULL`. The caller's memory is passed by value
(`Option Bytes`, with `none` for `NULL`), since no source overlaps the buffer.

Three kinds of events are recorded: a call of the element destructor with the bytes it is
handed, a call of `realloc` or `free` on a buffer, and a subtraction of sizes. A block that
was released, by `free` or by `realloc` to size zero, faults when it is released again.
-/

namespace Backd

/-- A string of bytes. -/
abbrev Bytes := List UInt8

/-- An address: `NULL`, the block granted by an allocator call, or memory that does not
come from the allocator, such as a static buffer. -/
inductive Addr
  | null
  | heap (call : ℕ)
  | foreign (id : ℕ)
  deriving DecidableEq, Repr

/-- `array_t`, with the block its `_ptr` points to (`none` once the block is released)
in place of the pointed-to memory. Of the destructor `_free` only its presence
matters. -/
structure ArrayT where
  ptr : Addr
  block : Option Bytes
  nmemb : ℕ
  cap : ℕ
  eltSize : ℕ
  isOwnBuffer : Bool
  settled : Bool
  free : Bool
  deriving DecidableEq, Repr

/-- `sizeof(array_t)`. -/
def headerSize : ℕ := 48

/-- A header cleared by `memset`. -/
def ArrayT.zeroed : ArrayT :=
  { ptr := .null, block := none, nmemb := 0, cap := 0, eltSize := 0,
    isOwnBuffer := false, settled := false, free := false }

/-- The C allocator: whether its `k`-th call grants a request of a size, and what the
fresh memory it hands out holds. -/
structure Allocator where
  grants : ℕ → ℕ → Bool
  junk : ℕ → ℕ → UInt8

/-- The call grants the request. No object is larger than `PTRDIFF_MAX`. -/
def Allocator.serves (A : Allocator) (call size : ℕ) : Bool :=
  decide (size ≤ ptrdiffMax) && A.grants call size

/-- The fresh memory of a call, from one offset on. -/
def Allocator.fresh (A : Allocator) (call off len : ℕ) : Bytes :=
  (List.range len).map fun i => A.junk call (off + i)

@[simp] theorem Allocator.length_fresh (A : Allocator) (call off len : ℕ) :
    (A.fresh call off len).length = len := by
  simp [Allocator.fresh]

/-- What an operation does besides changing the array. -/
inductive Event
  | destroy (e : Bytes)
  | realloc (p : Addr) (size : ℕ)
  | free (p : Addr)
  | diff (x y : ℕ)
  deriving DecidableEq, Repr

/-- How an operation stops early: a guard fired, or memory was touched that is not
there. -/
inductive Stop
  | bug
  | fault
  deriving DecidableEq, Repr

/-- The state of an operation: the header it works on, the number of allocator calls made
so far, and the events. -/
structure ArrSt where
  arr : Option ArrayT
  calls : ℕ
  trace : List Event
  deriving DecidableEq, Repr

/-- The pointer an operation returns: `NULL`, or the address of the header in the state.
A header that has been released keeps its address. -/
inductive Handle
  | null
  | header
  deriving DecidableEq, Repr

/-- The monad of the array operations. -/
def ArrM (α : Type) := Allocator → ArrSt → Except Stop (α × ArrSt)

instance : Monad ArrM where
  pure x := fun _ s => .ok (x, s)
  bind m f := fun A s =>
    match m A s with
    | .ok (x, s') => f x A s'
    | .error e => .error e

/-! ### Primitives -/

/-- The header the operation works on; a released header may not be touched. -/
def header : ArrM ArrayT := fun _ s =>
  match s.arr with
  | some a => .ok (a, s)
  | none => .error .fault

/-- A fresh header, cleared by `memset`. -/
def clearedHeader : ArrM Unit := fun _ s =>
  .ok ((), { s with arr := some .zeroed })

/-- Store into fields of the header. -/
def store (f : ArrayT → ArrayT) : ArrM Unit := fun _ s =>
  match s.arr with
  | some a => .ok ((), { s with arr := some (f a) })
  | none => .error .fault

/-- `notify_bug_on`: report and segfault. -/
def notifyBugOn (expr : Bool) : ArrM Unit := fun _ s =>
  if expr then .error .bug else .ok ((), s)

/-- An access to memory that is not there. -/
def fault {α : Type} : ArrM α := fun _ _ => .error .fault

/-- Record an event. -/
def emit (e : Event) : ArrM Unit := fun _ s =>
  .ok ((), { s with trace := s.trace ++ [e] })

/-- The subtraction of two sizes, recorded. -/
def diff (x y : ℕ) : ArrM ℕ := do
  emit (.diff x y)
  return szSub x y

/-- `if (p) { m }`. -/
def runIf (p : Prop) [Decidable p] (m : ArrM Unit) : ArrM Unit :=
  if p then m else return ()

/-- `_memory_alloc`: the address and the contents of a fresh block, or `none` for
`NULL`. -/
def memoryAlloc (size : ℕ) : ArrM (Option (Addr × Bytes)) := fun A s =>
  let s' := { s with calls := s.calls + 1 }
  if A.serves s.calls size then
    .ok (some (.heap s.calls, A.fresh s.calls 0 size), s')
  else
    .ok (none, s')

/-- The allocator's answer when a block is to be resized: a fresh block with the common
initial part, or `none` for `NULL`. -/
def resize (bs : Bytes) (size : ℕ) : ArrM (Option (Addr × Bytes)) := fun A s =>
  let s' := { s with calls := s.calls + 1 }
  if A.serves s.calls size then
    .ok (some (.heap s.calls,
      bs.take size ++ A.fresh s.calls bs.length (size - bs.length)), s')
  else
    .ok (none, s')

/-- `_memory_realloc` of the buffer. Size zero releases the block and returns `NULL`; a
refused request leaves it as it is. -/
def memoryRealloc (size : ℕ) : ArrM (Option (Addr × Bytes)) := do
  let self ← header
  emit (.realloc self.ptr size)
  match self.block with
  | none => fault
  | some bs =>
    if size = 0 then
      store fun self => { self with block := none }
      return none
    else resize bs size

/-- `_memory_free` of the buffer, which must not have been released before. -/
def memoryFree : ArrM Unit := do
  let self ← header
  emit (.free self.ptr)
  match self.block with
  | none => fault
  | some _ => store fun self => { self with block := none }

/-- `_memory_free` of the header. -/
def freeHeader : ArrM Unit := fun _ s =>
  .ok ((), { s with arr := none })

/-- Bytes `off .. off + len` of the buffer of `self`. -/
def readOf (self : ArrayT) (off len : ℕ) : ArrM Bytes :=
  if len = 0 then return []
  else
    match self.block with
    | none => fault
    | some bs => if off + len ≤ bs.length then return Splice.window bs off len else fault

/-- Read from the buffer of the array under the operation. -/
def readBlock (off len : ℕ) : ArrM Bytes := do
  let self ← header
  readOf self off len

/-- Write into the buffer of the array under the operation. -/
def writeBlock (off : ℕ) (src : Bytes) : ArrM Unit := do
  let self ← header
  if src = [] then return ()
  else
    match self.block with
    | none => fault
    | some bs =>
      if off + src.length ≤ bs.length then
        store fun self => { self with block := some (Splice.overwrite bs off src) }
      else fault

/-- The first `len` bytes of the caller's memory. -/
def readSource (src : Option Bytes) (len : ℕ) : ArrM Bytes :=
  match src with
  | none => if len = 0 then return [] else fault
  | some bs => if len ≤ bs.length then return bs.take len else fault

/-- `_relative_data(array, pos)`, as an offset into the buffer. -/
def ArrayT.relativeData (self : ArrayT) (pos : ℕ) : ℕ :=
  szMul self.eltSize pos

/-- `memmove` inside the buffer. -/
def moveBlock (dst src len : ℕ) : ArrM Unit := do
  let bytes ← readBlock src len
  writeBlock dst bytes

/-- The copy of an element into `*into`, when `into` is not `NULL`. -/
def copyInto (into : Bool) (off len : ℕ) : ArrM (Option Bytes) := do
  if into then
    let e ← readBlock off len
    return some e
  return none

/-- `_freefunc(self)(_relative_data(self, pos))`. -/
def callFree (pos : ℕ) : ArrM Unit := do
  let self ← header
  let e ← readBlock (self.relativeData pos) self.eltSize
  emit (.destroy e)

end Backd
