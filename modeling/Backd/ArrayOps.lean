import Backd.ArrayState

/-!
# The Array Operations

The functions of `array.c`, each under its own name, in the order of the source. The
array an operation works on is the state of `ArrM`; a second array (`other` of
`array_concat`, the source of `array_dup`, `array_filter` and `array_pull`) is read only
and passed as a value, except where it may be the same array (`Operand.self`). The guard
`self == NULL` has no counterpart: a state always has the header the caller passed, or
the released one.

The growth policy of `array_adjust` is split off as `growth`, a function of the capacity,
the settled flag and the byte count requested.
-/

namespace Backd

/-- `ARRAY_INITIAL_SIZE`. -/
def arrayInitialSize : ℕ := 64

/-! ### Constructors -/

/-- `array_init`: allocate a cleared header and its buffer. The pointer the caller sees
is set before the buffer is requested, and is not reset when that request fails. -/
def arrayInit (size : ℕ) : ArrM (Bool × Handle) := do
  match ← memoryAlloc headerSize with
  | none => return (false, .null)
  | some _ =>
    clearedHeader
    match ← memoryAlloc size with
    | none =>
      freeHeader
      return (false, .header)
    | some (p, bytes) =>
      store fun self => { self with ptr := p, block := some bytes }
      return (true, .header)

/-- `array_create`. -/
def arrayCreate (eltSize n : ℕ) (free : Bool) : ArrM Handle := do
  notifyBugOn (eltSize == 0)
  notifyBugOn (!safeToMul eltSize n)
  let n := if n = 0 then arrayInitialSize else n
  let initCap := sizeAlign (szMul eltSize n)
  let (ok, array) ← arrayInit initCap
  runIf ok (store fun self => { self with
    eltSize := eltSize, cap := initCap, free := free, isOwnBuffer := true })
  return array

/-- The body shared by `array_seize_buffer` and `array_borrow_buffer`: a header for a
buffer that exists already, with the two flags the two functions set differently. -/
def arrayOverBuffer (isOwner settled : Bool) (buffer : Addr) (bytes : Bytes)
    (bufsize eltSize n : ℕ) (free : Bool) : ArrM Handle := do
  notifyBugOn (eltSize == 0)
  notifyBugOn (!safeToMul eltSize n)
  match ← memoryAlloc headerSize with
  | none => return .null
  | some _ =>
    clearedHeader
    store fun self => { self with
      ptr := buffer, block := some bytes, nmemb := n, cap := bufsize, eltSize := eltSize,
      isOwnBuffer := isOwner, settled := settled, free := free }
    return .header

/-- `array_seize_buffer`. -/
def arraySeizeBuffer := arrayOverBuffer true false

/-- `array_borrow_buffer`. -/
def arrayBorrowBuffer := arrayOverBuffer false true

/-! ### Positions and sizes -/

/-- `array_size`. -/
def arraySize : ArrM ℕ := do
  let self ← header
  return self.nmemb

/-- The byte count `array_sizeof` computes from a header. -/
def ArrayT.sizeof (self : ArrayT) : ℕ :=
  szMul self.nmemb self.eltSize

/-- `array_sizeof`. -/
def arraySizeof : ArrM ℕ := do
  let self ← header
  return self.sizeof

/-- `array_cap`. -/
def arrayCap : ArrM ℕ := do
  let self ← header
  return self.cap

/-- `array_at`, on the header it is given: the offset of the element, or `NULL`. -/
def arrayAt (self : ArrayT) (p : ℕ) : ArrM (Option ℕ) := do
  notifyBugOn (decide (self.nmemb ≤ p))
  if self.nmemb ≤ p then return none
  return some (self.relativeData p)

/-- `array_access`. -/
def arrayAccess (p : ℕ) : ArrM (Option ℕ) := do
  let self ← header
  arrayAt self p

/-- `array_unsafe_access` and `array_unsafe_at`. -/
def arrayUnsafeAccess (p : ℕ) : ArrM ℕ := do
  let self ← header
  return self.relativeData p

/-- `array_head` and `array_data`. -/
def arrayHead : ArrM (Option ℕ) :=
  arrayAccess 0

/-- `array_tail`. -/
def arrayTail : ArrM (Option ℕ) := do
  let self ← header
  if self.nmemb ≠ 0 then
    let p ← diff self.nmemb 1
    arrayAccess p
  else
    return none

/-- `array_uninitialized_size`. -/
def arrayUninitializedSize : ArrM ℕ := do
  let self ← header
  notifyBugOn (!safeToSub self.cap self.sizeof)
  let sizeInBytes ← diff self.cap self.sizeof
  if sizeInBytes ≠ 0 then
    return sizeInBytes / self.eltSize
  return sizeInBytes

/-- `array_uninitialized_data`. -/
def arrayUninitializedData : ArrM ℕ := do
  let self ← header
  notifyBugOn (self.ptr == .null)
  arrayUnsafeAccess self.nmemb

/-- `array_is_settled`. -/
def arrayIsSettled : ArrM Bool := do
  let self ← header
  return self.settled

/-! ### Growth -/

/-- What `array_adjust` decides: the buffer is large enough, the request is refused, or
the buffer is reallocated. -/
inductive Growth
  | fits
  | refuse
  | realloc (newSize : ℕ)
  deriving DecidableEq, Repr

/-- The new size: the byte count rounded up to the machine word, or twice the capacity
when that is enough. -/
def newSize (n cap2x : ℕ) : ℕ :=
  if n > cap2x then sizeAlign n else cap2x

/-- The decision of `array_adjust` for a request of `n` bytes in all. -/
def growth (cap : ℕ) (settled : Bool) (n : ℕ) : Growth :=
  if n < cap then .fits
  else if settled then .refuse
  else
    let cap2x := szMul cap 2
    if cap2x < arrayInitialSize then .realloc (newSize n arrayInitialSize)
    else if cap2x > intMax then .refuse
    else .realloc (newSize n cap2x)

/-- `array_adjust`. -/
def arrayAdjust (n : ℕ) : ArrM Bool := do
  let self ← header
  notifyBugOn (!safeToMul self.cap 2)
  notifyBugOn (!safeToAdd self.nmemb n)
  notifyBugOn (!safeToMul (szAdd self.nmemb n) self.eltSize)
  match growth self.cap self.settled (szMul (szAdd n self.nmemb) self.eltSize) with
  | .fits => return true
  | .refuse => return false
  | .realloc newSize =>
    match ← memoryRealloc newSize with
    | none => return false
    | some (p, bytes) =>
      store fun self => { self with ptr := p, block := some bytes, cap := newSize }
      return true

/-! ### Insertion -/

/-- `array_push`. -/
def arrayPush (e : Option Bytes) : ArrM Bool := do
  notifyBugOn e.isNone
  if !(← arrayAdjust 1) then return false
  let self ← header
  let bytes ← readSource e self.eltSize
  writeBlock (self.relativeData self.nmemb) bytes
  store fun self => { self with nmemb := szAdd self.nmemb 1 }
  return true

/-- `array_insert`. -/
def arrayInsert (p : ℕ) (e : Option Bytes) : ArrM Bool := do
  let self ← header
  notifyBugOn (!decide (p ≤ self.nmemb))
  if !(← arrayAdjust 1) then return false
  let self ← header
  runIf (self.nmemb ≠ 0 ∧ p ≠ self.nmemb) do
    let len ← diff (szMul self.nmemb self.eltSize) (szMul p self.eltSize)
    moveBlock (self.relativeData (szAdd p 1)) (self.relativeData p) len
  let bytes ← readSource e self.eltSize
  writeBlock (self.relativeData p) bytes
  store fun self => { self with nmemb := szAdd self.nmemb 1 }
  return true

/-- `array_pushf`. -/
def arrayPushf (e : Option Bytes) : ArrM Bool :=
  arrayInsert 0 e

/-- `array_tipex`. -/
def arrayTipex (off : ℕ) (src : Option Bytes) (n : ℕ) : ArrM Unit := do
  notifyBugOn src.isNone
  let bytes ← readSource src n
  writeBlock off bytes

/-- `array_inject`. -/
def arrayInject (p : ℕ) (src : Option Bytes) (n : ℕ) : ArrM Bool := do
  let self ← header
  notifyBugOn src.isNone
  notifyBugOn (decide (self.nmemb < p))
  notifyBugOn (!safeToAdd p n)
  if !(← arrayAdjust n) then return false
  if n = 0 then return true
  let self ← header
  runIf (self.nmemb ≠ 0 ∧ p ≠ self.nmemb) do
    let rest ← diff self.nmemb p
    moveBlock (self.relativeData (szAdd p n)) (self.relativeData p)
      (szMul self.eltSize rest)
  let bytes ← readSource src (szMul self.eltSize n)
  writeBlock (self.relativeData p) bytes
  store fun self => { self with nmemb := szAdd self.nmemb n }
  return true

/-- `array_append`. -/
def arrayAppend (src : Option Bytes) (n : ℕ) : ArrM Bool := do
  notifyBugOn src.isNone
  if !(← arrayAdjust n) then return false
  let self ← header
  let bytes ← readSource src (szMul self.eltSize n)
  writeBlock (self.relativeData self.nmemb) bytes
  store fun self => { self with nmemb := szAdd self.nmemb n }
  return true

/-- The second array of `array_concat`: the same array, or another one. -/
inductive Operand
  | self
  | other (a : ArrayT)
  deriving DecidableEq, Repr

/-- The header a second argument points to. -/
def Operand.header : Operand → ArrM ArrayT
  | .self => Backd.header
  | .other a => pure a

/-- `array_concat`. -/
def arrayConcat (operand : Operand) : ArrM Bool := do
  let self ← header
  let other ← operand.header
  notifyBugOn (self.eltSize != other.eltSize)
  if !(← arrayAdjust (szAdd self.nmemb other.nmemb)) then return false
  let self ← header
  let other ← operand.header
  let bytes ← readOf other 0 other.sizeof
  writeBlock (self.relativeData self.nmemb) bytes
  let other ← operand.header
  store fun self => { self with nmemb := szAdd self.nmemb other.nmemb }
  return true

/-- `array_append_from_capacity`. -/
def arrayAppendFromCapacity (n : ℕ) : ArrM Bool := do
  let room ← arrayUninitializedSize
  if n > room then return false
  store fun self => { self with nmemb := szAdd self.nmemb n }
  return true

/-! ### Removal -/

/-- The loop of `array_clear`, `while (_size(self)--)`: it runs down from the last
element, and the test that ends it wraps the size. -/
def clearLoop : ℕ → ArrM Unit
  | 0 => do
    let self ← header
    let size ← diff self.nmemb 1
    store fun self => { self with nmemb := size }
  | n + 1 => do
    let self ← header
    let size ← diff self.nmemb 1
    store fun self => { self with nmemb := size }
    callFree size
    clearLoop n

/-- `array_clear`. -/
def arrayClear : ArrM Unit := do
  let self ← header
  runIf self.free (clearLoop self.nmemb)
  store fun self => { self with nmemb := 0 }

/-- `array_kill`. -/
def arrayKill : ArrM Unit := do
  arrayClear
  let self ← header
  runIf self.isOwnBuffer memoryFree
  freeHeader

/-- `array_pop`: what is copied into `*into`, when `into` is not `NULL`. -/
def arrayPop (into : Bool) : ArrM (Option Bytes) := do
  let self ← header
  notifyBugOn (self.nmemb == 0)
  let size ← diff self.nmemb 1
  store fun self => { self with nmemb := size }
  let copied ← copyInto into (self.relativeData size) self.eltSize
  runIf self.free (callFree size)
  return copied

/-- `array_evict`. -/
def arrayEvict (p : ℕ) : ArrM Unit := do
  let self ← header
  notifyBugOn (decide (self.nmemb ≤ p))
  let rest ← diff self.nmemb p
  let n := szMul rest self.eltSize
  runIf self.free (callFree p)
  let size ← diff self.nmemb 1
  store fun self => { self with nmemb := size }
  runIf (p ≤ size) do
    let len ← diff n self.eltSize
    moveBlock (self.relativeData p) (self.relativeData (szAdd p 1)) len

/-- `array_popf`. -/
def arrayPopf (into : Bool) : ArrM (Option Bytes) := do
  let self ← header
  notifyBugOn (self.nmemb == 0)
  let copied ← copyInto into 0 self.eltSize
  arrayEvict 0
  return copied

/-- The destructor pass of `array_wipe`: `n` elements from position `i` on. -/
def wipeLoop : ℕ → ℕ → ArrM Unit
  | 0, _ => pure ()
  | n + 1, i => do
    callFree i
    wipeLoop n (i + 1)

/-- `array_wipe` (`stop` is the parameter `end`). The destructor pass starts at
position zero. -/
def arrayWipe (start stop : ℕ) : ArrM Unit := do
  let self ← header
  notifyBugOn (!safeToSub stop start)
  notifyBugOn (decide (self.nmemb < (← diff stop start)))
  let n ← diff stop start
  runIf self.free (wipeLoop n 0)
  let tail ← diff self.nmemb start
  let tail ← diff tail n
  moveBlock (self.relativeData start) (self.relativeData stop) (szMul tail self.eltSize)
  let self ← header
  let size ← diff self.nmemb n
  store fun self => { self with nmemb := size }

/-! ### Exchange -/

/-- `*p ^= *q` on two bytes of the buffer. -/
def xorByte (p q : ℕ) : ArrM Unit := do
  let x ← readBlock p 1
  let y ← readBlock q 1
  writeBlock p (List.zipWith (· ^^^ ·) x y)

/-- The byte loop of `array_swap_elems`. -/
def swapLoop : ℕ → ℕ → ℕ → ArrM Unit
  | 0, _, _ => pure ()
  | n + 1, p, q => do
    xorByte p q
    xorByte q p
    xorByte p q
    swapLoop n (p + 1) (q + 1)

/-- `array_swap_elems`. -/
def arraySwapElems (a b : ℕ) : ArrM Unit := do
  let self ← header
  notifyBugOn (decide (self.nmemb ≤ a))
  notifyBugOn (decide (self.nmemb ≤ b))
  swapLoop self.eltSize (self.relativeData a) (self.relativeData b)

/-! ### Copies -/

/-- `array_extract`: the contents of the new buffer, or `none` for `NULL`. -/
def arrayExtract (start stop : ℕ) : ArrM (Option Bytes) := do
  let self ← header
  notifyBugOn (!safeToSub stop start)
  notifyBugOn (!safeToMul (← diff stop start) self.eltSize)
  notifyBugOn (!safeToSub self.nmemb start)
  notifyBugOn (decide ((← diff self.nmemb start) < (← diff stop start)))
  let size ← diff stop start
  match ← memoryAlloc (szMul size self.eltSize) with
  | none => return none
  | some _ =>
    let size ← diff stop start
    let bytes ← readBlock (self.relativeData start) (szMul size self.eltSize)
    return some bytes

/-- The conversion of an `int64_t` to `size_t`. -/
def toSize (x : ℤ) : ℕ := (x % 2 ^ 64).toNat

/-- A position of `array_pull`: a negative one counts from the end. -/
def fromEnd (size : ℕ) (pos : ℤ) : ℤ :=
  if pos < 0 then wrapInt64 (pos + size) else pos

/-- `start < end ? (end++) : (end--)`: the position behind the last one copied. -/
def pastStop (start stop : ℤ) : ℤ :=
  if start < stop then wrapInt64 (stop + 1) else wrapInt64 (stop - 1)

/-- The backward copy of `array_pull`, `while (start != end)`. The first argument bounds
the number of rounds. -/
def pullLoop (src : ArrayT) : ℕ → ℕ → ℤ → ℤ → ArrM Unit
  | 0, _, start, stop => if start = stop then pure () else fault
  | n + 1, off, start, stop =>
    if start = stop then pure ()
    else do
      let bytes ← readOf src (src.relativeData (toSize start)) src.eltSize
      writeBlock off bytes
      pullLoop src n (off + src.eltSize) (wrapInt64 (start - 1)) stop

/-- The two ways `array_pull` copies: all at once, or backwards element by element. -/
def pullCopy (src : ArrayT) (nElems buffersize : ℕ) (start stop : ℤ) : ArrM Unit :=
  if start < stop then do
    let bytes ← readOf src (src.relativeData (toSize start)) buffersize
    writeBlock 0 bytes
  else
    pullLoop src nElems 0 start stop

/-- `array_pull` (`stop` is the parameter `end`). -/
def arrayPull (src : ArrayT) (start stop : ℤ) : ArrM Handle := do
  notifyBugOn (decide (src.nmemb ≤ start.natAbs))
  notifyBugOn (decide (src.nmemb ≤ stop.natAbs))
  let start := fromEnd src.nmemb start
  let stop := pastStop start (fromEnd src.nmemb stop)
  let nElems := (wrapInt64 (start - stop)).natAbs
  let buffersize := szMul nElems src.eltSize
  let (ok, arr) ← arrayInit buffersize
  if !ok then return .null
  store fun self => { self with
    eltSize := src.eltSize, free := src.free, cap := buffersize, nmemb := nElems,
    settled := true, isOwnBuffer := true }
  pullCopy src nElems buffersize start stop
  return arr

/-- The loop of `array_filter`: `n` elements of `src` from position `i` on. -/
def filterLoop (src : ArrayT) (callback : Bytes → Bool) : ℕ → ℕ → ArrM Bool
  | 0, _ => return true
  | n + 1, i => do
    match ← arrayAt src i with
    | none => return false
    | some off =>
      let elem ← readOf src off src.eltSize
      let pushed ← if callback elem then arrayPush (some elem) else pure true
      if pushed then filterLoop src callback n (i + 1) else return false

/-- The end of `array_filter` and of `array_dup`: fill the array just created, or kill it
and return `NULL`. -/
def fillOrKill (fill : ArrM Bool) : ArrM Handle := do
  if ← fill then return .header
  arrayKill
  return .null

/-- `array_filter`. -/
def arrayFilter (src : ArrayT) (callback : Bytes → Bool) : ArrM Handle := do
  match ← arrayCreate src.eltSize arrayInitialSize src.free with
  | .null => return .null
  | .header => fillOrKill (filterLoop src callback src.nmemb 0)

/-- `array_dup`. -/
def arrayDup (src : ArrayT) : ArrM Handle := do
  match ← arrayCreate src.eltSize src.nmemb src.free with
  | .null => return .null
  | .header => fillOrKill (arrayConcat (.other src))

/-! ### Capacity and flags -/

/-- `array_slimcheck`. -/
def arraySlimcheck : ArrM Bool := do
  let self ← header
  if self.settled then return false
  if self.cap ≠ 0 then
    let size := self.sizeof
    if size < self.cap / 2 then
      match ← memoryRealloc size with
      | none => return false
      | some (p, bytes) =>
        store fun self => { self with ptr := p, block := some bytes, cap := size }
        return true
  return true

/-- `array_settle`. -/
def arraySettle : ArrM Unit := do
  store fun self => { self with settled := true }

/-- `array_unsettle`. -/
def arrayUnsettle : ArrM Unit := do
  let self ← header
  notifyBugOn (!self.isOwnBuffer)
  store fun self => { self with settled := false }

end Backd
