import Backd.ArrayCreate
import Backd.ArrayFrame
import Backd.Library.Runs

/-!
# Runs over Many Arrays

A program holds many arrays, in variables that point to their headers. The state is a
`Pool`: the headers ever created (`none` once released), the variables, and the number of
allocator calls. A `PoolOp` is a call of any public operation of `array.h`; it takes the
variables it works on. A step is stuck where a guard fires, where a variable is `NULL` or
its header was released, and where memory is touched that is not there, so a run is a
sequence of calls that all returned. The answer of a step is its `Effect`: the header
operated on or created, and the events.

What one operation can do to its header is said once, in `Change`. The rest follows from
that and from what the constructors make (`Made`).

## Main results

* `settled_and_borrowed_stay`: between `array_settle` and the next `array_unsettle` or
  `array_kill` the buffer and the capacity of an array stay; an array from
  `array_borrow_buffer` stays settled and non-owning with its buffer, no operation on it
  reallocates or frees anything, and a static buffer that is never seized is not
  reallocated or freed by any operation of the run.
-/

namespace Backd

open Runs

/-- A call that works on one array. -/
inductive Op
  | adjust (n : ℕ)
  | push (e : Option Bytes)
  | pushf (e : Option Bytes)
  | insert (p : ℕ) (e : Option Bytes)
  | inject (p : ℕ) (src : Option Bytes) (n : ℕ)
  | append (src : Option Bytes) (n : ℕ)
  | appendFromCapacity (n : ℕ)
  | tipex (off : ℕ) (src : Option Bytes) (n : ℕ)
  | pop (into : Bool)
  | popf (into : Bool)
  | evict (p : ℕ)
  | clear
  | wipe (start stop : ℕ)
  | swapElems (i j : ℕ)
  | extract (start stop : ℕ)
  | slimcheck
  | settle
  | unsettle
  | size
  | sizeof
  | cap
  | access (p : ℕ)
  | unsafeAccess (p : ℕ)
  | head
  | tail
  | uninitializedSize
  | uninitializedData
  | isSettled
  deriving DecidableEq

/-- The function called. -/
def Op.run : Op → ArrM Unit
  | adjust n => (fun _ => ()) <$> arrayAdjust n
  | push e => (fun _ => ()) <$> arrayPush e
  | pushf e => (fun _ => ()) <$> arrayPushf e
  | insert p e => (fun _ => ()) <$> arrayInsert p e
  | inject p src n => (fun _ => ()) <$> arrayInject p src n
  | append src n => (fun _ => ()) <$> arrayAppend src n
  | appendFromCapacity n => (fun _ => ()) <$> arrayAppendFromCapacity n
  | tipex off src n => arrayTipex off src n
  | pop into => (fun _ => ()) <$> arrayPop into
  | popf into => (fun _ => ()) <$> arrayPopf into
  | evict p => arrayEvict p
  | clear => arrayClear
  | wipe start stop => arrayWipe start stop
  | swapElems i j => arraySwapElems i j
  | extract start stop => (fun _ => ()) <$> arrayExtract start stop
  | slimcheck => (fun _ => ()) <$> arraySlimcheck
  | settle => arraySettle
  | unsettle => arrayUnsettle
  | size => (fun _ => ()) <$> arraySize
  | sizeof => (fun _ => ()) <$> arraySizeof
  | cap => (fun _ => ()) <$> arrayCap
  | access p => (fun _ => ()) <$> arrayAccess p
  | unsafeAccess p => (fun _ => ()) <$> arrayUnsafeAccess p
  | head => (fun _ => ()) <$> arrayHead
  | tail => (fun _ => ()) <$> arrayTail
  | uninitializedSize => (fun _ => ()) <$> arrayUninitializedSize
  | uninitializedData => (fun _ => ()) <$> arrayUninitializedData
  | isSettled => (fun _ => ()) <$> arrayIsSettled

/-- A call of a public operation. The numbers `v` and `w` are the variables that hold the
arrays. -/
inductive PoolOp
  | create (v eltSize n : ℕ) (free : Bool)
  | seize (v : ℕ) (buffer : Addr) (bytes : Bytes) (bufsize eltSize n : ℕ) (free : Bool)
  | borrow (v : ℕ) (buffer : Addr) (bytes : Bytes) (bufsize eltSize n : ℕ) (free : Bool)
  | dup (v w : ℕ)
  | filter (v w : ℕ) (callback : Bytes → Bool)
  | pull (v w : ℕ) (start stop : ℤ)
  | swap (v w : ℕ)
  | kill (v : ℕ)
  | concat (v w : ℕ)
  | op (v : ℕ) (op : Op)

/-- The arrays of a program: the headers in the order of their creation, the variables,
and the number of allocator calls. -/
structure Pool where
  headers : List (Option ArrayT)
  vars : ℕ → Option ℕ
  calls : ℕ

/-- What a step tells: the header operated on or created, and the events. -/
structure Effect where
  target : Option ℕ
  events : List Event

namespace Pool

/-- No arrays yet. -/
def empty : Pool :=
  { headers := [], vars := fun _ => none, calls := 0 }

/-- A header that is not released. -/
def live (p : Pool) (id : ℕ) : Option ArrayT :=
  p.headers[id]?.join

/-- Assign a variable. -/
def assign (p : Pool) (v : ℕ) (id : Option ℕ) : Pool :=
  { p with vars := fun w => if w = v then id else p.vars w }

/-- Run an operation on a header. -/
def onHeader (A : Allocator) (p : Pool) (id : ℕ) (m : ArrM Unit) : Option (Effect × Pool) :=
  match p.live id with
  | none => none
  | some a =>
    match m A ⟨some a, p.calls, []⟩ with
    | .error _ => none
    | .ok (_, s) =>
      some (⟨some id, s.trace⟩, { p with headers := p.headers.set id s.arr, calls := s.calls })

/-- Run a constructor and assign its result. -/
def construct (A : Allocator) (p : Pool) (v : ℕ) (m : ArrM Handle) : Option (Effect × Pool) :=
  match m A ⟨none, p.calls, []⟩ with
  | .error _ => none
  | .ok (.null, s) => some (⟨none, s.trace⟩, { p with calls := s.calls }.assign v none)
  | .ok (.header, s) =>
    some (⟨some p.headers.length, s.trace⟩,
      { p with headers := p.headers ++ [s.arr], calls := s.calls }.assign v
        (some p.headers.length))

/-- One call. -/
def step (A : Allocator) (p : Pool) : PoolOp → Option (Effect × Pool)
  | .create v eltSize n free => p.construct A v (arrayCreate eltSize n free)
  | .seize v buffer bytes bufsize eltSize n free =>
    p.construct A v (arraySeizeBuffer buffer bytes bufsize eltSize n free)
  | .borrow v buffer bytes bufsize eltSize n free =>
    p.construct A v (arrayBorrowBuffer buffer bytes bufsize eltSize n free)
  | .dup v w => do
    let a ← p.live (← p.vars w)
    p.construct A v (arrayDup a)
  | .filter v w callback => do
    let a ← p.live (← p.vars w)
    p.construct A v (arrayFilter a callback)
  | .pull v w start stop => do
    let a ← p.live (← p.vars w)
    p.construct A v (arrayPull a start stop)
  | .swap v w =>
    some (⟨none, []⟩, (p.assign v (p.vars w)).assign w (p.vars v))
  | .kill v => do
    p.onHeader A (← p.vars v) arrayKill
  | .concat v w => do
    let id ← p.vars v
    let id' ← p.vars w
    let b ← p.live id'
    p.onHeader A id ((fun _ => ()) <$> arrayConcat (if id' = id then .self else .other b))
  | .op v op => do
    p.onHeader A (← p.vars v) op.run

end Pool

/-- The machine of many arrays: any call may be made. -/
def poolMachine (A : Allocator) : Machine Pool PoolOp Effect where
  Admits _ _ := True
  step p op := p.step A op

/-- The call is `array_settle`. -/
def PoolOp.IsSettle : PoolOp → Prop
  | .op _ .settle => True
  | _ => False

/-- The call is `array_unsettle`. -/
def PoolOp.IsUnsettle : PoolOp → Prop
  | .op _ .unsettle => True
  | _ => False

/-- The call is `array_kill`. -/
def PoolOp.IsKill : PoolOp → Prop
  | .kill _ => True
  | _ => False

/-- The call works on one live header. -/
def PoolOp.Works : PoolOp → Prop
  | .kill _ | .concat _ _ | .op _ _ => True
  | _ => False

/-- The call hands the buffer to `array_seize_buffer`. -/
def PoolOp.Seizes (buffer : Addr) : PoolOp → Prop
  | .seize _ b _ _ _ _ _ => b = buffer
  | _ => False

theorem PoolOp.IsSettle.works {op : PoolOp} (h : op.IsSettle) : op.Works := by
  cases op with
  | op v op => trivial
  | create | seize | borrow | dup | filter | pull | swap | kill | concat => exact h.elim

theorem PoolOp.IsSettle.not_kill {op : PoolOp} (h : op.IsSettle) : ¬ op.IsKill := by
  cases op with
  | kill v => exact fun _ => h
  | create | seize | borrow | dup | filter | pull | swap | concat | op => exact id

/-! ### What one operation can do to its header -/

/-- A block granted by an allocator call numbered from `c` on. -/
def Fresh (c : ℕ) (p : Addr) : Prop :=
  ∃ k, c ≤ k ∧ p = .heap k

/-- The event is a call of `realloc` or `free` on the buffer `p`. -/
def Event.Concerns (p : Addr) : Event → Prop
  | .realloc q _ | .free q => q = p
  | .destroy _ | .diff _ _ => False

/-- A header that `a` may have become under an operation that sets no flag: settled, it
has the buffer and the capacity of `a`; otherwise the buffer may be a newer one. -/
structure Kin (a : ArrayT) (c : ℕ) (b : ArrayT) : Prop where
  own_eq : b.isOwnBuffer = a.isOwnBuffer
  settled_eq : b.settled = a.settled
  buffer_eq : a.settled = true → b.ptr = a.ptr ∧ b.cap = a.cap
  ptr_eq : b.ptr = a.ptr ∨ Fresh c b.ptr

/-- The events an operation on `a` may cause: only an unsettled array is reallocated, and
only an owner's buffer is freed, and no other buffer than that of the array. -/
def Licensed (a : ArrayT) (c : ℕ) : Event → Prop
  | .realloc p _ => a.settled = false ∧ (p = a.ptr ∨ Fresh c p)
  | .free p => a.isOwnBuffer = true ∧ (p = a.ptr ∨ Fresh c p)
  | .destroy _ | .diff _ _ => True

/-- The invariant of an operation on `a` that starts at allocator call `c`. -/
structure Framed (a : ArrayT) (c : ℕ) (s : ArrSt) : Prop where
  calls_le : c ≤ s.calls
  header : ∃ b, s.arr = some b ∧ Kin a c b
  events : ∀ e ∈ s.trace, Licensed a c e

section Frame

variable {a b : ArrayT} {c : ℕ}

theorem framed_start : Framed a c ⟨some a, c, []⟩ :=
  ⟨le_refl _, ⟨a, rfl, rfl, rfl, fun _ => ⟨rfl, rfl⟩, .inl rfl⟩, by simp⟩

theorem Framed.kin {s : ArrSt} (h : Framed a c s) (hb : s.arr = some b) : Kin a c b := by
  obtain ⟨b', hb', hkin⟩ := h.header
  obtain rfl : b = b' := Option.some.inj (hb.symm.trans hb')
  exact hkin

theorem Framed.emit {s : ArrSt} {e : Event} (h : Framed a c s) (he : Licensed a c e) :
    Framed a c { s with trace := s.trace ++ [e] } := by
  refine ⟨h.calls_le, h.header, fun d hd => ?_⟩
  rcases List.mem_append.mp hd with hd | hd
  · exact h.events d hd
  · rwa [List.mem_singleton.mp hd]

/-- The elements and the block do not matter. -/
theorem Framed.setBlock {s : ArrSt} (h : Framed a c s) (hb : s.arr = some b) (n : ℕ)
    (block : Option Bytes) :
    Framed a c { s with arr := some { b with nmemb := n, block := block } } :=
  have hkin := h.kin hb
  ⟨h.calls_le, ⟨_, rfl, hkin.own_eq, hkin.settled_eq, hkin.buffer_eq, hkin.ptr_eq⟩, h.events⟩

theorem quiet_framed : Quiet (Framed a c) where
  calls := fun s h => ⟨Nat.le_succ_of_le h.calls_le, h.header, h.events⟩
  contents := fun s b n block h hb _ => h.setBlock hb n block
  events := by
    intro s e h he
    cases e with
    | destroy d | diff x y => exact h.emit trivial
    | realloc p n | free p => cases he

/-- A reallocation of an unsettled array gives a fresh block. -/
theorem memoryRealloc_keeps (hs : a.settled = false) (n : ℕ) :
    Keeps (Framed a c) (memoryRealloc n) fun r => ∀ x, r = some x → Fresh c x.1 := by
  refine Keeps.header (G := Kin a c) (fun s b h hb => h.kin hb) fun b hkin => ?_
  refine (Keeps.emit (e := .realloc b.ptr n) fun s h => h.emit ⟨hs, hkin.ptr_eq⟩).bind
    fun _ _ => ?_
  cases b.block with
  | none => exact keeps_fault
  | some bs =>
      by_cases hn : n = 0
      · subst hn
        refine (Keeps.store fun s b h hb => ?_).bind fun _ _ => Keeps.pure (by simp)
        exact h.setBlock hb b.nmemb none
      · dsimp only
        rw [if_neg hn]
        intro A s r s' h hrun
        simp only [resize] at hrun
        split at hrun <;> cases hrun
        · refine ⟨quiet_framed.calls s h, fun x hx => ⟨s.calls, h.calls_le, ?_⟩⟩
          obtain rfl := Option.some.inj hx
          rfl
        · exact ⟨quiet_framed.calls s h, by simp⟩

/-- The buffer that is freed is that of an owner. -/
theorem memoryFree_keeps (hown : a.isOwnBuffer = true) :
    Keeps (Framed a c) memoryFree fun _ => True := by
  refine Keeps.header (G := Kin a c) (fun s b h hb => h.kin hb) fun b hkin => ?_
  refine (Keeps.emit (e := .free b.ptr) fun s h => h.emit ⟨hown, hkin.ptr_eq⟩).bind fun _ _ => ?_
  cases b.block with
  | none => exact keeps_fault
  | some bs => exact Keeps.store fun s b h hb => h.setBlock hb b.nmemb none

/-- A settled array does not grow. -/
theorem growth_settled {cap n m : ℕ} : growth cap true n ≠ .realloc m := by
  unfold growth
  split <;> simp

/-- A reallocated buffer is taken over with its size. -/
theorem takeOver_keeps (hs : a.settled = false) {x : Addr × Bytes} (hx : Fresh c x.1) (n : ℕ) :
    Keeps (Framed a c)
      (store fun self => { self with ptr := x.1, block := some x.2, cap := n })
      fun _ => True := by
  refine Keeps.store fun s b h hb => ?_
  have hkin := h.kin hb
  exact ⟨h.calls_le, ⟨_, rfl, hkin.own_eq, hkin.settled_eq, by simp [hs], .inr hx⟩, h.events⟩

theorem arrayAdjust_keeps (n : ℕ) : Keeps (Framed a c) (arrayAdjust n) fun _ => True := by
  refine Keeps.header (G := Kin a c) (fun s b h hb => h.kin hb) fun b hkin =>
    Keeps.guard fun _ => Keeps.guard fun _ => Keeps.guard fun _ => ?_
  rw [hkin.settled_eq]
  generalize szMul (szAdd n b.nmemb) b.eltSize = bytes
  cases hg : growth b.cap a.settled bytes with
  | fits => exact Keeps.pure trivial
  | refuse => exact Keeps.pure trivial
  | realloc m =>
      have hs : a.settled = false := by
        cases hset : a.settled with
        | false => rfl
        | true => exact absurd (hset ▸ hg) growth_settled
      refine (memoryRealloc_keeps hs m).bind fun r hr => ?_
      cases r with
      | none => exact Keeps.pure trivial
      | some x => exact (takeOver_keeps hs (hr x rfl) m).bind fun _ _ => Keeps.pure trivial

theorem arraySlimcheck_keeps : Keeps (Framed a c) arraySlimcheck fun _ => True := by
  refine Keeps.header (G := Kin a c) (fun s b h hb => h.kin hb) fun b hkin => ?_
  rw [hkin.settled_eq]
  cases hs : a.settled with
  | true => exact Keeps.pure trivial
  | false =>
      simp only [Bool.false_eq_true, if_false]
      split
      · split
        · refine (memoryRealloc_keeps hs _).bind fun r hr => ?_
          cases r with
          | none => exact Keeps.pure trivial
          | some x => exact (takeOver_keeps hs (hr x rfl) _).bind fun _ _ => Keeps.pure trivial
        · exact Keeps.pure trivial
      · exact Keeps.pure trivial

/-- Every operation but the two that set the flag keeps the invariant. -/
theorem Op.run_keeps {op : Op} (h₁ : op ≠ .settle) (h₂ : op ≠ .unsettle) :
    Keeps (Framed a c) op.run fun _ => True := by
  have hq : Quiet (Framed a c) := quiet_framed
  have hgrow := arrayAdjust_keeps (a := a) (c := c)
  cases op with
  | adjust n => exact (hgrow n).map _
  | push e => exact (hq.arrayPush hgrow e).map _
  | pushf e => exact (hq.arrayInsert hgrow 0 e).map _
  | insert p e => exact (hq.arrayInsert hgrow p e).map _
  | inject p src n => exact (hq.arrayInject hgrow p src n).map _
  | append src n => exact (hq.arrayAppend hgrow src n).map _
  | appendFromCapacity n => exact (hq.arrayAppendFromCapacity n).map _
  | tipex off src n => exact hq.arrayTipex off src n
  | pop into => exact (hq.arrayPop into).map _
  | popf into => exact (hq.arrayPopf into).map _
  | evict p => exact hq.arrayEvict p
  | clear => exact hq.arrayClear
  | wipe start stop => exact hq.arrayWipe start stop
  | swapElems i j => exact hq.arraySwapElems i j
  | extract start stop => exact (hq.arrayExtract start stop).map _
  | slimcheck => exact arraySlimcheck_keeps.map _
  | settle => exact absurd rfl h₁
  | unsettle => exact absurd rfl h₂
  | size | sizeof | cap | unsafeAccess p | isSettled =>
      exact (reads_header.then fun _ => reads_pure _).keeps.map _
  | access p | head => exact (reads_header.then fun a => reads_arrayAt a _).keeps.map _
  | tail => exact hq.arrayTail.map _
  | uninitializedSize => exact hq.arrayUninitializedSize.map _
  | uninitializedData =>
      exact (reads_header.then fun _ => (reads_notifyBugOn _).then fun _ =>
        reads_header.then fun _ => reads_pure _).keeps.map _

/-- `array_kill` frees the buffer of an owner and releases the header. -/
theorem arrayKill_released {A : Allocator} {s s' : ArrSt} (h : Framed a c s)
    (hrun : arrayKill A s = .ok ((), s')) :
    c ≤ s'.calls ∧ s'.arr = none ∧ ∀ e ∈ s'.trace, Licensed a c e := by
  obtain ⟨_, s₁, hclear, hrun⟩ := of_bind_ok hrun
  have h₁ := (quiet_framed.arrayClear A s _ s₁ h hclear).1
  obtain ⟨b, hb, hkin⟩ := h₁.header
  obtain ⟨arr, calls, trace⟩ := s₁
  obtain rfl : arr = some b := hb
  obtain ⟨_, s₂, hfree, hrun⟩ :=
    of_bind_ok (m := runIf (b.isOwnBuffer = true) _) (f := fun _ => freeHeader) hrun
  have hkeep : Keeps (Framed a c) (runIf (b.isOwnBuffer = true) memoryFree) fun _ => True :=
    Keeps.runIf fun hown => memoryFree_keeps (hkin.own_eq.symm.trans hown)
  have h₂ := (hkeep A _ _ s₂ h₁ hfree).1
  cases hrun
  exact ⟨h₂.calls_le, rfl, h₂.events⟩

/-! ### What a call on a header may leave -/

/-- What a call on the header `a` may leave behind and cause. -/
structure Change (a : ArrayT) (c : ℕ) (op : PoolOp) (events : List Event)
    (o : Option ArrayT) : Prop where
  gone : o = none → op.IsKill
  own_eq : ∀ b, o = some b → b.isOwnBuffer = a.isOwnBuffer
  buffer_eq : ∀ b, o = some b → a.settled = true → b.ptr = a.ptr ∧ b.cap = a.cap
  ptr_eq : ∀ b, o = some b → b.ptr = a.ptr ∨ Fresh c b.ptr
  stays : ∀ b, o = some b → a.settled = true →
    b.settled = true ∨ op.IsUnsettle ∧ a.isOwnBuffer = true
  settles : op.IsSettle → ∀ b, o = some b → b.settled = true
  licensed : ∀ e ∈ events, Licensed a c e

theorem Framed.change {op : PoolOp} {s : ArrSt} (h : Framed a c s) (hop : ¬ op.IsSettle) :
    Change a c op s.trace s.arr := by
  obtain ⟨b, hb, hkin⟩ := h.header
  rw [hb]
  refine ⟨by simp, ?_, ?_, ?_, ?_, fun hs => absurd hs hop, h.events⟩ <;>
    rintro b' hb' <;> obtain rfl := Option.some.inj hb'
  · exact hkin.own_eq
  · exact hkin.buffer_eq
  · exact hkin.ptr_eq
  · exact fun hs => .inl (hkin.settled_eq.trans hs)

/-- The two operations that set the flag leave the buffer alone. -/
theorem change_flag {op : PoolOp} (flag : Bool)
    (h : flag = true ∨ op.IsUnsettle ∧ a.isOwnBuffer = true)
    (hop : op.IsSettle → flag = true) : Change a c op [] (some { a with settled := flag }) := by
  refine ⟨by simp, ?_, ?_, ?_, ?_, ?_, by simp⟩
  · rintro b ⟨⟩
    rfl
  · rintro b ⟨⟩ -
    exact ⟨rfl, rfl⟩
  · rintro b ⟨⟩
    exact .inl rfl
  · rintro b ⟨⟩ -
    exact h
  · rintro hs b ⟨⟩
    exact hop hs

/-- **What an operation can do to its header.** -/
theorem Op.change {A : Allocator} {op : Op} {v : ℕ} {s : ArrSt}
    (hrun : op.run A ⟨some a, c, []⟩ = .ok ((), s)) :
    c ≤ s.calls ∧ Change a c (.op v op) s.trace s.arr := by
  by_cases h₁ : op = .settle
  · subst h₁
    cases hrun
    exact ⟨le_refl _, change_flag true (.inl rfl) fun _ => rfl⟩
  by_cases h₂ : op = .unsettle
  · subst h₂
    obtain ⟨hown, hrun⟩ := of_guard_ok (s := ⟨some a, c, []⟩) (f := fun _ => store _) hrun
    cases hrun
    have hown : a.isOwnBuffer = true := by simpa using hown
    exact ⟨le_refl _, change_flag false (.inr ⟨trivial, hown⟩) fun hs => hs.elim⟩
  have h := (Op.run_keeps h₁ h₂ A _ _ s framed_start hrun).1
  refine ⟨h.calls_le, h.change ?_⟩
  cases op <;> first | exact id | exact absurd rfl h₁

/-! ### What the constructors make -/

/-- The events of a constructor concern blocks it was granted itself. -/
def NewOnly (c : ℕ) : Event → Prop
  | .realloc p _ | .free p => Fresh c p
  | .destroy _ | .diff _ _ => True

/-- What a constructor makes: an owner of a fresh block, or of the block that was handed
over, or an array that borrows. -/
def Made (c : ℕ) (op : PoolOp) (b : ArrayT) : Prop :=
  match op with
  | .borrow _ buffer _ bufsize _ _ _ =>
    b.isOwnBuffer = false ∧ b.settled = true ∧ b.ptr = buffer ∧ b.cap = bufsize
  | .seize _ buffer _ _ _ _ _ => b.isOwnBuffer = true ∧ b.ptr = buffer
  | _ => b.isOwnBuffer = true ∧ Fresh c b.ptr

/-- The result of a constructor that makes its own block. -/
structure MadeFresh (c : ℕ) (s : ArrSt) : Prop where
  calls_le : c ≤ s.calls
  events : ∀ e ∈ s.trace, NewOnly c e
  header : ∀ b, s.arr = some b → b.isOwnBuffer = true ∧ Fresh c b.ptr

theorem Fresh.mono {c' : ℕ} {p : Addr} (h : Fresh c' p) (hc : c ≤ c') : Fresh c p := by
  obtain ⟨k, hk, rfl⟩ := h
  exact ⟨k, le_trans hc hk, rfl⟩

/-- What happens to an owner of a fresh block concerns fresh blocks only. -/
theorem Licensed.newOnly {c' : ℕ} {e : Event} (hptr : Fresh c a.ptr) (hc : c ≤ c')
    (h : Licensed a c' e) : NewOnly c e := by
  cases e with
  | destroy d | diff x y => trivial
  | realloc p n | free p => exact h.2.elim (fun hp => hp ▸ hptr) fun hp => hp.mono hc

theorem Framed.madeFresh {c' : ℕ} {s : ArrSt} (h : Framed a c' s) (hc : c ≤ c')
    (hown : a.isOwnBuffer = true) (hptr : Fresh c a.ptr) : MadeFresh c s := by
  refine ⟨le_trans hc h.calls_le, fun e he => (h.events e he).newOnly hptr hc, ?_⟩
  intro b hb
  have hkin := h.kin hb
  exact ⟨hkin.own_eq.trans hown, hkin.ptr_eq.elim (fun hp => hp ▸ hptr) fun hp => hp.mono hc⟩

section Constructors

variable {A : Allocator} {s : ArrSt} {r : Handle}

theorem Construction.fill_keeps {con : Construction} :
    Keeps (Framed a c) con.fill fun _ => True := by
  have hq : Quiet (Framed a c) := quiet_framed
  cases con with
  | create eltSize n free => exact Keeps.pure trivial
  | dup src => exact hq.arrayConcat arrayAdjust_keeps _
  | filter src callback => exact hq.filterLoop arrayAdjust_keeps src callback _ _

/-- `array_create`, `array_dup` and `array_filter` make an owner of a fresh block. -/
theorem Construction.run_madeFresh (con : Construction)
    (hrun : con.run A ⟨none, c, []⟩ = .ok (r, s)) : MadeFresh c s := by
  rw [Construction.run_eq] at hrun
  obtain ⟨h, s₁, hcreate, hrun⟩ := of_bind_ok hrun
  have hcases := (arrayCreate_run (by rw [hcreate]; simp)).2
  rw [hcreate] at hcases
  split at hcases
  · cases hcases
    cases hrun
    exact ⟨Nat.le_succ c, by simp, by simp⟩
  split at hcases
  · cases hcases
    have hfill : fillOrKill con.fill A ⟨none, c + 2, []⟩ = .ok (r, s) := hrun
    rcases con.fill_released (A := A) (k := c + 2) (t := []) with ⟨e, he⟩ | hok
    · rw [fillOrKill, bind_run, he] at hfill
      cases hfill
    · rw [fillOrKill, bind_ok hok] at hfill
      cases hfill
      exact ⟨Nat.le_add_right c 2, by simp, by simp⟩
  · cases hcases
    obtain ⟨ok, s₂, hfill, hrun⟩ := of_bind_ok hrun
    have h₂ := (con.fill_keeps A _ _ s₂ framed_start hfill).1
    have hptr : Fresh c (createdArray A c con.eltSize con.count con.free).ptr :=
      ⟨c + 1, Nat.le_succ c, rfl⟩
    cases ok with
    | true =>
        cases hrun
        exact h₂.madeFresh (Nat.le_add_right c 2) rfl hptr
    | false =>
        obtain ⟨_, s₃, hkill, hrun⟩ := of_bind_ok (m := arrayKill) hrun
        cases hrun
        obtain ⟨hcalls, hnone, hevents⟩ := arrayKill_released h₂ hkill
        refine ⟨by omega, fun e he => (hevents e he).newOnly hptr (Nat.le_add_right c 2), ?_⟩
        simp [hnone]

/-- `array_pull` makes an owner of a fresh block. -/
theorem arrayPull_madeFresh {src : ArrayT} {start stop : ℤ}
    (hrun : arrayPull src start stop A ⟨none, c, []⟩ = .ok (r, s)) : MadeFresh c s := by
  obtain ⟨-, hrun⟩ := of_guard_ok hrun
  obtain ⟨-, hrun⟩ := of_guard_ok hrun
  obtain ⟨⟨ok, h⟩, s₁, hinit, hrun⟩ := of_bind_ok hrun
  rw [arrayInit_run] at hinit
  split at hinit
  · cases hinit
    cases hrun
    exact ⟨Nat.le_succ c, by simp, by simp⟩
  split at hinit
  · cases hinit
    cases hrun
    exact ⟨Nat.le_add_right c 2, by simp, by simp⟩
  · cases hinit
    obtain ⟨_, s₂, hstore, hrun⟩ := of_bind_ok (m := store _) hrun
    cases hstore
    obtain ⟨_, s₃, hcopy, hrun⟩ := of_bind_ok hrun
    cases hrun
    exact ((quiet_framed.pullCopy _ _ _ _ _) A _ _ _ framed_start hcopy).1.madeFresh
      (Nat.le_add_right c 2) rfl ⟨c + 1, Nat.le_succ c, rfl⟩

/-- `array_seize_buffer` and `array_borrow_buffer` take the buffer as it is. -/
theorem arrayOverBuffer_made {own settled free : Bool} {buffer : Addr} {bytes : Bytes}
    {bufsize eltSize n : ℕ}
    (hrun : arrayOverBuffer own settled buffer bytes bufsize eltSize n free A ⟨none, c, []⟩
      = .ok (r, s)) :
    c ≤ s.calls ∧ s.trace = [] ∧ ∀ b, s.arr = some b →
      b.isOwnBuffer = own ∧ b.settled = settled ∧ b.ptr = buffer ∧ b.cap = bufsize ∧
        b.block = some bytes := by
  obtain ⟨-, hrun⟩ := of_guard_ok hrun
  obtain ⟨-, hrun⟩ := of_guard_ok hrun
  rw [bind_run, memoryAlloc_run] at hrun
  cases hhead : A.serves c headerSize with
  | false =>
      rw [hhead] at hrun
      cases hrun
      exact ⟨Nat.le_succ c, rfl, by simp⟩
  | true =>
      rw [hhead] at hrun
      cases hrun
      refine ⟨Nat.le_succ c, rfl, ?_⟩
      rintro b ⟨⟩
      exact ⟨rfl, rfl, rfl, rfl, rfl⟩

end Constructors

end Frame

/-! ### One step of the pool -/

section Steps

variable {A : Allocator} {p q : Pool} {id v : ℕ} {op : PoolOp} {eff : Effect}

/-- The pools agree on every header but one. -/
def SameBut (id : ℕ) (p q : Pool) : Prop :=
  ∀ j, j ≠ id → q.live j = p.live j

/-- A step that operates on a live header. -/
structure Operates (p : Pool) (op : PoolOp) (eff : Effect) (q : Pool) (id : ℕ)
    (a : ArrayT) : Prop where
  works : op.Works
  target : eff.target = some id
  before : p.live id = some a
  change : Change a p.calls op eff.events (q.live id)
  rest : SameBut id p q
  calls_le : p.calls ≤ q.calls
  length_eq : q.headers.length = p.headers.length

/-- A step that may create a header, behind all others. -/
structure Creates (p : Pool) (op : PoolOp) (eff : Effect) (q : Pool) : Prop where
  not_works : ¬ op.Works
  target : ∀ id, eff.target = some id → id = p.headers.length
  events : ∀ e ∈ eff.events, NewOnly p.calls e
  made : ∀ b, q.live p.headers.length = some b → Made p.calls op b
  rest : SameBut p.headers.length p q
  calls_le : p.calls ≤ q.calls
  length_le : p.headers.length ≤ q.headers.length
  counted : ∀ id, eff.target = some id → id < q.headers.length

theorem live_lt {b : ArrayT} (h : p.live id = some b) : id < p.headers.length := by
  by_contra hno
  rw [Pool.live, List.getElem?_eq_none (Nat.le_of_not_lt hno)] at h
  cases h

theorem live_length : p.live p.headers.length = none := by
  simp [Pool.live]

theorem onHeader_cases {m : ArrM Unit} (h : p.onHeader A id m = some (eff, q)) :
    ∃ a s, p.live id = some a ∧ m A ⟨some a, p.calls, []⟩ = .ok ((), s) ∧
      eff = ⟨some id, s.trace⟩ ∧ q.calls = s.calls ∧ q.live id = s.arr ∧ SameBut id p q ∧
      q.headers.length = p.headers.length := by
  unfold Pool.onHeader at h
  cases ha : p.live id with
  | none =>
      rw [ha] at h
      cases h
  | some a =>
      rw [ha] at h
      cases hm : m A ⟨some a, p.calls, []⟩ with
      | error e =>
          simp only [hm] at h
          cases h
      | ok r =>
          simp only [hm] at h
          cases h
          have hlt := live_lt ha
          refine ⟨a, r.2, rfl, hm, rfl, rfl, ?_, fun j hj => ?_, by simp⟩
          · simp [Pool.live, hlt]
          · simp [Pool.live, List.getElem?_set_ne (Ne.symm hj)]

theorem construct_creates {m : ArrM Handle} (hop : ¬ op.Works)
    (h : p.construct A v m = some (eff, q))
    (hmade : ∀ r s, m A ⟨none, p.calls, []⟩ = .ok (r, s) →
      p.calls ≤ s.calls ∧ (∀ e ∈ s.trace, NewOnly p.calls e) ∧
        ∀ b, s.arr = some b → Made p.calls op b) : Creates p op eff q := by
  unfold Pool.construct at h
  cases hm : m A ⟨none, p.calls, []⟩ with
  | error e =>
      rw [hm] at h
      cases h
  | ok r =>
      obtain ⟨r, s⟩ := r
      obtain ⟨hcalls, hevents, hmade⟩ := hmade r s hm
      rw [hm] at h
      cases r with
      | null =>
          cases h
          refine ⟨hop, by simp, hevents, fun b hb => ?_, fun j _ => rfl, hcalls, le_refl _, by simp⟩
          have hb : p.live p.headers.length = some b := hb
          rw [live_length] at hb
          cases hb
      | header =>
          cases h
          refine ⟨hop, by simp, hevents, fun b hb => hmade b ?_, fun j hj => ?_, hcalls,
            by simp [Pool.assign], by simp [Pool.assign]⟩
          · simpa [Pool.live, Pool.assign] using hb
          · simp only [Pool.live, Pool.assign]
            rcases Nat.lt_or_gt_of_ne hj with hlt | hgt
            · rw [List.getElem?_append_left hlt]
            · rw [List.getElem?_eq_none (by simp; omega), List.getElem?_eq_none (by omega)]

/-- **What one call can do**: operate on one live header within `Change`, or make one
within `Made`. -/
theorem step_cases (h : p.step A op = some (eff, q)) :
    (∃ id a, Operates p op eff q id a) ∨ Creates p op eff q := by
  have hfresh : ∀ {v m}, ¬ op.Works → p.construct A v m = some (eff, q) →
      (∀ r s, m A ⟨none, p.calls, []⟩ = .ok (r, s) → MadeFresh p.calls s) →
      (∀ b, b.isOwnBuffer = true ∧ Fresh p.calls b.ptr → Made p.calls op b) →
      Creates p op eff q := fun hop hc hm hmade =>
    construct_creates hop hc fun r s hrun =>
      ⟨(hm r s hrun).calls_le, (hm r s hrun).events,
        fun b hb => hmade b ((hm r s hrun).header b hb)⟩
  have hchange : ∀ {id m}, op.Works → p.onHeader A id m = some (eff, q) →
      (∀ a s, m A ⟨some a, p.calls, []⟩ = .ok ((), s) →
        p.calls ≤ s.calls ∧ Change a p.calls op s.trace s.arr) →
      ∃ id a, Operates p op eff q id a := by
    intro id m hop ho hm
    obtain ⟨a, s, ha, hrun, rfl, hcalls, hlive, hrest, hlen⟩ := onHeader_cases ho
    obtain ⟨hle, hchange⟩ := hm a s hrun
    exact ⟨id, a, hop, rfl, ha, hlive ▸ hchange, hrest, hcalls ▸ hle, hlen⟩
  cases op with
  | create v eltSize n free =>
      exact .inr (hfresh id h (fun r s hrun =>
        Construction.run_madeFresh (.create eltSize n free) hrun) fun b hb => hb)
  | seize v buffer bytes bufsize eltSize n free =>
      refine .inr (construct_creates id h fun r s hrun => ?_)
      obtain ⟨hcalls, htrace, hb⟩ := arrayOverBuffer_made hrun
      exact ⟨hcalls, by simp [htrace], fun b hb' => ⟨(hb b hb').1, (hb b hb').2.2.1⟩⟩
  | borrow v buffer bytes bufsize eltSize n free =>
      refine .inr (construct_creates id h fun r s hrun => ?_)
      obtain ⟨hcalls, htrace, hb⟩ := arrayOverBuffer_made hrun
      refine ⟨hcalls, by simp [htrace], fun b hb' => ?_⟩
      obtain ⟨hown, hset, hptr, hcap, -⟩ := hb b hb'
      exact ⟨hown, hset, hptr, hcap⟩
  | dup v w =>
      obtain ⟨j, -, h⟩ := Option.bind_eq_some_iff.mp h
      obtain ⟨a, -, h⟩ := Option.bind_eq_some_iff.mp h
      exact .inr (hfresh id h (fun r s hrun =>
        Construction.run_madeFresh (.dup a) hrun) fun b hb => hb)
  | filter v w callback =>
      obtain ⟨j, -, h⟩ := Option.bind_eq_some_iff.mp h
      obtain ⟨a, -, h⟩ := Option.bind_eq_some_iff.mp h
      exact .inr (hfresh id h (fun r s hrun =>
        Construction.run_madeFresh (.filter a callback) hrun) fun b hb => hb)
  | pull v w start stop =>
      obtain ⟨j, -, h⟩ := Option.bind_eq_some_iff.mp h
      obtain ⟨a, -, h⟩ := Option.bind_eq_some_iff.mp h
      exact .inr (hfresh id h (fun r s hrun => arrayPull_madeFresh hrun) fun b hb => hb)
  | swap v w =>
      cases h
      refine .inr ⟨id, by simp, by simp, fun b hb => ?_, fun j _ => rfl, le_refl _, le_refl _,
        by simp⟩
      have hb : p.live p.headers.length = some b := hb
      rw [live_length] at hb
      cases hb
  | kill v =>
      obtain ⟨j, -, h⟩ := Option.bind_eq_some_iff.mp h
      refine .inl (hchange trivial h fun a s hrun => ?_)
      obtain ⟨hcalls, hnone, hevents⟩ := arrayKill_released framed_start hrun
      refine ⟨hcalls, ?_⟩
      rw [hnone]
      exact ⟨fun _ => trivial, by simp, by simp, by simp, by simp, fun hs => hs.elim, hevents⟩
  | concat v w =>
      obtain ⟨j, -, h⟩ := Option.bind_eq_some_iff.mp h
      obtain ⟨j', -, h⟩ := Option.bind_eq_some_iff.mp h
      obtain ⟨b, -, h⟩ := Option.bind_eq_some_iff.mp h
      refine .inl (hchange trivial h fun a s hrun => ?_)
      have hquiet : Quiet (Framed a p.calls) := quiet_framed
      have hkeep := (hquiet.arrayConcat arrayAdjust_keeps
        (if j' = j then .self else .other b)).map fun _ => ()
      have hframed := (hkeep A _ _ s framed_start hrun).1
      exact ⟨hframed.calls_le, hframed.change id⟩
  | op v op =>
      obtain ⟨j, -, h⟩ := Option.bind_eq_some_iff.mp h
      exact .inl (hchange trivial h fun a s hrun => Op.change hrun)

/-! ### Invariants of the runs -/

/-- A header created before stays untouched by a step that creates another. -/
theorem Creates.live_eq (h : Creates p op eff q) (hid : id < p.headers.length) :
    q.live id = p.live id :=
  h.rest id (Nat.ne_of_lt hid)

/-- A settled array with the buffer and the capacity of `a`. -/
def KeepsBuffer (id : ℕ) (a : ArrayT) (p : Pool) : Prop :=
  ∃ b, p.live id = some b ∧ b.settled = true ∧ b.ptr = a.ptr ∧ b.cap = a.cap

/-- **Step lemma**: a settled array keeps its buffer under every call but an
`array_unsettle` or an `array_kill` on it. -/
theorem KeepsBuffer.step {a : ArrayT} (h : KeepsBuffer id a p)
    (hop : eff.target = some id → ¬ op.IsUnsettle ∧ ¬ op.IsKill)
    (hstep : p.step A op = some (eff, q)) : KeepsBuffer id a q := by
  obtain ⟨b, hb, hset, hptr, hcap⟩ := h
  rcases step_cases hstep with ⟨j, b', ho⟩ | hc
  · by_cases hj : id = j
    · subst hj
      obtain rfl : b = b' := Option.some.inj (hb.symm.trans ho.before)
      obtain ⟨hunset, hkill⟩ := hop ho.target
      cases hq : q.live id with
      | none => exact absurd (ho.change.gone hq) hkill
      | some d =>
          obtain ⟨hptr', hcap'⟩ := ho.change.buffer_eq d hq hset
          have hset' := (ho.change.stays d hq hset).resolve_right fun h => hunset h.1
          exact ⟨d, hq, hset', hptr'.trans hptr, hcap'.trans hcap⟩
    · exact ⟨b, (ho.rest id hj).trans hb, hset, hptr, hcap⟩
  · exact ⟨b, (hc.live_eq (live_lt hb)).trans hb, hset, hptr, hcap⟩

/-- The header has been created, and while it lives it borrows the buffer. -/
def Borrows (id : ℕ) (buffer : Addr) (size : ℕ) (p : Pool) : Prop :=
  id < p.headers.length ∧ ∀ b, p.live id = some b →
    b.isOwnBuffer = false ∧ b.settled = true ∧ b.ptr = buffer ∧ b.cap = size

/-- **Step lemma**: a borrowing array stays one, and no call on it reallocates or frees. -/
theorem Borrows.step {buffer : Addr} {size : ℕ} (h : Borrows id buffer size p)
    (hstep : p.step A op = some (eff, q)) :
    Borrows id buffer size q ∧
      (eff.target = some id → ∀ d ∈ eff.events, ∀ addr, ¬ d.Concerns addr) := by
  obtain ⟨hlt, hb⟩ := h
  rcases step_cases hstep with ⟨j, a, ho⟩ | hc
  · refine ⟨⟨ho.length_eq ▸ hlt, fun d hd => ?_⟩, fun htarget d hd addr => ?_⟩
    · by_cases hj : id = j
      · subst hj
        obtain ⟨hown, hset, hptr, hcap⟩ := hb a ho.before
        obtain ⟨hptr', hcap'⟩ := ho.change.buffer_eq d hd hset
        have hset' := (ho.change.stays d hd hset).resolve_right fun h => by simp [hown] at h
        exact ⟨(ho.change.own_eq d hd).trans hown, hset', hptr'.trans hptr, hcap'.trans hcap⟩
      · exact hb d ((ho.rest id hj).symm.trans hd)
    · obtain rfl : j = id := Option.some.inj (ho.target.symm.trans htarget)
      obtain ⟨hown, hset, -, -⟩ := hb a ho.before
      have hlic := ho.change.licensed d hd
      cases d with
      | destroy e | diff x y => exact id
      | realloc p n => simp [Licensed, hset] at hlic
      | free p => simp [Licensed, hown] at hlic
  · refine ⟨⟨lt_of_lt_of_le hlt hc.length_le, fun d hd => hb d ?_⟩, fun htarget => ?_⟩
    · rwa [← hc.live_eq hlt]
    · exact absurd (hc.target id htarget) (Nat.ne_of_lt hlt)

/-- Every non-owner is settled, and no owner has the buffer. -/
def Unowned (buffer : Addr) (p : Pool) : Prop :=
  ∀ j b, p.live j = some b →
    (b.isOwnBuffer = false → b.settled = true) ∧ (b.isOwnBuffer = true → b.ptr ≠ buffer)

theorem not_fresh_foreign {c k : ℕ} : ¬ Fresh c (.foreign k) := by
  rintro ⟨_, -, h⟩
  cases h

/-- **Step lemma**: a static buffer that is not seized stays without an owner, and no call
reallocates or frees it. -/
theorem Unowned.step {k : ℕ} (h : Unowned (.foreign k) p) (hop : ¬ op.Seizes (.foreign k))
    (hstep : p.step A op = some (eff, q)) :
    Unowned (.foreign k) q ∧ ∀ d ∈ eff.events, ¬ d.Concerns (.foreign k) := by
  rcases step_cases hstep with ⟨j, a, ho⟩ | hc
  · obtain ⟨hset, hptr⟩ := h j a ho.before
    refine ⟨fun i b hb => ?_, fun d hd => ?_⟩
    · by_cases hi : i = j
      · subst hi
        rw [ho.change.own_eq b hb]
        refine ⟨fun hown => ?_, fun hown heq => ?_⟩
        · exact (ho.change.stays b hb (hset hown)).resolve_right fun h => by simp [hown] at h
        · rcases ho.change.ptr_eq b hb with hsame | hfresh
          · exact hptr hown (hsame.symm.trans heq)
          · exact not_fresh_foreign (heq ▸ hfresh)
      · exact h i b ((ho.rest i hi).symm.trans hb)
    · have hlic := ho.change.licensed d hd
      -- an unsettled array is an owner, so both kinds of events come from owners
      have howner : ∀ addr, a.isOwnBuffer = true → (addr = a.ptr ∨ Fresh p.calls addr) →
          addr ≠ .foreign k := by
        rintro addr hown (rfl | hfresh) heq
        · exact hptr hown heq
        · exact not_fresh_foreign (heq ▸ hfresh)
      cases d with
      | destroy e | diff x y => exact id
      | realloc addr n =>
          obtain ⟨hunset, haddr⟩ := hlic
          refine howner addr ?_ haddr
          by_contra hown
          simp [hset (by simpa using hown)] at hunset
      | free addr => exact howner addr hlic.1 hlic.2
  · refine ⟨fun i b hb => ?_, fun d hd => ?_⟩
    · by_cases hi : i = p.headers.length
      · subst hi
        have hmade := hc.made b hb
        cases op with
        | borrow v buffer bytes bufsize eltSize n free =>
            exact ⟨fun _ => hmade.2.1, by simp [hmade.1]⟩
        | seize v buffer bytes bufsize eltSize n free =>
            exact ⟨by simp [hmade.1], fun _ heq => hop (hmade.2.symm.trans heq)⟩
        | create | dup | filter | pull | swap | kill | concat | op =>
            exact ⟨by simp [hmade.1], fun _ heq => not_fresh_foreign (heq ▸ hmade.2)⟩
      · exact h i b ((hc.rest i hi).symm.trans hb)
    · have hnew := hc.events d hd
      cases d with
      | destroy e | diff x y => exact id
      | realloc addr n | free addr => exact fun heq => not_fresh_foreign (heq ▸ hnew)

end Steps

section Runs

variable {A : Allocator} {p q : Pool} {log log₁ log₂ : List (PoolOp × Effect)} {id : ℕ}
  {op : PoolOp} {eff : Effect}

/-- **Settled arrays keep their buffer, borrowed buffers are left alone.** A run makes the
call `op` on, or creating, the header `id`, and goes on with the calls of `log₂`.

If `op` is `array_settle` and no call of `log₂` is an `array_unsettle` or an `array_kill`
on the array, it has the buffer and the capacity it had when it was settled. If `op` is
`array_borrow_buffer`, the array, as long as it lives, is settled, no owner, and has the
buffer and the capacity it was given; no call on it reallocates or frees anything; and if
the buffer is static and never seized, no call of the run reallocates or frees it. -/
theorem settled_and_borrowed_stay
    (h₁ : (poolMachine A).Run .empty (log₁ ++ [(op, eff)]) q)
    (h₂ : (poolMachine A).Run q log₂ p) (hid : eff.target = some id) :
    (op.IsSettle →
      (∀ e ∈ log₂, e.2.target = some id → ¬ e.1.IsUnsettle ∧ ¬ e.1.IsKill) →
      ∃ a b, q.live id = some a ∧ p.live id = some b ∧ b.ptr = a.ptr ∧ b.cap = a.cap) ∧
    ∀ v buffer bytes bufsize eltSize n free,
      op = .borrow v buffer bytes bufsize eltSize n free →
      (∀ b, p.live id = some b →
        b.isOwnBuffer = false ∧ b.settled = true ∧ b.ptr = buffer ∧ b.cap = bufsize) ∧
      (∀ e ∈ log₂, e.2.target = some id →
        ∀ d ∈ e.2.events, ∀ addr, ¬ d.Concerns addr) ∧
      ∀ k, buffer = .foreign k →
        (∀ e ∈ log₁ ++ [(op, eff)] ++ log₂, ¬ e.1.Seizes buffer) →
        ∀ e ∈ log₁ ++ [(op, eff)] ++ log₂, ∀ d ∈ e.2.events, ¬ d.Concerns buffer := by
  obtain ⟨p₀, -, -, hlast⟩ := h₁.last
  have hstep : p₀.step A op = some (eff, q) := hlast
  refine ⟨fun hsettle hlog => ?_, ?_⟩
  · obtain ⟨j, a₀, ho⟩ := (step_cases hstep).resolve_right fun hc =>
      hc.not_works hsettle.works
    obtain rfl : j = id := Option.some.inj (ho.target.symm.trans hid)
    cases hq : q.live j with
    | none => exact absurd (ho.change.gone hq) hsettle.not_kill
    | some a =>
        have hset := ho.change.settles hsettle a hq
        obtain ⟨b, hb, -, hptr, hcap⟩ := h₂.invariant (I := KeepsBuffer j a)
          (fun hI hH _ hst => hI.step hH hst) ⟨a, hq, hset, rfl, rfl⟩ hlog
        exact ⟨a, b, rfl, hb, hptr, hcap⟩
  · rintro v buffer bytes bufsize eltSize n free rfl
    have hc : Creates p₀ _ eff q := (step_cases hstep).resolve_left fun ⟨_, _, ho⟩ => ho.works
    have hborrows : Borrows id buffer bufsize q := by
      refine ⟨hc.counted id hid, fun b hb => ?_⟩
      rw [hc.target id hid] at hb
      exact hc.made b hb
    have hall : ∀ e ∈ log₂, True := fun _ _ => trivial
    refine ⟨?_, ?_, ?_⟩
    · exact (h₂.invariant (I := Borrows id buffer bufsize) (H := fun _ => True)
        (fun hI _ _ hst => (hI.step hst).1) hborrows hall).2
    · exact h₂.forall_log (I := Borrows id buffer bufsize) (H := fun _ => True)
        (fun hI _ _ hst => hI.step hst) hborrows hall
    · rintro k rfl hseize
      have hempty : Unowned (.foreign k) .empty := by
        intro j b hb
        simp [Pool.live, Pool.empty] at hb
      exact (h₁.append h₂).forall_log (I := Unowned (.foreign k))
        (H := fun e => ¬ e.1.Seizes (.foreign k))
        (fun hI hH _ hst => hI.step hH hst) hempty hseize

end Runs

/-- A borrowed static buffer of four bytes, in the variable `0`, with `n` elements. -/
def borrowedPool (n : ℕ) : Pool :=
  { headers := [some
      { ptr := .foreign 7, block := some [1, 2, 3, 4], nmemb := n, cap := 4, eltSize := 1,
        isOwnBuffer := false, settled := true, free := true }],
    vars := fun w => if w = 0 then some 0 else none,
    calls := 1 }

/-- After a refused shrink and a `pop`, the buffer is still borrowed. -/
theorem borrowed_after_pop : ∃ b, (borrowedPool 1).live 0 = some b ∧
    b.isOwnBuffer = false ∧ b.settled = true ∧ b.ptr = .foreign 7 ∧ b.cap = 4 := by
  have h₁ : (poolMachine (.upTo 1)).Run .empty
      ([] ++ [(.borrow 0 (.foreign 7) [1, 2, 3, 4] 4 1 2 true, ⟨some 0, []⟩)]) (borrowedPool 2) :=
    .snoc .nil trivial rfl
  have h₂ : (poolMachine (.upTo 1)).Run (borrowedPool 2)
      ([] ++ [(.op 0 .slimcheck, ⟨some 0, []⟩)]
        ++ [(.op 0 (.pop false), ⟨some 0, [.diff 2 1, .destroy [2]]⟩)]) (borrowedPool 1) :=
    have h : (poolMachine (.upTo 1)).Run _ _ (borrowedPool 2) := .snoc .nil trivial rfl
    h.snoc trivial rfl
  exact ⟨_, rfl, ((settled_and_borrowed_stay h₁ h₂ rfl).2 _ _ _ _ _ _ _ rfl).1 _ rfl⟩

end Backd
