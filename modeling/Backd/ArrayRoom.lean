import Backd.ArrayBounds
import Backd.ArrayGrowth

/-!
# Two Accounts of Free Room

A settled array keeps its buffer, so an operation that adds elements succeeds only where
there is room. `array.c` has two accounts of it: `array_uninitialized_size`, on which
`array_append_from_capacity` rests, divides the free bytes by the element size; the
growing operations ask `array_adjust`, which compares bytes.

The comparison is strict, `n < _capacity(self)`, so a request that fills the buffer exactly
is refused; and `array_concat` asks for the sum of both sizes, to which `array_adjust` adds
its own size once more.

## Main results

* `Insertion.succeeds_iff`: a growing call on a settled array succeeds exactly when the bytes
  it asks for stay below the capacity.
* `room_agrees_iff`: the two accounts agree exactly when there is no room, or the bytes asked
  for stay below the capacity.
-/

namespace Backd

open Splice

/-- There is room for `n` more elements. -/
def ArrayT.Fits (a : ArrayT) (n : ℕ) : Prop :=
  a.eltSize * (a.nmemb + n) ≤ a.cap

/-! ### Calls that only succeed -/

/-- The computation trips no guard, and returns nothing but `true`. -/
def Certain (f : ArrM Bool) : Prop :=
  ∀ A s, f A s ≠ .error .bug ∧ ∀ x s', f A s = .ok (x, s') → x = true

theorem certain_true : Certain (pure true) := by
  intro A s
  refine ⟨by simp, fun x s' h => ?_⟩
  simp only [pure_run, Except.ok.injEq, Prod.mk.injEq] at h
  exact h.1.symm

theorem Unguarded.certain {α : Type} {m : ArrM α} {f : α → ArrM Bool} (hm : Unguarded m)
    (hf : ∀ x, Certain (f x)) : Certain (m >>= f) := by
  intro A s
  constructor
  · exact hm.bind (fun x A s => (hf x A s).1) A s
  · intro x s' h
    obtain ⟨y, s₁, -, h⟩ := of_bind_ok h
    exact (hf y A s₁).2 x s' h

theorem unguarded_readSource (src : Option Bytes) (len : ℕ) :
    Unguarded (readSource src len) := by
  unfold readSource
  split
  · split
    · exact .pure _
    · exact unguarded_fault
  · split
    · exact .pure _
    · exact unguarded_fault

/-! ### The growing calls -/

/-- A call that adds elements. -/
inductive Insertion
  | push (e : Bytes)
  | pushf (e : Bytes)
  | insert (p : ℕ) (e : Bytes)
  | inject (p : ℕ) (src : Bytes) (n : ℕ)
  | append (src : Bytes) (n : ℕ)
  | concat (other : Operand)

/-- The size of the second array of `array_concat`. -/
def Operand.size (a : ArrayT) : Operand → ℕ
  | .self => a.nmemb
  | .other b => b.nmemb

namespace Insertion

/-- The function called. -/
def run : Insertion → ArrM Bool
  | push e => arrayPush (some e)
  | pushf e => arrayPushf (some e)
  | insert p e => arrayInsert p (some e)
  | inject p src n => arrayInject p (some src) n
  | append src n => arrayAppend (some src) n
  | concat other => arrayConcat other

/-- The number of elements the call adds to `a`. -/
def count (a : ArrayT) : Insertion → ℕ
  | push _ | pushf _ | insert _ _ => 1
  | inject _ _ n | append _ n => n
  | concat other => other.size a

/-- The number of elements `array_adjust` is asked to make room for. -/
def requested (a : ArrayT) : Insertion → ℕ
  | concat other => a.nmemb + other.size a
  | c => c.count a

/-- The caller's side: positions are within the size, counts are `size_t` values, the second
array is live and has elements of the same size, and where the elements fit the source
holds them. -/
def Admitted (a : ArrayT) : Insertion → Prop
  | push e | pushf e => a.Fits 1 → Supplies a.eltSize 1 e
  | insert p e => p ≤ a.nmemb ∧ (a.Fits 1 → Supplies a.eltSize 1 e)
  | inject p src n => p ≤ a.nmemb ∧ n ≤ sizeMax ∧ (a.Fits n → Supplies a.eltSize n src)
  | append src n => n ≤ sizeMax ∧ (a.Fits n → Supplies a.eltSize n src)
  | concat .self => True
  | concat (.other b) => Holds b b.elements ∧ a.eltSize = b.eltSize

/-- The call succeeds. -/
def Succeeds (A : Allocator) (a : ArrayT) (k : ℕ) (t : List Event) (c : Insertion) : Prop :=
  ∃ s, c.run A ⟨some a, k, t⟩ = .ok (true, s)

end Insertion

section Room

variable {A : Allocator} {a : ArrayT} {l : List Bytes} {k : ℕ} {t : List Event}
  {c : Insertion}

/-- The rest of an operation behind `array_adjust`: a move that makes room, the copy, and the
new size. -/
theorem certain_fill {p : Prop} [Decidable p] {move : ArrM Unit} {src : Option Bytes}
    {len off : ℕ} {g : ArrayT → ArrayT} (hmove : Unguarded move) :
    Certain (runIf p move >>= fun _ => readSource src len >>= fun bytes =>
      writeBlock off bytes >>= fun _ => store g >>= fun _ => pure true) := by
  refine hmove.runIf.certain fun _ => ?_
  refine (unguarded_readSource _ _).certain fun bytes => ?_
  refine (unguarded_writeBlock _ _).certain fun _ => ?_
  exact (unguarded_store _).certain fun _ => certain_true

theorem arrayInsert_cases {p : ℕ} (hp : p ≤ a.nmemb) (e : Bytes) :
    ∃ f, Certain f ∧ arrayInsert p (some e) A ⟨some a, k, t⟩ =
      (arrayAdjust 1 >>= fun ok => if (!ok) = true then pure false else f) A ⟨some a, k, t⟩ := by
  refine ⟨_, ?_, guard_run (by simpa using hp)⟩
  refine unguarded_header.certain fun self => certain_fill ?_
  exact (unguarded_diff _ _).bind fun len => unguarded_moveBlock _ _ _

/-- `array_inject` behind `array_adjust`. -/
def injectRest (p : ℕ) (src : Bytes) (n : ℕ) : ArrM Bool :=
  if n = 0 then return true
  else do
    let self ← header
    runIf (self.nmemb ≠ 0 ∧ p ≠ self.nmemb) do
      let rest ← diff self.nmemb p
      moveBlock (self.relativeData (szAdd p n)) (self.relativeData p)
        (szMul self.eltSize rest)
    let bytes ← readSource (some src) (szMul self.eltSize n)
    writeBlock (self.relativeData p) bytes
    store fun self => { self with nmemb := szAdd self.nmemb n }
    return true

theorem certain_injectRest (p : ℕ) (src : Bytes) (n : ℕ) : Certain (injectRest p src n) := by
  unfold injectRest
  split
  · exact certain_true
  · refine unguarded_header.certain fun self => certain_fill ?_
    exact (unguarded_diff _ _).bind fun rest => unguarded_moveBlock _ _ _

/-- The element size of the second array of `array_concat`. -/
def Operand.eltSize (a : ArrayT) : Operand → ℕ
  | .self => a.eltSize
  | .other b => b.eltSize

theorem unguarded_operand (other : Operand) : Unguarded other.header := by
  cases other with
  | self => exact unguarded_header
  | other b => exact .pure b

theorem arrayConcat_cases (other : Operand) (helt : a.eltSize = other.eltSize a) :
    ∃ f, Certain f ∧ arrayConcat other A ⟨some a, k, t⟩ =
      (arrayAdjust (szAdd a.nmemb (other.size a)) >>= fun ok =>
        if (!ok) = true then pure false else f) A ⟨some a, k, t⟩ := by
  have hcertain : Certain (header >>= fun self => other.header >>= fun b =>
      readOf b 0 b.sizeof >>= fun bytes => writeBlock (self.relativeData self.nmemb) bytes >>=
        fun _ => other.header >>= fun b =>
          store (fun self => { self with nmemb := szAdd self.nmemb b.nmemb }) >>= fun _ =>
            pure true) := by
    refine unguarded_header.certain fun self => ?_
    refine (unguarded_operand other).certain fun b => ?_
    refine (unguarded_readOf _ _ _).certain fun bytes => ?_
    refine (unguarded_writeBlock _ _).certain fun _ => ?_
    refine (unguarded_operand other).certain fun b => ?_
    exact (unguarded_store _).certain fun _ => certain_true
  refine ⟨_, hcertain, ?_⟩
  cases other with
  | self => exact guard_run (by simp)
  | other b => exact guard_run (by simpa [Operand.eltSize] using helt)

/-- The sum of the two sizes of `array_concat` does not wrap. -/
theorem Operand.size_le (h : Holds a l) {other : Operand}
    (hs : (Insertion.concat other).Admitted a) :
    a.nmemb + other.size a ≤ sizeMax := by
  have hlen := h.nmemb_eq.trans_le (le_trans h.length_le h.cap_le)
  have hother : other.size a ≤ ptrdiffMax := by
    cases other with
    | self => exact hlen
    | other b => exact hs.1.nmemb_eq.trans_le (le_trans hs.1.length_le hs.1.cap_le)
  simp only [ptrdiffMax, sizeMax] at *
  omega

/-- The common shape of the growing operations: unless one of their own guards fires, which
it does only where there is no room, they ask `array_adjust` and go on when it succeeds. -/
theorem Insertion.run_cases (h : Holds a l) (hs : c.Admitted a) :
    (c.run A ⟨some a, k, t⟩ = .error .bug ∧ ¬ a.Fits (c.requested a)) ∨
      ∃ f, Certain f ∧ c.run A ⟨some a, k, t⟩ =
        (arrayAdjust (c.requested a) >>= fun ok =>
          if (!ok) = true then pure false else f) A ⟨some a, k, t⟩ := by
  cases c with
  | push e =>
      refine .inr ⟨_, ?_, guard_run rfl⟩
      refine unguarded_header.certain fun self => ?_
      refine (unguarded_readSource _ _).certain fun bytes => ?_
      refine (unguarded_writeBlock _ _).certain fun _ => ?_
      exact (unguarded_store _).certain fun _ => certain_true
  | pushf e => exact .inr (arrayInsert_cases (Nat.zero_le _) e)
  | insert p e => exact .inr (arrayInsert_cases hs.1 e)
  | inject p src n =>
      obtain ⟨hp, hn, -⟩ := hs
      have hbehind : decide (a.nmemb < p) = false := by simpa using hp
      have hrun : arrayInject p (some src) n A ⟨some a, k, t⟩ =
          (notifyBugOn (!safeToAdd p n) >>= fun _ => arrayAdjust n >>= fun ok =>
            if (!ok) = true then pure false else injectRest p src n) A ⟨some a, k, t⟩ :=
        guard_run (f := fun _ => notifyBugOn (!safeToAdd p n) >>= fun _ => _) hbehind
      by_cases hsafe : safeToAdd p n = true
      · refine .inr ⟨injectRest p src n, certain_injectRest p src n, hrun.trans (guard_run ?_)⟩
        rw [hsafe]
        rfl
      · refine .inl ⟨?_, fun hfits => hsafe ((safeToAdd_iff hn).mpr ?_)⟩
        · rw [Insertion.run, hrun, Bool.eq_false_of_not_eq_true hsafe]
          rfl
        · have hle : a.nmemb + n ≤ a.eltSize * (a.nmemb + n) :=
            Nat.le_mul_of_pos_left _ h.elt_pos
          have hcap := h.cap_le_sizeMax
          have hfits : a.eltSize * (a.nmemb + n) ≤ a.cap := hfits
          omega
  | append src n =>
      refine .inr ⟨_, ?_, guard_run rfl⟩
      refine unguarded_header.certain fun self => ?_
      refine (unguarded_readSource _ _).certain fun bytes => ?_
      refine (unguarded_writeBlock _ _).certain fun _ => ?_
      exact (unguarded_store _).certain fun _ => certain_true
  | concat other =>
      have hsum : szAdd a.nmemb (other.size a) = a.nmemb + other.size a :=
        szAdd_eq (Operand.size_le h hs)
      obtain ⟨f, hf, hrun⟩ := arrayConcat_cases (A := A) (k := k) (t := t) (a := a) other (by
        cases other with
        | self => rfl
        | other b => exact hs.2)
      rw [hsum] at hrun
      exact .inr ⟨f, hf, hrun⟩

/-- `array_adjust` on a settled array succeeds exactly where the bytes needed stay below the
capacity. -/
theorem adjust_settled {n : ℕ} (h : Holds a l) (hset : a.settled = true) (hn : n ≤ sizeMax) :
    (∃ s, arrayAdjust n A ⟨some a, k, t⟩ = .ok (true, s)) ↔
      a.eltSize * (a.nmemb + n) < a.cap := by
  have hcap := h.cap_le_sizeMax
  rw [Nat.mul_comm]
  constructor
  · rintro ⟨s, hrun⟩
    have hguards : AdjustGuards a n := AdjustGuards.of_ok hrun
    obtain ⟨-, hneed, hdouble⟩ := hguards.need_le hn
    have hdecide := arrayAdjust_decides (A := A) (k := k) (t := t) hguards hn
    rw [hrun] at hdecide
    cases hg : growth a.cap a.settled (a.need n) with
    | fits => exact growth_fits.mp hg
    | refuse =>
        rw [hg] at hdecide
        cases hdecide
    | realloc m =>
        have hunsettled := (growth_realloc hdouble hneed hg).1
        rw [hset] at hunsettled
        cases hunsettled
  · intro hfit
    have hsum : a.nmemb + n ≤ (a.nmemb + n) * a.eltSize := Nat.le_mul_of_pos_right _ h.elt_pos
    have hguards : AdjustGuards a n :=
      .of_le (by omega) hn (by omega) (by rw [ArrayT.need]; omega)
    exact ⟨_, arrayAdjust_fits hguards hn hfit⟩

/-- The sources of an admitted call hold what is read, where the elements fit: the call
touches no memory that is not there. -/
theorem Insertion.run_returns (h : Holds a l) (hs : c.Admitted a) (hfits : a.Fits (c.count a)) :
    Returns A a c.run fun _ _ _ => True := by
  cases c with
  | push e => exact (arrayPush_returns h (hs hfits)).mono fun _ _ _ _ => trivial
  | pushf e => exact (arrayPushf_returns h (hs hfits)).mono fun _ _ _ _ => trivial
  | insert p e => exact (arrayInsert_returns h (hs.2 hfits)).mono fun _ _ _ _ => trivial
  | inject p src n => exact (arrayInject_returns h (hs.2.2 hfits)).mono fun _ _ _ _ => trivial
  | append src n => exact (arrayAppend_returns h (hs.2 hfits)).mono fun _ _ _ _ => trivial
  | concat other =>
      refine (arrayConcat_returns h ?_).mono fun _ _ _ _ => trivial
      cases other with
      | self => trivial
      | other b => exact hs.1

theorem Insertion.count_le_requested : c.count a ≤ c.requested a := by
  cases c with
  | concat other => exact Nat.le_add_left _ _
  | push | pushf | insert | inject | append => exact le_refl _

/-- The elements fit where the bytes asked for do. -/
theorem Insertion.fits_of_requested (h : a.eltSize * (a.nmemb + c.requested a) < a.cap) :
    a.Fits (c.count a) :=
  le_trans (Nat.mul_le_mul_left _ (Nat.add_le_add_left Insertion.count_le_requested _))
    (Nat.le_of_lt h)

/-- What is asked for is a `size_t` value. -/
theorem Insertion.requested_le (h : Holds a l) (hs : c.Admitted a) : c.requested a ≤ sizeMax := by
  cases c with
  | push | pushf | insert => exact (by decide : 1 ≤ sizeMax)
  | inject p src n => exact hs.2.1
  | append src n => exact hs.1
  | concat other => exact Operand.size_le h hs

/-- **When a growing call on a settled array succeeds**: the bytes it asks for stay below the
capacity. -/
theorem Insertion.succeeds_iff (h : Holds a l) (hset : a.settled = true) (hs : c.Admitted a) :
    c.Succeeds A a k t ↔ a.eltSize * (a.nmemb + c.requested a) < a.cap := by
  have hadjust := adjust_settled (A := A) (k := k) (t := t) h hset (Insertion.requested_le h hs)
  constructor
  · rintro ⟨s, hrun⟩
    refine hadjust.mp ?_
    rcases Insertion.run_cases (A := A) (k := k) (t := t) h hs with ⟨hbug, -⟩ | ⟨f, -, heq⟩
    · rw [hbug] at hrun
      cases hrun
    · rw [heq] at hrun
      obtain ⟨ok, s₁, hok, hrun⟩ := of_bind_ok hrun
      cases ok with
      | true => exact ⟨s₁, hok⟩
      | false => cases hrun
  · intro hfit
    have hreturns := Insertion.run_returns (A := A) h hs (Insertion.fits_of_requested hfit) k t
    rcases Insertion.run_cases (A := A) (k := k) (t := t) h hs with
      ⟨-, hno⟩ | ⟨f, hcertain, heq⟩
    · exact absurd (Nat.le_of_lt hfit) hno
    obtain ⟨s₁, hok⟩ := hadjust.mpr hfit
    rw [heq, bind_ok hok] at hreturns
    rcases hreturns with hbug | ⟨ok, b, k', ev, hrun, -⟩
    · exact absurd hbug (hcertain A s₁).1
    · obtain rfl : ok = true := (hcertain A s₁).2 ok _ hrun
      exact ⟨_, by rw [heq, bind_ok hok]; exact hrun⟩

/-- The two accounts agree on a call: it succeeds exactly when `array_uninitialized_size`
counts enough room, and exactly when `array_append_from_capacity` takes as many elements. -/
def Insertion.RoomAgrees (A : Allocator) (a : ArrayT) (k : ℕ) (t : List Event)
    (c : Insertion) : Prop :=
  (c.Succeeds A a k t ↔
    ∃ room s, arrayUninitializedSize A ⟨some a, k, t⟩ = .ok (room, s) ∧ c.count a ≤ room) ∧
  (c.Succeeds A a k t ↔
    ∃ s, arrayAppendFromCapacity (c.count a) A ⟨some a, k, t⟩ = .ok (true, s))

/-- **Where the two accounts agree.** On a settled array whose elements fit into its buffer, a
growing call agrees with `array_uninitialized_size` and `array_append_from_capacity` exactly
when the elements do not fit, or the bytes it asks `array_adjust` for stay below the
capacity. -/
theorem room_agrees_iff (helt : 0 < a.eltSize) (hcap : a.cap ≤ ptrdiffMax)
    (hblock : HasBlock a.cap a) (hfit : a.nmemb * a.eltSize ≤ a.cap) (hset : a.settled = true)
    (hs : c.Admitted a) :
    c.RoomAgrees A a k t ↔
      ¬ a.Fits (c.count a) ∨ a.eltSize * (a.nmemb + c.requested a) < a.cap := by
  obtain ⟨bs, hb, hlen⟩ := hblock
  have h : Holds a a.elements := holds_elements helt hcap hb hlen hfit
  have hsize : (∃ room s, arrayUninitializedSize A ⟨some a, k, t⟩ = .ok (room, s) ∧
      c.count a ≤ room) ↔ a.Fits (c.count a) := by
    simp [arrayUninitializedSize_run h, le_room_iff h, ArrayT.Fits, h.nmemb_eq]
  have hcapacity : (∃ s, arrayAppendFromCapacity (c.count a) A ⟨some a, k, t⟩ = .ok (true, s)) ↔
      a.Fits (c.count a) := by
    simp only [arrayAppendFromCapacity_run h, ArrayT.Fits, h.nmemb_eq]
    constructor
    · rintro ⟨s, hrun⟩
      by_contra hno
      rw [if_neg hno] at hrun
      cases hrun
    · intro hfits
      exact ⟨_, if_pos hfits⟩
  have hless : a.eltSize * (a.nmemb + c.requested a) < a.cap → a.Fits (c.count a) :=
    Insertion.fits_of_requested
  rw [Insertion.RoomAgrees, hsize, hcapacity, Insertion.succeeds_iff h hset hs]
  tauto

end Room

/-- A settled array of three pairs of bytes, in a block of `cap` bytes. -/
def settledPairs (cap : ℕ) : ArrayT :=
  { ptr := .heap 0, block := some (List.replicate cap 0), nmemb := 3, cap := cap,
    eltSize := 2, isOwnBuffer := true, settled := true, free := false }

/-- With room for two pairs, both accounts let one be pushed. -/
theorem push_room_agrees : (Insertion.push [1, 2]).RoomAgrees (.upTo 0) (settledPairs 10) 0 [] :=
  have hs : (Insertion.push [1, 2]).Admitted (settledPairs 10) :=
    fun _ => ⟨by decide, by decide⟩
  (room_agrees_iff (a := settledPairs 10) (by decide) (by decide) ⟨_, rfl, rfl⟩ (by decide) rfl
    hs).mpr (.inr (by decide))

/-- With room for one pair exactly, `array_uninitialized_size` counts one and
`array_push` fails. -/
theorem push_refused_at_fit :
    arrayUninitializedSize (.upTo 0) ⟨some (settledPairs 8), 0, []⟩ =
        .ok (1, ⟨some (settledPairs 8), 0, [.diff 8 6]⟩) ∧
      arrayPush (some [1, 2]) (.upTo 0) ⟨some (settledPairs 8), 0, []⟩ =
        .ok (false, ⟨some (settledPairs 8), 0, []⟩) ∧
      ¬ (Insertion.push [1, 2]).RoomAgrees (.upTo 0) (settledPairs 8) 0 [] := by
  refine ⟨rfl, rfl, ?_⟩
  rintro ⟨hagrees, -⟩
  obtain ⟨s, hs⟩ := hagrees.mpr ⟨1, _, rfl, le_refl 1⟩
  have hfails : arrayPush (some [1, 2]) (.upTo 0) ⟨some (settledPairs 8), 0, []⟩ =
      .ok (false, ⟨some (settledPairs 8), 0, []⟩) := rfl
  have hs : arrayPush (some [1, 2]) (.upTo 0) ⟨some (settledPairs 8), 0, []⟩ = .ok (true, s) := hs
  rw [hfails] at hs
  cases hs

end Backd
