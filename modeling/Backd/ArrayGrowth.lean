import Backd.ArrayCreate
import Backd.ArrayFrame

/-!
# Byte Counts

`array_create` and `array_adjust` compute byte counts from element counts, and guard the
computation with the `SAFE_TO_*` macros. This module follows the counts through what the
code does behind the guards: `array_create` puts `ARRAY_INITIAL_SIZE` in place of a count
of zero, and both round up to the machine word.

The run of `array_adjust` is given as an equation for each decision of `growth`.

## Main results

* `arrayAdjust_fits`, `arrayAdjust_refuse`, `arrayAdjust_realloc`: the runs of
  `array_adjust`, for every answer of the allocator.
* `byteCounts_exact_iff`: the counts behind the guards do not wrap exactly when the
  product, with the default in place, is at least a word below the top of `size_t`; for
  `array_adjust` also when the request is refused before it is rounded.
-/

namespace Backd

open Splice

/-! ### The runs of `array_adjust` -/

/-- The guards of `array_adjust` hold. -/
structure AdjustGuards (a : ArrayT) (n : ℕ) : Prop where
  doubles : safeToMul a.cap 2 = true
  counts : safeToAdd a.nmemb n = true
  bytes : safeToMul (szAdd a.nmemb n) a.eltSize = true

/-- The bytes of the elements of `a` and of `n` more. -/
def ArrayT.need (a : ArrayT) (n : ℕ) : ℕ :=
  (a.nmemb + n) * a.eltSize

/-- The header after a reallocation to `m` bytes was granted by call `k`. -/
def ArrayT.resized (a : ArrayT) (A : Allocator) (k m : ℕ) (bs : Bytes) : ArrayT :=
  { a with
    ptr := .heap k
    block := some (bs.take m ++ A.fresh k bs.length (m - bs.length))
    cap := m }

section Adjust

variable {A : Allocator} {a b : ArrayT} {n m k : ℕ} {t : List Event} {bs : Bytes}
  {s : ArrSt}

theorem growth_fits {cap : ℕ} {settled : Bool} : growth cap settled n = .fits ↔ n < cap := by
  constructor
  · intro h
    by_contra hno
    rw [growth, if_neg hno] at h
    split at h
    · cases h
    · dsimp only at h
      split at h
      · cases h
      · split at h <;> cases h
  · intro h
    rw [growth, if_pos h]

/-- What the guards establish: the byte count needed does not wrap. -/
theorem AdjustGuards.need_le (h : AdjustGuards a n) (hn : n ≤ sizeMax) :
    a.nmemb + n ≤ sizeMax ∧ a.need n ≤ sizeMax ∧ a.cap * 2 ≤ sizeMax := by
  have hsum : a.nmemb + n ≤ sizeMax := (safeToAdd_iff hn).mp h.counts
  have hprod := safeToMul_iff.mp h.bytes
  rw [szAdd_eq hsum] at hprod
  exact ⟨hsum, hprod, safeToMul_iff.mp h.doubles⟩

/-- Numbers that do not wrap pass the guards. -/
theorem AdjustGuards.of_le (hcap : a.cap * 2 ≤ sizeMax) (hn : n ≤ sizeMax)
    (hsum : a.nmemb + n ≤ sizeMax) (hneed : a.need n ≤ sizeMax) : AdjustGuards a n := by
  refine ⟨safeToMul_iff.mpr hcap, (safeToAdd_iff hn).mpr hsum, safeToMul_iff.mpr ?_⟩
  rwa [szAdd_eq hsum]

/-- A buffer resized to `m` bytes holds the elements that fit into them. -/
theorem Holds.resize {l : List Bytes} (h : Holds a l) (hb : a.block = some bs)
    (hm : a.eltSize * l.length ≤ m) (hmax : m ≤ ptrdiffMax) : Holds (a.resized A k m bs) l := by
  obtain ⟨bs', hb', hlen, hlays⟩ := h.exists_block
  obtain rfl : bs = bs' := Option.some.inj (hb.symm.trans hb')
  refine ⟨h.elt_pos, hmax, h.nmemb_eq, _, rfl, ?_, (hlays.cut hm).extend _⟩
  change (bs.take m ++ A.fresh k bs.length (m - bs.length)).length = m
  rw [List.length_append, Allocator.length_fresh, List.length_take]
  omega

/-- A call that returns has passed the guards. -/
theorem AdjustGuards.of_ok {ok : Bool} (h : arrayAdjust n A ⟨some a, k, t⟩ = .ok (ok, s)) :
    AdjustGuards a n := by
  obtain ⟨h₁, hrun⟩ := of_guard_ok (f := fun _ => _) h
  obtain ⟨h₂, hrun⟩ := of_guard_ok hrun
  obtain ⟨h₃, -⟩ := of_guard_ok hrun
  exact ⟨by simpa using h₁, by simpa using h₂, by simpa using h₃⟩

/-- `array_adjust` behind its guards. -/
theorem arrayAdjust_decides (h : AdjustGuards a n) (hn : n ≤ sizeMax) :
    arrayAdjust n A ⟨some a, k, t⟩ =
      (match growth a.cap a.settled (a.need n) with
        | .fits => pure true
        | .refuse => pure false
        | .realloc newSize => do
          match ← memoryRealloc newSize with
          | none => return false
          | some (p, bytes) =>
            store fun self => { self with ptr := p, block := some bytes, cap := newSize }
            return true : ArrM Bool) A ⟨some a, k, t⟩ := by
  obtain ⟨hsum, hneed, -⟩ := h.need_le hn
  have hreq : szMul (szAdd n a.nmemb) a.eltSize = a.need n := by
    rw [szAdd_eq (by omega), Nat.add_comm, ArrayT.need, szMul_eq hneed]
  have hrun : arrayAdjust n A ⟨some a, k, t⟩ =
      (header >>= fun self => notifyBugOn (!safeToMul self.cap 2) >>= fun _ =>
        notifyBugOn (!safeToAdd self.nmemb n) >>= fun _ =>
        notifyBugOn (!safeToMul (szAdd self.nmemb n) self.eltSize) >>= fun _ =>
        match growth self.cap self.settled (szMul (szAdd n self.nmemb) self.eltSize) with
        | .fits => pure true
        | .refuse => pure false
        | .realloc newSize => do
          match ← memoryRealloc newSize with
          | none => return false
          | some (p, bytes) =>
            store fun self => { self with ptr := p, block := some bytes, cap := newSize }
            return true) A ⟨some a, k, t⟩ := rfl
  rw [hrun, bind_ok (rfl : header A ⟨some a, k, t⟩ = .ok (a, _)),
    guard_run (by rw [h.doubles]; rfl), guard_run (by rw [h.counts]; rfl),
    guard_run (by rw [h.bytes]; rfl), hreq]

theorem arrayAdjust_fits (h : AdjustGuards a n) (hn : n ≤ sizeMax) (hfit : a.need n < a.cap) :
    arrayAdjust n A ⟨some a, k, t⟩ = .ok (true, ⟨some a, k, t⟩) := by
  rw [arrayAdjust_decides h hn, growth, if_pos hfit]
  rfl

theorem arrayAdjust_refuse (h : AdjustGuards a n) (hn : n ≤ sizeMax)
    (hg : growth a.cap a.settled (a.need n) = .refuse) :
    arrayAdjust n A ⟨some a, k, t⟩ = .ok (false, ⟨some a, k, t⟩) := by
  rw [arrayAdjust_decides h hn, hg]
  rfl

/-- `realloc` of a live buffer to a size above zero. -/
theorem memoryRealloc_run (hb : a.block = some bs) (hm : 0 < m) :
    memoryRealloc m A ⟨some a, k, t⟩ =
      .ok (if A.serves k m then some (.heap k, bs.take m ++ A.fresh k bs.length (m - bs.length))
        else none, ⟨some a, k + 1, t ++ [.realloc a.ptr m]⟩) := by
  have hne : m ≠ 0 := Nat.ne_of_gt hm
  cases hserve : A.serves k m with
  | true => simp [memoryRealloc, bind_run, header, emit, hb, hne, resize, hserve]
  | false => simp [memoryRealloc, bind_run, header, emit, hb, hne, resize, hserve]

theorem arrayAdjust_realloc (h : AdjustGuards a n) (hn : n ≤ sizeMax) (hb : a.block = some bs)
    (hm : 0 < m) (hg : growth a.cap a.settled (a.need n) = .realloc m) :
    arrayAdjust n A ⟨some a, k, t⟩ =
      if A.serves k m then
        .ok (true, ⟨some (a.resized A k m bs), k + 1, t ++ [.realloc a.ptr m]⟩)
      else .ok (false, ⟨some a, k + 1, t ++ [.realloc a.ptr m]⟩) := by
  rw [arrayAdjust_decides h hn, hg]
  refine (bind_ok (memoryRealloc_run hb hm)).trans ?_
  split <;> rfl

/-- `realloc` to size zero is never granted. -/
theorem memoryRealloc_some {x : Addr × Bytes} {s' : ArrSt}
    (h : memoryRealloc m A s = .ok (some x, s')) : 0 < m := by
  refine Nat.pos_of_ne_zero ?_
  rintro rfl
  obtain ⟨_ | c, k₁, t₁⟩ := s
  · cases h
  cases hb : c.block with
  | none => simp [memoryRealloc, bind_run, header, emit, hb, fault] at h
  | some bs => simp [memoryRealloc, bind_run, header, emit, hb, store] at h

/-- A call that succeeds found room, or has the capacity it asked for. -/
theorem arrayAdjust_true (h : AdjustGuards a n) (hn : n ≤ sizeMax)
    (hrun : arrayAdjust n A ⟨some a, k, t⟩ = .ok (true, s)) (hb : s.arr = some b) :
    a.need n < a.cap ∧ b = a ∨
      growth a.cap a.settled (a.need n) = .realloc b.cap ∧ 0 < b.cap := by
  rw [arrayAdjust_decides h hn] at hrun
  cases hg : growth a.cap a.settled (a.need n) with
  | fits =>
      rw [hg] at hrun
      obtain ⟨-, rfl⟩ : true = true ∧ (⟨some a, k, t⟩ : ArrSt) = s := by simpa using hrun
      exact .inl ⟨growth_fits.mp hg, (Option.some.inj hb).symm⟩
  | refuse =>
      rw [hg] at hrun
      simp at hrun
  | realloc m =>
      rw [hg] at hrun
      obtain ⟨r, s₁, hrealloc, hrun⟩ := of_bind_ok hrun
      cases r with
      | none => simp at hrun
      | some x =>
          obtain ⟨⟨⟩, s₂, hstore, hrun⟩ := of_bind_ok hrun
          obtain ⟨-, rfl⟩ : true = true ∧ s₂ = s := by simpa using hrun
          obtain ⟨_ | c, k₁, t₁⟩ := s₁
          · cases hstore
          · cases hstore
            cases hb
            exact .inr ⟨rfl, memoryRealloc_some hrealloc⟩

end Adjust

/-! ### Rounding -/

/-- Rounding up gives a multiple of the machine word, a word below the top at most. -/
theorem sizeAlign_le (n : ℕ) : sizeAlign n + (ptrSize - 1) ≤ sizeMax := by
  simp only [sizeAlign, szAdd, szSub, ptrSize, sizeMax]
  omega

/-- Rounding up covers the size exactly when the size is at least a word below the top. -/
theorem le_sizeAlign_iff {n : ℕ} (h : n ≤ sizeMax) :
    n ≤ sizeAlign n ↔ n + (ptrSize - 1) ≤ sizeMax := by
  simp only [sizeAlign, szAdd, szSub, ptrSize, sizeMax] at *
  omega

/-- The decision of `array_adjust` for an unsettled array of at least half the initial size,
where doubling the capacity is enough. -/
theorem growth_doubles {cap n : ℕ} (hcap : cap * 2 ≤ sizeMax) (hmin : arrayInitialSize ≤ cap * 2)
    (hfull : cap ≤ n) (hn : n ≤ cap * 2) :
    growth cap false n = if intMax < cap * 2 then .refuse else .realloc (cap * 2) := by
  have hmul : szMul cap 2 = cap * 2 := szMul_eq hcap
  have hfit : ¬ n < cap := Nat.not_lt.mpr hfull
  have hinit : ¬ cap * 2 < arrayInitialSize := Nat.not_lt.mpr hmin
  have hnew : newSize n (cap * 2) = cap * 2 := if_neg (Nat.not_lt.mpr hn)
  simp [growth, hfit, hmul, hinit, hnew]

/-- What a reallocation says about the array. -/
theorem growth_realloc {cap n m : ℕ} {settled : Bool} (hcap : cap * 2 ≤ sizeMax)
    (hn : n ≤ sizeMax) (hg : growth cap settled n = .realloc m) :
    settled = false ∧ cap * 2 ≤ intMax ∧ (0 < m → n ≤ m) := by
  rcases growth_cases settled hcap hn with ⟨hg', -⟩ | hg' | ⟨m', hg', hset, hsmall, hm⟩
  · rw [hg'] at hg
    cases hg
  · rw [hg'] at hg
    cases hg
  · rw [hg'] at hg
    cases hg
    exact ⟨hset, hsmall, by omega⟩

theorem le_newSize {n : ℕ} (c : ℕ) (h : n ≤ sizeAlign n) : n ≤ newSize n c := by
  unfold newSize
  split
  · exact h
  · omega

/-- A reallocation covers a byte count that can be rounded up. -/
theorem growth_covers {cap n m : ℕ} {settled : Bool} (h : n ≤ sizeAlign n)
    (hg : growth cap settled n = .realloc m) : n ≤ m := by
  unfold growth at hg
  dsimp only at hg
  split at hg
  · cases hg
  split at hg
  · cases hg
  split at hg
  · cases hg
    exact le_newSize _ h
  split at hg
  · cases hg
  · cases hg
    exact le_newSize _ h

/-- The decision of `array_adjust` where the byte count cannot be rounded up: the request is
refused, or `realloc` is asked for no bytes. -/
theorem growth_wraps {cap n : ℕ} (settled : Bool) (hcap : cap * 2 ≤ sizeMax) (hn : n ≤ sizeMax)
    (htop : sizeMax < n + (ptrSize - 1)) :
    growth cap settled n = if settled = true ∨ intMax < cap * 2 then .refuse else .realloc 0 := by
  have hmul : szMul cap 2 = cap * 2 := szMul_eq hcap
  have hzero : sizeAlign n = 0 := by
    have hcases := sizeAlign_cases hn
    have hle := sizeAlign_le n
    simp only [ptrSize] at *
    omega
  have hfit : ¬ n < cap := by
    simp only [ptrSize, sizeMax] at *
    omega
  have hnew : ∀ c, c ≤ intMax → newSize n c = 0 := by
    intro c hc
    rw [newSize, if_pos, hzero]
    simp only [ptrSize, sizeMax, intMax] at *
    omega
  by_cases hset : settled = true
  · simp [growth, hfit, hset]
  by_cases hmax : intMax < cap * 2
  · have hinit : ¬ cap * 2 < arrayInitialSize := by
      simp only [arrayInitialSize, intMax] at *
      omega
    simp [growth, hfit, hset, hmul, hinit, hmax]
  by_cases hinit : cap * 2 < arrayInitialSize
  · simp [growth, hfit, hset, hmul, hinit, hmax, hnew arrayInitialSize (by decide)]
  · simp [growth, hfit, hset, hmul, hinit, hmax, hnew (cap * 2) (by omega)]

/-! ### The two computations -/

/-- A call that computes a byte count. -/
inductive Sizing
  | create (eltSize n : ℕ)
  | adjust (a : ArrayT) (n : ℕ)

namespace Sizing

/-- The number of elements a created array has room for. -/
def countFor (n : ℕ) : ℕ :=
  if n = 0 then arrayInitialSize else n

/-- The arguments are `size_t` values that pass the guards of the function. -/
def Guarded : Sizing → Prop
  | create eltSize n => 0 < eltSize ∧ eltSize ≤ sizeMax ∧ n ≤ sizeMax ∧ safeToMul eltSize n = true
  | adjust a n => n ≤ sizeMax ∧ AdjustGuards a n

/-- The bytes the elements need. -/
def needed : Sizing → ℕ
  | create eltSize n => eltSize * countFor n
  | adjust a n => a.need n

/-- The byte count the allocator is asked for covers what is needed. -/
def Asks : Sizing → Prop
  | create eltSize n => (create eltSize n).needed ≤ initCap eltSize n
  | adjust a n => ∀ m, growth a.cap a.settled (a.need n) = .realloc m → a.need n ≤ m

/-- Where the call succeeds, the capacity recorded covers what is needed. -/
def Records : Sizing → Prop
  | create eltSize n => ∀ (A : Allocator) (k : ℕ) (t : List Event) (free : Bool) (r : Handle)
      (s : ArrSt) (b : ArrayT), arrayCreate eltSize n free A ⟨none, k, t⟩ = .ok (r, s) →
        s.arr = some b → (create eltSize n).needed ≤ b.cap
  | adjust a n => ∀ (A : Allocator) (k : ℕ) (t : List Event) (s : ArrSt) (b : ArrayT),
      arrayAdjust n A ⟨some a, k, t⟩ = .ok (true, s) → s.arr = some b → a.need n ≤ b.cap

/-- No byte count wraps. -/
def Exact (c : Sizing) : Prop :=
  c.Asks ∧ c.Records

/-- The bytes needed can be rounded up to the machine word; or `array_adjust` refuses the
request before it rounds. -/
def Roundable : Sizing → Prop
  | create eltSize n => (create eltSize n).needed + (ptrSize - 1) ≤ sizeMax
  | adjust a n => a.need n + (ptrSize - 1) ≤ sizeMax ∨ a.settled = true ∨ intMax < a.cap * 2

end Sizing

/-- The byte count of `array_create` covers the elements exactly when it can be rounded. -/
theorem le_initCap_iff {eltSize n : ℕ} :
    (Sizing.create eltSize n).needed ≤ initCap eltSize n ↔
      (Sizing.create eltSize n).needed + (ptrSize - 1) ≤ sizeMax := by
  simp only [Sizing.needed, initCap]
  change eltSize * Sizing.countFor n ≤ sizeAlign (szMul eltSize (Sizing.countFor n)) ↔ _
  by_cases htop : eltSize * Sizing.countFor n ≤ sizeMax
  · rw [szMul_eq htop, le_sizeAlign_iff htop]
  · have hle := sizeAlign_le (szMul eltSize (Sizing.countFor n))
    omega

/-- A created array has the capacity computed. -/
theorem cap_of_create {A : Allocator} {eltSize n k : ℕ} {free : Bool} {t : List Event}
    {r : Handle} {s : ArrSt} {b : ArrayT}
    (h : arrayCreate eltSize n free A ⟨none, k, t⟩ = .ok (r, s)) (hb : s.arr = some b) :
    b.cap = initCap eltSize n := by
  obtain ⟨-, hrun⟩ := arrayCreate_run (by rw [h]; simp)
  rw [h] at hrun
  split at hrun
  · cases hrun
    cases hb
  split at hrun
  · cases hrun
    cases hb
  · cases hrun
    cases hb
    rfl

/-- What `array_adjust` records where it succeeds always covers what is needed: a byte count
that wraps is refused by `realloc`. -/
theorem adjust_records {a : ArrayT} {n : ℕ} (h : (Sizing.adjust a n).Guarded) :
    (Sizing.adjust a n).Records := by
  obtain ⟨hn, hguards⟩ := h
  obtain ⟨-, hneed, hcap⟩ := hguards.need_le hn
  intro A k t s b hrun hb
  rcases arrayAdjust_true hguards hn hrun hb with ⟨hfit, rfl⟩ | ⟨hg, hpos⟩
  · exact Nat.le_of_lt hfit
  exact (growth_realloc hcap hneed hg).2.2 hpos

/-- **Where byte counts do not wrap.** For arguments that pass the guards, the count the
allocator is asked for and the capacity recorded on success cover the elements exactly
when the bytes needed, with `ARRAY_INITIAL_SIZE` in place of a count of zero, can be rounded
up to the machine word; `array_adjust` may also refuse first. -/
theorem byteCounts_exact_iff {c : Sizing} (h : c.Guarded) : c.Exact ↔ c.Roundable := by
  cases c with
  | create eltSize n =>
      refine ⟨fun hexact => le_initCap_iff.mp hexact.1, fun hround => ?_⟩
      have hle := le_initCap_iff.mpr hround
      exact ⟨hle, fun A k t free r s b hrun hb => cap_of_create hrun hb ▸ hle⟩
  | adjust a n =>
      obtain ⟨hn, hguards⟩ := h
      obtain ⟨-, hneed, hcap⟩ := hguards.need_le hn
      constructor
      · rintro ⟨hasks, -⟩
        by_contra hno
        simp only [Sizing.Roundable, not_or, not_le, not_lt] at hno
        obtain ⟨htop, hset, hmax⟩ := hno
        have hg := growth_wraps a.settled hcap hneed htop
        rw [if_neg (by rintro (hs | hlt); exacts [hset hs, by omega])] at hg
        have hzero := hasks 0 hg
        simp only [ptrSize, sizeMax] at *
        omega
      · intro hround
        refine ⟨fun m hg => ?_, adjust_records ⟨hn, hguards⟩⟩
        rcases hround with htop | hrefused
        · exact growth_covers ((le_sizeAlign_iff hneed).mpr htop) hg
        · obtain ⟨hset, hsmall, -⟩ := growth_realloc hcap hneed hg
          rcases hrefused with hset' | hlarge
          · rw [hset] at hset'
            cases hset'
          · omega

/-- `array_create(8, 0, f)`: the default count of elements fits. -/
theorem create_default_exact : (Sizing.create 8 0).Exact :=
  (byteCounts_exact_iff (c := .create 8 0) ⟨by decide, by decide, by decide, by decide⟩).mpr
    (show (Sizing.create 8 0).needed + (ptrSize - 1) ≤ sizeMax by decide)

/-- `array_create(2^58 + 1, 0, f)` passes the guards and succeeds with a capacity of 64 bytes,
less than one element. -/
theorem create_wraps :
    (Sizing.create (2 ^ 58 + 1) 0).Guarded ∧
      arrayCreate (2 ^ 58 + 1) 0 false (.upTo 2) ⟨none, 0, []⟩ =
        .ok (.header, ⟨some (createdArray (.upTo 2) 0 (2 ^ 58 + 1) 0 false), 2, []⟩) ∧
      (createdArray (.upTo 2) 0 (2 ^ 58 + 1) 0 false).cap = 64 ∧
      ¬ ∀ c : Sizing, c.Guarded → c.Exact := by
  have hguarded : (Sizing.create (2 ^ 58 + 1) 0).Guarded :=
    ⟨by decide, by decide, by decide, by decide⟩
  refine ⟨hguarded, rfl, rfl, fun h => ?_⟩
  have hcap := (h _ hguarded).2 (.upTo 2) 0 [] false .header _ _ rfl rfl
  exact absurd hcap (by decide)

end Backd
