import Backd.ArrayRuns
import Backd.ArrayBounds
import Backd.ArrayGrowth

/-!
# Shrinking

`array_slimcheck` gives unused memory back: when less than half of the capacity is in use, the
buffer is reallocated to the bytes of the elements. For an empty array these are none, and
`realloc` to size zero releases the buffer and returns `NULL`. The code takes that for a
refused request and reports failure, with `_ptr` still set.

## Main results

* `slimcheck_settled`, `slimcheck_enough`, `slimcheck_empty`, `slimcheck_shrinks`: the runs of
  `array_slimcheck`.
* `slimcheck_keeps_iff`: `array_slimcheck` keeps the array intact, for every later run, exactly
  when it is settled, or not empty, or has a capacity of less than two bytes.
-/

namespace Backd

open Splice Runs

section Runs

variable {A : Allocator} {a : ArrayT} {l : List Bytes} {bs : Bytes} {k : ℕ} {t : List Event}

theorem slimcheck_settled (hset : a.settled = true) :
    arraySlimcheck A ⟨some a, k, t⟩ = .ok (false, ⟨some a, k, t⟩) := by
  simp [arraySlimcheck, bind_run, header, hset]

/-- At least half of the capacity is in use. -/
theorem slimcheck_enough (hset : a.settled = false) (hused : a.cap / 2 ≤ a.sizeof) :
    arraySlimcheck A ⟨some a, k, t⟩ = .ok (true, ⟨some a, k, t⟩) := by
  have hless : ¬ a.sizeof < a.cap / 2 := Nat.not_lt.mpr hused
  by_cases hcap : a.cap = 0
  · simp [arraySlimcheck, bind_run, header, hset, hcap]
  · simp [arraySlimcheck, bind_run, header, hset, hcap, hless]

/-- An empty array: `realloc` releases the buffer. -/
theorem slimcheck_empty (hb : a.block = some bs) (hset : a.settled = false) (hzero : a.sizeof = 0)
    (hcap : 2 ≤ a.cap) :
    arraySlimcheck A ⟨some a, k, t⟩ =
      .ok (false, ⟨some { a with block := none }, k, t ++ [.realloc a.ptr 0]⟩) := by
  have hne : a.cap ≠ 0 := by omega
  simp [arraySlimcheck, bind_run, header, hset, hne, hzero, hcap, memoryRealloc, emit, hb, store]

/-- Less than half of the capacity is in use, and there is an element. -/
theorem slimcheck_shrinks (hb : a.block = some bs) (hset : a.settled = false)
    (hpos : 0 < a.sizeof) (hused : a.sizeof < a.cap / 2) :
    arraySlimcheck A ⟨some a, k, t⟩ =
      if A.serves k a.sizeof then
        .ok (true, ⟨some (a.resized A k a.sizeof bs), k + 1,
          t ++ [.realloc a.ptr a.sizeof]⟩)
      else .ok (false, ⟨some a, k + 1, t ++ [.realloc a.ptr a.sizeof]⟩) := by
  have hcap : a.cap ≠ 0 := by omega
  cases hserve : A.serves k a.sizeof with
  | true =>
      simp [arraySlimcheck, bind_run, header, hset, hcap, hused, memoryRealloc_run hb hpos, hserve,
        store, ArrayT.resized]
  | false =>
      simp [arraySlimcheck, bind_run, header, hset, hcap, hused, memoryRealloc_run hb hpos, hserve]

end Runs

/-! ### What a caller relies on -/

/-- After the call: the array holds the elements `l`, with the size it had. On success its
bytes fit into a capacity that has not grown; on failure nothing has changed. In every later
run the elements are those that the calls that succeed make of `l`, and every call that may
be sent returns. -/
structure SlimKeeps (A : Allocator) (a : ArrayT) (l : List Bytes) (ok : Bool) (s : ArrSt) :
    Prop where
  live : ∃ b, s.arr = some b ∧ Holds b l ∧ b.nmemb = a.nmemb ∧
    (ok = true → b.sizeof ≤ b.cap ∧ b.cap ≤ a.cap) ∧ (ok = false → b = a)
  later : ∀ log s', (arrayMachine A).Run s log s' →
    ∃ c, s'.arr = some c ∧ Holds c (log.foldl (listStep a.eltSize) l) ∧
      ∀ call, (arrayMachine A).Admits s' call → ((arrayMachine A).step s' call).isSome = true

/-- The array is settled, or not empty, or has a capacity of less than two bytes. -/
def ArrayT.SlimSafe (a : ArrayT) : Prop :=
  a.settled = true ∨ a.nmemb ≠ 0 ∨ a.cap < 2

section Keeps

variable {A : Allocator} {a b : ArrayT} {l : List Bytes} {k : ℕ} {t : List Event} {ok : Bool}

/-- Later runs from a live array act on its elements. -/
theorem SlimKeeps.of_holds {s : ArrSt} (hs : s.arr = some b) (hb : Holds b l)
    (helt : b.eltSize = a.eltSize) (hn : b.nmemb = a.nmemb)
    (htrue : ok = true → b.sizeof ≤ b.cap ∧ b.cap ≤ a.cap) (hfalse : ok = false → b = a) :
    SlimKeeps A a l ok s := by
  refine ⟨⟨b, hs, hb, hn, htrue, hfalse⟩, fun log s' hrun => ?_⟩
  obtain ⟨c, hc, hholds, -⟩ := hrun.refines (R := Simulates a.eltSize b.free)
    (H := fun _ => True) (listStep a.eltSize) (fun h _ hadm hstep => h.step hadm hstep)
    ⟨b, hs, hb, helt, rfl⟩ (fun _ _ => trivial)
  refine ⟨c, hc, hholds, fun call hadm => ?_⟩
  obtain ⟨ans, s'', hstep, -⟩ := answers_of_admits hc hholds hadm
  rw [hstep]
  rfl

/-- **When `array_slimcheck` keeps the array intact.** The call always returns. What it leaves
behind is the array with its elements, its buffer allocated, exactly when the array is
settled, or not empty, or has a capacity of less than two bytes. -/
theorem slimcheck_keeps_iff (helt : 0 < a.eltSize) (hcap : a.cap ≤ ptrdiffMax)
    (hblock : HasBlock a.cap a) (hfit : a.nmemb * a.eltSize ≤ a.cap) :
    ∃ ok s, arraySlimcheck A ⟨some a, k, t⟩ = .ok (ok, s) ∧
      (SlimKeeps A a a.elements ok s ↔ a.SlimSafe) := by
  obtain ⟨bs, hb, hlen⟩ := hblock
  have h : Holds a a.elements := holds_elements helt hcap hb hlen hfit
  have hbytes := h.sizeof_eq
  have hle := h.bytes_le
  by_cases hset : a.settled = true
  · refine ⟨_, _, slimcheck_settled hset, iff_of_true ?_ (.inl hset)⟩
    exact .of_holds rfl h rfl rfl (by simp) (fun _ => rfl)
  have hset : a.settled = false := by simpa using hset
  by_cases hused : a.cap / 2 ≤ a.sizeof
  · refine ⟨_, _, slimcheck_enough hset hused, iff_of_true ?_ (.inr ?_)⟩
    · exact .of_holds rfl h rfl rfl (fun _ => ⟨by omega, le_refl _⟩) (by simp)
    · by_cases hempty : a.nmemb = 0
      · have hnil : a.sizeof = 0 := by simp [ArrayT.sizeof, szMul, hempty]
        exact .inr (by omega)
      · exact .inl hempty
  by_cases hempty : a.nmemb = 0
  · have hnil : a.sizeof = 0 := by simp [ArrayT.sizeof, szMul, hempty]
    have htwo : 2 ≤ a.cap := by omega
    refine ⟨_, _, slimcheck_empty hb hset hnil htwo, iff_of_false ?_ ?_⟩
    · rintro ⟨⟨b, hb', -, -, -, hsame⟩, -⟩
      -- what is left has no block
      have hnone : b.block = none := by rw [← Option.some.inj hb']
      rw [hsame rfl, hb] at hnone
      cases hnone
    · rintro (hset' | hsize | hsmall)
      · rw [hset] at hset'
        cases hset'
      · exact hsize hempty
      · omega
  · have hcount : a.elements.length = a.nmemb := h.nmemb_eq.symm
    have hpos : 0 < a.sizeof := by
      rw [hbytes, hcount]
      exact Nat.mul_pos helt (Nat.pos_of_ne_zero hempty)
    have hrun := slimcheck_shrinks (A := A) (k := k) (t := t) hb hset hpos (Nat.lt_of_not_le hused)
    cases hserve : A.serves k a.sizeof with
    | true =>
        rw [hserve, if_pos rfl] at hrun
        refine ⟨_, _, hrun, iff_of_true ?_ (.inr (.inl hempty))⟩
        have hshrunk := h.resize (A := A) (k := k) hb hbytes.ge (by have := h.cap_le; omega)
        exact .of_holds rfl hshrunk rfl rfl
          (fun _ => ⟨le_refl a.sizeof, by change a.sizeof ≤ a.cap; omega⟩) (by simp)
    | false =>
        rw [hserve, if_neg (by simp)] at hrun
        refine ⟨_, _, hrun, iff_of_true ?_ (.inr (.inl hempty))⟩
        exact .of_holds rfl h rfl rfl (by simp) (fun _ => rfl)

end Keeps

/-- An empty array of pairs of bytes, in a block of eight. -/
def emptyPairs : ArrayT :=
  { ptr := .heap 0, block := some [0, 0, 0, 0, 0, 0, 0, 0], nmemb := 0, cap := 8, eltSize := 2,
    isOwnBuffer := true, settled := false, free := false }

/-- Two pairs of bytes, in a block of sixteen. -/
def roomyPairs : ArrayT :=
  { emptyPairs with block := some (List.replicate 16 1), nmemb := 2, cap := 16 }

/-- `array_slimcheck` on the two pairs moves them into a block of four bytes. -/
theorem slimcheck_two :
    ∃ ok s, arraySlimcheck (.upTo 2) ⟨some roomyPairs, 1, []⟩ = .ok (ok, s) ∧
      ok = true ∧ s.trace = [.realloc (.heap 0) 4] ∧
      SlimKeeps (.upTo 2) roomyPairs roomyPairs.elements ok s := by
  obtain ⟨ok, s, hrun, hkeeps⟩ := slimcheck_keeps_iff (A := .upTo 2) (a := roomyPairs) (k := 1)
    (t := []) (by decide) (by decide) ⟨_, rfl, rfl⟩ (by decide)
  have hshrunk : arraySlimcheck (.upTo 2) ⟨some roomyPairs, 1, []⟩ =
      .ok (true, ⟨some (roomyPairs.resized (.upTo 2) 1 4 (List.replicate 16 1)), 2,
        [.realloc (.heap 0) 4]⟩) := rfl
  obtain ⟨rfl, rfl⟩ := Prod.mk.inj (Except.ok.inj (hrun.symm.trans hshrunk))
  exact ⟨_, _, hrun, rfl, rfl, hkeeps.mpr (.inr (.inl (by decide)))⟩

/-- `array_slimcheck` on an empty array releases its buffer and reports failure; the next
`array_push` writes into the released buffer. -/
theorem slimcheck_releases :
    arraySlimcheck (.upTo 0) ⟨some emptyPairs, 0, []⟩ =
        .ok (false, ⟨some { emptyPairs with block := none }, 0, [.realloc (.heap 0) 0]⟩) ∧
      arrayPush (some [1, 2]) (.upTo 0)
        ⟨some { emptyPairs with block := none }, 0, [.realloc (.heap 0) 0]⟩ = .error .fault ∧
      ∀ s, ¬ SlimKeeps (.upTo 0) emptyPairs [] false
        ⟨some { emptyPairs with block := none }, 0, s⟩ := by
  refine ⟨rfl, rfl, fun s h => ?_⟩
  obtain ⟨b, hb, -, -, -, hsame⟩ := h.live
  obtain rfl := Option.some.inj hb
  exact absurd (hsame rfl) (by decide)

end Backd
