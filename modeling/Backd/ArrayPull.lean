import Backd.ArrayCreate

/-!
# Pulling a Range

`array_pull(src, start, end)` copies the elements from one position to another, both
included, into a new array: forwards all at once, or backwards one by one. A negative
position counts from the end. Before anything is copied the code moves `end` one step on,
in the direction of the copy, and counts the elements as the distance from `start`.

`pullOrder i j` is the list of positions the copy is meant to visit. The run of
`array_pull` is given as an equation, for every answer of the allocator.

## Main results

* `pullLoop_run`: the backward copy writes the elements from `start` down behind each
  other.
* `arrayPull_run_eq`: the result of `array_pull` in every case.
* `pull_lists`: `array_pull` lists the positions from one end to the other; the ends
  exchanged, it lists them in reverse; and forwards it gives the bytes of `array_extract`.
-/

namespace Backd

open Splice

/-- The position a signed index names: a negative one counts from the end. -/
def position (n : ℕ) (pos : ℤ) : ℕ :=
  (if pos < 0 then pos + n else pos).toNat

/-- The positions from `i` to `j`, both included: up when `i < j`, and down otherwise. -/
def pullOrder (i j : ℕ) : List ℕ :=
  if i < j then List.range' i (j + 1 - i) else (List.range' j (i + 1 - j)).reverse

/-- The elements at some positions, in the order of the positions. -/
def atPositions (m : List Bytes) (ps : List ℕ) : List Bytes :=
  ps.map fun p => m.getD p []

/-! ### Positions -/

theorem length_pullOrder (i j : ℕ) :
    (pullOrder i j).length = ((i : ℤ) - j).natAbs + 1 := by
  unfold pullOrder
  split
  · rw [List.length_range']
    omega
  · rw [List.length_reverse, List.length_range']
    omega

/-- The way back. -/
theorem pullOrder_swap (i j : ℕ) : pullOrder j i = (pullOrder i j).reverse := by
  unfold pullOrder
  rcases Nat.lt_trichotomy i j with hlt | rfl | hgt
  · rw [if_neg (by omega), if_pos hlt]
  · simp
  · rw [if_pos hgt, if_neg (by omega), List.reverse_reverse]

/-- Upwards, also where both ends are the same. -/
theorem pullOrder_of_le {i j : ℕ} (h : i ≤ j) : pullOrder i j = List.range' i (j + 1 - i) := by
  unfold pullOrder
  rcases Nat.lt_or_eq_of_le h with hlt | rfl
  · rw [if_pos hlt]
  · simp

@[simp] theorem length_atPositions (m : List Bytes) (ps : List ℕ) :
    (atPositions m ps).length = ps.length := by
  simp [atPositions]

theorem atPositions_reverse (m : List Bytes) (ps : List ℕ) :
    atPositions m ps.reverse = (atPositions m ps).reverse := by
  simp [atPositions, List.map_reverse]

/-- Positions in a row are a range of the list. -/
theorem atPositions_range' {m : List Bytes} {i n : ℕ} (h : i + n ≤ m.length) :
    atPositions m (List.range' i n) = (m.drop i).take n := by
  induction n generalizing i with
  | zero => simp [atPositions]
  | succ n ih =>
      have hi : i < m.length := by omega
      have hget : m.getD i [] = m[i] := by simp [hi]
      rw [take_drop_succ n hi, ← ih (by omega), atPositions, List.range'_succ, List.map_cons,
        hget, atPositions]

/-- Elements of a live array all have its width. -/
theorem uniform_atPositions {k : ℕ} {m : List Bytes} {ps : List ℕ} (h : Uniform k m)
    (hps : ∀ p ∈ ps, p < m.length) : Uniform k (atPositions m ps) := by
  intro x hx
  obtain ⟨p, hp, rfl⟩ := List.mem_map.mp hx
  have hlt := hps p hp
  simp only [List.getD_eq_getElem?_getD, List.getElem?_eq_getElem hlt, Option.getD_some]
  exact h _ (List.getElem_mem hlt)

theorem mem_pullOrder {i j n p : ℕ} (hi : i < n) (hj : j < n) (h : p ∈ pullOrder i j) :
    p < n := by
  unfold pullOrder at h
  split at h
  · have := (List.mem_range'_1.mp h).2
    omega
  · have := (List.mem_range'_1.mp (List.mem_reverse.mp h)).2
    omega

/-- A position within the size, counted from either end, is a position of an element. -/
theorem position_lt {n : ℕ} {pos : ℤ} (h : pos.natAbs < n) : position n pos < n := by
  unfold position
  split <;> omega

/-- What `array_pull` makes of an index it has admitted. -/
theorem fromEnd_eq {n : ℕ} {pos : ℤ} (hn : n ≤ ptrdiffMax) (h : pos.natAbs < n) :
    fromEnd n pos = position n pos := by
  simp only [ptrdiffMax] at hn
  unfold fromEnd position
  split
  · rw [wrapInt64_eq (by omega) (by omega)]
    omega
  · omega

theorem pastStop_eq {n : ℕ} (start : ℤ) {stop : ℤ} (hn : n ≤ ptrdiffMax) (h₁ : 0 ≤ stop)
    (h₂ : stop < n) :
    pastStop start stop = if start < stop then stop + 1 else stop - 1 := by
  simp only [ptrdiffMax] at hn
  unfold pastStop
  split <;> exact wrapInt64_eq (by omega) (by omega)

section Copies

variable {A : Allocator} {a src : ArrayT} {m : List Bytes} {bs : Bytes} {k : ℕ}
  {t : List Event}

/-! ### The copies -/

/-- The backward copy of `array_pull` writes the `n` elements from position `j + n - 1` down
to `j` behind each other. -/
theorem pullLoop_run (hsrc : Holds src m) (n off j : ℕ) (hj : j + n ≤ m.length)
    (hb : a.block = some bs) (hroom : off + src.eltSize * n ≤ bs.length) :
    pullLoop src n off ((j + n : ℕ) - 1 : ℤ) (j - 1 : ℤ) A ⟨some a, k, t⟩ =
      .ok ((), ⟨some { a with
        block := some (overwrite bs off (atPositions m (List.range' j n).reverse).flatten) },
        k, t⟩) := by
  induction n generalizing a bs off with
  | zero =>
      rw [pullLoop, if_pos (by simp)]
      simp [atPositions, ← hb]
  | succ n ih =>
      have hlen := hsrc.length_le
      have hcap := hsrc.cap_le
      simp only [ptrdiffMax] at hcap
      have hpos : j + n < m.length := by omega
      obtain ⟨ss, hss, hin, hwin⟩ := hsrc.slot hpos
      have helem : m[j + n].length = src.eltSize := hsrc.uniform _ (List.getElem_mem hpos)
      rw [Nat.mul_succ] at hroom
      have hfit : off + m[j + n].length ≤ bs.length := by omega
      have hstart : toSize ((j + (n + 1) : ℕ) - 1 : ℤ) = j + n := by
        simp only [toSize]
        omega
      have hdown : wrapInt64 (((j + (n + 1) : ℕ) - 1 : ℤ) - 1) = ((j + n : ℕ) : ℤ) - 1 := by
        rw [wrapInt64_eq (by omega) (by omega)]
        omega
      have hget : m.getD (j + n) [] = m[j + n] := by simp [hpos]
      have horder : atPositions m (List.range' j (n + 1)).reverse
          = m[j + n] :: atPositions m (List.range' j n).reverse := by
        rw [List.range'_1_concat, List.reverse_append, atPositions, List.reverse_singleton,
          List.singleton_append, List.map_cons, hget, atPositions]
      rw [pullLoop, if_neg (by omega), hstart, hdown, bind_ok (readOf_ok hss hin _), hwin,
        bind_ok (writeBlock_ok hb hfit)]
      refine (ih (off + src.eltSize) (by omega) rfl
        (by rw [length_overwrite hfit]; omega)).trans ?_
      rw [horder, List.flatten_cons, ← overwrite_overwrite_append hfit, helem]

/-- Overwriting a whole store. -/
theorem overwrite_whole {new : Bytes} (h : new.length = bs.length) : overwrite bs 0 new = new := by
  simp [overwrite, h]

/-- Both copies of `array_pull` fill the new buffer with the elements at the positions from
`i` to `j`. -/
theorem pullCopy_run {i j : ℕ} (hsrc : Holds src m) (hi : i < m.length) (hj : j < m.length)
    (hb : a.block = some bs) (hlen : bs.length = src.eltSize * (pullOrder i j).length) :
    pullCopy src (pullOrder i j).length (src.eltSize * (pullOrder i j).length) i
        (pastStop i j) A ⟨some a, k, t⟩ =
      .ok ((), ⟨some { a with block := some (atPositions m (pullOrder i j)).flatten }, k, t⟩) := by
  have hmlen := hsrc.length_le
  have hcap := hsrc.cap_le
  have hpast : pastStop i j = if (i : ℤ) < j then (j : ℤ) + 1 else (j : ℤ) - 1 :=
    pastStop_eq (n := m.length) _ (by omega) (by omega) (by omega)
  have hflat : (atPositions m (pullOrder i j)).flatten.length = bs.length := by
    rw [(uniform_atPositions hsrc.uniform fun p hp => mem_pullOrder hi hj hp).length_flatten,
      length_atPositions, hlen]
  by_cases hlt : i < j
  · have hcount : (pullOrder i j).length = j + 1 - i := by
      rw [length_pullOrder]
      omega
    have hpositions : pullOrder i j = List.range' i (j + 1 - i) := if_pos hlt
    have hcells : atPositions m (pullOrder i j) = (m.drop i).take (j + 1 - i) := by
      rw [hpositions, atPositions_range' (by omega)]
    obtain ⟨ss, hss, hsslen, hlays⟩ := hsrc.exists_block
    have hto : toSize (i : ℤ) = i := by
      simp only [toSize, ptrdiffMax] at *
      omega
    have hend := hsrc.offset_le (p := i + (j + 1 - i)) (by omega)
    rw [Nat.mul_add] at hend
    have hwin := hlays.range (i := i) (n := j + 1 - i) (by omega)
    rw [← hcells] at hwin
    rw [pullCopy, if_pos (by rw [hpast]; omega), hto, hsrc.relativeData_eq (by omega),
      bind_ok (readOf_ok hss (by rw [hcount]; omega) _), hcount, hwin,
      writeBlock_ok hb (by omega), overwrite_whole hflat]
  · have hcount : (pullOrder i j).length = i + 1 - j := by
      rw [length_pullOrder]
      omega
    have hpositions : pullOrder i j = (List.range' j (i + 1 - j)).reverse := if_neg hlt
    have hstart : (i : ℤ) = ((j + (i + 1 - j) : ℕ) : ℤ) - 1 := by omega
    have hstop : pastStop i j = (j : ℤ) - 1 := by rw [hpast, if_neg (by omega)]
    have key := pullLoop_run (A := A) (k := k) (t := t) hsrc (i + 1 - j) 0 j (by omega) hb
      (by rw [hlen, hcount]; omega)
    rw [← hpositions, overwrite_whole hflat, ← hstart] at key
    rw [pullCopy, if_neg (by rw [hstop]; omega), hcount, hstop]
    exact key

/-! ### The call -/

/-- The elements `array_pull` is asked for. -/
def pulled (m : List Bytes) (start stop : ℤ) : List Bytes :=
  atPositions m (pullOrder (position m.length start) (position m.length stop))

/-- The array `array_pull` builds from the two blocks it is granted: it owns its buffer,
which is exactly full, and is settled. -/
def pulledArray (src : ArrayT) (calls : ℕ) (es : List Bytes) : ArrayT :=
  { ptr := .heap (calls + 1), block := some es.flatten, nmemb := es.length,
    cap := src.eltSize * es.length, eltSize := src.eltSize, isOwnBuffer := true,
    settled := true, free := src.free }

/-- The elements pulled have the width of the source, and there are no more of them than in
the source. -/
theorem pulled_bounds {start stop : ℤ} (hsrc : Holds src m) (hstart : start.natAbs < m.length)
    (hstop : stop.natAbs < m.length) :
    Uniform src.eltSize (pulled m start stop) ∧ (pulled m start stop).length ≤ m.length := by
  have hi := position_lt hstart
  have hj := position_lt hstop
  constructor
  · exact uniform_atPositions hsrc.uniform fun p hp => mem_pullOrder hi hj hp
  · rw [pulled, length_atPositions, length_pullOrder]
    omega

/-- The number of the elements that are pulled. -/
theorem pull_count {n i j : ℕ} (hi : i < n) (hj : j < n) (hn : n ≤ ptrdiffMax) :
    (wrapInt64 ((i : ℤ) - pastStop i j)).natAbs = (pullOrder i j).length := by
  have hpast : pastStop i j = if (i : ℤ) < j then (j : ℤ) + 1 else (j : ℤ) - 1 :=
    pastStop_eq _ hn (by omega) (by omega)
  simp only [ptrdiffMax] at hn
  rw [length_pullOrder, hpast]
  split <;> rw [wrapInt64_eq (by omega) (by omega)] <;> omega

/-- **`array_pull`**, for every answer of the allocator. -/
theorem arrayPull_eq {start stop : ℤ} (hsrc : Holds src m) (hstart : start.natAbs < m.length)
    (hstop : stop.natAbs < m.length) (o : Option ArrayT) :
    arrayPull src start stop A ⟨o, k, t⟩ =
      if A.serves k headerSize = false then .ok (.null, ⟨o, k + 1, t⟩)
      else if A.serves (k + 1) (src.eltSize * (pulled m start stop).length) = false then
        .ok (.null, ⟨none, k + 2, t⟩)
      else .ok (.header, ⟨some (pulledArray src k (pulled m start stop)), k + 2, t⟩) := by
  have hlen := hsrc.length_le
  have hcap := hsrc.cap_le
  have hn : src.nmemb ≤ ptrdiffMax := by
    rw [hsrc.nmemb_eq]
    omega
  have hguard : ∀ pos : ℤ, pos.natAbs < m.length → decide (src.nmemb ≤ pos.natAbs) = false := by
    intro pos hpos
    rw [hsrc.nmemb_eq, decide_eq_false_iff_not]
    omega
  rw [arrayPull, guard_run (hguard start hstart), guard_run (hguard stop hstop),
    fromEnd_eq hn (by rwa [hsrc.nmemb_eq]), fromEnd_eq hn (by rwa [hsrc.nmemb_eq]), hsrc.nmemb_eq]
  have hcount : (pulled m start stop).length
      = (pullOrder (position m.length start) (position m.length stop)).length :=
    length_atPositions _ _
  have hbound := (pulled_bounds hsrc hstart hstop).2
  have hbytes := hsrc.offset_le hbound
  have htop := hsrc.cap_le_sizeMax
  have hi := position_lt hstart
  have hj := position_lt hstop
  simp only [pulled, length_atPositions] at hcount hbound hbytes ⊢
  generalize position m.length start = i at *
  generalize position m.length stop = j at *
  have hwrap := pull_count hi hj (hsrc.nmemb_eq ▸ hn)
  have hmul : szMul (pullOrder i j).length src.eltSize = src.eltSize * (pullOrder i j).length := by
    rw [szMul_eq (by rw [Nat.mul_comm]; omega), Nat.mul_comm]
  rw [hwrap, hmul]
  have hinit := arrayInit_run (A := A) (k := k) (t := t)
    (src.eltSize * (pullOrder i j).length) o
  cases hhead : A.serves k headerSize with
  | false =>
      rw [if_pos hhead] at hinit
      exact (bind_ok hinit).trans rfl
  | true =>
      cases hbuf : A.serves (k + 1) (src.eltSize * (pullOrder i j).length) with
      | false =>
          simp only [hhead, hbuf] at hinit
          exact (bind_ok hinit).trans rfl
      | true =>
          simp only [hhead, hbuf] at hinit
          refine (bind_ok hinit).trans ?_
          have hcopy := pullCopy_run (A := A) (k := k + 2) (t := t) (a :=
            { ptr := .heap (k + 1),
              block := some (A.fresh (k + 1) 0 (src.eltSize * (pullOrder i j).length)),
              nmemb := (pullOrder i j).length, cap := src.eltSize * (pullOrder i j).length,
              eltSize := src.eltSize, isOwnBuffer := true, settled := true, free := src.free })
            hsrc hi hj rfl (Allocator.length_fresh _ _ _ _)
          exact (bind_ok hcopy).trans (by simp [pulledArray])

/-- The array built is live, and holds the elements pulled. -/
theorem holds_pulledArray {es : List Bytes} (hsrc : Holds src m) (hes : Uniform src.eltSize es)
    (hlen : es.length ≤ m.length) : Holds (pulledArray src k es) es := by
  have hcap := hsrc.cap_le
  have hle := hsrc.offset_le hlen
  refine ⟨hsrc.elt_pos, le_trans hle hcap, rfl, es.flatten, rfl, hes.length_flatten, hes, [], ?_⟩
  simp

/-- **`array_extract`** of a range of the array: its bytes, or `NULL` when the request is
refused. -/
theorem arrayExtract_run {i j : ℕ} (h : Holds a m) (hij : i ≤ j) (hj : j ≤ m.length) :
    ∃ ev, Tame [] ev ∧ arrayExtract i j A ⟨some a, k, t⟩ =
      .ok (if A.serves k (a.eltSize * (j - i)) then some ((m.drop i).take (j - i)).flatten
        else none, ⟨some a, k + 1, t ++ ev⟩) := by
  obtain ⟨bs, hb, hblen, hlays⟩ := h.exists_block
  have hlen := h.length_le
  have htop := h.cap_le_sizeMax
  have hoff := h.offset_le hj
  have hsplit : a.eltSize * i + a.eltSize * (j - i) = a.eltSize * j := by
    rw [← Nat.mul_add, Nat.add_sub_cancel' hij]
  have hsub : szSub j i = j - i := szSub_eq hij (by omega)
  have hrest : szSub m.length i = m.length - i := szSub_eq (by omega) (by omega)
  have hmul : szMul (j - i) a.eltSize = a.eltSize * (j - i) := by
    rw [szMul_eq (by rw [Nat.mul_comm]; omega), Nat.mul_comm]
  have hsafe : safeToMul (j - i) a.eltSize = true := by
    rw [safeToMul_iff, Nat.mul_comm]
    omega
  have hroom : ¬ m.length - i < j - i := by omega
  have hread : ∀ s : ArrSt, readOf a (a.relativeData i) (a.eltSize * (j - i)) A s
      = .ok (((m.drop i).take (j - i)).flatten, s) := by
    intro s
    rw [h.relativeData_eq (by omega), readOf_ok hb (by omega), hlays.range (by omega)]
  refine ⟨.diff j i :: .diff m.length i :: .diff j i :: .diff j i ::
    if A.serves k (a.eltSize * (j - i)) then [.diff j i] else [], ?_, ?_⟩
  · have hlast : Tame [] (if A.serves k (a.eltSize * (j - i)) then [.diff j i] else []) := by
      split
      · exact tame_nil.diff hij
      · exact tame_nil
    exact (((hlast.diff hij).diff hij).diff (by omega)).diff hij
  · cases hgrant : A.serves k (a.eltSize * (j - i)) with
    | false =>
        simp [arrayExtract, bind_run, header, notifyBugOn, diff, emit, memoryAlloc_run,
          safeToSub, h.nmemb_eq, hij, hsub, hrest, hsafe, hmul, hgrant, Nat.le_trans hij hj,
          hroom]
    | true =>
        simp [arrayExtract, bind_run, header, notifyBugOn, diff, emit, memoryAlloc_run,
          safeToSub, h.nmemb_eq, hij, hsub, hrest, hsafe, hmul, hgrant, Nat.le_trans hij hj,
          hroom, readBlock, hread]

/-- The two requests of `array_pull` for the positions from `i` to `j` are granted, from
call `k` on. -/
def PullGranted (A : Allocator) (k : ℕ) (src : ArrayT) (i j : ℕ) : Prop :=
  A.serves k headerSize = true ∧
    A.serves (k + 1) (src.eltSize * (((i : ℤ) - j).natAbs + 1)) = true

/-- A granted call gives the array of the elements pulled. -/
theorem arrayPull_granted {start stop : ℤ} {s : ArrSt} (hsrc : Holds src m)
    (hstart : start.natAbs < m.length) (hstop : stop.natAbs < m.length)
    (hgrant : PullGranted A s.calls src (position m.length start) (position m.length stop)) :
    arrayPull src start stop A s = .ok (.header,
      ⟨some (pulledArray src s.calls (pulled m start stop)), s.calls + 2, s.trace⟩) := by
  obtain ⟨hhead, hbuf⟩ := hgrant
  have hcount : (pulled m start stop).length
      = ((position m.length start : ℤ) - position m.length stop).natAbs + 1 := by
    rw [pulled, length_atPositions, length_pullOrder]
  obtain ⟨o, calls, trace⟩ := s
  rw [arrayPull_eq hsrc hstart hstop, hcount]
  simp [hhead, hbuf]

/-- **`array_pull` lists the positions from one end to the other.** For a live source and two
indices within its size that name the positions `i` and `j`, a granted call gives a new
array of `|i - j| + 1` elements, in fresh memory: those at `i`, `i + 1`, ..., `j` when
`i < j`, and at `i`, `i - 1`, ..., `j` otherwise. Nothing else happens. The call with the
ends exchanged gives the reverse, and for `i ≤ j` the new buffer has the bytes that
`array_extract` gives for `i` and `j + 1`. -/
theorem pull_lists {start stop : ℤ} {i j : ℕ} {s : ArrSt} (hsrc : Holds src m)
    (hstart : start.natAbs < m.length) (hstop : stop.natAbs < m.length)
    (hi : (i : ℤ) = if start < 0 then start + m.length else start)
    (hj : (j : ℤ) = if stop < 0 then stop + m.length else stop)
    (hgrant : PullGranted A s.calls src i j) :
    ∃ a, arrayPull src start stop A s = .ok (.header, ⟨some a, s.calls + 2, s.trace⟩) ∧
      Holds a (atPositions m (pullOrder i j)) ∧ a.nmemb = ((i : ℤ) - j).natAbs + 1 ∧
      a.eltSize = src.eltSize ∧ a.ptr = .heap (s.calls + 1) ∧
      (∀ (B : Allocator) (s' : ArrSt), PullGranted B s'.calls src j i →
        ∃ b, arrayPull src stop start B s' = .ok (.header, ⟨some b, s'.calls + 2, s'.trace⟩) ∧
          Holds b (atPositions m (pullOrder i j)).reverse) ∧
      (i ≤ j → ∀ (B : Allocator) (k' : ℕ) (t' : List Event),
        B.serves k' (src.eltSize * (j + 1 - i)) = true →
          ∃ ev, arrayExtract i (j + 1) B ⟨some src, k', t'⟩ =
            .ok (a.block, ⟨some src, k' + 1, t' ++ ev⟩)) := by
  obtain rfl : i = position m.length start := by
    unfold position
    omega
  obtain rfl : j = position m.length stop := by
    unfold position
    omega
  have hlen : (pulled m start stop).length
      = ((position m.length start : ℤ) - position m.length stop).natAbs + 1 := by
    rw [pulled, length_atPositions, length_pullOrder]
  obtain ⟨hu, hle⟩ := pulled_bounds hsrc hstart hstop
  obtain ⟨hu', hle'⟩ := pulled_bounds hsrc hstop hstart
  refine ⟨_, arrayPull_granted hsrc hstart hstop hgrant, holds_pulledArray hsrc hu hle, hlen,
    rfl, rfl, ?_, ?_⟩
  · intro B s' hgrant'
    refine ⟨_, arrayPull_granted hsrc hstop hstart hgrant', ?_⟩
    have hback : pulled m stop start = (pulled m start stop).reverse := by
      rw [pulled, pullOrder_swap, atPositions_reverse, pulled]
    have hholds := holds_pulledArray (k := s'.calls) hsrc hu' hle'
    rwa [hback] at hholds ⊢
  · intro hij B k' t' hserve
    have hj' := position_lt hstop
    obtain ⟨ev, -, hrun⟩ := arrayExtract_run (A := B) (k := k') (t := t') hsrc
      (Nat.le_succ_of_le hij) (Nat.succ_le_of_lt hj')
    refine ⟨ev, ?_⟩
    have hsame : pulled m start stop
        = (m.drop (position m.length start)).take
          (position m.length stop + 1 - position m.length start) := by
      rw [pulled, pullOrder_of_le hij, atPositions_range' (by omega)]
    rw [hrun, if_pos hserve, pulledArray, hsame]

end Copies

/-- `array_pull(src, 0, -1)` on two elements: both, in order. -/
theorem pull_both : ∃ a, arrayPull twoTriples 0 (-1) (.upTo 2) ⟨none, 0, []⟩
    = .ok (.header, ⟨some a, 2, []⟩) ∧ Holds a [[1, 2, 3], [4, 5, 6]] :=
  have ⟨a, hrun, hholds, _⟩ := pull_lists (A := .upTo 2) (s := ⟨none, 0, []⟩) (i := 0) (j := 1)
    (m := [[1, 2, 3], [4, 5, 6]]) holds_twoTriples (by decide) (by decide) rfl rfl
    ⟨by decide, by decide⟩
  ⟨a, hrun, hholds⟩

end Backd
