import Backd.ArrayPool
import Backd.ArrayGrowth

/-!
# Filtering, and What a Failure Destroys

`array_filter` pushes the elements of its source that pass the callback into a new array, which
gets the destructor of the source. When a push fails midway the new array is torn down by
`array_kill`, and that runs the destructor on every element copied so far: the copies share
what the source's elements own.

The new array starts with room for `ARRAY_INITIAL_SIZE` elements and doubles each time it is
full. `Filling` is the invariant of the loop: which elements have been copied, and how often
the buffer has been doubled.

## Main results

* `push_filling`: one push of the loop: it finds room, or doubles the buffer, or fails.
* `filterLoop_fills`: the loop succeeds exactly when each doubling it needs is granted.
* `filter_keeps_iff`: when `array_filter` gives the elements asked for or `NULL`, and destroys
  nothing.
-/

namespace Backd

open Splice

/-! ### One push -/

section Push

variable {A : Allocator} {a b : ArrayT} {l : List Bytes} {e : Bytes} {s s' : ArrSt}
  {k : ℕ} {t : List Event}

/-- `array_push` gives up when `array_adjust` does. -/
theorem arrayPush_failed (h : arrayAdjust 1 A s = .ok (false, s')) :
    arrayPush (some e) A s = .ok (false, s') :=
  (guard_run rfl).trans (bind_ok h)

/-- `array_push` behind an `array_adjust` that made room. -/
theorem arrayPush_adjusted (h : Holds b l) (he : e.length = b.eltSize)
    (hroom : b.eltSize * (l.length + 1) ≤ b.cap)
    (hadjust : arrayAdjust 1 A s = .ok (true, ⟨some b, k, t⟩)) :
    ∃ c, arrayPush (some e) A s = .ok (true, ⟨some c, k, t⟩) ∧ Becomes b (l ++ [e]) c ∧
      c.cap = b.cap := by
  obtain ⟨bs, hb, hlen, -⟩ := h.exists_block
  have hone : Uniform b.eltSize [e] := by simpa using he
  have hfill := h.fill hb hlen (le_refl l.length) hone (by simpa using hroom)
  rw [gapped_end bs (.inl rfl)] at hfill
  have hholds : Holds { b with
      block := some (overwrite bs (b.eltSize * l.length) e)
      nmemb := szAdd b.nmemb 1 } (l ++ [e]) := by
    simpa using hfill
  have hoff : b.relativeData b.nmemb = b.eltSize * l.length := by
    rw [h.nmemb_eq, h.relativeData_eq (le_refl _)]
  have hread : readSource (some e) b.eltSize A ⟨some b, k, t⟩ = .ok (e, ⟨some b, k, t⟩) := by
    simp [readSource, he, List.take_of_length_le]
  have hin : b.eltSize * l.length + e.length ≤ bs.length := by
    rw [he, hlen, ← Nat.mul_succ]
    exact hroom
  refine ⟨_, ?_, hholds.becomes, rfl⟩
  refine (guard_run rfl).trans ((bind_ok hadjust).trans ?_)
  refine (bind_ok hread).trans ?_
  rw [hoff]
  refine (bind_ok (writeBlock_ok hb hin)).trans ?_
  simp [store, bind_run]

end Push

/-! ### The loop -/

/-- The number of elements the new array has room for after `j` doublings. -/
def roomAfter (j : ℕ) : ℕ :=
  arrayInitialSize * 2 ^ j

/-- The doubling of the buffer after `j` others is below the growth limit and granted. The
call that created the array is number `k`. -/
def CanDouble (A : Allocator) (k eltSize j : ℕ) : Prop :=
  eltSize * roomAfter (j + 1) ≤ intMax ∧ A.serves (k + 2 + j) (eltSize * roomAfter (j + 1)) = true

/-- The new array holds the elements `l`, and its buffer has been doubled `j` times. -/
structure Copying (src : ArrayT) (l : List Bytes) (j : ℕ) (a : ArrayT) : Prop where
  holds : Holds a l
  eltSize_eq : a.eltSize = src.eltSize
  free_eq : a.free = src.free
  unsettled : a.settled = false
  cap_eq : a.cap = src.eltSize * roomAfter j
  few : l.length < roomAfter j

/-- The loop of `array_filter` has copied the elements `l` and doubled the buffer `j` times. -/
structure Filling (src : ArrayT) (k : ℕ) (l : List Bytes) (j : ℕ) (s : ArrSt) : Prop where
  header : ∃ a, s.arr = some a ∧ Copying src l j a
  calls_eq : s.calls = k + 2 + j
  kept : destroyed s.trace = []

/-- The loop has given up, with the elements `l` copied. -/
structure Abandoned (src : ArrayT) (l : List Bytes) (s : ArrSt) : Prop where
  header : ∃ a, s.arr = some a ∧ Holds a l ∧ a.free = src.free
  kept : destroyed s.trace = []

theorem roomAfter_succ (j : ℕ) : roomAfter (j + 1) = roomAfter j * 2 := by
  rw [roomAfter, roomAfter, Nat.pow_succ, Nat.mul_assoc]

theorem le_roomAfter (j : ℕ) : arrayInitialSize ≤ roomAfter j :=
  Nat.le_mul_of_pos_right _ (Nat.two_pow_pos j)

theorem roomAfter_mono {i j : ℕ} (h : i ≤ j) : roomAfter i ≤ roomAfter j :=
  Nat.mul_le_mul_left _ (Nat.pow_le_pow_right (by decide) h)

section Loop

variable {A : Allocator} {a src : ArrayT} {l m : List Bytes} {e : Bytes} {s : ArrSt} {k j : ℕ}
  {t : List Event} {callback : Bytes → Bool}

/-- One more element asks for no more bytes than the buffer has. -/
theorem Copying.need_eq (h : Copying src l j a) :
    a.need 1 = src.eltSize * (l.length + 1) ∧ a.need 1 ≤ a.cap := by
  have hneed : a.need 1 = src.eltSize * (l.length + 1) := by
    rw [ArrayT.need, h.holds.nmemb_eq, h.eltSize_eq, Nat.mul_comm]
  refine ⟨hneed, ?_⟩
  rw [hneed, h.cap_eq]
  exact Nat.mul_le_mul_left _ h.few

theorem Copying.guards (h : Copying src l j a) : AdjustGuards a 1 := by
  have htop := h.holds.cap_le_sizeMax
  have hneed := h.need_eq.2
  have hcount : a.nmemb + 1 ≤ a.need 1 := Nat.le_mul_of_pos_right _ h.holds.elt_pos
  exact .of_le (by omega) (by decide) (by omega) (by omega)

theorem Copying.initial_le (h : Copying src l j a) : arrayInitialSize ≤ a.cap := by
  rw [h.cap_eq]
  exact le_trans (le_roomAfter j)
    (Nat.le_mul_of_pos_left _ (h.eltSize_eq ▸ h.holds.elt_pos))

/-- An element more, where there is room. -/
theorem Copying.pushed {c : ArrayT} (h : Copying src l j a) (hc : Becomes a (l ++ [e]) c)
    (hcap : c.cap = a.cap) (hroom : l.length + 1 < roomAfter j) :
    Copying src (l ++ [e]) j c :=
  ⟨hc.holds, hc.eltSize_eq.trans h.eltSize_eq, hc.free_eq.trans h.free_eq,
    hc.settled_eq.trans h.unsettled, hcap.trans h.cap_eq, by simpa using hroom⟩

/-- Twice the capacity is that after one more doubling. -/
theorem Copying.cap_double (h : Copying src l j a) :
    a.cap * 2 = src.eltSize * roomAfter (j + 1) := by
  rw [h.cap_eq, roomAfter_succ, Nat.mul_assoc]

/-- The buffer doubled. -/
theorem Copying.doubled {bs : Bytes} {c : ℕ} (h : Copying src l j a) (hb : a.block = some bs)
    (hmax : a.cap * 2 ≤ ptrdiffMax) : Copying src l (j + 1) (a.resized A c (a.cap * 2) bs) := by
  have hfit : a.eltSize * l.length ≤ a.cap * 2 := le_trans h.holds.bytes_le (by omega)
  refine ⟨h.holds.resize hb hfit hmax, h.eltSize_eq, h.free_eq, h.unsettled, ?_, ?_⟩
  · exact h.cap_double
  · exact lt_of_lt_of_le h.few (roomAfter_mono (Nat.le_succ j))

/-- A push into a buffer with room. -/
theorem push_room (h : Copying src l j a) (he : e.length = src.eltSize)
    (hroom : l.length + 1 < roomAfter j) :
    ∃ c, arrayPush (some e) A ⟨some a, k, t⟩ = .ok (true, ⟨some c, k, t⟩) ∧
      Copying src (l ++ [e]) j c := by
  obtain ⟨hneed, hle⟩ := h.need_eq
  have hfit : a.need 1 < a.cap := by
    rw [hneed, h.cap_eq]
    exact Nat.mul_lt_mul_of_pos_left hroom (h.eltSize_eq ▸ h.holds.elt_pos)
  obtain ⟨c, hpush, hc, hcap⟩ := arrayPush_adjusted h.holds (he.trans h.eltSize_eq.symm)
    (by rw [h.eltSize_eq]; omega)
    (arrayAdjust_fits (A := A) (k := k) (t := t) h.guards (by decide) hfit)
  exact ⟨c, hpush, h.pushed hc hcap hroom⟩

/-- A full buffer is to be doubled, up to the growth limit. -/
theorem Copying.growth_full (h : Copying src l j a) (hfull : l.length + 1 = roomAfter j) :
    growth a.cap a.settled (a.need 1) =
      if intMax < a.cap * 2 then .refuse else .realloc (a.cap * 2) := by
  have htop := h.holds.cap_le_sizeMax
  have hmin := h.initial_le
  have hexact : a.need 1 = a.cap := by rw [h.need_eq.1, hfull, h.cap_eq]
  rw [h.unsettled]
  exact growth_doubles (by omega) (by omega) (by omega) (by omega)

/-- A push into a full buffer: it is doubled, or the push fails and leaves it alone. -/
theorem push_full (h : Copying src l j a) (he : e.length = src.eltSize)
    (hfull : l.length + 1 = roomAfter j) :
    (CanDouble A k src.eltSize j ∧
        ∃ c, arrayPush (some e) A ⟨some a, k + 2 + j, t⟩ =
            .ok (true, ⟨some c, k + 2 + (j + 1), t ++ [.realloc a.ptr (a.cap * 2)]⟩) ∧
          Copying src (l ++ [e]) (j + 1) c) ∨
      ¬ CanDouble A k src.eltSize j ∧
        ∃ k' t', arrayPush (some e) A ⟨some a, k + 2 + j, t⟩ = .ok (false, ⟨some a, k', t'⟩) ∧
          destroyed t' = destroyed t := by
  obtain ⟨hneed, hle⟩ := h.need_eq
  obtain ⟨bs, hb, hlen, -⟩ := h.holds.exists_block
  have hmin := h.initial_le
  have hone : 1 ≤ sizeMax := by decide
  have hdouble := h.cap_double
  have hgrowth := h.growth_full hfull
  by_cases hmax : intMax < a.cap * 2
  · rw [if_pos hmax] at hgrowth
    refine .inr ⟨fun hcan => ?_, _, _,
      arrayPush_failed (arrayAdjust_refuse h.guards hone hgrowth), rfl⟩
    have := hcan.1
    omega
  rw [if_neg hmax] at hgrowth
  have hpos : 0 < a.cap * 2 := by
    simp only [arrayInitialSize] at hmin
    omega
  have hadjust := arrayAdjust_realloc (A := A) (k := k + 2 + j) (t := t) h.guards hone hb hpos
    hgrowth
  cases hserve : A.serves (k + 2 + j) (a.cap * 2) with
  | true =>
      rw [hserve, if_pos rfl] at hadjust
      have hdoubled := h.doubled (A := A) (c := k + 2 + j) hb (Allocator.le_of_serves hserve)
      have hroom : l.length + 1 < roomAfter (j + 1) := by
        have hpos := le_roomAfter j
        rw [hfull, roomAfter_succ]
        simp only [arrayInitialSize] at hpos
        omega
      have hbytes : a.eltSize * (l.length + 1) ≤ a.cap * 2 := by
        rw [h.eltSize_eq]
        omega
      obtain ⟨c, hpush, hc, hcap⟩ := arrayPush_adjusted hdoubled.holds
        (he.trans h.eltSize_eq.symm) hbytes hadjust
      refine .inl ⟨⟨?_, ?_⟩, c, hpush, hdoubled.pushed hc hcap hroom⟩
      · rw [← hdouble]
        exact Nat.le_of_not_lt hmax
      · rwa [← hdouble]
  | false =>
      rw [hserve, if_neg (by simp)] at hadjust
      refine .inr ⟨fun hcan => ?_, _, _, arrayPush_failed hadjust, ?_⟩
      · have hgrant := hcan.2
        rw [← hdouble, hserve] at hgrant
        cases hgrant
      · rw [destroyed_append]
        exact List.append_nil _

/-- **One push of the loop**: it finds room, or doubles the buffer, or fails because the
buffer is full and cannot be doubled. -/
theorem push_filling (h : Filling src k l j s) (he : e.length = src.eltSize) :
    (∃ s' i, arrayPush (some e) A s = .ok (true, s') ∧ Filling src k (l ++ [e]) i s' ∧
        (i = j ∨ i = j + 1 ∧ CanDouble A k src.eltSize j)) ∨
      ¬ CanDouble A k src.eltSize j ∧ l.length + 1 = roomAfter j ∧
        ∃ s', arrayPush (some e) A s = .ok (false, s') ∧ Abandoned src l s' := by
  obtain ⟨⟨a, ha, hcopy⟩, hcalls, hkept⟩ := h
  obtain ⟨arr, calls, trace⟩ := s
  obtain rfl : arr = some a := ha
  obtain rfl : calls = k + 2 + j := hcalls
  rcases Nat.lt_or_eq_of_le (Nat.succ_le_of_lt hcopy.few) with hroom | hfull
  · obtain ⟨c, hpush, hc⟩ := push_room (A := A) (k := k + 2 + j) (t := trace) hcopy he hroom
    exact .inl ⟨_, j, hpush, ⟨⟨c, rfl, hc⟩, rfl, hkept⟩, .inl rfl⟩
  · rcases push_full (A := A) (t := trace) hcopy he hfull with
      ⟨hcan, c, hpush, hc⟩ | ⟨hcannot, k', t', hpush, hsame⟩
    · refine .inl ⟨_, j + 1, hpush, ⟨⟨c, rfl, hc⟩, rfl, ?_⟩, .inr ⟨rfl, hcan⟩⟩
      rw [destroyed_append, hkept]
      rfl
    · exact .inr ⟨hcannot, hfull, _, hpush, ⟨a, rfl, hcopy.holds, hcopy.free_eq⟩,
        hsame.trans hkept⟩

/-- One round of the loop: the element is handed to the callback, and pushed if it passes. -/
theorem filterLoop_round (n : ℕ) {i : ℕ} (hsrc : Holds src m) (hi : i < m.length) :
    filterLoop src callback (n + 1) i A s =
      (if callback m[i] = true then
        (arrayPush (some m[i]) >>= fun pushed =>
          if pushed = true then filterLoop src callback n (i + 1) else pure false) A s
      else filterLoop src callback n (i + 1) A s) := by
  obtain ⟨bs, hb, hin, hwin⟩ := hsrc.slot hi
  have hguard : ¬ src.nmemb ≤ i := by
    rw [hsrc.nmemb_eq]
    omega
  have hat : arrayAt src i A s = .ok (some (src.relativeData i), s) := by
    simp [arrayAt, bind_run, notifyBugOn, hguard]
  have hread := readOf_ok (A := A) hb hin s
  rw [hwin] at hread
  refine (bind_ok hat).trans ((bind_ok hread).trans ?_)
  by_cases hcall : callback m[i] = true
  · simp only [hcall, if_true]
  · simp only [hcall]
    rfl

/-- What the loop of `array_filter` has done when it returns, from `l` on with the elements
`rest` to be pushed: they are all copied, and every doubling they need was granted; or one
was not, and at least one element had been copied. -/
def Fills (A : Allocator) (src : ArrayT) (k : ℕ) (l rest : List Bytes) (j : ℕ) (ok : Bool)
    (s : ArrSt) : Prop :=
  (ok = true ∧ (∃ i, Filling src k (l ++ rest) i s) ∧
      ∀ d, j ≤ d → roomAfter d ≤ l.length + rest.length → CanDouble A k src.eltSize d) ∨
    (ok = false ∧ (∃ l', l' ≠ [] ∧ Abandoned src l' s) ∧
      ∃ d, roomAfter d ≤ l.length + rest.length ∧ ¬ CanDouble A k src.eltSize d)

/-- A push that went through belongs to the rest. -/
theorem Fills.cons {rest : List Bytes} {i : ℕ} {ok : Bool}
    (h : Fills A src k (l ++ [e]) rest i ok s)
    (hi : i = j ∨ i = j + 1 ∧ CanDouble A k src.eltSize j) :
    Fills A src k l (e :: rest) j ok s := by
  have hlen : l.length + (e :: rest).length = (l ++ [e]).length + rest.length := by
    simp only [List.length_append, List.length_cons, List.length_nil]
    omega
  rcases h with ⟨rfl, ⟨i', hfilling⟩, hcan⟩ | ⟨rfl, hleft, d, hd, hcannot⟩
  · refine .inl ⟨rfl, ⟨i', by simpa using hfilling⟩, fun d hd hle => ?_⟩
    rw [hlen] at hle
    rcases hi with rfl | ⟨rfl, hdouble⟩
    · exact hcan d hd hle
    · rcases Nat.lt_or_eq_of_le hd with hlt | rfl
      · exact hcan d hlt hle
      · exact hdouble
  · exact .inr ⟨rfl, hleft, d, hlen ▸ hd, hcannot⟩

/-- **The loop** succeeds exactly when every doubling it needs is granted. -/
theorem filterLoop_fills (hsrc : Holds src m) (n i : ℕ) (hi : i + n ≤ m.length)
    (h : Filling src k l j s) :
    ∃ ok s', filterLoop src callback n i A s = .ok (ok, s') ∧
      Fills A src k l (((m.drop i).take n).filter callback) j ok s' := by
  induction n generalizing l j s i with
  | zero =>
      refine ⟨true, s, rfl, .inl ⟨rfl, ⟨j, by simpa using h⟩, fun d hd hle => ?_⟩⟩
      obtain ⟨a, -, hcopy⟩ := h.header
      have hfew := hcopy.few
      have hmono := roomAfter_mono hd
      simp only [List.take_zero, List.filter_nil, List.length_nil] at hle
      omega
  | succ n ih =>
      have hpos : i < m.length := by omega
      rw [filterLoop_round n hsrc hpos, take_drop_succ n hpos]
      by_cases hcall : callback m[i] = true
      · rw [if_pos hcall, List.filter_cons_of_pos hcall]
        have hwidth : m[i].length = src.eltSize := hsrc.uniform _ (List.getElem_mem hpos)
        rcases push_filling (A := A) h hwidth with
          ⟨s₁, j₁, hpush, hfilling, hj⟩ | ⟨hcannot, hfull, s₁, hpush, habandoned⟩
        · obtain ⟨ok, s', hrun, hfills⟩ := ih (i + 1) (by omega) hfilling
          exact ⟨ok, s', (bind_ok hpush).trans hrun, hfills.cons hj⟩
        · refine ⟨false, s₁, bind_ok hpush, .inr ⟨rfl, ⟨l, ?_, habandoned⟩, j, ?_, hcannot⟩⟩
          · rintro rfl
            have hmin := le_roomAfter j
            simp only [arrayInitialSize, List.length_nil] at hmin hfull
            omega
          · rw [List.length_cons]
            omega
      · rw [if_neg hcall, List.filter_cons_of_neg hcall]
        exact ih (i + 1) (by omega) h

end Loop

/-! ### The call -/

/-- What a caller of `array_filter` relies on. The call gives a new array with the elements
that pass the callback, or `NULL`. Either way nothing is handed to the destructor, and only
buffers that the call was granted itself are reallocated or released. -/
def FilterKeeps (A : Allocator) (src : ArrayT) (callback : Bytes → Bool) (k : ℕ) : Prop :=
  ∃ r s, arrayFilter src callback A ⟨none, k, []⟩ = .ok (r, s) ∧
    (r = .null ∨ r = .header ∧ ∃ b, s.arr = some b ∧ Holds b (src.elements.filter callback) ∧
      b.eltSize = src.eltSize ∧ b.free = src.free) ∧
    destroyed s.trace = [] ∧ ∀ e ∈ s.trace, NewOnly k e

/-- The initial byte count passes the guard of `array_create`, and then: the header is refused;
or the buffer is granted, and, where there is a destructor, so is every doubling that the
elements to be copied need. -/
def FilterSafe (A : Allocator) (src : ArrayT) (callback : Bytes → Bool) (k : ℕ) : Prop :=
  safeToMul src.eltSize arrayInitialSize = true ∧
    (A.serves k headerSize = false ∨
      A.serves (k + 1) (src.eltSize * arrayInitialSize) = true ∧
        (src.free = false ∨ ∀ j, roomAfter j ≤ (src.elements.filter callback).length →
          CanDouble A k src.eltSize j))

section Filter

variable {A : Allocator} {src : ArrayT} {callback : Bytes → Bool} {k : ℕ}

/-- The byte count of a new array of `ARRAY_INITIAL_SIZE` elements needs no rounding. -/
theorem initCap_initial {eltSize : ℕ} (h : safeToMul eltSize arrayInitialSize = true) :
    initCap eltSize arrayInitialSize = eltSize * arrayInitialSize := by
  have hle := safeToMul_iff.mp h
  have hmul : initCap eltSize arrayInitialSize = sizeAlign (szMul eltSize arrayInitialSize) := rfl
  rw [hmul, szMul_eq hle]
  simp only [sizeAlign, szAdd, szSub, ptrSize, arrayInitialSize, sizeMax] at *
  omega

/-- The loop starts with nothing copied. -/
theorem filling_created {t : List Event} (hsrc : Holds src src.elements)
    (hsafe : safeToMul src.eltSize arrayInitialSize = true)
    (hbuf : A.serves (k + 1) (src.eltSize * arrayInitialSize) = true) (ht : destroyed t = []) :
    Filling src k [] 0
      ⟨some (createdArray A k src.eltSize arrayInitialSize src.free), k + 2, t⟩ := by
  rw [← initCap_initial hsafe] at hbuf
  refine ⟨⟨_, rfl, holds_createdArray hsrc.elt_pos hbuf, rfl, rfl, rfl, ?_, by decide⟩, rfl, ht⟩
  exact (initCap_initial hsafe).trans (by rw [roomAfter, Nat.pow_zero, Nat.mul_one])

/-- The guard of `array_create` fires. -/
theorem arrayFilter_bug (hsrc : Holds src src.elements)
    (hwraps : ¬ safeToMul src.eltSize arrayInitialSize = true) :
    arrayFilter src callback A ⟨none, k, []⟩ = .error .bug := by
  have hne : (src.eltSize == 0) = false := by simpa using Nat.ne_of_gt hsrc.elt_pos
  have hbug : arrayCreate src.eltSize arrayInitialSize src.free A ⟨none, k, []⟩ =
      .error .bug := by
    rw [arrayCreate, guard_run hne, Bool.eq_false_of_not_eq_true hwraps]
    rfl
  rw [arrayFilter, bind_run, hbug]

/-- The header is refused. -/
theorem filter_headless (hsrc : Holds src src.elements)
    (hsafe : safeToMul src.eltSize arrayInitialSize = true)
    (hhead : A.serves k headerSize = false) : FilterKeeps A src callback k := by
  have hcreate : arrayCreate src.eltSize arrayInitialSize src.free A ⟨none, k, []⟩ = _ :=
    arrayCreate_eq hsrc.elt_pos hsafe
  rw [if_pos hhead] at hcreate
  exact ⟨.null, _, bind_ok hcreate, .inl rfl, rfl, by simp⟩

/-- The buffer is refused: `array_create` hands out the header it has released. -/
theorem filter_bufferless (hsrc : Holds src src.elements)
    (hsafe : safeToMul src.eltSize arrayInitialSize = true)
    (hhead : A.serves k headerSize = true)
    (hbuf : A.serves (k + 1) (src.eltSize * arrayInitialSize) = false) :
    ¬ FilterKeeps A src callback k := by
  have hcreate : arrayCreate src.eltSize arrayInitialSize src.free A ⟨none, k, []⟩ = _ :=
    arrayCreate_eq hsrc.elt_pos hsafe
  rw [initCap_initial hsafe, hhead, if_neg (by simp), if_pos hbuf] at hcreate
  rintro ⟨r, s, hrun, hresult, -⟩
  have hfill : fillOrKill (filterLoop src callback src.nmemb 0) A ⟨none, k + 2, []⟩ = .ok (r, s) :=
    (bind_ok hcreate).symm.trans hrun
  have hreleased :
      (∃ e, filterLoop src callback src.nmemb 0 A ⟨none, k + 2, []⟩ = .error e) ∨ _ :=
    filterLoop_released src.nmemb 0
  rcases hreleased with ⟨e, he⟩ | hok
  · rw [fillOrKill, bind_run, he] at hfill
    cases hfill
  · rw [fillOrKill, bind_ok hok] at hfill
    cases hfill
    rcases hresult with hnull | ⟨-, b, hb, -⟩
    · cases hnull
    · cases hb

/-- The new array is there: either every element that passes is copied, and every doubling that
takes was granted; or one was not, and the copies made so far, of which there are some, are torn
down, destroyed where there is a destructor. -/
theorem filter_copies (hsrc : Holds src src.elements)
    (hsafe : safeToMul src.eltSize arrayInitialSize = true)
    (hhead : A.serves k headerSize = true)
    (hbuf : A.serves (k + 1) (src.eltSize * arrayInitialSize) = true) :
    (FilterKeeps A src callback k ∧ ∀ j, roomAfter j ≤ (src.elements.filter callback).length →
        CanDouble A k src.eltSize j) ∨
      ∃ d s, roomAfter d ≤ (src.elements.filter callback).length ∧
        ¬ CanDouble A k src.eltSize d ∧
        arrayFilter src callback A ⟨none, k, []⟩ = .ok (.null, s) ∧
        (destroyed s.trace = [] ↔ src.free = false) ∧ ∀ e ∈ s.trace, NewOnly k e := by
  have hcreate : arrayCreate src.eltSize arrayInitialSize src.free A ⟨none, k, []⟩ = _ :=
    arrayCreate_eq hsrc.elt_pos hsafe
  rw [initCap_initial hsafe, hhead, if_neg (by simp), hbuf, if_neg (by simp)] at hcreate
  have hrun : ∀ {r s}, fillOrKill (filterLoop src callback src.nmemb 0) A
      ⟨some (createdArray A k src.eltSize arrayInitialSize src.free), k + 2, []⟩ = .ok (r, s) →
        arrayFilter src callback A ⟨none, k, []⟩ = .ok (r, s) :=
    fun h => (bind_ok hcreate).trans h
  have hfilling := filling_created (t := []) hsrc hsafe hbuf rfl
  have hrange : 0 + src.nmemb ≤ src.elements.length := by rw [Nat.zero_add, hsrc.nmemb_eq]
  obtain ⟨ok, s, hloop, hfills⟩ : ∃ ok s', filterLoop src callback src.nmemb 0 A _ = _ ∧ _ :=
    filterLoop_fills hsrc src.nmemb 0 hrange hfilling
  have hall : ((src.elements.drop 0).take src.nmemb).filter callback
      = src.elements.filter callback := by
    rw [List.drop_zero, List.take_of_length_le (by rw [hsrc.nmemb_eq])]
  rw [hall] at hfills
  rcases hfills with
    ⟨rfl, ⟨i, hfilling⟩, hcan⟩ | ⟨rfl, ⟨l', hne, habandoned⟩, d, hd, hcannot⟩
  · -- every element that passes has been copied
    obtain ⟨b, hb, hholds, helt, hfree, -⟩ := hfilling.header
    have hdone := hrun (bind_ok hloop)
    have hmade := Construction.run_madeFresh (.filter src callback) hdone
    refine .inl ⟨?_, fun j hj => hcan j (Nat.zero_le _) (by simpa using hj)⟩
    exact ⟨.header, s, hdone, .inr ⟨rfl, b, hb, hholds, helt, hfree⟩, hfilling.kept,
      hmade.events⟩
  · -- a doubling failed, and the copy is torn down
    obtain ⟨b, hb, hholds, hfree⟩ := habandoned.header
    obtain ⟨arr, calls, trace⟩ := s
    obtain rfl : arr = some b := hb
    obtain ⟨ev, hkill, hev⟩ := arrayKill_run (A := A) hholds calls trace
    have hnull := hrun ((bind_ok hloop).trans (bind_ok hkill))
    have hmade := Construction.run_madeFresh (.filter src callback) hnull
    have hgone : destroyed (trace ++ ev) = b.dropped l'.reverse := by
      rw [destroyed_append, habandoned.kept, hev, List.nil_append]
    refine .inr ⟨d, _, by simpa using hd, hcannot, hnull, ?_, hmade.events⟩
    rw [hgone, ArrayT.dropped, hfree]
    cases src.free <;> simp [hne]

/-- **When `array_filter` destroys nothing.** For every source, callback and allocator:
`array_filter` gives a new array with exactly the elements that pass, or `NULL`, and leaves the
source alone, exactly when the request is `FilterSafe`. -/
theorem filter_keeps_iff (hsrc : Holds src src.elements) :
    FilterKeeps A src callback k ↔ FilterSafe A src callback k := by
  by_cases hsafe : safeToMul src.eltSize arrayInitialSize = true
  swap
  · refine iff_of_false ?_ fun h => hsafe h.1
    rintro ⟨r, s, hrun, -⟩
    rw [arrayFilter_bug hsrc hsafe] at hrun
    cases hrun
  rw [FilterSafe, and_iff_right hsafe]
  cases hhead : A.serves k headerSize with
  | false => exact iff_of_true (filter_headless hsrc hsafe hhead) (.inl rfl)
  | true =>
      cases hbuf : A.serves (k + 1) (src.eltSize * arrayInitialSize) with
      | false =>
          refine iff_of_false (filter_bufferless hsrc hsafe hhead hbuf) ?_
          simp
      | true =>
          have hcopies : (FilterKeeps A src callback k ∧ _) ∨ _ :=
            filter_copies hsrc hsafe hhead hbuf
          rcases hcopies with ⟨hkeeps, hcan⟩ | ⟨d, s, hd, hcannot, hrun, hgone, hevents⟩
          · exact iff_of_true hkeeps (.inr ⟨rfl, .inr hcan⟩)
          · constructor
            · rintro ⟨r, s', hrun', -, hkept, -⟩
              rw [hrun] at hrun'
              cases hrun'
              exact .inr ⟨rfl, .inl (hgone.mp hkept)⟩
            · rintro (hno | ⟨-, hfree | hall⟩)
              · cases hno
              · exact ⟨.null, s, hrun, .inl rfl, hgone.mpr hfree, hevents⟩
              · exact absurd (hall d hd) hcannot

end Filter

/-- `array_filter` of two elements with a destructor, every request granted. -/
theorem filter_two_kept : FilterKeeps (.upTo 5) twoTriples (fun e => e == [1, 2, 3]) 1 := by
  refine (filter_keeps_iff holds_twoTriples).mpr ⟨by decide, .inr ⟨by decide, .inr ?_⟩⟩
  intro j hj
  -- one element does not fill the initial buffer
  have hmin := le_roomAfter j
  have hlen : (twoTriples.elements.filter fun e => e == [1, 2, 3]).length = 1 := by decide
  rw [hlen] at hj
  simp only [arrayInitialSize] at hmin
  omega

/-- An array of `n` elements of one byte, with a destructor. -/
def ownedBytes (n : ℕ) : ArrayT :=
  { ptr := .heap 0, block := some (List.replicate n 7), nmemb := n, cap := n, eltSize := 1,
    isOwnBuffer := true, settled := false, free := true }

/-- 64 elements that all pass, and an allocator that refuses the first doubling: `NULL` is
returned, and 63 elements have been destroyed. -/
theorem filter_destroys_copies :
    (arrayFilter (ownedBytes 64) (fun _ => true) (.upTo 3) ⟨none, 1, []⟩).toOption.map
        (fun r => (r.1, destroyed r.2.trace)) = some (.null, List.replicate 63 [7]) ∧
      ¬ ∀ (A : Allocator) (src : ArrayT) (callback : Bytes → Bool) (k : ℕ),
        Holds src src.elements → FilterKeeps A src callback k := by
  have hdestroyed : (arrayFilter (ownedBytes 64) (fun _ => true) (.upTo 3)
      ⟨none, 1, []⟩).toOption.map (fun r => (r.1, destroyed r.2.trace)) =
        some (.null, List.replicate 63 [7]) := by
    decide +kernel
  refine ⟨hdestroyed, fun h => ?_⟩
  have hsrc : Holds (ownedBytes 64) (ownedBytes 64).elements :=
    holds_elements (by decide) (by decide) rfl (by simp [ownedBytes]) (by decide)
  obtain ⟨r, s, hrun, -, hkept, -⟩ := h (.upTo 3) (ownedBytes 64) (fun _ => true) 1 hsrc
  rw [hrun] at hdestroyed
  simp [Except.toOption, hkept, List.replicate_succ] at hdestroyed

end Backd
