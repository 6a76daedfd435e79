import Backd.ArrayCreate

/-!
# Wiping and Swapping

`array_wipe` and `array_swap_elems`, on the list of elements. Both leave the list their
comment promises in all cases but one each, and both slips are in which bytes they touch:

* the destructor pass of `array_wipe` counts its positions from zero, and not from
  `start`, so it is handed elements that stay in the array;
* `array_swap_elems` exchanges two elements by exclusive ors in place, which clears an
  element that is exchanged with itself.

## Main results

* `arrayWipe_returns`: the list `array_wipe` leaves, and the elements it destroys.
* `wipe_exact_iff`: when these are the elements it removes.
* `swapLoop_apart`, `swapLoop_self`: the byte loop on two ranges, and on one.
* `swap_involutive_iff`: when `array_swap_elems` exchanges, and undoes itself.
-/

namespace Backd

open Splice

section Specs

variable {A : Allocator} {a : ArrayT} {l : List Bytes}

/-! ### Wiping -/

/-- The destructor pass of `array_wipe`: the `n` elements from position `i` on. -/
theorem wipeLoop_returns (h : Holds a l) (n i : ℕ) (hi : i + n ≤ l.length) :
    Returns A a (wipeLoop n i) fun _ b ev => b = a ∧ Tame ((l.drop i).take n) ev := by
  induction n generalizing i with
  | zero => exact Returns.pure ⟨rfl, tame_nil⟩
  | succ n ih =>
      have hlt : i < l.length := by omega
      refine Returns.bind (P := fun _ b ev => b = a ∧ ev = [.destroy l[i]])
        (fun k t => .inr ⟨(), a, k, _, callFree_run (h.slot hlt) k t, rfl, rfl⟩) ?_
      rintro - b ev ⟨rfl, rfl⟩
      refine (ih (i + 1) (by omega)).mono ?_
      rintro - c ev ⟨rfl, hev⟩
      refine ⟨rfl, ?_⟩
      rw [List.drop_eq_getElem_cons hlt, List.take_succ_cons]
      exact (tame_destroy l[i]).append hev

/-- The part of `array_wipe` before the elements are moved: the first `n` elements go to
the destructor. -/
theorem wipePass_returns (h : Holds a l) {n : ℕ} (hn : n ≤ l.length) :
    Returns A a (runIf (a.free = true) (wipeLoop n 0)) fun _ b ev =>
      b = a ∧ Tame (a.dropped (l.take n)) ev := by
  refine Returns.runIf (fun hfree => ?_) fun hfree => ?_
  · simpa [ArrayT.dropped, hfree] using wipeLoop_returns (A := A) h n 0 (by omega)
  · exact ⟨rfl, by simpa [ArrayT.dropped, hfree] using tame_nil⟩

/-- **`array_wipe`** leaves the elements before `start` and those from `stop` on. The
destructor is handed as many elements as are removed, but the first of the array. -/
theorem arrayWipe_returns (h : Holds a l) {start stop : ℕ} (hstop : stop ≤ l.length) :
    Returns A a (arrayWipe start stop) fun _ b ev =>
      start ≤ stop ∧ Becomes a (l.take start ++ l.drop stop) b ∧
        Tame (a.dropped (l.take (stop - start))) ev := by
  have hfit := h.bytes_le
  have hcap := h.cap_le_sizeMax
  have hlen := h.length_le
  refine Returns.header (Returns.guard fun hle => ?_)
  have hle : start ≤ stop := by simpa [safeToSub_iff] using hle
  refine Returns.diff (Returns.guard fun _ => Returns.diff ?_)
  rw [szSub_eq hle (by omega)]
  refine Returns.bind (wipePass_returns h (by omega)) ?_
  rintro - b ev ⟨rfl, hev⟩
  have hstart : start ≤ b.nmemb := by
    rw [h.nmemb_eq]
    omega
  refine Returns.diff (Returns.diff ?_)
  have hrest : szSub b.nmemb start = l.length - start := by
    rw [h.nmemb_eq, szSub_eq (by omega) (by omega)]
  have htail : szSub (l.length - start) (stop - start) = l.length - stop := by
    rw [szSub_eq (by omega) (by omega)]
    omega
  have hbytes : szMul (l.length - stop) b.eltSize = b.eltSize * (l.length - stop) := by
    have := h.offset_le (Nat.sub_le l.length stop)
    rw [szMul_eq (by rw [Nat.mul_comm]; omega), Nat.mul_comm]
  have hbehind := (gap_range (n := 0) b.eltSize hstop).1
  have hbefore := Nat.mul_le_mul_left b.eltSize hle
  obtain ⟨bs, hb, hblen, -⟩ := h.exists_block
  rw [hrest, htail, hbytes, h.relativeData_eq (by omega), h.relativeData_eq hstop]
  refine Returns.bind (Returns.moveBlock (P := fun _ c ev' => c = { b with
    block := some (overwrite bs (b.eltSize * start)
      (window bs (b.eltSize * stop) (b.eltSize * (l.length - stop)))) } ∧ ev' = [])
    hb (by omega) (by omega) ⟨rfl, rfl⟩) ?_
  rintro - c ev' ⟨rfl, rfl⟩
  have hsize : szSub b.nmemb (stop - start) = l.length - (stop - start) := by
    rw [h.nmemb_eq, szSub_eq (by omega) (by omega)]
  refine Returns.header (Returns.diff (Returns.storeLast ⟨hle, ?_, ?_⟩))
  · rw [hsize]
    exact (h.eraseRange hb hblen hle hstop).becomes
  · have hn : stop - start ≤ b.nmemb := by
      rw [h.nmemb_eq]
      omega
    have hrear : Tame [] (.diff b.nmemb start ::
        .diff (l.length - start) (stop - start) :: ([] ++ [.diff b.nmemb (stop - start)])) :=
      ((tame_nil.diff hn).diff (by omega)).diff hstart
    have hall := ((hev.append hrear).diff hle).diff hle
    rwa [List.append_nil] at hall

theorem unguarded_wipeLoop (n i : ℕ) : Unguarded (wipeLoop n i) := by
  induction n generalizing i with
  | zero => exact .pure _
  | succ n ih => exact (unguarded_callFree i).bind fun _ => ih (i + 1)

/-- The guards of `array_wipe` admit a range of the array. -/
theorem arrayWipe_admitted {start stop k : ℕ} {t : List Event} (hle : start ≤ stop)
    (hstop : stop ≤ a.nmemb) (hmax : stop ≤ sizeMax) :
    arrayWipe start stop A ⟨some a, k, t⟩ ≠ .error .bug := by
  have hsub : (!safeToSub stop start) = false := by simpa [safeToSub_iff] using hle
  have hin : decide (a.nmemb < szSub stop start) = false := by
    rw [szSub_eq hle hmax, decide_eq_false_iff_not]
    omega
  have hrest : ∀ n, Unguarded (do
      runIf (a.free = true) (wipeLoop n 0)
      let tail ← diff a.nmemb start
      let tail ← diff tail n
      moveBlock (a.relativeData start) (a.relativeData stop) (szMul tail a.eltSize)
      let self ← header
      let size ← diff self.nmemb n
      store fun self => { self with nmemb := size }) := by
    intro n
    refine (unguarded_wipeLoop n 0).runIf.bind fun _ => ?_
    refine (unguarded_diff _ _).bind fun _ => (unguarded_diff _ _).bind fun _ => ?_
    refine (unguarded_moveBlock _ _ _).bind fun _ => unguarded_header.bind fun _ => ?_
    exact (unguarded_diff _ _).bind fun _ => unguarded_store _
  intro hbug
  refine hrest (szSub stop start) A ⟨some a, k, t ++ [.diff stop start] ++
    [.diff stop start]⟩ ?_
  rw [← hbug]
  symm
  calc arrayWipe start stop A ⟨some a, k, t⟩ = _ := guard_run (f := fun _ => _) hsub
    _ = _ := guard_run (f := fun _ => _) hin

/-! ### Swapping -/

/-- One byte is combined with another. -/
theorem xorByte_returns {bs : Bytes} {p q : ℕ} {x y : UInt8}
    {Q : Unit → ArrayT → List Event → Prop} (hb : a.block = some bs) (hx : bs[p]? = some x)
    (hy : bs[q]? = some y)
    (h : Q () { a with block := some (bs.set p (x ^^^ y)) } []) :
    Returns A a (xorByte p q) Q := by
  obtain ⟨hp, rfl⟩ := List.getElem?_eq_some_iff.mp hx
  obtain ⟨hq, rfl⟩ := List.getElem?_eq_some_iff.mp hy
  have hone : ∀ {i : ℕ} (hi : i < bs.length), window bs i 1 = [bs[i]] := by
    intro i hi
    rw [window, List.drop_eq_getElem_cons hi, List.take_succ_cons, List.take_zero]
  refine Returns.readBlock hb (by omega) (Returns.readBlock hb (by omega) ?_)
  rw [hone hp, hone hq]
  refine Returns.writeBlock hb (by simpa using Nat.succ_le_of_lt hp) ?_
  have hset : overwrite bs p [bs[p] ^^^ bs[q]] = bs.set p (bs[p] ^^^ bs[q]) := by
    rw [List.set_eq_take_append_cons_drop, if_pos hp]
    simp [overwrite]
  rw [List.zipWith_cons_cons, List.zipWith_nil_left, hset]
  exact h

/-- The loop, with the block it leaves as a postcondition. -/
def SwapsTo (A : Allocator) (a : ArrayT) (n p q : ℕ) (bs : Bytes) : Prop :=
  Returns A a (swapLoop n p q) fun _ b ev => b = { a with block := some bs } ∧ ev = []

/-- Three exclusive ors exchange two bytes at different places. -/
theorem swapLoop_step {bs cs : Bytes} {n p q : ℕ} {x y : UInt8} (hb : a.block = some bs)
    (hx : bs[p]? = some x) (hy : bs[q]? = some y) (hne : p ≠ q)
    (h : SwapsTo A { a with block := some ((bs.set p y).set q x) } n (p + 1) (q + 1) cs) :
    SwapsTo A a (n + 1) p q cs := by
  have hp : p < bs.length := (List.getElem?_eq_some_iff.mp hx).1
  have hq : q < bs.length := (List.getElem?_eq_some_iff.mp hy).1
  have hback : y ^^^ (x ^^^ y) = x := by
    rw [UInt8.xor_comm x y, ← UInt8.xor_assoc, UInt8.xor_self, UInt8.zero_xor]
  have hforth : (x ^^^ y) ^^^ x = y := by
    rw [UInt8.xor_comm x y, UInt8.xor_assoc, UInt8.xor_self, UInt8.xor_zero]
  refine Returns.bind (xorByte_returns (Q := fun _ b ev =>
    b = { a with block := some (bs.set p (x ^^^ y)) } ∧ ev = []) hb hx hy ⟨rfl, rfl⟩) ?_
  rintro - b ev ⟨rfl, rfl⟩
  refine Returns.bind (xorByte_returns (p := q) (q := p) (x := y) (y := x ^^^ y)
    (Q := fun _ b ev => b = { a with
      block := some ((bs.set p (x ^^^ y)).set q x) } ∧ ev = []) rfl ?_ ?_ ?_) ?_
  · rwa [List.getElem?_set_ne hne]
  · exact List.getElem?_set_self hp
  · rw [hback]
    exact ⟨rfl, rfl⟩
  rintro - b ev ⟨rfl, rfl⟩
  refine Returns.bind (xorByte_returns (p := p) (q := q) (x := x ^^^ y) (y := x)
    (Q := fun _ b ev => b = { a with block := some ((bs.set p y).set q x) } ∧ ev = [])
    rfl ?_ ?_ ?_) ?_
  · rw [List.getElem?_set_ne hne.symm]
    exact List.getElem?_set_self hp
  · exact List.getElem?_set_self (by simpa using hq)
  · rw [hforth, List.set_comm _ _ hne.symm, List.set_set]
    exact ⟨rfl, rfl⟩
  rintro - b ev ⟨rfl, rfl⟩
  exact h

/-- Three exclusive ors clear a byte that is combined with itself. -/
theorem swapLoop_step_self {bs cs : Bytes} {n p : ℕ} (hb : a.block = some bs)
    (hp : p < bs.length)
    (h : SwapsTo A { a with block := some (bs.set p 0) } n (p + 1) (p + 1) cs) :
    SwapsTo A a (n + 1) p p cs := by
  have hx : bs[p]? = some bs[p] := List.getElem?_eq_getElem hp
  refine Returns.bind (xorByte_returns (Q := fun _ b ev =>
    b = { a with block := some (bs.set p 0) } ∧ ev = []) hb hx hx ?_) ?_
  · rw [UInt8.xor_self]
    exact ⟨rfl, rfl⟩
  rintro - b ev ⟨rfl, rfl⟩
  have hzero : (bs.set p 0)[p]? = some 0 := List.getElem?_set_self hp
  have hagain : ∀ f : Unit → ArrM Unit,
      Returns A { a with block := some (bs.set p 0) } (f ()) (fun _ b ev =>
        b = { a with block := some cs } ∧ ev = []) →
      Returns A { a with block := some (bs.set p 0) } (xorByte p p >>= f) fun _ b ev =>
        b = { a with block := some cs } ∧ ev = [] := by
    intro f hf
    refine Returns.bind (xorByte_returns (Q := fun _ b ev =>
      b = { a with block := some (bs.set p 0) } ∧ ev = []) rfl hzero hzero ?_) ?_
    · rw [UInt8.xor_self, List.set_set]
      exact ⟨rfl, rfl⟩
    rintro - b ev ⟨rfl, rfl⟩
    exact hf
  exact hagain _ (hagain _ h)

/-- **Two ranges that are apart are exchanged**, whichever of them comes first. -/
theorem swapLoop_apart {u x v y w : Bytes} {p q : ℕ}
    (hb : a.block = some (u ++ x ++ v ++ y ++ w)) (hlen : x.length = y.length)
    (hpq : p = u.length ∧ q = (u ++ x ++ v).length ∨
      q = u.length ∧ p = (u ++ x ++ v).length) :
    SwapsTo A a x.length p q (u ++ y ++ v ++ x ++ w) := by
  induction x generalizing a u v y p q with
  | nil =>
      obtain rfl : y = [] := List.eq_nil_of_length_eq_zero hlen.symm
      refine Returns.pure ⟨?_, rfl⟩
      rw [← hb]
  | cons b x ih =>
      cases y with
      | nil => cases hlen
      | cons c y =>
          have hfront : (u ++ b :: x ++ v ++ c :: y ++ w)[u.length]? = some b := by simp
          have hback : (u ++ b :: x ++ v ++ c :: y ++ w)[(u ++ b :: x ++ v).length]? =
              some c := by
            rw [List.append_assoc (u ++ b :: x ++ v), List.getElem?_append_right (Nat.le_refl _)]
            simp
          have hnext : ((u ++ b :: x ++ v ++ c :: y ++ w).set u.length c).set
              (u ++ b :: x ++ v).length b =
              (u ++ [c]) ++ x ++ (v ++ [b]) ++ y ++ w := by
            simp
          have hne : u.length ≠ (u ++ b :: x ++ v).length := by
            simp only [List.length_append, List.length_cons]
            omega
          have hsucc : (u ++ b :: x ++ v).length + 1 = ((u ++ [c]) ++ x ++ (v ++ [b])).length := by
            simp only [List.length_append, List.length_cons, List.length_nil]
            omega
          have hresult : u ++ c :: y ++ v ++ b :: x ++ w =
              (u ++ [c]) ++ y ++ (v ++ [b]) ++ x ++ w := by simp
          rw [hresult]
          rcases hpq with ⟨rfl, rfl⟩ | ⟨rfl, rfl⟩
          · refine swapLoop_step hb hfront hback hne ?_
            rw [hnext]
            exact ih rfl (by simpa using hlen) (.inl ⟨by simp, hsucc⟩)
          · refine swapLoop_step hb hback hfront hne.symm ?_
            rw [List.set_comm _ _ hne.symm, hnext]
            exact ih rfl (by simpa using hlen) (.inr ⟨by simp, hsucc⟩)

/-- **A range exchanged with itself is cleared.** -/
theorem swapLoop_self {u x w : Bytes} (hb : a.block = some (u ++ x ++ w)) :
    SwapsTo A a x.length u.length u.length (u ++ List.replicate x.length 0 ++ w) := by
  induction x generalizing a u with
  | nil =>
      refine Returns.pure ⟨?_, rfl⟩
      change a = { a with block := some (u ++ [] ++ w) }
      rw [← hb]
  | cons b x ih =>
      have hnext : (u ++ b :: x ++ w).set u.length 0 = (u ++ [0]) ++ x ++ w := by simp
      have hlen : (u ++ [0]).length = u.length + 1 := by simp
      refine swapLoop_step_self hb (by simp) ?_
      rw [hnext]
      have key := ih (a := { a with block := some ((u ++ [0]) ++ x ++ w) }) (u := u ++ [0]) rfl
      rw [hlen] at key
      simpa [List.replicate_succ] using key

/-- The list with the elements at two positions exchanged. -/
def exchanged (l : List Bytes) (i j : ℕ) : List Bytes :=
  (l.set i (l.getD j [])).set j (l.getD i [])

theorem exchanged_comm (l : List Bytes) {i j : ℕ} (hne : i ≠ j) :
    exchanged l i j = exchanged l j i :=
  List.set_comm _ _ hne

theorem exchanged_append (f m r : List Bytes) (x y : Bytes) :
    exchanged (f ++ x :: (m ++ y :: r)) f.length (f.length + (m.length + 1)) =
      f ++ y :: (m ++ x :: r) := by
  simp [exchanged]

/-- A list with one position picked out. -/
theorem exists_at {i : ℕ} (hi : i < l.length) : ∃ f x r, l = f ++ x :: r ∧ i = f.length :=
  ⟨l.take i, l[i], l.drop (i + 1), by simp, (List.length_take_of_le (Nat.le_of_lt hi)).symm⟩

/-- A list with two positions picked out. -/
theorem exists_apart {i j : ℕ} (hij : i < j) (hj : j < l.length) :
    ∃ f m r x y, l = f ++ x :: (m ++ y :: r) ∧ i = f.length ∧ j = f.length + (m.length + 1) := by
  obtain ⟨f, x, rest, rfl, rfl⟩ := exists_at (Nat.lt_trans hij hj)
  have hrest : j - (f.length + 1) < rest.length := by
    simp only [List.length_append, List.length_cons] at hj
    omega
  obtain ⟨m, y, r, rfl, hm⟩ := exists_at hrest
  exact ⟨f, m, r, x, y, rfl, rfl, by omega⟩

/-- The call on two positions, in terms of the cells around them. -/
theorem arraySwapElems_cells {f m r : List Bytes} {x y w : Bytes}
    (h : Holds a (f ++ x :: (m ++ y :: r)))
    (hb : a.block = some (f.flatten ++ x ++ m.flatten ++ y ++ w)) {i j : ℕ}
    (hij : i = f.length ∧ j = f.length + (m.length + 1) ∨
      j = f.length ∧ i = f.length + (m.length + 1)) :
    Returns A a (arraySwapElems i j) fun _ b ev =>
      b = { a with block := some (f.flatten ++ y ++ m.flatten ++ x ++ w) } ∧ ev = [] := by
  have hlt : f.length + (m.length + 1) < (f ++ x :: (m ++ y :: r)).length := by
    simp only [List.length_append, List.length_cons]
    omega
  have hi : i < (f ++ x :: (m ++ y :: r)).length := by omega
  have hj : j < (f ++ x :: (m ++ y :: r)).length := by omega
  have hu := h.uniform
  simp only [uniform_append, uniform_cons] at hu
  obtain ⟨hf, hx, hm, hy, -⟩ := hu
  have hfront : f.flatten.length = a.eltSize * f.length := hf.length_flatten
  have hback : (f.flatten ++ x ++ m.flatten).length =
      a.eltSize * (f.length + (m.length + 1)) := by
    rw [List.length_append, List.length_append, hfront, hx, hm.length_flatten]
    ring
  refine Returns.header (Returns.guard fun _ => Returns.guard fun _ => ?_)
  rw [h.relativeData_eq (Nat.le_of_lt hi), h.relativeData_eq (Nat.le_of_lt hj)]
  have key := swapLoop_apart (A := A) (p := a.eltSize * i) (q := a.eltSize * j) hb
    (hx.trans hy.symm) ?_
  · rwa [SwapsTo, hx] at key
  · rw [hfront, hback]
    rcases hij with ⟨rfl, rfl⟩ | ⟨rfl, rfl⟩
    · exact .inl ⟨rfl, rfl⟩
    · exact .inr ⟨rfl, rfl⟩

/-- **`array_swap_elems` on two positions** leaves them exchanged; and called again, it
leaves what was there before. -/
theorem arraySwapElems_apart (h : Holds a l) {i j : ℕ} (hi : i < l.length)
    (hj : j < l.length) (hne : i ≠ j) :
    ∃ b, Becomes a (exchanged l i j) b ∧
      (Returns A a (arraySwapElems i j) fun _ c ev => c = b ∧ ev = []) ∧
      Returns A b (arraySwapElems i j) fun _ c ev => c = a ∧ ev = [] := by
  obtain ⟨f, m, r, x, y, rfl, hij⟩ : ∃ f m r x y, l = f ++ x :: (m ++ y :: r) ∧
      (i = f.length ∧ j = f.length + (m.length + 1) ∨
        j = f.length ∧ i = f.length + (m.length + 1)) := by
    rcases Nat.lt_or_gt_of_ne hne with hlt | hlt
    · obtain ⟨f, m, r, x, y, hl, hij⟩ := exists_apart hlt hj
      exact ⟨f, m, r, x, y, hl, .inl hij⟩
    · obtain ⟨f, m, r, x, y, hl, hij⟩ := exists_apart hlt hi
      exact ⟨f, m, r, x, y, hl, .inr hij⟩
  have hexchanged : exchanged (f ++ x :: (m ++ y :: r)) i j = f ++ y :: (m ++ x :: r) := by
    rcases hij with ⟨rfl, rfl⟩ | ⟨rfl, rfl⟩
    · exact exchanged_append f m r x y
    · rw [exchanged_comm _ hne]
      exact exchanged_append f m r x y
  obtain ⟨bs, hb, hlen, hlays⟩ := h.exists_block
  obtain ⟨w, rfl, hlays'⟩ := hlays.exchange
  have hswapped : Holds { a with block := some (f.flatten ++ y ++ m.flatten ++ x ++ w) }
      (f ++ y :: (m ++ x :: r)) := by
    refine ⟨h.elt_pos, h.cap_le, ?_, _, rfl, ?_, hlays'⟩
    · simpa using h.nmemb_eq
    · simp only [List.length_append] at hlen ⊢
      omega
  refine ⟨_, ?_, arraySwapElems_cells h hb hij, ?_⟩
  · rw [hexchanged]
    exact hswapped.becomes
  · refine (arraySwapElems_cells hswapped rfl hij).mono ?_
    rintro - c ev ⟨rfl, rfl⟩
    refine ⟨?_, rfl⟩
    rw [← hb]

/-- **`array_swap_elems` on one position** clears the element. -/
theorem arraySwapElems_self (h : Holds a l) {i : ℕ} (hi : i < l.length) :
    ∃ b, Becomes a (l.set i (List.replicate a.eltSize 0)) b ∧
      (l[i] = List.replicate a.eltSize 0 → b = a) ∧
      Returns A a (arraySwapElems i i) fun _ c ev => c = b ∧ ev = [] := by
  obtain ⟨f, x, r, rfl, rfl⟩ := exists_at hi
  have hu := h.uniform
  simp only [uniform_append, uniform_cons] at hu
  obtain ⟨hf, hx, -⟩ := hu
  obtain ⟨bs, hb, hlen, hlays⟩ := h.exists_block
  obtain ⟨w, rfl, hlays'⟩ := hlays.replace (List.length_replicate (n := a.eltSize) (a := 0))
  have hset : (f ++ x :: r).set f.length (List.replicate a.eltSize 0) =
      f ++ List.replicate a.eltSize 0 :: r := by simp
  have hcleared : Holds { a with
      block := some (f.flatten ++ List.replicate a.eltSize 0 ++ w) }
      (f ++ List.replicate a.eltSize 0 :: r) := by
    refine ⟨h.elt_pos, h.cap_le, by simpa using h.nmemb_eq, _, rfl, ?_, hlays'⟩
    simp only [List.length_append, List.length_replicate, hx] at hlen ⊢
    exact hlen
  refine ⟨_, hset ▸ hcleared.becomes, ?_, ?_⟩
  · intro hzero
    obtain rfl : x = List.replicate a.eltSize 0 := by simpa using hzero
    rw [← hb]
  refine Returns.header (Returns.guard fun _ => Returns.guard fun _ => ?_)
  have key := swapLoop_self (A := A) hb
  rwa [SwapsTo, hx, hf.length_flatten, ← h.relativeData_eq (Nat.le_of_lt hi)] at key

/-- **`array_swap_elems`** on whatever positions: they are checked, and nothing is
recorded. -/
theorem arraySwapElems_returns (h : Holds a l) {i j : ℕ} :
    Returns A a (arraySwapElems i j) fun _ _ ev =>
      (i < l.length ∧ j < l.length) ∧ ev = [] := by
  by_cases hin : i < l.length ∧ j < l.length
  · obtain ⟨hi, hj⟩ := hin
    by_cases hij : i = j
    · subst hij
      obtain ⟨b, -, -, hrun⟩ := arraySwapElems_self (A := A) h hi
      exact hrun.mono fun _ _ _ hb => ⟨⟨hi, hj⟩, hb.2⟩
    · obtain ⟨b, -, hrun, -⟩ := arraySwapElems_apart (A := A) h hi hj hij
      exact hrun.mono fun _ _ _ hb => ⟨⟨hi, hj⟩, hb.2⟩
  · refine Returns.header (Returns.guard fun hi => Returns.guard fun hj => ?_)
    exact absurd ⟨by simpa [h.nmemb_eq] using hi, by simpa [h.nmemb_eq] using hj⟩ hin

theorem unguarded_swapLoop (n p q : ℕ) : Unguarded (swapLoop n p q) := by
  have hxor : ∀ p q, Unguarded (xorByte p q) := fun p q =>
    (unguarded_readBlock p 1).bind fun _ => (unguarded_readBlock q 1).bind fun _ =>
      unguarded_writeBlock p _
  induction n generalizing p q with
  | zero => exact .pure _
  | succ n ih =>
      exact (hxor p q).bind fun _ => (hxor q p).bind fun _ => (hxor p q).bind fun _ =>
        ih (p + 1) (q + 1)

/-- The guards of `array_swap_elems` admit positions of the array. -/
theorem arraySwapElems_admitted {i j k : ℕ} {t : List Event} (hi : i < a.nmemb)
    (hj : j < a.nmemb) : arraySwapElems i j A ⟨some a, k, t⟩ ≠ .error .bug := by
  intro hbug
  refine unguarded_swapLoop a.eltSize (a.relativeData i) (a.relativeData j) A
    ⟨some a, k, t⟩ ?_
  rw [← hbug]
  symm
  calc arraySwapElems i j A ⟨some a, k, t⟩
      = _ := guard_run (f := fun _ => _) (by simpa using hi)
    _ = _ := guard_run (f := fun _ => _) (by simpa using hj)

/-! ### When the two do what they are for -/

/-- `array_wipe` leaves the elements outside the range, and destroys those inside it, each
once. -/
def WipesRange (A : Allocator) (a : ArrayT) (l : List Bytes) (start stop k : ℕ)
    (t : List Event) : Prop :=
  ∃ b k' ev, arrayWipe start stop A ⟨some a, k, t⟩ = .ok ((), ⟨some b, k', t ++ ev⟩) ∧
    Becomes a (l.take start ++ l.drop stop) b ∧ b.nmemb = a.nmemb - (stop - start) ∧
    (destroyed ev).Perm ((l.drop start).take (stop - start))

/-- The run of an admitted `array_wipe`, on an array with a destructor. -/
theorem wipe_run {start stop : ℕ} (h : Holds a l) (hfree : a.free = true)
    (hle : start ≤ stop) (hstop : stop ≤ l.length) (k : ℕ) (t : List Event) :
    ∃ b k' ev, arrayWipe start stop A ⟨some a, k, t⟩ = .ok ((), ⟨some b, k', t ++ ev⟩) ∧
      Becomes a (l.take start ++ l.drop stop) b ∧ destroyed ev = l.take (stop - start) := by
  have hmax : stop ≤ sizeMax := by
    have := h.length_le
    have := h.cap_le_sizeMax
    omega
  obtain ⟨_, b, k', ev, hok, -, hb, hev⟩ := (arrayWipe_returns (A := A) h hstop).ok
    (arrayWipe_admitted (t := t) (k := k) hle (h.nmemb_eq ▸ hstop) hmax)
  refine ⟨b, k', ev, hok, hb, ?_⟩
  rw [hev.destroyed_eq, ArrayT.dropped, if_pos hfree]

/-- What is destroyed are the first elements, so these must be the ones removed. -/
theorem WipesRange.perm {start stop k : ℕ} {t : List Event}
    (hwipes : WipesRange A a l start stop k t) (h : Holds a l) (hfree : a.free = true)
    (hle : start ≤ stop) (hstop : stop ≤ l.length) :
    (l.take (stop - start)).Perm ((l.drop start).take (stop - start)) := by
  obtain ⟨b, k', ev, hok, -, hgone⟩ := wipe_run (A := A) h hfree hle hstop k t
  obtain ⟨c, k'', ev', hok', -, -, hperm⟩ := hwipes
  rw [hok] at hok'
  have hsame : t ++ ev = t ++ ev' := by
    simp only [Except.ok.injEq, Prod.mk.injEq, ArrSt.mk.injEq] at hok'
    exact hok'.2.2.2
  rwa [← List.append_cancel_left hsame, hgone] at hperm

/-- `array_swap_elems` exchanges the elements at two positions, and called again restores
the array. -/
def SwapsBack (A : Allocator) (a : ArrayT) (l : List Bytes) (i j k : ℕ) (t : List Event) :
    Prop :=
  ∃ b k' k'', arraySwapElems i j A ⟨some a, k, t⟩ = .ok ((), ⟨some b, k', t⟩) ∧
    Becomes a (exchanged l i j) b ∧
    arraySwapElems i j A ⟨some b, k', t⟩ = .ok ((), ⟨some a, k'', t⟩)

/-- Exchanging an element with itself clears it, so it must be all zeros. -/
theorem SwapsBack.zero {i k : ℕ} {t : List Event} (hswaps : SwapsBack A a l i i k t)
    (h : Holds a l) (hi : i < l.length) : l[i] = List.replicate a.eltSize 0 := by
  have hsame : exchanged l i i = l := by simp [exchanged, hi]
  obtain ⟨b, hb, -, hrun⟩ := arraySwapElems_self (A := A) h hi
  obtain ⟨_, _, k', ev, hok, rfl, rfl⟩ := hrun.ok (k := k) (t := t)
    (arraySwapElems_admitted (h.nmemb_eq ▸ hi) (h.nmemb_eq ▸ hi))
  obtain ⟨c, _, _, hok', hc, -⟩ := hswaps
  rw [hok] at hok'
  obtain rfl : _ = c := by
    simp only [Except.ok.injEq, Prod.mk.injEq, ArrSt.mk.injEq, Option.some.injEq] at hok'
    exact hok'.2.1
  -- the array holds the list with the element cleared, and the list as it was
  have hlists := hb.holds.elements_eq.symm.trans hc.holds.elements_eq
  rw [hsame] at hlists
  have hget := congrArg (fun m => m[i]?) hlists
  simpa [hi, eq_comm] using hget

/-- An element of zeros may be exchanged with itself. -/
theorem swapsBack_self {i : ℕ} (h : Holds a l) (hi : i < l.length)
    (hzero : l[i] = List.replicate a.eltSize 0) (k : ℕ) (t : List Event) :
    SwapsBack A a l i i k t := by
  obtain ⟨b, hb, hback, hrun⟩ := arraySwapElems_self (A := A) h hi
  obtain rfl := hback hzero
  have hcalls : ∀ k, arraySwapElems i i A ⟨some b, k, t⟩ ≠ .error .bug := fun k =>
    arraySwapElems_admitted (h.nmemb_eq ▸ hi) (h.nmemb_eq ▸ hi)
  obtain ⟨_, _, k', ev, hok, rfl, rfl⟩ := hrun.ok (hcalls k)
  obtain ⟨_, _, k'', ev, hok', rfl, rfl⟩ := hrun.ok (hcalls k')
  rw [List.append_nil] at hok hok'
  have hsame : exchanged l i i = l := by simp [exchanged, hi]
  exact ⟨_, k', k'', hok, hsame.symm ▸ h.becomes, hok'⟩

/-- Elements at different positions may be exchanged. -/
theorem swapsBack_apart {i j : ℕ} (h : Holds a l) (hi : i < l.length) (hj : j < l.length)
    (hne : i ≠ j) (k : ℕ) (t : List Event) : SwapsBack A a l i j k t := by
  obtain ⟨b, hb, hrun, hrun'⟩ := arraySwapElems_apart (A := A) h hi hj hne
  have hlen : b.nmemb = l.length := by
    rw [hb.holds.nmemb_eq]
    simp [exchanged]
  obtain ⟨_, _, k', ev, hok, rfl, rfl⟩ := hrun.ok (k := k) (t := t)
    (arraySwapElems_admitted (h.nmemb_eq ▸ hi) (h.nmemb_eq ▸ hj))
  obtain ⟨_, _, k'', ev, hok', rfl, rfl⟩ := hrun'.ok (k := k') (t := t)
    (arraySwapElems_admitted (hlen ▸ hi) (hlen ▸ hj))
  rw [List.append_nil] at hok hok'
  exact ⟨_, k', k'', hok, hb, hok'⟩

/-- **`array_swap_elems`** exchanges, and undoes itself, exactly when the positions differ
or the element is all zeros. -/
theorem swap_involutive_iff {i j k : ℕ} {t : List Event} (h : Holds a l)
    (hi : i < l.length) (hj : j < l.length) :
    SwapsBack A a l i j k t ↔ i ≠ j ∨ ∀ x ∈ l[i], x = 0 := by
  have hzeros : (∀ x ∈ l[i], x = 0) ↔ l[i] = List.replicate a.eltSize 0 := by
    rw [List.eq_replicate_iff]
    exact (and_iff_right (h.uniform _ (List.getElem_mem hi))).symm
  rw [hzeros]
  constructor
  · intro hswaps
    by_cases hij : i = j
    · subst hij
      exact .inr (hswaps.zero h hi)
    · exact .inl hij
  · rintro (hne | hzero)
    · exact swapsBack_apart h hi hj hne k t
    · by_cases hij : i = j
      · subst hij
        exact swapsBack_self h hi hzero k t
      · exact swapsBack_apart h hi hj hij k t

/-- Two elements are exchanged, and exchanged back. -/
theorem swap_two : SwapsBack (.upTo 0) twoTriples twoTriples.elements 0 1 0 [] :=
  (swap_involutive_iff holds_twoTriples (by decide) (by decide)).mpr (.inl (by decide))

/-- An element exchanged with itself is lost. -/
theorem swap_clears :
    ¬ ∀ (A : Allocator) (a : ArrayT) (l : List Bytes) (i j k : ℕ) (t : List Event),
      Holds a l → i < l.length → j < l.length → SwapsBack A a l i j k t := by
  intro h
  have hswaps := h (.upTo 0) twoTriples twoTriples.elements 0 0 0 [] holds_twoTriples
    (by decide) (by decide)
  exact absurd (hswaps.zero holds_twoTriples (by decide)) (by decide)

end Specs

end Backd
