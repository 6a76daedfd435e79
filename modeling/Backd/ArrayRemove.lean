import Mathlib.Data.List.Induction
import Backd.ArraySpec

/-!
# Operations that Remove

The specifications of `array_pop`, `array_popf`, `array_evict`, `array_clear` and
`array_kill`, and of the two operations that only set a flag. A removing operation leaves
an array that holds the shorter list, and hands exactly the removed elements to the
destructor, if the array has one (`ArrayT.dropped`).

`array_clear` and `array_kill` have no guard and are stated as equations. The loop of
`array_clear` ends by testing `_size(self)--` at zero, which wraps; the size is set
again behind the loop, so only the destructor calls of these two are described.
-/

namespace Backd

open Splice

/-- What the destructor sees when the elements `gone` leave the array. -/
def ArrayT.dropped (a : ArrayT) (gone : List Bytes) : List Bytes :=
  if a.free then gone else []

/-- The bytes of the buffer at position `p` are there and read `e`. The position may lie
behind the last element. -/
def Slot (a : ArrayT) (p : ℕ) (e : Bytes) : Prop :=
  ∃ bs, a.block = some bs ∧ a.relativeData p + a.eltSize ≤ bs.length ∧
    window bs (a.relativeData p) a.eltSize = e

section Specs

variable {A : Allocator} {a : ArrayT} {l : List Bytes} {p : ℕ} {e : Bytes}

/-- Every element is in its slot. -/
theorem Holds.slot (h : Holds a l) (hp : p < l.length) : Slot a p l[p] := by
  obtain ⟨bs, hb, hlen, hlays⟩ := h.exists_block
  have hoff := h.offset_le (Nat.succ_le_of_lt hp)
  rw [Nat.mul_succ] at hoff
  refine ⟨bs, hb, ?_, ?_⟩ <;> rw [h.relativeData_eq (Nat.le_of_lt hp)]
  · omega
  · exact hlays.cell hp

/-- The array without its last element. -/
theorem Holds.front {m : List Bytes} (h : Holds a (m ++ [e])) :
    Holds { a with nmemb := m.length } m := by
  obtain ⟨bs, hb, hlen, hlays⟩ := h.exists_block
  exact ⟨h.elt_pos, h.cap_le, rfl, bs, hb, hlen, hlays.front⟩

/-- The array without the elements from `start` to `stop`: those behind them moved
down. -/
theorem Holds.eraseRange {bs : Bytes} {start stop : ℕ} (h : Holds a l)
    (hb : a.block = some bs) (hlen : bs.length = a.cap) (hle : start ≤ stop)
    (hstop : stop ≤ l.length) :
    Holds { a with
      nmemb := l.length - (stop - start)
      block := some (overwrite bs (a.eltSize * start)
        (window bs (a.eltSize * stop) (a.eltSize * (l.length - stop)))) }
      (l.take start ++ l.drop stop) := by
  obtain ⟨bs', hb', -, hlays⟩ := h.exists_block
  obtain rfl : bs = bs' := Option.some.inj (hb.symm.trans hb')
  have htail : (l.drop start).take (stop - start) ++ l.drop stop = l.drop start := by
    have := List.take_append_drop (stop - start) (l.drop start)
    rwa [List.drop_drop, Nat.add_sub_cancel' hle] at this
  have hsplit : l = l.take start ++ (l.drop start).take (stop - start) ++ l.drop stop := by
    rw [List.append_assoc, htail, List.take_append_drop]
  have hfront : (l.take start).length = start := List.length_take_of_le (by omega)
  have hgone : ((l.drop start).take (stop - start)).length = stop - start := by
    rw [List.length_take, List.length_drop]
    omega
  rw [hsplit] at hlays
  have key := hlays.erase
  rw [hfront, hgone, Nat.add_sub_cancel' hle, List.length_drop] at key
  have hbefore := Nat.mul_le_mul_left a.eltSize hle
  have hfit := h.bytes_le
  have hbehind : a.eltSize * stop + a.eltSize * (l.length - stop) = a.eltSize * l.length := by
    rw [← Nat.mul_add, Nat.add_sub_cancel' hstop]
  refine ⟨h.elt_pos, h.cap_le, ?_, _, rfl, ?_, key⟩
  · simp only [List.length_append, hfront, List.length_drop]
    omega
  · rw [length_overwrite (by rw [length_window (by omega)]; omega), hlen]

/-- The array without the element at position `p`. -/
theorem Holds.eraseAt {bs : Bytes} {r : ℕ} (h : Holds a l) (hb : a.block = some bs)
    (hlen : bs.length = a.cap) (hr : l.length = p + 1 + r) :
    Holds { a with
      nmemb := p + r
      block := some (overwrite bs (a.eltSize * p)
        (window bs (a.eltSize * (p + 1)) (a.eltSize * r))) } (l.eraseIdx p) := by
  have key := h.eraseRange hb hlen (Nat.le_succ p) (by omega)
  have hcount : l.length - (p.succ - p) = p + r := by omega
  have hrest : l.length - p.succ = r := by omega
  rw [hcount, hrest] at key
  rwa [List.eraseIdx_eq_take_drop_succ]

/-- The size of a nonempty array, counted down. -/
theorem Holds.countDown {m : List Bytes} (h : Holds a (m ++ [e])) :
    szSub a.nmemb 1 = m.length := by
  have hn : a.nmemb = m.length + 1 := by simpa using h.nmemb_eq
  have hlen := h.length_le
  have hcap := h.cap_le_sizeMax
  simp only [List.length_append, List.length_singleton] at hlen
  rw [hn, szSub_eq (by omega) (by omega), Nat.add_sub_cancel]

/-- The destructor is handed what the slot holds. -/
theorem callFree_run (h : Slot a p e) (k : ℕ) (t : List Event) :
    callFree p A ⟨some a, k, t⟩ = .ok ((), ⟨some a, k, t ++ [.destroy e]⟩) := by
  obtain ⟨bs, hb, hin, rfl⟩ := h
  by_cases hlen : a.eltSize = 0
  · simp [callFree, bind_run, header, readBlock, readOf, emit, hlen]
  · simp [callFree, bind_run, header, readBlock, readOf, emit, hlen, hb, hin]

/-- An element is dropped: the destructor is called where there is one. -/
theorem dropElement_returns (h : Slot a p e) :
    Returns A a (runIf (a.free = true) (callFree p)) fun _ b ev =>
      b = a ∧ Tame (a.dropped [e]) ev := by
  refine Returns.runIf (fun hfree => ?_) fun hfree => ?_
  · intro k t
    refine .inr ⟨(), a, k, _, callFree_run h k t, rfl, ?_⟩
    simpa [ArrayT.dropped, hfree] using tame_destroy e
  · exact ⟨rfl, by simpa [ArrayT.dropped, hfree] using tame_nil⟩

/-- The copy of a slot into the caller's memory. -/
theorem copyInto_returns (h : Slot a p e) (into : Bool) :
    Returns A a (copyInto into (a.relativeData p) a.eltSize) fun x b ev =>
      x = (if into then some e else none) ∧ b = a ∧ ev = [] := by
  obtain ⟨bs, hb, hin, rfl⟩ := h
  cases into with
  | false => exact Returns.pure ⟨rfl, rfl, rfl⟩
  | true => exact Returns.readBlock hb hin (Returns.pure ⟨rfl, rfl, rfl⟩)

/-- **`array_pop`** removes the last element, copies it out on request, and destroys
it. -/
theorem arrayPop_returns (h : Holds a l) {into : Bool} :
    Returns A a (arrayPop into) fun x b ev =>
      ∃ m e, l = m ++ [e] ∧ Becomes a m b ∧ Tame (a.dropped [e]) ev ∧
        x = if into then some e else none := by
  refine Returns.header (Returns.guard fun hguard => ?_)
  rcases List.eq_nil_or_concat l with rfl | ⟨m, e, rfl⟩
  · simp [h.nmemb_eq] at hguard
  rw [List.concat_eq_append] at h ⊢
  have hlast : Slot a m.length e := by
    simpa using h.slot (p := m.length) (by simp)
  have hslot : Slot { a with nmemb := m.length } m.length e := hlast
  have hone : 1 ≤ a.nmemb := by
    have := h.nmemb_eq
    simp only [List.length_append, List.length_singleton] at this
    omega
  refine Returns.diff (Returns.store ?_)
  rw [h.countDown]
  refine Returns.bind (copyInto_returns hslot into) ?_
  rintro x b ev ⟨rfl, rfl, rfl⟩
  refine Returns.bind (dropElement_returns hslot) ?_
  rintro - b ev ⟨rfl, hev⟩
  have hev : Tame (a.dropped [e]) ev := hev
  refine Returns.pure ⟨m, e, rfl, h.front.becomes, ?_, rfl⟩
  simpa using hev.diff hone

/-- **`array_evict`** removes the element at position `p` and destroys it. -/
theorem arrayEvict_returns (h : Holds a l) :
    Returns A a (arrayEvict p) fun _ b ev =>
      ∃ hp : p < l.length, Becomes a (l.eraseIdx p) b ∧ Tame (a.dropped [l[p]]) ev := by
  refine Returns.header (Returns.guard fun hguard => ?_)
  have hp : p < l.length := by simpa [h.nmemb_eq] using hguard
  obtain ⟨bs, hb, hlen, hlays⟩ := h.exists_block
  obtain ⟨r, hr⟩ : ∃ r, l.length = p + 1 + r := ⟨l.length - (p + 1), by omega⟩
  have hnmemb : a.nmemb = p + 1 + r := h.nmemb_eq.trans hr
  have hnle := h.length_le
  have hcap := h.cap_le_sizeMax
  have hfit := h.bytes_le
  rw [hr, Nat.mul_add, Nat.mul_succ] at hfit
  have hrest : szSub a.nmemb p = r + 1 := by
    rw [hnmemb, szSub_eq (by omega) (by omega)]
    omega
  have hsize : szSub a.nmemb 1 = p + r := by
    rw [hnmemb, szSub_eq (by omega) (by omega)]
    omega
  have hbytes : szMul (r + 1) a.eltSize = a.eltSize * r + a.eltSize := by
    rw [szMul_eq (by rw [Nat.mul_comm, Nat.mul_succ]; omega), Nat.mul_comm, Nat.mul_succ]
  have hbehind : szSub (a.eltSize * r + a.eltSize) a.eltSize = a.eltSize * r := by
    rw [szSub_eq (by omega) (by omega), Nat.add_sub_cancel]
  have hone : a.eltSize * (p + 1) = a.eltSize * p + a.eltSize := Nat.mul_succ _ _
  refine Returns.diff ?_
  refine Returns.bind (dropElement_returns (h.slot hp)) ?_
  rintro - b ev ⟨rfl, hev⟩
  rw [hrest, hbytes]
  refine Returns.diff (Returns.store ?_)
  rw [hsize]
  refine Returns.runIf (fun _ => Returns.diff ?_) fun hno => absurd (by omega) hno
  rw [hbehind, szAdd_eq (by omega), h.relativeData_eq (Nat.le_of_lt hp),
    h.relativeData_eq (p := p + 1) hp]
  refine Returns.moveBlock hb (by omega) (by omega) ⟨hp, (h.eraseAt hb hlen hr).becomes, ?_⟩
  have hev : Tame (b.dropped [l[p]]) ev := hev
  have hall := (hev.append (tame_nil.diff (x := b.nmemb) (y := 1) (by omega))).append
      (tame_nil.diff (x := b.eltSize * r + b.eltSize) (y := b.eltSize) (by omega))
  simpa using hall.diff (x := b.nmemb) (y := p) (by omega)

/-- **`array_popf`** removes the first element, copies it out on request, and destroys
it. -/
theorem arrayPopf_returns (h : Holds a l) {into : Bool} :
    Returns A a (arrayPopf into) fun x b ev =>
      ∃ e m, l = e :: m ∧ Becomes a m b ∧ Tame (a.dropped [e]) ev ∧
        x = if into then some e else none := by
  refine Returns.header (Returns.guard fun hguard => ?_)
  cases l with
  | nil => simp [h.nmemb_eq] at hguard
  | cons e m =>
      have hslot : Slot a 0 e := h.slot (p := 0) (by simp)
      have hzero : a.relativeData 0 = 0 := by simp [ArrayT.relativeData, szMul]
      have hcopy := copyInto_returns (A := A) hslot into
      rw [hzero] at hcopy
      refine Returns.bind hcopy ?_
      rintro x b ev ⟨rfl, rfl, rfl⟩
      refine Returns.bind (arrayEvict_returns h) ?_
      rintro - b' ev ⟨_, hb, hev⟩
      exact Returns.pure ⟨e, m, rfl, hb, by simpa using hev, rfl⟩

/-! ### Clearing -/

/-- The loop of `array_clear` hands every element to the destructor, the last first. -/
theorem clearLoop_run (h : Holds a l) (k : ℕ) (t : List Event) :
    ∃ n ev, clearLoop l.length A ⟨some a, k, t⟩
        = .ok ((), ⟨some { a with nmemb := n }, k, t ++ ev⟩) ∧ destroyed ev = l.reverse := by
  induction l using List.reverseRecOn generalizing a t with
  | nil => exact ⟨szSub a.nmemb 1, [.diff a.nmemb 1], rfl, rfl⟩
  | append_singleton m e ih =>
      have hlast : Slot a m.length e := by simpa using h.slot (p := m.length) (by simp)
      have hslot : Slot { a with nmemb := m.length } m.length e := hlast
      obtain ⟨n, ev, hrun, hev⟩ := ih h.front (t ++ [.diff a.nmemb 1] ++ [.destroy e])
      refine ⟨n, .diff a.nmemb 1 :: .destroy e :: ev, ?_, ?_⟩
      · calc clearLoop (m ++ [e]).length A ⟨some a, k, t⟩
            = (callFree (szSub a.nmemb 1) >>= fun _ => clearLoop m.length) A
                ⟨some { a with nmemb := szSub a.nmemb 1 }, k, t ++ [.diff a.nmemb 1]⟩ := by
              rw [List.length_append, List.length_singleton]
              rfl
          _ = clearLoop m.length A ⟨some { a with nmemb := m.length }, k,
                t ++ [.diff a.nmemb 1] ++ [.destroy e]⟩ := by
              rw [h.countDown, bind_ok (callFree_run hslot k _)]
          _ = _ := by
              rw [hrun]
              simp
      · rw [List.reverse_append, ← hev]
        simp [destroyed]

/-- **`array_clear`** leaves the empty array. -/
theorem arrayClear_run (h : Holds a l) (k : ℕ) (t : List Event) :
    ∃ ev, arrayClear A ⟨some a, k, t⟩
        = .ok ((), ⟨some { a with nmemb := 0 }, k, t ++ ev⟩) ∧
      destroyed ev = a.dropped l.reverse := by
  by_cases hfree : a.free = true
  · obtain ⟨n, ev, hrun, hev⟩ := clearLoop_run (A := A) h k t
    refine ⟨ev, ?_, by simp [ArrayT.dropped, hfree, hev]⟩
    rw [← h.nmemb_eq] at hrun
    simp [arrayClear, header, store, runIf, hfree, bind_run, hrun]
  · exact ⟨[], by simp [arrayClear, header, store, runIf, hfree, bind_run],
      by simp [ArrayT.dropped, hfree, destroyed]⟩

theorem arrayClear_returns (h : Holds a l) :
    Returns A a arrayClear fun _ b ev =>
      Becomes a [] b ∧ destroyed ev = a.dropped l.reverse := by
  intro k t
  obtain ⟨ev, hrun, hev⟩ := arrayClear_run (A := A) h k t
  obtain ⟨bs, hb, hlen, -⟩ := h.exists_block
  have hnil : Holds { a with nmemb := 0 } [] :=
    ⟨h.elt_pos, h.cap_le, rfl, bs, hb, hlen, lays_nil _ _⟩
  exact .inr ⟨(), _, k, ev, hrun, hnil.becomes, hev⟩

/-- **`array_kill`** clears the array and releases its header. -/
theorem arrayKill_run (h : Holds a l) (k : ℕ) (t : List Event) :
    ∃ ev, arrayKill A ⟨some a, k, t⟩ = .ok ((), ⟨none, k, t ++ ev⟩) ∧
      destroyed ev = a.dropped l.reverse := by
  obtain ⟨ev, hrun, hev⟩ := arrayClear_run (A := A) h k t
  obtain ⟨bs, hb, -, -⟩ := h.exists_block
  by_cases hown : a.isOwnBuffer = true
  · refine ⟨ev ++ [.free a.ptr], ?_, ?_⟩
    · simp [arrayKill, bind_run, hrun, header, runIf, hown, memoryFree, hb, emit, store,
        freeHeader]
    · rw [destroyed_append, hev]
      simp [destroyed]
  · exact ⟨ev, by simp [arrayKill, bind_run, hrun, header, runIf, hown, freeHeader], hev⟩

/-! ### Flags -/

/-- `array_settle` and `array_unsettle` only set the flag. -/
theorem Holds.setSettled (h : Holds a l) (b : Bool) : Holds { a with settled := b } l :=
  ⟨h.elt_pos, h.cap_le, h.nmemb_eq, h.exists_block⟩

theorem arraySettle_returns :
    Returns A a arraySettle fun _ b ev => b = { a with settled := true } ∧ ev = [] :=
  Returns.storeLast ⟨rfl, rfl⟩

theorem arrayUnsettle_returns :
    Returns A a arrayUnsettle fun _ b ev => b = { a with settled := false } ∧ ev = [] :=
  Returns.header (Returns.guard fun _ => Returns.storeLast ⟨rfl, rfl⟩)

end Specs

end Backd
