import Backd.ArrayFrame
import Backd.ArrayPositions
import Backd.ArrayPull

/-!
# The Guards Are Complete, but for One

A request of the operations that take positions from the caller (`Request`) is contained
when, run on a live array, it returns without touching memory outside the buffer and
without a size subtraction below zero. The guards of each operation are there to
establish this for whatever the caller passes.

They do for every operation but `array_wipe`. Its guards bound the length `end - start` by
the size, where those of its sibling `array_extract` also bound `start`; the operation
then computes with `end` itself.

## Main results

* `contained_iff`: an admitted request names positions inside the array and is contained,
  exactly when it is not an `array_wipe` with an `end` behind the last element.
-/

namespace Backd

open Splice

/-- The events subtract no size below zero. -/
def AllFine (ev : List Event) : Prop :=
  ∀ e ∈ ev, e.Fine

theorem allFine_nil : AllFine [] := by
  simp [AllFine]

theorem AllFine.diff {ev : List Event} {x y : ℕ} (h : AllFine ev) (hxy : y ≤ x) :
    AllFine (.diff x y :: ev) := by
  simpa [AllFine, Event.Fine, hxy] using h

theorem AllFine.append {ev ev' : List Event} (h : AllFine ev) (h' : AllFine ev') :
    AllFine (ev ++ ev') := by
  intro e he
  exact (List.mem_append.mp he).elim (h e) (h' e)

section Specs

variable {A : Allocator} {a : ArrayT} {l : List Bytes}

/-- The block of `a` has `len` bytes. -/
def HasBlock (len : ℕ) (a : ArrayT) : Prop :=
  ∃ bs, a.block = some bs ∧ bs.length = len

/-! ### Access -/

/-- **`array_access`** gives the offset of an element. -/
theorem arrayAccess_returns (h : Holds a l) {p : ℕ} :
    Returns A a (arrayAccess p) fun x b ev =>
      p < l.length ∧ x = some (a.eltSize * p) ∧ b = a ∧ ev = [] := by
  refine Returns.header (Returns.guard fun hguard => ?_)
  have hp : p < l.length := by simpa [h.nmemb_eq] using hguard
  rw [if_neg (by rw [h.nmemb_eq]; omega), h.relativeData_eq (Nat.le_of_lt hp)]
  exact Returns.pure ⟨hp, rfl, rfl, rfl⟩

/-! ### Elements from the capacity -/

/-- **`array_uninitialized_size`**: the elements that fit behind the last one. -/
theorem arrayUninitializedSize_run (h : Holds a l) (k : ℕ) (t : List Event) :
    arrayUninitializedSize A ⟨some a, k, t⟩ =
      .ok ((a.cap - a.eltSize * l.length) / a.eltSize,
        ⟨some a, k, t ++ [.diff a.cap (a.eltSize * l.length)]⟩) := by
  have hfit := h.bytes_le
  have hcap := h.cap_le_sizeMax
  have hsizeof : a.sizeof = a.eltSize * l.length := h.sizeof_eq
  have hroom : szSub a.cap (a.eltSize * l.length) = a.cap - a.eltSize * l.length :=
    szSub_eq hfit (by omega)
  by_cases hzero : a.cap - a.eltSize * l.length = 0
  · simp [arrayUninitializedSize, bind_run, header, notifyBugOn, diff, emit, safeToSub, hsizeof,
      hfit, hroom, hzero]
  · simp [arrayUninitializedSize, bind_run, header, notifyBugOn, diff, emit, safeToSub, hsizeof,
      hfit, hroom, hzero]

/-- The elements that fit behind the last one, by their bytes. -/
theorem le_room_iff (h : Holds a l) {n : ℕ} :
    n ≤ (a.cap - a.eltSize * l.length) / a.eltSize ↔ a.eltSize * (l.length + n) ≤ a.cap := by
  have hfit := h.bytes_le
  rw [Nat.le_div_iff_mul_le h.elt_pos, Nat.mul_add, Nat.mul_comm n]
  omega

/-- **`array_append_from_capacity`** counts elements that fit. -/
theorem arrayAppendFromCapacity_run (h : Holds a l) (n k : ℕ) (t : List Event) :
    arrayAppendFromCapacity n A ⟨some a, k, t⟩ =
      if a.eltSize * (l.length + n) ≤ a.cap then
        .ok (true, ⟨some { a with nmemb := szAdd a.nmemb n }, k,
          t ++ [.diff a.cap (a.eltSize * l.length)]⟩)
      else .ok (false, ⟨some a, k, t ++ [.diff a.cap (a.eltSize * l.length)]⟩) := by
  rw [arrayAppendFromCapacity, bind_ok (arrayUninitializedSize_run h k t)]
  by_cases hn : a.eltSize * (l.length + n) ≤ a.cap
  · have hle := (le_room_iff h).mpr hn
    rw [if_pos hn, if_neg (by omega)]
    rfl
  · have hgt : ¬ n ≤ (a.cap - a.eltSize * l.length) / a.eltSize := mt (le_room_iff h).mp hn
    rw [if_neg hn, if_pos (by omega)]
    rfl

theorem arrayAppendFromCapacity_returns (h : Holds a l) {n : ℕ} :
    Returns A a (arrayAppendFromCapacity n) fun _ b ev =>
      b.nmemb * b.eltSize ≤ a.cap ∧ AllFine ev := by
  have hfine : AllFine [.diff a.cap (a.eltSize * l.length)] := allFine_nil.diff h.bytes_le
  intro k t
  rw [arrayAppendFromCapacity_run h n k t]
  by_cases hn : a.eltSize * (l.length + n) ≤ a.cap
  · have hle : l.length + n ≤ a.eltSize * (l.length + n) := Nat.le_mul_of_pos_left _ h.elt_pos
    have hcap := h.cap_le_sizeMax
    rw [if_pos hn]
    refine .inr ⟨_, _, _, _, rfl, ?_, hfine⟩
    dsimp only
    rwa [h.nmemb_eq, szAdd_eq (by omega), Nat.mul_comm]
  · rw [if_neg hn]
    refine .inr ⟨_, _, _, _, rfl, ?_, hfine⟩
    rw [h.nmemb_eq, Nat.mul_comm]
    exact h.bytes_le

/-! ### Copies -/

/-- **`array_extract`** copies elements that are there. -/
theorem arrayExtract_returns (h : Holds a l) {start stop : ℕ} (hstop : stop ≤ sizeMax) :
    Returns A a (arrayExtract start stop) fun _ b ev =>
      (start ≤ stop ∧ stop ≤ l.length) ∧ b = a ∧ AllFine ev := by
  have hcap := h.cap_le_sizeMax
  have hlen := h.length_le
  intro k t
  by_cases hin : start ≤ stop ∧ stop ≤ l.length
  · obtain ⟨ev, hev, hrun⟩ := arrayExtract_run (A := A) (k := k) (t := t) h hin.1 hin.2
    exact .inr ⟨_, a, k + 1, ev, hrun, hin, rfl, hev.fine⟩
  -- one of the guards fires
  refine .inl ?_
  by_cases hle : start ≤ stop
  · by_cases hsafe : safeToMul (stop - start) a.eltSize = true
    · by_cases hin' : start ≤ l.length
      · have hout : l.length - start < stop - start := by omega
        simp [arrayExtract, bind_run, header, notifyBugOn, diff, emit, safeToSub, h.nmemb_eq, hle,
          hin', hsafe, hout, szSub_eq hle hstop, szSub_eq hin' (by omega)]
      · simp [arrayExtract, bind_run, header, notifyBugOn, diff, emit, safeToSub, h.nmemb_eq, hle,
          hin', hsafe, szSub_eq hle hstop]
    · simp [arrayExtract, bind_run, header, notifyBugOn, diff, emit, safeToSub, hle, hsafe,
        szSub_eq hle hstop]
  · simp [arrayExtract, bind_run, header, notifyBugOn, safeToSub, hle]

/-- **`array_pull`** reads elements that are there and fills a buffer of their size. -/
theorem arrayPull_run {src : ArrayT} {m : List Bytes} (hsrc : Holds src m) (start stop : ℤ)
    (o : Option ArrayT) (k : ℕ) (t : List Event) :
    arrayPull src start stop A ⟨o, k, t⟩ = .error .bug ∨
      (start.natAbs < m.length ∧ stop.natAbs < m.length) ∧
        ∃ r o' k', arrayPull src start stop A ⟨o, k, t⟩ = .ok (r, ⟨o', k', t⟩) := by
  by_cases hstart : src.nmemb ≤ start.natAbs
  · exact .inl (by simp [arrayPull, bind_run, notifyBugOn, hstart])
  by_cases hstop : src.nmemb ≤ stop.natAbs
  · exact .inl (by simp [arrayPull, bind_run, notifyBugOn, hstart, hstop])
  rw [hsrc.nmemb_eq] at hstart hstop
  have hin : start.natAbs < m.length ∧ stop.natAbs < m.length := by omega
  refine .inr ⟨hin, ?_⟩
  rw [arrayPull_eq hsrc hin.1 hin.2]
  split
  · exact ⟨_, _, _, rfl⟩
  · split <;> exact ⟨_, _, _, rfl⟩

/-! ### Wiping -/

/-- The trace from `t` on records a subtraction below zero. -/
def Tripped (t : List Event) (s : ArrSt) : Prop :=
  ∃ ev, s.trace = t ++ ev ∧ ∃ e ∈ ev, ¬ e.Fine

theorem quiet_tripped (t : List Event) : Quiet (Tripped t) where
  calls := fun _ h => h
  contents := fun _ _ _ _ h _ _ => h
  events := by
    rintro s e ⟨ev, htrace, d, hd, hbad⟩ -
    exact ⟨ev ++ [e], by rw [htrace, List.append_assoc], d, List.mem_append_left _ hd, hbad⟩

/-- **`array_wipe`** with an end behind the last element: if it returns, a size was
subtracted below zero. -/
theorem arrayWipe_trips (h : Holds a l) {start stop k : ℕ} {t : List Event} {s' : ArrSt}
    (hstop : stop ≤ sizeMax) (hout : l.length < stop)
    (hrun : arrayWipe start stop A ⟨some a, k, t⟩ = .ok ((), s')) : Tripped t s' := by
  have hcap := h.cap_le_sizeMax
  have hlen := h.length_le
  obtain ⟨hle, hrun⟩ := of_guard_ok (f := fun _ => _) hrun
  have hle : start ≤ stop := by simpa [safeToSub_iff] using hle
  obtain ⟨hsub, hrun⟩ := of_guard_ok (of_diff_ok hrun)
  have hrun := of_diff_ok hrun
  rw [szSub_eq hle hstop] at hsub hrun
  have hn : stop - start ≤ l.length := by simpa [h.nmemb_eq] using hsub
  obtain ⟨_, s₁, hpass, hrun⟩ := of_bind_ok hrun
  obtain ⟨b, k', ev, rfl, rfl, -⟩ := (wipePass_returns h hn).of_ok hpass
  have hrun := of_diff_ok (of_diff_ok hrun)
  have hquiet := quiet_tripped t
  refine ((hquiet.moveBlock _ _ _).bind (fun _ _ => reads_header.bind fun _ =>
    (hquiet.diff _ _).bind fun size _ => hquiet.setSize fun _ => size) _ _ _ _ ?_ hrun).1
  -- the first of the two subtractions goes wrong when `start` is behind the last element
  -- too, the second when only the end is
  refine ⟨[.diff stop start, .diff stop start] ++ ev ++ [.diff b.nmemb start,
    .diff (szSub b.nmemb start) (stop - start)], by simp, ?_⟩
  by_cases hstart : start ≤ l.length
  · refine ⟨.diff (szSub b.nmemb start) (stop - start), by simp, ?_⟩
    rw [h.nmemb_eq, szSub_eq hstart (by omega)]
    simp only [Event.Fine]
    omega
  · refine ⟨.diff b.nmemb start, by simp, ?_⟩
    simp only [Event.Fine, h.nmemb_eq]
    omega

end Specs

/-! ### Requests -/

/-- A call that takes positions from the caller. -/
inductive Request
  | extract (start stop : ℕ)
  | pull (start stop : ℤ)
  | insert (p : ℕ) (e : Bytes)
  | inject (p : ℕ) (src : Bytes) (n : ℕ)
  | evict (p : ℕ)
  | wipe (start stop : ℕ)
  | swapElems (i j : ℕ)
  | access (p : ℕ)
  | appendFromCapacity (n : ℕ)

namespace Request

/-- The function called, on `a`. -/
def run (a : ArrayT) : Request → ArrM Unit
  | extract start stop => (fun _ => ()) <$> arrayExtract start stop
  | pull start stop => (fun _ => ()) <$> arrayPull a start stop
  | insert p e => (fun _ => ()) <$> arrayInsert p (some e)
  | inject p src n => (fun _ => ()) <$> arrayInject p (some src) n
  | evict p => arrayEvict p
  | wipe start stop => arrayWipe start stop
  | swapElems i j => arraySwapElems i j
  | access p => (fun _ => ()) <$> arrayAccess p
  | appendFromCapacity n => (fun _ => ()) <$> arrayAppendFromCapacity n

/-- What the types of the arguments promise: sizes are `size_t` values, and a source is an
object that holds the elements announced. -/
def Sound (a : ArrayT) : Request → Prop
  | extract _ stop | wipe _ stop => stop ≤ sizeMax
  | insert _ e => Supplies a.eltSize 1 e
  | inject _ src n => Supplies a.eltSize n src
  | pull _ _ | evict _ | swapElems _ _ | access _ | appendFromCapacity _ => True

/-- The positions named are positions in the array. -/
def Within (a : ArrayT) : Request → Prop
  | extract start stop | wipe start stop => start ≤ stop ∧ stop ≤ a.nmemb
  | pull start stop => start.natAbs < a.nmemb ∧ stop.natAbs < a.nmemb
  | insert p _ | inject p _ _ => p ≤ a.nmemb
  | evict p | access p => p < a.nmemb
  | swapElems i j => i < a.nmemb ∧ j < a.nmemb
  | appendFromCapacity _ => True

/-- The request returns: every byte it touches is inside a block, and no size is
subtracted below zero. -/
def Contained (A : Allocator) (a : ArrayT) (k : ℕ) (t : List Event) (r : Request) : Prop :=
  ∃ s ev, r.run a A ⟨some a, k, t⟩ = .ok ((), s) ∧ s.trace = t ++ ev ∧ AllFine ev

/-- The request is not an `array_wipe` that ends behind the last element. -/
def EndsInside (a : ArrayT) : Request → Prop
  | wipe _ stop => stop ≤ a.nmemb
  | _ => True

end Request

section Requests

variable {A : Allocator} {a : ArrayT} {l : List Bytes} {k : ℕ} {t : List Event}

/-- A triple with fine events, for a request that was admitted. -/
theorem Returns.contained {m : ArrM Unit} {P : Prop}
    (h : Returns A a m fun _ _ ev => P ∧ AllFine ev)
    (hguards : m A ⟨some a, k, t⟩ ≠ .error .bug) :
    P ∧ ∃ s ev, m A ⟨some a, k, t⟩ = .ok ((), s) ∧ s.trace = t ++ ev ∧ AllFine ev := by
  obtain ⟨_, b, k', ev, hok, hP, hev⟩ := h.ok hguards
  exact ⟨hP, _, ev, hok, rfl, hev⟩

theorem Tame.allFine {gone : List Bytes} {ev : List Event} (h : Tame gone ev) : AllFine ev :=
  h.fine

/-- Every request but an `array_wipe` keeps inside the buffer. -/
theorem Request.contained {r : Request} (h : Holds a l) (hs : r.Sound a)
    (hends : r.EndsInside a) (hguards : r.run a A ⟨some a, k, t⟩ ≠ .error .bug) :
    r.Within a ∧ r.Contained A a k t := by
  cases r with
  | extract start stop =>
      refine Returns.contained (Returns.map ((arrayExtract_returns h hs).mono ?_)) hguards
      rintro x b ev ⟨hin, -, hev⟩
      exact ⟨by rwa [Request.Within, h.nmemb_eq], hev⟩
  | pull start stop =>
      rcases arrayPull_run (A := A) h start stop (some a) k t with
        hbug | ⟨hin, x, o, k', hok⟩
      · exact absurd (by rw [Request.run, map_run, hbug]) hguards
      · refine ⟨by rwa [Request.Within, h.nmemb_eq], ⟨o, k', t⟩, [], ?_, by simp, allFine_nil⟩
        rw [Request.run, map_run, hok]
  | insert p e =>
      have hp : p ≤ a.nmemb := by
        by_contra hno
        exact hguards (by
          simp [Request.run, map_run, arrayInsert, bind_run, header, notifyBugOn, hno])
      refine Returns.contained (Returns.map ((arrayInsert_returns h hs).mono ?_)) hguards
      rintro ok b ev ⟨hev, -⟩
      exact ⟨hp, hev.allFine⟩
  | inject p src n =>
      have hp : p ≤ a.nmemb := by
        by_contra hno
        have hlt : a.nmemb < p := Nat.lt_of_not_le hno
        exact hguards (by
          simp [Request.run, map_run, arrayInject, bind_run, header, notifyBugOn, hlt])
      refine Returns.contained (Returns.map ((arrayInject_returns h hs).mono ?_)) hguards
      rintro ok b ev ⟨hev, -⟩
      exact ⟨hp, hev.allFine⟩
  | evict p =>
      refine Returns.contained ((arrayEvict_returns h).mono ?_) hguards
      rintro - b ev ⟨hp, -, hev⟩
      exact ⟨by rwa [Request.Within, h.nmemb_eq], hev.allFine⟩
  | wipe start stop =>
      have hstop : stop ≤ l.length := h.nmemb_eq ▸ hends
      refine Returns.contained ((arrayWipe_returns h hstop).mono ?_) hguards
      rintro - b ev ⟨hle, hev⟩
      exact ⟨⟨hle, hends⟩, hev.2.allFine⟩
  | swapElems i j =>
      refine Returns.contained ((arraySwapElems_returns h).mono ?_) hguards
      rintro - b ev ⟨hij, -, rfl⟩
      exact ⟨by rwa [Request.Within, h.nmemb_eq], allFine_nil⟩
  | access p =>
      refine Returns.contained (Returns.map ((arrayAccess_returns h).mono ?_)) hguards
      rintro x b ev ⟨hp, -, -, rfl⟩
      exact ⟨by rwa [Request.Within, h.nmemb_eq], allFine_nil⟩
  | appendFromCapacity n =>
      refine Returns.contained (Returns.map ((arrayAppendFromCapacity_returns h).mono ?_))
        hguards
      rintro ok b ev ⟨-, hev⟩
      exact ⟨trivial, hev⟩

/-- An `array_wipe` that ends behind the last element is not contained. -/
theorem Request.wipe_not_contained (start : ℕ) {stop : ℕ} (h : Holds a l)
    (hstop : stop ≤ sizeMax) (hout : a.nmemb < stop) :
    ¬ (Request.wipe start stop).Contained A a k t := by
  rintro ⟨s, ev, hrun, htrace, hfine⟩
  obtain ⟨ev', htrace', e, he, hbad⟩ := arrayWipe_trips h hstop (h.nmemb_eq ▸ hout) hrun
  obtain rfl : ev = ev' := List.append_cancel_left (htrace.symm.trans htrace')
  exact hbad (hfine e he)

/-- **Where the guards are complete.** On an array whose elements fit into its buffer, a
request that trips no guard names positions inside the array and is contained, exactly
when it is not an `array_wipe` that ends behind the last element. -/
theorem contained_iff {r : Request} (helt : 0 < a.eltSize) (hcap : a.cap ≤ ptrdiffMax)
    (hblock : HasBlock a.cap a) (hfit : a.nmemb * a.eltSize ≤ a.cap) (hs : r.Sound a)
    (hguards : r.run a A ⟨some a, k, t⟩ ≠ .error .bug) :
    r.Within a ∧ r.Contained A a k t ↔ r.EndsInside a := by
  obtain ⟨bs, hb, hlen⟩ := hblock
  have h : Holds a a.elements := holds_elements helt hcap hb hlen hfit
  refine ⟨?_, fun hends => Request.contained h hs hends hguards⟩
  rintro ⟨-, hcontained⟩
  cases r with
  | wipe start stop =>
      by_contra hout
      exact Request.wipe_not_contained _ h hs (Nat.lt_of_not_le hout) hcontained
  | extract | pull | insert | inject | evict | swapElems | access | appendFromCapacity =>
      trivial

end Requests

/-- `array_wipe(a, 1, 2)` on two elements. -/
theorem wipe_within : (Request.wipe 1 2).Within twoTriples ∧
    (Request.wipe 1 2).Contained (.upTo 0) twoTriples 0 [] :=
  (contained_iff (r := .wipe 1 2) (a := twoTriples) (by decide) (by decide) ⟨_, rfl, rfl⟩
    (by decide) (show 2 ≤ sizeMax by decide) (by decide)).mpr (show 2 ≤ 2 by decide)

/-- `array_wipe(a, 2, 4)` on two elements passes the guards, and subtracts below zero. -/
theorem wipe_escapes :
    (Request.wipe 2 4).run twoTriples (.upTo 0) ⟨some twoTriples, 0, []⟩ ≠ .error .bug ∧
      ¬ ∀ (r : Request) (A : Allocator) (a : ArrayT) (k : ℕ) (t : List Event),
        0 < a.eltSize → a.cap ≤ ptrdiffMax → HasBlock a.cap a →
        a.nmemb * a.eltSize ≤ a.cap → r.Sound a →
        r.run a A ⟨some a, k, t⟩ ≠ .error .bug → r.Contained A a k t :=
  ⟨by decide, fun h => Request.wipe_not_contained 2
    holds_twoTriples (by decide) (by decide)
    (h (.wipe 2 4) (.upTo 0) twoTriples 0 [] (by decide) (by decide) ⟨_, rfl, rfl⟩
      (by decide) (show 4 ≤ sizeMax by decide) (by decide))⟩

end Backd
