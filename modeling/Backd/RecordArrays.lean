import Backd.ArrayFilter
import Backd.Records

/-!
# Records in Arrays

The histories and the lists of children are modelled as lists of records with a capacity
(`Records`). This module connects that model to the arrays of `array.c`: the bytes of the array
are those of the records, whatever the record type and its layout, and the two grant and refuse
the same pushes, for every allocator and whatever other arrays are at work in between.

## Main results

* `Represents.push`: one push.
* `records_are_arrays`: `array_create` and any number of pushes, with what is then read in
  place.
-/

namespace Backd

open Splice

section Records

variable {α : Type}

/-! ### The allocator's calls -/

/-- How often a push asks the allocator. -/
def Records.asked (eltSize : ℕ) (self : Records α) : ℕ :=
  match growth self.cap false (eltSize * (self.items.length + 1)) with
  | .realloc _ => 1
  | .fits | .refuse => 0

/-- Pushes, one after the other. In front of each there is a number of other calls of the
allocator; the first call is number `calls`. -/
def Records.pushAll (eltSize : ℕ) (A : Allocator) :
    ℕ → Records α → List (ℕ × α) → List Bool × Records α
  | _, self, [] => ([], self)
  | calls, self, (others, e) :: es =>
    let (ok, pushed) := self.push eltSize (A.serves (calls + others)) e
    let (oks, all) := pushed.pushAll eltSize A (calls + others + self.asked eltSize) es
    (ok :: oks, all)

/-- Calls of the allocator by others. -/
def otherCalls (n : ℕ) : ArrM Unit := fun _ s => .ok ((), { s with calls := s.calls + n })

/-- The same pushes on an array, for a layout of the records. -/
def pushAll (layout : α → Bytes) : List (ℕ × α) → ArrM (List Bool)
  | [] => return []
  | (others, e) :: es => do
    otherCalls others
    let ok ← arrayPush (some (layout e))
    let oks ← pushAll layout es
    return ok :: oks

/-! ### The representation -/

/-- An unsettled array that holds the records, in a buffer of their capacity. -/
structure Represents (layout : α → Bytes) (eltSize : ℕ) (r : Records α) (a : ArrayT) : Prop where
  holds : Holds a (r.items.map layout)
  eltSize_eq : a.eltSize = eltSize
  cap_eq : a.cap = r.cap
  unsettled : a.settled = false

variable {layout : α → Bytes} {eltSize : ℕ} {r : Records α} {a : ArrayT} {A : Allocator}

/-- The bytes a push needs. -/
theorem Represents.need_eq (h : Represents layout eltSize r a) :
    a.need 1 = eltSize * (r.items.length + 1) := by
  rw [ArrayT.need, h.holds.nmemb_eq, h.eltSize_eq, List.length_map, Nat.mul_comm]

/-- One object more than the buffer has bytes is not too much for the guards. -/
theorem Represents.guards (h : Represents layout eltSize r a) (hobject : eltSize ≤ ptrdiffMax) :
    AdjustGuards a 1 ∧ a.need 1 ≤ a.cap + ptrdiffMax := by
  have hcap := h.holds.cap_le
  have hbytes := h.holds.bytes_le
  have hneed := h.need_eq
  rw [h.eltSize_eq, List.length_map] at hbytes
  rw [Nat.mul_add, Nat.mul_one] at hneed
  have hcount : a.nmemb + 1 ≤ a.need 1 := Nat.le_mul_of_pos_right _ h.holds.elt_pos
  have hbound : a.need 1 ≤ a.cap + ptrdiffMax := by omega
  refine ⟨.of_le ?_ (by decide) ?_ ?_, hbound⟩ <;>
    · simp only [ptrdiffMax, sizeMax] at *
      omega

/-- A record more, in an array with room for it. -/
theorem Represents.append {cap : ℕ} {b : ArrayT} {s : ArrSt} {c : ℕ} {t : List Event}
    (h : Represents layout eltSize ⟨r.items, cap⟩ b)
    (hlayout : ∀ e, (layout e).length = eltSize) (e : α)
    (hroom : eltSize * (r.items.length + 1) ≤ cap)
    (hadjust : arrayAdjust 1 A s = .ok (true, ⟨some b, c, t⟩)) :
    ∃ a', arrayPush (some (layout e)) A s = .ok (true, ⟨some a', c, t⟩) ∧
      Represents layout eltSize ⟨r.items ++ [e], cap⟩ a' := by
  have hroom : b.eltSize * ((r.items.map layout).length + 1) ≤ b.cap := by
    rwa [List.length_map, h.eltSize_eq, h.cap_eq]
  obtain ⟨a', hpush, hbecomes, hcap⟩ :=
    arrayPush_adjusted h.holds ((hlayout e).trans h.eltSize_eq.symm) hroom hadjust
  refine ⟨a', hpush, ?_, hbecomes.eltSize_eq.trans h.eltSize_eq, hcap.trans h.cap_eq,
    hbecomes.settled_eq.trans h.unsettled⟩
  rw [List.map_append]
  exact hbecomes.holds

/-- **One push**: the array and the records answer the same, and go on representing each
other. -/
theorem Represents.push (h : Represents layout eltSize r a)
    (hlayout : ∀ e, (layout e).length = eltSize) (hobject : eltSize ≤ ptrdiffMax) (e : α)
    (c : ℕ) (t : List Event) :
    ∃ a' t', arrayPush (some (layout e)) A ⟨some a, c, t⟩ =
        .ok ((r.push eltSize (A.serves c) e).1, ⟨some a', c + r.asked eltSize, t'⟩) ∧
      Represents layout eltSize (r.push eltSize (A.serves c) e).2 a' := by
  obtain ⟨hguards, hbound⟩ := h.guards hobject
  have hcap := h.holds.cap_le
  have hdouble : a.cap * 2 ≤ sizeMax := by
    simp only [ptrdiffMax, sizeMax] at *
    omega
  have hneed : a.need 1 ≤ sizeMax := by
    simp only [ptrdiffMax, sizeMax] at *
    omega
  have hdecide : growth r.cap false (eltSize * (r.items.length + 1)) =
      growth a.cap a.settled (a.need 1) := by rw [h.need_eq, h.cap_eq, h.unsettled]
  rw [Records.push, Records.asked, hdecide]
  rcases growth_cases a.settled hdouble hneed with ⟨hg, hfits⟩ | hg | ⟨m, hg, -, hsmall, hm⟩
  · have hroom : eltSize * (r.items.length + 1) ≤ r.cap := by
      rw [← h.need_eq, ← h.cap_eq]
      exact Nat.le_of_lt hfits
    obtain ⟨a', hpush, hpushed⟩ :=
      h.append hlayout e hroom (arrayAdjust_fits (k := c) (t := t) hguards (by decide) hfits)
    rw [hg]
    exact ⟨a', t, hpush, hpushed⟩
  · rw [hg]
    exact ⟨a, t, arrayPush_failed (arrayAdjust_refuse hguards (by decide) hg), h⟩
  · -- the buffer is too small to be near the top of `size_t`
    have hm : a.need 1 ≤ m ∧ 0 < m := by
      simp only [ptrdiffMax, sizeMax, intMax, ptrSize] at *
      omega
    obtain ⟨bs, hb, -, -⟩ := h.holds.exists_block
    have hadjust := arrayAdjust_realloc (A := A) (k := c) (t := t) hguards (by decide) hb hm.2 hg
    rw [hg]
    by_cases hserves : A.serves c m = true
    · rw [if_pos hserves] at hadjust
      have hfit : a.eltSize * (r.items.map layout).length ≤ m := by
        rw [h.eltSize_eq, List.length_map]
        rw [h.need_eq, Nat.mul_add] at hm
        omega
      have hresized : Represents layout eltSize ⟨r.items, m⟩ (a.resized A c m bs) :=
        ⟨h.holds.resize hb hfit (Allocator.le_of_serves hserves), h.eltSize_eq, rfl, h.unsettled⟩
      obtain ⟨a', hpush, hpushed⟩ := hresized.append hlayout e (h.need_eq ▸ hm.1) hadjust
      dsimp only
      rw [if_pos hserves]
      exact ⟨a', _, hpush, hpushed⟩
    · rw [if_neg hserves] at hadjust
      dsimp only
      rw [if_neg hserves]
      exact ⟨a, _, arrayPush_failed hadjust, h⟩

/-- Any number of pushes. -/
theorem Represents.pushAll (h : Represents layout eltSize r a)
    (hlayout : ∀ e, (layout e).length = eltSize) (hobject : eltSize ≤ ptrdiffMax)
    (es : List (ℕ × α)) (c : ℕ) (t : List Event) :
    ∃ a' c' t', Backd.pushAll layout es A ⟨some a, c, t⟩ =
        .ok ((r.pushAll eltSize A c es).1, ⟨some a', c', t'⟩) ∧
      Represents layout eltSize (r.pushAll eltSize A c es).2 a' := by
  induction es generalizing r a c t with
  | nil => exact ⟨a, c, t, rfl, h⟩
  | cons entry es ih =>
      obtain ⟨others, e⟩ := entry
      obtain ⟨a₁, t₁, hpush, hpushed⟩ := h.push (A := A) hlayout hobject e (c + others) t
      obtain ⟨a', c', t', hrest, hall⟩ := ih hpushed (c + others + r.asked eltSize) t₁
      refine ⟨a', c', t', ?_, hall⟩
      rw [Backd.pushAll, Records.pushAll]
      refine (bind_ok (rfl : otherCalls others A ⟨some a, c, t⟩ = .ok ((), _))).trans ?_
      refine (bind_ok hpush).trans ((bind_ok hrest).trans ?_)
      rfl

/-- What is read in place: the record at a position. -/
theorem Represents.access (h : Represents layout eltSize r a) {i : ℕ}
    (hi : i < r.items.length) (s : ArrSt) (hs : s.arr = some a) :
    ∃ off, arrayAccess i A s = .ok (some off, s) ∧
      readOf a off eltSize A s = .ok (layout r.items[i], s) := by
  obtain ⟨bs, hb, hlen, hlays⟩ := h.holds.exists_block
  have hlength : (r.items.map layout).length = r.items.length := List.length_map _
  refine ⟨a.relativeData i, ?_, ?_⟩
  · obtain ⟨arr, c, t⟩ := s
    obtain rfl : arr = some a := hs
    have hin : ¬ a.nmemb ≤ i := by
      rw [h.holds.nmemb_eq, hlength]
      omega
    simp [arrayAccess, arrayAt, bind_run, header, notifyBugOn, hin]
  · have hfit := h.holds.offset_le (p := i + 1) (by omega)
    rw [h.holds.relativeData_eq (by omega), h.eltSize_eq] at *
    rw [readOf_ok hb (by rw [hlen]; rw [Nat.mul_add] at hfit; omega),
      hlays.cell (by omega), List.getElem_map]

/-- The last record is read where `array_tail` points. -/
theorem Represents.tail (h : Represents layout eltSize r a) (c : ℕ) (t : List Event) :
    match r.items.getLast? with
    | none => arrayTail A ⟨some a, c, t⟩ = .ok (none, ⟨some a, c, t⟩)
    | some e => ∃ off t', arrayTail A ⟨some a, c, t⟩ = .ok (some off, ⟨some a, c, t'⟩) ∧
        readOf a off eltSize A ⟨some a, c, t'⟩ = .ok (layout e, ⟨some a, c, t'⟩) := by
  have hnmemb : a.nmemb = r.items.length := by rw [h.holds.nmemb_eq, List.length_map]
  rcases List.eq_nil_or_concat' r.items with hitems | ⟨front, e, hitems⟩
  · have hzero : a.nmemb = 0 := by rw [hnmemb, hitems, List.length_nil]
    rw [hitems]
    simp [arrayTail, bind_run, header, hzero]
  · have hlen : r.items.length = front.length + 1 := by rw [hitems]; simp
    have hmax : a.nmemb ≤ sizeMax := by
      have hle := h.holds.length_le
      have hcap := h.holds.cap_le_sizeMax
      rw [← h.holds.nmemb_eq] at hle
      omega
    have hlast : szSub a.nmemb 1 = front.length := by
      rw [szSub_eq (by omega) hmax, hnmemb, hlen, Nat.add_sub_cancel]
    have hin : front.length < r.items.length := by omega
    obtain ⟨off, haccess, hread⟩ := h.access (A := A) hin
      ⟨some a, c, t ++ [.diff a.nmemb 1]⟩ rfl
    have hrecord : r.items[front.length] = e := by simp [hitems]
    rw [hitems, List.getLast?_concat]
    refine ⟨off, t ++ [.diff a.nmemb 1], ?_, by rw [hread, hrecord]⟩
    have hne : a.nmemb ≠ 0 := by omega
    rw [← hlast] at haccess
    simpa [arrayTail, bind_run, header, diff, emit, hne] using haccess

/-- **Arrays of records are lists of records.** Of an array made by `array_create`, whatever
the type of its elements and their layout, and pushes to it among the calls of others: every
push succeeds or fails as the list of records says, with any allocator; the elements are the
records pushed with success, in their order; and each of them, and the last, is read where
`array_access` and `array_tail` point. -/
theorem records_are_arrays {n c c' : ℕ} {t t' : List Event}
    (hlayout : ∀ e, (layout e).length = eltSize) (hobject : eltSize ≤ ptrdiffMax)
    (hcreate : arrayCreate eltSize n false A ⟨none, c, t⟩ = .ok (.header, ⟨some a, c', t'⟩))
    (es : List (ℕ × α)) :
    ∃ oks r a' c'' t'', (Records.create eltSize n).pushAll eltSize A c' es = (oks, r) ∧
      pushAll layout es A ⟨some a, c', t'⟩ = .ok (oks, ⟨some a', c'', t''⟩) ∧
      a'.elements = r.items.map layout ∧ a'.cap = r.cap ∧
      (∀ i (hi : i < r.items.length) (s : ArrSt), s.arr = some a' →
        ∃ off, arrayAccess i A s = .ok (some off, s) ∧
          readOf a' off eltSize A s = .ok (layout r.items[i], s)) ∧
      match r.items.getLast? with
      | none => arrayTail A ⟨some a', c'', t''⟩ = .ok (none, ⟨some a', c'', t''⟩)
      | some e => ∃ off t₃, arrayTail A ⟨some a', c'', t''⟩ =
            .ok (some off, ⟨some a', c'', t₃⟩) ∧
          readOf a' off eltSize A ⟨some a', c'', t₃⟩ = .ok (layout e, ⟨some a', c'', t₃⟩) := by
  have hcreated : Represents layout eltSize (Records.create eltSize n) a := by
    obtain ⟨helt, hcases⟩ := arrayCreate_run (by rw [hcreate]; simp)
    rw [hcreate] at hcases
    split at hcases
    · cases hcases
    split at hcases
    · cases hcases
    · next hbuf =>
        cases hcases
        exact ⟨holds_createdArray helt (by simpa using hbuf), rfl, rfl, rfl⟩
  obtain ⟨a', c'', t'', hrun, hall⟩ := hcreated.pushAll (A := A) hlayout hobject es c' t'
  exact ⟨_, _, a', c'', t'', rfl, hrun, hall.holds.elements_eq, hall.cap_eq,
    fun i hi s hs => hall.access hi s hs, hall.tail c'' t''⟩

end Records

/-- Two bytes, pushed to an array with room for eight. -/
theorem bytes_recorded : ∃ a c t, pushAll (fun b : UInt8 => [b]) [(0, 1), (5, 2)] (.upTo 2)
      ⟨some (createdArray (.upTo 2) 0 1 1 false), 2, []⟩ = .ok ([true, true], ⟨some a, c, t⟩) ∧
    a.elements = [[1], [2]] := by
  have hcreate : arrayCreate 1 1 false (.upTo 2) ⟨none, 0, []⟩ =
      .ok (.header, ⟨some (createdArray (.upTo 2) 0 1 1 false), 2, []⟩) := rfl
  obtain ⟨oks, r, a, c, t, hpushes, hrun, helements, -⟩ :=
    records_are_arrays (fun b : UInt8 => (rfl : [b].length = 1)) (by decide) hcreate
      [(0, 1), (5, 2)]
  cases hpushes
  exact ⟨a, c, t, hrun, helements⟩

end Backd
