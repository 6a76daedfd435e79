import Backd.ArrayRemove

/-!
# Constructors

`array_create` makes two requests of the allocator, one for the header and one for the
buffer, and hands the header back through an out-parameter of `array_init`. This module
follows the four ways the two requests can be answered, and then the two constructors
that fill what `array_create` returns, `array_filter` and `array_dup`.

## Main results

* `arrayCreate_run`: the result of `array_create` in every case. When the buffer is
  refused, the result is the address of the header that was just released.
* `constructor_reliable_iff`: a constructor gives `NULL` or a live, initialised array exactly
  when it is not the case that the header is granted and the buffer refused.
-/

namespace Backd

open Splice

/-- `init_cap` of `array_create`: room for `n` elements, or for `ARRAY_INITIAL_SIZE` when
no count is given. -/
def initCap (eltSize n : ℕ) : ℕ :=
  sizeAlign (szMul eltSize (if n = 0 then arrayInitialSize else n))

/-- The array `array_create` builds from the two blocks it is granted. -/
def createdArray (A : Allocator) (calls eltSize n : ℕ) (free : Bool) : ArrayT :=
  { ptr := .heap (calls + 1), block := some (A.fresh (calls + 1) 0 (initCap eltSize n)),
    nmemb := 0, cap := initCap eltSize n, eltSize := eltSize, isOwnBuffer := true,
    settled := false, free := free }

section Constructors

variable {A : Allocator} {k : ℕ} {t : List Event}

theorem Allocator.le_of_serves {call size : ℕ} (h : A.serves call size = true) :
    size ≤ ptrdiffMax := by
  simp only [Allocator.serves, Bool.and_eq_true, decide_eq_true_eq] at h
  exact h.1

/-- A request that is granted gives a fresh block; one that is refused gives `NULL`. -/
theorem memoryAlloc_run (size : ℕ) (s : ArrSt) :
    memoryAlloc size A s =
      .ok (if A.serves s.calls size then some (.heap s.calls, A.fresh s.calls 0 size)
        else none, { s with calls := s.calls + 1 }) := by
  unfold memoryAlloc
  split <;> rfl

/-- **`array_init`**, for every answer of the allocator. -/
theorem arrayInit_run (size : ℕ) (o : Option ArrayT) :
    arrayInit size A ⟨o, k, t⟩ =
      if A.serves k headerSize = false then .ok ((false, .null), ⟨o, k + 1, t⟩)
      else if A.serves (k + 1) size = false then .ok ((false, .header), ⟨none, k + 2, t⟩)
      else .ok ((true, .header), ⟨some { ArrayT.zeroed with
        ptr := .heap (k + 1), block := some (A.fresh (k + 1) 0 size) }, k + 2, t⟩) := by
  cases hhead : A.serves k headerSize with
  | false => simp [arrayInit, bind_run, memoryAlloc_run, hhead]
  | true =>
      cases hbuf : A.serves (k + 1) size with
      | false => simp [arrayInit, bind_run, memoryAlloc_run, hhead, hbuf, clearedHeader, freeHeader]
      | true =>
          simp [arrayInit, bind_run, memoryAlloc_run, hhead, hbuf, clearedHeader, store]

/-- A guard that did not fire has left no trace. -/
theorem notifyBugOn_run {β : Type} {expr : Bool} {f : Unit → ArrM β} {s : ArrSt}
    (h : (notifyBugOn expr >>= f) A s ≠ .error .bug) :
    expr = false ∧ (notifyBugOn expr >>= f) A s = f () A s := by
  cases expr with
  | false => exact ⟨rfl, rfl⟩
  | true => exact absurd rfl h

/-- **`array_create`** behind its guards, for every answer of the allocator. -/
theorem arrayCreate_eq {eltSize n : ℕ} {free : Bool} (helt : 0 < eltSize)
    (hsafe : safeToMul eltSize n = true) :
    arrayCreate eltSize n free A ⟨none, k, t⟩ =
      if A.serves k headerSize = false then .ok (.null, ⟨none, k + 1, t⟩)
      else if A.serves (k + 1) (initCap eltSize n) = false then
        .ok (.header, ⟨none, k + 2, t⟩)
      else .ok (.header, ⟨some (createdArray A k eltSize n free), k + 2, t⟩) := by
  have hne : (eltSize == 0) = false := by simpa using Nat.ne_of_gt helt
  rw [arrayCreate, guard_run hne, guard_run (by rw [hsafe]; rfl)]
  have hinit := arrayInit_run (A := A) (k := k) (t := t) (initCap eltSize n) none
  cases hhead : A.serves k headerSize with
  | false =>
      rw [if_pos hhead] at hinit
      exact (bind_ok hinit).trans rfl
  | true =>
      cases hbuf : A.serves (k + 1) (initCap eltSize n) with
      | false =>
          simp only [hhead, hbuf] at hinit
          exact (bind_ok hinit).trans rfl
      | true =>
          simp only [hhead, hbuf] at hinit
          exact (bind_ok hinit).trans rfl

/-- **`array_create`**, for every answer of the allocator. -/
theorem arrayCreate_run {eltSize n : ℕ} {free : Bool}
    (hguards : arrayCreate eltSize n free A ⟨none, k, t⟩ ≠ .error .bug) :
    0 < eltSize ∧ arrayCreate eltSize n free A ⟨none, k, t⟩ =
      if A.serves k headerSize = false then .ok (.null, ⟨none, k + 1, t⟩)
      else if A.serves (k + 1) (initCap eltSize n) = false then
        .ok (.header, ⟨none, k + 2, t⟩)
      else .ok (.header, ⟨some (createdArray A k eltSize n free), k + 2, t⟩) := by
  obtain ⟨hne, heq⟩ := notifyBugOn_run (f := fun _ => _) hguards
  have helt : 0 < eltSize := Nat.pos_of_ne_zero (by simpa using hne)
  rw [arrayCreate, heq] at hguards
  obtain ⟨hsafe, -⟩ := notifyBugOn_run hguards
  exact ⟨helt, arrayCreate_eq helt (by simpa using hsafe)⟩

/-- A created array is live and empty. -/
theorem holds_createdArray {eltSize n : ℕ} {free : Bool} (helt : 0 < eltSize)
    (hbuf : A.serves (k + 1) (initCap eltSize n) = true) :
    Holds (createdArray A k eltSize n free) [] :=
  ⟨helt, Allocator.le_of_serves hbuf, rfl, _, rfl, Allocator.length_fresh _ _ _ _,
    lays_nil _ _⟩

/-! ### Filling a created array -/

variable {a : ArrayT} {l : List Bytes}

/-- The elements the loop of `array_filter` visits, from position `i` on. -/
theorem take_drop_succ {m : List Bytes} {i : ℕ} (n : ℕ) (hi : i < m.length) :
    (m.drop i).take (n + 1) = m[i] :: (m.drop (i + 1)).take n := by
  rw [List.drop_eq_getElem_cons hi, List.take_succ_cons]

/-- The loop of `array_filter` pushes the elements that pass the callback, until a push
fails. -/
theorem filterLoop_returns {src : ArrayT} {m : List Bytes} {callback : Bytes → Bool}
    (hsrc : Holds src m) (n i : ℕ) (hi : i + n ≤ m.length) (h : Holds a l)
    (hk : a.eltSize = src.eltSize) :
    Returns A a (filterLoop src callback n i) fun ok b _ =>
      ∃ l', Becomes a l' b ∧
        (ok = true → l' = l ++ ((m.drop i).take n).filter callback) := by
  induction n generalizing a l i with
  | zero => exact Returns.pure ⟨l, h.becomes, by simp⟩
  | succ n ih =>
      have hpos : i < m.length := by omega
      obtain ⟨bs, hb, hin, hwin⟩ := hsrc.slot hpos
      have hguard : ¬ src.nmemb ≤ i := by
        rw [hsrc.nmemb_eq]
        omega
      have hat : ∀ s, arrayAt src i A s = .ok (some (src.relativeData i), s) := by
        intro s
        simp [arrayAt, bind_run, notifyBugOn, hguard]
      refine Returns.bind (P := fun x b ev => x = some (src.relativeData i) ∧ b = a ∧ ev = [])
        (fun k t => .inr ⟨_, a, k, [], by rw [hat, List.append_nil], rfl, rfl, rfl⟩) ?_
      rintro x b ev ⟨rfl, rfl, rfl⟩
      refine Returns.readOf hb hin ?_
      rw [hwin, take_drop_succ n hpos]
      by_cases hcall : callback m[i] = true
      · have helem : Supplies b.eltSize 1 m[i] := by
          have hlen : m[i].length = src.eltSize := hsrc.uniform _ (List.getElem_mem hpos)
          have hone := hsrc.offset_le (p := 1) (by omega)
          have hcap := hsrc.cap_le
          exact ⟨by omega, by omega⟩
        have htake : m[i].take b.eltSize = m[i] := by
          have hlen : m[i].length = src.eltSize := hsrc.uniform _ (List.getElem_mem hpos)
          exact List.take_of_length_le (by omega)
        simp only [hcall, if_true]
        refine Returns.bind (arrayPush_returns h helem) ?_
        rintro ok c ev ⟨-, ⟨rfl, hc⟩ | ⟨rfl, rfl⟩⟩
        · refine (ih (i + 1) (by omega) hc.holds (hc.eltSize_eq.trans hk)).mono ?_
          rintro ok d ev' ⟨l', hd, hok⟩
          refine ⟨l', hc.trans hd, fun hok' => ?_⟩
          rw [hok hok', htake, List.filter_cons_of_pos hcall, List.append_assoc,
            List.singleton_append]
        · exact Returns.pure ⟨l, h.becomes, by simp⟩
      · simp only [hcall]
        refine (ih (i + 1) (by omega) h hk).mono ?_
        rintro ok d ev' ⟨l', hd, hok⟩
        refine ⟨l', hd, fun hok' => ?_⟩
        rw [hok hok', List.filter_cons_of_neg (by simpa using hcall)]

/-- Filling trips a guard, or gives a live array or `NULL`. -/
theorem fillOrKill_run {fill : ArrM Bool} {P : List Bytes → Prop}
    (h : Returns A a fill fun ok b _ => ∃ l', Becomes a l' b ∧ (ok = true → P l')) :
    fillOrKill fill A ⟨some a, k, t⟩ = .error .bug ∨
      (∃ b l' k' t', fillOrKill fill A ⟨some a, k, t⟩ = .ok (.header, ⟨some b, k', t'⟩) ∧
        Becomes a l' b ∧ P l') ∨
      ∃ k' t', fillOrKill fill A ⟨some a, k, t⟩ = .ok (.null, ⟨none, k', t'⟩) := by
  rcases h k t with hbug | ⟨ok, b, k', ev, hok, l', hb, hP⟩
  · exact .inl (by rw [fillOrKill, bind_run, hbug])
  refine .inr ?_
  rw [fillOrKill, bind_ok hok]
  cases ok with
  | true => exact .inl ⟨b, l', k', t ++ ev, rfl, hb, hP rfl⟩
  | false =>
      obtain ⟨ev', hkill, -⟩ := arrayKill_run (A := A) hb.holds k' (t ++ ev)
      exact .inr ⟨k', t ++ ev ++ ev', bind_ok hkill⟩

/-! ### The constructors together -/

/-- A call of a constructor that makes both requests itself. -/
inductive Construction
  | create (eltSize n : ℕ) (free : Bool)
  | dup (src : ArrayT)
  | filter (src : ArrayT) (callback : Bytes → Bool)

namespace Construction

/-- The function called. -/
def run : Construction → ArrM Handle
  | create eltSize n free => arrayCreate eltSize n free
  | dup src => arrayDup src
  | filter src callback => arrayFilter src callback

/-- The arguments `array_create` is called with. -/
def eltSize : Construction → ℕ
  | create eltSize _ _ => eltSize
  | dup src | filter src _ => src.eltSize

def count : Construction → ℕ
  | create _ n _ => n
  | dup src => src.nmemb
  | filter _ _ => arrayInitialSize

def free : Construction → Bool
  | create _ _ free => free
  | dup src | filter src _ => src.free

/-- What is done with the created array before it is returned. -/
def fill : Construction → ArrM Bool
  | create _ _ _ => pure true
  | dup src => arrayConcat (.other src)
  | filter src callback => filterLoop src callback src.nmemb 0

/-- What the new array is to hold. -/
def contents : Construction → List Bytes
  | create _ _ _ => []
  | dup src => src.elements
  | filter src callback => src.elements.filter callback

/-- The array that is read, if any, is live. -/
def Sound : Construction → Prop
  | create _ _ _ => True
  | dup src | filter src _ => Holds src src.elements

/-- A live array with the contents and the settings asked for. -/
structure Built (c : Construction) (a : ArrayT) : Prop where
  holds : Holds a c.contents
  ptr_ne : a.ptr ≠ .null
  eltSize_eq : a.eltSize = c.eltSize
  free_eq : a.free = c.free
  own : a.isOwnBuffer = true
  unsettled : a.settled = false

/-- What a caller that tests for `NULL` relies on: the result is `NULL` or the address of
a live array, and it is `NULL` when a request of `array_create` is refused. -/
def Reliable (c : Construction) (A : Allocator) (k : ℕ) (t : List Event) : Prop :=
  (∃ s, c.run A ⟨none, k, t⟩ = .ok (.null, s) ∨
      c.run A ⟨none, k, t⟩ = .ok (.header, s) ∧ ∃ a, s.arr = some a ∧ c.Built a) ∧
    (A.serves k headerSize = false ∨
      A.serves (k + 1) (initCap c.eltSize c.count) = false →
        ∃ s, c.run A ⟨none, k, t⟩ = .ok (.null, s))

/-- The header is granted and the buffer is refused. -/
def HalfGranted (c : Construction) (A : Allocator) (k : ℕ) : Prop :=
  A.serves k headerSize = true ∧ A.serves (k + 1) (initCap c.eltSize c.count) = false

/-- Every constructor is `array_create`, followed by the fill. -/
theorem run_eq (c : Construction) (s : ArrSt) :
    c.run A s = (arrayCreate c.eltSize c.count c.free >>= fun
      | .null => pure .null
      | .header => fillOrKill c.fill) A s := by
  cases c with
  | create eltSize n free =>
      simp only [run, Construction.eltSize, Construction.count, Construction.free, bind_run]
      rcases arrayCreate eltSize n free A s with e | ⟨_ | _, s'⟩ <;> rfl
  | dup src => rfl
  | filter src callback => rfl

/-- The fill of a created array succeeds with the contents asked for, or fails and leaves
a live array behind. -/
theorem fill_returns {c : Construction} (hc : c.Sound)
    (h : Holds (createdArray A k c.eltSize c.count c.free) []) :
    Returns A (createdArray A k c.eltSize c.count c.free) c.fill fun ok b _ =>
      ∃ l', Becomes (createdArray A k c.eltSize c.count c.free) l' b ∧
        (ok = true → l' = c.contents) := by
  cases c with
  | create eltSize n free => exact Returns.pure ⟨[], h.becomes, fun _ => rfl⟩
  | dup src =>
      refine (arrayConcat_returns h (o := .other src) hc).mono ?_
      rintro ok b ev ⟨-, ⟨rfl, hb⟩ | ⟨rfl, rfl⟩⟩
      · exact ⟨_, hb, fun _ => rfl⟩
      · exact ⟨[], h.becomes, by simp⟩
  | filter src callback =>
      have hsrc : Holds src src.elements := hc
      have hlen : src.nmemb = src.elements.length := hsrc.nmemb_eq
      refine (filterLoop_returns hsrc src.nmemb 0 (by omega) h rfl).mono ?_
      rintro ok b ev ⟨l', hb, hok⟩
      refine ⟨l', hb, fun h => ?_⟩
      rw [hok h, hlen]
      simp [contents]

end Construction

/-- A read changes nothing. -/
theorem readOf_run (b : ArrayT) (off len : ℕ) (s : ArrSt) :
    (∃ x, readOf b off len A s = .ok (x, s)) ∨ readOf b off len A s = .error .fault := by
  by_cases hlen : len = 0
  · exact .inl ⟨[], by simp [readOf, hlen]⟩
  cases hb : b.block with
  | none => exact .inr (by simp [readOf, hlen, hb, fault])
  | some bs =>
      by_cases hin : off + len ≤ bs.length
      · exact .inl ⟨window bs off len, by simp [readOf, hlen, hb, hin]⟩
      · exact .inr (by simp [readOf, hlen, hb, hin, fault])

/-- On a released header the loop of `array_filter` stops at the first push. -/
theorem filterLoop_released {src : ArrayT} {callback : Bytes → Bool} (n i : ℕ) :
    (∃ e, filterLoop src callback n i A ⟨none, k, t⟩ = .error e) ∨
      filterLoop src callback n i A ⟨none, k, t⟩ = .ok (true, ⟨none, k, t⟩) := by
  induction n generalizing i with
  | zero => exact .inr rfl
  | succ n ih =>
      by_cases hi : src.nmemb ≤ i
      · exact .inl ⟨.bug, by simp [filterLoop, bind_run, arrayAt, notifyBugOn, hi]⟩
      rcases readOf_run (A := A) src (src.relativeData i) src.eltSize ⟨none, k, t⟩ with
        ⟨elem, hread⟩ | hread
      · by_cases hcall : callback elem = true
        · exact .inl ⟨.fault, by simp [filterLoop, bind_run, arrayAt, notifyBugOn, hi, hread,
            hcall, arrayPush, arrayAdjust, header]⟩
        · simpa [filterLoop, bind_run, arrayAt, notifyBugOn, hi, hread, hcall] using ih (i + 1)
      · exact .inl ⟨.fault, by simp [filterLoop, bind_run, arrayAt, notifyBugOn, hi, hread]⟩

/-- Filling a released header stops, or does not notice. -/
theorem Construction.fill_released (c : Construction) :
    (∃ e, c.fill A ⟨none, k, t⟩ = .error e) ∨
      c.fill A ⟨none, k, t⟩ = .ok (true, ⟨none, k, t⟩) := by
  cases c with
  | create eltSize n free => exact .inr rfl
  | dup src => exact .inl ⟨.fault, rfl⟩
  | filter src callback => exact filterLoop_released src.nmemb 0

/-- The constructors where the header is granted and the buffer refused: the released
header is used, or returned. -/
theorem Construction.not_reliable {c : Construction} (hhalf : c.HalfGranted A k)
    (hguards : c.run A ⟨none, k, t⟩ ≠ .error .bug) : ¬ c.Reliable A k t := by
  obtain ⟨hhead, hbuf⟩ := hhalf
  rintro ⟨-, hnull⟩
  obtain ⟨s, hs⟩ := hnull (.inr hbuf)
  have hcreate : arrayCreate c.eltSize c.count c.free A ⟨none, k, t⟩ ≠ .error .bug := by
    intro hbug
    rw [run_eq, bind_run, hbug] at hguards
    exact hguards rfl
  have hrun := (arrayCreate_run hcreate).2
  simp only [hhead, hbuf] at hrun
  rw [run_eq, bind_ok hrun] at hs
  have hfill : fillOrKill c.fill A ⟨none, k + 2, t⟩ = .ok (.null, s) := hs
  rcases c.fill_released (A := A) (k := k + 2) (t := t) with ⟨e, he⟩ | hok
  · rw [fillOrKill, bind_run, he] at hfill
    cases hfill
  · rw [fillOrKill, bind_ok hok] at hfill
    cases hfill

/-- **When constructors are reliable.** A constructor that trips no guard returns `NULL`
or a live array that holds what was asked for, and `NULL` when a request of
`array_create` is refused, exactly when it is not the case that the header is granted and
the buffer refused. -/
theorem constructor_reliable_iff {c : Construction} (hc : c.Sound)
    (hguards : c.run A ⟨none, k, t⟩ ≠ .error .bug) :
    c.Reliable A k t ↔ ¬ c.HalfGranted A k := by
  refine ⟨fun hrel hhalf => c.not_reliable hhalf hguards hrel, fun hwhole => ?_⟩
  have hcreate : arrayCreate c.eltSize c.count c.free A ⟨none, k, t⟩ ≠ .error .bug := by
    intro hbug
    rw [Construction.run_eq, bind_run, hbug] at hguards
    exact hguards rfl
  obtain ⟨helt, hrun⟩ := arrayCreate_run hcreate
  cases hhead : A.serves k headerSize with
  | false =>
      simp only [hhead] at hrun
      have hnull : c.run A ⟨none, k, t⟩ = .ok (.null, ⟨none, k + 1, t⟩) := by
        rw [Construction.run_eq, bind_ok hrun]
        rfl
      exact ⟨⟨_, .inl hnull⟩, fun _ => ⟨_, hnull⟩⟩
  | true =>
      have hbuf : A.serves (k + 1) (initCap c.eltSize c.count) = true := by
        by_contra hno
        exact hwhole ⟨hhead, by simpa using hno⟩
      simp only [hhead, hbuf] at hrun
      have hfill : c.run A ⟨none, k, t⟩ = fillOrKill c.fill A
          ⟨some (createdArray A k c.eltSize c.count c.free), k + 2, t⟩ := by
        rw [Construction.run_eq, bind_ok hrun]
      have hreturns := Construction.fill_returns hc (holds_createdArray (A := A) helt hbuf)
      refine ⟨?_, by simp [hhead, hbuf]⟩
      rcases fillOrKill_run (k := k + 2) (t := t) hreturns with
        hbug | ⟨b, l', k', t', hok, hb, rfl⟩ | ⟨k', t', hok⟩
      · exact absurd (hfill.trans hbug) hguards
      · exact ⟨_, .inr ⟨hfill.trans hok, b, rfl, hb.holds, hb.ptr_ne (by simp [createdArray]),
          hb.eltSize_eq, hb.free_eq, hb.own_eq, hb.settled_eq⟩⟩
      · exact ⟨_, .inl (hfill.trans hok)⟩

end Constructors

/-- An allocator that grants the calls below a number. -/
def Allocator.upTo (n : ℕ) : Allocator :=
  { grants := fun call _ => decide (call < n), junk := fun _ _ => 0 }

/-- An array of two elements of three bytes, in a block of eight. -/
def twoTriples : ArrayT :=
  { ptr := .heap 0, block := some [1, 2, 3, 4, 5, 6, 7, 8], nmemb := 2, cap := 8,
    eltSize := 3, isOwnBuffer := true, settled := false, free := true }

theorem holds_twoTriples : Holds twoTriples twoTriples.elements :=
  holds_elements (by decide) (by decide) rfl rfl (by decide)

/-- `array_dup` of two elements, with every request granted. -/
theorem dup_reliable : (Construction.dup twoTriples).Reliable (.upTo 5) 0 [] :=
  (constructor_reliable_iff (c := .dup twoTriples) holds_twoTriples (by decide)).mpr
    (by rintro ⟨-, hbuf⟩; exact absurd hbuf (by decide))

/-- With the header granted and the buffer refused, `array_create` returns the header it
has just released. -/
theorem create_returns_released :
    arrayCreate 1 1 false (.upTo 1) ⟨none, 0, []⟩ = .ok (.header, ⟨none, 2, []⟩) ∧
      ¬ ∀ (c : Construction) (A : Allocator) (k : ℕ) (t : List Event), c.Sound →
        c.run A ⟨none, k, t⟩ ≠ .error .bug → c.Reliable A k t :=
  ⟨by decide, fun h => Construction.not_reliable (c := .create 1 1 false) (A := .upTo 1)
    (k := 0) (t := []) ⟨by decide, by decide⟩ (by decide)
    (h _ _ _ _ trivial (by decide))⟩

end Backd
