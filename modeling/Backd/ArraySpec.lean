import Backd.ArrayLogic
import Backd.ArrayOps

/-!
# What the Array Operations Do

The specification of every mutating operation of `array.c`, stated against the list of
elements the buffer holds. `Holds a l` is the invariant of a live array: its block has
`_cap` bytes, no more than the largest object, and begins with the `_nmemb` elements `l`,
each of `_elt_size` bytes.

One theorem per operation, each a `Returns` triple from `Holds`: the operation never
faults, and if no guard fires it leaves an array that holds the list the operation is
named after. The events are described by what matters of them: `destroyed` (which elements
went to the destructor) and `Event.Fine` (no size subtraction below zero).

The growing operations rest on `arrayAdjust_returns`. Its hypothesis, that the byte count
asked for can still be rounded up to the machine word, is what each caller has to supply.
-/

namespace Backd

open Splice

/-! ### The invariant -/

/-- The array is live and holds the elements `l`. -/
structure Holds (a : ArrayT) (l : List Bytes) : Prop where
  elt_pos : 0 < a.eltSize
  cap_le : a.cap ≤ ptrdiffMax
  nmemb_eq : a.nmemb = l.length
  exists_block : ∃ bs, a.block = some bs ∧ bs.length = a.cap ∧ Lays a.eltSize l bs

/-- The elements a header describes: the first `_nmemb` cells of its block. -/
def ArrayT.elements (a : ArrayT) : List Bytes :=
  cells a.eltSize a.nmemb (a.block.getD [])

theorem Holds.elements_eq {a : ArrayT} {l : List Bytes} (h : Holds a l) : a.elements = l := by
  obtain ⟨bs, hb, -, hlays⟩ := h.exists_block
  rw [ArrayT.elements, hb, h.nmemb_eq, Option.getD_some, hlays.cells_eq]

theorem Holds.bytes_le {a : ArrayT} {l : List Bytes} (h : Holds a l) :
    a.eltSize * l.length ≤ a.cap := by
  obtain ⟨bs, -, hlen, hlays⟩ := h.exists_block
  exact hlen ▸ hlays.length_le

/-- An array whose counted bytes fit into its block holds what it describes. -/
theorem holds_elements {a : ArrayT} {bs : Bytes} (hk : 0 < a.eltSize)
    (hcap : a.cap ≤ ptrdiffMax) (hb : a.block = some bs) (hlen : bs.length = a.cap)
    (hfit : a.nmemb * a.eltSize ≤ a.cap) : Holds a a.elements := by
  have hfit' : a.eltSize * a.nmemb ≤ bs.length := by
    rw [hlen, Nat.mul_comm]
    exact hfit
  refine ⟨hk, hcap, by simp [ArrayT.elements], bs, hb, hlen, ?_⟩
  simp only [ArrayT.elements, hb, Option.getD_some]
  exact lays_iff_cells.mpr ⟨by simpa using hfit', by simp⟩

section Bounds

variable {a : ArrayT} {l : List Bytes}

theorem Holds.length_le (h : Holds a l) : l.length ≤ a.cap :=
  le_trans (Nat.le_mul_of_pos_left _ h.elt_pos) h.bytes_le

/-- The capacity is far below the top of `size_t`. -/
theorem Holds.cap_le_sizeMax (h : Holds a l) : 2 * a.cap + 1 ≤ sizeMax := by
  have := h.cap_le
  simp only [ptrdiffMax, sizeMax] at *
  omega

/-- Offsets of positions inside the buffer do not wrap. -/
theorem relativeData_eq {p : ℕ} (h : a.eltSize * p ≤ sizeMax) :
    a.relativeData p = a.eltSize * p :=
  szMul_eq h

theorem Holds.offset_le (h : Holds a l) {p : ℕ} (hp : p ≤ l.length) :
    a.eltSize * p ≤ a.cap :=
  le_trans (Nat.mul_le_mul_left _ hp) h.bytes_le

theorem Holds.relativeData_eq (h : Holds a l) {p : ℕ} (hp : p ≤ l.length) :
    a.relativeData p = a.eltSize * p :=
  Backd.relativeData_eq (by have := h.offset_le hp; have := h.cap_le_sizeMax; omega)

/-- The bytes of the elements. -/
theorem Holds.sizeof_eq (h : Holds a l) : a.sizeof = a.eltSize * l.length := by
  have hfit := h.bytes_le
  have hcap := h.cap_le_sizeMax
  rw [ArrayT.sizeof, h.nmemb_eq, szMul_eq (by rw [Nat.mul_comm]; omega), Nat.mul_comm]

theorem Holds.uniform (h : Holds a l) : Uniform a.eltSize l := by
  obtain ⟨bs, -, -, hlays⟩ := h.exists_block
  exact hlays.1

end Bounds

/-! ### Events -/

/-- A subtraction of sizes that stays at or above zero; every other event. -/
def Event.Fine : Event → Prop
  | .diff x y => y ≤ x
  | _ => True

/-- The elements handed to the destructor, in order. -/
def destroyed (ev : List Event) : List Bytes :=
  ev.filterMap fun
    | .destroy e => some e
    | _ => none

@[simp] theorem destroyed_append (ev ev' : List Event) :
    destroyed (ev ++ ev') = destroyed ev ++ destroyed ev' := by
  simp [destroyed]

/-- No size subtraction below zero, and exactly the elements `gone` destroyed. -/
structure Tame (gone : List Bytes) (ev : List Event) : Prop where
  fine : ∀ e ∈ ev, e.Fine
  destroyed_eq : destroyed ev = gone

theorem tame_nil : Tame [] [] := ⟨by simp, rfl⟩

theorem Tame.append {gone gone' : List Bytes} {ev ev' : List Event} (h : Tame gone ev)
    (h' : Tame gone' ev') : Tame (gone ++ gone') (ev ++ ev') := by
  refine ⟨fun e he => ?_, by rw [destroyed_append, h.destroyed_eq, h'.destroyed_eq]⟩
  exact (List.mem_append.mp he).elim (h.fine e) (h'.fine e)

theorem Tame.diff {gone : List Bytes} {ev : List Event} {x y : ℕ} (h : Tame gone ev)
    (hxy : y ≤ x) : Tame gone (.diff x y :: ev) := by
  refine ⟨?_, h.destroyed_eq⟩
  simpa [Event.Fine, hxy] using h.fine

theorem tame_destroy (e : Bytes) : Tame [e] [.destroy e] :=
  ⟨by simp [Event.Fine], rfl⟩

theorem tame_realloc (p : Addr) (size : ℕ) : Tame [] [.realloc p size] :=
  ⟨by simp [Event.Fine], rfl⟩

/-! ### Growth -/

/-- The array `a` has become an array that holds `l'`: its size and its buffer may have
changed, and nothing else. -/
structure Becomes (a : ArrayT) (l' : List Bytes) (a' : ArrayT) : Prop where
  holds : Holds a' l'
  eltSize_eq : a'.eltSize = a.eltSize
  free_eq : a'.free = a.free
  own_eq : a'.isOwnBuffer = a.isOwnBuffer
  settled_eq : a'.settled = a.settled
  ptr_ne : a.ptr ≠ .null → a'.ptr ≠ .null

theorem Becomes.trans {a b c : ArrayT} {l m : List Bytes} (h : Becomes a l b)
    (h' : Becomes b m c) : Becomes a m c :=
  ⟨h'.holds, h'.eltSize_eq.trans h.eltSize_eq, h'.free_eq.trans h.free_eq,
    h'.own_eq.trans h.own_eq, h'.settled_eq.trans h.settled_eq, h'.ptr_ne ∘ h.ptr_ne⟩

/-- A change of the size or of the block's contents alone. -/
theorem Holds.becomes {a : ArrayT} {l' : List Bytes} {n : ℕ} {block : Option Bytes}
    (h : Holds { a with nmemb := n, block := block } l') :
    Becomes a l' { a with nmemb := n, block := block } :=
  ⟨h, rfl, rfl, rfl, rfl, id⟩

/-- The new size covers the byte count and the doubled capacity, or it wraps. -/
theorem newSize_cases {n : ℕ} (cap2x : ℕ) (hn : n ≤ sizeMax) :
    n ≤ newSize n cap2x ∧ cap2x ≤ newSize n cap2x ∨
      newSize n cap2x = 0 ∧ sizeMax < n + ptrSize := by
  have halign := sizeAlign_cases hn
  unfold newSize
  split <;> omega

/-- The decision of `array_adjust`. Only a settled array or one past the growth limit is
refused. A reallocation covers the byte count and the old buffer, unless rounding up the
byte count wraps to zero. -/
theorem growth_cases {cap n : ℕ} (settled : Bool) (hcap : cap * 2 ≤ sizeMax)
    (hn : n ≤ sizeMax) :
    (growth cap settled n = .fits ∧ n < cap) ∨ growth cap settled n = .refuse ∨
      ∃ m, growth cap settled n = .realloc m ∧ settled = false ∧ cap * 2 ≤ intMax ∧
        (n ≤ m ∧ cap ≤ m ∧ 0 < m ∨ m = 0 ∧ sizeMax < n + ptrSize) := by
  have hmul : szMul cap 2 = cap * 2 := szMul_eq hcap
  by_cases hfit : n < cap
  · exact .inl ⟨if_pos hfit, hfit⟩
  by_cases hset : settled = true
  · exact .inr (.inl (by simp [growth, hfit, hset]))
  by_cases hinit : cap * 2 < arrayInitialSize
  · refine .inr (.inr ⟨newSize n arrayInitialSize, ?_, by simpa using hset, ?_, ?_⟩)
    · simp [growth, hfit, hset, hmul, hinit]
    · simp only [arrayInitialSize, intMax] at *
      omega
    · have := newSize_cases arrayInitialSize hn
      simp only [arrayInitialSize] at *
      omega
  by_cases hmax : cap * 2 > intMax
  · exact .inr (.inl (by simp [growth, hfit, hset, hmul, hinit, hmax]))
  refine .inr (.inr ⟨newSize n (cap * 2), ?_, by simpa using hset, by omega, ?_⟩)
  · simp [growth, hfit, hset, hmul, hinit, hmax]
  · have := newSize_cases (cap * 2) hn
    simp only [arrayInitialSize] at *
    omega

section Specs

variable {A : Allocator} {a : ArrayT} {l : List Bytes}

/-- A reallocation to a larger size is refused, or keeps the buffer's contents in a larger
block. -/
theorem memoryRealloc_returns {bs : Bytes} {m : ℕ} (hb : a.block = some bs) (hm : 0 < m)
    (hle : bs.length ≤ m) :
    Returns A a (memoryRealloc m) fun r a' ev =>
      a' = a ∧ ev = [.realloc a.ptr m] ∧
        ∀ x, r = some x → m ≤ ptrdiffMax ∧ x.1 ≠ .null ∧
          ∃ extra, x.2 = bs ++ extra ∧ (bs ++ extra).length = m := by
  refine Returns.header (Returns.emit ?_)
  rw [hb]
  dsimp only
  rw [if_neg (Nat.ne_of_gt hm)]
  intro k t
  by_cases hg : A.serves k m = true
  · have hmax : m ≤ ptrdiffMax := by
      simp only [Allocator.serves, Bool.and_eq_true, decide_eq_true_eq] at hg
      exact hg.1
    refine .inr ⟨some (.heap k, bs.take m ++ A.fresh k bs.length (m - bs.length)), a, k + 1,
      [], by simp [resize, hg], rfl, rfl, ?_⟩
    intro x hx
    obtain rfl := Option.some.inj hx
    refine ⟨hmax, by simp, A.fresh k bs.length (m - bs.length), ?_, ?_⟩
    · simp [List.take_of_length_le hle]
    · simp only [List.length_append, Allocator.length_fresh]
      omega
  · refine .inr ⟨none, a, k + 1, [], by simp [resize, hg], rfl, rfl, by simp⟩

/-- A reallocation to size zero releases the buffer and fails. -/
theorem memoryRealloc_zero {bs : Bytes} (hb : a.block = some bs) :
    Returns A a (memoryRealloc 0) fun r _ ev => r = none ∧ ev = [.realloc a.ptr 0] := by
  refine Returns.header (Returns.emit ?_)
  rw [hb]
  exact Returns.store (Returns.pure ⟨rfl, rfl⟩)

/-- **`array_adjust`** makes room for `n` more elements, or fails. A failed call changes
nothing, unless the byte count is within a word of the top of `size_t`. -/
theorem arrayAdjust_returns (h : Holds a l) {n : ℕ} (hn : n ≤ sizeMax) :
    Returns A a (arrayAdjust n) fun ok a' ev =>
      Tame [] ev ∧
        ((ok = true ∧ Becomes a l a' ∧ a'.nmemb = a.nmemb ∧
            a.eltSize * (l.length + n) ≤ a'.cap) ∨
          (ok = false ∧ (a' = a ∨ a.cap * 2 ≤ intMax ∧
            sizeMax < a.eltSize * (l.length + n) + ptrSize))) := by
  obtain ⟨bs, hb, hlen, hlays⟩ := h.exists_block
  refine Returns.header (Returns.guard fun _ => Returns.guard fun hadd =>
    Returns.guard fun hmul => ?_)
  have hsum : l.length + n ≤ sizeMax := by
    simpa [safeToAdd_iff hn, h.nmemb_eq] using hadd
  have hprod : a.eltSize * (l.length + n) ≤ sizeMax := by
    simpa [safeToMul_iff, h.nmemb_eq, szAdd_eq hsum, Nat.mul_comm] using hmul
  have hreq : szMul (szAdd n a.nmemb) a.eltSize = a.eltSize * (l.length + n) := by
    rw [h.nmemb_eq, szAdd_eq (by omega), Nat.add_comm, szMul_eq (by rwa [Nat.mul_comm]),
      Nat.mul_comm]
  rw [hreq]
  have hcap := h.cap_le_sizeMax
  rcases growth_cases a.settled (by omega : a.cap * 2 ≤ sizeMax) hprod with
    ⟨hg, hfit⟩ | hg | ⟨m, hg, -, hsmall, ⟨hnm, hcm, hm⟩ | ⟨rfl, hwrap⟩⟩ <;> rw [hg]
  · exact Returns.pure ⟨tame_nil, .inl ⟨rfl, h.becomes, rfl, Nat.le_of_lt hfit⟩⟩
  · exact Returns.pure ⟨tame_nil, .inr ⟨rfl, .inl rfl⟩⟩
  · refine Returns.bind (memoryRealloc_returns hb hm (by omega)) ?_
    rintro r a' ev ⟨rfl, rfl, hsome⟩
    cases r with
    | none => exact Returns.pure ⟨tame_realloc _ _, .inr ⟨rfl, .inl rfl⟩⟩
    | some x =>
        obtain ⟨hmax, hptr, extra, hbytes, hm'⟩ := hsome x rfl
        refine Returns.store (Returns.pure ⟨tame_realloc _ _, .inl ⟨rfl, ?_, rfl, hnm⟩⟩)
        exact ⟨⟨h.elt_pos, hmax, h.nmemb_eq, x.2, rfl, by rw [hbytes, hm'],
          hbytes ▸ hlays.extend extra⟩, rfl, rfl, rfl, rfl, fun _ => hptr⟩
  · refine Returns.bind (memoryRealloc_zero hb) ?_
    rintro - a' ev ⟨rfl, rfl⟩
    exact Returns.pure ⟨tame_realloc _ _, .inr ⟨rfl, .inr ⟨hsmall, hwrap⟩⟩⟩

/-! ### Insertion -/

/-- The caller's memory `src` is an object that holds `n` elements of `k` bytes. -/
structure Supplies (k n : ℕ) (src : Bytes) : Prop where
  holds : k * n ≤ src.length
  isObject : src.length ≤ ptrdiffMax

/-- The elements of an object stay within what `array_adjust` can be asked for. -/
theorem Supplies.request_le {k n : ℕ} {src : Bytes} (h : Supplies k n src) (cap : ℕ) :
    k * n ≤ cap + ptrdiffMax :=
  le_trans (le_trans h.holds h.isObject) (Nat.le_add_left _ _)

/-- The two outcomes of a growing operation: the array holds `l'`, or nothing changed.
Nothing is destroyed either way. -/
def Grows (a : ArrayT) (l' : List Bytes) (ok : Bool) (a' : ArrayT) (ev : List Event) : Prop :=
  Tame [] ev ∧
    ((ok = true ∧ Becomes a l' a') ∨ (ok = false ∧ a' = a))

/-- The block after the elements from `p` on were moved up by `n` positions. -/
def gapped (a : ArrayT) (l : List Bytes) (p n : ℕ) (bs : Bytes) : Bytes :=
  overwrite bs (a.eltSize * (p + n))
    (window bs (a.eltSize * p) (a.eltSize * (l.length - p)))

/-- No move is needed when the gap is at the end, or the array is empty. -/
theorem gapped_end {p n : ℕ} (bs : Bytes) (hp : l.length = p ∨ l.length = 0) :
    gapped a l p n bs = bs := by
  have : l.length - p = 0 := by omega
  simp [gapped, this]

/-- The elements behind `p`, as a range of bytes, and where it is moved to. -/
theorem gap_range {p n : ℕ} (k : ℕ) (hp : p ≤ l.length) :
    k * p + k * (l.length - p) = k * l.length ∧
      k * (p + n) + k * (l.length - p) = k * (l.length + n) := by
  constructor
  · rw [← Nat.mul_add]
    congr 1
    omega
  · rw [← Nat.mul_add]
    congr 1
    omega

theorem length_gapped {bs : Bytes} {p n : ℕ} (h : Holds a l) (hlen : bs.length = a.cap)
    (hp : p ≤ l.length) (hroom : a.eltSize * (l.length + n) ≤ a.cap) :
    (gapped a l p n bs).length = a.cap := by
  obtain ⟨hsrc, hdst⟩ := gap_range (n := n) a.eltSize hp
  have hfit := h.bytes_le
  rw [gapped, length_overwrite (by rw [length_window (by omega)]; omega), hlen]

/-- The move that opens a gap of `n` elements at position `p`. -/
theorem moveUp_returns {bs : Bytes} {p n : ℕ} (h : Holds a l) (hb : a.block = some bs)
    (hlen : bs.length = a.cap) (hp : p ≤ l.length)
    (hroom : a.eltSize * (l.length + n) ≤ a.cap) :
    Returns A a
      (moveBlock (a.relativeData (szAdd p n)) (a.relativeData p)
        (a.eltSize * (l.length - p)))
      fun _ a' ev => a' = { a with block := some (gapped a l p n bs) } ∧ Tame [] ev := by
  have hcap := h.cap_le_sizeMax
  have hpn : p + n ≤ a.eltSize * (l.length + n) :=
    le_trans (Nat.add_le_add_right hp n) (Nat.le_mul_of_pos_left _ h.elt_pos)
  obtain ⟨hsrc, hdst⟩ := gap_range (n := n) a.eltSize hp
  have hfit := h.bytes_le
  rw [szAdd_eq (by omega), h.relativeData_eq hp, relativeData_eq (by omega)]
  exact Returns.moveBlock hb (by omega) (by omega) ⟨rfl, tame_nil⟩

/-- An array with the gap filled holds the spliced list. -/
theorem Holds.fill {bs : Bytes} {p : ℕ} {cs : List Bytes} (h : Holds a l)
    (hb : a.block = some bs) (hlen : bs.length = a.cap) (hp : p ≤ l.length)
    (hcs : Uniform a.eltSize cs) (hroom : a.eltSize * (l.length + cs.length) ≤ a.cap) :
    Holds { a with
      block := some (overwrite (gapped a l p cs.length bs) (a.eltSize * p) cs.flatten)
      nmemb := szAdd a.nmemb cs.length } (l.take p ++ cs ++ l.drop p) := by
  obtain ⟨bs', hb', -, hlays⟩ := h.exists_block
  obtain rfl : bs = bs' := Option.some.inj (hb.symm.trans hb')
  have hcap := h.cap_le_sizeMax
  have hsum : l.length + cs.length ≤ a.eltSize * (l.length + cs.length) :=
    Nat.le_mul_of_pos_left _ h.elt_pos
  have htake : (l.take p).length = p := List.length_take_of_le hp
  have hdrop : (l.drop p).length = l.length - p := List.length_drop
  have hlays' : Lays a.eltSize (l.take p ++ l.drop p) bs := by
    rwa [List.take_append_drop]
  have key := hlays'.insert hcs (by rw [htake, hdrop, hlen]; convert hroom using 2; omega)
  rw [htake, hdrop] at key
  refine ⟨h.elt_pos, h.cap_le, ?_, _, rfl, ?_, key⟩
  · rw [h.nmemb_eq, szAdd_eq (by omega)]
    simp only [List.length_append, List.length_take, List.length_drop]
    omega
  · have hgap := length_gapped h hlen hp hroom
    have hdst := (gap_range (n := cs.length) a.eltSize hp).2
    rw [Nat.mul_add] at hdst
    rw [length_overwrite (by rw [hcs.length_flatten, hgap]; omega), hgap]

/-- Every growing operation begins with `array_adjust` and gives up when that fails. The
elements to be added come from objects, so the byte count does not wrap where the buffer
is still small enough to grow. -/
theorem Returns.reserve {n : ℕ} {l' : List Bytes} {f : ArrM Bool} (h : Holds a l)
    (hobj : a.eltSize * n ≤ a.cap + ptrdiffMax)
    (hf : ∀ a', Becomes a l a' → a'.nmemb = a.nmemb →
      a'.eltSize * (l.length + n) ≤ a'.cap →
      Returns A a' f fun ok b ev => Tame [] ev ∧ ok = true ∧ Becomes a' l' b) :
    Returns A a (arrayAdjust n >>= fun ok => if (!ok) = true then Pure.pure false else f)
      (Grows a l') := by
  have hcap := h.cap_le
  have hn : n ≤ a.eltSize * n := Nat.le_mul_of_pos_left _ h.elt_pos
  have hle : n ≤ sizeMax := by
    simp only [ptrdiffMax, sizeMax] at *
    omega
  refine Returns.bind (arrayAdjust_returns h hle) ?_
  rintro ok a' ev ⟨hev, ⟨rfl, hbecomes, hnmemb, hroom⟩ | ⟨rfl, rfl | ⟨hsmall, hwrap⟩⟩⟩
  · refine (hf a' hbecomes hnmemb (hbecomes.eltSize_eq ▸ hroom)).mono ?_
    rintro ok b ev' ⟨hev', rfl, hb⟩
    exact ⟨by simpa using hev.append hev', .inl ⟨rfl, hbecomes.trans hb⟩⟩
  · exact Returns.pure ⟨by simpa using hev, .inr ⟨rfl, rfl⟩⟩
  · have hfit := h.bytes_le
    simp only [Nat.mul_add, intMax, ptrdiffMax, sizeMax, ptrSize] at *
    omega

/-- Filling the gap at `p` with the caller's elements, the common end of the inserting
operations. -/
theorem fill_returns {bs e : Bytes} {p : ℕ} {cs : List Bytes} (h : Holds a l)
    (hb : a.block = some bs) (hlen : bs.length = a.cap) (hp : p ≤ l.length)
    (hcs : Uniform a.eltSize cs) (hroom : a.eltSize * (l.length + cs.length) ≤ a.cap)
    (hsrc : a.eltSize * cs.length ≤ e.length)
    (hflat : e.take (a.eltSize * cs.length) = cs.flatten) :
    Returns A { a with block := some (gapped a l p cs.length bs) }
      (readSource (some e) (a.eltSize * cs.length) >>= fun bytes =>
        writeBlock (a.relativeData p) bytes >>= fun _ =>
          store (fun self => { self with nmemb := szAdd self.nmemb cs.length }) >>= fun _ =>
            Pure.pure true)
      fun ok b ev => Tame [] ev ∧ ok = true ∧ Becomes a (l.take p ++ cs ++ l.drop p) b := by
  have hgap := length_gapped h hlen hp hroom
  have hdst := (gap_range (n := cs.length) a.eltSize hp).2
  rw [Nat.mul_add] at hdst
  refine Returns.readSource hsrc ?_
  rw [hflat, h.relativeData_eq hp]
  refine Returns.bind (P := fun _ b ev => b = { a with
    block := some (overwrite (gapped a l p cs.length bs) (a.eltSize * p) cs.flatten) } ∧
      ev = []) ?_ ?_
  · exact Returns.writeBlock rfl (by rw [hcs.length_flatten, hgap]; omega) ⟨rfl, rfl⟩
  · rintro - b ev ⟨rfl, rfl⟩
    exact Returns.store (Returns.pure
      ⟨tame_nil, rfl, (h.fill hb hlen hp hcs hroom).becomes⟩)

/-- **`array_insert`** puts the element before position `p`. -/
theorem arrayInsert_returns (h : Holds a l) {p : ℕ} {e : Bytes}
    (he : Supplies a.eltSize 1 e) :
    Returns A a (arrayInsert p (some e))
      (Grows a (l.take p ++ [e.take a.eltSize] ++ l.drop p)) := by
  refine Returns.header (Returns.guard fun hguard => ?_)
  have hp : p ≤ l.length := by simpa [h.nmemb_eq] using hguard
  refine Returns.reserve h (he.request_le _) ?_
  rintro a' ⟨hholds, hk, -, -, -, -⟩ - hroom
  obtain ⟨bs, hb, hlen, -⟩ := hholds.exists_block
  have hcap := hholds.cap_le_sizeMax
  have hfit := hholds.bytes_le
  have hoff := hholds.offset_le hp
  refine Returns.header ?_
  refine Returns.bind (P := fun _ b ev =>
    b = { a' with block := some (gapped a' l p 1 bs) } ∧ Tame [] ev) ?_ ?_
  · refine Returns.runIf (fun _ => ?_) fun hend => ?_
    · have hlast : szMul a'.nmemb a'.eltSize = a'.eltSize * l.length := by
        rw [hholds.nmemb_eq, szMul_eq (by rw [Nat.mul_comm]; omega), Nat.mul_comm]
      have hpos : szMul p a'.eltSize = a'.eltSize * p := by
        rw [szMul_eq (by rw [Nat.mul_comm]; omega), Nat.mul_comm]
      rw [hlast, hpos]
      refine Returns.diff ?_
      rw [szSub_eq (Nat.mul_le_mul_left _ hp) (by omega), ← Nat.mul_sub]
      refine (moveUp_returns hholds hb hlen hp hroom).mono ?_
      rintro - b ev ⟨hbk, hev⟩
      exact ⟨hbk, hev.diff (Nat.mul_le_mul_left _ hp)⟩
    · rw [hholds.nmemb_eq] at hend
      rw [gapped_end bs (by omega), ← hb]
      exact ⟨rfl, tame_nil⟩
  · rintro - b ev ⟨rfl, hev⟩
    have hle : a'.eltSize ≤ e.length := by simpa [hk] using he.holds
    have hcs : Uniform a'.eltSize [e.take a'.eltSize] := by simpa using hle
    have hfill := fill_returns (A := A) hholds hb hlen hp hcs (by simpa using hroom)
      (e := e) (by simpa using hle) (by simp)
    simp only [List.length_singleton, Nat.mul_one, hk] at hfill ⊢
    refine hfill.mono ?_
    rintro ok b' ev' ⟨hev', hok, hb'⟩
    exact ⟨by simpa using hev.append hev', hok, hb'⟩

/-- `array_pushf` is `array_insert` at position zero. -/
theorem arrayPushf_returns (h : Holds a l) {e : Bytes} (he : Supplies a.eltSize 1 e) :
    Returns A a (arrayPushf (some e)) (Grows a (e.take a.eltSize :: l)) := by
  have key := arrayInsert_returns (A := A) h (p := 0) he
  simpa [arrayPushf] using key

/-- **`array_push`** puts the element at the end. -/
theorem arrayPush_returns (h : Holds a l) {e : Bytes} (he : Supplies a.eltSize 1 e) :
    Returns A a (arrayPush (some e)) (Grows a (l ++ [e.take a.eltSize])) := by
  refine Returns.guard fun _ => Returns.reserve h (he.request_le _) ?_
  rintro a' ⟨hholds, hk, -, -, -, -⟩ - hroom
  obtain ⟨bs, hb, hlen, -⟩ := hholds.exists_block
  rw [← hk] at he ⊢
  have hle : a'.eltSize ≤ e.length := by simpa using he.holds
  have hcs : Uniform a'.eltSize [e.take a'.eltSize] := by simpa using hle
  have hfill := fill_returns (A := A) hholds hb hlen (le_refl l.length) hcs
    (by simpa using hroom) (e := e) (by simpa using hle) (by simp)
  rw [gapped_end bs (.inl rfl), ← hb] at hfill
  refine Returns.header ?_
  rw [hholds.nmemb_eq]
  simpa using hfill

/-- The cells of a source that holds `n` elements. -/
theorem source_cells {k n : ℕ} {src : Bytes} (h : k * n ≤ src.length) :
    Uniform k (cells k n src) ∧ src.take (k * n) = (cells k n src).flatten :=
  ⟨uniform_cells h, (flatten_cells h).symm⟩

/-- **`array_append`** puts the elements of the source at the end. -/
theorem arrayAppend_returns (h : Holds a l) {src : Bytes} {n : ℕ}
    (hsrc : Supplies a.eltSize n src) :
    Returns A a (arrayAppend (some src) n) (Grows a (l ++ cells a.eltSize n src)) := by
  refine Returns.guard fun _ => Returns.reserve h (hsrc.request_le _) ?_
  rintro a' ⟨hholds, hk, -, -, -, -⟩ - hroom
  obtain ⟨bs, hb, hlen, -⟩ := hholds.exists_block
  have hle := hsrc.holds
  obtain ⟨hcs, hflat⟩ := source_cells hle
  rw [← hk] at hcs hflat hle ⊢
  have hn : (cells a'.eltSize n src).length = n := length_cells _ _ _
  have hfill := fill_returns (A := A) hholds hb hlen (le_refl l.length) hcs
    (by rwa [hn]) (by rwa [hn]) (by rwa [hn])
  rw [gapped_end bs (.inl rfl), ← hb, hn] at hfill
  refine Returns.header ?_
  have hmax := hholds.cap_le_sizeMax
  rw [hholds.nmemb_eq, szMul_eq (by rw [Nat.mul_add] at hroom; omega)]
  simpa using hfill

/-- **`array_inject`** puts the elements of the source before position `p`. -/
theorem arrayInject_returns (h : Holds a l) {p n : ℕ} {src : Bytes}
    (hsrc : Supplies a.eltSize n src) :
    Returns A a (arrayInject p (some src) n)
      (Grows a (l.take p ++ cells a.eltSize n src ++ l.drop p)) := by
  refine Returns.header (Returns.guard fun _ => Returns.guard fun hguard =>
    Returns.guard fun _ => Returns.reserve h (hsrc.request_le _) ?_)
  have hp : p ≤ l.length := by simpa [h.nmemb_eq] using hguard
  rintro a' ⟨hholds, hk, -, -, -, -⟩ - hroom
  by_cases hn0 : n = 0
  · subst hn0
    simp only [if_true, cells, List.append_nil, List.take_append_drop]
    exact Returns.pure ⟨tame_nil, rfl, hholds.becomes⟩
  simp only [hn0, if_false]
  obtain ⟨bs, hb, hlen, -⟩ := hholds.exists_block
  have hle := hsrc.holds
  obtain ⟨hcs, hflat⟩ := source_cells hle
  rw [← hk] at hcs hflat hle ⊢
  have hn : (cells a'.eltSize n src).length = n := length_cells _ _ _
  have hcap := hholds.cap_le_sizeMax
  have hfit := hholds.bytes_le
  have hmul := (gap_range (n := n) a'.eltSize hp).1
  refine Returns.header ?_
  refine Returns.bind (P := fun _ b ev =>
    b = { a' with block := some (gapped a' l p n bs) } ∧ Tame [] ev) ?_ ?_
  · refine Returns.runIf (fun _ => ?_) fun hend => ?_
    · have hle : p ≤ a'.nmemb := hholds.nmemb_eq ▸ hp
      have hrest : szSub a'.nmemb p = l.length - p := by
        rw [hholds.nmemb_eq, szSub_eq hp (by have := hholds.length_le; omega)]
      refine Returns.diff ?_
      rw [hrest, szMul_eq (by omega)]
      refine (moveUp_returns hholds hb hlen hp hroom).mono ?_
      rintro - b ev ⟨hbk, hev⟩
      exact ⟨hbk, hev.diff hle⟩
    · rw [hholds.nmemb_eq] at hend
      rw [gapped_end bs (by omega), ← hb]
      exact ⟨rfl, tame_nil⟩
  · rintro - b ev ⟨rfl, hev⟩
    have hfill := fill_returns (A := A) hholds hb hlen hp hcs
      (by rwa [hn]) (by rwa [hn]) (by rwa [hn])
    rw [hn] at hfill
    rw [szMul_eq (by rw [Nat.mul_add] at hroom; omega)]
    refine hfill.mono ?_
    rintro ok b' ev' ⟨hev', hok, hb'⟩
    exact ⟨by simpa using hev.append hev', hok, hb'⟩

/-- The elements of the second array of `array_concat`. -/
def Operand.elements (a : ArrayT) : Operand → List Bytes
  | .self => a.elements
  | .other b => b.elements

/-- The second array of `array_concat` is live. -/
def Operand.Live : Operand → Prop
  | .self => True
  | .other b => Holds b b.elements

/-- The header a second argument points to, and what it holds. -/
theorem Operand.header_returns {β : Type} {o : Operand} {f : ArrayT → ArrM β}
    {Q : β → ArrayT → List Event → Prop}
    (h : Returns A a (f (match o with | .self => a | .other b => b)) Q) :
    Returns A a (o.header >>= f) Q := by
  cases o with
  | self => exact h
  | other b => exact h

/-- The copy of `array_concat`: all elements of a live array `c` are written behind the
last element. -/
theorem copyAll_returns {β : Type} {bs : Bytes} {c : ArrayT} {m : List Bytes}
    {f : Unit → ArrM β} {Q : β → ArrayT → List Event → Prop} (h : Holds a l)
    (hb : a.block = some bs) (hlen : bs.length = a.cap) (hc : Holds c m)
    (hk : c.eltSize = a.eltSize) (hroom : a.eltSize * (l.length + m.length) ≤ a.cap)
    (hf : Returns A { a with
      block := some (overwrite bs (a.eltSize * l.length) m.flatten) } (f ()) Q) :
    Returns A a (readOf c 0 c.sizeof >>= fun bytes =>
      writeBlock (a.relativeData a.nmemb) bytes >>= f) Q := by
  obtain ⟨cs, hcb, hclen, hlays⟩ := hc.exists_block
  have hcap := hc.cap_le_sizeMax
  have hfit := hc.bytes_le
  have hsizeof : c.sizeof = c.eltSize * m.length := hc.sizeof_eq
  have hread : window cs 0 (c.eltSize * m.length) = m.flatten := by
    have key := Lays.run (l := []) (m := m) (r := []) (by simpa using hlays)
    simpa using key
  have hoff : a.relativeData a.nmemb = a.eltSize * l.length := by
    rw [h.nmemb_eq, h.relativeData_eq (le_refl _)]
  refine Returns.readOf hcb (by rw [hsizeof]; omega) ?_
  rw [hsizeof, hread, hoff]
  refine Returns.bind (P := fun _ b ev => b = { a with
    block := some (overwrite bs (a.eltSize * l.length) m.flatten) } ∧ ev = []) ?_ ?_
  · refine Returns.writeBlock hb ?_ ⟨rfl, rfl⟩
    rw [hc.uniform.length_flatten, hk, hlen]
    rw [Nat.mul_add] at hroom
    exact hroom
  · rintro - b ev ⟨rfl, rfl⟩
    exact hf

/-- **`array_concat`** puts the elements of the second array at the end. The second array
may be the array itself. -/
theorem arrayConcat_returns (h : Holds a l) {o : Operand} (ho : o.Live) :
    Returns A a (arrayConcat o) (Grows a (l ++ o.elements a)) := by
  have hlen := h.length_le
  have hfit := h.bytes_le
  have hcap := h.cap_le_sizeMax
  refine Returns.header (Operand.header_returns (Returns.guard fun hguard => ?_))
  cases o with
  | self =>
      have hel : Operand.elements a .self = l := h.elements_eq
      rw [hel]
      have hn : szAdd a.nmemb a.nmemb = l.length + l.length := by
        rw [h.nmemb_eq, szAdd_eq (by omega)]
      simp only [hn]
      refine Returns.reserve h (by rw [Nat.mul_add]; have := h.cap_le; omega) ?_
      rintro a' ⟨hholds, hk, -, -, -, -⟩ - hroom
      obtain ⟨bs, hb, hblen, -⟩ := hholds.exists_block
      have hroom' : a'.eltSize * (l.length + l.length) ≤ a'.cap :=
        le_trans (Nat.mul_le_mul_left _ (by omega)) hroom
      have hfill := hholds.fill hb hblen (le_refl l.length) hholds.uniform hroom'
      rw [gapped_end bs (.inl rfl)] at hfill
      refine Returns.header (Operand.header_returns ?_)
      refine copyAll_returns hholds hb hblen hholds rfl hroom' ?_
      refine Operand.header_returns
        (Returns.store (Returns.pure ⟨tame_nil, rfl, Holds.becomes ?_⟩))
      simpa [hholds.nmemb_eq] using hfill
  | other c =>
      have hc : Holds c c.elements := ho
      have hkc : a.eltSize = c.eltSize := by simpa using hguard
      change Returns A a _ (Grows a (l ++ c.elements))
      have hclen := hc.length_le
      have hcfit := hc.bytes_le
      have hccap := hc.cap_le
      have hsum : l.length + c.elements.length ≤ sizeMax := by
        have := h.cap_le
        simp only [ptrdiffMax, sizeMax] at *
        omega
      have hn : szAdd a.nmemb c.nmemb = l.length + c.elements.length := by
        rw [h.nmemb_eq, hc.nmemb_eq, szAdd_eq hsum]
      simp only [hn]
      have hobj : a.eltSize * c.elements.length ≤ ptrdiffMax := hkc ▸ le_trans hcfit hccap
      refine Returns.reserve h (by rw [Nat.mul_add]; omega) ?_
      rintro a' ⟨hholds, hk, -, -, -, -⟩ - hroom
      obtain ⟨bs, hb, hblen, -⟩ := hholds.exists_block
      have hroom' : a'.eltSize * (l.length + c.elements.length) ≤ a'.cap :=
        le_trans (Nat.mul_le_mul_left _ (by omega)) hroom
      have hu : Uniform a'.eltSize c.elements := by
        rw [hk, hkc]
        exact hc.uniform
      have hfill := hholds.fill hb hblen (le_refl l.length) hu hroom'
      rw [gapped_end bs (.inl rfl)] at hfill
      refine Returns.header (Operand.header_returns ?_)
      refine copyAll_returns hholds hb hblen hc (hkc.symm.trans hk.symm) hroom' ?_
      refine Operand.header_returns
        (Returns.store (Returns.pure ⟨tame_nil, rfl, Holds.becomes ?_⟩))
      simpa [hc.nmemb_eq] using hfill

end Specs

end Backd
