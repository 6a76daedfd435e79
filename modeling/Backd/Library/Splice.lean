import Mathlib.Data.List.Basic
import Mathlib.Tactic.Ring

/-!
# Splicing Fixed-Size Cells in a Flat Store

A flat store (a list of symbols) is read as a sequence of cells of one width `k`, the way
a C buffer is read as an array. This module knows nothing of who owns the store: it has
the two raw accesses, `window` (read a range) and `overwrite` (write a range), the
decoder `cells k n`, and the layout predicate `Lays k l bs` — the store `bs` begins with
the cells `l`, all of width `k`.

## Main results

* `lays_iff_cells`: a layout is exactly what the decoder reads back.
* `Lays.insert`: opening a gap by a move and filling it inserts cells into the layout.
* `Lays.erase`: closing a gap by a move erases a range of cells.
* `Lays.exchange`: exchanging two cells of the store exchanges them in the layout.
* `Lays.cell`: the window at the `i`-th offset is the `i`-th cell.
-/

namespace Splice

variable {α : Type*}

/-- Read `len` symbols at offset `off`. -/
def window (bs : List α) (off len : ℕ) : List α :=
  (bs.drop off).take len

/-- Write `src` at offset `off`, leaving every other symbol in place. -/
def overwrite (bs : List α) (off : ℕ) (src : List α) : List α :=
  bs.take off ++ src ++ bs.drop (off + src.length)

/-- Decode the first `n` cells of width `k`. -/
def cells (k : ℕ) : ℕ → List α → List (List α)
  | 0, _ => []
  | n + 1, bs => bs.take k :: cells k n (bs.drop k)

/-! ### Raw accesses -/

/-- A write inside the store keeps its length. -/
theorem length_overwrite {bs src : List α} {off : ℕ} (h : off + src.length ≤ bs.length) :
    (overwrite bs off src).length = bs.length := by
  simp only [overwrite, List.length_append, List.length_take, List.length_drop]
  omega

/-- A read inside the store has the requested length. -/
theorem length_window {bs : List α} {off len : ℕ} (h : off + len ≤ bs.length) :
    (window bs off len).length = len := by
  simp only [window, List.length_take, List.length_drop]
  omega

/-- Reading the middle of a three-part store. -/
theorem window_append (a b c : List α) : window (a ++ (b ++ c)) a.length b.length = b := by
  simp [window]

/-- Overwriting the middle of a three-part store by a block of the same length. -/
theorem overwrite_append {a b c d : List α} (h : d.length = b.length) :
    overwrite (a ++ (b ++ c)) a.length d = a ++ (d ++ c) := by
  simp only [overwrite, List.take_left, h, List.append_assoc]
  rw [List.drop_append, List.drop_append]
  simp

/-- An empty write changes nothing. -/
@[simp] theorem overwrite_nil (bs : List α) (off : ℕ) : overwrite bs off [] = bs := by
  simp [overwrite]

/-- Two writes, the second one right behind the first, are one. -/
theorem overwrite_overwrite_append {bs src more : List α} {off : ℕ}
    (h : off + src.length ≤ bs.length) :
    overwrite (overwrite bs off src) (off + src.length) more = overwrite bs off (src ++ more) := by
  have hoff : (bs.take off ++ src).length = off + src.length := by
    rw [List.length_append, List.length_take_of_le (by omega)]
  have hbehind : (bs.take off ++ src ++ bs.drop (off + src.length)).drop
      (off + src.length + more.length) = bs.drop (off + (src ++ more).length) := by
    rw [← List.drop_drop, List.drop_left' hoff, List.drop_drop, List.length_append, Nat.add_assoc]
  rw [overwrite, overwrite, List.take_left' hoff, hbehind, overwrite]
  simp

/-- A write goes symbol by symbol. -/
theorem overwrite_cons {bs : List α} {i : ℕ} (h : i < bs.length) (c : α) (src : List α) :
    overwrite bs i (c :: src) = overwrite (bs.set i c) (i + 1) src := by
  obtain ⟨a, x, b, rfl, rfl⟩ : ∃ a x b, bs = a ++ x :: b ∧ i = a.length :=
    ⟨bs.take i, bs[i], bs.drop (i + 1), by simp,
      (List.length_take_of_le (Nat.le_of_lt h)).symm⟩
  have hset : (a ++ x :: b).set a.length c = (a ++ [c]) ++ b := by simp
  have hlen : a.length + 1 = (a ++ [c]).length := by simp
  have hbehind : (a ++ x :: b).drop (a.length + (c :: src).length) = b.drop src.length := by
    rw [← List.drop_drop, List.drop_left, List.length_cons, List.drop_succ_cons]
  rw [hset, hlen]
  simp only [overwrite, List.take_left, hbehind]
  rw [← List.drop_drop, List.drop_left]
  simp

/-- An empty read reads nothing. -/
@[simp] theorem window_zero (bs : List α) (off : ℕ) : window bs off 0 = [] := by
  simp [window]

/-! ### Uniform lists of cells -/

/-- Every cell of `l` has width `k`. -/
def Uniform (k : ℕ) (l : List (List α)) : Prop :=
  ∀ x ∈ l, x.length = k

@[simp] theorem uniform_nil (k : ℕ) : Uniform k ([] : List (List α)) := by
  simp [Uniform]

@[simp] theorem uniform_cons {k : ℕ} {x : List α} {l : List (List α)} :
    Uniform k (x :: l) ↔ x.length = k ∧ Uniform k l := by
  simp [Uniform]

@[simp] theorem uniform_append {k : ℕ} {l m : List (List α)} :
    Uniform k (l ++ m) ↔ Uniform k l ∧ Uniform k m := by
  simp [Uniform, or_imp, forall_and]

/-- Cells of width `k` take `k` symbols each. -/
theorem Uniform.length_flatten {k : ℕ} {l : List (List α)} (h : Uniform k l) :
    l.flatten.length = k * l.length := by
  induction l with
  | nil => simp
  | cons x l ih =>
      obtain ⟨hx, hl⟩ := uniform_cons.mp h
      simp only [List.flatten_cons, List.length_append, hx, ih hl, List.length_cons]
      ring

/-! ### The decoder -/

@[simp] theorem length_cells (k n : ℕ) (bs : List α) : (cells k n bs).length = n := by
  induction n generalizing bs with
  | zero => rfl
  | succ n ih => simp [cells, ih]

/-- Decoding cells laid out at the front of a store gives them back. -/
theorem cells_flatten_append {k : ℕ} {l : List (List α)} (h : Uniform k l) (rest : List α) :
    cells k l.length (l.flatten ++ rest) = l := by
  induction l with
  | nil => rfl
  | cons x l ih =>
      obtain ⟨hx, hl⟩ := uniform_cons.mp h
      subst hx
      simp only [List.length_cons, cells, List.flatten_cons, List.append_assoc,
        List.take_left, List.drop_left]
      rw [ih hl]

/-- The decoded cells are the front of the store. -/
theorem flatten_cells {k n : ℕ} {bs : List α} (h : k * n ≤ bs.length) :
    (cells k n bs).flatten = bs.take (k * n) := by
  induction n generalizing bs with
  | zero => simp [cells]
  | succ n ih =>
      have hk : k * (n + 1) = k + k * n := by ring
      have hn : k * n ≤ (bs.drop k).length := by
        simp only [List.length_drop]
        omega
      rw [cells, List.flatten_cons, ih hn, hk, List.take_add]

/-- Every decoded cell is complete when the store is long enough. -/
theorem uniform_cells {k n : ℕ} {bs : List α} (h : k * n ≤ bs.length) :
    Uniform k (cells k n bs) := by
  induction n generalizing bs with
  | zero => simp [cells]
  | succ n ih =>
      have hk : k * (n + 1) = k + k * n := by ring
      refine uniform_cons.mpr ⟨?_, ih ?_⟩
      · simp only [List.length_take]
        omega
      · simp only [List.length_drop]
        omega

/-! ### Layouts -/

/-- The store `bs` begins with the cells `l`, all of width `k`. -/
def Lays (k : ℕ) (l : List (List α)) (bs : List α) : Prop :=
  Uniform k l ∧ ∃ rest, bs = l.flatten ++ rest

/-- A layout is exactly what the decoder reads back. -/
theorem lays_iff_cells {k : ℕ} {l : List (List α)} {bs : List α} :
    Lays k l bs ↔ k * l.length ≤ bs.length ∧ cells k l.length bs = l := by
  constructor
  · rintro ⟨hu, rest, rfl⟩
    refine ⟨?_, cells_flatten_append hu rest⟩
    rw [List.length_append, hu.length_flatten]
    omega
  · rintro ⟨hlen, hc⟩
    refine ⟨hc ▸ uniform_cells hlen, bs.drop (k * l.length), ?_⟩
    have hf := flatten_cells hlen
    rw [hc] at hf
    rw [hf, List.take_append_drop]

/-- The decoder reads a layout back. -/
theorem Lays.cells_eq {k : ℕ} {l : List (List α)} {bs : List α} (h : Lays k l bs) :
    cells k l.length bs = l :=
  (lays_iff_cells.mp h).2

/-- A layout fits into its store. -/
theorem Lays.length_le {k : ℕ} {l : List (List α)} {bs : List α} (h : Lays k l bs) :
    k * l.length ≤ bs.length :=
  (lays_iff_cells.mp h).1

/-- The empty layout. -/
theorem lays_nil (k : ℕ) (bs : List α) : Lays k [] bs :=
  ⟨uniform_nil k, bs, rfl⟩

/-- A longer store keeps the layout. -/
theorem Lays.extend {k : ℕ} {l : List (List α)} {bs : List α} (h : Lays k l bs)
    (more : List α) : Lays k l (bs ++ more) := by
  obtain ⟨hu, rest, rfl⟩ := h
  exact ⟨hu, rest ++ more, by simp⟩

/-- A store cut behind the cells keeps the layout. -/
theorem Lays.cut {k n : ℕ} {l : List (List α)} {bs : List α} (h : Lays k l bs)
    (hn : k * l.length ≤ n) : Lays k l (bs.take n) := by
  obtain ⟨hu, rest, rfl⟩ := h
  rw [← hu.length_flatten] at hn
  refine ⟨hu, rest.take (n - l.flatten.length), ?_⟩
  rw [List.take_append, List.take_of_length_le hn]

/-- A front part of a layout is a layout. -/
theorem Lays.front {k : ℕ} {l m : List (List α)} {bs : List α} (h : Lays k (l ++ m) bs) :
    Lays k l bs := by
  obtain ⟨hu, rest, rfl⟩ := h
  exact ⟨(uniform_append.mp hu).1, m.flatten ++ rest, by simp⟩

/-- The window at the offset of a run of cells is that run. -/
theorem Lays.run {k : ℕ} {l m r : List (List α)} {bs : List α}
    (h : Lays k (l ++ m ++ r) bs) :
    window bs (k * l.length) (k * m.length) = m.flatten := by
  obtain ⟨hu, rest, rfl⟩ := h
  simp only [uniform_append] at hu
  obtain ⟨⟨hl, hm⟩, -⟩ := hu
  have key := window_append l.flatten m.flatten (r.flatten ++ rest)
  rw [hl.length_flatten, hm.length_flatten] at key
  simpa [List.append_assoc] using key

/-- The window at the offset of a position is the run of cells that begins there. -/
theorem Lays.range {k i n : ℕ} {l : List (List α)} {bs : List α} (h : Lays k l bs)
    (hin : i + n ≤ l.length) :
    window bs (k * i) (k * n) = ((l.drop i).take n).flatten := by
  have hsplit : l = l.take i ++ (l.drop i).take n ++ l.drop (i + n) := by
    rw [List.append_assoc, ← List.drop_drop, List.take_append_drop, List.take_append_drop]
  rw [hsplit] at h
  have key := h.run
  rwa [List.length_take_of_le (by omega), List.length_take, List.length_drop,
    Nat.min_eq_left (by omega)] at key

/-- The window at the `i`-th offset is the `i`-th cell. -/
theorem Lays.cell {k i : ℕ} {l : List (List α)} {bs : List α} (h : Lays k l bs)
    (hi : i < l.length) : window bs (k * i) k = l[i] := by
  have hsplit : l = l.take i ++ [l[i]] ++ l.drop (i + 1) := by simp
  have hlen : (l.take i).length = i := by
    simp only [List.length_take]
    omega
  rw [hsplit] at h
  have key := h.run
  simpa [hlen] using key

/-- **Insertion**: move the cells from `l.length` on up by `src.length` cells, then fill
the gap. The store must have room for the new cells. -/
theorem Lays.insert {k : ℕ} {l r src : List (List α)} {bs : List α}
    (h : Lays k (l ++ r) bs) (hsrc : Uniform k src)
    (hroom : k * (l.length + r.length + src.length) ≤ bs.length) :
    Lays k (l ++ src ++ r)
      (overwrite
        (overwrite bs (k * (l.length + src.length)) (window bs (k * l.length) (k * r.length)))
        (k * l.length) src.flatten) := by
  have hrun : window bs (k * l.length) (k * r.length) = r.flatten := by
    have h' : Lays k (l ++ r ++ []) bs := by simpa using h
    exact h'.run
  obtain ⟨hu, rest, rfl⟩ := h
  obtain ⟨hl, hr⟩ := uniform_append.mp hu
  refine ⟨by simp [hl, hr, hsrc], rest.drop (k * src.length), ?_⟩
  rw [hrun]
  have hlen : (l.flatten ++ (r.flatten ++ rest)).length
      = k * l.length + (k * r.length + rest.length) := by
    simp only [List.length_append, hl.length_flatten, hr.length_flatten]
  have hle : k * src.length ≤ rest.length := by
    simp only [List.flatten_append, List.append_assoc, hlen, Nat.mul_add] at hroom
    omega
  -- the tail of the store, cut where the gap and the moved cells end
  have hcut : ∃ gap old, r.flatten ++ rest = gap ++ (old ++ rest.drop (k * src.length)) ∧
      gap.length = k * src.length ∧ old.length = k * r.length := by
    refine ⟨(r.flatten ++ rest).take (k * src.length),
      ((r.flatten ++ rest).drop (k * src.length)).take (k * r.length), ?_, ?_, ?_⟩
    · have htail : rest.drop (k * src.length)
          = ((r.flatten ++ rest).drop (k * src.length)).drop (k * r.length) := by
        rw [List.drop_drop, Nat.add_comm, ← List.drop_drop, ← hr.length_flatten,
          List.drop_left]
      rw [htail, List.take_append_drop, List.take_append_drop]
    · simp only [List.length_take, List.length_append, hr.length_flatten]
      omega
    · simp only [List.length_take, List.length_drop, List.length_append,
        hr.length_flatten]
      omega
  obtain ⟨gap, old, htail, hgap, hold⟩ := hcut
  have hmove : overwrite ((l ++ r).flatten ++ rest) (k * (l.length + src.length)) r.flatten
      = l.flatten ++ (gap ++ (r.flatten ++ rest.drop (k * src.length))) := by
    have key := overwrite_append (a := l.flatten ++ gap) (b := old)
      (c := rest.drop (k * src.length)) (d := r.flatten)
      (by rw [hr.length_flatten, hold])
    rw [List.length_append, hl.length_flatten, hgap, ← Nat.mul_add] at key
    simpa [List.append_assoc, htail] using key
  have hfill := overwrite_append (a := l.flatten) (b := gap)
    (c := r.flatten ++ rest.drop (k * src.length)) (d := src.flatten)
    (by rw [hsrc.length_flatten, hgap])
  rw [hl.length_flatten] at hfill
  rw [hmove, hfill]
  simp [List.append_assoc]

/-- **Appending** writes past the last cell only. -/
theorem Lays.append {k : ℕ} {l src : List (List α)} {bs : List α}
    (h : Lays k l bs) (hsrc : Uniform k src)
    (hroom : k * (l.length + src.length) ≤ bs.length) :
    Lays k (l ++ src) (overwrite bs (k * l.length) src.flatten) := by
  have h' : Lays k (l ++ []) bs := by simpa using h
  have key := h'.insert hsrc (by simpa using hroom)
  simpa using key

/-- **Erasure**: moving the cells behind a run down onto it erases the run. -/
theorem Lays.erase {k : ℕ} {l m r : List (List α)} {bs : List α}
    (h : Lays k (l ++ m ++ r) bs) :
    Lays k (l ++ r)
      (overwrite bs (k * l.length) (window bs (k * (l.length + m.length)) (k * r.length))) := by
  have hrun : window bs (k * (l.length + m.length)) (k * r.length) = r.flatten := by
    have h' : Lays k (l ++ m ++ r ++ []) bs := by simpa using h
    simpa using h'.run
  obtain ⟨hu, rest, rfl⟩ := h
  simp only [uniform_append] at hu
  obtain ⟨⟨hl, hm⟩, hr⟩ := hu
  rw [hrun]
  refine ⟨by simp [hl, hr], (m.flatten ++ (r.flatten ++ rest)).drop (k * r.length), ?_⟩
  have hsplit : m.flatten ++ (r.flatten ++ rest)
      = (m.flatten ++ (r.flatten ++ rest)).take (k * r.length)
        ++ (m.flatten ++ (r.flatten ++ rest)).drop (k * r.length) :=
    (List.take_append_drop _ _).symm
  have key := overwrite_append (a := l.flatten)
    (b := (m.flatten ++ (r.flatten ++ rest)).take (k * r.length))
    (c := (m.flatten ++ (r.flatten ++ rest)).drop (k * r.length)) (d := r.flatten)
    (by
      simp only [List.length_take, List.length_append, hm.length_flatten,
        hr.length_flatten]
      omega)
  rw [← hsplit, hl.length_flatten] at key
  simpa [List.append_assoc] using key

/-- **Replacement**: a cell of a layout gives way to another of the same width. -/
theorem Lays.replace {k : ℕ} {f r : List (List α)} {x x' bs : List α}
    (h : Lays k (f ++ x :: r) bs) (hx' : x'.length = k) :
    ∃ w, bs = f.flatten ++ x ++ w ∧ Lays k (f ++ x' :: r) (f.flatten ++ x' ++ w) := by
  obtain ⟨hu, rest, rfl⟩ := h
  simp only [uniform_append, uniform_cons] at hu
  exact ⟨r.flatten ++ rest, by simp, by simp [hu, hx'], rest, by simp⟩

/-- **Exchange**: two cells of a layout change places. -/
theorem Lays.exchange {k : ℕ} {f m r : List (List α)} {x y bs : List α}
    (h : Lays k (f ++ x :: (m ++ y :: r)) bs) :
    ∃ w, bs = f.flatten ++ x ++ m.flatten ++ y ++ w ∧
      Lays k (f ++ y :: (m ++ x :: r)) (f.flatten ++ y ++ m.flatten ++ x ++ w) := by
  obtain ⟨hu, rest, rfl⟩ := h
  simp only [uniform_append, uniform_cons] at hu
  exact ⟨r.flatten ++ rest, by simp, by simp [hu], rest, by simp⟩

end Splice
