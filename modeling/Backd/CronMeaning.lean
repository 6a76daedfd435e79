import Mathlib.Data.Set.Lattice
import Backd.CronMarks

/-!
# What a Cron String Marks

A cron string is read in two stages that the code does not keep apart. `readCron` finds the
elements in it, entry by entry and list by list, and touches no array; what an element stands
for is a set of cells. The arrays `cron_check` leaves are those sets, united over the entries.

## Conventions

A counter of eight bits that is increased by a large step comes back below the range it
started in, and goes on marking from there. `Visits` follows it through that.

## Main results

* `markLoop_adds`: the loop over a range marks the cells its counter visits, and no others.
* `cronCheck_marks`: `cron_check` marks exactly what the string stands for, and never the
  second Sunday.
-/

namespace Backd

open Endings

/-! ### Marks in an array -/

/-- `p` is `pbuf` with some cells marked. -/
structure Adds (pbuf p : Bytes) (cells : Set ℕ) : Prop where
  length_eq : p.length = pbuf.length
  marked : ∀ j ∈ cells, p[j]? = some 1
  kept : ∀ j ∉ cells, p[j]? = pbuf[j]?

section Adds

variable {pbuf p q : Bytes} {s t : Set ℕ}

/-- No cells. -/
theorem Adds.none (pbuf : Bytes) : Adds pbuf pbuf ∅ :=
  ⟨rfl, fun _ hj => hj.elim, fun _ _ => rfl⟩

/-- One cell. -/
theorem Adds.put {i : ℕ} (h : putAt pbuf i 1 = some p) : Adds pbuf p {i} := by
  rw [putAt] at h
  split at h
  · next hi =>
      obtain rfl := Option.some.inj h
      refine ⟨List.length_set, ?_, ?_⟩
      · rintro j rfl
        exact List.getElem?_set_self hi
      · intro j hj
        exact List.getElem?_set_ne (Ne.symm hj)
  · cases h

/-- Some cells and then others. -/
theorem Adds.trans (h : Adds pbuf p s) (h' : Adds p q t) : Adds pbuf q (s ∪ t) where
  length_eq := h'.length_eq.trans h.length_eq
  marked j hj := by
    by_cases hjt : j ∈ t
    · exact h'.marked j hjt
    · exact (h'.kept j hjt).trans (h.marked j (hj.resolve_right hjt))
  kept j hj := by
    rw [Set.mem_union, not_or] at hj
    exact (h'.kept j hj.2).trans (h.kept j hj.1)

/-- What is marked is inside the array. -/
theorem Adds.lt (h : Adds pbuf p s) {j : ℕ} (hj : j ∈ s) : j < pbuf.length := by
  rw [← h.length_eq]
  exact (List.getElem?_eq_some_iff.mp (h.marked j hj)).1

end Adds

/-! ### Ranges -/

/-- A counter that starts with `i`, takes steps, and stops behind `last` visits a value. -/
inductive Visits (last step : UInt8) : UInt8 → UInt8 → Prop
  | here {i : UInt8} : i ≤ last → Visits last step i i
  | later {i j : UInt8} : i ≤ last → Visits last step (i + step) j → Visits last step i j

/-- The cells a range marks. -/
def Mark.cells (m : Mark) : Set ℕ := {j | ∃ c, Visits m.last m.step m.first c ∧ c.toNat = j}

section Ranges

variable {last step i j : UInt8} {turns : ℕ} {pbuf p : Bytes}

theorem Visits.le (h : Visits last step i j) : j ≤ last := by
  induction h with
  | here hle => exact hle
  | later _ _ ih => exact ih

/-- A range that is not entered has no cells. -/
theorem cells_empty (h : ¬ i ≤ last) : Mark.cells ⟨i, last, step⟩ = ∅ := by
  ext c
  constructor
  · rintro ⟨c, hc, -⟩
    cases hc with
    | here hle => exact absurd hle h
    | later hle _ => exact absurd hle h
  · exact False.elim

/-- A range that is entered has its first cell, and those from its second on. -/
theorem cells_step (h : i ≤ last) :
    Mark.cells ⟨i, last, step⟩ = {i.toNat} ∪ Mark.cells ⟨i + step, last, step⟩ := by
  ext c
  constructor
  · rintro ⟨c, hc, rfl⟩
    cases hc with
    | here _ => exact .inl rfl
    | later _ hc => exact .inr ⟨c, hc, rfl⟩
  · rintro (rfl | ⟨c, hc, rfl⟩)
    · exact ⟨i, .here h, rfl⟩
    · exact ⟨c, .later h hc, rfl⟩

/-- **The loop over a range** marks the cells its counter visits, by induction on the turns. -/
theorem markLoop_adds (h : markLoop last step turns i pbuf = some p) :
    Adds pbuf p (Mark.cells ⟨i, last, step⟩) := by
  induction turns generalizing i pbuf with
  | zero => cases h
  | succ turns ih =>
      rw [markLoop] at h
      split at h
      · next hle =>
          obtain ⟨pbuf', hput, hrest⟩ := Option.bind_eq_some_iff.mp h
          rw [cells_step hle]
          exact (Adds.put hput).trans (ih hrest)
      · next hle =>
          obtain rfl := Option.some.inj h
          rw [cells_empty hle]
          exact .none pbuf

/-- Steps that do not overflow lead to the multiples of the step above the first value. -/
theorem visits_iff (hstep : step ≠ 0) (hlast : last.toNat + step.toNat < 256) :
    Visits last step i j ↔ i ≤ j ∧ j ≤ last ∧ step.toNat ∣ j.toNat - i.toNat := by
  have hpos : 0 < step.toNat := Nat.pos_of_ne_zero fun h => hstep (UInt8.toNat_inj.mp h)
  have hnext : ∀ {i : UInt8}, i ≤ last → (i + step).toNat = i.toNat + step.toNat := by
    intro i hi
    rw [UInt8.le_iff_toNat_le] at hi
    rw [UInt8.toNat_add, Nat.mod_eq_of_lt (by omega)]
  constructor
  · intro h
    induction h with
    | here hle => exact ⟨UInt8.le_refl _, hle, by simp⟩
    | @later i j hle _ ih =>
        obtain ⟨hij, hj, k, hk⟩ := ih
        rw [UInt8.le_iff_toNat_le, hnext hle] at hij
        rw [hnext hle] at hk
        refine ⟨UInt8.le_iff_toNat_le.mpr (by omega), hj, k + 1, ?_⟩
        rw [Nat.mul_succ]
        omega
  · rintro ⟨hij, hj, k, hk⟩
    rw [UInt8.le_iff_toNat_le] at hij
    induction k generalizing i with
    | zero =>
        obtain rfl : i = j := UInt8.toNat_inj.mp (by omega)
        exact .here hj
    | succ k ih =>
        rw [Nat.mul_succ] at hk
        have hi : i ≤ last := UInt8.le_iff_toNat_le.mpr
          (Nat.le_trans hij (UInt8.le_iff_toNat_le.mp hj))
        refine .later hi (ih ?_ ?_) <;> rw [hnext hi] <;> omega

end Ranges

/-! ### What is written -/

/-- An element of a list, with the step that is written behind it, if any. -/
inductive CronElement
  | all (step : Option UInt8)
  | value (n : UInt8)
  | range (first last : UInt8) (step : Option UInt8)
  deriving DecidableEq, Repr

/-- The five arrays, by what they are indexed with. -/
inductive CronUnit
  | minute
  | hour
  | mday
  | month
  | wday
  deriving DecidableEq, Repr

/-- The least value of a unit that ranges are clipped to. -/
def CronUnit.min : CronUnit → UInt8
  | minute => 0
  | hour => 0
  | mday => 1
  | month => 1
  | wday => 0

/-- The largest value of a unit. -/
def CronUnit.max : CronUnit → UInt8
  | minute => 59
  | hour => 23
  | mday => 31
  | month => 12
  | wday => 6

/-- The array of a unit. -/
def CronArrays.get (a : CronArrays) : CronUnit → Bytes
  | .minute => a.minutes
  | .hour => a.hours
  | .mday => a.mdays
  | .month => a.months
  | .wday => a.wdays

/-- An entry: a list of elements for every unit. -/
abbrev CronEntry := CronUnit → List CronElement

/-- The ranges of an element. -/
def CronElement.ranges (min max : UInt8) : CronElement → List Mark
  | all step => [⟨min, max, step.getD 1⟩]
  | value _ => []
  | range first last step => [clipped min max first last (step.getD 1)]

/-- The cells an element stands for. A single value is cut off at the upper end only. -/
def CronElement.cells (min max : UInt8) : CronElement → Set ℕ
  | all step => Mark.cells ⟨min, max, step.getD 1⟩
  | value n => {(if n > max then max else n).toNat}
  | range first last step => (clipped min max first last (step.getD 1)).cells

/-- The cells a list stands for. -/
def listCells (min max : UInt8) (es : List CronElement) : Set ℕ := ⋃ e ∈ es, e.cells min max

/-- The cells of a unit that some entries stand for. -/
def specCells (u : CronUnit) (entries : List CronEntry) : Set ℕ :=
  ⋃ entry ∈ entries, listCells u.min u.max (entry u)

/-! ### Reading without marking -/

/-- The step of a range, if one is written, and what follows. -/
def readStep (ps : CStr) : Option UInt8 × CStr :=
  if ps.head? = some slash then
    (some (cronParseNumber ps.tail).1, (cronParseNumber ps.tail).2)
  else (none, ps)

/-- An element, and what follows. -/
def readElement (ps : CStr) : Option (CronElement × CStr) :=
  match skipSpace ps with
  | [] => none
  | c :: ps =>
    if c.1 = 42 then some (.all (readStep ps).1, (readStep ps).2)
    else if isdigit c then
      let (first, ps) := cronParseNumber (c :: ps)
      if ps.head? ≠ some dash then some (.value first, ps)
      else
        let (last, ps) := cronParseNumber ps.tail
        some (.range first last (readStep ps).1, (readStep ps).2)
    else none

/-- The elements of a list, at most `n` of them, and what is left behind them. -/
def readElements : ℕ → CStr → Option CStr × List CronElement
  | 0, ps => (some ps, [])
  | n + 1, ps =>
    match readElement ps with
    | none => (none, [])
    | some (e, ps) =>
      if ps.head?.map Subtype.val = some 44 then
        ((readElements n ps.tail).1, e :: (readElements n ps.tail).2)
      else (some ps, [e])

/-- A list: where none is left, it is as if `*` were written. -/
def readList (ps : Option CStr) : Option CStr × List CronElement :=
  match ps with
  | none => (none, [])
  | some ps =>
    let ps := skipSpace ps
    if !cronEol ps then
      ((readElements (ps.length + 1) ps).1.map skipError, (readElements (ps.length + 1) ps).2)
    else (some ps, [.all none])

/-- An entry. -/
def readEntry (ps : CStr) : Option CStr × CronEntry :=
  let (ps, minutes) := readList (some ps)
  let (ps, hours) := readList ps
  let (ps, mdays) := readList ps
  let (ps, months) := readList ps
  let (ps, wdays) := readList ps
  (ps.map skipEntry, fun
    | .minute => minutes
    | .hour => hours
    | .mday => mdays
    | .month => months
    | .wday => wdays)

/-- The entries, at most `n` of them. -/
def readCronEntries : ℕ → CStr → List CronEntry
  | 0, _ => []
  | n + 1, ps =>
    match readEntry ps with
    | (none, entry) | (some [], entry) => [entry]
    | (some (c :: ps), entry) => entry :: readCronEntries n (c :: ps)

/-- The entries of a cron string. -/
def readCron (ps : CStr) : List CronEntry :=
  let ps := skipZone (skipSpace ps)
  readCronEntries (ps.length + 1) ps

theorem cronParseStep_eq (ps : CStr) :
    cronParseStep ps = ((readStep ps).1.getD 1, (readStep ps).2) := by
  rw [cronParseStep, readStep]
  split <;> rfl

/-! ### The ranges are those of the elements -/

/-- No element of the list has an endless range. -/
def ListEnds (min max : UInt8) (es : List CronElement) : Prop :=
  ∀ e ∈ es, AllEnd (e.ranges min max)

section Ends

variable {min max : UInt8}

theorem elementMarks_eq (ps : CStr) :
    elementMarks min max ps = ((readElement ps).map Prod.snd,
      ((readElement ps).map Prod.fst).toList.flatMap (CronElement.ranges min max)) := by
  rw [elementMarks, readElement]
  cases skipSpace ps with
  | nil => rfl
  | cons c ps =>
      simp only [cronParseStep_eq]
      split
      · rfl
      split
      · split
        · rfl
        · rfl
      · rfl

theorem elementsMarks_eq (n : ℕ) (ps : CStr) :
    elementsMarks min max n ps =
      ((readElements n ps).1, (readElements n ps).2.flatMap (CronElement.ranges min max)) := by
  induction n generalizing ps with
  | zero => rfl
  | succ n ih =>
      rw [elementsMarks, readElements, elementMarks_eq]
      cases readElement ps with
      | none => rfl
      | some e =>
          obtain ⟨e, rest⟩ := e
          simp only [Option.map_some, Option.toList_some, List.flatMap_singleton, ih]
          split
          · rw [List.flatMap_cons]
          · rw [List.flatMap_singleton]

theorem listMarks_eq (o : Option CStr) :
    listMarks min max o =
      ((readList o).1, (readList o).2.flatMap (CronElement.ranges min max)) := by
  cases o with
  | none => rfl
  | some ps =>
      simp only [listMarks, readList, elementsMarks_eq]
      split <;> rfl

theorem allEnd_flatMap (es : List CronElement) :
    AllEnd (es.flatMap (CronElement.ranges min max)) ↔ ListEnds min max es := by
  simp only [AllEnd, ListEnds, List.mem_flatMap]
  constructor
  · intro h e he m hm
    exact h m ⟨e, he, hm⟩
  · rintro h m ⟨e, he, hm⟩
    exact h e he m hm

theorem entryMarks_eq (ps : CStr) :
    (entryMarks ps).1 = (readEntry ps).1 ∧
      (AllEnd (entryMarks ps).2 ↔ ∀ u : CronUnit, ListEnds u.min u.max ((readEntry ps).2 u)) := by
  simp only [entryMarks, readEntry, listMarks_eq, allEnd_append, allEnd_flatMap, true_and]
  constructor
  · rintro ⟨hminutes, hhours, hmdays, hmonths, hwdays⟩ u
    cases u with
    | minute => exact hminutes
    | hour => exact hhours
    | mday => exact hmdays
    | month => exact hmonths
    | wday => exact hwdays
  · intro h
    exact ⟨h .minute, h .hour, h .mday, h .month, h .wday⟩

/-- No entry of a cron string has an endless range exactly if no range is endless. -/
theorem allEnd_entriesMarks (n : ℕ) (ps : CStr) :
    AllEnd (entriesMarks n ps) ↔
      ∀ entry ∈ readCronEntries n ps, ∀ u : CronUnit, ListEnds u.min u.max (entry u) := by
  induction n generalizing ps with
  | zero => simp [entriesMarks, readCronEntries]
  | succ n ih =>
      rw [entriesMarks, readCronEntries]
      obtain ⟨hrest, hends⟩ := entryMarks_eq ps
      obtain ⟨rest, marks, he⟩ : ∃ rest marks, entryMarks ps = (rest, marks) := ⟨_, _, rfl⟩
      obtain ⟨rest', entry, he'⟩ : ∃ rest entry, readEntry ps = (rest, entry) := ⟨_, _, rfl⟩
      rw [he, he'] at hrest hends
      obtain rfl : rest = rest' := hrest
      rw [he, he']
      rcases rest with _ | _ | ⟨c, ps'⟩
      · simpa using hends
      · simpa using hends
      · simp only [allEnd_append, List.forall_mem_cons, ih, hends]

end Ends

/-! ### The parser marks what is read -/

section Marks

variable {min max : UInt8} {turns n : ℕ} {ps : CStr} {o r : Option CStr} {pbuf p : Bytes}

/-- An element leaves the same rest, and marks its cells. -/
theorem cronParseElement_marks (h : cronParseElement turns min max ps pbuf = some (r, p)) :
    r = (readElement ps).map Prod.snd ∧
      Adds pbuf p (listCells min max ((readElement ps).map Prod.fst).toList) := by
  rw [cronParseElement] at h
  rw [readElement]
  cases hps : skipSpace ps with
  | nil =>
      simp only [hps] at h ⊢
      cases h
      exact ⟨rfl, by simpa [listCells] using Adds.none pbuf⟩
  | cons c ps =>
      simp only [hps] at h ⊢
      split at h
      · next hstar =>
          rw [cronParseStep_eq] at h
          obtain ⟨p', hloop, h⟩ := Option.bind_eq_some_iff.mp h
          cases h
          rw [if_pos hstar]
          refine ⟨rfl, ?_⟩
          simpa [listCells, CronElement.cells] using markLoop_adds hloop
      next hstar =>
      split at h
      · next hdigit =>
          rw [if_neg hstar, if_pos hdigit]
          split at h
          · next hdash =>
              obtain ⟨p', hput, h⟩ := Option.bind_eq_some_iff.mp h
              cases h
              rw [if_pos hdash]
              refine ⟨rfl, ?_⟩
              simpa [listCells, CronElement.cells] using Adds.put hput
          · next hdash =>
              rw [cronParseStep_eq] at h
              obtain ⟨p', hloop, h⟩ := Option.bind_eq_some_iff.mp h
              cases h
              rw [if_neg hdash]
              refine ⟨rfl, ?_⟩
              simpa [listCells, CronElement.cells, clipped] using markLoop_adds hloop
      · next hdigit =>
          cases h
          rw [if_neg hstar, if_neg hdigit]
          exact ⟨rfl, by simpa [listCells] using Adds.none pbuf⟩

/-- The elements of a list, one after the other. -/
theorem cronElements_marks (h : cronElements turns min max n ps pbuf = some (r, p)) :
    r = (readElements n ps).1 ∧ Adds pbuf p (listCells min max (readElements n ps).2) := by
  induction n generalizing ps pbuf with
  | zero => cases h
  | succ n ih =>
      rw [cronElements] at h
      obtain ⟨⟨left, p'⟩, helem, h⟩ := Option.bind_eq_some_iff.mp h
      obtain ⟨rfl, hadds⟩ := cronParseElement_marks helem
      rw [readElements]
      cases he : readElement ps with
      | none =>
          rw [he] at h hadds
          cases h
          exact ⟨rfl, hadds⟩
      | some e =>
          obtain ⟨e, rest⟩ := e
          rw [he] at h hadds
          simp only [Option.map_some] at h
          by_cases hcomma : rest.head?.map Subtype.val = some 44
          · rw [if_pos hcomma] at h
            obtain ⟨hleft, hmore⟩ := ih h
            simp only [if_pos hcomma]
            refine ⟨hleft, ?_⟩
            have hunion := hadds.trans hmore
            simpa [listCells] using hunion
          · rw [if_neg hcomma] at h
            simp only [if_neg hcomma]
            cases h
            exact ⟨rfl, hadds⟩

/-- A list. -/
theorem cronParseList_marks (h : cronParseList turns min max o pbuf = some (r, p)) :
    r = (readList o).1 ∧ Adds pbuf p (listCells min max (readList o).2) := by
  cases o with
  | none =>
      cases h
      exact ⟨rfl, by simpa [readList, listCells] using Adds.none pbuf⟩
  | some ps =>
      simp only [cronParseList] at h
      simp only [readList]
      by_cases heol : !cronEol (skipSpace ps)
      · rw [if_pos heol] at h
        obtain ⟨⟨left, p'⟩, helems, h⟩ := Option.bind_eq_some_iff.mp h
        cases h
        obtain ⟨hleft, hadds⟩ := cronElements_marks helems
        rw [if_pos heol]
        exact ⟨congrArg (Option.map skipError) hleft, hadds⟩
      · rw [if_neg heol] at h
        obtain ⟨p', hloop, h⟩ := Option.bind_eq_some_iff.mp h
        cases h
        rw [if_neg heol]
        refine ⟨rfl, ?_⟩
        simpa [listCells, CronElement.cells] using markLoop_adds hloop

end Marks

section Check

variable {turns n : ℕ} {ps : CStr} {r : Option CStr} {a a' : CronArrays}

/-- An entry adds its cells to every array. -/
theorem cronParseEntry_marks (h : cronParseEntry turns ps a = some (r, a')) :
    r = (readEntry ps).1 ∧ ∀ u : CronUnit,
      Adds (a.get u) (a'.get u) (listCells u.min u.max ((readEntry ps).2 u)) := by
  obtain ⟨⟨_, minutes⟩, hminutes, h⟩ := Option.bind_eq_some_iff.mp h
  obtain ⟨⟨_, hours⟩, hhours, h⟩ := Option.bind_eq_some_iff.mp h
  obtain ⟨⟨_, mdays⟩, hmdays, h⟩ := Option.bind_eq_some_iff.mp h
  obtain ⟨⟨_, months⟩, hmonths, h⟩ := Option.bind_eq_some_iff.mp h
  obtain ⟨⟨_, wdays⟩, hwdays, h⟩ := Option.bind_eq_some_iff.mp h
  cases h
  obtain ⟨rfl, hminutes'⟩ := cronParseList_marks hminutes
  obtain ⟨rfl, hhours'⟩ := cronParseList_marks hhours
  obtain ⟨rfl, hmdays'⟩ := cronParseList_marks hmdays
  obtain ⟨rfl, hmonths'⟩ := cronParseList_marks hmonths
  obtain ⟨rfl, hwdays'⟩ := cronParseList_marks hwdays
  refine ⟨rfl, fun u => ?_⟩
  cases u with
  | minute => exact hminutes'
  | hour => exact hhours'
  | mday => exact hmdays'
  | month => exact hmonths'
  | wday => exact hwdays'

/-- The entries, one after the other, add their cells to what is marked already. -/
theorem cronEntries_marks (h : cronEntries turns n ps a = some a') (u : CronUnit) :
    Adds (a.get u) (a'.get u) (specCells u (readCronEntries n ps)) := by
  induction n generalizing ps a with
  | zero => cases h
  | succ n ih =>
      rw [cronEntries] at h
      obtain ⟨⟨left, a₁⟩, hentry, h⟩ := Option.bind_eq_some_iff.mp h
      obtain ⟨rfl, hadds⟩ := cronParseEntry_marks hentry
      rw [readCronEntries]
      obtain ⟨left, entry, he⟩ : ∃ left entry, readEntry ps = (left, entry) := ⟨_, _, rfl⟩
      rw [he] at h hadds
      rw [he]
      rcases left with _ | _ | ⟨c, ps'⟩
      · cases h
        simpa [specCells] using hadds u
      · cases h
        simpa [specCells] using hadds u
      · have hunion := (hadds u).trans (ih h)
        simpa [specCells] using hunion

/-- The values of a unit are inside its array, and the seventh day of the week is not one. -/
theorem specCells_le {u : CronUnit} {entries : List CronEntry} {j : ℕ}
    (hj : j ∈ specCells u entries) : j ≤ u.max.toNat := by
  simp only [specCells, listCells, Set.mem_iUnion] at hj
  obtain ⟨entry, -, e, -, hj⟩ := hj
  have hmark : ∀ {m : Mark}, m.last.toNat ≤ u.max.toNat → j ∈ m.cells → j ≤ u.max.toNat := by
    rintro m hlast ⟨c, hc, rfl⟩
    exact Nat.le_trans (UInt8.le_iff_toNat_le.mp hc.le) hlast
  cases e with
  | all step => exact hmark (Nat.le_refl _) hj
  | value n =>
      obtain rfl := hj
      split
      · exact Nat.le_refl _
      · next h => exact UInt8.le_iff_toNat_le.mp (UInt8.not_lt.mp h)
  | range first last step => exact hmark (clipped_last _ _ _ _ _) hj

/-- **`cron_check` marks what the string stands for**: when it comes to its end, the cells of
the arrays that hold `true` are exactly those of the entries in the string, and all others
hold `false`. Seven, which is to be Sunday too, is never marked, so the check for it never
finds anything. -/
theorem cronCheck_marks {result : Bool} (hps : ps ≠ [])
    (h : cronCheck turns (some ps) a = some (result, a')) :
    result = false ∧ a'.wdays[7]? = some 0 ∧ ∀ (u : CronUnit) (j : ℕ),
      (j ∈ specCells u (readCron ps) → (a'.get u)[j]? = some 1) ∧
      (j ∉ specCells u (readCron ps) → (a'.get u)[j]? = (CronArrays.cleared.get u)[j]?) := by
  obtain ⟨c, ps, rfl⟩ := List.exists_cons_of_ne_nil hps
  obtain ⟨a₁, hentries, h⟩ := Option.bind_eq_some_iff.mp h
  have hadds := cronEntries_marks hentries
  have hseven : a₁.wdays[7]? = some 0 := by
    refine ((hadds .wday).kept 7 fun hmem => ?_).trans rfl
    exact absurd (specCells_le hmem) (by decide)
  have hsunday : a₁.wdays.getD 7 0 = 0 := by
    rw [List.getD_eq_getElem?_getD, hseven]
    rfl
  simp only [hsunday, ne_eq, not_true, if_false] at h
  cases h
  exact ⟨rfl, hseven, fun u j => ⟨(hadds u).marked j, (hadds u).kept j⟩⟩

end Check

/-- A minute, and then nothing that is a list: `5 x`. The call returns false, with the cell of the
minute marked. -/
theorem five_marked : ∃ c,
    cronCheck 61 (some [⟨53, by decide⟩, ⟨32, by decide⟩, ⟨120, by decide⟩]) .cleared =
      some (false, c) ∧ c.minutes[5]? = some 1 ∧ c.wdays[7]? = some 0 := by
  have hcheck : cronCheck 61 (some [⟨53, by decide⟩, ⟨32, by decide⟩, ⟨120, by decide⟩]) .cleared =
      some (false, { CronArrays.cleared with minutes := CronArrays.cleared.minutes.set 5 1 }) := rfl
  obtain ⟨-, hseven, hmarks⟩ := cronCheck_marks (List.cons_ne_nil _ _) hcheck
  refine ⟨_, hcheck, (hmarks .minute 5).1 ?_, hseven⟩
  simp only [specCells, listCells, Set.mem_iUnion]
  refine ⟨_, List.mem_singleton_self _, .value 5, List.mem_singleton_self _, rfl⟩

end Backd
