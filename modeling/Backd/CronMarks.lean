import Backd.CronParse
import Backd.Library.Endings

/-!
# Which Cron Strings Come to an End

`cronMarks` reads off a cron string the ranges its elements mark, as `cron_check` reads
them, but marks none of them. A range of eight bits is endless when its step is zero and it
is not empty; any other step leads out of it, upwards or, by overflow, downwards.

## Main results

* `markLoop_ends`: a range comes to its end unless it is endless.
* `cronCheck_ends`: `cron_check` comes to its end exactly if the string has no endless range.
-/

namespace Backd

open Endings

/-! ### One range -/

/-- A range of an array, and the step in which it is marked. -/
structure Mark where
  first : UInt8
  last : UInt8
  step : UInt8
  deriving DecidableEq, Repr

/-- The loop over the range does not come to its end. -/
def Mark.Endless (m : Mark) : Prop := m.step = 0 ∧ m.first ≤ m.last

instance (m : Mark) : Decidable m.Endless := inferInstanceAs (Decidable (_ ∧ _))

/-- A cell that is written to leaves the size of the array. -/
theorem length_putAt {mem mem' : Bytes} {i : ℕ} {c : UInt8} (h : putAt mem i c = some mem') :
    mem'.length = mem.length := by
  rw [putAt] at h
  split at h
  · obtain rfl := Option.some.inj h
    exact List.length_set
  · cases h

/-- The turns a range takes at most: a step that never overflows leads upwards, and one that
can leads downwards or beyond. -/
def turnsLeft (last step i : UInt8) : ℕ :=
  if last < i then 0
  else if step.toNat ≤ 196 then last.toNat + 1 - i.toNat
  else i.toNat + 1

/-- Every turn brings the loop nearer to its end. -/
theorem turnsLeft_next {last step i : UInt8} (hlast : last.toNat < 60) (hstep : step ≠ 0)
    (hi : i ≤ last) : turnsLeft last step (i + step) < turnsLeft last step i := by
  have hpos : 0 < step.toNat := Nat.pos_of_ne_zero fun h => hstep (UInt8.toNat_inj.mp h)
  have hsize := step.toNat_lt
  have hnext : (i + step).toNat = (i.toNat + step.toNat) % 2 ^ 8 := UInt8.toNat_add i step
  rw [UInt8.le_iff_toNat_le] at hi
  simp only [turnsLeft, UInt8.lt_iff_toNat_lt, hnext]
  split_ifs <;> omega

/-- Marking never changes the size of the array. -/
theorem markLoop_length {last step : UInt8} {turns : ℕ} {i : UInt8} {pbuf p : Bytes}
    (h : markLoop last step turns i pbuf = some p) : p.length = pbuf.length := by
  induction turns generalizing i pbuf with
  | zero => cases h
  | succ turns ih =>
      rw [markLoop] at h
      split at h
      · obtain ⟨pbuf', hput, hrest⟩ := Option.bind_eq_some_iff.mp h
        exact (ih hrest).trans (length_putAt hput)
      · exact congrArg _ (Option.some.inj h).symm

/-- With a step of zero the loop stays where it is. -/
theorem markLoop_endless {last : UInt8} (turns : ℕ) {i : UInt8} (hi : i ≤ last) (pbuf : Bytes) :
    markLoop last 0 turns i pbuf = none := by
  induction turns generalizing pbuf with
  | zero => rfl
  | succ turns ih =>
      rw [markLoop, if_pos hi, UInt8.add_zero]
      cases putAt pbuf i.toNat 1 with
      | none => rfl
      | some pbuf => exact ih pbuf

/-- With any other step it comes to its end. -/
theorem markLoop_isSome {last step : UInt8} (hlast : last.toNat < 60) (hstep : step ≠ 0)
    {turns : ℕ} {i : UInt8} {pbuf : Bytes} (hturns : turnsLeft last step i < turns)
    (hlen : last.toNat < pbuf.length) : (markLoop last step turns i pbuf).isSome := by
  induction turns generalizing i pbuf with
  | zero => omega
  | succ turns ih =>
      rw [markLoop]
      split
      · next hi =>
          have hlt : i.toNat < pbuf.length :=
            Nat.lt_of_le_of_lt (UInt8.le_iff_toNat_le.mp hi) hlen
          rw [putAt, if_pos hlt]
          have hnext := turnsLeft_next hlast hstep hi
          exact ih (by omega) (by rwa [List.length_set])
      · rfl

/-- **The loop over a range** comes to its end unless the range is endless. -/
theorem markLoop_ends (m : Mark) (turns : ℕ) {pbuf : Bytes} (hlast : m.last.toNat < 60)
    (hlen : m.last.toNat < pbuf.length) :
    EndsIff (¬ m.Endless) (61 ≤ turns) (markLoop m.last m.step turns m.first pbuf)
      (fun p => p.length = pbuf.length) where
  stuck h := by
    obtain ⟨hstep, hle⟩ := not_not.mp h
    rw [hstep]
    exact markLoop_endless turns hle pbuf
  ends h hturns := by
    by_cases hle : m.first ≤ m.last
    · have hstep : m.step ≠ 0 := fun hstep => h ⟨hstep, hle⟩
      have hleft : turnsLeft m.last m.step m.first ≤ 60 := by
        rw [UInt8.le_iff_toNat_le] at hle
        simp only [turnsLeft]
        split_ifs <;> omega
      exact markLoop_isSome hlast hstep (by omega) hlen
    · obtain ⟨turns, rfl⟩ : ∃ n, turns = n + 1 := ⟨turns - 1, by omega⟩
      rw [markLoop, if_neg hle]
      rfl
  post h := markLoop_length h

/-! ### The ranges of a cron string -/

/-- The part of a range an array admits. -/
def clipped (min max first last step : UInt8) : Mark :=
  let first := if first < min then min else first
  { first := if first > max then max else first, last := if last > max then max else last,
    step := step }

/-- What is left behind an element, and the range it marks. -/
def elementMarks (min max : UInt8) (ps : CStr) : Option CStr × List Mark :=
  match skipSpace ps with
  | [] => (none, [])
  | c :: ps =>
    if c.1 = 42 then (some (cronParseStep ps).2, [⟨min, max, (cronParseStep ps).1⟩])
    else if isdigit c then
      let (first, ps) := cronParseNumber (c :: ps)
      if ps.head? ≠ some dash then (some ps, [])
      else
        let (last, ps) := cronParseNumber ps.tail
        let (step, ps) := cronParseStep ps
        (some ps, [clipped min max first last step])
    else (none, [])

/-- What is left behind the elements of a list, at most `n` of them, and the ranges they
mark. -/
def elementsMarks (min max : UInt8) : ℕ → CStr → Option CStr × List Mark
  | 0, ps => (some ps, [])
  | n + 1, ps =>
    match elementMarks min max ps with
    | (none, marks) => (none, marks)
    | (some ps, marks) =>
      if ps.head?.map Subtype.val = some 44 then
        let (ps, more) := elementsMarks min max n ps.tail
        (ps, marks ++ more)
      else (some ps, marks)

/-- What is left behind a list, and the ranges it marks. -/
def listMarks (min max : UInt8) (ps : Option CStr) : Option CStr × List Mark :=
  match ps with
  | none => (none, [])
  | some ps =>
    let ps := skipSpace ps
    if !cronEol ps then
      let (ps, marks) := elementsMarks min max (ps.length + 1) ps
      (ps.map skipError, marks)
    else (some ps, [⟨min, max, 1⟩])

/-- What is left behind an entry, and the ranges it marks. -/
def entryMarks (ps : CStr) : Option CStr × List Mark :=
  let (ps, minutes) := listMarks 0 59 (some ps)
  let (ps, hours) := listMarks 0 23 ps
  let (ps, mdays) := listMarks 1 31 ps
  let (ps, months) := listMarks 1 12 ps
  let (ps, wdays) := listMarks 0 6 ps
  (ps.map skipEntry, minutes ++ (hours ++ (mdays ++ (months ++ wdays))))

/-- The ranges the entries mark, at most `n` of them. -/
def entriesMarks : ℕ → CStr → List Mark
  | 0, _ => []
  | n + 1, ps =>
    match entryMarks ps with
    | (none, marks) | (some [], marks) => marks
    | (some (c :: ps), marks) => marks ++ entriesMarks n (c :: ps)

/-- The ranges a cron string marks. -/
def cronMarks (ps : CStr) : List Mark :=
  if ps = [] then []
  else entriesMarks ((skipZone (skipSpace ps)).length + 1) (skipZone (skipSpace ps))

/-- None of some ranges is endless. -/
def AllEnd (marks : List Mark) : Prop := ∀ m ∈ marks, ¬ m.Endless

instance (marks : List Mark) : Decidable (AllEnd marks) :=
  inferInstanceAs (Decidable (∀ m ∈ marks, ¬ m.Endless))

@[simp] theorem allEnd_nil : AllEnd [] := by simp [AllEnd]

@[simp] theorem allEnd_singleton (m : Mark) : AllEnd [m] ↔ ¬ m.Endless := by simp [AllEnd]

@[simp] theorem allEnd_append (l l' : List Mark) :
    AllEnd (l ++ l') ↔ AllEnd l ∧ AllEnd l' := by
  simp only [AllEnd, List.mem_append, or_imp, forall_and]

/-! ### What is left gets shorter -/

theorem numberLoop_length (n : UInt8) (ps : CStr) : (numberLoop n ps).2.length ≤ ps.length := by
  induction ps generalizing n with
  | nil => exact Nat.le_refl _
  | cons c ps ih =>
      rw [numberLoop]
      split
      · exact Nat.le_succ_of_le (ih _)
      · exact Nat.le_refl _

theorem cronParseStep_length (ps : CStr) : (cronParseStep ps).2.length ≤ ps.length := by
  rw [cronParseStep]
  split
  · have htail : ps.tail.length ≤ ps.length := by simp
    exact Nat.le_trans (numberLoop_length _ _) htail
  · exact Nat.le_refl _

theorem skipSpace_length (ps : CStr) : (skipSpace ps).length ≤ ps.length :=
  (List.dropWhile_suffix _).length_le

theorem skipError_length (ps : CStr) : (skipError ps).length ≤ ps.length := by
  rw [skipError]
  split
  · exact Nat.le_refl _
  · simp

theorem elementMarks_length {min max : UInt8} {ps rest : CStr}
    (h : (elementMarks min max ps).1 = some rest) : rest.length ≤ ps.length := by
  have hskip := skipSpace_length ps
  rw [elementMarks] at h
  cases hps : skipSpace ps with
  | nil => simp [hps] at h
  | cons c ps' =>
      simp only [hps] at h hskip
      have hnumber := numberLoop_length 0 (c :: ps')
      split_ifs at h with hstar hdigit hdash
      · have hstep := cronParseStep_length ps'
        obtain rfl := Option.some.inj h
        rw [List.length_cons] at hskip
        omega
      · obtain rfl := Option.some.inj h
        exact Nat.le_trans hnumber hskip
      · have hlast := numberLoop_length 0 (numberLoop 0 (c :: ps')).2.tail
        have hstep := cronParseStep_length (cronParseNumber (numberLoop 0 (c :: ps')).2.tail).2
        obtain rfl := Option.some.inj h
        simp only [List.length_tail, cronParseNumber] at *
        omega

theorem elementsMarks_length {min max : UInt8} {n : ℕ} {ps rest : CStr}
    (h : (elementsMarks min max n ps).1 = some rest) : rest.length ≤ ps.length := by
  induction n generalizing ps with
  | zero =>
      obtain rfl := Option.some.inj h
      exact Nat.le_refl _
  | succ n ih =>
      rw [elementsMarks] at h
      cases he : elementMarks min max ps with
      | mk left marks =>
          rw [he] at h
          cases left with
          | none => cases h
          | some left =>
              have hleft := elementMarks_length (congrArg Prod.fst he)
              simp only at h
              split at h
              · have hrest := ih h
                rw [List.length_tail] at hrest
                omega
              · obtain rfl := Option.some.inj h
                exact hleft

theorem listMarks_length {min max : UInt8} {o : Option CStr} {rest : CStr}
    (h : (listMarks min max o).1 = some rest) : ∃ ps, o = some ps ∧ rest.length ≤ ps.length := by
  cases o with
  | none => cases h
  | some ps =>
      have hskip := skipSpace_length ps
      refine ⟨ps, rfl, ?_⟩
      simp only [listMarks] at h
      split at h
      · obtain ⟨left, hleft, rfl⟩ := Option.map_eq_some_iff.mp h
        have herr := skipError_length left
        have hleft := elementsMarks_length hleft
        omega
      · obtain rfl := Option.some.inj h
        exact hskip

/-- What is left behind a delimiter is shorter than what it ended. -/
theorem skipEntry_length {ps : CStr} (h : skipEntry ps ≠ []) :
    (skipEntry ps).length < ps.length := by
  have hdrop : (ps.dropWhile fun c => c.1 ≠ 59).length ≤ ps.length :=
    (List.dropWhile_suffix _).length_le
  have hskip := skipSpace_length (ps.dropWhile fun c => c.1 ≠ 59).tail
  simp only [skipEntry] at h ⊢
  generalize ps.dropWhile (fun c => decide (c.1 ≠ 59)) = left at *
  cases left with
  | nil => exact absurd rfl h
  | cons d left =>
      simp only [List.tail_cons, List.length_cons] at *
      omega

/-- An entry that leaves anything has passed its delimiter. -/
theorem entryMarks_length {ps : CStr} {c : CChar} {rest : CStr}
    (h : (entryMarks ps).1 = some (c :: rest)) : (c :: rest).length < ps.length := by
  obtain ⟨left, hwdays, hleft⟩ := Option.map_eq_some_iff.mp h
  obtain ⟨months, hmonths, h₅⟩ := listMarks_length hwdays
  obtain ⟨mdays, hmdays, h₄⟩ := listMarks_length hmonths
  obtain ⟨hours, hhours, h₃⟩ := listMarks_length hmdays
  obtain ⟨minutes, hminutes, h₂⟩ := listMarks_length hhours
  have hminutes : (listMarks 0 59 (some ps)).1 = some minutes := hminutes
  obtain ⟨ps', hps, h₁⟩ := listMarks_length hminutes
  obtain rfl := Option.some.inj hps
  have hskip := skipEntry_length (by rw [hleft]; exact List.cons_ne_nil c rest)
  rw [hleft] at hskip
  omega

/-! ### The functions come to their ends -/

section Ends

variable (min : UInt8) {max : UInt8} (turns : ℕ) {pbuf : Bytes}

/-- A range that was clipped ends inside the array. -/
theorem clipped_last (max first last step : UInt8) :
    (clipped min max first last step).last.toNat ≤ max.toNat := by
  simp only [clipped]
  split
  · exact Nat.le_refl _
  · next h => exact UInt8.le_iff_toNat_le.mp (UInt8.not_lt.mp h)

/-- **`cron_parse_element`** comes to its end unless its range is endless. -/
theorem cronParseElement_ends (hmax : max.toNat < 60) (hlen : max.toNat < pbuf.length)
    (ps : CStr) :
    EndsIff (AllEnd (elementMarks min max ps).2) (61 ≤ turns)
      (cronParseElement turns min max ps pbuf)
      (fun r => r.1 = (elementMarks min max ps).1 ∧ r.2.length = pbuf.length) := by
  rw [cronParseElement, elementMarks]
  cases skipSpace ps with
  | nil => exact (EndsIff.ret ⟨rfl, rfl⟩).congr (by simp)
  | cons c ps =>
      by_cases hstar : c.1 = 42
      · have hrange := markLoop_ends ⟨min, max, (cronParseStep ps).1⟩ turns hmax hlen
        simp only [if_pos hstar]
        exact (hrange.bind fun p hp => .ret ⟨rfl, hp⟩).congr (by simp)
      simp only [if_neg hstar]
      by_cases hdigit : isdigit c
      · simp only [if_pos hdigit]
        by_cases hdash : (cronParseNumber (c :: ps)).2.head? ≠ some dash
        · -- a single value
          simp only [if_pos hdash]
          have hin : (if (cronParseNumber (c :: ps)).1 > max then max
              else (cronParseNumber (c :: ps)).1).toNat < pbuf.length := by
            split
            · exact hlen
            · next h =>
                exact Nat.lt_of_le_of_lt (UInt8.le_iff_toNat_le.mp (UInt8.not_lt.mp h)) hlen
          rw [putAt, if_pos hin]
          exact (EndsIff.ret ⟨rfl, List.length_set⟩).congr (by simp)
        · simp only [if_neg hdash]
          generalize (cronParseNumber (c :: ps)).1 = first
          generalize (cronParseNumber (c :: ps)).2 = behind
          have hlast := clipped_last min max first (cronParseNumber behind.tail).1
            (cronParseStep (cronParseNumber behind.tail).2).1
          have hrange := markLoop_ends _ turns (Nat.lt_of_le_of_lt hlast hmax)
            (Nat.lt_of_le_of_lt hlast hlen)
          exact (hrange.bind fun p hp => .ret ⟨rfl, hp⟩).congr (by simp)
      · simp only [if_neg hdigit]
        exact (EndsIff.ret ⟨rfl, rfl⟩).congr (by simp)

/-- The loop over the elements of a list: every element but the last leaves a shorter
rest. -/
theorem cronElements_ends (hmax : max.toNat < 60) {n : ℕ} {ps : CStr} (hn : ps.length < n)
    (hlen : max.toNat < pbuf.length) :
    EndsIff (AllEnd (elementsMarks min max n ps).2) (61 ≤ turns)
      (cronElements turns min max n ps pbuf)
      (fun r => r.1 = (elementsMarks min max n ps).1 ∧ r.2.length = pbuf.length) := by
  induction n generalizing ps pbuf with
  | zero => omega
  | succ n ih =>
      rw [cronElements, elementsMarks]
      have helem := cronParseElement_ends min turns hmax hlen ps
      cases he : elementMarks min max ps with
      | mk rest marks =>
          rw [he] at helem
          cases rest with
          | none =>
              refine (helem.bind fun r hr => ?_).congr (and_iff_left trivial)
              obtain ⟨left, p⟩ := r
              obtain rfl : left = none := hr.1
              exact .ret ⟨rfl, hr.2⟩
          | some rest =>
              have hshort := elementMarks_length (congrArg Prod.fst he)
              by_cases hcomma : rest.head?.map Subtype.val = some 44
              · have htail : rest.tail.length < n := by
                  cases rest with
                  | nil => cases hcomma
                  | cons c rest =>
                      rw [List.length_cons] at hshort
                      exact Nat.lt_of_lt_of_le hshort (Nat.le_of_lt_succ hn)
                simp only [if_pos hcomma, allEnd_append]
                refine helem.bind fun r hr => ?_
                obtain ⟨left, p⟩ := r
                obtain rfl : left = some rest := hr.1
                have hp : p.length = pbuf.length := hr.2
                simp only [if_pos hcomma, ← hp]
                exact ih htail (by rwa [hp])
              · simp only [if_neg hcomma]
                refine (helem.bind fun r hr => ?_).congr (and_iff_left trivial)
                obtain ⟨left, p⟩ := r
                obtain rfl : left = some rest := hr.1
                simp only [if_neg hcomma]
                exact .ret ⟨rfl, hr.2⟩

/-- **`cron_parse_list`**. -/
theorem cronParseList_ends (hmax : max.toNat < 60) (hlen : max.toNat < pbuf.length)
    (ps : Option CStr) :
    EndsIff (AllEnd (listMarks min max ps).2) (61 ≤ turns)
      (cronParseList turns min max ps pbuf)
      (fun r => r.1 = (listMarks min max ps).1 ∧ r.2.length = pbuf.length) := by
  cases ps with
  | none => exact (EndsIff.ret ⟨rfl, rfl⟩).congr (by simp [listMarks])
  | some ps =>
      simp only [cronParseList, listMarks]
      by_cases heol : !cronEol (skipSpace ps)
      · simp only [if_pos heol]
        have helems := cronElements_ends min turns hmax
          (Nat.lt_succ_self (skipSpace ps).length) hlen
        refine (helems.bind fun r hr => .ret ⟨?_, hr.2⟩).congr (by simp)
        rw [hr.1]
      · simp only [if_neg heol]
        have hrange := markLoop_ends ⟨min, max, 1⟩ turns hmax hlen
        exact (hrange.bind fun p hp => .ret ⟨rfl, hp⟩).congr (by simp)

end Ends

/-- The arrays have their sizes. -/
structure CronArrays.Sized (a : CronArrays) : Prop where
  minutes : a.minutes.length = 60
  hours : a.hours.length = 24
  mdays : a.mdays.length = 32
  months : a.months.length = 13
  wdays : a.wdays.length = 8

theorem CronArrays.cleared_sized : CronArrays.cleared.Sized := ⟨rfl, rfl, rfl, rfl, rfl⟩

section Check

variable (turns : ℕ)

/-- **`cron_parse_entry`**. -/
theorem cronParseEntry_ends (ps : CStr) {a : CronArrays} (ha : a.Sized) :
    EndsIff (AllEnd (entryMarks ps).2) (61 ≤ turns) (cronParseEntry turns ps a)
      (fun r => r.1 = (entryMarks ps).1 ∧ r.2.Sized) := by
  simp only [entryMarks, allEnd_append]
  refine (cronParseList_ends _ turns (by decide) (by rw [ha.minutes]; decide) _).bind fun r hr => ?_
  obtain ⟨rest, minutes⟩ := r
  obtain ⟨rfl, hminutes⟩ := hr
  refine (cronParseList_ends _ turns (by decide) (by rw [ha.hours]; decide) _).bind fun r hr => ?_
  obtain ⟨rest, hours⟩ := r
  obtain ⟨rfl, hhours⟩ := hr
  refine (cronParseList_ends _ turns (by decide) (by rw [ha.mdays]; decide) _).bind fun r hr => ?_
  obtain ⟨rest, mdays⟩ := r
  obtain ⟨rfl, hmdays⟩ := hr
  refine (cronParseList_ends _ turns (by decide) (by rw [ha.months]; decide) _).bind fun r hr => ?_
  obtain ⟨rest, months⟩ := r
  obtain ⟨rfl, hmonths⟩ := hr
  refine ((cronParseList_ends _ turns (by decide) (by rw [ha.wdays]; decide) _).bind
    fun r hr => ?_).congr (and_iff_left trivial)
  obtain ⟨rest, wdays⟩ := r
  obtain ⟨rfl, hwdays⟩ := hr
  exact .ret ⟨rfl, hminutes.trans ha.minutes, hhours.trans ha.hours, hmdays.trans ha.mdays,
    hmonths.trans ha.months, hwdays.trans ha.wdays⟩

/-- The loop over the entries: every entry but the last leaves a shorter rest. -/
theorem cronEntries_ends {n : ℕ} {ps : CStr} (hn : ps.length < n) {a : CronArrays}
    (ha : a.Sized) :
    EndsIff (AllEnd (entriesMarks n ps)) (61 ≤ turns) (cronEntries turns n ps a)
      CronArrays.Sized := by
  induction n generalizing ps a with
  | zero => omega
  | succ n ih =>
      rw [cronEntries, entriesMarks]
      have hentry := cronParseEntry_ends turns ps ha
      cases he : entryMarks ps with
      | mk rest marks =>
          rw [he] at hentry
          have hshort {c : CChar} {ps' : CStr} (h : rest = some (c :: ps')) :
              (c :: ps').length < ps.length :=
            entryMarks_length ((congrArg Prod.fst he).trans h)
          rcases rest with _ | _ | ⟨c, ps'⟩
          · refine (hentry.bind fun r hr => ?_).congr (and_iff_left trivial)
            obtain ⟨left, a'⟩ := r
            obtain rfl : left = none := hr.1
            exact .ret hr.2
          · refine (hentry.bind fun r hr => ?_).congr (and_iff_left trivial)
            obtain ⟨left, a'⟩ := r
            obtain rfl : left = some [] := hr.1
            exact .ret hr.2
          · simp only [allEnd_append]
            refine hentry.bind fun r hr => ?_
            obtain ⟨left, a'⟩ := r
            obtain rfl : left = some (c :: ps') := hr.1
            exact ih (Nat.lt_of_lt_of_le (hshort rfl) (Nat.le_of_lt_succ hn)) hr.2

/-- **`cron_check`** comes to its end exactly if the string has no endless range. -/
theorem cronCheck_ends (ps : CStr) (a : CronArrays) :
    EndsIff (AllEnd (cronMarks ps)) (61 ≤ turns) (cronCheck turns (some ps) a)
      (fun _ => True) := by
  cases ps with
  | nil => exact (EndsIff.ret trivial).congr (by simp [cronMarks])
  | cons c ps =>
      rw [cronMarks, if_neg (List.cons_ne_nil _ _)]
      exact ((cronEntries_ends turns (Nat.lt_succ_self _) CronArrays.cleared_sized).bind
        fun a _ => .ret trivial).congr (and_iff_left trivial)

end Check

end Backd
