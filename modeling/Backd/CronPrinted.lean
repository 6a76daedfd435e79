import Backd.AtoiPrinted
import Backd.CronMeaning

/-!
# Cron Strings as They Are Documented

The header of `cron-parse.c` gives the format: entries separated by semicolons, each of five
lists separated by blanks, and a list is elements separated by commas. `printCron` writes
entries in this format, and `cron_check` reads them back as they are.

Written so, an element stands for what the format says, as long as its step does not overflow
the counter (`CronElement.Regular`): the multiples of the step from the first value on, where
the first and the last value are moved to the nearest ones the unit has. A single value is not
moved up to the least one.

## Main results

* `readCron_printed`: what is read of written entries are these entries.
* `cronCheck_printed`: `cron_check` marks what the written entries say.
-/

namespace Backd

open Endings Numeral

/-! ### Writing -/

/-- The character `*`. -/
def star : CChar := ⟨42, by decide⟩

/-- The character `,`. -/
def comma : CChar := ⟨44, by decide⟩

/-- The character `;`. -/
def semicolon : CChar := ⟨59, by decide⟩

theorem blank_ne_zero : (32 : UInt8) ≠ 0 := by decide

/-- The character between two lists. -/
def blank : CChar := ⟨32, blank_ne_zero⟩

/-- The character `Z`. -/
def zoneZ : CChar := ⟨90, by decide⟩

/-- The character `L`. -/
def zoneL : CChar := ⟨76, by decide⟩

/-- A number. -/
def printNumber (n : UInt8) : CStr := numeralStr 10 n.toNat

/-- The step of a range, if it has one. -/
def printStep : Option UInt8 → CStr
  | none => []
  | some n => slash :: printNumber n

/-- An element. -/
def CronElement.print : CronElement → CStr
  | all step => star :: printStep step
  | value n => printNumber n
  | range first last step => printNumber first ++ dash :: (printNumber last ++ printStep step)

/-- Strings with a separator between them. -/
def separated (sep : CChar) : List CStr → CStr
  | [] => []
  | [s] => s
  | s :: t :: l => s ++ sep :: separated sep (t :: l)

/-- A list of elements. -/
def printList (es : List CronElement) : CStr := separated comma (es.map CronElement.print)

/-- An entry. -/
def CronEntry.print (entry : CronEntry) : CStr :=
  separated blank [printList (entry .minute), printList (entry .hour), printList (entry .mday),
    printList (entry .month), printList (entry .wday)]

/-- The entries of a cron string. -/
def printCron (entries : List CronEntry) : CStr := separated semicolon (entries.map CronEntry.print)

/-- Every list of an entry has an element. -/
def CronEntry.Full (entry : CronEntry) : Prop := ∀ u, entry u ≠ []

/-! ### Reading back -/

/-- What may follow an element: the end, or one of the separators. -/
def Stops (rest : CStr) : Prop :=
  ∀ c ∈ rest.head?, c = comma ∨ c = blank ∨ c = semicolon

/-- What may follow a list. -/
def ListStops (rest : CStr) : Prop :=
  ∀ c ∈ rest.head?, c = blank ∨ c = semicolon

section Read

variable {rest : CStr}

theorem ListStops.stops (h : ListStops rest) : Stops rest := fun c hc => .inr (h c hc)

theorem stops_cons {c : CChar} (h : c = comma ∨ c = blank ∨ c = semicolon) :
    Stops (c :: rest) := by
  rintro d hd
  obtain rfl := Option.some.inj hd
  exact h

/-- A separator is no part of a number or a range. -/
theorem Stops.head {c : CChar} (h : Stops rest) (hc : rest.head? = some c) :
    isdigit c = false ∧ c ≠ dash ∧ c ≠ slash := by
  rcases h c hc with rfl | rfl | rfl <;> decide

theorem digitChar_read : ∀ d < 10, isdigit (digitChar d) = true ∧
    (digitChar d).1 - 48 = UInt8.ofNat d := by
  decide

/-- The loop over the digits of a number, by induction over them. -/
theorem numberLoop_digits {ds : List ℕ} (hds : ∀ d ∈ ds, d < 10)
    (hrest : ∀ c ∈ rest.head?, isdigit c = false) (n : ℕ) :
    numberLoop (UInt8.ofNat n) (ds.map digitChar ++ rest) =
      (UInt8.ofNat (ds.foldl (fun n d => n * 10 + d) n), rest) := by
  induction ds generalizing n with
  | nil =>
      cases rest with
      | nil => rfl
      | cons c rest =>
          rw [List.map_nil, List.nil_append, numberLoop, hrest c rfl]
          rfl
  | cons d ds ih =>
      rw [List.forall_mem_cons] at hds
      obtain ⟨hdigit, hvalue⟩ := digitChar_read d hds.1
      rw [List.map_cons, List.cons_append, numberLoop, if_pos hdigit, hvalue, List.foldl_cons,
        ← ih hds.2]
      congr 1
      rw [UInt8.ofNat_add, UInt8.ofNat_mul]
      rfl

/-- A written number is read back, if no digit follows. -/
theorem cronParseNumber_printed (n : UInt8) (hrest : ∀ c ∈ rest.head?, isdigit c = false) :
    cronParseNumber (printNumber n ++ rest) = (n, rest) := by
  have hdigits : ∀ d ∈ numeral 10 n.toNat, d < 10 := fun d hd =>
    lt_of_mem_numeral (by omega) hd
  have hloop := numberLoop_digits hdigits hrest 0
  have hvalue : (numeral 10 n.toNat).foldl (fun n d => n * 10 + d) 0 = n.toNat :=
    value_numeral 10 n.toNat
  rw [hvalue, UInt8.ofNat_toNat] at hloop
  exact hloop

/-- A written number begins with a digit. -/
theorem printNumber_cons (n : UInt8) : ∃ c s, printNumber n = c :: s ∧ isdigit c = true := by
  obtain ⟨d, ds, hds⟩ := List.exists_cons_of_ne_nil (numeral_ne_nil 10 n.toNat)
  have hlt : d < 10 := lt_of_mem_numeral (b := 10) (n := n.toNat) (by omega)
    (hds ▸ List.mem_cons_self)
  refine ⟨digitChar d, ds.map digitChar, ?_, (digitChar_read d hlt).1⟩
  rw [printNumber, numeralStr, hds, List.map_cons]

/-- A written step is read back. -/
theorem readStep_printed (step : Option UInt8) (hrest : Stops rest) :
    readStep (printStep step ++ rest) = (step, rest) := by
  cases step with
  | none =>
      rw [printStep, List.nil_append, readStep, if_neg]
      exact fun hslash => (hrest.head hslash).2.2 rfl
  | some n =>
      have hnumber := cronParseNumber_printed n fun c hc => (hrest.head hc).1
      simp only [printStep, readStep, List.cons_append, List.head?_cons, if_true, List.tail_cons,
        hnumber]

/-- An element begins with a star or a digit. -/
def Begins (s : CStr) : Prop := ∃ c t, s = c :: t ∧ (c = star ∨ isdigit c = true)

theorem CronElement.print_begins (e : CronElement) : Begins e.print := by
  cases e with
  | all step => exact ⟨star, _, rfl, .inl rfl⟩
  | value n =>
      obtain ⟨c, s, hs, hc⟩ := printNumber_cons n
      exact ⟨c, s, hs, .inr hc⟩
  | range first last step =>
      obtain ⟨c, s, hs, hc⟩ := printNumber_cons first
      exact ⟨c, _, by rw [CronElement.print, hs]; rfl, .inr hc⟩

/-- No blank is in front of it. -/
theorem Begins.skipSpace {s : CStr} (h : Begins s) (rest : CStr) :
    skipSpace (s ++ rest) = s ++ rest := by
  obtain ⟨c, t, rfl, hc⟩ := h
  have hspace : isspace c = false := by
    rcases hc with rfl | hc
    · rfl
    · exact (@digit_not_skipped 10 c (by omega) (isDigitOf_ten c ▸ hc)).1
  rw [Backd.skipSpace, List.cons_append, List.dropWhile_cons_of_neg (by simp [hspace])]

/-- It is no end of a list, and no zone. -/
theorem Begins.head {s : CStr} (h : Begins s) (rest : CStr) :
    cronEol (s ++ rest) = false ∧ skipZone (s ++ rest) = s ++ rest := by
  obtain ⟨c, t, rfl, hc⟩ := h
  have hcode : c.1 ≠ 59 ∧ ¬ (c.1 = 90 ∨ c.1 = 76) := by
    rcases hc with rfl | hc
    · decide
    · have hc : 48 ≤ c.1 ∧ c.1 ≤ 57 := of_decide_eq_true hc
      simp only [UInt8.le_iff_toNat_le, ← UInt8.toNat_inj, ne_eq, UInt8.reduceToNat] at hc ⊢
      exact ⟨by omega, by omega⟩
  constructor
  · simp [cronEol, hcode.1]
  · rw [List.cons_append, skipZone, if_neg hcode.2]

/-- **A written element is read back**, whatever separator follows. -/
theorem readElement_printed (e : CronElement) (hrest : Stops rest) :
    readElement (e.print ++ rest) = some (e, rest) := by
  have hstop : ∀ c ∈ rest.head?, isdigit c = false := fun c hc => (hrest.head hc).1
  have hnumber : ∀ (n : UInt8) (rest : CStr), ∃ c s, printNumber n ++ rest = c :: s ∧
      ¬ c.1 = 42 ∧ isdigit c = true := by
    intro n rest
    obtain ⟨c, s, hs, hc⟩ := printNumber_cons n
    refine ⟨c, s ++ rest, by rw [hs, List.cons_append], ?_, hc⟩
    intro hstar
    have hc : 48 ≤ c.1 ∧ c.1 ≤ 57 := of_decide_eq_true hc
    rw [hstar] at hc
    exact absurd hc.1 (by decide)
  rw [readElement, e.print_begins.skipSpace]
  cases e with
  | all step =>
      simp only [CronElement.print, List.cons_append, readStep_printed step hrest]
      rfl
  | value n =>
      obtain ⟨c, s, hs, hstar, hdigit⟩ := hnumber n rest
      simp only [CronElement.print]
      rw [hs]
      simp only [if_neg hstar, if_pos hdigit]
      rw [← hs, cronParseNumber_printed n hstop, if_pos]
      exact fun hdash => (hrest.head hdash).2.1 rfl
  | range first last step =>
      obtain ⟨c, s, hs, hstar, hdigit⟩ :=
        hnumber first (dash :: (printNumber last ++ (printStep step ++ rest)))
      have hassoc : printNumber first ++ dash :: (printNumber last ++ printStep step) ++ rest =
          printNumber first ++ dash :: (printNumber last ++ (printStep step ++ rest)) := by
        simp
      have hbehind : ∀ c ∈ (printStep step ++ rest).head?, isdigit c = false := by
        cases step with
        | none => exact hstop
        | some n =>
            intro c hc
            obtain rfl : slash = c := Option.some.inj hc
            rfl
      have hfirst := @cronParseNumber_printed (dash :: (printNumber last ++
        (printStep step ++ rest))) first fun c hc => by
          obtain rfl : dash = c := Option.some.inj hc
          rfl
      simp only [CronElement.print]
      rw [hassoc, hs]
      simp only [if_neg hstar, if_pos hdigit]
      rw [← hs, hfirst]
      simp only [List.head?_cons, ne_eq, not_true, if_false, List.tail_cons,
        cronParseNumber_printed last hbehind, readStep_printed step hrest]

/-- Elements with separators between them begin like an element. -/
theorem printList_begins {es : List CronElement} (hes : es ≠ []) : Begins (printList es) := by
  obtain ⟨e, es, rfl⟩ := List.exists_cons_of_ne_nil hes
  obtain ⟨c, t, ht, hc⟩ := e.print_begins
  cases es with
  | nil => exact ⟨c, t, ht, hc⟩
  | cons e' es =>
      refine ⟨c, t ++ comma :: printList (e' :: es), ?_, hc⟩
      rw [← List.cons_append, ← ht]
      rfl

/-- A list is at least as long as it has elements. -/
theorem length_le_printList (es : List CronElement) : es.length ≤ (printList es).length := by
  induction es with
  | nil => exact Nat.le_refl _
  | cons e es ih =>
      obtain ⟨c, t, ht, -⟩ := e.print_begins
      cases es with
      | nil =>
          change 1 ≤ e.print.length
          rw [ht, List.length_cons]
          omega
      | cons e' es =>
          have hsplit : printList (e :: e' :: es) = e.print ++ comma :: printList (e' :: es) := rfl
          rw [hsplit, ht]
          simp only [List.cons_append, List.length_cons, List.length_append] at ih ⊢
          omega

/-- Written elements are read back, by induction over them. -/
theorem readElements_printed {es : List CronElement} (hes : es ≠ []) (hrest : ListStops rest)
    {n : ℕ} (hn : es.length ≤ n) : readElements n (printList es ++ rest) = (some rest, es) := by
  have hcomma : rest.head?.map Subtype.val ≠ some 44 := by
    intro hhead
    obtain ⟨c, hc, hcode⟩ := Option.map_eq_some_iff.mp hhead
    rcases hrest c hc with rfl | rfl <;> exact absurd hcode (by decide)
  induction es generalizing n with
  | nil => exact absurd rfl hes
  | cons e es ih =>
      obtain ⟨n, rfl⟩ : ∃ k, n = k + 1 := ⟨n - 1, by rw [List.length_cons] at hn; omega⟩
      rw [readElements]
      cases es with
      | nil =>
          have hsingle : printList [e] = e.print := rfl
          rw [hsingle, readElement_printed e hrest.stops]
          simp only [if_neg hcomma]
      | cons e' es =>
          have hsplit : printList (e :: e' :: es) ++ rest =
              e.print ++ comma :: (printList (e' :: es) ++ rest) := by
            simp [printList, separated]
          have htail := ih (List.cons_ne_nil _ _) (n := n) (by simpa using hn)
          rw [hsplit, readElement_printed e (stops_cons (.inl rfl))]
          simp only [List.head?_cons, Option.map_some, List.tail_cons, htail]
          rfl

/-- **A written list is read back**, behind any blanks. -/
theorem readList_printed {ps : CStr} {es : List CronElement} (hes : es ≠ [])
    (hrest : ListStops rest) (hps : skipSpace ps = printList es ++ rest) :
    readList (some ps) = (some rest, es) := by
  have hlen : es.length ≤ (printList es ++ rest).length + 1 := by
    rw [List.length_append]
    have := length_le_printList es
    omega
  have hskip : skipError rest = rest := by
    cases rest with
    | nil => rfl
    | cons c rest =>
        rw [skipError, if_pos]
        rcases hrest c rfl with rfl | rfl <;> rfl
  simp only [readList, hps, ((printList_begins hes).head rest).1, Bool.not_false, if_true,
    readElements_printed hes hrest hlen, Option.map_some, hskip]

/-- A list behind the blank that separates it. -/
theorem readList_blank {es : List CronElement} (hes : es ≠ []) (hrest : ListStops rest) :
    readList (some (blank :: (printList es ++ rest))) = (some rest, es) :=
  readList_printed hes hrest (by
    rw [skipSpace, List.dropWhile_cons_of_pos rfl]
    exact (printList_begins hes).skipSpace rest)

theorem listStops_cons {c : CChar} (h : c = blank ∨ c = semicolon) : ListStops (c :: rest) := by
  intro d hd
  obtain rfl := Option.some.inj hd
  exact h

variable {entry : CronEntry} {entries : List CronEntry}

/-- **A written entry is read back**, and what separates it from the next is skipped. -/
theorem readEntry_printed (hfull : entry.Full) (hrest : ListStops rest) :
    readEntry (entry.print ++ rest) = (some (skipEntry rest), entry) := by
  have hblank : ∀ s : CStr, ListStops (blank :: s) := fun s => listStops_cons (.inl rfl)
  have hsplit : entry.print ++ rest = printList (entry .minute) ++
      blank :: (printList (entry .hour) ++ blank :: (printList (entry .mday) ++
        blank :: (printList (entry .month) ++ blank :: (printList (entry .wday) ++ rest)))) := by
    simp [CronEntry.print, separated]
  have hminute := readList_printed (hfull .minute) (hblank (printList (entry .hour) ++
    blank :: (printList (entry .mday) ++ blank :: (printList (entry .month) ++
      blank :: (printList (entry .wday) ++ rest)))))
    ((printList_begins (hfull .minute)).skipSpace _)
  simp only [readEntry, hsplit, hminute, readList_blank (hfull .hour) (hblank _),
    readList_blank (hfull .mday) (hblank _), readList_blank (hfull .month) (hblank _),
    readList_blank (hfull .wday) hrest, Option.map_some]
  refine congrArg (Prod.mk _) ?_
  funext u
  cases u <;> rfl

theorem CronEntry.print_begins (hfull : entry.Full) : Begins entry.print := by
  obtain ⟨c, t, ht, hc⟩ := printList_begins (hfull .minute)
  refine ⟨c, t ++ blank :: separated blank [printList (entry .hour), printList (entry .mday),
    printList (entry .month), printList (entry .wday)], ?_, hc⟩
  rw [← List.cons_append, ← ht]
  rfl

/-- Written entries begin like an element. -/
theorem printCron_begins (hne : entries ≠ []) (hfull : ∀ entry ∈ entries, entry.Full) :
    Begins (printCron entries) := by
  obtain ⟨entry, entries, rfl⟩ := List.exists_cons_of_ne_nil hne
  obtain ⟨c, t, ht, hc⟩ := CronEntry.print_begins (hfull entry List.mem_cons_self)
  cases entries with
  | nil => exact ⟨c, t, ht, hc⟩
  | cons entry' entries =>
      refine ⟨c, t ++ semicolon :: printCron (entry' :: entries), ?_, hc⟩
      rw [← List.cons_append, ← ht]
      rfl

/-- Written entries are read back, by induction over them. -/
theorem readCronEntries_printed (hne : entries ≠ []) (hfull : ∀ entry ∈ entries, entry.Full)
    {n : ℕ} (hn : (printCron entries).length < n) :
    readCronEntries n (printCron entries) = entries := by
  induction entries generalizing n with
  | nil => exact absurd rfl hne
  | cons entry entries ih =>
      obtain ⟨n, rfl⟩ : ∃ k, n = k + 1 := ⟨n - 1, by omega⟩
      rw [List.forall_mem_cons] at hfull
      rw [readCronEntries]
      cases entries with
      | nil =>
          have hentry := @readEntry_printed [] entry hfull.1 fun c hc => by cases hc
          rw [List.append_nil] at hentry
          have hsingle : printCron [entry] = entry.print := rfl
          rw [hsingle, hentry]
          rfl
      | cons entry' entries =>
          have hbegins := printCron_begins (List.cons_ne_nil entry' entries) hfull.2
          have hsplit : printCron (entry :: entry' :: entries) =
              entry.print ++ semicolon :: printCron (entry' :: entries) := rfl
          have hskip : skipEntry (semicolon :: printCron (entry' :: entries)) =
              printCron (entry' :: entries) := by
            have hblanks := hbegins.skipSpace []
            rw [List.append_nil] at hblanks
            rw [skipEntry, List.dropWhile_cons_of_neg (by simp [semicolon])]
            exact hblanks
          have hrest := ih (List.cons_ne_nil _ _) hfull.2 (n := n) (by
            rw [hsplit] at hn
            simp only [List.length_append, List.length_cons] at hn
            omega)
          rw [hsplit, readEntry_printed hfull.1 (listStops_cons (.inr rfl)), hskip]
          obtain ⟨c, t, ht, -⟩ := hbegins
          rw [ht] at hrest ⊢
          simp only [hrest]

/-- What may stand in front of the entries: the zone of the times, or nothing. -/
def Zone (zone : CStr) : Prop := zone = [] ∨ zone = [zoneZ] ∨ zone = [zoneL]

/-- **What is read of written entries are these entries**, in any zone. -/
theorem readCron_printed {zone : CStr} (hzone : Zone zone) (hne : entries ≠ [])
    (hfull : ∀ entry ∈ entries, entry.Full) : readCron (zone ++ printCron entries) = entries := by
  have hbegins := printCron_begins hne hfull
  have hskip : skipZone (skipSpace (zone ++ printCron entries)) = printCron entries := by
    rcases hzone with rfl | rfl | rfl
    · have hspace := hbegins.skipSpace []
      have hhead := (hbegins.head []).2
      rw [List.append_nil] at hspace hhead
      rw [List.nil_append, hspace, hhead]
    · rfl
    · rfl
  rw [readCron, hskip]
  exact readCronEntries_printed hne hfull (Nat.lt_succ_self _)

end Read

/-! ### What the format says -/

/-- A step that is given is neither zero nor so large that the counter overflows. -/
def CronElement.Regular : CronElement → Prop
  | value _ => True
  | all step | range _ _ step => ∀ n ∈ step, n ≠ 0 ∧ n.toNat ≤ 196

/-- The value of a unit that is nearest to a number. -/
def CronUnit.clip (u : CronUnit) (n : ℕ) : ℕ := Nat.min (Nat.max n u.min.toNat) u.max.toNat

/-- The values an element of a list for a unit stands for. -/
def CronElement.Covers (u : CronUnit) (j : ℕ) : CronElement → Prop
  | all step => u.min.toNat ≤ j ∧ j ≤ u.max.toNat ∧ (step.getD 1).toNat ∣ j - u.min.toNat
  | value n => j = Nat.min n.toNat u.max.toNat
  | range first last step => u.clip first.toNat ≤ j ∧ j ≤ Nat.min last.toNat u.max.toNat ∧
      (step.getD 1).toNat ∣ j - u.clip first.toNat

section Meaning

variable {u : CronUnit} {e : CronElement} {j : ℕ}

theorem CronUnit.bounds (u : CronUnit) : u.min.toNat ≤ u.max.toNat ∧ u.max.toNat < 60 := by
  cases u <;> exact ⟨by decide, by decide⟩

/-- A step that is regular is one the loop over a range comes to its end with. -/
theorem regular_step {step : Option UInt8} (h : ∀ n ∈ step, n ≠ 0 ∧ n.toNat ≤ 196) :
    step.getD 1 ≠ 0 ∧ (step.getD 1).toNat ≤ 196 := by
  cases step with
  | none => decide
  | some n => exact h n rfl

theorem mem_cells_iff {m : Mark} (hstep : m.step ≠ 0) (hlast : m.last.toNat + m.step.toNat < 256) :
    j ∈ m.cells ↔ m.first.toNat ≤ j ∧ j ≤ m.last.toNat ∧ m.step.toNat ∣ j - m.first.toNat := by
  constructor
  · rintro ⟨c, hc, rfl⟩
    obtain ⟨hfirst, hlast, hdvd⟩ := (visits_iff hstep hlast).mp hc
    exact ⟨UInt8.le_iff_toNat_le.mp hfirst, UInt8.le_iff_toNat_le.mp hlast, hdvd⟩
  · rintro ⟨hfirst, hj, hdvd⟩
    have hvalue : (UInt8.ofNat j).toNat = j := by
      rw [UInt8.toNat_ofNat']
      exact Nat.mod_eq_of_lt (by omega)
    refine ⟨UInt8.ofNat j, (visits_iff hstep hlast).mpr ?_, hvalue⟩
    rw [UInt8.le_iff_toNat_le, UInt8.le_iff_toNat_le, hvalue]
    exact ⟨hfirst, hj, hdvd⟩

/-- The ends of a clipped range. -/
theorem clipped_ends (first last step : UInt8) :
    (clipped u.min u.max first last step).first.toNat = u.clip first.toNat ∧
      (clipped u.min u.max first last step).last.toNat = Nat.min last.toNat u.max.toNat := by
  have hbounds := u.bounds
  constructor
  · simp only [clipped, CronUnit.clip, UInt8.lt_iff_toNat_lt, gt_iff_lt]
    split_ifs <;> simp only [Nat.min_def, Nat.max_def] <;> split_ifs <;> omega
  · simp only [clipped, UInt8.lt_iff_toNat_lt, gt_iff_lt]
    split_ifs <;> simp only [Nat.min_def] <;> split_ifs <;> omega

/-- **The cells of a regular element** are the values it stands for. -/
theorem cells_iff_covers (h : e.Regular) : j ∈ e.cells u.min u.max ↔ e.Covers u j := by
  have hbounds := u.bounds
  cases e with
  | all step =>
      obtain ⟨hstep, hle⟩ := regular_step h
      exact mem_cells_iff hstep (by dsimp only; omega)
  | value n =>
      have hcut : (if n > u.max then u.max else n).toNat = Nat.min n.toNat u.max.toNat := by
        simp only [gt_iff_lt, UInt8.lt_iff_toNat_lt]
        split_ifs <;> simp only [Nat.min_def] <;> split_ifs <;> omega
      rw [CronElement.cells, Set.mem_singleton_iff, CronElement.Covers, hcut]
  | range first last step =>
      obtain ⟨hstep, hle⟩ := regular_step h
      obtain ⟨hfirst, hlast⟩ := clipped_ends (u := u) first last (step.getD 1)
      have hend : (clipped u.min u.max first last (step.getD 1)).last.toNat ≤ u.max.toNat :=
        clipped_last _ _ _ _ _
      have hiff := mem_cells_iff (j := j) (m := clipped u.min u.max first last (step.getD 1))
        hstep (by
          change _ + (step.getD 1).toNat < 256
          omega)
      rw [hfirst, hlast] at hiff
      exact hiff

/-- Regular elements have no endless range. -/
theorem regular_ends (h : e.Regular) : AllEnd (e.ranges u.min u.max) := by
  intro m hm hendless
  cases e with
  | all step =>
      obtain rfl := List.mem_singleton.mp hm
      exact (regular_step h).1 hendless.1
  | value n => cases hm
  | range first last step =>
      obtain rfl := List.mem_singleton.mp hm
      exact (regular_step h).1 hendless.1

/-- A cell that is not one of the units' is not marked in a cleared array. -/
theorem cleared_ne (u : CronUnit) (j : ℕ) : (CronArrays.cleared.get u)[j]? ≠ some 1 := by
  have hreplicate : ∃ n, CronArrays.cleared.get u = List.replicate n 0 := by
    cases u <;> exact ⟨_, rfl⟩
  obtain ⟨n, hn⟩ := hreplicate
  rw [hn, List.getElem?_replicate]
  split <;> simp

/-- **`cron_check` marks what the written entries say**, in any zone: it comes to its end, and
a cell holds `true` exactly if an element of some entry stands for its value. -/
theorem cronCheck_printed {zone : CStr} {entries : List CronEntry} {turns : ℕ} (a : CronArrays)
    (hzone : Zone zone) (hne : entries ≠ []) (hfull : ∀ entry ∈ entries, entry.Full)
    (hregular : ∀ entry ∈ entries, ∀ u, ∀ e ∈ entry u, e.Regular) (hturns : 61 ≤ turns) :
    ∃ a', cronCheck turns (some (zone ++ printCron entries)) a = some (false, a') ∧
      ∀ u j, (a'.get u)[j]? = some 1 ↔ ∃ entry ∈ entries, ∃ e ∈ entry u, e.Covers u j := by
  have hread := readCron_printed hzone hne hfull
  have hps : zone ++ printCron entries ≠ [] := by
    obtain ⟨c, t, ht, -⟩ := printCron_begins hne hfull
    rw [ht]
    simp
  have hends : AllEnd (cronMarks (zone ++ printCron entries)) := by
    rw [cronMarks, if_neg hps, allEnd_entriesMarks]
    intro entry hentry u e he
    rw [readCron] at hread
    rw [hread] at hentry
    exact regular_ends (hregular entry hentry u e he)
  obtain ⟨⟨result, a'⟩, hcheck⟩ :=
    Option.isSome_iff_exists.mp ((cronCheck_ends turns _ a).ends hends hturns)
  obtain ⟨rfl, -, hmarks⟩ := cronCheck_marks hps hcheck
  refine ⟨a', hcheck, fun u j => ?_⟩
  obtain ⟨hin, hout⟩ := hmarks u j
  have hcells : j ∈ specCells u (readCron (zone ++ printCron entries)) ↔
      ∃ entry ∈ entries, ∃ e ∈ entry u, e.Covers u j := by
    rw [hread]
    simp only [specCells, listCells, Set.mem_iUnion, exists_prop]
    constructor
    · rintro ⟨entry, hentry, e, he, hj⟩
      exact ⟨entry, hentry, e, he, (cells_iff_covers (hregular entry hentry u e he)).mp hj⟩
    · rintro ⟨entry, hentry, e, he, hj⟩
      exact ⟨entry, hentry, e, he, (cells_iff_covers (hregular entry hentry u e he)).mpr hj⟩
  rw [← hcells]
  constructor
  · intro hone
    by_contra hno
    rw [hout hno] at hone
    exact cleared_ne u j hone
  · exact hin

end Meaning

/-- The first Sunday of a month at six, every quarter of an hour: `*/15 6 1-7 * 0`. -/
def sundayMornings : CronEntry
  | .minute => [.all (some 15)]
  | .hour => [.value 6]
  | .mday => [.range 1 7 none]
  | .month => [.all none]
  | .wday => [.value 0]

/-- Parsing what is printed of it marks exactly the cells it covers. -/
theorem sundayMornings_marked : ∃ a', cronCheck 61
      (some ([zoneZ] ++ printCron [sundayMornings])) .cleared = some (false, a') ∧
    ∀ u j, (a'.get u)[j]? = some 1 ↔
      ∃ entry ∈ [sundayMornings], ∃ e ∈ entry u, e.Covers u j := by
  refine cronCheck_printed .cleared (.inr (.inl rfl)) (List.cons_ne_nil _ _) ?_ ?_ (Nat.le_refl _)
  · intro entry hentry u
    obtain rfl := List.mem_singleton.mp hentry
    cases u <;> exact List.cons_ne_nil _ _
  · intro entry hentry u e he
    obtain rfl := List.mem_singleton.mp hentry
    cases u with
    | minute =>
        obtain rfl := List.mem_singleton.mp he
        intro n hn
        obtain rfl : 15 = n := Option.some.inj hn
        decide
    | hour | wday =>
        obtain rfl := List.mem_singleton.mp he
        trivial
    | mday | month =>
        obtain rfl := List.mem_singleton.mp he
        intro n hn
        cases hn

end Backd
