import Backd.Reports

/-!
# How Far a History Grows

The histories are arrays that are made for twelve events, and `array_adjust` doubles a buffer
when it is full, up to `SIZE_TYPE_MAX` bytes. So the number of events decides how large the
buffer of a history is, when the allocator is asked for a larger one, and when no further event
is taken, however much memory there is.

## Main results

* `Doubled.push`: what a push to an array made for twelve records comes to.
* `histories_keep`: what a visit keeps of a history holds of every history, over whole runs.
* `histories_limited`: the size of every history, and when it takes a further event.
-/

namespace Backd

open Runs

/-! ### Arrays made for twelve records -/

section Doubling

variable {α : Type} {eltSize j : ℕ} {r : Records α}

/-- An array made for twelve records, with a buffer that was doubled `j` times, each time
because it was full. -/
structure Doubled (eltSize j : ℕ) (r : Records α) : Prop where
  cap_eq : r.cap = eltSize * (12 * 2 ^ j)
  cap_le : r.cap ≤ intMax
  room : r.items.length < 12 * 2 ^ j
  due : j = 0 ∨ 12 * 2 ^ j ≤ 2 * r.items.length

/-- There is room for a further record without more memory, or there is memory for it: the
doubled buffer is not too large, and granted. -/
def TakesRecord (eltSize j : ℕ) (grants : ℕ → Bool) (r : Records α) : Prop :=
  r.items.length + 1 < 12 * 2 ^ j ∨
    eltSize * (12 * 2 ^ (j + 1)) ≤ intMax ∧ grants (eltSize * (12 * 2 ^ (j + 1))) = true

/-- With room left, the record is pushed. -/
theorem Doubled.push_fits (h : Doubled eltSize j r) (hsize : 0 < eltSize)
    (hroom : r.items.length + 1 < 12 * 2 ^ j) (grants : ℕ → Bool) (e : α) :
    r.push eltSize grants e = (true, ⟨r.items ++ [e], r.cap⟩) ∧
      Doubled eltSize j ⟨r.items ++ [e], r.cap⟩ := by
  have hfits : eltSize * (r.items.length + 1) < r.cap := by
    rw [h.cap_eq]
    exact Nat.mul_lt_mul_of_pos_left hroom hsize
  have hgrowth : growth r.cap false (eltSize * (r.items.length + 1)) = .fits := if_pos hfits
  refine ⟨by simp only [Records.push, hgrowth], h.cap_eq, h.cap_le, ?_, ?_⟩
  · rwa [List.length_append, List.length_singleton]
  · rw [List.length_append]
    exact h.due.imp_right fun hdue => Nat.le_trans hdue (by omega)

/-- The decision of `array_adjust` about a full buffer. -/
theorem Doubled.growth_full (h : Doubled eltSize j r) (hsize : 3 ≤ eltSize)
    (hfull : r.items.length + 1 = 12 * 2 ^ j) :
    growth r.cap false (eltSize * (r.items.length + 1)) =
      if eltSize * (12 * 2 ^ (j + 1)) ≤ intMax then .realloc (eltSize * (12 * 2 ^ (j + 1)))
      else .refuse := by
  have hcap : eltSize * (r.items.length + 1) = r.cap := by rw [hfull, h.cap_eq]
  have hdouble : r.cap * 2 = eltSize * (12 * 2 ^ (j + 1)) := by
    rw [h.cap_eq, Nat.pow_succ]
    ring
  have hlarge : ¬ r.cap * 2 < arrayInitialSize := by
    have hpow : 1 ≤ 2 ^ j := Nat.one_le_two_pow
    have hle : 3 * (12 * 1) ≤ r.cap := by
      rw [h.cap_eq]
      exact Nat.mul_le_mul hsize (Nat.mul_le_mul_left 12 hpow)
    simp only [arrayInitialSize]
    omega
  have hmul : szMul r.cap 2 = r.cap * 2 := by
    have hle := h.cap_le
    refine szMul_eq ?_
    simp only [intMax, sizeMax] at *
    omega
  have hnew : newSize r.cap (r.cap * 2) = r.cap * 2 := if_neg (by omega)
  rw [hcap, growth, if_neg (Nat.lt_irrefl _), if_neg Bool.false_ne_true, hmul]
  simp only [if_neg hlarge, hnew, gt_iff_lt]
  rw [hdouble]
  by_cases hmax : eltSize * (12 * 2 ^ (j + 1)) ≤ intMax
  · rw [if_pos hmax, if_neg (Nat.not_lt.mpr hmax)]
  · rw [if_neg hmax, if_pos (Nat.not_le.mp hmax)]

/-- **A push** to such an array: it is taken exactly if there is room, or memory for the
doubled buffer, and leaves such an array. -/
theorem Doubled.push (h : Doubled eltSize j r) (hsize : 3 ≤ eltSize) (grants : ℕ → Bool)
    (e : α) :
    ((r.push eltSize grants e).1 = true ↔ TakesRecord eltSize j grants r) ∧
      ∃ j', Doubled eltSize j' (r.push eltSize grants e).2 := by
  by_cases hroom : r.items.length + 1 < 12 * 2 ^ j
  · obtain ⟨hpush, hkept⟩ := h.push_fits (Nat.lt_of_lt_of_le (by omega) hsize) hroom grants e
    rw [hpush]
    exact ⟨iff_of_true rfl (.inl hroom), j, hkept⟩
  have hfull : r.items.length + 1 = 12 * 2 ^ j := by
    have hlt := h.room
    omega
  have hgrowth := h.growth_full hsize hfull
  by_cases hmax : eltSize * (12 * 2 ^ (j + 1)) ≤ intMax
  · rw [if_pos hmax] at hgrowth
    cases hgranted : grants (eltSize * (12 * 2 ^ (j + 1))) with
    | true =>
        have hpush : r.push eltSize grants e =
            (true, ⟨r.items ++ [e], eltSize * (12 * 2 ^ (j + 1))⟩) := by
          simp only [Records.push, hgrowth, hgranted, if_true]
        rw [hpush]
        refine ⟨iff_of_true rfl (.inr ⟨hmax, hgranted⟩), j + 1, rfl, hmax, ?_, .inr ?_⟩
        · rw [List.length_append, List.length_singleton, hfull, Nat.pow_succ]
          omega
        · rw [List.length_append, List.length_singleton, hfull, Nat.pow_succ]
          omega
    | false =>
        have hpush : r.push eltSize grants e = (false, r) := by
          simp only [Records.push, hgrowth, hgranted, Bool.false_eq_true, if_false]
        rw [hpush]
        refine ⟨iff_of_false Bool.false_ne_true ?_, j, h⟩
        rintro (hfits | ⟨-, hgrants⟩)
        · exact hroom hfits
        · exact Bool.false_ne_true (hgranted.symm.trans hgrants)
  · rw [if_neg hmax] at hgrowth
    have hpush : r.push eltSize grants e = (false, r) := by simp only [Records.push, hgrowth]
    rw [hpush]
    refine ⟨iff_of_false Bool.false_ne_true ?_, j, h⟩
    rintro (hfits | ⟨hle, -⟩)
    · exact hroom hfits
    · exact hmax hle

end Doubling

/-! ### What holds of every history -/

section Histories

variable {P : Records FsTargetEvent → Prop} {log : List (WatchStep × Unit)} {s s' : WatchSt}

/-- The history of a node of a snapshot is its acknowledgement. -/
theorem acknowledged_of_reaches {clock : CStr → UInt64} {n : FsNode} {path : CStr} {p : List ℕ}
    {names : List CStr} {finfo : Finfo} {events : Records FsTargetEvent}
    (h : Reaches (fsTargetCreate clock path n) p names finfo events) :
    ∃ path st, events = acknowledged clock path st := by
  induction n using FsNode.induction generalizing path p names finfo events with
  | hnode given lstat entries ih =>
      cases lstat with
      | error e =>
          rw [fsTargetCreate_error] at h
          cases h
      | ok st =>
          by_cases hdir : filetype (givenStat given).mode = .directory
          · cases entries with
            | none =>
                rw [fsTargetCreate_refused hdir] at h
                cases h
            | some es =>
                rw [create_directory path hdir] at h
                cases h with
                | root => exact ⟨basenameCut path, st, rfl⟩
                | child _ hi hreach =>
                    obtain ⟨e, he, rfl⟩ := List.mem_map.mp (List.mem_of_getElem? hi)
                    exact ih es rfl e (List.mem_of_mem_filter (List.mem_of_mem_take he)) hreach
          · rw [fsTargetCreate_file hdir] at h
            cases h with
            | root => exact ⟨basenameCut path, st, rfl⟩

/-- Every history of the service is so. -/
def EveryHistory (P : Records FsTargetEvent → Prop) (s : WatchSt) : Prop :=
  ∀ t ∈ s.targets, ∀ p names finfo events, Reaches t p names finfo events → P events

theorem EveryHistory.step {i : WatchStep} (hack : ∀ clock path st, P (acknowledged clock path st))
    (htrack : ∀ r events, P events → P (fsTargetEventTrack r events).events)
    (h : EveryHistory P s) (hstep : watchStep s i = some ((), s')) : EveryHistory P s' := by
  cases i with
  | snapshot clock path n =>
      obtain ⟨-, htargets⟩ := of_snapshot_step hstep
      intro t ht p names finfo events hreach
      rw [htargets] at ht
      split at ht
      · rcases List.mem_append.mp ht with hold | hnew
        · exact h t hold p names finfo events hreach
        · obtain rfl := List.mem_singleton.mp hnew
          obtain ⟨path', st, rfl⟩ := acknowledged_of_reaches hreach
          exact hack clock path' st
      · exact h t ht p names finfo events hreach
  | observe env =>
      obtain ⟨t₀, t', b, st, ht₀, hobserve, -, htargets, -⟩ := of_observe_step hstep
      intro t ht p names finfo events hreach
      rw [htargets] at ht
      rcases List.mem_or_eq_of_mem_set ht with hold | rfl
      · exact h t hold p names finfo events hreach
      · obtain ⟨visits, -, haccounts⟩ := accounts_of_observe hobserve
        obtain ⟨events₀, hreach₀, -, hround⟩ := haccounts.history p names finfo events hreach
        have hbefore := h t₀ (List.mem_of_getElem? ht₀) p names finfo events₀ hreach₀
        rcases hround with rfl | ⟨r, rfl⟩
        · exact hbefore
        · exact htrack r events₀ hbefore

/-- **What visits keep**: what holds of a fresh history, and is kept by every call of
`fs_target_event_track`, holds of every history in every state the service comes to. -/
theorem histories_keep (hack : ∀ clock path st, P (acknowledged clock path st))
    (htrack : ∀ r events, P events → P (fsTargetEventTrack r events).events)
    (h : watchMachine.Run .start log s) : EveryHistory P s :=
  h.invariant (I := EveryHistory P) (H := fun _ => True)
    (fun hevery _ _ hstep => hevery.step hack htrack hstep)
    (fun _ ht => absurd ht List.not_mem_nil) fun _ _ => trivial

end Histories

/-! ### The limits of a history -/

section Limits

variable {r : Round} {events : Records FsTargetEvent} {j : ℕ}

/-- There is something to record in the round: `lstat` fails, or the stat differs from the one
recorded last. -/
def Round.Detects (r : Round) (events : Records FsTargetEvent) : Prop :=
  ∃ previous, events.items.getLast? = some previous ∧
    ∀ st, r.lstat = .ok st → ¬ st.Agrees previous.st

/-- What is recorded is pushed. -/
theorem recordEvent_push (r : Round) (events : Records FsTargetEvent) (e : FsTargetEvent) :
    recordEvent r events e = (if (events.push sizeofEvent r.grants e).1 then 1 else -1,
      (events.push sizeofEvent r.grants e).2) := by
  rw [recordEvent]
  cases hpush : events.push sizeofEvent r.grants e with
  | mk ok pushed => cases ok <;> rfl

/-- A visit with something to record pushes an event. -/
theorem fsTargetEventTrack_pushes (h : r.Detects events) :
    ∃ e, ((fsTargetEventTrack r events).Pushed ↔
        (events.push sizeofEvent r.grants e).1 = true) ∧
      (fsTargetEventTrack r events).events = (events.push sizeofEvent r.grants e).2 := by
  obtain ⟨previous, hlast, hdiffers⟩ := h
  obtain ⟨hevents, hdetected, -⟩ := fsTargetEventTrack_detect (r := r) hlast
  have hrec : ∃ e, targetEventDetect r events previous = recordEvent r events e := by
    cases hst : r.lstat with
    | ok st => exact ⟨_, by rw [targetEventDetect_ok hst, if_neg (hdiffers st hst)]⟩
    | error err => exact ⟨_, targetEventDetect_error hst⟩
  obtain ⟨e, hrec⟩ := hrec
  rw [hrec, recordEvent_push] at hevents hdetected
  refine ⟨e, ?_, hevents⟩
  rw [Tracked.Pushed, hdetected]
  cases (events.push sizeofEvent r.grants e).1 <;> simp

/-- A visit with nothing to record leaves the history. -/
theorem fsTargetEventTrack_keeps (h : ¬ r.Detects events) :
    (fsTargetEventTrack r events).Pushed ∧ (fsTargetEventTrack r events).events = events := by
  cases hlast : events.items.getLast? with
  | none => simp [fsTargetEventTrack, Tracked.Pushed, hlast]
  | some previous =>
      obtain ⟨hevents, hdetected, -⟩ := fsTargetEventTrack_detect (r := r) hlast
      obtain ⟨st, hst, hagree⟩ : ∃ st, r.lstat = .ok st ∧ st.Agrees previous.st := by
        by_contra hnone
        exact h ⟨previous, hlast, fun st hst hagree => hnone ⟨st, hst, hagree⟩⟩
      rw [targetEventDetect_ok hst, if_pos hagree] at hevents hdetected
      refine ⟨?_, hevents⟩
      rw [Tracked.Pushed, hdetected]
      simp

/-- A history that was made and doubled is so after a visit, and the visit runs out of memory
exactly if there is something to record, and no room for it. -/
theorem Doubled.track (h : Doubled sizeofEvent j events) (r : Round) :
    ((fsTargetEventTrack r events).Pushed ↔
      ¬ r.Detects events ∨ TakesRecord sizeofEvent j r.grants events) ∧
    ∃ j', Doubled sizeofEvent j' (fsTargetEventTrack r events).events := by
  by_cases hdetects : r.Detects events
  · obtain ⟨e, hpushed, hevents⟩ := fsTargetEventTrack_pushes hdetects
    obtain ⟨htakes, hdoubled⟩ := h.push (by decide) r.grants e
    rw [hevents, hpushed, htakes]
    exact ⟨(or_iff_right (not_not_intro hdetects)).symm, hdoubled⟩
  · obtain ⟨hpushed, hevents⟩ := fsTargetEventTrack_keeps hdetects
    rw [hevents]
    exact ⟨iff_of_true hpushed (.inl hdetects), j, h⟩

/-- A fresh history. -/
theorem doubled_acknowledged (clock : CStr → UInt64) (path : CStr) (st : Stat) :
    Doubled sizeofEvent 0 (acknowledged clock path st) :=
  ⟨rfl, (by decide : 2016 ≤ intMax), (by decide : 1 < 12 * 2 ^ 0), .inl rfl⟩

/-- The buffer of a history is doubled twenty times at most. -/
theorem eventBuffer_le_iff {j : ℕ} : sizeofEvent * (12 * 2 ^ j) ≤ intMax ↔ j ≤ 20 := by
  constructor
  · intro hle
    by_contra hlt
    have hpow : 2 ^ 21 ≤ 2 ^ j := Nat.pow_le_pow_right Nat.two_pos (by omega)
    simp only [sizeofEvent, intMax] at hle
    omega
  · intro hj
    have hpow : 2 ^ j ≤ 2 ^ 20 := Nat.pow_le_pow_right Nat.two_pos hj
    simp only [sizeofEvent, intMax]
    omega

/-- **The limits of a history**: in every state the service comes to, a history has at most
12 582 911 events, and its buffer was doubled as often as their number needed it, each time when
it was full. The next visit that finds something to record runs out of memory exactly if the
buffer is full, and was doubled twenty times already or is refused the double size. -/
theorem histories_limited {log : List (WatchStep × Unit)} {s : WatchSt}
    (h : watchMachine.Run .start log s) {k : ℕ} {t : FsTarget} {p : List ℕ} {names : List CStr}
    {finfo : Finfo} {events : Records FsTargetEvent} (hk : s.targets[k]? = some t)
    (hreach : Reaches t p names finfo events) :
    events.items.length ≤ 12582911 ∧
      ∃ j ≤ 20, events.cap = 2016 * 2 ^ j ∧ events.items.length < 12 * 2 ^ j ∧
        (j = 0 ∨ 6 * 2 ^ j ≤ events.items.length) ∧
        ∀ r : Round, ¬ (fsTargetEventTrack r events).Pushed ↔ r.Detects events ∧
          events.items.length + 1 = 12 * 2 ^ j ∧
          (j = 20 ∨ r.grants (2016 * 2 ^ (j + 1)) = false) := by
  obtain ⟨j, hdoubled⟩ : ∃ j, Doubled sizeofEvent j events :=
    histories_keep (P := fun events => ∃ j, Doubled sizeofEvent j events)
      (fun clock path st => ⟨0, doubled_acknowledged clock path st⟩)
      (fun r _ hdoubled => hdoubled.elim fun _ hj => (hj.track r).2) h t
      (List.mem_of_getElem? hk) p names finfo events hreach
  have hj : j ≤ 20 := eventBuffer_le_iff.mp (hdoubled.cap_eq ▸ hdoubled.cap_le)
  have hpow : 2 ^ j ≤ 2 ^ 20 := Nat.pow_le_pow_right Nat.two_pos hj
  have hroom := hdoubled.room
  refine ⟨by omega, j, hj, ?_, hroom, ?_, fun r => ?_⟩
  · rw [hdoubled.cap_eq]
    simp only [sizeofEvent]
    omega
  · have hdue := hdoubled.due
    omega
  · have hnext : sizeofEvent * (12 * 2 ^ (j + 1)) = 2016 * 2 ^ (j + 1) := by
      simp only [sizeofEvent]
      omega
    rw [(hdoubled.track r).1, TakesRecord, eventBuffer_le_iff, hnext, not_or, not_not, not_or,
      not_and_or, Bool.not_eq_true]
    exact and_congr Iff.rfl (and_congr (by omega) (or_congr_left (by omega)))

end Limits

/-- The history of the one file that is watched. -/
def soleHistory (s : WatchSt) : Option (Records FsTargetEvent) :=
  match s.targets with
  | [.live _ events _] => some events
  | _ => none

theorem reaches_soleHistory {s : WatchSt} {events : Records FsTargetEvent}
    (h : soleHistory s = some events) :
    ∃ t names finfo, s.targets[0]? = some t ∧ Reaches t [] names finfo events := by
  unfold soleHistory at h
  split at h
  · next finfo events' children htargets =>
      obtain rfl := Option.some.inj h
      exact ⟨_, _, _, by rw [htargets]; rfl, .root⟩
  · cases h

/-- A file was missing in ten rounds: the buffer of its history is full, and the next visit that
finds something to record fails exactly if it is refused one of 4032 bytes. -/
theorem histories_limited_file : ∃ s events, missingRounds 10 = some s ∧
    soleHistory s = some events ∧ events.items.length = 11 ∧
    ∀ r : Round, ¬ (fsTargetEventTrack r events).Pushed ↔
      r.Detects events ∧ r.grants 4032 = false := by
  have hsizes : ((missingRounds 10).bind soleHistory).map
      (fun events => (events.items.length, events.cap)) = some (11, 2016) := by decide +kernel
  obtain ⟨events, hhistory, hsize⟩ := Option.map_eq_some_iff.mp hsizes
  obtain ⟨s, hs, hevents⟩ := Option.bind_eq_some_iff.mp hhistory
  obtain ⟨hlen, hcap⟩ := Prod.mk.inj hsize
  obtain ⟨log, hrun⟩ := run_missingRounds hs
  obtain ⟨t, names, finfo, ht, hreach⟩ := reaches_soleHistory hevents
  obtain ⟨-, j, -, hcap', -, -, hlimit⟩ := histories_limited hrun ht hreach
  have hfresh : 2016 * 2 ^ 0 = 2016 * 2 ^ j := hcap.symm.trans hcap'
  obtain rfl : 0 = j :=
    Nat.pow_right_injective (Nat.le_refl 2) (Nat.mul_left_cancel (by decide) hfresh)
  refine ⟨s, events, hs, hevents, hlen, fun r => ?_⟩
  rw [hlimit r, hlen]
  exact and_congr_right fun _ => ⟨fun h => h.2.resolve_left (by decide), fun h => ⟨rfl, .inr h⟩⟩

end Backd
