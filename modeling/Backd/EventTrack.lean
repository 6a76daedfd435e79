import Backd.FsTarget

/-!
# Tracking the Events of a Target

The functions of `fs_target_event.c` and `fs_target_event_track.c`: the history a target
is created with, and what one round of the observer adds to it.

What a round gets from outside is a `Round`: the answer of `lstat` on `path()`, the time,
and the allocator's answer should the history have to grow. At creation every allocation
is taken to succeed.

## Main results

* `cmpStat_eq`: what the priority scan over the six comparisons comes to.
* `fsTargetEventTrack_ok`, `fsTargetEventTrack_error`: what a round does when `lstat`
  succeeds, and when it fails.
-/

namespace Backd

/-! ### Comparing stats -/

/-- The comparison of two values, as the `compare_*` functions write it. -/
def compareBy {α : Type} [LT α] [DecidableLT α] (a b : α) : Ordering :=
  if a < b then .lt else if b < a then .gt else .eq

/-- `compare_dev`. -/
def compareDev (st1 st2 : Stat) : Ordering := compareBy st1.dev st2.dev

/-- `compare_atime`. -/
def compareAtime (st1 st2 : Stat) : Ordering := compareBy st1.atime st2.atime

/-- `compare_ino`. -/
def compareIno (st1 st2 : Stat) : Ordering := compareBy st1.ino st2.ino

/-- `compare_size`. -/
def compareSize (st1 st2 : Stat) : Ordering := compareBy st1.size st2.size

/-- `compare_mtime`. -/
def compareMtime (st1 st2 : Stat) : Ordering := compareBy st1.mtime st2.mtime

/-- `compare_mode`. -/
def compareMode (st1 st2 : Stat) : Ordering := compareBy st1.mode st2.mode

/-- In a linear order only equal values compare as equal. -/
theorem compareBy_eq_iff {α : Type} [LT α] [LE α] [DecidableLT α] [Std.IsLinearOrder α]
    [Std.LawfulOrderLT α] {a b : α} : compareBy a b = .eq ↔ a = b := by
  unfold compareBy
  constructor
  · intro h
    split at h
    · cases h
    · next hlt =>
        split at h
        · cases h
        · next hgt => exact Std.le_antisymm (Std.not_lt.mp hgt) (Std.not_lt.mp hlt)
  · rintro rfl
    simp [Std.lt_irrefl]

/-- The loop of `cmp_stat` over the entries it has still to visit: the mask of the first
comparison that is not an equality. -/
def firstDiff : List (Ordering × Int32) → Int32
  | [] => 0
  | (result, mask) :: diffs => if result ≠ .eq then mask else firstDiff diffs

/-- `cmp_stat`. The loop visits the table from its end. -/
def cmpStat (st1 st2 : Stat) : Int32 :=
  firstDiff [
    (compareAtime st1 st2, eventOpen),
    (compareDev st1 st2, eventModify),
    (compareIno st1 st2, eventModify),
    (compareMode st1 st2, eventModify),
    (compareMtime st1 st2, eventModify),
    (compareSize st1 st2, eventModify)].reverse

/-- The stats show the same contents of the same file. -/
structure Stat.SameFile (s t : Stat) : Prop where
  dev : s.dev = t.dev
  ino : s.ino = t.ino
  mode : s.mode = t.mode
  mtime : s.mtime = t.mtime
  size : s.size = t.size

/-- The stats agree on the six fields the daemon compares. -/
structure Stat.Agrees (s t : Stat) : Prop where
  sameFile : s.SameFile t
  atime : s.atime = t.atime

theorem Stat.sameFile_iff {s t : Stat} : s.SameFile t ↔
    s.dev = t.dev ∧ s.ino = t.ino ∧ s.mode = t.mode ∧ s.mtime = t.mtime ∧ s.size = t.size :=
  ⟨fun h => ⟨h.dev, h.ino, h.mode, h.mtime, h.size⟩,
    fun ⟨h₁, h₂, h₃, h₄, h₅⟩ => ⟨h₁, h₂, h₃, h₄, h₅⟩⟩

theorem Stat.agrees_iff {s t : Stat} : s.Agrees t ↔ s.SameFile t ∧ s.atime = t.atime :=
  ⟨fun h => ⟨h.sameFile, h.atime⟩, fun ⟨h₁, h₂⟩ => ⟨h₁, h₂⟩⟩

instance (s t : Stat) : Decidable (s.SameFile t) :=
  decidable_of_iff' _ Stat.sameFile_iff

instance (s t : Stat) : Decidable (s.Agrees t) :=
  decidable_of_iff' _ Stat.agrees_iff

theorem Stat.agrees_refl (s : Stat) : s.Agrees s := ⟨⟨rfl, rfl, rfl, rfl, rfl⟩, rfl⟩

theorem Stat.Agrees.symm {s t : Stat} (h : s.Agrees t) : t.Agrees s :=
  ⟨⟨h.sameFile.dev.symm, h.sameFile.ino.symm, h.sameFile.mode.symm, h.sameFile.mtime.symm,
    h.sameFile.size.symm⟩, h.atime.symm⟩

theorem Stat.Agrees.trans {s t u : Stat} (h : s.Agrees t) (h' : t.Agrees u) : s.Agrees u :=
  ⟨⟨h.sameFile.dev.trans h'.sameFile.dev, h.sameFile.ino.trans h'.sameFile.ino,
    h.sameFile.mode.trans h'.sameFile.mode, h.sameFile.mtime.trans h'.sameFile.mtime,
    h.sameFile.size.trans h'.sameFile.size⟩, h.atime.trans h'.atime⟩

/-- The mask of the change from `s` to a stat `t` that does not agree with it. -/
def changeMask (t s : Stat) : Int32 :=
  if t.SameFile s then eventOpen else eventModify

/-- **The priority scan**: no mask when the six fields agree; else `MODIFY`, unless only
the access time differs. -/
theorem cmpStat_eq (t s : Stat) : cmpStat t s = if t.Agrees s then 0 else changeMask t s := by
  simp only [cmpStat, List.reverse_cons, List.reverse_nil, List.nil_append, List.cons_append,
    firstDiff, compareAtime, compareDev, compareIno, compareMode, compareMtime, compareSize,
    ne_eq, compareBy_eq_iff, changeMask, Stat.agrees_iff, Stat.sameFile_iff]
  by_cases hsize : t.size = s.size
  · by_cases hmtime : t.mtime = s.mtime
    · by_cases hmode : t.mode = s.mode
      · by_cases hino : t.ino = s.ino
        · by_cases hdev : t.dev = s.dev <;> simp [hsize, hmtime, hmode, hino, hdev]
        · simp [hsize, hmtime, hmode, hino]
      · simp [hsize, hmtime, hmode]
    · simp [hsize, hmtime]
  · simp [hsize]

/-- The two masks of a change are not zero. -/
theorem changeMask_ne_zero (t s : Stat) : changeMask t s ≠ 0 := by
  unfold changeMask
  split <;> decide

/-! ### Creating a history -/

/-- The entry `fs_target_event_init` pushes. -/
def ackEvent (path : CStr) (st : Stat) (now : UInt64) : FsTargetEvent :=
  { mask := eventAck, path := .argument path, timestamp := now, st := st }

/-- `fs_target_event_init`: the history of a fresh target, or `none` when `lstat`
fails. -/
def fsTargetEventInit (path : CStr) (lstat : LstatResult) (now : UInt64) :
    Option (Records FsTargetEvent) :=
  match lstat with
  | .error _ => none
  | .ok st =>
    let (ok, events) :=
      (Records.create sizeofEvent 12).push sizeofEvent (fun _ => true) (ackEvent path st now)
    if ok then some events else none

/-- A history starts with the acknowledgement, in a buffer for twelve entries. -/
theorem fsTargetEventInit_ok (path : CStr) (st : Stat) (now : UInt64) :
    fsTargetEventInit path (.ok st) now = some ⟨[ackEvent path st now], 2016⟩ := rfl

/-- `fs_target_latest_event`. -/
def fsTargetLatestEvent (events : Records FsTargetEvent) : Option FsTargetEvent :=
  if events.items.length = 0 then none else events.items.getLast?

@[simp] theorem fsTargetLatestEvent_eq (events : Records FsTargetEvent) :
    fsTargetLatestEvent events = events.items.getLast? := by
  unfold fsTargetLatestEvent
  split
  · next h => simp [List.eq_nil_of_length_eq_zero h]
  · rfl

/-! ### One round -/

/-- `file_err_e`. -/
inductive FileErr
  | eaccess
  | enoent
  | eother
  | ok
  deriving DecidableEq, Repr

/-- `file_stat`: the class of the outcome, and what `*sb` holds afterwards. -/
def fileStat (lstat : LstatResult) (sb : Stat) : FileErr × Stat :=
  match lstat with
  | .ok st => (.ok, st)
  | .error .enoent => (.enoent, sb)
  | .error .eacces => (.eaccess, sb)
  | .error .other => (.eother, sb)

/-- What a round of tracking one target gets from outside. -/
structure Round where
  /-- The answer of `lstat` on `path()`. -/
  lstat : LstatResult
  /-- The value of `get_timestamp`. -/
  now : UInt64
  /-- The sizes the allocator grants. -/
  grants : ℕ → Bool

/-- A round that gets an answer from `lstat`, with memory to spare. -/
def Round.answered (lstat : LstatResult) : Round :=
  { lstat := lstat, now := 0, grants := fun _ => true }

/-- The end of `target_event_detect`: push the event; `1`, or `-1` when the push fails. -/
def recordEvent (r : Round) (events : Records FsTargetEvent) (event : FsTargetEvent) :
    ℤ × Records FsTargetEvent :=
  let (ok, events) := events.push sizeofEvent r.grants event
  if ok then (1, events) else (-1, events)

/-- `target_event_detect`. The inner switch on the file type does nothing in either of
its cases. -/
def targetEventDetect (r : Round) (events : Records FsTargetEvent)
    (previous : FsTargetEvent) : ℤ × Records FsTargetEvent :=
  let event : FsTargetEvent :=
    { mask := 0, path := .curPath, timestamp := r.now, st := .zeroed }
  let (err, sb) := fileStat r.lstat .zeroed
  match err with
  | .ok =>
    let mask := cmpStat sb previous.st
    if mask ≠ 0 then
      recordEvent r events { event with mask := event.mask ||| mask, st := sb }
    else (0, events)
  | .eaccess =>
    recordEvent r events { event with mask := event.mask ||| eventFail, st := sb }
  | .enoent | .eother =>
    recordEvent r events { event with mask := event.mask ||| eventDelete, st := sb }

/-- What one call of `fs_target_event_track` did: its result, the history it leaves, the
value `target_event_detect` returned when it was called, and the event that was
printed. -/
structure Tracked where
  result : Bool
  events : Records FsTargetEvent
  detected : Option ℤ
  printed : Option FsTargetEvent
  deriving DecidableEq, Repr

/-- `fs_target_event_track`. -/
def fsTargetEventTrack (r : Round) (events : Records FsTargetEvent) : Tracked :=
  match fsTargetLatestEvent events with
  | none => { result := false, events := events, detected := none, printed := none }
  | some previous =>
    let (n, events) := targetEventDetect r events previous
    if n = 0 then { result := true, events := events, detected := some n, printed := none }
    else
      match fsTargetLatestEvent events with
      | none => { result := false, events := events, detected := some n, printed := none }
      | some latest =>
        { result := true, events := events, detected := some n, printed := some latest }

/-- The round did not run out of memory. -/
def Tracked.Pushed (tracked : Tracked) : Prop := tracked.detected ≠ some (-1)

instance (tracked : Tracked) : Decidable tracked.Pushed :=
  inferInstanceAs (Decidable (_ ≠ _))

/-! ### What a round adds -/

/-- The event a round records for a stat `st`, compared with `prev`. -/
def changeEvent (prev : Stat) (now : UInt64) (st : Stat) : FsTargetEvent :=
  { mask := changeMask st prev, path := .curPath, timestamp := now, st := st }

/-- The mask a failed `lstat` is recorded with. -/
def failureMask : Errno → Int32
  | .eacces => eventFail
  | .enoent | .other => eventDelete

/-- The event a round records when `lstat` fails. -/
def failureEvent (now : UInt64) (e : Errno) : FsTargetEvent :=
  { mask := failureMask e, path := .curPath, timestamp := now, st := .zeroed }

section Round

variable {r : Round} {events : Records FsTargetEvent} {event previous : FsTargetEvent}

/-- A record goes to the end of the history, or is refused and changes nothing. -/
theorem recordEvent_cases (r : Round) (events : Records FsTargetEvent)
    (event : FsTargetEvent) :
    (∃ cap, recordEvent r events event = (1, ⟨events.items ++ [event], cap⟩)) ∨
      recordEvent r events event = (-1, events) := by
  unfold recordEvent
  rcases Records.push_cases sizeofEvent r.grants events event with ⟨cap, hpush⟩ | hpush
  · exact .inl ⟨cap, by simp [hpush]⟩
  · exact .inr (by simp [hpush])

theorem recordEvent_items (h : (recordEvent r events event).1 ≠ -1) :
    (recordEvent r events event).2.items = events.items ++ [event] := by
  rcases recordEvent_cases r events event with ⟨cap, hrec⟩ | hrec
  · rw [hrec]
  · simp [hrec] at h

theorem recordEvent_extends : events.items <+: (recordEvent r events event).2.items := by
  rcases recordEvent_cases r events event with ⟨cap, hrec⟩ | hrec
  · rw [hrec]
    exact List.prefix_append _ _
  · simp [hrec]

/-- `target_event_detect` on a stat: silent when the stat agrees with the last record. -/
theorem targetEventDetect_ok {st : Stat} (h : r.lstat = .ok st) :
    targetEventDetect r events previous =
      if st.Agrees previous.st then (0, events)
      else recordEvent r events (changeEvent previous.st r.now st) := by
  simp only [targetEventDetect, h, fileStat, cmpStat_eq]
  by_cases hagree : st.Agrees previous.st
  · simp [hagree]
  · simp [hagree, changeMask_ne_zero, changeEvent]

/-- `target_event_detect` on a failure: always a record. -/
theorem targetEventDetect_error {e : Errno} (h : r.lstat = .error e) :
    targetEventDetect r events previous = recordEvent r events (failureEvent r.now e) := by
  cases e <;> simp [targetEventDetect, h, fileStat, failureEvent, failureMask]

/-- `target_event_detect` only ever adds to the history. -/
theorem targetEventDetect_extends (r : Round) (events : Records FsTargetEvent)
    (previous : FsTargetEvent) :
    events.items <+: (targetEventDetect r events previous).2.items := by
  cases h : r.lstat with
  | ok st =>
      rw [targetEventDetect_ok h]
      split
      · exact List.prefix_rfl
      · exact recordEvent_extends
  | error e =>
      rw [targetEventDetect_error h]
      exact recordEvent_extends

/-- With a last record, the history and the outcome are those of `target_event_detect`,
and the call returns `true`. -/
theorem fsTargetEventTrack_detect (h : events.items.getLast? = some previous) :
    (fsTargetEventTrack r events).events = (targetEventDetect r events previous).2 ∧
      (fsTargetEventTrack r events).detected = some (targetEventDetect r events previous).1 ∧
      (fsTargetEventTrack r events).result = true := by
  simp only [fsTargetEventTrack, fsTargetLatestEvent_eq, h]
  split
  · exact ⟨rfl, rfl, rfl⟩
  · -- the history is still not empty, so the second look at the last entry succeeds
    have hne : events.items ≠ [] := by
      rintro hnil
      simp [hnil] at h
    obtain ⟨more, hmore⟩ := targetEventDetect_extends r events previous
    have hlast : (targetEventDetect r events previous).2.items ≠ [] := by
      rw [← hmore]
      simp [hne]
    rw [List.getLast?_eq_some_getLast hlast]
    exact ⟨rfl, rfl, rfl⟩

/-- **A round with a stat** appends a change when the stat does not agree with the last
record, and nothing else. -/
theorem fsTargetEventTrack_ok {st : Stat} (h : events.items.getLast? = some previous)
    (hst : r.lstat = .ok st) (hpush : (fsTargetEventTrack r events).Pushed) :
    (fsTargetEventTrack r events).events.items =
      if st.Agrees previous.st then events.items
      else events.items ++ [changeEvent previous.st r.now st] := by
  obtain ⟨hevents, hdetected, -⟩ := fsTargetEventTrack_detect (r := r) h
  rw [Tracked.Pushed, hdetected, targetEventDetect_ok hst] at hpush
  rw [hevents, targetEventDetect_ok hst]
  split
  · rfl
  · next hdiffer =>
      rw [if_neg hdiffer] at hpush
      exact recordEvent_items fun hfail => hpush (by rw [hfail])

/-- **A round whose `lstat` fails** appends a record, whatever the last one is. -/
theorem fsTargetEventTrack_error {e : Errno} (h : events.items ≠ [])
    (he : r.lstat = .error e) (hpush : (fsTargetEventTrack r events).Pushed) :
    (fsTargetEventTrack r events).events.items =
      events.items ++ [failureEvent r.now e] := by
  obtain ⟨hevents, hdetected, -⟩ :=
    fsTargetEventTrack_detect (r := r) (List.getLast?_eq_some_getLast h)
  rw [Tracked.Pushed, hdetected, targetEventDetect_error he] at hpush
  rw [hevents, targetEventDetect_error he]
  exact recordEvent_items fun hfail => hpush (by rw [hfail])

/-- A round only ever adds to the history. -/
theorem fsTargetEventTrack_extends (r : Round) (events : Records FsTargetEvent) :
    events.items <+: (fsTargetEventTrack r events).events.items := by
  cases h : events.items.getLast? with
  | none => simp [fsTargetEventTrack, h]
  | some previous =>
      rw [(fsTargetEventTrack_detect h).1]
      exact targetEventDetect_extends r events previous

/-- A round that has nothing to record: the stat agrees with the last record, there is no
last record, or the history cannot grow. -/
def Round.Silent (r : Round) (events : Records FsTargetEvent) : Prop :=
  (∃ st previous, r.lstat = .ok st ∧ events.items.getLast? = some previous ∧
      st.Agrees previous.st) ∨
    events.items = [] ∨ ∀ e, (events.push sizeofEvent r.grants e).1 = false

/-- A silent round leaves the history as it is. -/
theorem fsTargetEventTrack_silent (h : r.Silent events) :
    (fsTargetEventTrack r events).events = events := by
  rcases h with ⟨st, previous, hst, hlast, hagree⟩ | hnil | hfull
  · rw [(fsTargetEventTrack_detect hlast).1, targetEventDetect_ok hst, if_pos hagree]
  · simp [fsTargetEventTrack, hnil]
  · have hsame : ∀ e, (recordEvent r events e).2 = events := by
      intro e
      rcases recordEvent_cases r events e with ⟨cap, hrec⟩ | hrec
      · have hone : (recordEvent r events e).1 = -1 := by
          unfold recordEvent
          simp [hfull e]
        rw [hrec] at hone
        have hone : (1 : ℤ) = -1 := hone
        exact absurd hone (by decide)
      · rw [hrec]
    cases hlast : events.items.getLast? with
    | none => simp [fsTargetEventTrack, hlast]
    | some previous =>
        rw [(fsTargetEventTrack_detect hlast).1]
        cases hst : r.lstat with
        | ok st =>
            rw [targetEventDetect_ok hst]
            split
            · rfl
            · exact hsame _
        | error e =>
            rw [targetEventDetect_error hst]
            exact hsame _

/-- Any other round appends an event, whose path field is the buffer. -/
theorem fsTargetEventTrack_appends (h : ¬ r.Silent events) :
    ∃ e, (fsTargetEventTrack r events).events.items = events.items ++ [e] ∧
      e.path = .curPath := by
  simp only [Round.Silent, not_or, not_forall, Bool.not_eq_false] at h
  obtain ⟨hdiffers, hne, e, hroom⟩ := h
  have hrec : ∀ event, (recordEvent r events event).2.items = events.items ++ [event] := by
    intro event
    refine recordEvent_items ?_
    have hpush : (events.push sizeofEvent r.grants event).1 = true := by
      rw [← hroom]
      unfold Records.push
      split
      · rfl
      · rfl
      · split <;> rfl
    unfold recordEvent
    simp [hpush]
  have hlast := List.getLast?_eq_some_getLast hne
  rw [(fsTargetEventTrack_detect hlast).1]
  cases hst : r.lstat with
  | ok st =>
      have hagree : ¬ st.Agrees (events.items.getLast hne).st :=
        fun hagree => hdiffers ⟨st, _, hst, hlast, hagree⟩
      rw [targetEventDetect_ok hst, if_neg hagree]
      exact ⟨_, hrec _, rfl⟩
  | error e =>
      rw [targetEventDetect_error hst]
      exact ⟨_, hrec _, rfl⟩

end Round

end Backd
