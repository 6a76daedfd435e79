import Backd.EventTrack
import Backd.Library.Runs

/-!
# The History of a Target

One target over its life: created with a history of one event, then tracked round after
round for as long as the service runs. `historyMachine` takes a round as its input; its
answer is what `fs_target_event_track` did.

For rounds in which `lstat` succeeds the history is a function of the stats observed
(`changes`): one event for every observation that does not agree with the observation
before it. The code never sees the observation before; it compares with the last record.
What connects the two is the invariant that the last record agrees with the last
observation (`Follows`).

For rounds in which `lstat` fails there is no such comparison: every round of a failing
block adds an event.

## Main results

* `history_records_changes`: the history after any run of successful rounds.
* `reported_once_iff`: a block of failing rounds is reported once exactly when it is one
  round long.
-/

namespace Backd

open Runs

/-- A target under observation: its state is its history. -/
def historyMachine : Machine (Records FsTargetEvent) Round Tracked where
  Admits _ _ := True
  step events r := some (fsTargetEventTrack r events, (fsTargetEventTrack r events).events)

/-- What a step answers and leaves. -/
theorem historyMachine_step {events events' : Records FsTargetEvent} {r : Round}
    {tracked : Tracked} (h : historyMachine.step events r = some (tracked, events')) :
    tracked = fsTargetEventTrack r events ∧ events' = tracked.events := by
  cases h
  exact ⟨rfl, rfl⟩

/-- One round of a log, with what was done. -/
abbrev LogEntry := Round × Tracked

/-! ### Successful rounds -/

/-- The round saw a stat, and the history could grow. -/
def Observes (entry : LogEntry) : Prop :=
  (∃ st, entry.1.lstat = .ok st) ∧ entry.2.Pushed

/-- The stat a round saw, with the time of the round. -/
def observation (entry : LogEntry) : Option (UInt64 × Stat) :=
  match entry.1.lstat with
  | .ok st => some (entry.1.now, st)
  | .error _ => none

/-- The stats the rounds of a log saw, in order. -/
def observations (log : List LogEntry) : List (UInt64 × Stat) :=
  log.filterMap observation

/-- The last stat observed, `st` before the first round. -/
def lastStat (st : Stat) : List (UInt64 × Stat) → Stat
  | [] => st
  | o :: rest => lastStat o.2 rest

/-- One event for each observation that does not agree with the observation before it. -/
def changes (prev : Stat) : List (UInt64 × Stat) → List FsTargetEvent
  | [] => []
  | (now, st) :: rest =>
    if st.Agrees prev then changes st rest
    else changeEvent prev now st :: changes st rest

@[simp] theorem lastStat_append (st : Stat) (obs : List (UInt64 × Stat)) (o : UInt64 × Stat) :
    lastStat st (obs ++ [o]) = o.2 := by
  induction obs generalizing st with
  | nil => rfl
  | cons _ obs ih => exact ih _

theorem changes_append (prev : Stat) (obs : List (UInt64 × Stat)) (now : UInt64)
    (st : Stat) :
    changes prev (obs ++ [(now, st)]) = changes prev obs ++
      if st.Agrees (lastStat prev obs) then [] else [changeEvent (lastStat prev obs) now st] := by
  induction obs generalizing prev with
  | nil =>
      simp only [List.nil_append, changes, lastStat]
      rfl
  | cons o obs ih =>
      simp only [List.cons_append, changes, lastStat, ih]
      split <;> rfl

/-- The mask of a change depends only on the five fields it looks at. -/
theorem changeEvent_congr {s t : Stat} (h : s.Agrees t) (now : UInt64) (st : Stat) :
    changeEvent s now st = changeEvent t now st := by
  have hsame : st.SameFile s ↔ st.SameFile t := by
    simp only [Stat.sameFile_iff, h.sameFile.dev, h.sameFile.ino, h.sameFile.mode,
      h.sameFile.mtime, h.sameFile.size]
  simp only [changeEvent, changeMask, hsame]

/-- The history ends with a record that agrees with the stat `st`. -/
def Follows (events : Records FsTargetEvent) (st : Stat) : Prop :=
  ∃ e, events.items.getLast? = some e ∧ e.st.Agrees st

/-- The relation between a history and the observations made so far: it has grown from
`base` by their changes, and its last record agrees with the last of them. -/
structure Recorded (base : List FsTargetEvent) (st : Stat) (events : Records FsTargetEvent)
    (obs : List (UInt64 × Stat)) : Prop where
  items_eq : events.items = base ++ changes st obs
  follows : Follows events (lastStat st obs)

/-- **Step lemma**: a successful round adds its own observation. -/
theorem Recorded.step {base : List FsTargetEvent} {st : Stat}
    {events events' : Records FsTargetEvent} {obs : List (UInt64 × Stat)} {r : Round}
    {tracked : Tracked} (h : Recorded base st events obs) (hentry : Observes (r, tracked))
    (hstep : historyMachine.step events r = some (tracked, events')) :
    Recorded base st events' (obs ++ observations [(r, tracked)]) := by
  obtain ⟨rfl, rfl⟩ := historyMachine_step hstep
  obtain ⟨⟨cur, hcur⟩, hpush⟩ := hentry
  obtain ⟨last, hlast, hagree⟩ := h.follows
  have hobs : observations [(r, fsTargetEventTrack r events)] = [(r.now, cur)] := by
    have hcur' : r.lstat = .ok cur := hcur
    simp [observations, observation, hcur']
  have hitems := fsTargetEventTrack_ok hlast hcur hpush
  rw [hobs]
  by_cases hsame : cur.Agrees last.st
  · -- nothing is recorded, and the last record still agrees with what was seen
    rw [if_pos hsame] at hitems
    refine ⟨?_, last, by rw [hitems, hlast], by simpa using hsame.symm⟩
    rw [hitems, h.items_eq, changes_append, if_pos (hsame.trans hagree), List.append_nil]
  · rw [if_neg hsame] at hitems
    refine ⟨?_, changeEvent last.st r.now cur, by rw [hitems, List.getLast?_concat], ?_⟩
    · have hdiffer : ¬ cur.Agrees (lastStat st obs) := fun hs => hsame (hs.trans hagree.symm)
      rw [hitems, h.items_eq, changes_append, if_neg hdiffer, changeEvent_congr hagree,
        List.append_assoc]
    · rw [lastStat_append]
      exact Stat.agrees_refl cur

/-- Adding up the observations of a log. -/
theorem foldl_observations (log : List LogEntry) (obs : List (UInt64 × Stat)) :
    log.foldl (fun obs e => obs ++ observations [e]) obs = obs ++ observations log := by
  induction log generalizing obs with
  | nil => simp [observations]
  | cons e log ih =>
      have hcons : observations (e :: log) = observations [e] ++ observations log := by
        rw [← List.singleton_append, observations, List.filterMap_append]
        rfl
      rw [List.foldl_cons, ih, hcons, List.append_assoc]

/-- **Run lemma**: a run of successful rounds adds the changes between its
observations. -/
theorem Recorded.run {st : Stat} {events events' : Records FsTargetEvent}
    {log : List LogEntry} (h : Follows events st) (hrun : historyMachine.Run events log events')
    (hlog : ∀ entry ∈ log, Observes entry) :
    Recorded events.items st events' (observations log) := by
  have hstart : Recorded events.items st events [] := ⟨by simp [changes], h⟩
  have key := hrun.refines (fun obs e => obs ++ observations [e])
    (fun h hentry _ hstep => h.step hentry hstep) hstart hlog
  rwa [foldl_observations, List.nil_append] at key

/-- A fresh history follows the stat it was created with. -/
theorem created_history {path : CStr} {s₀ : Stat} {t₀ : UInt64}
    {events : Records FsTargetEvent}
    (h : fsTargetEventInit path (.ok s₀) t₀ = some events) :
    events.items = [ackEvent path s₀ t₀] ∧ Follows events s₀ := by
  rw [fsTargetEventInit_ok] at h
  cases h
  exact ⟨rfl, _, rfl, Stat.agrees_refl s₀⟩

/-- **The history is the list of changes.** After any rounds in which `lstat` and the push
succeed: the history is the acknowledgement followed by one event for every observation
that does not agree with the one before it; further rounds of this kind only add events
behind those; and the last event agrees with the last observation. -/
theorem history_records_changes {path : CStr} {s₀ : Stat} {t₀ : UInt64}
    {events₀ events events' : Records FsTargetEvent} {log log' : List LogEntry}
    (hinit : fsTargetEventInit path (.ok s₀) t₀ = some events₀)
    (hrun : historyMachine.Run events₀ log events) (hlog : ∀ entry ∈ log, Observes entry)
    (hrun' : historyMachine.Run events log' events')
    (hlog' : ∀ entry ∈ log', Observes entry) :
    events.items = ackEvent path s₀ t₀ :: changes s₀ (observations log) ∧
      (∃ e, events.items.getLast? = some e ∧
        e.st.Agrees (lastStat s₀ (observations log))) ∧
      events'.items = events.items ++
        changes (lastStat s₀ (observations log)) (observations log') := by
  obtain ⟨hitems, hfollows⟩ := created_history hinit
  have h := Recorded.run hfollows hrun hlog
  have h' := Recorded.run h.follows hrun' hlog'
  refine ⟨?_, h.follows, h'.items_eq⟩
  rw [h.items_eq, hitems]
  rfl

/-- A regular file of `size` bytes, last read at `atime`. -/
def regularStat (size atime : Int64) : Stat :=
  { Stat.zeroed with mode := 0o100644, size := size, atime := atime }

/-- One round is a run. -/
theorem historyMachine_single (events : Records FsTargetEvent) (r : Round) :
    historyMachine.Run events [(r, fsTargetEventTrack r events)]
      (fsTargetEventTrack r events).events :=
  Machine.Run.nil.snoc trivial rfl

/-- The file grows, then it is read. -/
theorem grown_then_read :
    let events := Records.mk [ackEvent [] (regularStat 1 0) 0] 2016
    let grown := fsTargetEventTrack (.answered (.ok (regularStat 2 0))) events
    let read := fsTargetEventTrack (.answered (.ok (regularStat 2 7))) grown.events
    grown.events.items = [ackEvent [] (regularStat 1 0) 0,
        { mask := eventModify, path := .curPath, timestamp := 0, st := regularStat 2 0 }] ∧
      read.events.items = grown.events.items ++
        [{ mask := eventOpen, path := .curPath, timestamp := 0, st := regularStat 2 7 }] := by
  intro events grown read
  have h := history_records_changes (fsTargetEventInit_ok [] (regularStat 1 0) 0)
    (historyMachine_single events (.answered (.ok (regularStat 2 0))))
    (by simp only [List.mem_singleton, forall_eq]; exact ⟨⟨_, rfl⟩, by decide⟩)
    (historyMachine_single grown.events (.answered (.ok (regularStat 2 7))))
    (by simp only [List.mem_singleton, forall_eq]; exact ⟨⟨_, rfl⟩, by decide⟩)
  exact ⟨h.1, h.2.2⟩

/-! ### Failing rounds -/

/-- The two outcomes of a failed `lstat` that are reported differently. -/
inductive Failure
  | inaccessible
  | missing
  deriving DecidableEq, Repr

/-- The outcome class of an `errno`. -/
def Errno.failure : Errno → Failure
  | .eacces => .inaccessible
  | .enoent | .other => .missing

/-- The mask that reports a failure. -/
def Failure.mask : Failure → Int32
  | .inaccessible => eventFail
  | .missing => eventDelete

/-- The round failed in this way, and the history could grow. -/
def FailsWith (c : Failure) (entry : LogEntry) : Prop :=
  (∃ e : Errno, entry.1.lstat = .error e ∧ e.failure = c) ∧ entry.2.Pushed

theorem failureMask_eq (e : Errno) : failureMask e = e.failure.mask := by
  cases e <;> rfl

/-- A history is never empty once it has begun. -/
theorem history_ne_nil {events events' : Records FsTargetEvent} {log : List LogEntry}
    (h : events.items ≠ []) (hrun : historyMachine.Run events log events') :
    events'.items ≠ [] := by
  refine hrun.invariant (I := fun events => events.items ≠ []) (H := fun _ => True)
    (fun {events r tracked events'} hne _ _ hstep => ?_) h fun _ _ => trivial
  obtain ⟨rfl, rfl⟩ := historyMachine_step hstep
  intro hnil
  have hext := fsTargetEventTrack_extends r events
  rw [hnil] at hext
  exact hne (List.prefix_nil.mp hext)

/-- The history has grown from `base` by one event with the mask of the failure for each
of `n` rounds. -/
def Repeats (base : List FsTargetEvent) (c : Failure) (events : Records FsTargetEvent)
    (n : ℕ) : Prop :=
  events.items ≠ [] ∧
    ∃ more, events.items = base ++ more ∧ more.length = n ∧ ∀ e ∈ more, e.mask = c.mask

/-- **Step lemma**: one more failing round, one more event. -/
theorem Repeats.step {base : List FsTargetEvent} {c : Failure}
    {events events' : Records FsTargetEvent} {n : ℕ} {r : Round} {tracked : Tracked}
    (h : Repeats base c events n) (hentry : FailsWith c (r, tracked))
    (hstep : historyMachine.step events r = some (tracked, events')) :
    Repeats base c events' (n + 1) := by
  obtain ⟨rfl, rfl⟩ := historyMachine_step hstep
  obtain ⟨⟨e, he, hc⟩, hpush⟩ := hentry
  obtain ⟨hne, more, hmore, hlen, hmask⟩ := h
  have hitems := fsTargetEventTrack_error hne he hpush
  refine ⟨by simp [hitems], more ++ [failureEvent r.now e], ?_, by simp [hlen], ?_⟩
  · rw [hitems, hmore, List.append_assoc]
  · intro x hx
    rcases List.mem_append.mp hx with hx | hx
    · exact hmask x hx
    · obtain rfl := List.mem_singleton.mp hx
      rw [failureEvent, failureMask_eq, hc]

/-- **Run lemma**: a block of failing rounds adds as many events as it has rounds. -/
theorem Repeats.run {c : Failure} {events events' : Records FsTargetEvent}
    {log : List LogEntry} (h : events.items ≠ [])
    (hrun : historyMachine.Run events log events') (hlog : ∀ entry ∈ log, FailsWith c entry) :
    Repeats events.items c events' log.length := by
  have hstart : Repeats events.items c events 0 := ⟨h, [], by simp, rfl, by simp⟩
  have key := hrun.refines (fun n _ => n + 1)
    (fun h hentry _ hstep => h.step hentry hstep) hstart hlog
  rwa [List.foldl_add_const, Nat.zero_add, Nat.one_mul] at key

/-- **A failing block is reported once exactly when it is one round long.** From any
history the service can have reached, after any block of rounds that fail in the same
way. -/
theorem reported_once_iff {path : CStr} {s₀ : Stat} {t₀ : UInt64}
    {events₀ events events' : Records FsTargetEvent} {before block : List LogEntry}
    {c : Failure} (hinit : fsTargetEventInit path (.ok s₀) t₀ = some events₀)
    (hreach : historyMachine.Run events₀ before events)
    (hblock : historyMachine.Run events block events')
    (hfails : ∀ entry ∈ block, FailsWith c entry) :
    (∃ e, events'.items = events.items ++ [e] ∧ e.mask = c.mask) ↔ block.length = 1 := by
  have hne : events.items ≠ [] :=
    history_ne_nil (by simp [(created_history hinit).1]) hreach
  obtain ⟨-, more, hmore, hlen, hmask⟩ := Repeats.run hne hblock hfails
  constructor
  · rintro ⟨e, he, -⟩
    have hone : more = [e] := List.append_cancel_left (hmore.symm.trans he)
    rw [← hlen, hone]
    rfl
  · intro hone
    obtain ⟨e, rfl⟩ := List.length_eq_one_iff.mp (hlen.trans hone)
    exact ⟨e, hmore, hmask e (by simp)⟩

/-- A file that is missing for one round is reported once. -/
theorem missing_reported_once :
    let events := Records.mk [ackEvent [] (regularStat 1 0) 0] 2016
    let gone := fsTargetEventTrack (.answered (.error .enoent)) events
    ∃ e, gone.events.items = events.items ++ [e] ∧ e.mask = eventDelete := by
  intro events gone
  refine (reported_once_iff (c := .missing) (fsTargetEventInit_ok [] (regularStat 1 0) 0)
    .nil (historyMachine_single events (.answered (.error .enoent))) ?_).mpr rfl
  simp only [List.mem_singleton, forall_eq]
  exact ⟨⟨.enoent, rfl, rfl⟩, by decide⟩

/-- A file that stays missing for a second round is reported twice. The two rounds are all
there are, so they are a maximal block. -/
theorem missing_reported_twice :
    ¬ ∀ (path : CStr) (s₀ : Stat) (t₀ : UInt64) (events₀ events events' : Records FsTargetEvent)
        (before block : List LogEntry) (c : Failure),
      fsTargetEventInit path (.ok s₀) t₀ = some events₀ →
      historyMachine.Run events₀ before events →
      (∀ entry ∈ before.getLast?, ¬ FailsWith c entry) →
      historyMachine.Run events block events' →
      block ≠ [] → (∀ entry ∈ block, FailsWith c entry) →
      ∃ e, events'.items = events.items ++ [e] ∧ e.mask = c.mask := by
  intro h
  have hone := historyMachine_single ⟨[ackEvent [] (regularStat 1 0) 0], 2016⟩
    (.answered (.error .enoent))
  have htwo := hone.append (historyMachine_single _ (.answered (.error .enoent)))
  obtain ⟨e, he, -⟩ := h [] (regularStat 1 0) 0 _ _ _ [] _ .missing
    (fsTargetEventInit_ok _ _ _) .nil (by simp) htwo (by simp) (by
      intro entry hentry
      simp only [List.cons_append, List.nil_append, List.mem_cons, List.not_mem_nil,
        or_false] at hentry
      rcases hentry with rfl | rfl <;> exact ⟨⟨.enoent, rfl, rfl⟩, by decide⟩)
  have hlen : List.length _ = 2 := congrArg List.length he
  exact absurd hlen (by decide)

end Backd
