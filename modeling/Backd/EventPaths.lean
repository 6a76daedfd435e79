import Backd.Histories

/-!
# The Paths in the Histories

`fs_target_event_init` stores the string it received, and `target_event_detect` stores
`path()`, the shared buffer. A snapshot frees the strings of all targets but its root, and a
round ends with the buffer empty, so an event can be read back only where neither happened to
its path.

An event in a history still leads to the path it was detected under (`StillRead`) as long as
the steps of the service keep what there is (`WatchStep.Keeps`): a snapshot finds no child
(`FsNode.Childless`), and a round has nothing to record at any of the targets it comes to
(`Uneventful`).

## Main results

* `Kept.snapshot_read`, `Kept.observe_read`: at every moment of such a step, every event can
  be read.
* `childless_of_read`, `uneventful_of_read`: any other step that comes to its end lost an event.
* `paths_still_read`: both, over whole runs of the service.
* `missing_file_unread`: the event that reports a missing file cannot be read after the round.
-/

namespace Backd

open StraightLine Runs

/-! ### When the events are still read -/

section Childless

variable {clock : CStr → UInt64} {target : TargetId} {path : CStr}

/-- Nothing is found in the node, if it is a directory. -/
def FsNode.Childless : FsNode → Prop
  | .node given (.ok _) (some entries) =>
    filetype (givenStat given).mode = .directory → foundEntries entries = []
  | .node _ (.error _) _ | .node _ (.ok _) none => True

/-- A call for the root `k`, or for a string below it that is given to no target. -/
def CreateCall.Own (k : ℕ) : CreateCall → Prop
  | .receive target _ | .basename target | .free target => ∃ j, target = [k, j]
  | .eventInit target _ _ => target = [k]

/-- Where nothing is found, nothing is created. -/
theorem own_of_entries {k : ℕ} {entries : List (EntryName × FsNode)}
    (h : foundEntries entries = []) (i : ℕ) :
    ∀ c ∈ entriesScript clock [k] path i entries, c.Own k := by
  induction entries generalizing i with
  | nil => simp [entriesScript]
  | cons e entries ih =>
      obtain ⟨name, node⟩ := e
      simp only [foundEntries, List.filter_eq_nil_iff, List.mem_cons, forall_eq_or_imp] at h
      have hrest := ih (List.filter_eq_nil_iff.mpr h.2)
      by_cases hvis : visible name = true
      · have hfound : node.found = false := by simpa [hvis] using h.1
        have hnone : createScript clock ([k] ++ [i]) (attach path name) node =
            [.basename ([k] ++ [i])] := by
          obtain ⟨given, lstat, es⟩ := node
          cases lstat with
          | error e => rw [createScript_error]
          | ok st => cases hfound
        rw [entriesScript_visible hvis, hnone]
        simp only [List.cons_append, List.nil_append, List.mem_cons, forall_eq_or_imp]
        exact ⟨⟨i, rfl⟩, ⟨i, rfl⟩, ⟨i, rfl⟩, hrest _⟩
      · rw [entriesScript, if_neg hvis]
        exact hrest i

/-- A snapshot in which nothing is found has calls for its root only, once its string is what
`basename` leaves. -/
theorem own_of_childless (clock : CStr → UInt64) (path : CStr) (k : ℕ) {n : FsNode}
    (h : n.Childless) : ∀ c ∈ (createScript clock [k] path n).tail, c.Own k := by
  obtain ⟨given, lstat, entries⟩ := n
  cases lstat with
  | error e => simp [createScript_error]
  | ok st =>
      rw [createScript_ok, List.tail_cons]
      refine List.forall_mem_cons.mpr ⟨rfl, ?_⟩
      by_cases hdir : filetype (givenStat given).mode = .directory
      · rw [if_pos hdir]
        cases entries with
        | none => simp [handleScript]
        | some entries => exact own_of_entries (h hdir) 0
      · simp [if_neg hdir]

/-- The first entry that is found has its history begun. -/
theorem eventInit_of_entries {entries : List (EntryName × FsNode)} (h : foundEntries entries ≠ []) :
    ∃ st now, .eventInit (target ++ [0]) st now ∈ entriesScript clock target path 0 entries := by
  induction entries with
  | nil => exact absurd rfl h
  | cons e entries ih =>
      obtain ⟨name, node⟩ := e
      by_cases hvis : visible name = true
      · rw [entriesScript_visible hvis]
        by_cases hfound : node.found = true
        · obtain ⟨given, lstat, es⟩ := node
          cases lstat with
          | error e => cases hfound
          | ok st =>
              refine ⟨st, clock (basenameCut (attach path name)), List.mem_cons_of_mem _
                (List.mem_append_left _ ?_)⟩
              rw [createScript_ok]
              exact List.mem_cons_of_mem _ List.mem_cons_self
        · have hrest : foundEntries entries ≠ [] := by
            simpa [foundEntries, hvis, hfound] using h
          obtain ⟨st, now, hmem⟩ := ih hrest
          rw [if_neg hfound]
          exact ⟨st, now, List.mem_cons_of_mem _ (List.mem_append_right _
            (List.mem_cons_of_mem _ hmem))⟩
      · have hrest : foundEntries entries ≠ [] := by
          simpa [foundEntries, hvis] using h
        rw [entriesScript, if_neg hvis]
        exact ih hrest

/-- Where something is found, the history of the first child is begun. -/
theorem eventInit_of_not_childless (clock : CStr → UInt64) (target : TargetId) (path : CStr)
    {n : FsNode} (h : ¬ n.Childless) :
    ∃ st now, .eventInit (target ++ [0]) st now ∈ createScript clock target path n := by
  obtain ⟨given, lstat, entries⟩ := n
  cases lstat with
  | error e => exact absurd trivial h
  | ok st =>
      cases entries with
      | none => exact absurd trivial h
      | some entries =>
          obtain ⟨hdir, hfound⟩ := Classical.not_imp.mp h
          obtain ⟨st', now, hmem⟩ := eventInit_of_entries hfound
          refine ⟨st', now, ?_⟩
          rw [createScript_ok, if_pos hdir]
          exact List.mem_cons_of_mem _ (List.mem_cons_of_mem _ hmem)

end Childless

/-- The rounds from the `k`-th entry of the log on, in which the observer comes to the target
`t` with index `i`, have nothing to record. -/
def Uneventful (env : Environment) (k i : ℕ) (t : FsTarget) : Prop :=
  ∀ pre p events post names finfo,
    observeScript [i] t = pre ++ .eventTrack (i :: p) events :: post →
    Reaches t p names finfo events →
    (env (k + pre.countP ObsCall.visits) (joined names)).Silent events

/-- The step appends no event that is lost: a snapshot finds no children, a round has nothing
to record. -/
def WatchStep.Keeps (s : WatchSt) : WatchStep → Prop
  | .snapshot _ _ n => n.Childless
  | .observe env => ∀ t, s.targets[s.turn]? = some t → Uneventful env s.mem.obs.log.length s.turn t

/-- The root has a name, if it is there. -/
def RootNamed : FsTarget → Prop
  | .null | .released => True
  | .live finfo _ _ => finfo.name ≠ []

/-- What holds between the steps as long as nothing was lost. -/
structure Kept (s : WatchSt) : Prop where
  acks : ∀ a ∈ s.mem.acks, (∃ j < s.targets.length, a.target = [j]) ∧ a.Held s.mem.strings
  visits : ∀ v ∈ s.mem.obs.log, v.appended = []
  strings : ∀ j, Bare s.mem [j]
  path : s.mem.obs.cur.path = some []
  named : ∀ t ∈ s.targets, RootNamed t

theorem kept_start : Kept .start :=
  ⟨by simp [WatchSt.start], by simp [WatchSt.start], fun _ _ _ => rfl, PathBuf.path_empty,
    by simp [WatchSt.start]⟩

/-- What is kept is still read. -/
theorem Kept.stillRead {s : WatchSt} (h : Kept s) : StillRead s.mem := by
  refine ⟨fun a ha => (h.acks a ha).2.deref, ?_⟩
  intro v hv e he
  rw [h.visits v hv] at he
  cases he

section Snapshot

variable {s s' : WatchSt} {clock : CStr → UInt64} {path : CStr} {n : FsNode} {m m' : Memory}
  {k : ℕ}

/-- What holds while a snapshot is taken in which nothing is found. -/
structure Taking (k : ℕ) (path : CStr) (obs : ObsSt) (m : Memory) : Prop where
  acks : ∀ a ∈ m.acks, (∃ j ≤ k, a.target = [j]) ∧ a.Held m.strings
  root : m.strings [k] = some path
  obs_eq : m.obs = obs

/-- A string for no target changes nothing for the roots. -/
theorem Taking.update {obs : ObsSt} (h : Taking k path obs m) (j : ℕ) (o : Option CStr) :
    Taking k path obs { m with strings := Function.update m.strings [k, j] o } := by
  refine ⟨?_, (Function.update_of_ne (by simp) _ _).trans h.root, h.obs_eq⟩
  intro a ha
  obtain ⟨⟨i, hi, htarget⟩, hheld⟩ := h.acks a ha
  exact ⟨⟨i, hi, htarget⟩, hheld.update (by simp [htarget]) o⟩

/-- The calls of such a snapshot. -/
theorem Taking.step {obs : ObsSt} {c : CreateCall} (h : Taking k path obs m) (hown : c.Own k)
    (hstep : c.perform m = some m') : Taking k path obs m' := by
  cases c with
  | receive target string =>
      obtain ⟨j, rfl⟩ := hown
      cases hstep
      exact h.update j _
  | basename target =>
      obtain ⟨j, rfl⟩ := hown
      obtain ⟨string, -, rfl⟩ := Option.map_eq_some_iff.mp hstep
      exact h.update j _
  | free target =>
      obtain ⟨j, rfl⟩ := hown
      cases hstep
      exact h.update j _
  | eventInit target st now =>
      obtain rfl : target = [k] := hown
      obtain ⟨string, hstring, rfl⟩ := Option.map_eq_some_iff.mp hstep
      refine ⟨?_, h.root, h.obs_eq⟩
      intro a ha
      rcases List.mem_append.mp ha with ha | ha
      · exact h.acks a ha
      · obtain rfl := List.mem_singleton.mp ha
        exact ⟨⟨k, Nat.le_refl k, rfl⟩, ⟨string, rfl⟩, hstring⟩

/-- All of such a snapshot. -/
theorem Taking.passes {obs : ObsSt} {p : CStr} (h : Taking k path obs m) (hn : n.Childless)
    (hm : Passes CreateCall.perform (createScript clock [k] p n).tail m m') :
    Taking k path obs m' :=
  hm.invariant h fun _ he _ htaking hstep =>
    htaking.step (own_of_childless clock p k hn _ (mem_of_mem_trace he)) hstep

/-- Nothing is lost while such a snapshot is taken. -/
theorem Taking.stillRead (h : Taking k path s.mem.obs m) (hs : Kept s) : StillRead m := by
  refine ⟨fun a ha => (h.acks a ha).2.deref, ?_⟩
  intro v hv e he
  rw [h.obs_eq] at hv
  rw [hs.visits v hv] at he
  cases he

/-- The string of a new root touches none of the others. -/
theorem Kept.taking (h : Kept s) (path : CStr) :
    Taking s.targets.length path s.mem.obs (s.received path) := by
  refine ⟨?_, Function.update_self _ _ _, rfl⟩
  intro a ha
  obtain ⟨⟨j, hj, htarget⟩, hheld⟩ := h.acks a ha
  exact ⟨⟨j, Nat.le_of_lt hj, htarget⟩,
    hheld.update (by simp [htarget, Nat.ne_of_lt hj]) (some path)⟩

/-- The calls of a snapshot: the root gets its string, `basename` modifies it, and then the rest
is done. -/
theorem moment_snapshot (hm : Moment s (.snapshot clock path n) m) :
    m = s.mem ∨ m = s.received path ∨
      Passes CreateCall.perform (createScript clock [s.targets.length] path n).tail
        (s.received (basenameCut path)) m := by
  rcases passes_cons.mp (passes_create.mp hm) with hfirst | ⟨m₁, hfirst, hrest⟩
  · exact .inl hfirst
  · cases hfirst
    have hpasses := passes_createScript (strings_received s path) hrest
    rw [received_basenameCut] at hpasses
    exact .inr hpasses

/-- **A snapshot in which nothing is found** loses nothing. -/
theorem Kept.snapshot_read (h : Kept s) (hn : n.Childless)
    (hm : Moment s (.snapshot clock path n) m) : StillRead m := by
  rcases moment_snapshot hm with rfl | rfl | hpasses
  · exact h.stillRead
  · exact (h.taking path).stillRead h
  · exact ((h.taking (basenameCut path)).passes hn hpasses).stillRead h

/-- A snapshot has the name of its path. -/
theorem rootNamed_create (clock : CStr → UInt64) (path : CStr) (n : FsNode) :
    RootNamed (fsTargetCreate clock path n) := by
  obtain ⟨given, lstat, entries⟩ := n
  cases lstat with
  | error e =>
      rw [fsTargetCreate_error]
      trivial
  | ok st =>
      by_cases hdir : filetype (givenStat given).mode = .directory
      · cases entries with
        | none =>
            rw [fsTargetCreate_refused hdir]
            trivial
        | some entries =>
            rw [fsTargetCreate_directory hdir]
            exact basename_ne_nil path
      · rw [fsTargetCreate_file hdir]
        exact basename_ne_nil path

/-- Where nothing is created, nothing but `basename` is called. -/
theorem createScript_null {target : TargetId} (h : ¬ (fsTargetCreate clock path n).NotNull) :
    createScript clock target path n = [.basename target] := by
  have hfound := create_notNull clock path n
  rw [decide_eq_false h] at hfound
  obtain ⟨given, lstat, entries⟩ := n
  cases lstat with
  | error e => rw [createScript_error]
  | ok st => cases hfound

/-- After a snapshot that gives no target, the string of the operand is what is left. -/
theorem mem_of_missing (hstep : watchStep s (.snapshot clock path n) = some ((), s'))
    (hnull : ¬ (fsTargetCreate clock path n).NotNull) :
    s'.mem = s.received (basenameCut path) := by
  have hrun := (of_snapshot_step hstep).1
  rw [run_createScript (strings_received s path), received_basenameCut,
    createScript_null hnull] at hrun
  exact (Option.some.inj hrun).symm

/-- After such a snapshot everything is as it was between the steps. -/
theorem Kept.snapshot (h : Kept s) (hn : n.Childless)
    (hstep : watchStep s (.snapshot clock path n) = some ((), s')) : Kept s' := by
  obtain ⟨hrun, htargets⟩ := of_snapshot_step hstep
  have hstrings := strings_of_snapshot (h.strings _) hstep
  rw [run_createScript (strings_received s path), received_basenameCut] at hrun
  have htaking := (h.taking (basenameCut path)).passes hn (.inr hrun)
  refine ⟨?_, ?_, ?_, ?_, ?_⟩
  · intro a ha
    refine ⟨?_, (htaking.acks a ha).2⟩
    rw [htargets]
    by_cases hnull : (fsTargetCreate clock path n).NotNull
    · obtain ⟨j, hj, htarget⟩ := (htaking.acks a ha).1
      exact ⟨j, by simpa [hnull, Nat.lt_succ_iff] using hj, htarget⟩
    · rw [mem_of_missing hstep hnull] at ha
      obtain ⟨j, hj, htarget⟩ := (h.acks a ha).1
      exact ⟨j, by simpa [hnull] using hj, htarget⟩
  · intro v hv
    rw [htaking.obs_eq] at hv
    exact h.visits v hv
  · intro j i q
    rw [hstrings]
    exact bare_received (h.strings j) (basenameCut path) i q
  · rw [htaking.obs_eq]
    exact h.path
  · intro t ht
    rw [htargets] at ht
    by_cases hnull : (fsTargetCreate clock path n).NotNull
    · rw [if_pos hnull] at ht
      rcases List.mem_append.mp ht with ht | ht
      · exact h.named t ht
      · rw [List.mem_singleton.mp ht]
        exact rootNamed_create clock path n
    · rw [if_neg hnull] at ht
      exact h.named t ht

/-- **A snapshot in which something is found** loses an acknowledgement: the string of the
child is freed. -/
theorem childless_of_read (h : Kept s)
    (hstep : watchStep s (.snapshot clock path n) = some ((), s')) (hread : StillRead s'.mem) :
    n.Childless := by
  by_contra hn
  obtain ⟨hrun, -⟩ := of_snapshot_step hstep
  have hbare := bare_received (h.strings s.targets.length) (basenameCut path)
  have hstrings := strings_of_snapshot (h.strings _) hstep
  obtain ⟨st, now, hmem⟩ := eventInit_of_not_childless clock [s.targets.length] path hn
  obtain ⟨pre, post, hsplit⟩ := List.append_of_mem hmem
  rw [hsplit] at hrun
  obtain ⟨m₁, m₂, -, hinit, hrest⟩ := exists_step_of_run hrun
  obtain ⟨string, -, rfl⟩ := Option.map_eq_some_iff.mp hinit
  have hack := acks_of_run hrest (List.mem_append_right m₁.acks (List.mem_singleton_self _))
  have hderef := hread.acks _ hack
  have hnone : s'.mem.strings ([s.targets.length] ++ [0]) = none :=
    (congrFun hstrings _).trans (hbare 0 [])
  exact absurd (hnone.symm.trans hderef) nofun

end Snapshot

section Round

variable {s s' : WatchSt} {env : Environment} {t t' : FsTarget} {m : Memory}

/-- The names on the way to a node are those of the node. -/
theorem Reaches.unique {p : List ℕ} {names names' : List CStr} {finfo finfo' : Finfo}
    {events events' : Records FsTargetEvent} (h : Reaches t p names finfo events)
    (h' : Reaches t p names' finfo' events') : names = names' := by
  induction h generalizing names' finfo' events' with
  | root =>
      cases h'
      rfl
  | child _ hi _ ih =>
      cases h' with
      | child _ hi' hreach =>
          cases hi.symm.trans hi'
          rw [ih hreach]

/-- A path that has begun goes on. -/
theorem under_ne_nil {s : CStr} (hs : s ≠ []) (names : List CStr) : under s names ≠ [] := by
  induction names generalizing s with
  | nil => exact hs
  | cons name names ih => exact ih (by simp [join, hs])

/-- Below a root with a name, every path is there. -/
theorem RootNamed.path_ne_nil {p : List ℕ} {names : List CStr} {finfo : Finfo}
    {events : Records FsTargetEvent} (h : RootNamed t) (hreach : Reaches t p names finfo events) :
    under [] names ≠ [] := by
  cases hreach with
  | root => exact h
  | child =>
      have hroot : join [] _ ≠ [] := h
      exact under_ne_nil hroot _

/-- A traversal leaves the root its name. -/
theorem RootNamed.observe {node : List ℕ} {st st' : ObsSt} {b : Bool} (h : RootNamed t)
    (hobserve : fsTargetObserve env node t st = some (b, t', st')) : RootNamed t' := by
  cases t with
  | null =>
      cases hobserve
      trivial
  | released => cases hobserve
  | live finfo events children =>
      obtain ⟨_, _, _, _, _, -, -, -, -, rfl⟩ := of_observe_live hobserve
      exact h

/-- The place, the path and the time of a round. -/
theorem eventTrack_at {i : ℕ} {st st' : ObsSt} {id : List ℕ} {events : Records FsTargetEvent}
    (h : st.cur.path = some [])
    (hmem : (.eventTrack id events, st') ∈ trace (ObsCall.perform env) (observeScript [i] t) st) :
    ∃ pre post p names finfo, observeScript [i] t = pre ++ .eventTrack id events :: post ∧
      id = i :: p ∧ Reaches t p names finfo events ∧ st'.cur.path = some (under [] names) ∧
      st'.log.length = st.log.length + pre.countP ObsCall.visits := by
  obtain ⟨p, names, finfo, hreach, hid, hpath⟩ := callAt_of_mem_trace h hmem
  obtain ⟨pre, post, hsplit, hrun⟩ := mem_trace_iff.mp hmem
  obtain ⟨more, hlog, hlen⟩ := log_of_run hrun
  refine ⟨pre, post, p, names, finfo, hsplit, hid, hreach, hpath, ?_⟩
  rw [hlog, List.length_append, hlen]

/-- A call of a traversal that has nothing to record appends nothing. -/
theorem Uneventful.step {i : ℕ} {st : ObsSt} (hquiet : Uneventful env st.log.length i t)
    (h : st.cur.path = some []) {call : ObsCall} {st₁ st' : ObsSt}
    (he : (call, st₁) ∈ trace (ObsCall.perform env) (observeScript [i] t) st)
    (hlog : ∀ v ∈ st₁.log, v.appended = []) (hstep : call.perform env st₁ = some st') :
    ∀ v ∈ st'.log, v.appended = [] := by
  cases call with
  | setCurrentWd name | unsetCurrentWd name =>
      obtain ⟨_, -, rfl⟩ := Option.map_eq_some_iff.mp hstep
      exact hlog
  | unreadable => cases hstep
  | unknownType id events =>
      obtain ⟨_, -, rfl⟩ := of_unknownType hstep
      intro v hv
      rcases List.mem_append.mp hv with hv | hv
      · exact hlog v hv
      · rw [List.mem_singleton.mp hv]
        rfl
  | eventTrack id events =>
      obtain ⟨path, hpath, rfl⟩ := of_eventTrack hstep
      obtain ⟨pre, post, p, names, finfo, hsplit, rfl, hreach, hat, hlen⟩ := eventTrack_at h he
      cases hpath.symm.trans hat
      have hsilent := hquiet pre p events post names finfo hsplit hreach
      rw [← under_nil, ← hlen] at hsilent
      intro v hv
      rcases List.mem_append.mp hv with hv | hv
      · exact hlog v hv
      · rw [List.mem_singleton.mp hv, Visit.appended_tracked]
        rw [fsTargetEventTrack_silent hsilent]
        exact List.drop_length

/-- Nothing is appended in all of such a traversal. -/
theorem Uneventful.logged {i : ℕ} {st st' : ObsSt} (hquiet : Uneventful env st.log.length i t)
    (h : st.cur.path = some []) (hlog : ∀ v ∈ st.log, v.appended = [])
    (hst : Passes (ObsCall.perform env) (observeScript [i] t) st st') :
    ∀ v ∈ st'.log, v.appended = [] :=
  hst.invariant (I := fun st => ∀ v ∈ st.log, v.appended = []) hlog
    fun _ he _ hnone hstep => hquiet.step h he hnone hstep

/-- The calls of a traversal, and its end. -/
theorem moment_observe (ht : s.targets[s.turn]? = some t) (hm : Moment s (.observe env) m) :
    ∃ st, m = { s.mem with obs := st } ∧
      Passes (ObsCall.perform env) (observeScript [s.turn] t) s.mem.obs st := by
  rw [Moment, WatchStep.calls, ht] at hm
  exact passes_observe.mp hm

/-- **A traversal that has nothing to record** loses nothing. -/
theorem Kept.observe_read (h : Kept s)
    (hquiet : ∀ t, s.targets[s.turn]? = some t → Uneventful env s.mem.obs.log.length s.turn t)
    (hm : Moment s (.observe env) m) : StillRead m := by
  cases ht : s.targets[s.turn]? with
  | none =>
      have hcalls : WatchStep.calls s (.observe env) = [] := by simp [WatchStep.calls, ht]
      rw [Moment, hcalls] at hm
      rw [passes_nil.mp hm]
      exact h.stillRead
  | some t =>
      obtain ⟨st, rfl, hst⟩ := moment_observe ht hm
      have hlog := (hquiet t ht).logged h.path h.visits hst
      refine ⟨fun a ha => Ack.Held.deref (m := { s.mem with obs := st }) (h.acks a ha).2, ?_⟩
      intro v hv e he
      rw [hlog v hv] at he
      cases he

/-- After such a traversal everything is as it was between the steps. -/
theorem Kept.observe (h : Kept s)
    (hquiet : ∀ t, s.targets[s.turn]? = some t → Uneventful env s.mem.obs.log.length s.turn t)
    (hstep : watchStep s (.observe env) = some ((), s')) : Kept s' := by
  obtain ⟨t, t', b, st, ht, hobserve, hrun, htargets, hmem⟩ := of_observe_step hstep
  refine ⟨?_, ?_, ?_, ?_, ?_⟩
  · rw [hmem, htargets, List.length_set]
    exact h.acks
  · rw [hmem]
    exact (hquiet t ht).logged h.path h.visits (.inr hrun)
  · rw [hmem]
    exact h.strings
  · rw [hmem]
    exact (restored_of_run h.path hrun).1
  · intro u hu
    rw [htargets] at hu
    rcases List.mem_or_eq_of_mem_set hu with hu | rfl
    · exact h.named u hu
    · exact (h.named t (List.mem_of_getElem? ht)).observe hobserve

/-- **A traversal that records an event** loses it: the buffer is empty at its end. -/
theorem uneventful_of_read (h : Kept s) (hstep : watchStep s (.observe env) = some ((), s'))
    (hread : StillRead s'.mem) (ht : s.targets[s.turn]? = some t) :
    Uneventful env s.mem.obs.log.length s.turn t := by
  obtain ⟨t₁, t', b, st, ht₁, -, hrun, -, hmem⟩ := of_observe_step hstep
  cases ht.symm.trans ht₁
  intro pre p events post names finfo hsplit hreach
  by_contra hloud
  have hend := (restored_of_run h.path hrun).1
  have hcalls := hrun
  rw [hsplit] at hcalls
  obtain ⟨st₁, st₂, hpre, htrack, hpost⟩ := exists_step_of_run hcalls
  have hat := callAt_of_mem_trace h.path
    (mem_trace_iff (e := (.eventTrack (s.turn :: p) events, st₁)).mpr ⟨pre, post, hsplit, hpre⟩)
  obtain ⟨p', names', finfo', hreach', hid, hpath⟩ := hat
  obtain rfl : p = p' := by simpa using hid
  obtain rfl := hreach.unique hreach'
  obtain ⟨path, hpath', rfl⟩ := of_eventTrack htrack
  cases hpath.symm.trans hpath'
  obtain ⟨more, hlog, hlen⟩ := log_of_run hpre
  obtain ⟨later, hlater, -⟩ := log_of_run hpost
  have hlength : st₁.log.length = s.mem.obs.log.length + pre.countP ObsCall.visits := by
    rw [hlog, List.length_append, hlen]
  rw [← hlength, ← under_nil] at hloud
  obtain ⟨e, hitems, hcur⟩ := fsTargetEventTrack_appends hloud
  have hvisit : (⟨s.turn :: p, under [] names, events,
      some (fsTargetEventTrack (env st₁.log.length (under [] names)) events)⟩ : Visit) ∈
        s'.mem.obs.log := by
    rw [hmem, hlater]
    simp
  have hderef := hread.visits _ hvisit e (by rw [Visit.appended_tracked, hitems]; simp)
  rw [hcur, hmem] at hderef
  have hnil := Option.some.inj (hend.symm.trans hderef)
  exact (h.named t (List.mem_of_getElem? ht)).path_ne_nil hreach hnil.symm

end Round

/-! ### Runs -/

/-- The service, as long as its steps lose no event. -/
def keepingMachine : Machine WatchSt WatchStep Unit :=
  watchMachine.guard fun s i => i.Keeps s

/-- Between the steps of such a run, everything is kept. -/
theorem kept_of_run {log : List (WatchStep × Unit)} {s : WatchSt}
    (h : keepingMachine.Run .start log s) : Kept s := by
  refine h.invariant (I := Kept) (H := fun _ => True) ?_ kept_start fun _ _ => trivial
  intro s i r s' hkept _ hadmits hstep
  cases i with
  | snapshot clock path n => exact hkept.snapshot hadmits.2 hstep
  | observe env => exact hkept.observe hadmits.2 hstep

/-- **The paths of the events, over whole runs.** As long as no snapshot finds a child and no
round has something to record, every event in a history is listed, and every event listed
can be read back as the path it was detected under, at every moment of the next step, if that
step is of this kind too. And a next step that comes to its end with every event still read is
of this kind. -/
theorem paths_still_read {log : List (WatchStep × Unit)} {s : WatchSt}
    (h : keepingMachine.Run .start log s) :
    Listed s ∧ StillRead s.mem ∧ ∀ i, watchMachine.Admits s i →
      (i.Keeps s → ∀ m, Moment s i m → StillRead m) ∧
      ∀ s', watchMachine.step s i = some ((), s') → StillRead s'.mem → i.Keeps s := by
  have hkept := kept_of_run h
  refine ⟨histories_listed h.of_guard, hkept.stillRead, ?_⟩
  intro i _
  cases i with
  | snapshot clock path n =>
      constructor
      · intro hkeeps m hm
        exact hkept.snapshot_read hkeeps hm
      · intro s' hstep hread
        exact childless_of_read hkept hstep hread
  | observe env =>
      constructor
      · intro hkeeps m hm
        exact hkept.observe_read hkeeps hm
      · intro s' hstep hread t ht
        exact uneventful_of_read hkept hstep hread ht

/-- The history of a file, as it begins. -/
def fileEvents : Records FsTargetEvent :=
  ⟨[ackEvent [dash] normalStat 0], 2016⟩

/-- The service once it has taken the snapshot of a file. -/
def watchFile : WatchSt where
  targets := [.live ⟨0, .normal, [dash], true⟩ fileEvents none]
  next := none
  mem :=
    { strings := Function.update (fun _ => none) [0] (some [dash])
      acks := [⟨[0], ackEvent [dash] normalStat 0, [dash]⟩]
      obs := ⟨.empty, []⟩ }

/-- `basename` leaves the string of the file as it is. -/
theorem watchStep_file :
    watchStep .start (.snapshot (fun _ => 0) [dash] fileNode) = some ((), watchFile) := by
  have hstep : watchStep .start (.snapshot (fun _ => 0) [dash] fileNode) =
      some ((), { watchFile with mem := { watchFile.mem with
        strings := Function.update (Function.update (fun _ => none) [0] (some [dash])) [0]
          (some [dash]) } }) := rfl
  rw [hstep, Function.update_idem]
  rfl

/-- A snapshot of a file loses nothing. -/
theorem run_watchFile :
    keepingMachine.Run .start [(.snapshot (fun _ => 0) [dash] fileNode, ())] watchFile :=
  Machine.Run.nil.snoc (i := WatchStep.snapshot (fun _ => 0) [dash] fileNode) ⟨rfl, trivial⟩
    watchStep_file

/-- The file is there as it was when the snapshot was taken. -/
def unchanged : Environment := fun _ _ => .answered (.ok normalStat)

/-- The file is missing. -/
def missing : Environment := fun _ _ => .answered (.error .enoent)

/-- The service once it has found the file unchanged in a round. -/
def watchFileRound : WatchSt :=
  { watchFile with
    next := some 0
    mem := { watchFile.mem with
      obs := ⟨.empty, [⟨[0], [dash], fileEvents,
        some { result := true, events := fileEvents, detected := some 0, printed := none }⟩]⟩ } }

/-- A round that finds the file unchanged has nothing to record. -/
theorem uneventful_unchanged : WatchStep.Keeps watchFile (.observe unchanged) := by
  intro t ht pre p events post names finfo _ hreach
  obtain rfl := Option.some.inj ht
  cases hreach
  exact .inl ⟨_, _, rfl, rfl, Stat.agrees_refl _⟩

theorem run_watchFileRound : keepingMachine.Run .start
    ([(.snapshot (fun _ => 0) [dash] fileNode, ())] ++ [(.observe unchanged, ())])
    watchFileRound :=
  run_watchFile.snoc (i := WatchStep.observe unchanged) (r := ())
    ⟨List.cons_ne_nil _ _, uneventful_unchanged⟩ rfl

/-- After a round that finds the file unchanged its acknowledgement can be read. The event of a
next round, in which the file is missing, cannot be read when the round is over. -/
theorem paths_still_read_file : StillRead watchFileRound.mem ∧
    ∃ s, watchMachine.step watchFileRound (.observe missing) = some ((), s) ∧
      ¬ StillRead s.mem := by
  obtain ⟨-, hread, hnext⟩ := paths_still_read run_watchFileRound
  refine ⟨hread, _, rfl, fun hlast => ?_⟩
  have hkeeps := (hnext (.observe missing) (List.cons_ne_nil _ _)).2 _ rfl hlast
  have hsilent := hkeeps (.live ⟨0, .normal, [dash], true⟩ fileEvents none) rfl
    [.setCurrentWd [dash]] [] fileEvents [.unsetCurrentWd [dash]] [[dash]]
    ⟨0, .normal, [dash], true⟩ rfl .root
  rcases hsilent with ⟨_, _, hok, -⟩ | hnil | hfull
  · cases hok
  · cases hnil
  · exact absurd (hfull (ackEvent [dash] Stat.zeroed 0)) (by decide)

/-- The service after so many rounds in which the file is missing. -/
def missingRounds : ℕ → Option WatchSt
  | 0 => some watchFile
  | n + 1 => do
    let s ← missingRounds n
    let (_, s) ← watchStep s (.observe missing)
    return s

theorem run_missingRounds {n : ℕ} {s : WatchSt} (h : missingRounds n = some s) :
    ∃ log, watchMachine.Run .start log s := by
  induction n generalizing s with
  | zero =>
      obtain rfl := Option.some.inj h
      exact ⟨_, run_watchFile.of_guard⟩
  | succ n ih =>
      obtain ⟨s₀, hs₀, h⟩ := Option.bind_eq_some_iff.mp h
      obtain ⟨⟨u, s₁⟩, hstep, h⟩ := Option.bind_eq_some_iff.mp h
      obtain rfl := Option.some.inj h
      obtain ⟨log, hrun⟩ := ih hs₀
      obtain ⟨t, _, _, _, ht, -⟩ := of_observe_step hstep
      refine ⟨_, hrun.snoc (i := WatchStep.observe missing) (fun hnil => ?_) hstep⟩
      rw [hnil] at ht
      cases ht

/-- The event that reports a missing file cannot be read after the round. -/
theorem missing_file_unread :
    ¬ ∀ log s, watchMachine.Run .start log s → StillRead s.mem := by
  intro h
  have hkept := kept_of_run run_watchFile
  have hsnapshot : watchMachine.Run .start _ watchFile :=
    Machine.Run.nil.snoc (i := WatchStep.snapshot (fun _ => 0) [dash] fileNode) rfl watchStep_file
  -- a round in which the file is missing
  obtain ⟨t', st, _, hobserve, -⟩ := fsTargetObserve_covers
    (.live ⟨0, .normal, [dash], true⟩ fileEvents none) (fun _ _ => .answered (.error .enoent)) [0]
    [] ⟨.empty, []⟩ PathBuf.path_empty (.leaf (by decide) (by decide))
  obtain ⟨s', hstep⟩ : ∃ s', watchStep watchFile
      (.observe fun _ _ => .answered (.error .enoent)) = some ((), s') := by
    refine ⟨{ targets := [t'], next := some 0, mem := { watchFile.mem with obs := st } }, ?_⟩
    simp [watchStep, watchFile, WatchSt.turn, hobserve]
  have hread := h _ s' (hsnapshot.snoc (i := WatchStep.observe _) (List.cons_ne_nil _ _) hstep)
  have hquiet := uneventful_of_read hkept hstep hread
    (t := .live ⟨0, .normal, [dash], true⟩ fileEvents none) rfl
  have hsilent := hquiet [.setCurrentWd [dash]] [] fileEvents [.unsetCurrentWd [dash]] [[dash]]
    ⟨0, .normal, [dash], true⟩ rfl .root
  rcases hsilent with ⟨_, _, hok, -⟩ | hnil | hfull
  · cases hok
  · cases hnil
  · exact absurd (hfull (ackEvent [dash] Stat.zeroed 0)) (by decide)

end Backd
