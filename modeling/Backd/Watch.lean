import Mathlib.Logic.Function.Basic
import Backd.Library.Runs
import Backd.ObserveScript
import Backd.SamePath

/-!
# The Events and What They Refer To

An event holds a pointer to its path, and the history that holds the event outlives the call
that appended it. This module keeps beside the targets what such a pointer can lead to: the
strings `fs_target_create` was called with, as long as they are allocated, and the path buffer
of the observer.

`fs_target_create` and `handle_children` are lists of calls on this memory, like a traversal
(`ObserveScript`): a string comes into being for a target, `basename` takes the slashes at its
end away, the history of the target is begun with it, and a string that `attach` returned is
freed. The operands are never freed.

The service takes the snapshots and then goes round the targets. A moment of one of its steps
is the memory before one of the calls of the step, or at the end of the step.

## Main results

* `run_calls`: the calls of a step do to the memory what the step does.
* `strings_of_create`: a snapshot frees every string it allocates.
-/

namespace Backd

open StraightLine Runs

/-! ### What the events refer to -/

/-- A target: the index of its root in `fp`, and the child indices on the way from there. -/
abbrev TargetId := List ℕ

/-- An acknowledgement: the target whose history it was pushed to, the event, and the path
`lstat` was called with. -/
structure Ack where
  target : TargetId
  event : FsTargetEvent
  path : CStr
  deriving DecidableEq, Repr

/-- What the events of the histories refer to: the string `fs_target_create` received for a
target, as long as it is allocated, and the buffer of the observer. The acknowledgements
pushed so far are listed, as the observer lists its visits. -/
structure Memory where
  strings : TargetId → Option CStr
  acks : List Ack
  obs : ObsSt

/-- The string the path field of an event leads to, for an event of this target. -/
def Memory.deref (m : Memory) (target : TargetId) : PathRef → Option CStr
  | .argument _ => m.strings target
  | .curPath => m.obs.cur.path

/-- The acknowledgement refers to the string of its target, and that string is there. -/
structure Ack.Held (strings : TargetId → Option CStr) (a : Ack) : Prop where
  argument : ∃ s, a.event.path = .argument s
  string : strings a.target = some a.path

/-- Such an acknowledgement can be read. -/
theorem Ack.Held.deref {m : Memory} {a : Ack} (h : a.Held m.strings) :
    m.deref a.target a.event.path = some a.path := by
  obtain ⟨s, hpath⟩ := h.argument
  rw [hpath]
  exact h.string

/-- The string of one target does not matter to the others. -/
theorem Ack.Held.update {strings : TargetId → Option CStr} {a : Ack} (h : a.Held strings)
    {target : TargetId} (hne : a.target ≠ target) (o : Option CStr) :
    a.Held (Function.update strings target o) :=
  ⟨h.argument, (Function.update_of_ne hne _ _).trans h.string⟩

/-- The events a visit of the observer appended to the history of its target. -/
def Visit.appended (v : Visit) : List FsTargetEvent :=
  match v.done with
  | none => []
  | some done => done.events.items.drop v.events.items.length

@[simp] theorem Visit.appended_tracked (node : List ℕ) (path : CStr)
    (events : Records FsTargetEvent) (done : Tracked) :
    Visit.appended ⟨node, path, events, some done⟩ =
      done.events.items.drop events.items.length := rfl

/-- Every event appended so far still leads to the path it was detected under. -/
structure StillRead (m : Memory) : Prop where
  acks : ∀ a ∈ m.acks, m.deref a.target a.event.path = some a.path
  visits : ∀ v ∈ m.obs.log, ∀ e ∈ v.appended, m.deref v.node e.path = some v.path

/-! ### Calls -/

/-- A call made while a snapshot is taken: a string comes into being for a target (an
operand, or what `attach` returns), `basename` modifies it, the history of the target is begun
with it, and what `attach` returned is freed. -/
inductive CreateCall
  | receive (target : TargetId) (path : CStr)
  | basename (target : TargetId)
  | eventInit (target : TargetId) (st : Stat) (now : UInt64)
  | free (target : TargetId)

/-- What such a call does to the memory. -/
def CreateCall.perform : CreateCall → Memory → Option Memory
  | .receive target path, m =>
    some { m with strings := Function.update m.strings target (some path) }
  | .basename target, m =>
    (m.strings target).map fun path =>
      { m with strings := Function.update m.strings target (some (basenameCut path)) }
  | .eventInit target st now, m =>
    (m.strings target).map fun path =>
      { m with acks := m.acks ++ [⟨target, ackEvent path st now, path⟩] }
  | .free target, m => some { m with strings := Function.update m.strings target none }

mutual

/-- The calls of `fs_target_create`, for a target that has received its path. -/
def createScript (clock : CStr → UInt64) (target : TargetId) (path : CStr) :
    FsNode → List CreateCall
  | .node given lstat entries =>
    let (_, st) := sysLstatExec given .zeroed
    .basename target ::
      let path := basenameCut path
      match lstat with
      | .error _ => []
      | .ok st' => .eventInit target st' (clock path) ::
          if filetype st.mode = .directory then handleScript clock target path entries else []

/-- The calls of `handle_children`. -/
def handleScript (clock : CStr → UInt64) (target : TargetId) (path : CStr) :
    Option (List (EntryName × FsNode)) → List CreateCall
  | none => []
  | some entries => entriesScript clock target path 0 entries

/-- The calls of its loop over the entries. The child is the one with index `i`, if a target
is created for it. -/
def entriesScript (clock : CStr → UInt64) (target : TargetId) (path : CStr) (i : ℕ) :
    List (EntryName × FsNode) → List CreateCall
  | [] => []
  | (name, node) :: entries =>
    if visible name then
      .receive (target ++ [i]) (attach path name) ::
        (createScript clock (target ++ [i]) (attach path name) node ++
          .free (target ++ [i]) ::
            entriesScript clock target path (if node.found then i + 1 else i) entries)
    else entriesScript clock target path i entries

end

section Create

variable {clock : CStr → UInt64} {target : TargetId} {path : CStr} {m m' : Memory}

/-- The calls of `fs_target_create`, by the second answer of `lstat`. -/
theorem createScript_error (given : LstatResult) (e : Errno)
    (entries : Option (List (EntryName × FsNode))) :
    createScript clock target path (.node given (.error e) entries) = [.basename target] := by
  rw [createScript, sysLstatExec_eq]

theorem createScript_ok (given : LstatResult) (st : Stat)
    (entries : Option (List (EntryName × FsNode))) :
    createScript clock target path (.node given (.ok st) entries) =
      .basename target :: .eventInit target st (clock (basenameCut path)) ::
        if filetype (givenStat given).mode = .directory
        then handleScript clock target (basenameCut path) entries else [] := by
  rw [createScript, sysLstatExec_eq]

/-- The first call is that of `basename`. -/
theorem createScript_eq (n : FsNode) :
    createScript clock target path n =
      .basename target :: (createScript clock target path n).tail := by
  obtain ⟨given, lstat, entries⟩ := n
  cases lstat with
  | error e => rw [createScript_error, List.tail_cons]
  | ok st => rw [createScript_ok, List.tail_cons]

/-- It modifies the string that was received. -/
theorem run_createScript {n : FsNode} (hpath : m.strings target = some path) :
    run CreateCall.perform (createScript clock target path n) m =
      run CreateCall.perform (createScript clock target path n).tail
        { m with strings := Function.update m.strings target (some (basenameCut path)) } := by
  have hcut : CreateCall.perform (.basename target) m =
      some { m with strings := Function.update m.strings target (some (basenameCut path)) } := by
    rw [CreateCall.perform, hpath, Option.map_some]
  rw [createScript_eq, run_cons, hcut, Option.bind_some, List.tail_cons]

/-- The states these calls pass. -/
theorem passes_createScript {n : FsNode} (hpath : m.strings target = some path)
    (h : Passes CreateCall.perform (createScript clock target path n) m m') :
    m' = m ∨ Passes CreateCall.perform (createScript clock target path n).tail
      { m with strings := Function.update m.strings target (some (basenameCut path)) } m' := by
  rw [createScript_eq] at h
  rcases passes_cons.mp h with hfirst | ⟨m₁, hcut, hrest⟩
  · exact .inl hfirst
  · rw [CreateCall.perform, hpath, Option.map_some] at hcut
    cases hcut
    exact .inr hrest

/-- Nothing below a target has a string. -/
def Bare (m : Memory) (target : TargetId) : Prop :=
  ∀ j q, m.strings (target ++ j :: q) = none

/-- A string for a child leaves everything below the child without one. -/
theorem bare_child {m : Memory} (h : Bare m target) (i : ℕ) (s : Option CStr) :
    Bare { m with strings := Function.update m.strings (target ++ [i]) s } (target ++ [i]) := by
  intro j q
  rw [List.append_assoc, List.singleton_append]
  have hne : target ++ i :: j :: q ≠ target ++ [i] := by simp
  exact (Function.update_of_ne hne _ _).trans (h i (j :: q))

/-- One entry of the loop, if it is visible: its string is there while its target is
created. -/
theorem entriesScript_visible {name : EntryName} (hvis : visible name = true) (node : FsNode)
    (entries : List (EntryName × FsNode)) (i : ℕ) :
    entriesScript clock target path i ((name, node) :: entries) =
      .receive (target ++ [i]) (attach path name) ::
        (createScript clock (target ++ [i]) (attach path name) node ++
          .free (target ++ [i]) ::
            entriesScript clock target path (if node.found then i + 1 else i) entries) := by
  rw [entriesScript, if_pos hvis]

/-- The loop over the entries frees what it allocates, if the calls for each entry do. -/
theorem strings_of_entries {entries : List (EntryName × FsNode)}
    (h : ∀ e ∈ entries, ∀ {target : TargetId} {path : CStr} {m m' : Memory}, Bare m target →
      m.strings target = some path →
      run CreateCall.perform (createScript clock target path e.2) m = some m' →
      m'.strings = Function.update m.strings target (some (basenameCut path))) {i : ℕ}
    (hbare : Bare m target)
    (hrun : run CreateCall.perform (entriesScript clock target path i entries) m = some m') :
    m'.strings = m.strings := by
  induction entries generalizing i m with
  | nil =>
      cases hrun
      rfl
  | cons e entries ih =>
      obtain ⟨name, node⟩ := e
      simp only [List.mem_cons, forall_eq_or_imp] at h
      by_cases hvis : visible name = true
      · rw [entriesScript_visible hvis] at hrun
        obtain ⟨m₁, hreceive, hrun⟩ := Option.bind_eq_some_iff.mp hrun
        rw [run_append] at hrun
        obtain ⟨m₂, hcreate, hrun⟩ := Option.bind_eq_some_iff.mp hrun
        obtain ⟨m₃, hfree, hrun⟩ := Option.bind_eq_some_iff.mp hrun
        cases hreceive
        cases hfree
        have hchild := h.1 (bare_child hbare i _) (Function.update_self _ _ _) hcreate
        have hback : Function.update m₂.strings (target ++ [i]) none = m.strings := by
          rw [hchild, Function.update_idem, Function.update_idem, ← hbare i [],
            Function.update_eq_self]
        have hrest := ih h.2 (m := { m₂ with
          strings := Function.update m₂.strings (target ++ [i]) none })
          (by intro j q; exact (congrFun hback _).trans (hbare j q)) hrun
        exact hrest.trans hback
      · rw [entriesScript, if_neg hvis] at hrun
        exact ih h.2 hbare hrun

/-- **A snapshot frees what it allocates**: once it is taken, only the strings that were there
before are there, and that of its root is what `basename` leaves. -/
theorem strings_of_create {n : FsNode} (hbare : Bare m target)
    (hpath : m.strings target = some path)
    (hrun : run CreateCall.perform (createScript clock target path n) m = some m') :
    m'.strings = Function.update m.strings target (some (basenameCut path)) := by
  induction n using FsNode.induction generalizing target path m m' with
  | hnode given lstat entries ih =>
      rw [run_createScript hpath] at hrun
      cases lstat with
      | error e =>
          rw [createScript_error] at hrun
          cases hrun
          rfl
      | ok st =>
          rw [createScript_ok] at hrun
          obtain ⟨m₁, hinit, hrun⟩ := Option.bind_eq_some_iff.mp hrun
          obtain ⟨s, -, rfl⟩ := Option.map_eq_some_iff.mp hinit
          by_cases hdir : filetype (givenStat given).mode = .directory
          · rw [if_pos hdir] at hrun
            cases entries with
            | none =>
                cases hrun
                rfl
            | some entries =>
                rw [handleScript] at hrun
                exact @strings_of_entries _ _ _ { m with
                    strings := Function.update m.strings target (some (basenameCut path))
                    acks := m.acks ++ [⟨target, ackEvent s st (clock (basenameCut path)), s⟩] }
                  _ _ (fun e he _ _ _ _ hbare hpath hrun => ih entries rfl e he hbare hpath hrun)
                  _ (fun j q => (Function.update_of_ne (by simp) _ _).trans (hbare j q)) hrun
          · rw [if_neg hdir] at hrun
            cases hrun
            rfl

/-- The calls of a snapshot leave the observer alone. -/
theorem obs_of_create {c : CreateCall} (h : c.perform m = some m') : m'.obs = m.obs := by
  cases c with
  | receive id path | free id =>
      cases h
      rfl
  | basename id | eventInit id st now =>
      obtain ⟨_, -, rfl⟩ := Option.map_eq_some_iff.mp h
      rfl

/-- Acknowledgements are kept. -/
theorem acks_of_create {c : CreateCall} (h : c.perform m = some m') {a : Ack} (ha : a ∈ m.acks) :
    a ∈ m'.acks := by
  cases c with
  | receive id path | free id =>
      cases h
      exact ha
  | basename id =>
      obtain ⟨_, -, rfl⟩ := Option.map_eq_some_iff.mp h
      exact ha
  | eventInit id st now =>
      obtain ⟨_, -, rfl⟩ := Option.map_eq_some_iff.mp h
      exact List.mem_append_left _ ha

end Create

/-! ### The service -/

/-- A call of the service that the events depend on. -/
inductive WatchCall
  | create (c : CreateCall)
  | observe (env : Environment) (c : ObsCall)

/-- What it does to the memory. -/
def WatchCall.perform : WatchCall → Memory → Option Memory
  | .create c, m => c.perform m
  | .observe env c, m => (c.perform env m.obs).map fun obs => { m with obs := obs }

/-- A call of the observer works on its part of the memory. -/
theorem perform_observe (env : Environment) (m : Memory) (c : ObsCall) (obs : ObsSt) :
    WatchCall.perform (.observe env c) { m with obs := obs } =
      (c.perform env obs).map fun obs => { m with obs := obs } := rfl

theorem run_observe (env : Environment) (calls : List ObsCall) (m : Memory) :
    run WatchCall.perform (calls.map (.observe env)) m =
      (run (ObsCall.perform env) calls m.obs).map fun obs => { m with obs := obs } :=
  run_map (perform_observe env m)

/-- The states that the calls of a traversal pass. -/
theorem passes_observe {env : Environment} {calls : List ObsCall} {m m' : Memory} :
    Passes WatchCall.perform (calls.map (.observe env)) m m' ↔
      ∃ obs, m' = { m with obs := obs } ∧ Passes (ObsCall.perform env) calls m.obs obs :=
  passes_map (perform_observe env m)

/-- A call of a snapshot works on all of it. -/
theorem perform_create (c : CreateCall) (m : Memory) :
    WatchCall.perform (.create c) (id m) = (c.perform m).map id := by
  simp [WatchCall.perform]

theorem run_create (calls : List CreateCall) (m : Memory) :
    run WatchCall.perform (calls.map .create) m = run CreateCall.perform calls m := by
  have hmap : run WatchCall.perform (calls.map .create) (id m) =
      (run CreateCall.perform calls m).map id := run_map perform_create
  rwa [Option.map_id] at hmap

/-- The states that the calls of a snapshot pass. -/
theorem passes_create {calls : List CreateCall} {m m' : Memory} :
    Passes WatchCall.perform (calls.map .create) m m' ↔ Passes CreateCall.perform calls m m' := by
  have hmap : Passes WatchCall.perform (calls.map .create) (id m) m' ↔
      ∃ m₁, m' = id m₁ ∧ Passes CreateCall.perform calls m m₁ := passes_map perform_create
  simpa using hmap

/-- The service: the targets in `fp`, the index of the one to be observed next once the
snapshots are taken, and the memory. -/
structure WatchSt where
  targets : List FsTarget
  next : Option ℕ
  mem : Memory

/-- The service before the first snapshot. -/
def WatchSt.start : WatchSt :=
  { targets := [], next := none
    mem := { strings := fun _ => none, acks := [], obs := ⟨.empty, []⟩ } }

/-- The index of the next target. -/
def WatchSt.turn (s : WatchSt) : ℕ := s.next.getD 0

/-- A step of the service: `service_init` takes a snapshot, or a round of `service` comes to
the next target. -/
inductive WatchStep
  | snapshot (clock : CStr → UInt64) (path : CStr) (n : FsNode)
  | observe (env : Environment)

/-- The calls of a step. -/
def WatchStep.calls (s : WatchSt) : WatchStep → List WatchCall
  | .snapshot clock path n =>
    (.receive [s.targets.length] path :: createScript clock [s.targets.length] path n).map .create
  | .observe env =>
    match s.targets[s.turn]? with
    | none => []
    | some t => (observeScript [s.turn] t).map (.observe env)

/-- One step of the service. A target that is not `NULL` is kept. -/
def watchStep (s : WatchSt) : WatchStep → Option (Unit × WatchSt)
  | .snapshot clock path n => do
    let mem ← run WatchCall.perform (WatchStep.calls s (.snapshot clock path n)) s.mem
    let t := fsTargetCreate clock path n
    return ((), { s with targets := if t.NotNull then s.targets ++ [t] else s.targets, mem := mem })
  | .observe env => do
    let t ← s.targets[s.turn]?
    let (_, t, obs) ← fsTargetObserve env [s.turn] t s.mem.obs
    return ((), {
      targets := s.targets.set s.turn t
      next := some ((s.turn + 1) % s.targets.length)
      mem := { s.mem with obs := obs } })

/-- The service: snapshots first, and then, if there are any, one target after the other. -/
def watchMachine : Machine WatchSt WatchStep Unit where
  Admits s
    | .snapshot _ _ _ => s.next = none
    | .observe _ => s.targets ≠ []
  step := watchStep

/-- The memory at some moment of a step: before one of its calls, or at its end. -/
def Moment (s : WatchSt) (i : WatchStep) (m : Memory) : Prop :=
  Passes WatchCall.perform (i.calls s) s.mem m

/-- The calls of a step do what the step does. -/
theorem run_calls {s s' : WatchSt} {i : WatchStep} (h : watchStep s i = some ((), s')) :
    run WatchCall.perform (i.calls s) s.mem = some s'.mem := by
  cases i with
  | snapshot clock path n =>
      obtain ⟨m, hrun, h⟩ := Option.bind_eq_some_iff.mp h
      cases h
      exact hrun
  | observe env =>
      obtain ⟨t, ht, h⟩ := Option.bind_eq_some_iff.mp h
      obtain ⟨⟨b, t', obs⟩, hobserve, h⟩ := Option.bind_eq_some_iff.mp h
      cases h
      have hscript := observe_eq_script env [s.turn] t s.mem.obs
      rw [hobserve, Option.map_some] at hscript
      simp only [WatchStep.calls, ht]
      rw [run_observe, ← hscript, Option.map_some]

/-- The memory once the root of the next snapshot has its path. -/
def WatchSt.received (s : WatchSt) (path : CStr) : Memory :=
  { s.mem with strings := Function.update s.mem.strings [s.targets.length] (some path) }

/-- Nothing is below the roots, with the path of a new root too. -/
theorem bare_received {s : WatchSt} {j : ℕ} (h : Bare s.mem [j]) (path : CStr) :
    Bare (s.received path) [j] := by
  intro i q
  exact (Function.update_of_ne (by simp) _ _).trans (h i q)

/-- The calls of a snapshot are those of `fs_target_create`, once the path is there. -/
theorem run_snapshot (s : WatchSt) (clock : CStr → UInt64) (path : CStr) (n : FsNode) :
    run WatchCall.perform (WatchStep.calls s (.snapshot clock path n)) s.mem =
      run CreateCall.perform (createScript clock [s.targets.length] path n) (s.received path) := by
  rw [WatchStep.calls, run_create]
  rfl

/-- The root of a snapshot has received its path. -/
theorem strings_received (s : WatchSt) (path : CStr) :
    (s.received path).strings [s.targets.length] = some path := Function.update_self _ _ _

/-- What is left of the path of a new root is the string the root could have received. -/
theorem received_basenameCut (s : WatchSt) (path : CStr) :
    { s.received path with
      strings := Function.update (s.received path).strings [s.targets.length]
        (some (basenameCut path)) } = s.received (basenameCut path) := by
  simp only [WatchSt.received, Function.update_idem]

/-- What a snapshot comes to. -/
theorem of_snapshot_step {s s' : WatchSt} {clock : CStr → UInt64} {path : CStr} {n : FsNode}
    (hstep : watchStep s (.snapshot clock path n) = some ((), s')) :
    run CreateCall.perform (createScript clock [s.targets.length] path n) (s.received path) =
      some s'.mem ∧
    s'.targets = if (fsTargetCreate clock path n).NotNull then
      s.targets ++ [fsTargetCreate clock path n] else s.targets := by
  obtain ⟨m, hrun, h⟩ := Option.bind_eq_some_iff.mp hstep
  cases h
  exact ⟨(run_snapshot s clock path n).symm.trans hrun, rfl⟩

/-- A snapshot leaves the string of its root, as `basename` left it. -/
theorem strings_of_snapshot {s s' : WatchSt} {clock : CStr → UInt64} {path : CStr} {n : FsNode}
    (hbare : Bare s.mem [s.targets.length])
    (hstep : watchStep s (.snapshot clock path n) = some ((), s')) :
    s'.mem.strings = (s.received (basenameCut path)).strings := by
  have hrun := (of_snapshot_step hstep).1
  rw [strings_of_create (bare_received hbare path) (strings_received s path) hrun,
    WatchSt.received, WatchSt.received, Function.update_idem]

/-- What a traversal of the next target comes to. -/
theorem of_observe_step {s s' : WatchSt} {env : Environment}
    (hstep : watchStep s (.observe env) = some ((), s')) :
    ∃ t t' b st, s.targets[s.turn]? = some t ∧
      fsTargetObserve env [s.turn] t s.mem.obs = some (b, t', st) ∧
      run (ObsCall.perform env) (observeScript [s.turn] t) s.mem.obs = some st ∧
      s'.targets = s.targets.set s.turn t' ∧ s'.mem = { s.mem with obs := st } := by
  obtain ⟨t, ht, hstep⟩ := Option.bind_eq_some_iff.mp hstep
  obtain ⟨⟨b, t', st⟩, hobserve, hstep⟩ := Option.bind_eq_some_iff.mp hstep
  cases hstep
  refine ⟨t, t', b, st, ht, hobserve, ?_, rfl, rfl⟩
  rw [← observe_eq_script, hobserve, Option.map_some]

end Backd
