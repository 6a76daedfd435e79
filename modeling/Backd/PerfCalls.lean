import Backd.Daemon
import Backd.Library.StraightLine

/-!
# What the Counters Count

`perf.c` and the macros of `fs_target.h`: counters for the calls of `lstat`, `opendir`,
`readdir` and `closedir`, for rounds, events and targets. A destructor reports them at exit.

What is counted is listed here in its order (`PerfCall`), with the path where there is one; the
counters are what the list comes to. The same list tells what becomes of the directory streams:
at any time, those are open that belong to the directories on the way from the root of a
snapshot down to where it is being taken.

## Conventions

The functions with `Calls` in their names are those of the source again, with nothing left in
them but what is counted, and what that depends on. The visits of a round are those its log
has. A counter is a `size_t` and wraps around.

## Main results

* `perfTracking_get`: a counter is the number of its calls in the list.
* `create_streams`: taking a snapshot closes the streams it opens, and which are open meanwhile.
* `streams_follow_walk`: so it is over the whole run of the service.
-/

namespace Backd

open StraightLine

/-! ### Counters -/

/-- What a counter is incremented for. The path of `readdir` is that of its stream, and its
entry is what it returned. -/
inductive PerfCall
  | stat (path : CStr)
  | opendir (path : CStr) (opened : Bool)
  | readdir (path : CStr) (entry : Option EntryName)
  | closedir (path : CStr)
  | rounds
  | events
  | target

/-- The counters. -/
inductive Counter
  | nStat
  | nOpendir
  | nReaddir
  | nClosedir
  | nRounds
  | nEvents
  | nTarget
  deriving DecidableEq

/-- Which counter is incremented. -/
def PerfCall.counter : PerfCall → Counter
  | .stat _ => .nStat
  | .opendir _ _ => .nOpendir
  | .readdir _ _ => .nReaddir
  | .closedir _ => .nClosedir
  | .rounds => .nRounds
  | .events => .nEvents
  | .target => .nTarget

/-- `perf_tracking_info_t`. -/
structure PerfTrackingInfo where
  nStat : UInt64
  nOpendir : UInt64
  nClosedir : UInt64
  nReaddir : UInt64
  nRounds : UInt64
  nEvents : UInt64
  nTarget : UInt64

/-- `__perf_tracking_info__`, as it is initialized. -/
def PerfTrackingInfo.zeroed : PerfTrackingInfo :=
  { nStat := 0, nOpendir := 0, nClosedir := 0, nReaddir := 0, nRounds := 0, nEvents := 0,
    nTarget := 0 }

/-- The macros `__perf_track_..._inc`. -/
def PerfTrackingInfo.inc (info : PerfTrackingInfo) : Counter → PerfTrackingInfo
  | .nStat => { info with nStat := info.nStat + 1 }
  | .nOpendir => { info with nOpendir := info.nOpendir + 1 }
  | .nReaddir => { info with nReaddir := info.nReaddir + 1 }
  | .nClosedir => { info with nClosedir := info.nClosedir + 1 }
  | .nRounds => { info with nRounds := info.nRounds + 1 }
  | .nEvents => { info with nEvents := info.nEvents + 1 }
  | .nTarget => { info with nTarget := info.nTarget + 1 }

/-- The counters after these calls. -/
def perfTracking (calls : List PerfCall) : PerfTrackingInfo :=
  calls.foldl (fun info c => info.inc c.counter) .zeroed

/-- What a counter says. -/
def PerfTrackingInfo.get (info : PerfTrackingInfo) : Counter → UInt64
  | .nStat => info.nStat
  | .nOpendir => info.nOpendir
  | .nReaddir => info.nReaddir
  | .nClosedir => info.nClosedir
  | .nRounds => info.nRounds
  | .nEvents => info.nEvents
  | .nTarget => info.nTarget

/-- The counters are what they say. -/
theorem PerfTrackingInfo.eq_of_get {info info' : PerfTrackingInfo}
    (h : ∀ k, info.get k = info'.get k) : info = info' := by
  obtain ⟨_, _, _, _, _, _, _⟩ := info
  obtain ⟨_, _, _, _, _, _, _⟩ := info'
  rw [mk.injEq]
  exact ⟨h .nStat, h .nOpendir, h .nClosedir, h .nReaddir, h .nRounds, h .nEvents, h .nTarget⟩

/-- How many of the calls a counter counts. -/
def tally (k : Counter) (calls : List PerfCall) : ℕ := calls.countP fun c => c.counter = k

theorem tally_append (k : Counter) (calls calls' : List PerfCall) :
    tally k (calls ++ calls') = tally k calls + tally k calls' := List.countP_append

theorem tally_cons (k : Counter) (c : PerfCall) (calls : List PerfCall) :
    tally k (c :: calls) = (if c.counter = k then 1 else 0) + tally k calls := by
  rw [tally, tally, List.countP_cons, Nat.add_comm]
  simp

theorem PerfTrackingInfo.get_inc (info : PerfTrackingInfo) (k k' : Counter) :
    (info.inc k').get k = info.get k + if k' = k then 1 else 0 := by
  cases k <;> cases k' <;> simp [inc, get]

/-- **A counter** is the number of its calls. -/
theorem perfTracking_get (k : Counter) (calls : List PerfCall) :
    (perfTracking calls).get k = UInt64.ofNat (tally k calls) := by
  have hfold : ∀ info : PerfTrackingInfo,
      (calls.foldl (fun info c => info.inc c.counter) info).get k =
        info.get k + UInt64.ofNat (tally k calls) := by
    induction calls with
    | nil => exact fun info => (UInt64.add_zero _).symm
    | cons c calls ih =>
        intro info
        rw [List.foldl_cons, ih, PerfTrackingInfo.get_inc, tally_cons, UInt64.ofNat_add,
          UInt64.add_assoc]
        congr 2
        split <;> rfl
  have hzero : PerfTrackingInfo.zeroed.get k = 0 := by cases k <;> rfl
  rw [perfTracking, hfold, hzero, UInt64.zero_add]

/-! ### What is counted -/

mutual

/-- `fs_target_create`. -/
def fsTargetCreateCalls (path : CStr) : FsNode → List PerfCall
  | .node given lstat entries =>
    let (found, st) := sysLstatExec given .zeroed
    .stat path ::
      if !found then []
      else
        let finfo := fsTargetSetInfo path st
        let path := basenameCut path
        .stat path ::
          match fsTargetEventInit path lstat 0 with
          | none => []
          | some _ =>
            .events :: (if finfo.type = .directory then handleChildrenCalls path entries
              else []) ++ [.target]

/-- `handle_children`. -/
def handleChildrenCalls (path : CStr) : Option (List (EntryName × FsNode)) → List PerfCall
  | none => [.opendir path false]
  | some entries => .opendir path true :: readEntriesCalls path entries ++ [.closedir path]

/-- The loop of `handle_children` over the entries. -/
def readEntriesCalls (path : CStr) : List (EntryName × FsNode) → List PerfCall
  | [] => [.readdir path none]
  | (name, node) :: entries =>
    .readdir path (some name) ::
      (if visible name then fsTargetCreateCalls (attach path name) node else []) ++
        readEntriesCalls path entries

end

/-- `target_event_detect`. -/
def targetEventDetectCalls (path : CStr) (r : Round) (previous : FsTargetEvent) :
    List PerfCall :=
  .stat path ::
    match fileStat r.lstat .zeroed with
    | (.ok, sb) => if cmpStat sb previous.st ≠ 0 then [.events] else []
    | (.eaccess, _) | (.enoent, _) | (.eother, _) => [.events]

/-- `fs_target_event_track`. -/
def fsTargetEventTrackCalls (path : CStr) (r : Round) (events : Records FsTargetEvent) :
    List PerfCall :=
  match fsTargetLatestEvent events with
  | none => []
  | some previous => targetEventDetectCalls path r previous

/-- What a call of `fs_target_event_track` counts shows in what it did. -/
def Tracked.calls (path : CStr) (done : Tracked) : List PerfCall :=
  match done.detected with
  | none => []
  | some n => .stat path :: if n ≠ 0 then [.events] else []

/-- What a visit counts. -/
def Visit.counted (v : Visit) : List PerfCall :=
  match v.done with
  | none => []
  | some done => done.calls v.path

/-- **Tracking** counts what shows in what it did. -/
theorem fsTargetEventTrackCalls_eq (path : CStr) (r : Round) (events : Records FsTargetEvent) :
    fsTargetEventTrackCalls path r events = (fsTargetEventTrack r events).calls path := by
  rw [fsTargetEventTrackCalls, fsTargetLatestEvent_eq]
  cases hlast : events.items.getLast? with
  | none => simp [fsTargetEventTrack, fsTargetLatestEvent_eq, hlast, Tracked.calls]
  | some previous =>
      have hdetected := (fsTargetEventTrack_detect (r := r) hlast).2.1
      have hrecord : ∀ event, (recordEvent r events event).1 ≠ 0 := by
        intro event
        rcases recordEvent_cases r events event with ⟨cap, hrec⟩ | hrec <;> simp [hrec]
      rw [Tracked.calls, hdetected]
      cases hst : r.lstat with
      | ok st =>
          rw [targetEventDetect_ok hst]
          by_cases hagree : st.Agrees previous.st
          · simp [targetEventDetectCalls, hst, fileStat, cmpStat_eq, hagree]
          · simp [targetEventDetectCalls, hst, fileStat, cmpStat_eq, hagree, changeMask_ne_zero,
              hrecord]
      | error e =>
          rw [targetEventDetect_error hst]
          cases e <;> simp [targetEventDetectCalls, hst, fileStat, hrecord]

section Create

variable {path : CStr}

/-- **`fs_target_create`**, by the second answer of `lstat`. -/
theorem fsTargetCreateCalls_error (given : LstatResult) (e : Errno)
    (entries : Option (List (EntryName × FsNode))) :
    fsTargetCreateCalls path (.node given (.error e) entries) =
      [.stat path, .stat (basenameCut path)] := by
  rw [fsTargetCreateCalls, sysLstatExec_eq]
  rfl

theorem fsTargetCreateCalls_ok (given : LstatResult) (st : Stat)
    (entries : Option (List (EntryName × FsNode))) :
    fsTargetCreateCalls path (.node given (.ok st) entries) =
      .stat path :: .stat (basenameCut path) :: .events ::
        ((if filetype (givenStat given).mode = .directory
          then handleChildrenCalls (basenameCut path) entries else []) ++ [.target]) := by
  rw [fsTargetCreateCalls, sysLstatExec_eq]
  rfl

end Create

/-! ### Directory streams -/

/-- A directory stream that is open, and whether it was read to its end. -/
structure Stream where
  path : CStr
  ended : Bool
  deriving DecidableEq

/-- What a call does to the streams that are open, the innermost first. It is stuck if it reads
or closes another stream than the innermost, reads behind its end, or closes it earlier. -/
def streamStep : PerfCall → List Stream → Option (List Stream)
  | .opendir path opened, streams => some (if opened then ⟨path, false⟩ :: streams else streams)
  | .readdir path entry, stream :: streams =>
    if stream = ⟨path, false⟩ then some (⟨path, entry.isNone⟩ :: streams) else none
  | .closedir path, stream :: streams => if stream = ⟨path, true⟩ then some streams else none
  | .readdir _ _, [] | .closedir _, [] => none
  | .stat _, streams | .rounds, streams | .events, streams | .target, streams => some streams

/-- The streams that are open while the snapshot of a file system is taken: those of the
directories on the way to where it is. -/
inductive OnTheWay : CStr → FsNode → List Stream → Prop
  | outside {path : CStr} {n : FsNode} : OnTheWay path n []
  | reading {path : CStr} {given : LstatResult} {st : Stat}
      {entries : List (EntryName × FsNode)} (ended : Bool) :
      filetype (givenStat given).mode = .directory →
      OnTheWay path (.node given (.ok st) (some entries)) [⟨basenameCut path, ended⟩]
  | inside {path : CStr} {given : LstatResult} {st : Stat}
      {entries : List (EntryName × FsNode)} {e : EntryName × FsNode} {streams : List Stream} :
      filetype (givenStat given).mode = .directory → e ∈ entries → visible e.1 = true →
      OnTheWay (attach (basenameCut path) e.1) e.2 streams →
      OnTheWay path (.node given (.ok st) (some entries))
        (streams ++ [⟨basenameCut path, false⟩])

/-- A program in two parts passes the states of the first, and those of the second from where
the first ends. -/
theorem passes_append {ι σ : Type*} {step : ι → σ → Option σ} {cs ds : List ι} {s s' m : σ}
    (h : run step cs s = some s') :
    Passes step (cs ++ ds) s m ↔ Passes step cs s m ∨ Passes step ds s' m := by
  induction cs generalizing s with
  | nil =>
      cases h
      rw [List.nil_append, passes_nil]
      constructor
      · exact .inr
      · rintro (rfl | h)
        · cases ds with
          | nil => exact passes_nil.mpr rfl
          | cons d ds => exact passes_cons.mpr (.inl rfl)
        · exact h
  | cons c cs ih =>
      obtain ⟨s₁, hfirst, h⟩ := Option.bind_eq_some_iff.mp h
      rw [List.cons_append, passes_cons, passes_cons, or_assoc]
      simp only [hfirst, Option.some.injEq, exists_eq_left', ih h]

/-- The calls close the streams they open, and pass these with others open around them. -/
def Walks (calls : List PerfCall) (Q : List Stream → Prop) : Prop :=
  ∀ s, run streamStep calls s = some s ∧
    ∀ m, Passes streamStep calls s m ↔ ∃ streams, Q streams ∧ m = streams ++ s

theorem walks_nil : Walks [] fun streams => streams = [] := by
  refine fun s => ⟨rfl, fun m => ?_⟩
  rw [passes_nil]
  simp

section Walks

variable {calls calls' : List PerfCall} {Q Q' : List Stream → Prop}

theorem Walks.congr (h : Walks calls Q) (hiff : ∀ streams, Q streams ↔ Q' streams) :
    Walks calls Q' := by
  refine fun s => ⟨(h s).1, fun m => ?_⟩
  rw [(h s).2]
  simp only [hiff]

/-- At first no further stream is open. -/
theorem Walks.outside (h : Walks calls Q) : Q [] := by
  have hstart : Passes streamStep calls [] [] := by
    cases calls with
    | nil => exact passes_nil.mpr rfl
    | cons c calls => exact passes_cons.mpr (.inl rfl)
  obtain ⟨streams, hq, hnil⟩ := ((h []).2 []).mp hstart
  rw [List.append_nil] at hnil
  exact hnil ▸ hq

theorem Walks.append (h : Walks calls Q) (h' : Walks calls' Q') :
    Walks (calls ++ calls') fun streams => Q streams ∨ Q' streams := by
  refine fun s => ⟨by rw [run_append, (h s).1, Option.bind_some, (h' s).1], fun m => ?_⟩
  rw [passes_append (h s).1, (h s).2, (h' s).2]
  constructor
  · rintro (⟨streams, hq, rfl⟩ | ⟨streams, hq, rfl⟩)
    · exact ⟨streams, .inl hq, rfl⟩
    · exact ⟨streams, .inr hq, rfl⟩
  · rintro ⟨streams, hq | hq, rfl⟩
    · exact .inl ⟨streams, hq, rfl⟩
    · exact .inr ⟨streams, hq, rfl⟩

/-- A call that leaves the streams alone. -/
theorem Walks.idle {c : PerfCall} (hidle : ∀ s, streamStep c s = some s) (h : Walks calls Q) :
    Walks (c :: calls) Q := by
  refine fun s => ⟨by rw [run_cons, hidle, Option.bind_some, (h s).1], fun m => ?_⟩
  rw [passes_cons]
  simp only [hidle, Option.some.injEq, exists_eq_left', (h s).2]
  constructor
  · rintro (rfl | hm)
    · exact ⟨[], h.outside, rfl⟩
    · exact hm
  · exact .inr

end Walks

section Create

variable {path : CStr} {entries : List (EntryName × FsNode)}

/-- The loop over the entries reads the stream to its end; the streams it opens meanwhile are
closed before the next entry is read. -/
theorem readEntries_streams
    (h : ∀ e ∈ entries, visible e.1 = true →
      Walks (fsTargetCreateCalls (attach path e.1) e.2) (OnTheWay (attach path e.1) e.2))
    (s : List Stream) :
    run streamStep (readEntriesCalls path entries) (⟨path, false⟩ :: s) =
        some (⟨path, true⟩ :: s) ∧
      ∀ m, Passes streamStep (readEntriesCalls path entries) (⟨path, false⟩ :: s) m ↔
        (∃ ended, m = ⟨path, ended⟩ :: s) ∨ ∃ e ∈ entries, visible e.1 = true ∧
          ∃ streams, OnTheWay (attach path e.1) e.2 streams ∧
            m = streams ++ ⟨path, false⟩ :: s := by
  induction entries with
  | nil =>
      have hread : streamStep (.readdir path none) (⟨path, false⟩ :: s) =
          some (⟨path, true⟩ :: s) := if_pos rfl
      rw [readEntriesCalls]
      refine ⟨by rw [run_cons, hread]; rfl, fun m => ?_⟩
      rw [passes_cons]
      simp [hread, passes_nil]
  | cons e entries ih =>
      obtain ⟨name, node⟩ := e
      rw [List.forall_mem_cons] at h
      obtain ⟨hrun, hpasses⟩ := ih h.2
      have hread : streamStep (.readdir path (some name)) (⟨path, false⟩ :: s) =
          some (⟨path, false⟩ :: s) := if_pos rfl
      rw [readEntriesCalls, List.cons_append]
      by_cases hvis : visible name = true
      · obtain ⟨hchild, hbelow⟩ := h.1 hvis (⟨path, false⟩ :: s)
        rw [if_pos hvis]
        refine ⟨by rw [run_cons, hread, Option.bind_some, run_append, hchild,
          Option.bind_some, hrun], fun m => ?_⟩
        rw [passes_cons]
        simp only [hread, Option.some.injEq, exists_eq_left']
        rw [passes_append hchild, hbelow, hpasses]
        constructor
        · rintro (rfl | hm | hm | ⟨e, he, hm⟩)
          · exact .inl ⟨false, rfl⟩
          · exact .inr ⟨_, List.mem_cons_self, hvis, hm⟩
          · exact .inl hm
          · exact .inr ⟨e, List.mem_cons_of_mem _ he, hm⟩
        · rintro (hm | ⟨e, he, hvise, hm⟩)
          · exact .inr (.inr (.inl hm))
          · rcases List.mem_cons.mp he with rfl | he
            · exact .inr (.inl hm)
            · exact .inr (.inr (.inr ⟨e, he, hvise, hm⟩))
      · rw [if_neg hvis, List.nil_append]
        refine ⟨by rw [run_cons, hread, Option.bind_some, hrun], fun m => ?_⟩
        rw [passes_cons]
        simp only [hread, Option.some.injEq, exists_eq_left', hpasses]
        constructor
        · rintro (rfl | hm | ⟨e, he, hm⟩)
          · exact .inl ⟨false, rfl⟩
          · exact .inl hm
          · exact .inr ⟨e, List.mem_cons_of_mem _ he, hm⟩
        · rintro (hm | ⟨e, he, hvise, hm⟩)
          · exact .inr (.inl hm)
          · rcases List.mem_cons.mp he with rfl | he
            · exact absurd hvise hvis
            · exact .inr (.inr ⟨e, he, hvise, hm⟩)

/-- Behind `opendir`, the children are handled and the stream is closed. -/
theorem handleChildren_streams {given : LstatResult}
    (hdir : filetype (givenStat given).mode = .directory) (st : Stat)
    (h : ∀ e ∈ entries, visible e.1 = true →
      Walks (fsTargetCreateCalls (attach (basenameCut path) e.1) e.2)
        (OnTheWay (attach (basenameCut path) e.1) e.2)) :
    Walks (handleChildrenCalls (basenameCut path) (some entries))
      (OnTheWay path (.node given (.ok st) (some entries))) := by
  intro s
  obtain ⟨hrun, hpasses⟩ := readEntries_streams h s
  have hopen : streamStep (.opendir (basenameCut path) true) s =
      some (⟨basenameCut path, false⟩ :: s) := rfl
  have hclose : streamStep (.closedir (basenameCut path)) (⟨basenameCut path, true⟩ :: s) =
      some s := if_pos rfl
  rw [handleChildrenCalls, List.cons_append]
  refine ⟨by rw [run_cons, hopen, Option.bind_some, run_append, hrun, Option.bind_some,
    run_cons, hclose]; rfl, fun m => ?_⟩
  rw [passes_cons]
  simp only [hopen, Option.some.injEq, exists_eq_left']
  rw [passes_append hrun, hpasses, passes_cons]
  simp only [hclose, Option.some.injEq, exists_eq_left', passes_nil]
  constructor
  · rintro (rfl | (⟨ended, rfl⟩ | ⟨e, he, hvis, streams, hway, rfl⟩) | rfl | rfl)
    · exact ⟨[], .outside, rfl⟩
    · exact ⟨_, .reading ended hdir, rfl⟩
    · exact ⟨_, .inside hdir he hvis hway, by rw [List.append_assoc]; rfl⟩
    · exact ⟨_, .reading true hdir, rfl⟩
    · exact ⟨[], .outside, rfl⟩
  · rintro ⟨streams, hway, rfl⟩
    cases hway with
    | outside => exact .inl rfl
    | reading ended => exact .inr (.inl (.inl ⟨ended, rfl⟩))
    | inside _ he hvis hway =>
        exact .inr (.inl (.inr ⟨_, he, hvis, _, hway, by rw [List.append_assoc]; rfl⟩))

/-- Where no stream is opened, none is on the way. -/
theorem onTheWay_outside {n : FsNode}
    (hleaf : ∀ given st entries, n = .node given (.ok st) (some entries) →
      filetype (givenStat given).mode ≠ .directory) (streams : List Stream) :
    streams = [] ↔ OnTheWay path n streams := by
  constructor
  · rintro rfl
    exact .outside
  · intro hway
    cases hway with
    | outside => rfl
    | reading _ hdir => exact absurd hdir (hleaf _ _ _ rfl)
    | inside hdir => exact absurd hdir (hleaf _ _ _ rfl)

/-- **Taking a snapshot** closes every stream it opens, once it was read to its end. Open
meanwhile are those of the directories on the way, and there is a moment for each way. -/
theorem create_streams (n : FsNode) :
    Walks (fsTargetCreateCalls path n) (OnTheWay path n) := by
  induction n using FsNode.induction generalizing path with
  | hnode given lstat entries ih =>
      cases lstat with
      | error e =>
          rw [fsTargetCreateCalls_error]
          refine (Walks.idle (fun _ => rfl) (Walks.idle (fun _ => rfl) walks_nil)).congr ?_
          exact onTheWay_outside fun given st entries heq => by cases heq
      | ok st =>
          rw [fsTargetCreateCalls_ok]
          refine Walks.idle (fun _ => rfl) (Walks.idle (fun _ => rfl)
            (Walks.idle (fun _ => rfl) ?_))
          have htarget : Walks [.target] fun streams => streams = [] :=
            Walks.idle (fun _ => rfl) walks_nil
          by_cases hdir : filetype (givenStat given).mode = .directory
          · rw [if_pos hdir]
            cases entries with
            | none =>
                refine (Walks.idle (fun _ => rfl) htarget).congr ?_
                exact onTheWay_outside fun given st entries heq => by cases heq
            | some es =>
                have hes := @handleChildren_streams path es given hdir st
                  fun e he _ => ih es rfl e he
                refine (hes.append htarget).congr fun streams => ?_
                exact or_iff_left_of_imp fun hnil => hnil ▸ .outside
          · rw [if_neg hdir]
            refine htarget.congr (onTheWay_outside fun given' st' entries heq => ?_)
            cases heq
            exact hdir

end Create

/-! ### The service -/

section Service

variable {fs : CStr → FsNode} {clock : CStr → UInt64} {env : Environment} {signals : Bool}
  {waits : List Spin} {stack : FileStack} {todo : List Filename} {svc svc' : ServiceSt}
  {obs obs' : ObsSt}

/-- The loop of `service_init`. Nothing is counted any more once `basename` writes to a
literal. -/
def serviceLoopCalls (fs : CStr → FsNode) : ℕ → FileStack → List PerfCall
  | 0, _ => []
  | turns + 1, stack =>
    match filenameStackPop stack with
    | (none, _) => []
    | (some path, stack) =>
      if path.Faults then [.stat path.text]
      else fsTargetCreateCalls path.text (fs path.text) ++ serviceLoopCalls fs turns stack

/-- `service_init`. -/
def serviceInitCalls (fs : CStr → FsNode) (stack : FileStack) : List PerfCall :=
  serviceLoopCalls fs (stack.top + 1) stack

/-- The loop of `service`. A round is counted before the wait that it begins with. -/
def serviceRoundsCalls (env : Environment) :
    List Spin → ServiceSt × ObsSt → Option (List PerfCall)
  | [], _ => none
  | w :: waits, s => do
    let ok ← spin 1000 w
    if ok then do
      let s' ← serviceRound env s
      let calls ← serviceRoundsCalls env waits s'
      return .rounds :: (s'.2.log.drop s.2.log.length).flatMap Visit.counted ++ calls
    else return [.rounds]

/-- What `service` does between `service_init` and `service_deinit`. -/
def serviceLoopsCalls (env : Environment) (signals : Bool) (waits : List Spin)
    (svc : ServiceSt) (obs : ObsSt) : Option (List PerfCall) :=
  if svc.fpIndex = 0 then some []
  else if signals then serviceRoundsCalls env waits (svc, obs)
  else some []

/-- `service`. Nothing is counted in `service_deinit`. -/
def serviceCalls (clock : CStr → UInt64) (fs : CStr → FsNode) (env : Environment)
    (signals : Bool) (waits : List Spin) (stack : FileStack) (obs : ObsSt) :
    Option (List PerfCall) := do
  let svc ← serviceInit (fun path => fsTargetCreate clock path (fs path)) stack
  let calls ← serviceLoopsCalls env signals waits svc obs
  return serviceInitCalls fs stack ++ calls

/-- `service_init` takes a snapshot of every operand on the stack. -/
theorem serviceLoopCalls_eq (hstack : stack.Holds todo.reverse) (hsafe : ∀ f ∈ todo, ¬ f.Faults)
    {turns : ℕ} (hturns : todo.length < turns) :
    serviceLoopCalls fs turns stack = (texts todo).flatMap fun path =>
      fsTargetCreateCalls path (fs path) := by
  induction turns generalizing stack todo with
  | zero => omega
  | succ turns ih =>
      rw [serviceLoopCalls]
      cases todo with
      | nil =>
          rw [hstack.pop_nil]
          rfl
      | cons path todo =>
          rw [List.length_cons] at hturns
          rw [List.reverse_cons] at hstack
          rw [List.forall_mem_cons] at hsafe
          obtain ⟨stack', hpop, hstack'⟩ := hstack.pop
          rw [hpop, texts, List.map_cons, List.flatMap_cons]
          exact (if_neg hsafe.1).trans (congrArg _ (ih hstack' hsafe.2 (by omega)))

theorem serviceInitCalls_eq (hstack : stack.Holds todo.reverse)
    (hsafe : ∀ f ∈ todo, ¬ f.Faults) :
    serviceInitCalls fs stack = (texts todo).flatMap fun path =>
      fsTargetCreateCalls path (fs path) :=
  serviceLoopCalls_eq hstack hsafe (by rw [hstack.top_eq, List.length_reverse]; omega)

/-- The snapshots open the streams on the ways below their paths. -/
theorem init_streams (paths : List CStr) :
    Walks (paths.flatMap fun path => fsTargetCreateCalls path (fs path)) fun streams =>
      streams = [] ∨ ∃ path ∈ paths, OnTheWay path (fs path) streams := by
  induction paths with
  | nil => exact walks_nil.congr fun streams => by simp
  | cons path paths ih =>
      rw [List.flatMap_cons]
      refine ((create_streams (fs path)).append ih).congr fun streams => ?_
      simp only [List.mem_cons, exists_eq_or_imp]
      exact or_left_comm

/-- What the rounds count, when they come to an end. -/
def roundsCalls (rounds : List (List Visit)) : List PerfCall :=
  (rounds.flatMap fun visits => .rounds :: visits.flatMap Visit.counted) ++ [.rounds]

/-- **The rounds** count themselves and the visits their log has. -/
theorem serviceRoundsCalls_eq {s : CStr} (hpath : obs.cur.path = some s)
    (h : serviceRounds env waits (svc, obs) = some (svc', obs')) :
    ∃ rounds, SignalAfter rounds.length waits ∧ obs'.log = obs.log ++ rounds.flatten ∧
      serviceRoundsCalls env waits (svc, obs) = some (roundsCalls rounds) := by
  induction waits generalizing svc obs with
  | nil => cases h
  | cons w waits ih =>
      obtain ⟨ok, hspin, h⟩ := Option.bind_eq_some_iff.mp h
      rw [serviceRoundsCalls, hspin]
      cases ok with
      | false =>
          cases h
          exact ⟨[], signalAfter_zero.mpr ⟨w, waits, rfl, hspin⟩, (List.append_nil _).symm, rfl⟩
      | true =>
          obtain ⟨⟨svc₁, obs₁⟩, hround, hrest⟩ := Option.bind_eq_some_iff.mp h
          obtain ⟨_, _, visits, hround', -, hpath₁, hlog₁, -⟩ :=
            serviceRound_covers env hpath (passable_of_serviceRound hpath hround)
          cases hround.symm.trans hround'
          obtain ⟨rounds, hwaits, hlog', hcalls⟩ := ih hpath₁ hrest
          refine ⟨visits :: rounds, signalAfter_succ.mpr ⟨w, waits, rfl, hspin, hwaits⟩, ?_, ?_⟩
          · rw [hlog', hlog₁, List.flatten_cons, List.append_assoc]
          · simp only [Option.bind_eq_bind, Option.bind_some, if_true, hround, hcalls, hlog₁,
              List.drop_left, roundsCalls, List.flatMap_cons, List.append_assoc]
            rfl

/-- A visit leaves the directories alone. -/
theorem counted_idle (v : Visit) : ∀ c ∈ v.counted, ∀ s, streamStep c s = some s := by
  intro c hc s
  rw [Visit.counted] at hc
  split at hc
  · cases hc
  · rw [Tracked.calls] at hc
    split at hc
    · cases hc
    · rcases List.mem_cons.mp hc with rfl | hc
      · rfl
      · split at hc
        · rw [List.mem_singleton.mp hc]
          rfl
        · cases hc

/-- So do the rounds. -/
theorem walks_rounds (rounds : List (List Visit)) :
    Walks (roundsCalls rounds) fun streams => streams = [] := by
  have hidle : ∀ c ∈ roundsCalls rounds, ∀ s, streamStep c s = some s := by
    intro c hc s
    rcases List.mem_append.mp hc with hc | hc
    · obtain ⟨visits, -, hc⟩ := List.mem_flatMap.mp hc
      rcases List.mem_cons.mp hc with rfl | hc
      · rfl
      · obtain ⟨v, -, hc⟩ := List.mem_flatMap.mp hc
        exact counted_idle v c hc s
    · rw [List.mem_singleton.mp hc]
      rfl
  generalize roundsCalls rounds = calls at hidle
  induction calls with
  | nil => exact walks_nil
  | cons c calls ih =>
      rw [List.forall_mem_cons] at hidle
      exact (ih hidle.2).idle hidle.1

/-- What is counted between `service_init` and `service_deinit`, when it comes to an end. -/
theorem serviceLoopsCalls_eq {create : CStr → FsTarget} {taken : List CStr} {s : CStr}
    (htook : svc.Took create taken) (hpath : obs.cur.path = some s)
    (h : serviceLoops env signals waits svc obs = some (svc', obs')) :
    ∃ rounds, RoundsDue taken signals waits rounds.length ∧
      obs'.log = obs.log ++ rounds.flatten ∧
      serviceLoopsCalls env signals waits svc obs =
        some (if taken ≠ [] ∧ signals = true then roundsCalls rounds else []) := by
  have hempty : svc.fpIndex = 0 ↔ taken = [] := by rw [htook.index, List.length_eq_zero_iff]
  rw [serviceLoops] at h
  rw [serviceLoopsCalls]
  by_cases hgo : taken ≠ [] ∧ signals = true
  · rw [if_neg (mt hempty.mp hgo.1), if_pos hgo.2] at h ⊢
    obtain ⟨rounds, hwaits, hlog, hcalls⟩ := serviceRoundsCalls_eq hpath h
    exact ⟨rounds, by rwa [RoundsDue, if_pos hgo], hlog, by rw [hcalls, if_pos hgo]⟩
  · refine ⟨[], by rw [RoundsDue, if_neg hgo]; rfl, ?_, ?_⟩
    · split at h
      · cases h
        exact (List.append_nil _).symm
      · next hne =>
          rw [if_neg fun hsignals => hgo ⟨mt hempty.mpr hne, hsignals⟩] at h
          cases h
          exact (List.append_nil _).symm
    · rw [if_neg hgo]
      split
      · rfl
      · next hne => exact if_neg fun hsignals => hgo ⟨mt hempty.mpr hne, hsignals⟩

/-- What a service that ends has counted. -/
theorem serviceCalls_eq (hstack : stack.Holds todo.reverse) (hpath : obs.cur.path = some [])
    {buf : StaticBuf} {events : List DeinitEvent}
    (hrun : service (fun path => fsTargetCreate clock path (fs path)) buf env signals waits stack
      obs = some (events, svc', obs')) :
    ∃ rounds, RoundsDue ((texts todo).filter fun path => (fs path).found) signals waits
        rounds.length ∧
      obs'.log = obs.log ++ rounds.flatten ∧
      serviceCalls clock fs env signals waits stack obs =
        some (((texts todo).flatMap fun path => fsTargetCreateCalls path (fs path)) ++
          if ((texts todo).filter fun path => (fs path).found) ≠ [] ∧ signals = true
          then roundsCalls rounds else []) := by
  obtain ⟨svc, hinit, htook⟩ :=
    serviceInit_takes (fun path => fsTargetCreate clock path (fs path)) hstack
      (service_safe hstack hrun)
  rw [created_found] at htook
  obtain ⟨svc₁, hloops, -⟩ := (service_iff hinit).mp hrun
  obtain ⟨rounds, hdue, hlog, hcalls⟩ := serviceLoopsCalls_eq htook hpath hloops
  refine ⟨rounds, hdue, hlog, ?_⟩
  rw [serviceCalls, hinit]
  simp only [Option.bind_eq_bind, Option.bind_some, hcalls,
    serviceInitCalls_eq hstack (service_safe hstack hrun)]
  rfl

/-- **Directory streams over the whole run of the service.** In a run that ends, every stream
that is opened is read to its end and then closed, before another one that was open around it is
read on. Open at the same time are the streams of the directories on the way from an operand
down to where its snapshot is being taken, for every such way at some moment. When the snapshots
are taken none is open, and none is at any moment after that, the rounds included. -/
theorem streams_follow_walk (hstack : stack.Holds todo.reverse)
    (hpath : obs.cur.path = some []) {buf : StaticBuf} {events : List DeinitEvent}
    (hrun : service (fun path => fsTargetCreate clock path (fs path)) buf env signals waits stack
      obs = some (events, svc', obs')) :
    ∃ later,
      serviceCalls clock fs env signals waits stack obs =
        some (serviceInitCalls fs stack ++ later) ∧
      (run streamStep (serviceInitCalls fs stack) [] = some [] ∧
        ∀ m, Passes streamStep (serviceInitCalls fs stack) [] m ↔
          m = [] ∨ ∃ path ∈ texts todo, OnTheWay path (fs path) m) ∧
      (run streamStep later [] = some [] ∧ ∀ m, Passes streamStep later [] m ↔ m = []) := by
  obtain ⟨rounds, -, -, hcalls⟩ := serviceCalls_eq hstack hpath hrun
  have hrounds : Walks (if ((texts todo).filter fun path => (fs path).found) ≠ [] ∧ signals = true
      then roundsCalls rounds else []) fun streams => streams = [] := by
    split
    · exact walks_rounds rounds
    · exact walks_nil
  obtain ⟨hinit, hopen⟩ := @init_streams fs (texts todo) []
  obtain ⟨hlater, hnone⟩ := hrounds []
  rw [← serviceInitCalls_eq hstack (service_safe hstack hrun)] at hcalls hinit hopen
  refine ⟨_, hcalls, ⟨hinit, fun m => ?_⟩, hlater, fun m => ?_⟩
  · rw [hopen]
    simp only [List.append_nil, exists_eq_right']
  · rw [hnone]
    simp only [List.append_nil, exists_eq_right']

end Service

/-- The service is started for the directory `a` with a file in it, and a signal comes in the
second wait. -/
theorem directory_service_ends : ∃ r,
    service (fun path => fsTargetCreate (fun _ => 0) path directoryNode)
      ⟨List.replicate iobufMax 0, List.length_replicate⟩ (fun _ _ => .answered (.error .enoent))
      true twoWaits (filenameStackPush .empty (.argument [⟨97, by decide⟩])) ⟨PathBuf.empty, []⟩ =
        some r := by
  have hstack := FileStack.holds_one (.argument [⟨97, by decide⟩])
  have htaken : created (fun path => fsTargetCreate (fun _ => 0) path directoryNode)
      (texts [.argument [⟨97, by decide⟩]]) = [[⟨97, by decide⟩]] := created_found _
  have hpass : Passable [] (fsTargetCreate (fun _ => 0) [⟨97, by decide⟩] directoryNode) :=
    (@passable_iff_files (fun _ => 0) _ [] [] _ rfl directoryNode_listable).mpr (by decide)
  obtain ⟨trace, htrace, -⟩ := fsTargetDelete_releases
    (@intact_listable (fun _ => 0) [⟨97, by decide⟩] directoryNode rfl directoryNode_listable)
  rw [service_ends_iff hstack PathBuf.path_empty, htaken]
  refine ⟨by decide, ⟨1, ?_, .inr (List.forall_mem_singleton.mpr hpass)⟩,
    List.forall_mem_singleton.mpr ⟨trace, htrace⟩⟩
  rw [RoundsDue, if_pos ⟨List.cons_ne_nil _ _, rfl⟩]
  exact signalAfter_twoWaits

/-- In that run the stream of the directory is open at some moment while the snapshot is taken,
and no stream is in the round and at the end. -/
theorem streams_follow_directory : ∃ later,
    serviceCalls (fun _ => 0) (fun _ => directoryNode) (fun _ _ => .answered (.error .enoent))
      true twoWaits (filenameStackPush .empty (.argument [⟨97, by decide⟩])) ⟨PathBuf.empty, []⟩ =
        some (serviceInitCalls (fun _ => directoryNode)
          (filenameStackPush .empty (.argument [⟨97, by decide⟩])) ++ later) ∧
    Passes streamStep (serviceInitCalls (fun _ => directoryNode)
      (filenameStackPush .empty (.argument [⟨97, by decide⟩]))) [] [⟨[⟨97, by decide⟩], false⟩] ∧
    run streamStep later [] = some [] ∧
    ¬Passes streamStep later [] [⟨[⟨97, by decide⟩], false⟩] := by
  have hstack := FileStack.holds_one (.argument [⟨97, by decide⟩])
  obtain ⟨⟨events, svc, obs⟩, hrun⟩ := directory_service_ends
  obtain ⟨later, hcalls, ⟨-, hopen⟩, hend, hnone⟩ :=
    @streams_follow_walk (fun _ => directoryNode) _ _ _ _ _ _ _ _ _ hstack PathBuf.path_empty _ _
      hrun
  refine ⟨later, hcalls, (hopen _).mpr ?_, hend, fun h => ?_⟩
  · exact .inr ⟨_, List.mem_singleton_self _, .reading false (by decide)⟩
  · cases (hnone _).mp h

end Backd
