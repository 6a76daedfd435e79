import Mathlib.Algebra.BigOperators.Group.List.Basic
import Backd.HistoryLimits
import Backd.PerfCalls

/-!
# The Report at Exit Adds Up

`perf_tracking_report` prints the counters when the program exits. In a run of the service that
ends, and that could list every directory, each of them says what it is named after: how often
`lstat` was asked, how many directories were opened and closed, how many of their entries were
read, how many rounds were begun and targets taken. The events it counts are those that all
histories have at the end, and those that were refused the memory.

## Conventions

`walked` lists the nodes of a file system that `fs_target_create` is called for, found or not,
as the recursion comes to them. What is counted for a node by itself is `FsNode.counts`.

## Main results

* `tally_create`: what taking a snapshot counts, for all counters at once.
* `Posted.trans`, `serviceRounds_posted`: the events of all histories, over whole runs.
* `report_adds_up`: the report of a run of the service.
-/

namespace Backd

/-! ### What a snapshot counts -/

mutual

/-- The nodes that `fs_target_create` is called for. -/
def walked : FsNode → List FsNode
  | .node given (.error e) entries => [.node given (.error e) entries]
  | .node given (.ok st) entries => .node given (.ok st) entries ::
      if filetype (givenStat given).mode = .directory then walkedBelow entries else []

/-- The nodes in a directory, or none if it cannot be opened. -/
def walkedBelow : Option (List (EntryName × FsNode)) → List FsNode
  | none => []
  | some entries => walkedFrom entries

/-- The nodes at the entries of a directory. -/
def walkedFrom : List (EntryName × FsNode) → List FsNode
  | [] => []
  | (name, n) :: entries => (if visible name then walked n else []) ++ walkedFrom entries

end

/-- The node is a directory. -/
def FsNode.isDirectory : FsNode → Bool
  | .node _ (.error _) _ => false
  | .node given (.ok _) _ => filetype (givenStat given).mode = .directory

/-- The entries of a directory that can be opened. -/
def FsNode.listed : FsNode → Option (List (EntryName × FsNode))
  | .node _ (.error _) _ => none
  | .node given (.ok _) entries =>
    if filetype (givenStat given).mode = .directory then entries else none

/-- The node is found, and its type is known. -/
def FsNode.known : FsNode → Bool
  | .node _ (.error _) _ => false
  | .node given (.ok _) _ => filetype (givenStat given).mode ≠ .unknown

/-- What is counted for a node, but not for what is below it. A stream is read once more than
the directory has entries. -/
def FsNode.counts (n : FsNode) : Counter → ℕ
  | .nStat => 2
  | .nOpendir => n.isDirectory.toNat
  | .nReaddir => n.listed.elim 0 fun entries => entries.length + 1
  | .nClosedir => n.listed.isSome.toNat
  | .nRounds => 0
  | .nEvents => n.found.toNat
  | .nTarget => n.found.toNat

/-- The counts of nodes, taken together. -/
def countsOf (k : Counter) (nodes : List FsNode) : ℕ := (nodes.map fun n => n.counts k).sum

theorem countsOf_append (k : Counter) (nodes nodes' : List FsNode) :
    countsOf k (nodes ++ nodes') = countsOf k nodes + countsOf k nodes' := by
  rw [countsOf, List.map_append, List.sum_append, countsOf, countsOf]

theorem countsOf_cons (k : Counter) (n : FsNode) (nodes : List FsNode) :
    countsOf k (n :: nodes) = n.counts k + countsOf k nodes := by
  rw [countsOf, List.map_cons, List.sum_cons, countsOf]

section Create

variable {path : CStr} {k : Counter}

/-- What the loop over the entries counts, if that of each entry is counted. -/
theorem tally_readEntries {entries : List (EntryName × FsNode)}
    (h : ∀ e ∈ entries, ∀ path, tally k (fsTargetCreateCalls path e.2) = countsOf k (walked e.2)) :
    tally k (readEntriesCalls path entries) =
      (if k = .nReaddir then entries.length + 1 else 0) + countsOf k (walkedFrom entries) := by
  induction entries with
  | nil =>
      rw [readEntriesCalls, walkedFrom, tally_cons]
      cases k <;> rfl
  | cons e entries ih =>
      obtain ⟨name, n⟩ := e
      rw [List.forall_mem_cons] at h
      rw [readEntriesCalls, walkedFrom, List.cons_append, tally_cons, tally_append, ih h.2,
        countsOf_append]
      have hchild : tally k (if visible name then fsTargetCreateCalls (attach path name) n
          else []) = countsOf k (if visible name then walked n else []) := by
        split
        · exact h.1 _
        · rfl
      rw [hchild, List.length_cons]
      have hread : (if (PerfCall.readdir path (some name)).counter = k then 1 else 0) =
          if k = .nReaddir then 1 else 0 := by
        cases k <;> rfl
      rw [hread]
      split <;> omega

/-- **What taking a snapshot counts**: what there is to count at each of its nodes. -/
theorem tally_create (k : Counter) (path : CStr) (n : FsNode) :
    tally k (fsTargetCreateCalls path n) = countsOf k (walked n) := by
  induction n using FsNode.induction generalizing path with
  | hnode given lstat entries ih =>
      cases lstat with
      | error e =>
          rw [fsTargetCreateCalls_error, walked]
          cases k <;> rfl
      | ok st =>
          rw [fsTargetCreateCalls_ok, walked, tally_cons, tally_cons, tally_cons, tally_append,
            countsOf_cons]
          by_cases hdir : filetype (givenStat given).mode = .directory
          · rw [if_pos hdir, if_pos hdir]
            cases entries with
            | none =>
                rw [handleChildrenCalls, walkedBelow]
                cases k <;> simp [PerfCall.counter, tally, countsOf, FsNode.counts,
                  FsNode.isDirectory, FsNode.listed, FsNode.found, hdir]
            | some es =>
                rw [handleChildrenCalls, walkedBelow, List.cons_append, tally_cons, tally_append,
                  tally_readEntries (ih es rfl)]
                cases k <;> simp [PerfCall.counter, tally, FsNode.counts, FsNode.isDirectory,
                  FsNode.listed, FsNode.found, hdir] <;> omega
          · rw [if_neg hdir, if_neg hdir]
            cases k <;> simp [PerfCall.counter, tally, countsOf, FsNode.counts,
              FsNode.isDirectory, FsNode.listed, FsNode.found, hdir]

/-- A node that is not found is all there is to walk. -/
theorem walked_missing {n : FsNode} (h : n.found = false) : walked n = [n] := by
  obtain ⟨given, lstat, entries⟩ := n
  cases lstat with
  | error e => rw [walked]
  | ok st => cases h

/-- The files at the entries are the nodes there that are found, if so it is for each entry. -/
theorem filesFrom_walked {s : CStr} {node : List ℕ} {entries : List (EntryName × FsNode)}
    (h : ∀ e ∈ entries, ∀ (name : CStr) (node : List ℕ),
      ((filesAt s name node e.2).map Seen.known).Perm
        (((walked e.2).filter FsNode.found).map FsNode.known)) (i : ℕ) :
    ((filesFrom s node i entries).map Seen.known).Perm
      (((walkedFrom entries).filter FsNode.found).map FsNode.known) := by
  induction entries generalizing i with
  | nil =>
      rw [filesFrom, walkedFrom]
      exact .refl _
  | cons e entries ih =>
      obtain ⟨name, n⟩ := e
      rw [List.forall_mem_cons] at h
      rw [filesFrom, walkedFrom, List.filter_append, List.map_append]
      cases hvis : visible name with
      | false => simpa using ih h.2 i
      | true =>
          cases hfound : n.found with
          | false => simpa [walked_missing hfound, hfound] using ih h.2 i
          | true =>
              simp only [Bool.and_self, if_true, List.map_append]
              exact (h.1 name.1 (node ++ [i])).append (ih h.2 (i + 1))

/-- **The files a walk meets** are the nodes that are found. -/
theorem filesAt_walked (s name : CStr) (node : List ℕ) (n : FsNode) :
    ((filesAt s name node n).map Seen.known).Perm
      (((walked n).filter FsNode.found).map FsNode.known) := by
  induction n using FsNode.induction generalizing s name node with
  | hnode given lstat entries ih =>
      cases lstat with
      | error e =>
          rw [filesAt, walked]
          exact .refl _
      | ok st =>
          have hbelow : ((if filetype (givenStat given).mode = .directory then
              filesBelow (join s name) node entries else []).map Seen.known).Perm
              (((if filetype (givenStat given).mode = .directory then walkedBelow entries
                else []).filter FsNode.found).map FsNode.known) := by
            split
            · cases entries with
              | none =>
                  rw [filesBelow, walkedBelow]
                  exact .refl _
              | some es =>
                  rw [filesBelow, walkedBelow]
                  exact filesFrom_walked (fun e he name node => ih es rfl e he _ name node) 0
            · exact .refl _
          rw [filesAt, walked, List.map_append, List.filter_cons_of_pos rfl, List.map_cons]
          exact (List.perm_append_singleton _ _).trans (hbelow.cons _)

end Create

/-! ### The events of all histories -/

mutual

/-- How many events the histories of a tree have. -/
def FsTarget.eventTotal : FsTarget → ℕ
  | .null => 0
  | .released => 0
  | .live _ events children => events.items.length + childrenTotal children

/-- How many events those of the children have. -/
def childrenTotal : Option (List FsTarget) → ℕ
  | none => 0
  | some children => totalOf children

/-- How many events those of some trees have. -/
def totalOf : List FsTarget → ℕ
  | [] => 0
  | t :: ts => t.eventTotal + totalOf ts

end

/-- Every history has an event. -/
def AllAcked (t : FsTarget) : Prop :=
  ∀ p names finfo events, Reaches t p names finfo events → events.items ≠ []

section Create

variable {clock : CStr → UInt64} {p : CStr}

/-- The histories of the entries, if those of each entry have one event for each node. -/
theorem totalOf_entries {entries : List (EntryName × FsNode)}
    (h : ∀ e ∈ entries, visible e.1 = true → ∀ p,
      (fsTargetCreate clock p e.2).eventTotal = (walked e.2).countP FsNode.found) :
    totalOf (entryTargets clock p entries) = (walkedFrom entries).countP FsNode.found := by
  rw [entryTargets_eq]
  induction entries with
  | nil => rw [walkedFrom, foundEntries, List.filter_nil, List.map_nil, totalOf]; rfl
  | cons e entries ih =>
      obtain ⟨name, n⟩ := e
      rw [List.forall_mem_cons] at h
      have hrest := ih h.2
      rw [walkedFrom, List.countP_append]
      cases hvis : visible name with
      | false =>
          have hskip : foundEntries ((name, n) :: entries) = foundEntries entries :=
            List.filter_cons_of_neg (by simp [hvis])
          rw [hskip, hrest]
          simp
      | true =>
          cases hfound : n.found with
          | false =>
              have hskip : foundEntries ((name, n) :: entries) = foundEntries entries :=
                List.filter_cons_of_neg (by simp [hfound])
              rw [hskip, hrest]
              simp [walked_missing hfound, hfound]
          | true =>
              have hkeep : foundEntries ((name, n) :: entries) =
                  (name, n) :: foundEntries entries :=
                List.filter_cons_of_pos (by simp [hvis, hfound])
              rw [hkeep, List.map_cons, totalOf, h.1 hvis, hrest, if_pos rfl]

/-- **A snapshot** has one event for every node that is found. -/
theorem eventTotal_create {n : FsNode} (hlist : ∀ m, Below n m → m.Listable) :
    (fsTargetCreate clock p n).eventTotal = (walked n).countP FsNode.found := by
  induction n using FsNode.induction generalizing p with
  | hnode given lstat entries ih =>
      cases lstat with
      | error e =>
          rw [fsTargetCreate_error, FsTarget.eventTotal, walked]
          rfl
      | ok st =>
          rw [walked, List.countP_cons_of_pos rfl]
          by_cases hdir : filetype (givenStat given).mode = .directory
          · obtain ⟨es, rfl, hcount⟩ := hlist _ .self hdir
            have hentries := @totalOf_entries clock (basenameCut p) es fun e he hvis p =>
              ih es rfl e he fun m hm => hlist m (.entry hdir he hvis hm)
            rw [fsTargetCreate_listed hdir st hcount, if_pos hdir, walkedBelow, ← hentries,
              FsTarget.eventTotal, childrenTotal, Nat.add_comm]
            rfl
          · rw [fsTargetCreate_file hdir, if_neg hdir, FsTarget.eventTotal, childrenTotal]
            rfl

/-- Every history of a snapshot has an event. -/
theorem allAcked_create (n : FsNode) : AllAcked (fsTargetCreate clock p n) := by
  intro q names finfo events hreach
  obtain ⟨path, st, rfl⟩ := acknowledged_of_reaches hreach
  exact List.cons_ne_nil _ _

end Create

section Observe

variable {env : Environment} {node : List ℕ} {t t' : FsTarget} {st st' : ObsSt}

/-- How many events the visits appended. -/
def appendedTotal (visits : List Visit) : ℕ := (visits.flatMap Visit.appended).length

theorem appendedTotal_append (visits visits' : List Visit) :
    appendedTotal (visits ++ visits') = appendedTotal visits + appendedTotal visits' := by
  rw [appendedTotal, List.flatMap_append, List.length_append, appendedTotal, appendedTotal]

/-- The loop over the children adds what its visits appended, if it is so for each child. -/
theorem totalOf_observeFrom {children children' : List FsTarget}
    (h : ∀ c ∈ children, ∀ {node : List ℕ} {st st' : ObsSt} {b : Bool} {c' : FsTarget},
      fsTargetObserve env node c st = some (b, c', st') →
        ∃ visits, st'.log = st.log ++ visits ∧
          c'.eventTotal = c.eventTotal + appendedTotal visits)
    {i : ℕ} (hrun : observeFrom env node i children st = some (children', st')) :
    ∃ visits, st'.log = st.log ++ visits ∧
      totalOf children' = totalOf children + appendedTotal visits := by
  induction children generalizing i st children' with
  | nil =>
      cases hrun
      exact ⟨[], (List.append_nil _).symm, rfl⟩
  | cons c children ih =>
      rw [List.forall_mem_cons] at h
      rw [observeFrom] at hrun
      obtain ⟨⟨b, c', st₁⟩, hchild, hrun⟩ := Option.bind_eq_some_iff.mp hrun
      obtain ⟨⟨cs', st₂⟩, hloop, hrun⟩ := Option.bind_eq_some_iff.mp hrun
      cases hrun
      obtain ⟨here, hhere, hfirst⟩ := h.1 hchild
      obtain ⟨later, hlater, hrest⟩ := ih h.2 hloop
      refine ⟨here ++ later, by rw [hlater, hhere, List.append_assoc], ?_⟩
      rw [totalOf, totalOf, hfirst, hrest, appendedTotal_append]
      omega

/-- **A traversal** adds to the histories what its visits appended. -/
theorem eventTotal_of_observe {b : Bool} (h : fsTargetObserve env node t st = some (b, t', st')) :
    ∃ visits, st'.log = st.log ++ visits ∧
      t'.eventTotal = t.eventTotal + appendedTotal visits := by
  induction t using FsTarget.induction generalizing node st t' st' b with
  | hnull =>
      cases h
      exact ⟨[], (List.append_nil _).symm, rfl⟩
  | hreleased => cases h
  | hlive finfo events children ih =>
      obtain ⟨cur, events', children', st₁, st₂, -, hloop, hhere, hlog, rfl⟩ := of_observe_live h
      obtain ⟨v, hv, -, -, -, hitems, -⟩ := accounts_here hhere
      have hself : events'.items.length = events.items.length + appendedTotal [v] := by
        rw [hitems, List.length_append, appendedTotal, List.flatMap_singleton]
      by_cases hdir : finfo.type = .directory
      · rw [if_pos hdir] at hloop
        cases children with
        | none => cases hloop
        | some cs =>
            rw [propagateChildrenRecursive] at hloop
            obtain ⟨⟨cs', st₃⟩, hloop, heq⟩ := Option.bind_eq_some_iff.mp hloop
            cases heq
            obtain ⟨visits, hvisits, htotal⟩ := totalOf_observeFrom
              (fun c hc => fun hobserve => ih cs rfl c hc hobserve) hloop
            refine ⟨visits ++ [v], by rw [hlog, hv, hvisits, List.append_assoc], ?_⟩
            rw [FsTarget.eventTotal, FsTarget.eventTotal, childrenTotal, childrenTotal, hself,
              htotal, appendedTotal_append]
            omega
      · rw [if_neg hdir] at hloop
        obtain ⟨rfl, rfl⟩ := hloop
        refine ⟨[v], by rw [hlog, hv], ?_⟩
        rw [FsTarget.eventTotal, FsTarget.eventTotal, hself]
        omega

/-- It finds an event in every history, and leaves one. -/
theorem posted_of_observe {b : Bool} (h : fsTargetObserve env node t st = some (b, t', st'))
    (hacked : AllAcked t) :
    ∃ visits, st'.log = st.log ++ visits ∧
      t'.eventTotal = t.eventTotal + appendedTotal visits ∧ (∀ v ∈ visits, v.Sound) ∧
      AllAcked t' := by
  obtain ⟨visits, hlog, htotal⟩ := eventTotal_of_observe h
  obtain ⟨visits', hlog', haccounts⟩ := accounts_of_observe h
  obtain rfl := List.append_cancel_left (hlog.symm.trans hlog')
  refine ⟨visits, hlog, htotal, fun v hv => ?_, fun p names finfo events' hreach => ?_⟩
  · obtain ⟨p, names, finfo, -, hreach⟩ := haccounts.visited v hv
    exact ⟨hacked p names finfo v.events hreach, haccounts.tracked v hv⟩
  · obtain ⟨events, hbefore, hitems, -⟩ := haccounts.history p names finfo events' hreach
    rw [hitems]
    exact List.append_ne_nil_of_left_ne_nil (hacked p names finfo events hbefore) _

end Observe

/-! ### The events of the service -/

/-- The snapshots in the slots in use. -/
def ServiceSt.snapshots (svc : ServiceSt) : List FsTarget := svc.fp.take svc.fpIndex

/-- What some visits did to the snapshots: the histories have what they appended, and had an
event when they came. -/
structure Posted (svc svc' : ServiceSt) (visits : List Visit) : Prop where
  total : totalOf svc'.snapshots = totalOf svc.snapshots + appendedTotal visits
  sound : ∀ v ∈ visits, v.Sound
  acked : ∀ t ∈ svc'.snapshots, AllAcked t

section Service

variable {env : Environment} {signals : Bool} {waits : List Spin} {svc svc' svc'' : ServiceSt}
  {obs obs' : ObsSt} {visits visits' : List Visit}

theorem Posted.refl (h : ∀ t ∈ svc.snapshots, AllAcked t) : Posted svc svc [] :=
  ⟨rfl, by simp, h⟩

theorem Posted.trans (h : Posted svc svc' visits) (h' : Posted svc' svc'' visits') :
    Posted svc svc'' (visits ++ visits') := by
  refine ⟨?_, List.forall_mem_append.mpr ⟨h.sound, h'.sound⟩, h'.acked⟩
  rw [h'.total, h.total, appendedTotal_append, Nat.add_assoc]

/-- Another tree in one of the slots. -/
theorem totalOf_set {ts : List FsTarget} {i n : ℕ} {t t' : FsTarget} (ht : ts[i]? = some t)
    (h : t'.eventTotal = t.eventTotal + n) : totalOf (ts.set i t') = totalOf ts + n := by
  induction ts generalizing i with
  | nil => simp at ht
  | cons c ts ih =>
      cases i with
      | zero =>
          obtain rfl : c = t := by simpa using ht
          rw [List.set_cons_zero, totalOf, totalOf, h]
          omega
      | succ i =>
          rw [List.set_cons_succ, totalOf, totalOf, ih (by simpa using ht)]
          omega

/-- A turn of the loop. -/
theorem posted_of_turn {i : ℕ} {ok : Bool} (hi : i < svc.fpIndex)
    (hacked : ∀ t ∈ svc.snapshots, AllAcked t)
    (h : observeTurn env i (svc, obs) = some (ok, (svc', obs'))) :
    ∃ visits, obs'.log = obs.log ++ visits ∧ Posted svc svc' visits := by
  obtain ⟨target, ht, h⟩ := Option.bind_eq_some_iff.mp h
  have hslot : svc.snapshots[i]? = some target := (List.getElem?_take_of_lt hi).trans ht
  split at h
  · obtain ⟨⟨b, target', obs₁⟩, hobserve, h⟩ := Option.bind_eq_some_iff.mp h
    cases h
    obtain ⟨visits, hlog, htotal, hsound, hafter⟩ :=
      posted_of_observe hobserve (hacked target (List.mem_of_getElem? hslot))
    have hset : (svc.setSlot i target').snapshots = svc.snapshots.set i target' := List.take_set
    refine ⟨visits, hlog, ?_, hsound, fun t hmem => ?_⟩
    · rw [hset]
      exact totalOf_set hslot htotal
    · rw [hset] at hmem
      rcases List.mem_or_eq_of_mem_set hmem with hold | rfl
      · exact hacked t hold
      · exact hafter
  · cases h
    exact ⟨[], (List.append_nil _).symm, .refl hacked⟩

/-- A round. -/
theorem posted_of_loop {turns i : ℕ} (hacked : ∀ t ∈ svc.snapshots, AllAcked t)
    (h : observeLoop env turns i (svc, obs) = some (svc', obs')) :
    ∃ visits, obs'.log = obs.log ++ visits ∧ Posted svc svc' visits := by
  induction turns generalizing i svc obs with
  | zero => cases h
  | succ turns ih =>
      rw [observeLoop] at h
      split at h
      · next hi =>
          obtain ⟨⟨ok, svc₁, obs₁⟩, hturn, h⟩ := Option.bind_eq_some_iff.mp h
          obtain ⟨here, hhere, hposted⟩ := posted_of_turn hi hacked hturn
          obtain ⟨later, hlater, hrest⟩ := ih hposted.acked h
          exact ⟨here ++ later, by rw [hlater, hhere, List.append_assoc], hposted.trans hrest⟩
      · cases h
        exact ⟨[], (List.append_nil _).symm, .refl hacked⟩

/-- **The rounds**, until a signal comes. -/
theorem serviceRounds_posted (hacked : ∀ t ∈ svc.snapshots, AllAcked t)
    (h : serviceRounds env waits (svc, obs) = some (svc', obs')) :
    ∃ visits, obs'.log = obs.log ++ visits ∧ Posted svc svc' visits := by
  induction waits generalizing svc obs with
  | nil => cases h
  | cons w waits ih =>
      obtain ⟨ok, -, h⟩ := Option.bind_eq_some_iff.mp h
      cases ok with
      | false =>
          cases h
          exact ⟨[], (List.append_nil _).symm, .refl hacked⟩
      | true =>
          obtain ⟨⟨svc₁, obs₁⟩, hround, hrest⟩ := Option.bind_eq_some_iff.mp h
          obtain ⟨here, hhere, hposted⟩ := posted_of_loop hacked hround
          obtain ⟨later, hlater, hrest⟩ := ih hposted.acked hrest
          exact ⟨here ++ later, by rw [hlater, hhere, List.append_assoc], hposted.trans hrest⟩

theorem serviceLoops_posted (hacked : ∀ t ∈ svc.snapshots, AllAcked t)
    (h : serviceLoops env signals waits svc obs = some (svc', obs')) :
    ∃ visits, obs'.log = obs.log ++ visits ∧ Posted svc svc' visits := by
  rw [serviceLoops] at h
  split at h
  · cases h
    exact ⟨[], (List.append_nil _).symm, .refl hacked⟩
  · split at h
    · exact serviceRounds_posted hacked h
    · cases h
      exact ⟨[], (List.append_nil _).symm, .refl hacked⟩

end Service

/-! ### What the visits count -/

/-- What is counted for a visit: a call of `lstat`, and the event that is appended or refused. -/
def Visit.counts (v : Visit) : Counter → ℕ
  | .nStat => v.done.isSome.toNat
  | .nEvents => v.appended.length + if v.Refused then 1 else 0
  | .nOpendir | .nReaddir | .nClosedir | .nRounds | .nTarget => 0

/-- **What a visit counts.** -/
theorem Visit.Sound.tally_counted {v : Visit} (h : v.Sound) (k : Counter) :
    tally k v.counted = v.counts k := by
  obtain ⟨node, path, events, done⟩ := v
  cases done with
  | none => cases k <;> rfl
  | some done =>
      obtain ⟨r, hround⟩ := h.tracked done rfl
      obtain rfl : done = fsTargetEventTrack r events := hround
      cases fsTargetEventTrack_cases r h.recorded with
      | quiet hdetected hevents _ =>
          cases k <;> simp [Visit.counted, Tracked.calls, tally, PerfCall.counter, Visit.counts,
            Visit.Refused, hdetected, hevents]
      | recorded hdetected _ _ hevents _ =>
          cases k <;> simp [Visit.counted, Tracked.calls, tally, PerfCall.counter, Visit.counts,
            Visit.Refused, hdetected, hevents]
      | refused hdetected hevents _ =>
          cases k <;> simp [Visit.counted, Tracked.calls, tally, PerfCall.counter, Visit.counts,
            Visit.Refused, hdetected, hevents]

/-- What some visits count. -/
theorem tally_visits {visits : List Visit} (h : ∀ v ∈ visits, v.Sound) (k : Counter) :
    tally k (visits.flatMap Visit.counted) = (visits.map fun v => v.counts k).sum := by
  induction visits with
  | nil => rfl
  | cons v visits ih =>
      rw [List.forall_mem_cons] at h
      rw [List.flatMap_cons, tally_append, h.1.tally_counted, ih h.2, List.map_cons,
        List.sum_cons]

/-- What the rounds count. -/
theorem tally_rounds (rounds : List (List Visit)) (k : Counter) :
    tally k (roundsCalls rounds) = (if k = .nRounds then rounds.length + 1 else 0) +
      tally k (rounds.flatten.flatMap Visit.counted) := by
  induction rounds with
  | nil => cases k <;> rfl
  | cons visits rounds ih =>
      have hcons : roundsCalls (visits :: rounds) =
          .rounds :: (visits.flatMap Visit.counted ++ roundsCalls rounds) := by
        rw [roundsCalls, roundsCalls, List.flatMap_cons, List.cons_append, List.cons_append,
          List.append_assoc]
      have hround : (if PerfCall.rounds.counter = k then 1 else 0) =
          if k = .nRounds then 1 else 0 := by
        cases k <;> rfl
      rw [hcons, tally_cons, tally_append, ih, hround, List.flatten_cons, List.flatMap_append,
        tally_append, List.length_cons]
      split <;> omega

/-- The events that are counted for the visits are those they append, and those refused. -/
theorem sum_nEvents (visits : List Visit) :
    (visits.map fun v => v.counts .nEvents).sum =
      appendedTotal visits + visits.countP fun v => v.Refused := by
  induction visits with
  | nil => rfl
  | cons v visits ih =>
      rw [List.map_cons, List.sum_cons, ih, Visit.counts, List.countP_cons, appendedTotal,
        appendedTotal, List.flatMap_cons, List.length_append]
      simp only [decide_eq_true_eq]
      omega

/-- The calls of `lstat` are the visits of targets of a known type. -/
theorem sum_nStat (visits : List Visit) :
    (visits.map fun v => v.counts .nStat).sum =
      (visits.map Visit.seen).countP Seen.known := by
  induction visits with
  | nil => rfl
  | cons v visits ih =>
      rw [List.map_cons, List.sum_cons, ih, Visit.counts, List.map_cons, List.countP_cons,
        Nat.add_comm]
      cases hdone : v.done <;> simp [Visit.seen, hdone]

/-- Nothing else is counted for visits. -/
theorem sum_others {k : Counter} (hstat : k ≠ .nStat) (hevents : k ≠ .nEvents)
    (visits : List Visit) : (visits.map fun v => v.counts k).sum = 0 := by
  have hzero : ∀ v : Visit, v.counts k = 0 := by
    intro v
    cases k with
    | nStat => exact absurd rfl hstat
    | nEvents => exact absurd rfl hevents
    | nOpendir | nReaddir | nClosedir | nRounds | nTarget => rfl
  induction visits with
  | nil => rfl
  | cons v visits ih => rw [List.map_cons, List.sum_cons, hzero, ih]

/-! ### The report -/

section Whole

variable {fs : CStr → FsNode} {clock : CStr → UInt64} {paths : List CStr}

/-- The nodes a service walks when it takes the snapshots. -/
def walkedOf (fs : CStr → FsNode) (paths : List CStr) : List FsNode :=
  paths.flatMap fun path => walked (fs path)

/-- What is counted for the snapshots. -/
theorem tally_init (k : Counter) (paths : List CStr) :
    tally k (paths.flatMap fun path => fsTargetCreateCalls path (fs path)) =
      countsOf k (walkedOf fs paths) := by
  induction paths with
  | nil => rfl
  | cons path paths ih =>
      rw [List.flatMap_cons, tally_append, tally_create, ih, walkedOf, walkedOf,
        List.flatMap_cons, countsOf_append]

/-- A type is known only of what is found. -/
theorem FsNode.found_of_known {n : FsNode} (h : n.known = true) : n.found = true := by
  obtain ⟨given, lstat, entries⟩ := n
  cases lstat with
  | error e => cases h
  | ok st => rfl

/-- The files of known types are such nodes. -/
theorem countP_filesAt (s name : CStr) (node : List ℕ) (n : FsNode) :
    (filesAt s name node n).countP Seen.known = (walked n).countP FsNode.known := by
  have hperm := (filesAt_walked s name node n).countP_eq id
  rw [List.countP_map, List.countP_map, List.countP_filter] at hperm
  refine hperm.trans (List.countP_congr fun m _ => ?_)
  simpa using fun hknown => FsNode.found_of_known hknown

theorem countP_filesOf (paths : List CStr) (i : ℕ) :
    (filesOf fs i (paths.filter fun path => (fs path).found)).countP Seen.known =
      (walkedOf fs paths).countP FsNode.known := by
  induction paths generalizing i with
  | nil => rfl
  | cons path paths ih =>
      rw [walkedOf, List.flatMap_cons, List.countP_append]
      cases hfound : (fs path).found with
      | true =>
          rw [List.filter_cons, if_pos hfound, filesOf, List.countP_append, countP_filesAt, ih,
            walkedOf]
      | false =>
          have hnone : (walked (fs path)).countP FsNode.known = 0 := by
            rw [walked_missing hfound, List.countP_eq_zero, List.forall_mem_singleton]
            exact fun hknown => absurd (FsNode.found_of_known hknown) (by simp [hfound])
          rw [List.filter_cons, if_neg (by simp [hfound]), ih, hnone, Nat.zero_add, walkedOf]

/-- The histories of fresh snapshots. -/
theorem totalOf_created (hlist : ∀ path ∈ paths.filter (fun path => (fs path).found),
    ∀ m, Below (fs path) m → m.Listable) :
    totalOf ((paths.filter fun path => (fs path).found).map fun path =>
      fsTargetCreate clock path (fs path)) = (walkedOf fs paths).countP FsNode.found := by
  induction paths with
  | nil => rfl
  | cons path paths ih =>
      rw [walkedOf, List.flatMap_cons, List.countP_append]
      cases hfound : (fs path).found with
      | true =>
          rw [List.filter_cons, if_pos hfound, List.forall_mem_cons] at hlist
          rw [List.filter_cons, if_pos hfound, List.map_cons, totalOf,
            eventTotal_create hlist.1, ih hlist.2, walkedOf]
      | false =>
          have hneg : ¬ (fs path).found = true := by simp [hfound]
          rw [List.filter_cons, if_neg hneg] at hlist
          have hnone : (walked (fs path)).countP FsNode.found = 0 := by
            rw [walked_missing hfound, List.countP_eq_zero, List.forall_mem_singleton]
            exact hneg
          rw [List.filter_cons, if_neg hneg, ih hlist, hnone, Nat.zero_add, walkedOf]

/-- What is counted once for some of the nodes. -/
theorem sum_toNat (p : FsNode → Bool) (nodes : List FsNode) :
    (nodes.map fun n => (p n).toNat).sum = nodes.countP p := by
  induction nodes with
  | nil => rfl
  | cons n nodes ih =>
      rw [List.map_cons, List.sum_cons, ih, List.countP_cons, Nat.add_comm]
      cases p n <;> rfl

variable {env : Environment} {signals : Bool} {waits : List Spin} {stack : FileStack}
  {svc' : ServiceSt} {obs obs' : ObsSt}

/-- The snapshots as they are taken: every history has its acknowledgement. -/
theorem snapshots_created {create : CStr → FsTarget} {svc : ServiceSt} {taken : List CStr}
    (h : svc.Took create taken) : svc.snapshots = taken.map create := h.targets

/-- There is one such number of rounds. -/
theorem RoundsDue.unique {taken : List CStr} {rounds rounds' : ℕ}
    (h : RoundsDue taken signals waits rounds) (h' : RoundsDue taken signals waits rounds') :
    rounds = rounds' := by
  rw [RoundsDue] at h h'
  split at h
  · next hgo => exact h.unique ((if_pos hgo).mp h')
  · next hgo => rw [h, (if_neg hgo).mp h']

/-- What a run of the service counts: for the nodes, for the rounds, and for the visits. -/
theorem tally_service {taken : List CStr} {rounds : List (List Visit)}
    (hdue : RoundsDue taken signals waits rounds.length)
    (hsound : ∀ v ∈ rounds.flatten, v.Sound) (k : Counter) :
    tally k ((paths.flatMap fun path => fsTargetCreateCalls path (fs path)) ++
        if taken ≠ [] ∧ signals = true then roundsCalls rounds else []) =
      countsOf k (walkedOf fs paths) +
        (if k = .nRounds then if taken ≠ [] ∧ signals = true then rounds.length + 1 else 0
          else 0) + (rounds.flatten.map fun v => v.counts k).sum := by
  rw [tally_append, tally_init]
  by_cases hgo : taken ≠ [] ∧ signals = true
  · rw [if_pos hgo, if_pos hgo, tally_rounds, tally_visits hsound, Nat.add_assoc]
  · rw [RoundsDue, if_neg hgo, List.length_eq_zero_iff] at hdue
    rw [if_neg hgo, if_neg hgo, hdue, ite_self]
    rfl

/-- The calls of `lstat` in the rounds. -/
theorem sum_rounds {svc svc₁ : ServiceSt} {rounds : List (List Visit)}
    (htook : svc.Took (fun path => fsTargetCreate clock path (fs path))
      (paths.filter fun path => (fs path).found)) (hpath : obs.cur.path = some [])
    (hlist : ∀ path ∈ paths.filter (fun path => (fs path).found),
      ∀ m, Below (fs path) m → m.Listable)
    (hloops : serviceLoops env signals waits svc obs = some (svc₁, obs'))
    (hdue : RoundsDue (paths.filter fun path => (fs path).found) signals waits rounds.length)
    (hlog : obs'.log = obs.log ++ rounds.flatten) :
    (rounds.flatten.map fun v => v.counts .nStat).sum =
      rounds.length * (walkedOf fs paths).countP FsNode.known := by
  obtain ⟨rounds', hdue', -, hlog', hcovers⟩ := serviceLoops_covers htook hpath hloops
  have hflat : rounds.flatten = rounds'.flatten := List.append_cancel_left (hlog.symm.trans hlog')
  rw [sum_nStat, hflat, htook.rounds_files hlist hcovers, ← hdue.unique hdue', List.countP_flatten,
    List.map_replicate, List.sum_replicate_nat, countP_filesOf]

/-- **The report of a run of the service** that ends, if every directory can be listed. `lstat`
was called twice for every node, and in every round for every file of a known type; every
directory was opened and closed, and all its entries were read; and counted are the rounds,
with the one that a signal interrupts, the targets taken, and the events: those in the
histories at the end, and those refused the memory. -/
theorem report_adds_up {todo : List Filename} (hstack : stack.Holds todo.reverse)
    (hpath : obs.cur.path = some [])
    (hlist : ∀ path ∈ texts todo, (fs path).found = true →
      ∀ m, Below (fs path) m → m.Listable)
    {buf : StaticBuf} {events : List DeinitEvent}
    (hrun : service (fun path => fsTargetCreate clock path (fs path)) buf env signals waits stack
      obs = some (events, svc', obs')) :
    ∃ svc₀ svc₁ calls rounds,
      serviceInit (fun path => fsTargetCreate clock path (fs path)) stack = some svc₀ ∧
      serviceLoops env signals waits svc₀ obs = some (svc₁, obs') ∧
      serviceCalls clock fs env signals waits stack obs = some calls ∧
      RoundsDue ((texts todo).filter fun path => (fs path).found) signals waits rounds ∧
      perfTracking calls =
        { nStat := .ofNat (2 * (walkedOf fs (texts todo)).length +
            rounds * (walkedOf fs (texts todo)).countP FsNode.known)
          nOpendir := .ofNat ((walkedOf fs (texts todo)).countP FsNode.isDirectory)
          nClosedir := .ofNat ((walkedOf fs (texts todo)).countP fun n => n.listed.isSome)
          nReaddir := .ofNat ((walkedOf fs (texts todo)).map fun n =>
            n.listed.elim 0 fun entries => entries.length + 1).sum
          nRounds := .ofNat (if ((texts todo).filter fun path => (fs path).found) ≠ [] ∧
            signals = true then rounds + 1 else 0)
          nEvents := .ofNat (totalOf svc₁.snapshots +
            (obs'.log.drop obs.log.length).countP fun v => v.Refused)
          nTarget := .ofNat ((walkedOf fs (texts todo)).countP FsNode.found) } := by
  have hlist' : ∀ path ∈ (texts todo).filter (fun path => (fs path).found),
      ∀ m, Below (fs path) m → m.Listable := fun path hmem =>
    hlist path (List.mem_filter.mp hmem).1 (List.mem_filter.mp hmem).2
  obtain ⟨svc, hinit, htook⟩ :=
    serviceInit_takes (fun path => fsTargetCreate clock path (fs path)) hstack
      (service_safe hstack hrun)
  rw [created_found] at htook
  obtain ⟨svc₁, hloops, -⟩ := (service_iff hinit).mp hrun
  have hacked : ∀ t ∈ svc.snapshots, AllAcked t := by
    rw [snapshots_created htook]
    exact List.forall_mem_map.mpr fun path _ => allAcked_create _
  obtain ⟨visits, hlog, hposted⟩ := serviceLoops_posted hacked hloops
  have htotal := hposted.total
  rw [snapshots_created htook, totalOf_created hlist'] at htotal
  obtain ⟨rounds, hdue, hlog', hcalls⟩ := serviceCalls_eq hstack hpath hrun
  obtain rfl := List.append_cancel_left (hlog'.symm.trans hlog)
  refine ⟨svc, svc₁, _, rounds.length, hinit, hloops, hcalls, hdue, ?_⟩
  rw [hlog, List.drop_left, htotal]
  refine PerfTrackingInfo.eq_of_get fun k => ?_
  rw [perfTracking_get, tally_service hdue hposted.sound]
  cases k <;> refine congrArg UInt64.ofNat ?_
  case nStat =>
      rw [sum_rounds htook hpath hlist' hloops hdue hlog]
      simp [countsOf, FsNode.counts, Nat.mul_comm]
  case nEvents =>
      rw [sum_nEvents]
      simp only [countsOf, FsNode.counts, sum_toNat, reduceCtorEq, if_false]
      omega
  all_goals
    rw [sum_others (by simp) (by simp)]
    simp [countsOf, FsNode.counts, sum_toNat]

end Whole

/-- In a run for a directory with a file, with one round. -/
theorem report_adds_up_directory : ∃ calls,
    serviceCalls (fun _ => 0) (fun _ => directoryNode) (fun _ _ => .answered (.error .enoent))
      true twoWaits (filenameStackPush .empty (.argument [⟨97, by decide⟩])) ⟨PathBuf.empty, []⟩ =
        some calls ∧
    (perfTracking calls).nStat = 6 ∧ (perfTracking calls).nOpendir = 1 ∧
    (perfTracking calls).nReaddir = 2 ∧ (perfTracking calls).nClosedir = 1 ∧
    (perfTracking calls).nRounds = 2 ∧ (perfTracking calls).nEvents = 4 ∧
    (perfTracking calls).nTarget = 2 := by
  have hstack := FileStack.holds_one (.argument [⟨97, by decide⟩])
  obtain ⟨⟨events, svc, obs⟩, hrun⟩ := directory_service_ends
  obtain ⟨svc₀, svc₁, calls, rounds, -, -, hcalls, hdue, hreport⟩ :=
    @report_adds_up (fun _ => directoryNode) _ _ _ _ _ _ _ _ _ hstack PathBuf.path_empty
      (fun _ _ _ => directoryNode_listable) _ _ hrun
  have hone : rounds = 1 := by
    refine hdue.unique ?_
    rw [RoundsDue, if_pos ⟨List.cons_ne_nil _ _, rfl⟩]
    exact signalAfter_twoWaits
  -- two acknowledgements, and the two events of the round
  have hevents : (serviceCalls (fun _ => 0) (fun _ => directoryNode)
      (fun _ _ => .answered (.error .enoent)) true twoWaits
      (filenameStackPush .empty (.argument [⟨97, by decide⟩])) ⟨PathBuf.empty, []⟩).map
        (fun calls => (perfTracking calls).nEvents) = some 4 := by decide +kernel
  rw [hcalls, Option.map_some, Option.some.injEq] at hevents
  refine ⟨calls, hcalls, ?_⟩
  rw [hevents, hreport, hone]
  exact ⟨rfl, rfl, rfl, rfl, rfl, rfl, rfl⟩

end Backd
