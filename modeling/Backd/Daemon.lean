import Backd.Operands
import Backd.ServiceRounds

/-!
# The Whole Program

From the command line to the end of the service: `main` collects the operands, `service` takes
snapshots of what they name and follows the files, round after round.

What the program does is said here in terms of its command line and of the file system: the
files below an operand are listed as a walk through its directories meets them (`filesAt`), and
a round goes through the lists of all operands.

## Conventions

`backd_init` calls `service` and nothing else; what is commented out in it is left out. The file
system is as it was when the snapshots were taken, one tree for each path, and what happens to
the files later is what `env` answers. The service always ends in `EXIT_FAILURE`.

## Main results

* `create_files`: the nodes of a snapshot, in post-order, are the files below its path.
* `RoundCovers.unique`: what a round visits is determined by the nodes of the snapshots.
* `daemon_follows_operands`: when the program ends, and which files it went through.
-/

namespace Backd

open PostOrder

/-! ### The files below a path -/

/-- A file the observer comes to: its place, its path, and whether its type is known. -/
structure Seen where
  node : List ℕ
  path : CStr
  known : Bool
  deriving DecidableEq, Repr

/-- What a visit tells of the file. -/
def Visit.seen (v : Visit) : Seen := ⟨v.node, v.path, v.done.isSome⟩

mutual

/-- The files a walk meets at a path, with the directory after what is below it. The type is
that of the path as it is given, and the file is found at what `basename` leaves of it. -/
def filesAt (s name : CStr) (node : List ℕ) : FsNode → List Seen
  | .node _ (.error _) _ => []
  | .node given (.ok _) entries =>
    let type := filetype (givenStat given).mode
    (if type = .directory then filesBelow (join s name) node entries else []) ++
      [⟨node, join s name, type ≠ .unknown⟩]

/-- The files in a directory, or none if it cannot be opened. -/
def filesBelow (s : CStr) (node : List ℕ) : Option (List (EntryName × FsNode)) → List Seen
  | none => []
  | some entries => filesFrom s node 0 entries

/-- The files at the entries of a directory. The first that is found has the index `i`. -/
def filesFrom (s : CStr) (node : List ℕ) (i : ℕ) : List (EntryName × FsNode) → List Seen
  | [] => []
  | (name, n) :: entries =>
    if visible name && n.found then
      filesAt s name.1 (node ++ [i]) n ++ filesFrom s node (i + 1) entries
    else filesFrom s node i entries

end

/-- The files at the paths of the snapshots, the first of them with index `i`. -/
def filesOf (fs : CStr → FsNode) (i : ℕ) : List CStr → List Seen
  | [] => []
  | path :: paths => filesAt [] (basename path) [i] (fs path) ++ filesOf fs (i + 1) paths

/-- Whether a type is known can be told by some result of tracking. -/
theorem exists_done (type : Filetype) :
    ∃ done : Option Tracked, done.isSome ↔ type ≠ .unknown := by
  by_cases h : type = .unknown
  · exact ⟨none, by simp [h]⟩
  · exact ⟨some (fsTargetEventTrack (.answered (.error .enoent)) ⟨[], 0⟩), by simp [h]⟩

section Files

variable {clock : CStr → UInt64} {p s : CStr} {node : List ℕ}

/-- The visits of the entries of a directory list the files at them, if those of each entry
do. -/
theorem entries_files {entries : List (EntryName × FsNode)} (i : ℕ)
    (h : ∀ e ∈ entries, visible e.1 = true → ∀ i, ∃ visits,
      Covers s (node ++ [i]) (Reaches (fsTargetCreate clock (attach p e.1) e.2)) visits ∧
        visits.map Visit.seen = filesAt s e.1.1 (node ++ [i]) e.2) :
    ∃ visits, Covers s node (ReachesFrom i (entryTargets clock p entries)) visits ∧
      visits.map Visit.seen = filesFrom s node i entries := by
  rw [entryTargets_eq]
  induction entries generalizing i with
  | nil => exact ⟨[], Covers.none, by rw [filesFrom]; rfl⟩
  | cons e entries ih =>
      obtain ⟨name, n⟩ := e
      rw [List.forall_mem_cons] at h
      rw [filesFrom]
      by_cases hkept : (visible name && n.found) = true
      · obtain ⟨here, hhere, hfiles⟩ := h.1 (Bool.and_eq_true_iff.mp hkept).1 i
        obtain ⟨behind, hbehind, hrest⟩ := ih (i + 1) h.2
        have hfound : foundEntries ((name, n) :: entries) = (name, n) :: foundEntries entries :=
          List.filter_cons_of_pos hkept
        rw [hfound, if_pos hkept, List.map_cons]
        exact ⟨here ++ behind, hhere.append hbehind, by rw [List.map_append, hfiles, hrest]⟩
      · have hfound : foundEntries ((name, n) :: entries) = foundEntries entries :=
          List.filter_cons_of_neg hkept
        rw [hfound, if_neg hkept]
        exact ih i h.2

/-- **The nodes of a snapshot**, in post-order, are the files below its path. -/
theorem create_files {n : FsNode} (hlist : ∀ m, Below n m → m.Listable) :
    ∃ visits, Covers s node (Reaches (fsTargetCreate clock p n)) visits ∧
      visits.map Visit.seen = filesAt s (basename p) node n := by
  induction n using FsNode.induction generalizing p s node with
  | hnode given lstat entries ih =>
      cases lstat with
      | error e =>
          rw [fsTargetCreate_error, filesAt]
          exact ⟨[], Covers.null, rfl⟩
      | ok st =>
          obtain ⟨done, hdone⟩ := exists_done (filetype (givenStat given).mode)
          have hseen : (⟨node, join s (fsTargetSetInfo p (givenStat given)).name,
              acknowledged clock (basenameCut p) st, done⟩ : Visit).seen =
              ⟨node, join s (basename p), filetype (givenStat given).mode ≠ .unknown⟩ := by
            have hknown : done.isSome = decide (filetype (givenStat given).mode ≠ .unknown) := by
              rw [Bool.eq_iff_iff, hdone, decide_eq_true_eq]
            rw [Visit.seen, hknown]
            rfl
          rw [filesAt]
          by_cases hdir : filetype (givenStat given).mode = .directory
          · obtain ⟨es, rfl, hcount⟩ := hlist _ .self hdir
            have hentries : ∀ e ∈ es, visible e.1 = true → ∀ i, ∃ visits,
                Covers (join s (basename p)) (node ++ [i])
                  (Reaches (fsTargetCreate clock (attach (basenameCut p) e.1) e.2)) visits ∧
                visits.map Visit.seen = filesAt (join s (basename p)) e.1.1 (node ++ [i]) e.2 := by
              intro e he hvis i
              have hentry := @ih es rfl e he (attach (basenameCut p) e.1) (join s (basename p))
                (node ++ [i]) fun m hm => hlist m (.entry hdir he hvis hm)
              rwa [basename_attach] at hentry
            obtain ⟨visits, hcovers, hfiles⟩ := entries_files 0 hentries
            rw [fsTargetCreate_listed hdir st hcount, if_pos hdir, filesBelow, ← hfiles]
            refine ⟨_, hcovers.directory hdir hdone, ?_⟩
            rw [List.map_append, List.map_singleton, hseen]
          · rw [fsTargetCreate_file hdir, if_neg hdir]
            exact ⟨_, Covers.leaf hdir hdone, by rw [List.map_singleton, hseen]; rfl⟩

/-- What a snapshot comes to is below its path. -/
theorem below_of_comes {n m : FsNode} {names : List EntryName} (h : Comes n names m) :
    Below n m := by
  induction h with
  | self _ => exact .self
  | entry hdir he _ ih =>
      obtain ⟨hes, hkept⟩ := List.mem_filter.mp (List.mem_of_mem_take he)
      exact .entry hdir hes (Bool.and_eq_true_iff.mp hkept).1 ih

/-- When its directories can be listed, a snapshot is intact. -/
theorem intact_listable {n : FsNode} (hfound : n.found = true)
    (hlist : ∀ m, Below n m → m.Listable) : Intact (fsTargetCreate clock p n) := by
  refine intact_created hfound fun names m hcomes => ?_
  have hm := hlist m (below_of_comes hcomes)
  obtain ⟨given, lstat, entries⟩ := m
  cases lstat with
  | error e => trivial
  | ok st =>
      intro hdir
      obtain ⟨es, rfl, -⟩ := hm hdir
      rfl

/-- On a tree that can be passed, the paths of all nodes fit. -/
theorem Passable.fits {t : FsTarget} {q : List ℕ} {names : List CStr} {finfo : Finfo}
    {events : Records FsTargetEvent} (h : Passable s t) (hreach : Reaches t q names finfo events) :
    Fits (under s names) := by
  induction hreach generalizing s with
  | root =>
      cases h with
      | leaf _ hfits => exact hfits
      | directory _ hfits _ => exact hfits
  | child hdir hi _ ih =>
      cases h with
      | leaf hleaf _ => exact absurd hdir hleaf
      | directory _ _ hcs => exact ih (hcs _ (List.mem_of_getElem? hi))

/-- A snapshot can be passed exactly if the paths of the files fit into the buffer. -/
theorem passable_iff_files {n : FsNode} (hfound : n.found = true)
    (hlist : ∀ m, Below n m → m.Listable) :
    Passable s (fsTargetCreate clock p n) ↔ ∀ f ∈ filesAt s (basename p) node n, Fits f.path := by
  obtain ⟨visits, hcovers, hfiles⟩ := @create_files clock p s node n hlist
  rw [← hfiles, List.forall_mem_map]
  constructor
  · intro hpass v hv
    obtain ⟨q, names, finfo, hreach, -, hpath, -⟩ := hcovers.sound v hv
    rw [Visit.seen, hpath]
    exact hpass.fits hreach
  · intro hfits
    refine (intact_listable hfound hlist).passable fun q names finfo events hreach => ?_
    obtain ⟨v, hv, -, hpath, -⟩ := hcovers.complete q names finfo events hreach
    exact hpath ▸ hfits v hv

end Files

/-! ### Rounds -/

section Rounds

variable {s : CStr} {nodes : List ℕ → List CStr → Finfo → Prop} {visits visits' : List Visit}

/-- The files a round visits. -/
theorem RoundCovers.mem_seen (h : RoundCovers s nodes visits) (f : Seen) :
    f ∈ visits.map Visit.seen ↔ ∃ names finfo, nodes f.node names finfo ∧
      f.path = under s names ∧ f.known = decide (finfo.type ≠ .unknown) := by
  rw [List.mem_map]
  constructor
  · rintro ⟨v, hv, rfl⟩
    obtain ⟨names, finfo, hnode, hpath, hknown⟩ := h.sound v hv
    exact ⟨names, finfo, hnode, hpath, by rw [Bool.eq_iff_iff, decide_eq_true_eq]; exact hknown⟩
  · obtain ⟨node, path, known⟩ := f
    rintro ⟨names, finfo, hnode, rfl, rfl⟩
    obtain ⟨v, hv, rfl, hpath, hknown⟩ := h.complete node names finfo hnode
    refine ⟨v, hv, ?_⟩
    rw [Visit.seen, hpath, Seen.mk.injEq, Bool.eq_iff_iff, decide_eq_true_eq]
    exact ⟨rfl, rfl, hknown⟩

/-- **What a round visits**, and in which order, is determined by the nodes. -/
theorem RoundCovers.unique (h : RoundCovers s nodes visits) (h' : RoundCovers s nodes visits') :
    visits.map Visit.seen = visits'.map Visit.seen :=
  @eq_of_pairwise_before _ Seen.node _ _ (List.pairwise_map.mpr h.ordered)
    (List.pairwise_map.mpr h'.ordered) fun f => (h.mem_seen f).trans (h'.mem_seen f).symm

variable {clock : CStr → UInt64} {fs : CStr → FsNode} {svc : ServiceSt} {taken : List CStr}

/-- The nodes of the snapshots, from one slot on, are the files of their paths. -/
theorem ServiceSt.Took.files
    (h : svc.Took (fun path => fsTargetCreate clock path (fs path)) taken)
    (hlist : ∀ path ∈ taken, ∀ m, Below (fs path) m → m.Listable) (i : ℕ) {rest : List CStr}
    (hrest : taken.drop i = rest) :
    ∃ visits, RoundCovers [] (svc.PlacesFrom i) visits ∧
      visits.map Visit.seen = filesOf fs i rest := by
  induction rest generalizing i with
  | nil =>
      refine ⟨[], .nil ?_, rfl⟩
      rw [h.index]
      exact List.drop_eq_nil_iff.mp hrest
  | cons path rest ih =>
      have hslot : taken[i]? = some path := by
        rw [← List.head?_drop, hrest]
        rfl
      have hi : i < svc.fpIndex := by
        rw [h.index]
        exact (List.getElem?_eq_some_iff.mp hslot).1
      obtain ⟨behind, hbehind, hfiles⟩ := ih (i + 1) (by rw [← List.drop_drop, hrest]; rfl)
      obtain ⟨here, hhere, hseen⟩ := @create_files clock path [] [i] _
        (hlist path (List.mem_of_getElem? hslot))
      refine ⟨here ++ behind, .cons hi ?_ hhere hbehind, ?_⟩
      · rw [h.slot hi, hslot]
        rfl
      · rw [List.map_append, hseen, hfiles, filesOf]

/-- **Rounds over snapshots** go through the files of their paths, each time. -/
theorem ServiceSt.Took.rounds_files
    (h : svc.Took (fun path => fsTargetCreate clock path (fs path)) taken)
    (hlist : ∀ path ∈ taken, ∀ m, Below (fs path) m → m.Listable) {rounds : List (List Visit)}
    (hall : ∀ visits ∈ rounds, RoundCovers [] svc.Places visits) :
    rounds.flatten.map Visit.seen =
      (List.replicate rounds.length (filesOf fs 0 taken)).flatten := by
  obtain ⟨files, hfiles, hseen⟩ := h.files hlist 0 List.drop_zero
  rw [List.map_flatten]
  congr 1
  rw [List.eq_replicate_iff]
  refine ⟨List.length_map _, List.forall_mem_map.mpr fun visits hvisits => ?_⟩
  rw [← hseen]
  exact (hall visits hvisits).unique hfiles

/-- The snapshots can be passed exactly if the paths of all files fit into the buffer. -/
theorem passable_iff_filesOf (hfound : ∀ path ∈ taken, (fs path).found = true)
    (hlist : ∀ path ∈ taken, ∀ m, Below (fs path) m → m.Listable) (i : ℕ) :
    (∀ path ∈ taken, Passable [] (fsTargetCreate clock path (fs path))) ↔
      ∀ f ∈ filesOf fs i taken, Fits f.path := by
  induction taken generalizing i with
  | nil => simp [filesOf]
  | cons path taken ih =>
      rw [List.forall_mem_cons] at hfound hlist ⊢
      rw [filesOf, List.forall_mem_append, ih hfound.2 hlist.2 (i + 1),
        passable_iff_files hfound.1 hlist.1]

end Rounds

/-! ### The program -/

/-- The whole program: `main` gives up, or `backd_init` calls `service`. -/
def daemon (turns : ℕ) (served erange : Bool) (cron : CronArrays) (argv : List CStr)
    (create : CStr → FsTarget) (buf : StaticBuf) (env : Environment) (signals : Bool)
    (waits : List Spin) (obs : ObsSt) :
    Option (Except MainExit (List DeinitEvent × ServiceSt × ObsSt)) := do
  match ← main turns served erange cron argv with
  | .exit e => return .error e
  | .started st => return .ok (← service create buf env signals waits st.stack obs)

section Whole

variable {turns : ℕ} {served erange : Bool} {cron : CronArrays} {argv : List CStr}
  {clock : CStr → UInt64} {fs : CStr → FsNode} {buf : StaticBuf} {env : Environment}
  {signals : Bool} {waits : List Spin}

/-- The operands the service takes snapshots of: those the stack has room for, and that are
found. -/
def observed (fs : CStr → FsNode) (argv : List CStr) : List CStr :=
  (texts ((operands argv).take (fileStackSize - 1))).filter fun path => (fs path).found

/-- The snapshots of the paths that are found are counted. -/
theorem created_found (l : List CStr) :
    created (fun path => fsTargetCreate clock path (fs path)) l =
      l.filter fun path => (fs path).found := by
  rw [created]
  congr 1
  funext path
  exact create_notNull clock path (fs path)

theorem created_observed :
    created (fun path => fsTargetCreate clock path (fs path))
      (texts ((operands argv).take (fileStackSize - 1))) = observed fs argv := created_found _

/-- A program whose `main` reaches `backd_init` does what the service does. -/
theorem daemon_started {create : CStr → FsTarget} {obs : ObsSt} {st : MainSt}
    (h : main turns served erange cron argv = some (.started st)) :
    daemon turns served erange cron argv create buf env signals waits obs =
      (service create buf env signals waits st.stack obs).map .ok := by
  rw [daemon, h, Option.map_eq_bind]
  rfl

/-- The program ends exactly if `main` does, and the service if it was started. -/
theorem daemon_iff {create : CStr → FsTarget} {obs : ObsSt} :
    (∃ r, daemon turns served erange cron argv create buf env signals waits obs = some r) ↔
      (∃ e, main turns served erange cron argv = some e) ∧
      ∀ st, main turns served erange cron argv = some (.started st) →
        ∃ r, service create buf env signals waits st.stack obs = some r := by
  cases hmain : main turns served erange cron argv with
  | none => simp [daemon, hmain]
  | some e =>
      cases e with
      | exit e => simp [daemon, hmain]
      | started st => simp [daemon_started hmain]

/-- **What the program does**, in terms of its command line and of the file system, when every
directory below an operand can be listed.

It ends exactly if the arguments are processed to an end and, if the service is started, there is
no `current` among the operands it takes from the stack, a signal comes, and the paths of all
files fit into the buffer unless it comes before the first round. The service went through the
files below the operands that the stack had room for and that were found, in post-order, once for
every wait that no signal ended. At the end it releases all snapshots, after a message of a failed
check for each. -/
theorem daemon_follows_operands (hturns : 61 ≤ turns)
    (hlist : ∀ path ∈ observed fs argv, ∀ m, Below (fs path) m → m.Listable) :
    ((∃ r, daemon turns served erange cron argv (fun path => fsTargetCreate clock path (fs path))
        buf env signals waits ⟨PathBuf.empty, []⟩ = some r) ↔
      (served = false ∨ argv ≠ [] ∧
        ∀ v ∈ handledCrons erange (mainScan argv.tail).items, AllEnd (cronMarks v)) ∧
      ∀ st, main turns served erange cron argv = some (.started st) →
        (∀ f ∈ (operands argv).take (fileStackSize - 1), ¬ f.Faults) ∧
        ∃ rounds, RoundsDue (observed fs argv) signals waits rounds ∧
          (rounds = 0 ∨ ∀ f ∈ filesOf fs 0 (observed fs argv), Fits f.path)) ∧
    ∀ events svc obs, daemon turns served erange cron argv
        (fun path => fsTargetCreate clock path (fs path)) buf env signals waits
        ⟨PathBuf.empty, []⟩ = some (.ok (events, svc, obs)) →
      ∃ rounds, RoundsDue (observed fs argv) signals waits rounds ∧
        obs.log.map Visit.seen =
          (List.replicate rounds (filesOf fs 0 (observed fs argv))).flatten ∧
        Settles (fun _ printed => printed = [.failed .target]) 0
          ((observed fs argv).map fun path => fsTargetCreate clock path (fs path)) events := by
  have hfound : ∀ path ∈ observed fs argv, (fs path).found = true :=
    fun path hmem => (List.mem_filter.mp hmem).2
  have hdelete : ∀ path ∈ observed fs argv,
      ∃ trace, fsTargetDelete (fsTargetCreate clock path (fs path)) = some trace := by
    intro path hmem
    obtain ⟨trace, htrace, -⟩ :=
      fsTargetDelete_releases (intact_listable (hfound path hmem) (hlist path hmem))
    exact ⟨trace, htrace⟩
  constructor
  · have hmain := main_ends turns served erange cron argv
    rw [daemon_iff]
    refine and_congr ⟨fun ⟨e, he⟩ => ?_, fun hok => ?_⟩ (forall_congr' fun st =>
      forall_congr' fun hst => ?_)
    · by_contra hstuck
      cases (hmain.stuck hstuck).symm.trans he
    · exact Option.isSome_iff_exists.mp (hmain.ends hok hturns)
    · rw [service_ends_iff (started_stack hst) PathBuf.path_empty, created_observed,
        passable_iff_filesOf hfound hlist 0]
      exact and_congr_right fun _ => and_iff_left hdelete
  · intro events svc obs hrun
    obtain ⟨e, hmain, hrun⟩ := Option.bind_eq_some_iff.mp hrun
    cases e with
    | exit e => cases hrun
    | started st =>
        obtain ⟨r, hservice, hrun⟩ := Option.bind_eq_some_iff.mp hrun
        cases hrun
        obtain ⟨svc₀, rounds, htook, hdue, hlog, hall, hsettles⟩ :=
          service_covers (started_stack hmain) PathBuf.path_empty hservice
        rw [created_observed] at htook hdue hsettles
        refine ⟨rounds.length, hdue, ?_, hsettles⟩
        rw [hlog, List.nil_append]
        exact htook.rounds_files hlist hall

end Whole

/-- One operand on the stack. -/
theorem FileStack.holds_one (path : Filename) :
    (filenameStackPush .empty path).Holds (List.reverse [path]) :=
  FileStack.empty_holds.push (by simp [fileStackSize]) path

theorem directoryNode_listable : ∀ m, Below directoryNode m → m.Listable := by
  intro m hm
  cases hm with
  | self => exact fun _ => ⟨_, rfl, Nat.le_trans (List.length_filter_le _ _) (by decide)⟩
  | entry hdir he _ hm =>
      obtain rfl := List.mem_singleton.mp he
      cases hm with
      | self => exact fun hdir => absurd hdir (by decide)

theorem started_directory :
    ∃ st, main 61 true false .cleared [[], [⟨97, by decide⟩]] = some (.started st) := ⟨_, rfl⟩

/-- The program is started for the directory `a`, with one file in it, and a signal comes in
the second wait: the file was gone to first, then the directory. -/
theorem daemon_follows_directory : ∃ r, daemon 61 true false .cleared [[], [⟨97, by decide⟩]]
      (fun path => fsTargetCreate (fun _ => 0) path directoryNode)
      ⟨List.replicate iobufMax 0, List.length_replicate⟩
      (fun _ _ => .answered (.error .enoent)) true twoWaits ⟨PathBuf.empty, []⟩ = some (.ok r) ∧
    r.2.2.log.map Visit.seen =
      [⟨[0, 0], [⟨97, by decide⟩, slash, ⟨98, by decide⟩], true⟩,
        ⟨[0], [⟨97, by decide⟩], true⟩] := by
  have hobserved : observed (fun _ => directoryNode) [[], [⟨97, by decide⟩]] =
      [[⟨97, by decide⟩]] := rfl
  have hfiles : filesOf (fun _ => directoryNode) 0 [[⟨97, by decide⟩]] =
      [⟨[0, 0], [⟨97, by decide⟩, slash, ⟨98, by decide⟩], true⟩,
        ⟨[0], [⟨97, by decide⟩], true⟩] := by decide
  obtain ⟨hends, hall⟩ := @daemon_follows_operands 61 true false .cleared
    [[], [⟨97, by decide⟩]] (fun _ => 0) (fun _ => directoryNode)
    ⟨List.replicate iobufMax 0, List.length_replicate⟩ (fun _ _ => .answered (.error .enoent))
    true twoWaits (Nat.le_refl 61) (fun _ _ => directoryNode_listable)
  rw [hobserved, hfiles] at hends hall
  have hdue : RoundsDue [[⟨97, by decide⟩]] true twoWaits 1 := by
    rw [RoundsDue, if_pos ⟨List.cons_ne_nil _ _, rfl⟩]
    exact signalAfter_twoWaits
  obtain ⟨r, hrun⟩ := hends.mpr ⟨.inr ⟨List.cons_ne_nil _ _, by decide⟩, fun _ _ =>
    ⟨by decide, 1, hdue, .inr (by decide)⟩⟩
  obtain ⟨st, hmain⟩ := started_directory
  have hstarted := hrun
  rw [daemon_started hmain, Option.map_eq_some_iff] at hstarted
  obtain ⟨⟨events, svc, obs⟩, -, rfl⟩ := hstarted
  obtain ⟨rounds, hdue', hseen, -⟩ := hall events svc obs hrun
  rw [RoundsDue, if_pos ⟨List.cons_ne_nil _ _, rfl⟩] at hdue'
  rw [← signalAfter_twoWaits.unique hdue'] at hseen
  exact ⟨_, hrun, hseen⟩

end Backd
