import Mathlib.Data.List.DropRight
import Mathlib.Tactic.Common
import Backd.EventTrack

/-!
# Taking a Snapshot

`fs_target_create` and `handle_children` of `fs_target.c`: the recursion that builds the
target tree of a path.

`fs_target_create` asks `lstat` twice. The first time it passes the path as it is given, for
the info of the target. Then `basename` takes the slashes at the end of the string away, in
place, and the second `lstat`, `opendir` and the history get what is left. With a slash behind
it, a link to a directory has the type of the directory and the stat of the link, and a file is
not found at first.

The file system below a path is a tree (`FsNode`): what `lstat` answers each time, and the
entries `readdir` lists, unless `opendir` refuses. All allocations are taken to succeed; the
growth limit of `array_adjust` is not an allocation failure, and is part of the model.

When a directory cannot be opened, `handle_children` releases the target, and
`fs_target_create` returns the address of the released record.

## Main results

* `fsTargetCreate_eq_null_iff`: `NULL` is returned exactly when the second `lstat` fails.
* `snapshot_mirrors_iff`: the tree returned mirrors the file system exactly when `lstat`
  answers alike both times, and every directory reached can be opened and fits into its
  children array.
-/

namespace Backd

/-! ### The file system -/

/-- A name `readdir` can return. -/
abbrev EntryName := {s : CStr // s ≠ [] ∧ slash ∉ s}

/-- The file system below a path: the answer of `lstat` for the path as it is given, the answer
for the path as `basename` leaves it, and the entries of the directory there, or `none` when
`opendir` refuses. -/
inductive FsNode
  | node (given lstat : LstatResult) (entries : Option (List (EntryName × FsNode)))

/-- Induction over file systems. -/
theorem FsNode.induction {P : FsNode → Prop}
    (hnode : ∀ given lstat entries, (∀ es, entries = some es → ∀ e ∈ es, P e.2) →
      P (.node given lstat entries)) (n : FsNode) : P n := by
  refine FsNode.rec (motive_1 := P) (motive_2 := fun entries =>
    ∀ es, entries = some es → ∀ e ∈ es, P e.2) (motive_3 := fun es => ∀ e ∈ es, P e.2)
    (motive_4 := fun e => P e.2) hnode ?_ ?_ ?_ ?_ ?_ n
  · rintro es ⟨⟩
  · rintro es ih _ ⟨⟩
    exact ih
  · rintro e ⟨⟩
  · intro e es he hes x hx
    rcases List.mem_cons.mp hx with rfl | hx
    · exact he
    · exact hes x hx
  · exact fun _ _ ih => ih

/-- What `basename` returns: the last component, without trailing slashes. -/
def basename (path : CStr) : CStr :=
  if path = [] then [dot]
  else
    let p := path.rdropWhile (· = slash)
    if p = [] then [slash] else p.rtakeWhile (· ≠ slash)

/-- What `basename` leaves of its argument, which POSIX lets it modify: it writes a NUL behind
the last component, where slashes follow. A string of slashes only is left alone. -/
def basenameCut (path : CStr) : CStr :=
  let p := path.rdropWhile (· = slash)
  if p = [] then path else p

/-! ### The functions of `fs_target.c` -/

/-- `sys_lstat_exec`: a failure is reported, but the call still returns `true`. -/
def sysLstatExec (lstat : LstatResult) (st : Stat) : Bool × Stat :=
  match lstat with
  | .error _ => (true, st)
  | .ok st => (true, st)

/-- `fs_target_set_info`. -/
def fsTargetSetInfo (path : CStr) (st : Stat) : Finfo :=
  { name := basename path, uid := fuidCreate st, type := filetype st.mode, ok := true }

/-- `fs_target_dealloc`: what is left behind the pointer. -/
def fsTargetDealloc : FsTarget → FsTarget
  | .null => .null
  | .released | .live _ _ _ => .released

/-- `fs_target_children_init`: an array for twelve pointers. -/
def fsTargetChildrenInit : Records FsTarget := Records.create ptrSize 12

/-- `fs_target_children_push`. -/
def fsTargetChildrenPush (children : Records FsTarget) (other : FsTarget) :
    Bool × Records FsTarget :=
  match other with
  | .null => (false, children)
  | .released | .live _ _ _ => children.push ptrSize (fun _ => true) other

/-- `attach`. -/
def attach (dirname name : CStr) : CStr :=
  let dest := if dirname = [dot] then []
    else if dirname ≠ [] ∧ dirname.getLast? ≠ some slash then dirname ++ [slash]
    else dirname
  dest ++ name

/-- The entries `directory_next_entry` does not skip. -/
def visible (name : EntryName) : Bool :=
  decide (name.1 ≠ [dot] ∧ name.1 ≠ [dot, dot])

mutual

/-- `fs_target_create`. Once the info is set, the string is the one `basename` leaves. The clock
is read when the history is begun. -/
def fsTargetCreate (clock : CStr → UInt64) (path : CStr) : FsNode → FsTarget
  | .node given lstat entries =>
    let (found, st) := sysLstatExec given .zeroed
    if !found then .null
    else
      let finfo := fsTargetSetInfo path st
      let path := basenameCut path
      match fsTargetEventInit path lstat (clock path) with
      | none => .null
      | some events =>
        if finfo.type = .directory then (handleChildren clock path finfo events entries).2
        else .live finfo events none

/-- `handle_children`, on a target that has its info and its history: the result, and what
is left behind the pointer to the target. -/
def handleChildren (clock : CStr → UInt64) (path : CStr) (finfo : Finfo)
    (events : Records FsTargetEvent) :
    Option (List (EntryName × FsNode)) → Bool × FsTarget
  | none => (false, fsTargetDealloc (.live finfo events (some fsTargetChildrenInit.items)))
  | some entries =>
    (true, .live finfo events (some (readEntries clock path fsTargetChildrenInit entries).items))

/-- The loop of `handle_children` over the entries, with the children so far. -/
def readEntries (clock : CStr → UInt64) (path : CStr) (children : Records FsTarget) :
    List (EntryName × FsNode) → Records FsTarget
  | [] => children
  | (name, node) :: entries =>
    if visible name then
      let child := fsTargetCreate clock (attach path name) node
      readEntries clock path (fsTargetChildrenPush children child).2 entries
    else readEntries clock path children entries

end

/-! ### What the functions compute -/

/-- The number of pointers a children array can grow to hold. -/
def maxChildren : ℕ := 201326591

/-- The children array while it is filled: its capacity has been doubled some number of
times, up to the growth limit, and the pointers leave the last word free. -/
def ChildArray (r : Records FsTarget) : Prop :=
  ∃ k ≤ 24, r.cap = 96 * 2 ^ k ∧ ptrSize * r.items.length < r.cap

theorem childArray_init : ChildArray fsTargetChildrenInit :=
  ⟨0, by decide, rfl, by decide⟩

/-- A push finds room until the growth limit is reached. -/
theorem ChildArray.push {r : Records FsTarget} (h : ChildArray r) (t : FsTarget) :
    ChildArray (r.push ptrSize (fun _ => true) t).2 ∧
      (r.push ptrSize (fun _ => true) t).2.items =
        r.items ++ if r.items.length < maxChildren then [t] else [] := by
  obtain ⟨k, hk, hcap, hlen⟩ := h
  have hpow : 2 ^ k ≤ 2 ^ 24 := Nat.pow_le_pow_right (by decide) hk
  have hmul : szMul r.cap 2 = r.cap * 2 := szMul_eq (by simp only [sizeMax]; omega)
  simp only [ptrSize] at hlen
  by_cases hfit : ptrSize * (r.items.length + 1) < r.cap
  · have hroom : r.items.length < maxChildren := by
      simp only [maxChildren, ptrSize] at *
      omega
    have hgrowth : growth r.cap false (ptrSize * (r.items.length + 1)) = .fits := if_pos hfit
    simp only [Records.push, hgrowth, if_pos hroom]
    exact ⟨⟨k, hk, hcap, by simpa using hfit⟩, trivial⟩
  · -- the last free word is asked for, so the buffer doubles, or is at the limit
    have hfull : ptrSize * (r.items.length + 1) = r.cap := by
      have hpos : 0 < 2 ^ k := Nat.pow_pos (by decide)
      simp only [ptrSize] at *
      omega
    have hinit : ¬ r.cap * 2 < arrayInitialSize := by
      have hpos : 0 < 2 ^ k := Nat.pow_pos (by decide)
      simp only [arrayInitialSize]
      omega
    rcases Nat.lt_or_eq_of_le hk with hlt | rfl
    · have hhalf : 2 ^ k ≤ 2 ^ 23 := Nat.pow_le_pow_right (by decide) (by omega)
      have hmax : ¬ r.cap * 2 > intMax := by
        simp only [intMax]
        omega
      have hroom : r.items.length < maxChildren := by
        simp only [maxChildren, ptrSize] at *
        omega
      have hgrowth : growth r.cap false (ptrSize * (r.items.length + 1)) =
          .realloc (r.cap * 2) := by
        have hnew : newSize r.cap (r.cap * 2) = r.cap * 2 := if_neg (by omega)
        simp [growth, hmul, hinit, hmax, hfull, hnew]
      simp only [Records.push, hgrowth, if_true, if_pos hroom]
      refine ⟨⟨k + 1, by omega, by rw [hcap, Nat.pow_succ, Nat.mul_assoc], ?_⟩, trivial⟩
      simp only [List.length_append, List.length_singleton, hfull]
      omega
    · have hmax : r.cap * 2 > intMax := by
        simp only [intMax]
        omega
      have hroom : ¬ r.items.length < maxChildren := by
        simp only [maxChildren, ptrSize] at *
        omega
      have hgrowth : growth r.cap false (ptrSize * (r.items.length + 1)) = .refuse := by
        simp [growth, hmul, hinit, hmax, hfull]
      simp only [Records.push, hgrowth, if_neg hroom, List.append_nil, and_true]
      exact ⟨24, hk, hcap, by simpa [ptrSize] using hlen⟩

section Create

variable {clock : CStr → UInt64} {path : CStr}

/-- The targets of the entries of a directory: for each entry that is not skipped, what
its own creation gives. -/
def entryTargets (clock : CStr → UInt64) (path : CStr) (entries : List (EntryName × FsNode)) :
    List FsTarget :=
  ((entries.filter fun e => visible e.1).map fun e =>
    fsTargetCreate clock (attach path e.1) e.2).filter fun t => t.NotNull

/-- One turn of the loop. -/
theorem readEntries_cons (r : Records FsTarget) (name : EntryName) (node : FsNode)
    (entries : List (EntryName × FsNode)) :
    readEntries clock path r ((name, node) :: entries) =
      if visible name then
        readEntries clock path
          (fsTargetChildrenPush r (fsTargetCreate clock (attach path name) node)).2 entries
      else readEntries clock path r entries := by
  rw [readEntries]

/-- **The loop over the entries** keeps their targets, as far as the array can grow. -/
theorem readEntries_items (clock : CStr → UInt64) (path : CStr) {r : Records FsTarget}
    (h : ChildArray r) (entries : List (EntryName × FsNode)) :
    (readEntries clock path r entries).items = r.items ++
      (entryTargets clock path entries).take (maxChildren - r.items.length) := by
  induction entries generalizing r with
  | nil => simp [readEntries, entryTargets]
  | cons e entries ih =>
      obtain ⟨name, node⟩ := e
      by_cases hvis : visible name = true
      · by_cases hnull : (fsTargetCreate clock (attach path name) node).NotNull
        · have htargets : entryTargets clock path ((name, node) :: entries) =
              fsTargetCreate clock (attach path name) node ::
                entryTargets clock path entries := by
            simp [entryTargets, hvis, hnull]
          obtain ⟨hnext, hitems⟩ := h.push (fsTargetCreate clock (attach path name) node)
          have hpush : fsTargetChildrenPush r (fsTargetCreate clock (attach path name) node) =
              r.push ptrSize (fun _ => true) (fsTargetCreate clock (attach path name) node) := by
            cases hc : fsTargetCreate clock (attach path name) node with
            | null => simp [hc, FsTarget.NotNull] at hnull
            | released | live _ _ _ => rfl
          rw [readEntries_cons, if_pos hvis, hpush, ih hnext, hitems, htargets]
          by_cases hroom : r.items.length < maxChildren
          · obtain ⟨m, hm⟩ : ∃ m, maxChildren - r.items.length = m + 1 :=
              ⟨maxChildren - r.items.length - 1, by omega⟩
            have hm' : maxChildren - (r.items ++
                [fsTargetCreate clock (attach path name) node]).length = m := by
              simp only [List.length_append, List.length_singleton]
              omega
            rw [if_pos hroom, hm', hm, List.take_succ_cons, List.append_assoc]
            rfl
          · have hfull : maxChildren - r.items.length = 0 := by omega
            simp [if_neg hroom, hfull]
        · have hnull' : fsTargetCreate clock (attach path name) node = .null := by
            cases hc : fsTargetCreate clock (attach path name) node with
            | null => rfl
            | released | live _ _ _ => simp [hc, FsTarget.NotNull] at hnull
          have htargets : entryTargets clock path ((name, node) :: entries) =
              entryTargets clock path entries := by
            simp [entryTargets, hvis, hnull]
          rw [readEntries_cons, if_pos hvis, hnull', htargets]
          exact ih h
      · have htargets : entryTargets clock path ((name, node) :: entries) =
            entryTargets clock path entries := by
          simp [entryTargets, hvis]
        rw [readEntries_cons, if_neg hvis, htargets, ih h]

/-- The history a target begins with. -/
def acknowledged (clock : CStr → UInt64) (path : CStr) (st : Stat) : Records FsTargetEvent :=
  ⟨[ackEvent path st (clock path)], 2016⟩

/-- The stat the info of a target is set from: it stays zeroed if `lstat` fails at the path as
it is given. -/
def givenStat (given : LstatResult) : Stat := (sysLstatExec given .zeroed).2

/-- The first `lstat` never keeps a target from being created. -/
theorem sysLstatExec_eq (given : LstatResult) :
    sysLstatExec given .zeroed = (true, givenStat given) := by
  cases given <;> rfl

/-- What `lstat` does not find at first is no directory. -/
theorem filetype_givenStat_error (e : Errno) :
    filetype (givenStat (.error e)).mode ≠ .directory :=
  show filetype Stat.zeroed.mode ≠ .directory by decide

/-- A history records one stat. -/
theorem acknowledged_stat {clock : CStr → UInt64} {path : CStr} {st st' : Stat}
    (h : (acknowledged clock path st).items = [ackEvent path st' (clock path)]) : st = st' :=
  congrArg FsTargetEvent.st (List.cons.inj h).1

/-- When the second `lstat` succeeds, the info and the history are there. -/
theorem fsTargetCreate_ok (given : LstatResult) (st : Stat)
    (entries : Option (List (EntryName × FsNode))) :
    fsTargetCreate clock path (.node given (.ok st) entries) =
      if filetype (givenStat given).mode = .directory then
        (handleChildren clock (basenameCut path) (fsTargetSetInfo path (givenStat given))
          (acknowledged clock (basenameCut path) st) entries).2
      else .live (fsTargetSetInfo path (givenStat given))
        (acknowledged clock (basenameCut path) st) none := by
  rw [fsTargetCreate, sysLstatExec_eq]
  rfl

/-- **`fs_target_create`**, by the second answer of `lstat`. -/
theorem fsTargetCreate_error (given : LstatResult) (e : Errno)
    (entries : Option (List (EntryName × FsNode))) :
    fsTargetCreate clock path (.node given (.error e) entries) = .null := by
  rw [fsTargetCreate, sysLstatExec_eq]
  rfl

theorem fsTargetCreate_file {given : LstatResult}
    (h : filetype (givenStat given).mode ≠ .directory) (st : Stat)
    (entries : Option (List (EntryName × FsNode))) :
    fsTargetCreate clock path (.node given (.ok st) entries) =
      .live (fsTargetSetInfo path (givenStat given))
        (acknowledged clock (basenameCut path) st) none := by
  rw [fsTargetCreate_ok, if_neg h]

theorem fsTargetCreate_refused {given : LstatResult}
    (h : filetype (givenStat given).mode = .directory) (st : Stat) :
    fsTargetCreate clock path (.node given (.ok st) none) = .released := by
  rw [fsTargetCreate_ok, if_pos h]
  rfl

theorem fsTargetCreate_directory {given : LstatResult}
    (h : filetype (givenStat given).mode = .directory) (st : Stat)
    (entries : List (EntryName × FsNode)) :
    fsTargetCreate clock path (.node given (.ok st) (some entries)) =
      .live (fsTargetSetInfo path (givenStat given)) (acknowledged clock (basenameCut path) st)
        (some ((entryTargets clock (basenameCut path) entries).take maxChildren)) := by
  have hitems := readEntries_items clock (basenameCut path) childArray_init entries
  rw [fsTargetCreate_ok, if_pos h, handleChildren, hitems]
  rfl

/-- `NULL` is returned exactly when the second `lstat` fails. -/
theorem fsTargetCreate_eq_null_iff (given lstat : LstatResult)
    (entries : Option (List (EntryName × FsNode))) :
    fsTargetCreate clock path (.node given lstat entries) = .null ↔ ∃ e, lstat = .error e := by
  cases lstat with
  | error e => simp [fsTargetCreate_error]
  | ok st =>
      by_cases hdir : filetype (givenStat given).mode = .directory
      · cases entries with
        | none => simp [fsTargetCreate_refused hdir]
        | some es => simp [fsTargetCreate_directory hdir]
      · simp [fsTargetCreate_file hdir]

/-! ### The mirror of the file system -/

/-- The data a node takes from its path and its stat. -/
structure Carries (path : CStr) (st : Stat) (finfo : Finfo) : Prop where
  name : finfo.name = basename path
  type : finfo.type = filetype st.mode
  uid : finfo.uid = fuidCreate st

/-- `t` is a live image of the file system below `path`, as `lstat` sees it at the path that is
given. Each node carries its data and a history of one event, the acknowledgement with the same
stat. The children of a directory are, in order, the targets of the entries whose own creation
gave one, themselves images of the entries. A directory that is still found and cannot be opened
may be left out, or be without children. -/
inductive Mirrors (clock : CStr → UInt64) : CStr → FsNode → FsTarget → Prop
  | absent {path : CStr} {e : Errno} {lstat : LstatResult}
      {entries : Option (List (EntryName × FsNode))} :
      Mirrors clock path (.node (.error e) lstat entries) .null
  | file {path : CStr} {st : Stat} {lstat : LstatResult}
      {entries : Option (List (EntryName × FsNode))}
      {finfo : Finfo} {events : Records FsTargetEvent} :
      filetype st.mode ≠ .directory → Carries path st finfo →
      events.items = [ackEvent (basenameCut path) st (clock (basenameCut path))] →
      Mirrors clock path (.node (.ok st) lstat entries) (.live finfo events none)
  | leftOut {path : CStr} {st st' : Stat} :
      filetype st.mode = .directory → Mirrors clock path (.node (.ok st) (.ok st') none) .null
  | unopened {path : CStr} {st : Stat} {lstat : LstatResult} {finfo : Finfo}
      {events : Records FsTargetEvent} {children : Option (List FsTarget)} :
      filetype st.mode = .directory → Carries path st finfo →
      events.items = [ackEvent (basenameCut path) st (clock (basenameCut path))] →
      children.getD [] = [] →
      Mirrors clock path (.node (.ok st) lstat none) (.live finfo events children)
  | directory {path : CStr} {st : Stat} {lstat : LstatResult}
      {entries : List (EntryName × FsNode)}
      {finfo : Finfo} {events : Records FsTargetEvent} :
      filetype st.mode = .directory → Carries path st finfo →
      events.items = [ackEvent (basenameCut path) st (clock (basenameCut path))] →
      (∀ e ∈ entries, visible e.1 = true →
        Mirrors clock (attach (basenameCut path) e.1) e.2
          (fsTargetCreate clock (attach (basenameCut path) e.1) e.2)) →
      Mirrors clock path (.node (.ok st) lstat (some entries))
        (.live finfo events (some (entryTargets clock (basenameCut path) entries)))

/-- The nodes a snapshot comes to: it descends into the directories, and passes over the
entries `.` and `..`. -/
inductive Below : FsNode → FsNode → Prop
  | self {n : FsNode} : Below n n
  | entry {given : LstatResult} {st : Stat} {entries : List (EntryName × FsNode)}
      {e : EntryName × FsNode} {m : FsNode} :
      filetype (givenStat given).mode = .directory → e ∈ entries → visible e.1 = true →
      Below e.2 m → Below (.node given (.ok st) (some entries)) m

/-- `lstat` succeeds at the node, the second time. -/
def FsNode.found : FsNode → Bool
  | .node _ (.ok _) _ => true
  | .node _ (.error _) _ => false

/-- The entries of a directory that are neither skipped nor missing. -/
def foundEntries (entries : List (EntryName × FsNode)) : List (EntryName × FsNode) :=
  entries.filter fun e => visible e.1 && e.2.found

/-- If the node is a directory, it can be opened, and the entries found in it fit into a
children array. -/
def FsNode.Listable : FsNode → Prop
  | .node _ (.error _) _ => True
  | .node given (.ok _) entries => filetype (givenStat given).mode = .directory →
      ∃ es, entries = some es ∧ (foundEntries es).length ≤ maxChildren

/-- `lstat` answers alike for the path as it is given and as `basename` leaves it: it fails both
times, or it has the same stat. -/
def FsNode.Agrees : FsNode → Prop
  | .node (.ok st) (.ok st') _ => st = st'
  | .node (.error _) (.error _) _ => True
  | .node (.ok _) (.error _) _ | .node (.error _) (.ok _) _ => False

/-- A target is created exactly where `lstat` succeeds. -/
theorem create_notNull (clock : CStr → UInt64) (path : CStr) (n : FsNode) :
    decide (fsTargetCreate clock path n).NotNull = n.found := by
  obtain ⟨given, lstat, entries⟩ := n
  cases h : fsTargetCreate clock path (.node given lstat entries) with
  | null =>
      obtain ⟨e, rfl⟩ := (fsTargetCreate_eq_null_iff given lstat entries).mp h
      rfl
  | released | live _ _ _ =>
      cases lstat with
      | ok st => rfl
      | error e => simp [fsTargetCreate_error] at h

/-- The targets of a directory are those of the entries found in it. -/
theorem entryTargets_eq (entries : List (EntryName × FsNode)) :
    entryTargets clock path entries =
      (foundEntries entries).map fun e => fsTargetCreate clock (attach path e.1) e.2 := by
  simp only [entryTargets, foundEntries, List.filter_map, List.filter_filter,
    Function.comp_def, create_notNull, Bool.and_comm]

theorem length_entryTargets (clock : CStr → UInt64) (path : CStr)
    (entries : List (EntryName × FsNode)) :
    (entryTargets clock path entries).length = (foundEntries entries).length := by
  rw [entryTargets_eq, List.length_map]

/-- When its entries fit into a children array, a directory keeps the targets of all of them. -/
theorem fsTargetCreate_listed {given : LstatResult}
    (h : filetype (givenStat given).mode = .directory) (st : Stat)
    {entries : List (EntryName × FsNode)} (hcount : (foundEntries entries).length ≤ maxChildren) :
    fsTargetCreate clock path (.node given (.ok st) (some entries)) =
      .live (fsTargetSetInfo path (givenStat given)) (acknowledged clock (basenameCut path) st)
        (some (entryTargets clock (basenameCut path) entries)) := by
  have hall : (entryTargets clock (basenameCut path) entries).take maxChildren =
      entryTargets clock (basenameCut path) entries :=
    List.take_of_length_le (by rwa [length_entryTargets])
  rw [fsTargetCreate_directory h, hall]

/-- What a snapshot gives carries its data. -/
theorem carries_setInfo (path : CStr) (st : Stat) : Carries path st (fsTargetSetInfo path st) :=
  ⟨rfl, rfl, rfl⟩

/-- An image of a node shows that `lstat` agrees, and that a directory is listable. -/
theorem Mirrors.answers {n : FsNode} (h : Mirrors clock path n (fsTargetCreate clock path n)) :
    n.Listable ∧ n.Agrees := by
  obtain ⟨given, lstat, entries⟩ := n
  cases lstat with
  | error e =>
      refine ⟨trivial, ?_⟩
      rw [fsTargetCreate_error] at h
      cases h
      exact trivial
  | ok st' =>
      by_cases hdir : filetype (givenStat given).mode = .directory
      · cases entries with
        | none =>
            rw [fsTargetCreate_refused hdir] at h
            cases h
        | some es =>
            rw [fsTargetCreate_directory hdir] at h
            generalize hkept : (entryTargets clock (basenameCut path) es).take maxChildren = kept
              at h
            generalize hhistory : acknowledged clock (basenameCut path) st' = events at h
            cases h with
            | directory _ _ hevents =>
                subst hhistory
                have hlen := congrArg List.length hkept
                rw [List.length_take] at hlen
                refine ⟨fun _ => ⟨es, rfl, ?_⟩, (acknowledged_stat hevents).symm⟩
                rw [← length_entryTargets clock (basenameCut path)]
                omega
      · refine ⟨fun hdir' => absurd hdir' hdir, ?_⟩
        rw [fsTargetCreate_file hdir] at h
        generalize hhistory : acknowledged clock (basenameCut path) st' = events at h
        cases h with
        | file _ _ hevents =>
            subst hhistory
            exact (acknowledged_stat hevents).symm
        | unopened hdir' => exact absurd hdir' hdir

/-- An image of a directory contains images of its entries. -/
theorem Mirrors.entry {given lstat : LstatResult} {entries : List (EntryName × FsNode)}
    {t : FsTarget} (h : Mirrors clock path (.node given lstat (some entries)) t)
    (hdir : filetype (givenStat given).mode = .directory) {e : EntryName × FsNode}
    (he : e ∈ entries) (hvis : visible e.1 = true) :
    Mirrors clock (attach (basenameCut path) e.1) e.2
      (fsTargetCreate clock (attach (basenameCut path) e.1) e.2) := by
  cases h with
  | absent => exact absurd hdir (filetype_givenStat_error _)
  | file hfile => exact absurd hdir hfile
  | directory _ _ _ hentries => exact hentries e he hvis

end Create

/-- An image shows that `lstat` agrees at every node it comes to, and that every directory among
them is listable. -/
theorem Mirrors.answers_below {clock : CStr → UInt64} {path : CStr} {n m : FsNode}
    (h : Mirrors clock path n (fsTargetCreate clock path n)) (hm : Below n m) :
    m.Listable ∧ m.Agrees := by
  induction hm generalizing path with
  | self => exact h.answers
  | entry hdir he hvis _ ih => exact ih (h.entry hdir he hvis)

/-- When `lstat` agrees at every node it comes to, and every directory among them is listable,
the snapshot is an image. -/
theorem mirrors_of_answers {clock : CStr → UInt64} {path : CStr} {n : FsNode}
    (h : ∀ m, Below n m → m.Listable ∧ m.Agrees) :
    Mirrors clock path n (fsTargetCreate clock path n) := by
  induction n using FsNode.induction generalizing path with
  | hnode given lstat entries ih =>
      obtain ⟨hlistable, hagrees⟩ := h _ .self
      cases given with
      | error e =>
          cases lstat with
          | ok st => exact hagrees.elim
          | error e' =>
              rw [fsTargetCreate_error]
              exact .absent
      | ok st =>
          cases lstat with
          | error e => exact hagrees.elim
          | ok st' =>
              obtain rfl : st = st' := hagrees
              by_cases hdir : filetype (givenStat (.ok st)).mode = .directory
              · obtain ⟨es, rfl, hcount⟩ := hlistable hdir
                rw [fsTargetCreate_listed hdir st hcount]
                refine .directory hdir (carries_setInfo path st) rfl ?_
                intro e he hvis
                exact ih es rfl e he fun m hm => h m (.entry hdir he hvis hm)
              · rw [fsTargetCreate_file hdir]
                exact .file hdir (carries_setInfo path st) rfl

/-- **The snapshot mirrors the file system** (with `NULL` for a path that `lstat` does not
find) exactly when `lstat` answers alike, at every node the snapshot comes to, for the path that
is given and for what `basename` leaves of it, and every directory it comes to can be opened and
has at most `maxChildren` entries that are found. -/
theorem snapshot_mirrors_iff (clock : CStr → UInt64) (path : CStr) (given lstat : LstatResult)
    (entries : Option (List (EntryName × FsNode))) :
    ((fsTargetCreate clock path (.node given lstat entries) = .null ↔ ∃ e, given = .error e) ∧
        Mirrors clock path (.node given lstat entries)
          (fsTargetCreate clock path (.node given lstat entries))) ↔
      ∀ m, Below (.node given lstat entries) m → m.Listable ∧ m.Agrees := by
  constructor
  · rintro ⟨-, h⟩ m hm
    exact h.answers_below hm
  · intro h
    refine ⟨?_, mirrors_of_answers h⟩
    rw [fsTargetCreate_eq_null_iff]
    have hagrees := (h _ .self).2
    cases given <;> cases lstat
    · exact iff_of_true ⟨_, rfl⟩ ⟨_, rfl⟩
    · exact hagrees.elim
    · exact hagrees.elim
    · simp

/-- The stat of a directory. -/
def directoryStat : Stat := { Stat.zeroed with mode := 0o040755 }

/-- For a directory that cannot be opened, the released record is returned. -/
theorem refused_directory_released :
    ¬ ∀ (clock : CStr → UInt64) (path : CStr) (given lstat : LstatResult)
        (entries : Option (List (EntryName × FsNode))),
      (fsTargetCreate clock path (.node given lstat entries) = .null ↔ ∃ e, given = .error e) ∧
        Mirrors clock path (.node given lstat entries)
          (fsTargetCreate clock path (.node given lstat entries)) := by
  intro h
  have hmirrors := (h (fun _ => 0) [dot] (.ok directoryStat) (.ok directoryStat) none).2
  rw [fsTargetCreate_refused (by decide)] at hmirrors
  cases hmirrors

end Backd
