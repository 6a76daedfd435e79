import Backd.Daemon
import Backd.Library.Outline

/-!
# Reading a Listing Back

What `fs_target_print` writes of a tree is an outline of it: a line for every node, the more
indented the deeper the node is. The outline can be read, and gives back every node with its
place and its name, as long as the names can be told from what is around them: a name holds no
line end, begins with less than four blanks, and leaves room for the line end in the buffer of
`fputstr`.

For a snapshot that means that the listing tells the directories apart from which it was taken:
the nodes read are the files that a walk through the file system meets, in pre-order.

## Main results

* `Intact.isTree`: with a node of an intact tree there are its parent and its earlier siblings.
* `preorder_create`: the listing of a snapshot is the walk through the file system.
* `listing_round_trip`: what is printed reads back as the listing of the tree, and two trees
  print the same only if they have the same nodes.
* `snapshot_listed_back`: what is printed of a snapshot reads back as the files below its path.
-/

namespace Backd

open Outline TreeAddress

/-! ### Reading -/

/-- A line ends with `'\n'`, and a level is four blanks. -/
def listingLayout : Layout UInt8 where
  mark := 10
  blank := 32
  unit := 4
  mark_ne := by decide
  unit_pos := by omega

/-- The nodes a listing shows, with their names. -/
def readListing (text : Bytes) : List (List ℕ × Bytes) := listingLayout.readOutline text

/-- A name that can be told from what is around it, and that is not cut. -/
structure ShownWhole (name : CStr) : Prop where
  plain : listingLayout.Plain name.bytes
  length_lt : name.length < iobufMax

/-- The text of a listing is an outline. -/
theorem listingText_eq (t : FsTarget) :
    listingText t =
      listingLayout.writeOutline ((listing t).map fun line => (line.1, line.2.bytes)) := by
  rw [listingText, Layout.writeOutline, List.flatMap_map]
  refine List.flatMap_congr fun line _ => ?_
  rw [lineText, Layout.indented, List.append_assoc]
  rfl

/-! ### The nodes of an intact tree -/

section Tree

variable {t : FsTarget} {finfo : Finfo}

/-- With a node of a tree there are all nodes on the way to it. -/
theorem NodeAt.front {p q : List ℕ} (h : NodeAt t (p ++ q) finfo) :
    ∃ finfo', NodeAt t p finfo' := by
  induction p generalizing t with
  | nil =>
      obtain ⟨names, events, hreach⟩ := h
      cases hreach with
      | root => exact ⟨_, nodeAt_root.mpr rfl⟩
      | child => exact ⟨_, nodeAt_root.mpr rfl⟩
  | cons i p ih =>
      obtain ⟨names, events, hreach⟩ := h
      cases hreach with
      | child hdir hc hreach =>
          obtain ⟨finfo', hnode⟩ := ih ⟨_, _, hreach⟩
          exact ⟨finfo', nodeAt_cons.mpr ⟨hdir, _, hc, hnode⟩⟩

/-- With a node of an intact tree there are its earlier siblings. -/
theorem Intact.nodeAt_sibling (h : Intact t) {p : List ℕ} {k : ℕ}
    (hnode : NodeAt t (p ++ [k + 1]) finfo) : ∃ finfo', NodeAt t (p ++ [k]) finfo' := by
  induction p generalizing t with
  | nil =>
      obtain ⟨names, events, hreach⟩ := hnode
      cases hreach with
      | @child _ _ _ _ children _ _ _ _ hdir hc =>
          cases h with
          | leaf hleaf => exact absurd hdir hleaf
          | directory _ hintact =>
              obtain ⟨hlt, -⟩ := List.getElem?_eq_some_iff.mp hc
              have hk : children[k]? = some children[k] :=
                List.getElem?_eq_getElem (Nat.lt_of_succ_lt hlt)
              obtain ⟨finfo', hroot⟩ := (hintact _ (List.mem_of_getElem? hk)).nodeAt_root
              exact ⟨finfo', nodeAt_cons.mpr ⟨hdir, _, hk, hroot⟩⟩
  | cons i p ih =>
      obtain ⟨names, events, hreach⟩ := hnode
      cases hreach with
      | child hdir hc hreach =>
          cases h with
          | leaf hleaf => exact absurd hdir hleaf
          | directory _ hintact =>
              obtain ⟨finfo', hnode⟩ :=
                ih (hintact _ (List.mem_of_getElem? hc)) ⟨_, _, hreach⟩
              exact ⟨finfo', nodeAt_cons.mpr ⟨hdir, _, hc, hnode⟩⟩

/-- The lines of an intact tree make up a tree. -/
theorem Intact.isTree (h : Intact t) : IsTree (LineOf t) where
  parent := by
    rintro r k name ⟨finfo, hnode, -⟩
    obtain ⟨finfo', hparent⟩ := NodeAt.front hnode
    exact ⟨finfo'.name, finfo', hparent, rfl⟩
  sibling := by
    rintro r k name ⟨finfo, hnode, -⟩
    obtain ⟨finfo', hsibling⟩ := h.nodeAt_sibling hnode
    exact ⟨finfo'.name, finfo', hsibling, rfl⟩

/-- Every name of the tree is shown whole. -/
def NamesShown (t : FsTarget) : Prop := ∀ line, LineOf t line → ShownWhole line.2

theorem listing_lists (t : FsTarget) : Listing t (listing t) := (listing_iff t _).mpr rfl

/-- The names leave room for the line end. -/
theorem NamesShown.room {t : FsTarget} (h : NamesShown t) :
    ∀ line ∈ listing t, line.2.length < iobufMax :=
  fun line hline => (h line (((listing_lists t).mem_iff line).mp hline)).length_lt

/-- **The listing** of an intact tree is read off its text. -/
theorem readListing_listingText (h : Intact t) (hnames : NamesShown t) :
    readListing (listingText t) = (listing t).map fun line => (line.1, line.2.bytes) := by
  rw [readListing, listingText_eq]
  refine listingLayout.readOutline_writeOutline ((listing_lists t).map CStr.bytes)
    (h.isTree.map CStr.bytes) (List.forall_mem_map.mpr fun line hline => ?_)
  exact (hnames line (((listing_lists t).mem_iff line).mp hline)).plain

end Tree

/-! ### Round trips -/

/-- Listings that are read alike are the same. -/
theorem listing_injective {t t' : FsTarget}
    (h : ((listing t).map fun line => (line.1, line.2.bytes)) =
      (listing t').map fun line => (line.1, line.2.bytes)) : listing t = listing t' := by
  refine List.map_injective_iff.mpr ?_ h
  intro line line' heq
  rw [Prod.mk.injEq] at heq
  exact Prod.ext heq.1 (List.map_injective_iff.mpr Subtype.val_injective heq.2)

/-- Trees have the same listing exactly if they have the same nodes, with the same names. -/
theorem listing_eq_iff {t t' : FsTarget} :
    listing t = listing t' ↔ ∀ line, LineOf t line ↔ LineOf t' line := by
  constructor
  · intro heq line
    rw [← (listing_lists t).mem_iff, ← (listing_lists t').mem_iff, heq]
  · intro hlines
    exact ((listing_lists t).congr hlines).unique (listing_lists t')

/-- **What is printed** of an intact tree with names that are shown whole reads back as the
nodes of the tree, in pre-order, with their names. Another such tree prints the same exactly if
it has the same nodes, with the same names. -/
theorem listing_round_trip (buf : StaticBuf) (path : CStr) {t : FsTarget} (h : Intact t)
    (hnames : NamesShown t) :
    ∃ printed text, fsTargetPrint buf (some path) 0 t = some printed ∧ Writes printed text ∧
      (∃ l, Listing t l ∧ readListing text = l.map fun line => (line.1, line.2.bytes)) ∧
      ∀ (buf' : StaticBuf) (path' : CStr) (t' : FsTarget) (printed' : List PrintEvent),
        Intact t' → NamesShown t' → fsTargetPrint buf' (some path') 0 t' = some printed' →
        (Writes printed' text ↔ ∀ line, LineOf t line ↔ LineOf t' line) := by
  obtain ⟨printed, hrun, hwrites⟩ := fsTargetPrint_lists buf path h hnames.room
  have hread := readListing_listingText h hnames
  refine ⟨printed, _, hrun, hwrites, ⟨_, listing_lists t, hread⟩, ?_⟩
  intro buf' path' t' printed' h' hnames' hrun'
  obtain ⟨printed'', hrun'', hwrites'⟩ := fsTargetPrint_lists buf' path' h' hnames'.room
  obtain rfl := Option.some.inj (hrun'.symm.trans hrun'')
  rw [← listing_eq_iff]
  constructor
  · intro hsame
    have hread' := readListing_listingText h' hnames'
    rw [hwrites'.unique hsame, hread] at hread'
    exact listing_injective hread'
  · intro heq
    rwa [listingText, heq]

/-- The name `.` is shown whole. -/
theorem shownWhole_dot : ShownWhole [dot] := ⟨⟨by decide, Nat.zero_lt_succ 3⟩, by decide⟩

/-- A directory `.` with a file `.` in it is read back from what is printed of it. -/
theorem listing_round_trip_dots : ∃ printed text l,
    fsTargetPrint ⟨List.replicate iobufMax 0, List.length_replicate⟩ (some [dot]) 0
      (directoryWith [dot] [dot]) = some printed ∧ Writes printed text ∧
    Listing (directoryWith [dot] [dot]) l ∧
    readListing text = l.map fun line => (line.1, line.2.bytes) := by
  have hnames : NamesShown (directoryWith [dot] [dot]) := by
    intro line hline
    rw [← (listing_lists _).mem_iff] at hline
    rcases List.mem_cons.mp hline with rfl | hline
    · exact shownWhole_dot
    · rw [List.mem_singleton.mp hline]
      exact shownWhole_dot
  obtain ⟨printed, text, hrun, hwrites, ⟨l, hl, hread⟩, -⟩ := listing_round_trip
    ⟨List.replicate iobufMax 0, List.length_replicate⟩ [dot] (intact_directoryWith _ _) hnames
  exact ⟨printed, text, l, hrun, hwrites, hl, hread⟩

/-! ### Snapshots -/

mutual

/-- The files a walk meets at a path, with the directory in front of what is below it. -/
def namesAt (name : CStr) (node : List ℕ) : FsNode → List (List ℕ × CStr)
  | .node _ (.error _) _ => []
  | .node given (.ok _) entries =>
    (node, name) ::
      if filetype (givenStat given).mode = .directory then namesBelow node entries else []

/-- The files in a directory, or none if it cannot be opened. -/
def namesBelow (node : List ℕ) : Option (List (EntryName × FsNode)) → List (List ℕ × CStr)
  | none => []
  | some entries => namesFrom node 0 entries

/-- The files at the entries of a directory. The first that is found has the index `i`. -/
def namesFrom (node : List ℕ) (i : ℕ) : List (EntryName × FsNode) → List (List ℕ × CStr)
  | [] => []
  | (name, n) :: entries =>
    if visible name && n.found then
      namesAt name.1 (node ++ [i]) n ++ namesFrom node (i + 1) entries
    else namesFrom node i entries

end

/-- The listing below a directory is the walk through its entries, if that of each entry is. -/
theorem preorder_entries {clock : CStr → UInt64} {p : CStr} {node : List ℕ}
    {entries : List (EntryName × FsNode)} (i : ℕ)
    (h : ∀ e ∈ entries, visible e.1 = true → ∀ node,
      preorder node (fsTargetCreate clock (attach p e.1) e.2) = namesAt e.1.1 node e.2) :
    preorderFrom node i (entryTargets clock p entries) = namesFrom node i entries := by
  rw [entryTargets_eq]
  induction entries generalizing i with
  | nil => rw [namesFrom, foundEntries, List.filter_nil, List.map_nil, preorderFrom]
  | cons e entries ih =>
      obtain ⟨name, n⟩ := e
      rw [List.forall_mem_cons] at h
      rw [namesFrom]
      by_cases hkept : (visible name && n.found) = true
      · have hfound : foundEntries ((name, n) :: entries) = (name, n) :: foundEntries entries :=
          List.filter_cons_of_pos hkept
        have hhere := h.1 (Bool.and_eq_true_iff.mp hkept).1 (node ++ [i])
        rw [hfound, if_pos hkept, List.map_cons, preorderFrom, hhere, ih (i + 1) h.2]
      · have hfound : foundEntries ((name, n) :: entries) = foundEntries entries :=
          List.filter_cons_of_neg hkept
        rw [hfound, if_neg hkept, ih i h.2]

/-- **The listing of a snapshot** is the walk through the files below its path. -/
theorem preorder_create {clock : CStr → UInt64} {p : CStr} {n : FsNode}
    (hlist : ∀ m, Below n m → m.Listable) (node : List ℕ) :
    preorder node (fsTargetCreate clock p n) = namesAt (basename p) node n := by
  induction n using FsNode.induction generalizing p node with
  | hnode given lstat entries ih =>
      cases lstat with
      | error e => rw [fsTargetCreate_error, preorder, namesAt]
      | ok st =>
          rw [namesAt]
          by_cases hdir : filetype (givenStat given).mode = .directory
          · obtain ⟨es, rfl, hcount⟩ := hlist _ .self hdir
            have hentries :=
              @preorder_entries clock (basenameCut p) node es 0 fun e he hvis node => by
                have hentry := @ih es rfl e he (attach (basenameCut p) e.1)
                  (fun m hm => hlist m (.entry hdir he hvis hm)) node
                rwa [basename_attach] at hentry
            rw [fsTargetCreate_listed hdir st hcount, preorder, preorderChildren, if_pos hdir,
              namesBelow, hentries]
            exact congrArg _ (if_pos hdir)
          · rw [fsTargetCreate_file hdir, preorder, preorderChildren, if_neg hdir]
            rfl

section Service

variable {clock : CStr → UInt64} {fs : CStr → FsNode} {stack : FileStack} {todo : List Filename}
  {svc svc' : ServiceSt} {obs obs' : ObsSt} {log : List ((Environment × ℕ) × Bool)}

/-- **The snapshots are listed back.** The service takes snapshots of the operands on the stack
and observes them for any number of rounds, whatever the files do meanwhile. What is printed of
a snapshot then reads back as the files that were below its path, in pre-order, each with its
place and its name, if every directory could be listed and the names are shown whole. -/
theorem snapshots_listed_back (hstack : stack.Holds todo.reverse)
    (hinit : serviceInit (fun path => fsTargetCreate clock path (fs path)) stack = some svc)
    (hrun : roundMachine.Run (svc, obs) log (svc', obs')) {i : ℕ} {path : CStr}
    (hpath : ((texts todo).filter fun path => (fs path).found)[i]? = some path)
    (hlist : ∀ m, Below (fs path) m → m.Listable)
    (hnames : ∀ line ∈ namesAt (basename path) [] (fs path), ShownWhole line.2) :
    ∃ target, svc'.fp[i]? = some target ∧ ∀ (buf : StaticBuf) (p : CStr), ∃ printed text,
      fsTargetPrint buf (some p) 0 target = some printed ∧ Writes printed text ∧
      readListing text =
        (namesAt (basename path) [] (fs path)).map fun line => (line.1, line.2.bytes) := by
  obtain ⟨svc₀, hinit₀, htook⟩ :=
    serviceInit_takes (fun path => fsTargetCreate clock path (fs path)) hstack
      ((serviceInit_iff hstack).mp ⟨svc, hinit⟩)
  obtain rfl := Option.some.inj (hinit.symm.trans hinit₀)
  rw [created_found] at htook
  have hi : i < svc.fpIndex := htook.index ▸ (List.getElem?_eq_some_iff.mp hpath).1
  have hslot := htook.slot hi
  rw [hpath, Option.map_some] at hslot
  obtain ⟨target, htarget, hskeleton⟩ := (alike_of_run hrun).slot hslot
  refine ⟨target, htarget, fun buf p => ?_⟩
  have hfound : (fs path).found = true := (List.mem_filter.mp (List.mem_of_getElem? hpath)).2
  have hintact : Intact (fsTargetCreate clock path (fs path)) := intact_listable hfound hlist
  have hlisting : listing (fsTargetCreate clock path (fs path)) =
      namesAt (basename path) [] (fs path) := preorder_create hlist []
  have hshown : NamesShown (fsTargetCreate clock path (fs path)) := fun line hline =>
    hnames line (hlisting ▸ ((listing_lists _).mem_iff line).mpr hline)
  obtain ⟨printed, hprint, hwrites⟩ := fsTargetPrint_lists buf p hintact hshown.room
  rw [← hlisting]
  exact ⟨printed, _, (print_congr hskeleton 0).trans hprint, hwrites,
    readListing_listingText hintact hshown⟩

end Service

/-- The directory `a` with the file `b` in it is observed once, while both are missing. What is
printed of its snapshot still reads back as the two files. -/
theorem directory_listed_back : ∃ svc ok svc' obs target,
    serviceInit (fun path => fsTargetCreate (fun _ => 0) path directoryNode)
      (filenameStackPush .empty (.argument [⟨97, by decide⟩])) = some svc ∧
    observeTurn (fun _ _ => .answered (.error .enoent)) 0 (svc, ⟨PathBuf.empty, []⟩) =
      some (ok, (svc', obs)) ∧
    svc'.fp[0]? = some target ∧ ∀ (buf : StaticBuf) (p : CStr), ∃ printed text,
      fsTargetPrint buf (some p) 0 target = some printed ∧ Writes printed text ∧
      readListing text = [([], [97]), ([0], [98])] := by
  have hstack := FileStack.holds_one (.argument [⟨97, by decide⟩])
  obtain ⟨svc, hinit, htook⟩ := serviceInit_takes
    (fun path => fsTargetCreate (fun _ => 0) path directoryNode) hstack (by decide)
  have htaken : created (fun path => fsTargetCreate (fun _ => 0) path directoryNode)
      (texts [.argument [⟨97, by decide⟩]]) = [[⟨97, by decide⟩]] := created_found _
  rw [htaken] at htook
  have hi : 0 < svc.fpIndex := htook.index ▸ Nat.one_pos
  have hpass : Passable [] (fsTargetCreate (fun _ => 0) [⟨97, by decide⟩] directoryNode) :=
    (@passable_iff_files (fun _ => 0) _ [] [] _ rfl directoryNode_listable).mpr (by decide)
  obtain ⟨target', st, visits, hobserve, -⟩ := fsTargetObserve_covers _
    (fun _ _ => .answered (.error .enoent)) [0] [] ⟨PathBuf.empty, []⟩ PathBuf.path_empty hpass
  have hturn := observeTurn_held (htook.slot hi) trivial hobserve
  have hadmits : roundMachine.Admits (svc, ⟨PathBuf.empty, []⟩)
      ((fun _ _ => .answered (.error .enoent)), 0) := hi
  have hnames : ∀ line ∈ namesAt (basename [⟨97, by decide⟩]) [] directoryNode,
      ShownWhole line.2 := by
    intro line hline
    rcases List.mem_cons.mp hline with rfl | hline
    · exact ⟨⟨by decide, Nat.zero_lt_succ 3⟩, by decide⟩
    · rw [List.mem_singleton.mp hline]
      exact ⟨⟨by decide, Nat.zero_lt_succ 3⟩, by decide⟩
  have hkept : ((texts [.argument [⟨97, by decide⟩]]).filter
      fun _ : CStr => directoryNode.found)[0]? =
      some [⟨97, by decide⟩] := rfl
  obtain ⟨target, htarget, hlisted⟩ := snapshots_listed_back hstack hinit
    (.snoc .nil hadmits hturn) hkept directoryNode_listable hnames
  exact ⟨svc, _, _, _, target, hinit, hturn, htarget, hlisted⟩

end Backd
