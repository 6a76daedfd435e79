import Backd.FsDelete
import Backd.StringRender
import Backd.Library.TreeAddress

/-!
# Printing a Target Tree

`fs_target_print` writes the names of a tree to the standard error output, a line a node,
with four blanks for every level below the root.

The listing of a tree is its nodes, each once, with their names, in pre-order: a node comes
before everything below it, and siblings come in the order of their indices. That is the
lexicographic order of the child indices on the way to a node.

## Conventions

What is printed is the sequence of the texts handed to `write`, and of the checks that fail;
these print a message of their own. The static buffer of `fputstr` is a parameter: no text
depends on what it held before (`fputstr_renders`). A depth is a natural, since the printer
starts with zero. A printer that reads a released record, or a missing children array, stops
with `none`.

## Main results

* `listing_iff`: `listing` computes the listing of a tree.
* `fsTargetPrint_lists_iff`: printing writes the listing, with lines cut at `IOBUF_MAX`, of
  the trees it gets through, and these are the intact ones.
* `fsTargetPrint_lists`: no line is cut if the names leave room.
-/

namespace Backd

open TreeAddress

/-! ### The printer -/

/-- The two checks in front of the printer. -/
inductive PrintCheck
  | target
  | initialPath
  deriving DecidableEq, Repr

/-- A text handed to `write`, or the message of a check that fails. -/
inductive PrintEvent
  | write (text : Bytes)
  | failed (check : PrintCheck)
  deriving DecidableEq, Repr

/-- `"    "`. -/
def indentFormat : CStr := List.replicate 4 ⟨32, by decide⟩

/-- `"%s\n"`. -/
def nameFormat : CStr := [percent, letterS, ⟨10, by decide⟩]

/-- `ft_target_print_name`. -/
def ftTargetPrintName (buf : StaticBuf) (depth : ℕ) (name : CStr) :
    Option (List PrintEvent) :=
  match depth with
  | 0 => do
    let text ← fputstr buf nameFormat [.str (some name)]
    return [.write text]
  | depth + 1 => do
    let text ← fputstr buf indentFormat []
    let rest ← ftTargetPrintName buf depth name
    return .write text :: rest

mutual

/-- `fs_target_print`. The path is only checked and handed on. -/
def fsTargetPrint (buf : StaticBuf) (initialPath : Option CStr) (depth : ℕ) :
    FsTarget → Option (List PrintEvent)
  | .null => some [.failed .target]
  | .released => if initialPath = none then some [.failed .initialPath] else none
  | .live finfo _ children =>
    if initialPath = none then some [.failed .initialPath]
    else do
      let here ← ftTargetPrintName buf depth finfo.name
      if finfo.type = .directory then do
        let below ← printChildren buf initialPath depth children
        return here ++ below
      else return here

/-- What is printed below a directory. -/
def printChildren (buf : StaticBuf) (initialPath : Option CStr) (depth : ℕ) :
    Option (List FsTarget) → Option (List PrintEvent)
  | none => none
  | some children => printFrom buf initialPath depth children

/-- `while (i < dirsize)`, for the children that are left. -/
def printFrom (buf : StaticBuf) (initialPath : Option CStr) (depth : ℕ) :
    List FsTarget → Option (List PrintEvent)
  | [] => some []
  | child :: children => do
    let here ← fsTargetPrint buf initialPath (depth + 1) child
    let behind ← printFrom buf initialPath depth children
    return here ++ behind

end

/-! ### Listings -/

/-- A node of the tree, with its name. -/
def LineOf (t : FsTarget) (line : List ℕ × CStr) : Prop :=
  ∃ finfo, NodeAt t line.1 finfo ∧ finfo.name = line.2

/-- The listing of a tree. -/
def Listing (t : FsTarget) (l : List (List ℕ × CStr)) : Prop := PreOrdered (LineOf t) l

/-- The line of a node. -/
def lineText (line : List ℕ × CStr) : Bytes :=
  List.replicate (4 * line.1.length) 32 ++ (line.2.bytes ++ [10])

/-- The line as `fputstr` writes it: the part behind the blanks is cut. -/
def shownLine (line : List ℕ × CStr) : Bytes :=
  List.replicate (4 * line.1.length) 32 ++ (line.2.bytes ++ [10]).take iobufMax

mutual

/-- The nodes of the target at `node`, in pre-order, with their names. -/
def preorder (node : List ℕ) : FsTarget → List (List ℕ × CStr)
  | .null => []
  | .released => []
  | .live finfo _ children => (node, finfo.name) :: preorderChildren node finfo children

/-- The nodes below a directory. -/
def preorderChildren (node : List ℕ) (finfo : Finfo) :
    Option (List FsTarget) → List (List ℕ × CStr)
  | none => []
  | some children => if finfo.type = .directory then preorderFrom node 0 children else []

/-- The nodes below the children from the one with index `i` on. -/
def preorderFrom (node : List ℕ) (i : ℕ) : List FsTarget → List (List ℕ × CStr)
  | [] => []
  | child :: children => preorder (node ++ [i]) child ++ preorderFrom node (i + 1) children

end

/-- The listing of a tree, computed. -/
def listing (t : FsTarget) : List (List ℕ × CStr) := preorder [] t

/-- The text of the listing. -/
def listingText (t : FsTarget) : Bytes := (listing t).flatMap lineText

/-- The text of the listing as `fputstr` writes it. -/
def shownText (t : FsTarget) : Bytes := (listing t).flatMap shownLine

/-! ### The listing of a tree -/

section Lines

variable {finfo : Finfo} {events : Records FsTargetEvent} {node : List ℕ}

/-- The lines of a target with nothing below it. -/
theorem lineAt_leaf {children : Option (List FsTarget)}
    (hleaf : ∀ i p finfo', ¬ NodeAt (.live finfo events children) (i :: p) finfo')
    (line : List ℕ × CStr) :
    line = (node, finfo.name) ∨ From node 0 LineOf [] line ↔
      At node (LineOf (.live finfo events children)) line := by
  constructor
  · rintro (rfl | h)
    · exact ⟨[], (List.append_nil node).symm, finfo, nodeAt_root.mpr rfl, rfl⟩
    · exact absurd h (not_from_nil line)
  · rintro ⟨p, hp, finfo', hnode, hname⟩
    cases p with
    | nil =>
        obtain rfl := nodeAt_root.mp hnode
        exact .inl (Prod.ext (by simpa using hp) hname.symm)
    | cons i p => exact absurd hnode (hleaf i p finfo')

/-- The lines of a directory: its own, and those of its children. -/
theorem lineAt_directory {children : List FsTarget} (hdir : finfo.type = .directory)
    (line : List ℕ × CStr) :
    line = (node, finfo.name) ∨ From node 0 LineOf children line ↔
      At node (LineOf (.live finfo events (some children))) line := by
  constructor
  · rintro (rfl | ⟨j, c, p, hp, hc, finfo', hnode, hname⟩)
    · exact ⟨[], (List.append_nil node).symm, finfo, nodeAt_root.mpr rfl, rfl⟩
    · rw [Nat.zero_add] at hp
      exact ⟨j :: p, hp, finfo', nodeAt_cons.mpr ⟨hdir, c, hc, hnode⟩, hname⟩
  · rintro ⟨p, hp, finfo', hnode, hname⟩
    cases p with
    | nil =>
        obtain rfl := nodeAt_root.mp hnode
        exact .inl (Prod.ext (by simpa using hp) hname.symm)
    | cons j p =>
        obtain ⟨-, c, hc, hnode⟩ := nodeAt_cons.mp hnode
        exact .inr ⟨j, c, p, by rw [hp, Nat.zero_add], hc, finfo', hnode, hname⟩

end Lines

/-- The lines of the children, if the recursion gets theirs right. -/
theorem preorderFrom_lists {children : List FsTarget}
    (h : ∀ c ∈ children, ∀ node, PreOrdered (At node (LineOf c)) (preorder node c))
    (node : List ℕ) :
    ∀ i, PreOrdered (From node i LineOf children) (preorderFrom node i children) := by
  induction children with
  | nil =>
      intro i
      rw [preorderFrom]
      exact preOrdered_nil not_from_nil
  | cons c children ih =>
      intro i
      rw [preorderFrom]
      exact (h c List.mem_cons_self _).from_cons
        (ih (fun d hd => h d (List.mem_cons_of_mem c hd)) (i + 1))

/-- `preorder` lists the nodes of a target, wherever it is. -/
theorem preorder_lists (t : FsTarget) :
    ∀ node, PreOrdered (At node (LineOf t)) (preorder node t) := by
  induction t using FsTarget.induction with
  | hnull =>
      intro node
      rw [preorder]
      refine preOrdered_nil ?_
      rintro line ⟨p, -, finfo, ⟨names, events, hreach⟩, -⟩
      cases hreach
  | hreleased =>
      intro node
      rw [preorder]
      refine preOrdered_nil ?_
      rintro line ⟨p, -, finfo, ⟨names, events, hreach⟩, -⟩
      cases hreach
  | hlive finfo events children ih =>
      intro node
      rw [preorder]
      have hempty : PreOrdered (From node 0 LineOf []) [] := preOrdered_nil not_from_nil
      cases children with
      | none =>
          rw [preorderChildren]
          refine (hempty.root_cons finfo.name).congr (lineAt_leaf ?_)
          rintro i p finfo' ⟨names, events', hreach⟩
          cases hreach
      | some cs =>
          rw [preorderChildren]
          split
          · next hdir =>
              have hbelow := preorderFrom_lists (ih cs rfl) node 0
              exact (hbelow.root_cons finfo.name).congr (lineAt_directory hdir)
          · next hleaf =>
              exact (hempty.root_cons finfo.name).congr
                (lineAt_leaf fun i p finfo' => not_nodeAt_leaf hleaf)

/-- **`listing`** is the listing of a tree, and the only one. -/
theorem listing_iff (t : FsTarget) (l : List (List ℕ × CStr)) :
    Listing t l ↔ l = listing t := by
  have hlists : Listing t (listing t) := (preorder_lists t []).congr at_nil
  constructor
  · intro h
    exact h.unique hlists
  · rintro rfl
    exact hlists

/-! ### What is printed -/

/-- The events are texts handed to `write` that make up this text. -/
def Writes (events : List PrintEvent) (text : Bytes) : Prop :=
  ∃ texts : List Bytes, events = texts.map .write ∧ texts.flatten = text

theorem writes_nil : Writes [] [] := ⟨[], rfl, rfl⟩

theorem Writes.append {events events' : List PrintEvent} {text text' : Bytes}
    (h : Writes events text) (h' : Writes events' text') :
    Writes (events ++ events') (text ++ text') := by
  obtain ⟨texts, rfl, rfl⟩ := h
  obtain ⟨texts', rfl, rfl⟩ := h'
  exact ⟨texts ++ texts', by simp, by simp⟩

/-- Where only texts are written, so are they in either part. -/
theorem Writes.split {events events' : List PrintEvent} {text : Bytes}
    (h : Writes (events ++ events') text) :
    ∃ front back, Writes events front ∧ Writes events' back := by
  obtain ⟨texts, htexts, -⟩ := h
  obtain ⟨front, back, -, hfront, hback⟩ := List.append_eq_map_iff.mp htexts
  exact ⟨_, _, ⟨front, hfront.symm, rfl⟩, ⟨back, hback.symm, rfl⟩⟩

/-- The text that is written is settled. -/
theorem Writes.unique {events : List PrintEvent} {text text' : Bytes} (h : Writes events text)
    (h' : Writes events text') : text = text' := by
  obtain ⟨texts, rfl, rfl⟩ := h
  obtain ⟨texts', htexts, rfl⟩ := h'
  have hinj : Function.Injective PrintEvent.write := fun _ _ => PrintEvent.write.inj
  rw [List.map_injective_iff.mpr hinj htexts]

/-- A failed check is no text. -/
theorem not_writes_failed (check : PrintCheck) (text : Bytes) : ¬ Writes [.failed check] text := by
  rintro ⟨texts, htexts, -⟩
  cases texts with
  | nil => cases htexts
  | cons text texts => cases htexts

theorem rendering_indentFormat : rendering indentFormat [] = some (List.replicate 4 32) := rfl

theorem rendering_nameFormat (name : CStr) :
    rendering nameFormat [.str (some name)] = some (name.bytes ++ [10]) := by
  simp [rendering, nameFormat, letterS, fieldText, vaStr, strText]

section Print

variable (buf : StaticBuf) {path : Option CStr} {t : FsTarget}

/-- The texts of a line: the blanks, four at a time, and the name. -/
theorem ftTargetPrintName_eq (depth : ℕ) (name : CStr) :
    ftTargetPrintName buf depth name =
      some ((List.replicate depth (List.replicate 4 (32 : UInt8)) ++
        [(name.bytes ++ [10]).take iobufMax]).map .write) := by
  induction depth with
  | zero =>
      simp only [ftTargetPrintName, fputstr_renders (rendering_nameFormat name),
        Option.bind_eq_bind, Option.bind_some, Option.pure_def]
      rfl
  | succ depth ih =>
      simp only [ftTargetPrintName, fputstr_renders rendering_indentFormat, ih,
        Option.bind_eq_bind, Option.bind_some, Option.pure_def]
      rfl

/-- **`ft_target_print_name`** writes the line of a node. -/
theorem ftTargetPrintName_writes (node : List ℕ) (name : CStr) :
    ∃ printed, ftTargetPrintName buf node.length name = some printed ∧
      Writes printed (shownLine (node, name)) := by
  refine ⟨_, ftTargetPrintName_eq buf node.length name, _, rfl, ?_⟩
  rw [List.flatten_append, List.flatten_replicate_replicate, List.flatten_singleton,
    shownLine, Nat.mul_comm]

/-- The loop over the children writes their lines, if the recursion does. -/
theorem printFrom_writes {children : List FsTarget}
    (h : ∀ c ∈ children, ∀ node, ∃ printed,
      fsTargetPrint buf path (List.length node) c = some printed ∧
        Writes printed ((preorder node c).flatMap shownLine)) (node : List ℕ) :
    ∀ i, ∃ printed, printFrom buf path node.length children = some printed ∧
      Writes printed ((preorderFrom node i children).flatMap shownLine) := by
  induction children with
  | nil =>
      intro i
      exact ⟨[], by rw [printFrom], by rw [preorderFrom]; exact writes_nil⟩
  | cons c children ih =>
      intro i
      obtain ⟨here, hrun, hhere⟩ := h c List.mem_cons_self (node ++ [i])
      obtain ⟨behind, hrun', hbehind⟩ := ih (fun d hd => h d (List.mem_cons_of_mem c hd)) (i + 1)
      rw [List.length_append, List.length_singleton] at hrun
      refine ⟨here ++ behind, by rw [printFrom, hrun, hrun']; rfl, ?_⟩
      rw [preorderFrom, List.flatMap_append]
      exact hhere.append hbehind

/-- **`fs_target_print`** writes the lines of an intact target, wherever it is. -/
theorem fsTargetPrint_writes (p : CStr) (h : Intact t) :
    ∀ node, ∃ printed, fsTargetPrint buf (some p) (List.length node) t = some printed ∧
      Writes printed ((preorder node t).flatMap shownLine) := by
  induction h with
  | @leaf finfo events children hleaf =>
      intro node
      obtain ⟨here, hrun, hhere⟩ := ftTargetPrintName_writes buf node finfo.name
      have hbelow : preorderChildren node finfo children = [] := by
        cases children with
        | none => rw [preorderChildren]
        | some cs => rw [preorderChildren, if_neg hleaf]
      refine ⟨here, by simp [fsTargetPrint, hrun, hleaf], ?_⟩
      rw [preorder, hbelow, List.flatMap_singleton]
      exact hhere
  | @directory finfo events children hdir hintact ih =>
      intro node
      obtain ⟨here, hrun, hhere⟩ := ftTargetPrintName_writes buf node finfo.name
      obtain ⟨below, hrun', hbelow⟩ := printFrom_writes buf ih node 0
      refine ⟨here ++ below, by simp [fsTargetPrint, printChildren, hrun, hrun', hdir], ?_⟩
      rw [preorder, preorderChildren, if_pos hdir, List.flatMap_cons]
      exact hhere.append hbelow

/-- The loop over the children writes nothing but texts only if they are intact. -/
theorem intact_of_printFrom {children : List FsTarget}
    (h : ∀ c ∈ children, ∀ depth printed text, fsTargetPrint buf path depth c = some printed →
      Writes printed text → Intact c) (depth : ℕ) :
    ∀ printed text, printFrom buf path depth children = some printed → Writes printed text →
      ∀ c ∈ children, Intact c := by
  induction children with
  | nil => exact fun printed text _ _ c hc => absurd hc List.not_mem_nil
  | cons d children ih =>
      intro printed text hrun hwrites c hc
      rw [printFrom] at hrun
      obtain ⟨here, hhere, hrun⟩ := Option.bind_eq_some_iff.mp hrun
      obtain ⟨behind, hbehind, hrun⟩ := Option.bind_eq_some_iff.mp hrun
      cases hrun
      obtain ⟨front, back, hfront, hback⟩ := hwrites.split
      rcases List.mem_cons.mp hc with rfl | hc
      · exact h c List.mem_cons_self _ _ _ hhere hfront
      · exact ih (fun d hd => h d (List.mem_cons_of_mem _ hd)) _ _ hbehind hback c hc

/-- Nothing but texts is written only of intact targets. -/
theorem intact_of_printed (t : FsTarget) :
    ∀ depth printed text, fsTargetPrint buf path depth t = some printed →
      Writes printed text → path ≠ none ∧ Intact t := by
  induction t using FsTarget.induction with
  | hnull =>
      intro depth printed text hrun hwrites
      rw [fsTargetPrint] at hrun
      cases hrun
      exact absurd hwrites (not_writes_failed .target text)
  | hreleased =>
      intro depth printed text hrun hwrites
      rw [fsTargetPrint] at hrun
      split at hrun
      · cases hrun
        exact absurd hwrites (not_writes_failed .initialPath text)
      · cases hrun
  | hlive finfo events children ih =>
      intro depth printed text hrun hwrites
      rw [fsTargetPrint] at hrun
      split at hrun
      · cases hrun
        exact absurd hwrites (not_writes_failed .initialPath text)
      · next hpath =>
          refine ⟨hpath, ?_⟩
          obtain ⟨here, hhere, hrun⟩ := Option.bind_eq_some_iff.mp hrun
          split at hrun
          · next hdir =>
              obtain ⟨below, hbelow, hrun⟩ := Option.bind_eq_some_iff.mp hrun
              cases hrun
              obtain ⟨front, back, -, hback⟩ := hwrites.split
              cases children with
              | none =>
                  rw [printChildren] at hbelow
                  cases hbelow
              | some cs =>
                  rw [printChildren] at hbelow
                  have hchildren := intact_of_printFrom buf
                    (fun c hc depth printed text hrun hwrites =>
                      (ih cs rfl c hc depth printed text hrun hwrites).2) depth
                  exact .directory hdir (hchildren _ _ hbelow hback)
          · next hleaf => exact .leaf hleaf

/-- What is printed of a tree is nothing but text exactly if there is a path and the tree is
intact; then it is the listing, as it is shown. -/
theorem fsTargetPrint_lists_iff (path : Option CStr) (t : FsTarget) (text : Bytes) :
    (∃ printed, fsTargetPrint buf path 0 t = some printed ∧ Writes printed text) ↔
      path ≠ none ∧ Intact t ∧ shownText t = text := by
  constructor
  · rintro ⟨printed, hrun, hwrites⟩
    obtain ⟨hpath, hintact⟩ := intact_of_printed buf t _ _ _ hrun hwrites
    refine ⟨hpath, hintact, ?_⟩
    obtain ⟨p, rfl⟩ := Option.ne_none_iff_exists'.mp hpath
    obtain ⟨printed', hrun', hwrites'⟩ := fsTargetPrint_writes buf p hintact []
    obtain rfl := Option.some.inj (hrun.symm.trans hrun')
    exact hwrites'.unique hwrites
  · rintro ⟨hpath, hintact, rfl⟩
    obtain ⟨p, rfl⟩ := Option.ne_none_iff_exists'.mp hpath
    exact fsTargetPrint_writes buf p hintact []

end Print

/-- The listing is shown as it is, unless a name fills the buffer. -/
theorem shownText_eq {t : FsTarget} (h : ∀ line ∈ listing t, line.2.length < iobufMax) :
    shownText t = listingText t := by
  refine List.flatMap_congr fun line hline => ?_
  rw [shownLine, lineText, List.take_of_length_le]
  simpa [CStr.bytes] using h line hline

/-- **`fs_target_print`** prints the listing of an intact tree whose names leave room for the
end of the line. -/
theorem fsTargetPrint_lists (buf : StaticBuf) (p : CStr) {t : FsTarget} (h : Intact t)
    (hnames : ∀ line ∈ listing t, line.2.length < iobufMax) :
    ∃ printed, fsTargetPrint buf (some p) 0 t = some printed ∧
      Writes printed (listingText t) := by
  rw [← shownText_eq hnames]
  exact fsTargetPrint_writes buf p h []

end Backd
