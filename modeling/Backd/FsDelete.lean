import Backd.Library.TreeAddress
import Backd.SamePath

/-!
# Releasing a Target Tree

`fs_target_delete` and the recursion of `fs_target_dealloc` behind it, as the sequence of what
they release: the record of a node, its name, its event array, or its children array, each
named by the child indices on the way to the node.

`fs_target_dealloc` never releases an event array, and the array of a directory only if it
has entries. Otherwise it releases what the tree owns, each part once. A record that
`handle_children` has released already stops it with `none`.

## Main results

* `fsTargetDealloc_releases`: what is released of an intact tree.
* `fsTargetDelete_iff`: which trees can be released.
* `created_ends_iff`, `created_releases`: what is released of a tree that was just created.
* `releasesAll_created_iff`: all of it only where there is nothing.
-/

namespace Backd

/-! ### The release -/

/-- What a node owns. -/
inductive Part
  | record
  | name
  | events
  | children
  deriving DecidableEq, Repr

/-- `free` of a record or a name, or `array_kill` of an array: the node and the part. -/
abbrev Release := List ℕ × Part

mutual

/-- `fs_target_dealloc`: what it releases, in order, for the target at `node`. -/
def fsTargetDeallocTrace (node : List ℕ) : FsTarget → Option (List Release)
  | .null => some []
  | .released => none
  | .live finfo _ children => do
    let inner ← deallocChildren node finfo children
    return (node, .name) :: (inner ++ [(node, .record)])

/-- `if (entry->children)`. The count of a target that is no directory is zero. -/
def deallocChildren (node : List ℕ) (finfo : Finfo) :
    Option (List FsTarget) → Option (List Release)
  | none => some []
  | some children =>
    if finfo.type = .directory then do
      let trace ← deallocFrom node 0 children
      return if children.length ≠ 0 then trace ++ [(node, .children)] else trace
    else some []

/-- `while (i < dirsize)`, from the child with index `i` on. -/
def deallocFrom (node : List ℕ) (i : ℕ) : List FsTarget → Option (List Release)
  | [] => some []
  | child :: children => do
    let here ← fsTargetDeallocTrace (node ++ [i]) child
    let behind ← deallocFrom node (i + 1) children
    return here ++ behind

end

/-- `fs_target_delete`. -/
def fsTargetDelete (entry : FsTarget) : Option (List Release) := fsTargetDeallocTrace [] entry

/-! ### What a tree owns -/

/-- There is a node at the end of these child indices. -/
def NodeAt (t : FsTarget) (node : List ℕ) (finfo : Finfo) : Prop :=
  ∃ names events, Reaches t node names finfo events

/-- The tree owns a record, a name and an event array for every node, and a children array
for every directory, with or without entries. -/
def Owns (t : FsTarget) (r : Release) : Prop :=
  ∃ finfo, NodeAt t r.1 finfo ∧ (r.2 = .children → finfo.type = .directory)

/-- What is released of a tree: no event array, and no children array without children. -/
def Freed (t : FsTarget) (r : Release) : Prop :=
  Owns t r ∧ r.2 ≠ .events ∧ (r.2 = .children → ∃ i finfo, NodeAt t (r.1 ++ [i]) finfo)

/-- The parts are all released, each once, and nothing else is. -/
def Exactly (parts : Release → Prop) (trace : List Release) : Prop :=
  trace.Nodup ∧ ∀ r, r ∈ trace ↔ parts r

/-- `fs_target_delete` comes to its end, and releases everything the tree owns exactly
once. -/
def ReleasesAll (t : FsTarget) : Prop :=
  ∃ trace, fsTargetDelete t = some trace ∧ ∀ r, Owns t r → trace.count r = 1

section Nodes

variable {finfo finfo' : Finfo} {events : Records FsTargetEvent} {i : ℕ} {node : List ℕ}

/-- The root. -/
theorem nodeAt_root {children : Option (List FsTarget)} :
    NodeAt (.live finfo events children) [] finfo' ↔ finfo' = finfo := by
  constructor
  · rintro ⟨names, events', h⟩
    cases h
    rfl
  · rintro rfl
    exact ⟨_, _, .root⟩

/-- A node below a directory is a node of one of its children. -/
theorem nodeAt_cons {children : List FsTarget} :
    NodeAt (.live finfo events (some children)) (i :: node) finfo' ↔
      finfo.type = .directory ∧ ∃ c, children[i]? = some c ∧ NodeAt c node finfo' := by
  constructor
  · rintro ⟨names, events', h⟩
    cases h with
    | child hdir hc hreach => exact ⟨hdir, _, hc, _, _, hreach⟩
  · rintro ⟨hdir, c, hc, names, events', hreach⟩
    exact ⟨_, _, .child hdir hc hreach⟩

/-- Nothing is below a target that is no directory. -/
theorem not_nodeAt_leaf {children : Option (List FsTarget)} (hleaf : finfo.type ≠ .directory) :
    ¬ NodeAt (.live finfo events children) (i :: node) finfo' := by
  rintro ⟨names, events', h⟩
  cases h with
  | child hdir => exact hleaf hdir

/-- What is owned below a directory is owned by one of its children. -/
theorem owns_cons {children : List FsTarget} {part : Part} :
    Owns (.live finfo events (some children)) (i :: node, part) ↔
      finfo.type = .directory ∧ ∃ c, children[i]? = some c ∧ Owns c (node, part) := by
  constructor
  · rintro ⟨finfo', hnode, hpart⟩
    obtain ⟨hdir, c, hc, hnode⟩ := nodeAt_cons.mp hnode
    exact ⟨hdir, c, hc, finfo', hnode, hpart⟩
  · rintro ⟨hdir, c, hc, finfo', hnode, hpart⟩
    exact ⟨finfo', nodeAt_cons.mpr ⟨hdir, c, hc, hnode⟩, hpart⟩

/-- What is released below a directory is released of one of its children. -/
theorem freed_cons {children : List FsTarget} {part : Part} :
    Freed (.live finfo events (some children)) (i :: node, part) ↔
      finfo.type = .directory ∧ ∃ c, children[i]? = some c ∧ Freed c (node, part) := by
  constructor
  · rintro ⟨howns, hevents, hmore⟩
    obtain ⟨hdir, c, hc, howns⟩ := owns_cons.mp howns
    refine ⟨hdir, c, hc, howns, hevents, fun hpart => ?_⟩
    obtain ⟨j, finfo', hnode⟩ := hmore hpart
    obtain ⟨-, c', hc', hnode⟩ := nodeAt_cons.mp hnode
    obtain rfl := Option.some.inj (hc.symm.trans hc')
    exact ⟨j, finfo', hnode⟩
  · rintro ⟨hdir, c, hc, howns, hevents, hmore⟩
    refine ⟨owns_cons.mpr ⟨hdir, c, hc, howns⟩, hevents, fun hpart => ?_⟩
    obtain ⟨j, finfo', hnode⟩ := hmore hpart
    exact ⟨j, finfo', nodeAt_cons.mpr ⟨hdir, c, hc, hnode⟩⟩

/-- A live target has a root. -/
theorem Intact.nodeAt_root {t : FsTarget} (h : Intact t) : ∃ finfo, NodeAt t [] finfo := by
  cases h with
  | leaf => exact ⟨_, Backd.nodeAt_root.mpr rfl⟩
  | directory => exact ⟨_, Backd.nodeAt_root.mpr rfl⟩

/-- What is released of the root of a directory. -/
theorem freed_root_directory {children : List FsTarget} {part : Part}
    (hdir : finfo.type = .directory) (hintact : ∀ c ∈ children, Intact c) :
    Freed (.live finfo events (some children)) ([], part) ↔
      part = .name ∨ part = .children ∧ children ≠ [] ∨ part = .record := by
  constructor
  · rintro ⟨-, hevents, hmore⟩
    cases part with
    | record => exact .inr (.inr rfl)
    | name => exact .inl rfl
    | events => exact absurd rfl hevents
    | children =>
        obtain ⟨j, finfo', hnode⟩ := hmore rfl
        obtain ⟨-, c, hc, -⟩ := nodeAt_cons.mp hnode
        refine .inr (.inl ⟨rfl, ?_⟩)
        rintro rfl
        cases hc
  · intro hpart
    have howns : Owns (.live finfo events (some children)) ([], part) :=
      ⟨finfo, nodeAt_root.mpr rfl, fun _ => hdir⟩
    rcases hpart with rfl | ⟨rfl, hne⟩ | rfl
    · exact ⟨howns, nofun, nofun⟩
    · obtain ⟨c, cs, rfl⟩ := List.exists_cons_of_ne_nil hne
      obtain ⟨finfo', hnode⟩ := (hintact c List.mem_cons_self).nodeAt_root
      exact ⟨howns, nofun, fun _ => ⟨0, finfo', nodeAt_cons.mpr ⟨hdir, c, rfl, hnode⟩⟩⟩
    · exact ⟨howns, nofun, nofun⟩

/-- What is released of a target that is no directory. -/
theorem freed_leaf {children : Option (List FsTarget)} {r : Release}
    (hleaf : finfo.type ≠ .directory) :
    Freed (.live finfo events children) r ↔ r = ([], .name) ∨ r = ([], .record) := by
  obtain ⟨node, part⟩ := r
  constructor
  · rintro ⟨⟨finfo', hnode, hchildren⟩, hevents, -⟩
    cases node with
    | cons i node => exact absurd hnode (not_nodeAt_leaf hleaf)
    | nil =>
        obtain rfl := nodeAt_root.mp hnode
        cases part with
        | record => exact .inr rfl
        | name => exact .inl rfl
        | events => exact absurd rfl hevents
        | children => exact absurd (hchildren rfl) hleaf
  · rintro (h | h) <;> cases h <;> exact ⟨⟨finfo, nodeAt_root.mpr rfl, nofun⟩, nofun, nofun⟩

end Nodes

/-! ### What is released -/

/-- What is released of a target at `node`. -/
def FreedAt (node : List ℕ) (t : FsTarget) (r : Release) : Prop :=
  ∃ p, r.1 = node ++ p ∧ Freed t (p, r.2)

/-- What is released of the children from the one with index `i` on. -/
def FreedFrom (node : List ℕ) (i : ℕ) (children : List FsTarget) (r : Release) : Prop :=
  ∃ j c p, r.1 = node ++ (i + j) :: p ∧ children[j]? = some c ∧ Freed c (p, r.2)

/-- The recursion releases what it should of a target, wherever it is. -/
def Dealloced (t : FsTarget) : Prop :=
  ∀ node, ∃ trace, fsTargetDeallocTrace node t = some trace ∧ Exactly (FreedAt node t) trace

/-- Parts that have nothing in common are released one after the other. -/
theorem Exactly.append {parts parts' : Release → Prop} {trace trace' : List Release}
    (h : Exactly parts trace) (h' : Exactly parts' trace')
    (hdisjoint : ∀ r, parts r → ¬ parts' r) :
    Exactly (fun r => parts r ∨ parts' r) (trace ++ trace') := by
  refine ⟨List.nodup_append'.mpr ⟨h.1, h'.1, ?_⟩, fun r => ?_⟩
  · intro r hr hr'
    exact hdisjoint r ((h.2 r).mp hr) ((h'.2 r).mp hr')
  · rw [List.mem_append, h.2, h'.2]

theorem Exactly.congr {parts parts' : Release → Prop} {trace : List Release}
    (h : Exactly parts trace) (hiff : ∀ r, parts r ↔ parts' r) : Exactly parts' trace :=
  ⟨h.1, fun r => (h.2 r).trans (hiff r)⟩

theorem exactly_singleton (r : Release) : Exactly (fun r' => r' = r) [r] :=
  ⟨List.nodup_singleton r, fun _ => List.mem_singleton⟩

theorem exactly_nil : Exactly (fun _ => False) [] :=
  ⟨List.nodup_nil, fun _ => iff_of_false List.not_mem_nil id⟩

/-- The first child, then its later siblings. -/
theorem freedFrom_cons {node : List ℕ} {i : ℕ} {c : FsTarget} {children : List FsTarget}
    {r : Release} :
    FreedAt (node ++ [i]) c r ∨ FreedFrom node (i + 1) children r ↔
      FreedFrom node i (c :: children) r :=
  TreeAddress.from_cons

/-- **The loop over the children** releases what it should of each. -/
theorem deallocFrom_releases {children : List FsTarget} (h : ∀ c ∈ children, Dealloced c)
    (node : List ℕ) :
    ∀ i, ∃ trace, deallocFrom node i children = some trace ∧
      Exactly (FreedFrom node i children) trace := by
  induction children with
  | nil =>
      intro i
      refine ⟨[], by rw [deallocFrom], exactly_nil.congr fun r => iff_of_false id ?_⟩
      rintro ⟨j, c, p, -, hc, -⟩
      simp at hc
  | cons c children ih =>
      intro i
      obtain ⟨here, hrun, hhere⟩ := h c List.mem_cons_self (node ++ [i])
      obtain ⟨behind, hrun', hbehind⟩ := ih (fun d hd => h d (List.mem_cons_of_mem c hd)) (i + 1)
      refine ⟨here ++ behind, by rw [deallocFrom, hrun, hrun']; rfl, ?_⟩
      refine (hhere.append hbehind ?_).congr fun r => freedFrom_cons
      rintro r ⟨p, hp, -⟩ ⟨j, d, q, hq, -, -⟩
      have heq := hp.symm.trans hq
      rw [List.append_assoc] at heq
      have hindex := (List.cons.inj (List.append_cancel_left heq)).1
      omega

/-- What is released of a target that is no directory: its name and its record. -/
theorem dealloced_leaf {finfo : Finfo} {events : Records FsTargetEvent}
    {children : Option (List FsTarget)} (hleaf : finfo.type ≠ .directory) :
    Dealloced (.live finfo events children) := by
  intro node
  have hinner : deallocChildren node finfo children = some [] := by
    cases children with
    | none => rw [deallocChildren]
    | some cs => rw [deallocChildren, if_neg hleaf]
  refine ⟨[(node, .name), (node, .record)], by rw [fsTargetDeallocTrace, hinner]; rfl, ?_⟩
  refine ((exactly_singleton _).append (exactly_singleton _) ?_).congr fun r => ?_
  · rintro r rfl h
    cases h
  · constructor
    · rintro (rfl | rfl)
      · exact ⟨[], by simp, (freed_leaf hleaf).mpr (.inl rfl)⟩
      · exact ⟨[], by simp, (freed_leaf hleaf).mpr (.inr rfl)⟩
    · rintro ⟨p, hp, hfreed⟩
      rcases (freed_leaf hleaf).mp hfreed with h | h
      · obtain ⟨rfl, hpart⟩ := Prod.mk.inj h
        exact .inl (Prod.ext (by simpa using hp) hpart)
      · obtain ⟨rfl, hpart⟩ := Prod.mk.inj h
        exact .inr (Prod.ext (by simpa using hp) hpart)

/-- What is released of a directory: its name, what is below it, its children array if there
is anything in it, and its record. -/
theorem freedAt_directory {finfo : Finfo} {events : Records FsTargetEvent}
    {children : List FsTarget} (hdir : finfo.type = .directory)
    (hintact : ∀ c ∈ children, Intact c) {node : List ℕ} {r : Release} :
    r = (node, .name) ∨
        ((FreedFrom node 0 children r ∨ r = (node, .children) ∧ children ≠ []) ∨
          r = (node, .record)) ↔
      FreedAt node (.live finfo events (some children)) r := by
  have hroot : ∀ part, Freed (.live finfo events (some children)) ([], part) ↔ _ :=
    fun part => freed_root_directory hdir hintact
  constructor
  · rintro (rfl | (⟨j, c, p, hp, hc, hfreed⟩ | ⟨rfl, hne⟩) | rfl)
    · exact ⟨[], by simp, (hroot _).mpr (.inl rfl)⟩
    · rw [Nat.zero_add] at hp
      exact ⟨j :: p, hp, freed_cons.mpr ⟨hdir, c, hc, hfreed⟩⟩
    · exact ⟨[], by simp, (hroot _).mpr (.inr (.inl ⟨rfl, hne⟩))⟩
    · exact ⟨[], by simp, (hroot _).mpr (.inr (.inr rfl))⟩
  · rintro ⟨p, hp, hfreed⟩
    cases p with
    | nil =>
        rw [List.append_nil] at hp
        rcases (hroot _).mp hfreed with hpart | ⟨hpart, hne⟩ | hpart
        · exact .inl (Prod.ext hp hpart)
        · exact .inr (.inl (.inr ⟨Prod.ext hp hpart, hne⟩))
        · exact .inr (.inr (Prod.ext hp hpart))
    | cons j p =>
        obtain ⟨-, c, hc, hfreed⟩ := freed_cons.mp hfreed
        exact .inr (.inl (.inl ⟨j, c, p, by rw [hp, Nat.zero_add], hc, hfreed⟩))

/-- What is below a directory is not the directory. -/
theorem FreedFrom.ne {node : List ℕ} {i : ℕ} {children : List FsTarget} {r : Release}
    (h : FreedFrom node i children r) : r.1 ≠ node := by
  obtain ⟨j, c, p, hp, -⟩ := h
  intro hnode
  rw [hnode] at hp
  exact List.cons_ne_nil _ _ (List.self_eq_append_right.mp hp)

/-- What is released of a directory. -/
theorem dealloced_directory {finfo : Finfo} {events : Records FsTargetEvent}
    {children : List FsTarget} (hdir : finfo.type = .directory)
    (hintact : ∀ c ∈ children, Intact c) (h : ∀ c ∈ children, Dealloced c) :
    Dealloced (.live finfo events (some children)) := by
  intro node
  obtain ⟨below, hrun, hbelow⟩ := deallocFrom_releases h node 0
  have hinner : ∃ inner, deallocChildren node finfo (some children) = some inner ∧
      Exactly (fun r => FreedFrom node 0 children r ∨ r = (node, .children) ∧ children ≠ [])
        inner := by
    rw [deallocChildren, if_pos hdir, hrun]
    by_cases hne : children.length ≠ 0
    · refine ⟨below ++ [(node, .children)], by simp [hne], ?_⟩
      refine (hbelow.append (exactly_singleton _) ?_).congr fun r => ?_
      · rintro r hr rfl
        exact hr.ne rfl
      · rw [and_iff_left (List.ne_nil_of_length_pos (Nat.pos_of_ne_zero hne))]
    · refine ⟨below, by simp [hne], hbelow.congr fun r => ?_⟩
      have hnil : children = [] := List.eq_nil_of_length_eq_zero (not_not.mp hne)
      simp [hnil]
  obtain ⟨inner, hrun', hinner⟩ := hinner
  refine ⟨(node, .name) :: (inner ++ [(node, .record)]),
    by rw [fsTargetDeallocTrace, hrun']; rfl, ?_⟩
  have hbehind := hinner.append (exactly_singleton (node, .record)) (by
    rintro r (hr | ⟨hr, -⟩) rfl
    · exact hr.ne rfl
    · cases hr)
  refine ((exactly_singleton _).append hbehind ?_).congr
    fun r => freedAt_directory hdir hintact
  rintro r rfl ((hr | ⟨hr, -⟩) | hr)
  · exact hr.ne rfl
  · cases hr
  · cases hr

/-- **`fs_target_dealloc`** comes to its end on an intact tree, and releases records, names
and the children arrays with children in them, each once, and nothing else. -/
theorem fsTargetDealloc_releases {t : FsTarget} (h : Intact t) : Dealloced t := by
  induction h with
  | leaf hleaf => exact dealloced_leaf hleaf
  | directory hdir hintact ih => exact dealloced_directory hdir hintact ih

theorem fsTargetDelete_releases {t : FsTarget} (h : Intact t) :
    ∃ trace, fsTargetDelete t = some trace ∧ Exactly (Freed t) trace := by
  obtain ⟨trace, hrun, hexactly⟩ := fsTargetDealloc_releases h []
  exact ⟨trace, hrun, hexactly.congr TreeAddress.at_nil⟩

/-! ### What can be released -/

/-- No released record is in the way of a release. -/
inductive Releasable : FsTarget → Prop
  | null : Releasable .null
  | leaf {finfo : Finfo} {events : Records FsTargetEvent}
      {children : Option (List FsTarget)} :
      finfo.type ≠ .directory → Releasable (.live finfo events children)
  | bare {finfo : Finfo} {events : Records FsTargetEvent} :
      Releasable (.live finfo events none)
  | directory {finfo : Finfo} {events : Records FsTargetEvent} {children : List FsTarget} :
      finfo.type = .directory → (∀ c ∈ children, Releasable c) →
      Releasable (.live finfo events (some children))

/-- The loop comes to its end exactly if every child can be released. -/
theorem deallocFrom_iff {children : List FsTarget}
    (h : ∀ c ∈ children, ∀ node, (∃ trace, fsTargetDeallocTrace node c = some trace) ↔
      Releasable c) (node : List ℕ) :
    ∀ i, (∃ trace, deallocFrom node i children = some trace) ↔
      ∀ c ∈ children, Releasable c := by
  induction children with
  | nil =>
      intro i
      exact iff_of_true ⟨[], by rw [deallocFrom]⟩ fun c hc => absurd hc List.not_mem_nil
  | cons c children ih =>
      intro i
      rw [List.forall_mem_cons, ← h c List.mem_cons_self (node ++ [i]),
        ← ih (fun d hd => h d (List.mem_cons_of_mem c hd)) (i + 1), deallocFrom]
      constructor
      · rintro ⟨trace, hrun⟩
        obtain ⟨here, hhere, hrun⟩ := Option.bind_eq_some_iff.mp hrun
        obtain ⟨behind, hbehind, -⟩ := Option.bind_eq_some_iff.mp hrun
        exact ⟨⟨here, hhere⟩, behind, hbehind⟩
      · rintro ⟨⟨here, hhere⟩, behind, hbehind⟩
        exact ⟨here ++ behind, by rw [hhere, hbehind]; rfl⟩

/-- The recursion comes to its end exactly on a releasable target. -/
theorem deallocTrace_iff (t : FsTarget) :
    ∀ node, (∃ trace, fsTargetDeallocTrace node t = some trace) ↔ Releasable t := by
  induction t using FsTarget.induction with
  | hnull =>
      intro node
      exact iff_of_true ⟨[], by rw [fsTargetDeallocTrace]⟩ .null
  | hreleased =>
      intro node
      refine iff_of_false ?_ nofun
      rintro ⟨trace, hrun⟩
      rw [fsTargetDeallocTrace] at hrun
      cases hrun
  | hlive finfo events children ih =>
      intro node
      have hinner : (∃ inner, deallocChildren node finfo children = some inner) ↔
          Releasable (.live finfo events children) := by
        cases children with
        | none => exact iff_of_true ⟨[], by rw [deallocChildren]⟩ .bare
        | some cs =>
            rw [deallocChildren]
            by_cases hdir : finfo.type = .directory
            · have hloop := deallocFrom_iff (ih cs rfl) node 0
              rw [if_pos hdir]
              constructor
              · rintro ⟨inner, hrun⟩
                obtain ⟨below, hbelow, -⟩ := Option.bind_eq_some_iff.mp hrun
                exact .directory hdir (hloop.mp ⟨below, hbelow⟩)
              · intro h
                obtain ⟨below, hbelow⟩ := hloop.mpr (by
                  cases h with
                  | leaf hleaf => exact absurd hdir hleaf
                  | directory _ hchildren => exact hchildren)
                exact ⟨_, by rw [hbelow]; rfl⟩
            · rw [if_neg hdir]
              exact iff_of_true ⟨[], rfl⟩ (.leaf hdir)
      rw [← hinner, fsTargetDeallocTrace]
      constructor
      · rintro ⟨trace, hrun⟩
        obtain ⟨inner, hrun', -⟩ := Option.bind_eq_some_iff.mp hrun
        exact ⟨inner, hrun'⟩
      · rintro ⟨inner, hrun⟩
        exact ⟨_, by rw [hrun]; rfl⟩

/-- **`fs_target_delete`** comes to its end exactly on a releasable target. -/
theorem fsTargetDelete_iff (t : FsTarget) :
    (∃ trace, fsTargetDelete t = some trace) ↔ Releasable t :=
  deallocTrace_iff t []

/-! ### What is never released -/

/-- The trace has no event array in it. -/
def NoEvents (trace : List Release) : Prop := ∀ r ∈ trace, r.2 ≠ .events

theorem NoEvents.append {trace trace' : List Release} (h : NoEvents trace)
    (h' : NoEvents trace') : NoEvents (trace ++ trace') := by
  intro r hr
  rcases List.mem_append.mp hr with hr | hr
  · exact h r hr
  · exact h' r hr

theorem noEvents_singleton {node : List ℕ} {part : Part} (h : part ≠ .events) :
    NoEvents [(node, part)] := by
  intro r hr
  rwa [List.mem_singleton.mp hr]

/-- The loop releases no event array if the recursion does not. -/
theorem deallocFrom_noEvents {children : List FsTarget}
    (h : ∀ c ∈ children, ∀ node trace, fsTargetDeallocTrace node c = some trace →
      NoEvents trace) (node : List ℕ) :
    ∀ i trace, deallocFrom node i children = some trace → NoEvents trace := by
  induction children with
  | nil =>
      intro i trace hrun
      rw [deallocFrom] at hrun
      cases hrun
      exact fun r hr => absurd hr List.not_mem_nil
  | cons c children ih =>
      intro i trace hrun
      rw [deallocFrom] at hrun
      obtain ⟨here, hhere, hrun⟩ := Option.bind_eq_some_iff.mp hrun
      obtain ⟨behind, hbehind, hrun⟩ := Option.bind_eq_some_iff.mp hrun
      cases hrun
      exact (h c List.mem_cons_self _ _ hhere).append
        (ih (fun d hd => h d (List.mem_cons_of_mem c hd)) _ _ hbehind)

/-- No event array is ever released, of whatever tree. -/
theorem fsTargetDealloc_noEvents (t : FsTarget) :
    ∀ node trace, fsTargetDeallocTrace node t = some trace → NoEvents trace := by
  induction t using FsTarget.induction with
  | hnull =>
      intro node trace hrun
      rw [fsTargetDeallocTrace] at hrun
      cases hrun
      exact fun r hr => absurd hr List.not_mem_nil
  | hreleased =>
      intro node trace hrun
      rw [fsTargetDeallocTrace] at hrun
      cases hrun
  | hlive finfo events children ih =>
      intro node trace hrun
      have hinner : ∀ inner, deallocChildren node finfo children = some inner →
          NoEvents inner := by
        intro inner hinner
        cases children with
        | none =>
            rw [deallocChildren] at hinner
            cases hinner
            exact fun r hr => absurd hr List.not_mem_nil
        | some cs =>
            rw [deallocChildren] at hinner
            split at hinner
            · obtain ⟨below, hbelow, hinner⟩ := Option.bind_eq_some_iff.mp hinner
              have hnone := deallocFrom_noEvents (ih cs rfl) node 0 below hbelow
              cases hinner
              split
              · exact hnone.append (noEvents_singleton nofun)
              · exact hnone
            · cases hinner
              exact fun r hr => absurd hr List.not_mem_nil
      rw [fsTargetDeallocTrace] at hrun
      obtain ⟨inner, hrun', hrun⟩ := Option.bind_eq_some_iff.mp hrun
      cases hrun
      have hname : NoEvents [(node, .name)] := noEvents_singleton nofun
      have hrecord : NoEvents [(node, .record)] := noEvents_singleton nofun
      exact hname.append ((hinner inner hrun').append hrecord)

/-- Everything is released exactly where there is nothing: the root of a tree has an event
array. -/
theorem releasesAll_iff_null (t : FsTarget) : ReleasesAll t ↔ t = .null := by
  constructor
  · rintro ⟨trace, hrun, hall⟩
    cases t with
    | null => rfl
    | released =>
        rw [fsTargetDelete, fsTargetDeallocTrace] at hrun
        cases hrun
    | live finfo events children =>
        have howns : Owns (.live finfo events children) ([], .events) :=
          ⟨finfo, nodeAt_root.mpr rfl, nofun⟩
        have hmem : (([], .events) : Release) ∈ trace :=
          List.count_pos_iff.mp (by rw [hall _ howns]; exact Nat.one_pos)
        exact absurd rfl (fsTargetDealloc_noEvents _ _ _ hrun _ hmem)
  · rintro rfl
    refine ⟨[], by rw [fsTargetDelete, fsTargetDeallocTrace], ?_⟩
    rintro r ⟨finfo, ⟨names, events, hreach⟩, -⟩
    cases hreach

/-! ### Trees that were just created -/

section Created

variable {clock : CStr → UInt64} {path : CStr} {n m : FsNode} {names : List EntryName}

/-- When every directory can be opened, the snapshot is intact. -/
theorem intact_created (hfound : n.found = true)
    (hopens : ∀ names m, Comes n names m → m.Opens) : Intact (fsTargetCreate clock path n) := by
  induction n using FsNode.induction generalizing path with
  | hnode given lstat entries ih =>
      cases lstat with
      | error e => cases hfound
      | ok st =>
          by_cases hdir : filetype (givenStat given).mode = .directory
          · obtain ⟨es, rfl⟩ := Option.isSome_iff_exists.mp (hopens [] _ (.self rfl) hdir)
            rw [create_directory path hdir]
            refine .directory hdir fun c hc => ?_
            obtain ⟨e, he, rfl⟩ := List.mem_map.mp hc
            obtain ⟨hes, hkept⟩ := List.mem_filter.mp (List.mem_of_mem_take he)
            exact ih es rfl e hes (Bool.and_eq_true_iff.mp hkept).2
              fun names m hcomes => hopens _ m (.entry hdir he hcomes)
          · rw [fsTargetCreate_file hdir]
            exact .leaf hdir

/-- A directory that could not be opened is in the way of the release: its record is released
already. -/
theorem not_releasable_created (hcomes : Comes n names m) (hshut : ¬ m.Opens) :
    ∀ path, ¬ Releasable (fsTargetCreate clock path n) := by
  induction hcomes with
  | @self n hfound =>
      intro path
      obtain ⟨given, lstat, entries⟩ := n
      cases lstat with
      | error e => cases hfound
      | ok st =>
          obtain ⟨hdir, hnone⟩ := Classical.not_imp.mp hshut
          obtain rfl : entries = none := by simpa using hnone
          rw [fsTargetCreate_refused hdir]
          exact nofun
  | @entry given st entries e names m hdir he _ ih =>
      intro path
      have hchild : fsTargetCreate clock (attach (basenameCut path) e.1) e.2 ∈
          ((foundEntries entries).take maxChildren).map fun e =>
            fsTargetCreate clock (attach (basenameCut path) e.1) e.2 := List.mem_map_of_mem he
      have htype : (fsTargetSetInfo path (givenStat given)).type = .directory := hdir
      rw [create_directory path hdir]
      intro h
      cases h with
      | leaf hleaf => exact hleaf htype
      | directory _ hchildren => exact ih hshut _ (hchildren _ hchild)

/-- **What is released of a created tree**, when every directory could be opened: the record
and the name of every node and every children array with children in it, each once; but no
event array, and no children array of an empty directory. -/
theorem created_releases (hfound : n.found = true)
    (hopens : ∀ names m, Comes n names m → m.Opens) :
    ∃ trace, fsTargetDelete (fsTargetCreate clock path n) = some trace ∧
      Exactly (Freed (fsTargetCreate clock path n)) trace :=
  fsTargetDelete_releases (intact_created hfound hopens)

/-- The release of a created tree comes to its end exactly when every directory could be
opened. -/
theorem created_ends_iff (hfound : n.found = true) :
    (∃ trace, fsTargetDelete (fsTargetCreate clock path n) = some trace) ↔
      ∀ names m, Comes n names m → m.Opens := by
  constructor
  · intro h names m hcomes
    by_contra hshut
    exact not_releasable_created hcomes hshut path ((fsTargetDelete_iff _).mp h)
  · intro hopens
    obtain ⟨trace, hrun, -⟩ := fsTargetDelete_releases (intact_created hfound hopens)
    exact ⟨trace, hrun⟩

end Created

/-- **Releasing a created tree**: everything it owns is released exactly where nothing was
created, because the second `lstat` failed. -/
theorem releasesAll_created_iff (clock : CStr → UInt64) (path : CStr) (n : FsNode) :
    ReleasesAll (fsTargetCreate clock path n) ↔ n.found = false := by
  have hnull : fsTargetCreate clock path n = .null ↔ n.found = false := by
    obtain ⟨given, lstat, entries⟩ := n
    rw [fsTargetCreate_eq_null_iff]
    cases lstat with
    | ok st => simp [FsNode.found]
    | error e => simp [FsNode.found]
  rw [releasesAll_iff_null, hnull]

/-- A directory without entries. -/
def emptyDirectory : FsNode :=
  let st := { Stat.zeroed with mode := 0o040000 }
  .node (.ok st) (.ok st) (some [])

/-- Of an empty directory neither the event array nor the children array is released. -/
theorem emptyDirectory_leaks :
    ¬ ReleasesAll (fsTargetCreate (fun _ => 0) [slash] emptyDirectory) ∧
      fsTargetDelete (fsTargetCreate (fun _ => 0) [slash] emptyDirectory) =
        some [([], .name), ([], .record)] := by
  rw [emptyDirectory, fsTargetCreate_directory (by decide)]
  constructor
  · rw [releasesAll_iff_null]
    exact nofun
  · rfl

end Backd
