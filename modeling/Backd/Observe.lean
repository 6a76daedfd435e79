import Backd.CurPath
import Backd.EventTrack
import Backd.Library.PostOrder

/-!
# One Round of the Observer

`fs_target_observe` and `propagate_children_recursive` of `routine.c`: a traversal of the
target tree that extends the path buffer on the way down, truncates it on the way up, and
tracks every target of a known type on the way.

The traversal threads the path buffer and a log of what is done at the targets: a call of
`fs_target_event_track`, or the message for an unknown type. An entry names its target by
the child indices on the way from the root, where the source has its address, and holds
the history the target had. The outside is a function `env` of the length of the log and
of the path, so that it may change at any time.

A traversal that reads a released record, a missing children array, or outside the path
buffer, stops with `none`.

## Main results

* `fsTargetObserve_covers`: on a passable tree, a traversal handles the nodes the tree
  reaches, in post-order, each at its own path, and restores the buffer.
* `passable_of_observe`: a traversal that comes to its end was on a passable tree.
* `observe_tracks_once`: the round for an intact tree, in terms of names joined by slashes.
-/

namespace Backd

open PostOrder

/-! ### The traversal -/

/-- What is done at a target: the target, by its place in the tree, the string `path()`
held, the history the target had, and what `fs_target_event_track` did, or `none` when the
type is unknown and a message is logged instead. -/
structure Visit where
  node : List ℕ
  path : CStr
  events : Records FsTargetEvent
  done : Option Tracked
  deriving DecidableEq, Repr

/-- The state of the observer. -/
structure ObsSt where
  cur : PathBuf
  log : List Visit
  deriving DecidableEq

/-- What the outside answers at a path, after a number of entries of the log. -/
abbrev Environment := ℕ → CStr → Round

/-- An entry of the log, at the current path. -/
def logVisit (node : List ℕ) (events : Records FsTargetEvent) (done : Option Tracked)
    (st : ObsSt) : Option ObsSt := do
  let path ← st.cur.path
  return { st with
    log := st.log ++ [{ node := node, path := path, events := events, done := done }] }

/-- The call of `fs_target_event_track` on a target. -/
def trackHere (env : Environment) (node : List ℕ) (events : Records FsTargetEvent)
    (st : ObsSt) : Option (Records FsTargetEvent × ObsSt) := do
  let path ← st.cur.path
  let done := fsTargetEventTrack (env st.log.length path) events
  let st ← logVisit node events (some done) st
  return (done.events, st)

/-- The message for a target of an unknown type. -/
def logUnknown (node : List ℕ) (events : Records FsTargetEvent) (st : ObsSt) : Option ObsSt :=
  logVisit node events none st

/-- `fs_target_children_count`: the size of the children array of a directory. -/
def fsTargetChildrenCount : FsTarget → Option ℕ
  | .null => some 0
  | .released => none
  | .live finfo _ children =>
    if finfo.type ≠ .directory then some 0 else children.map List.length

/-- `fs_target_children_get`, `null` for the `NULL` it returns. -/
def fsTargetChildrenGet (target : FsTarget) (index : ℕ) : Option FsTarget :=
  match target with
  | .null => some .null
  | .released => none
  | .live finfo _ children =>
    if finfo.type ≠ .directory then some .null
    else children.map fun cs => if cs.length = 0 ∨ cs.length ≤ index then .null
      else cs.getD index .null

mutual

/-- `fs_target_observe`: the result, and the target as it is left. -/
def fsTargetObserve (env : Environment) (node : List ℕ) :
    FsTarget → ObsSt → Option (Bool × FsTarget × ObsSt)
  | .null, st => some (false, .null, st)
  | .released, _ => none
  | .live finfo events children, st => do
    let cur ← setCurrentWd finfo.name st.cur
    let st := { st with cur := cur }
    let (events, children, st) ←
      match finfo.type with
      | .directory => do
        let (children, st) ← propagateChildrenRecursive env node children st
        let (events, st) ← trackHere env node events st
        some (events, children, st)
      | .fifo | .chardev | .blockdev | .normal | .symbolicLink | .sock => do
        let (events, st) ← trackHere env node events st
        some (events, children, st)
      | .unknown => do
        let st ← logUnknown node events st
        some (events, children, st)
    let cur ← unsetCurrentWd finfo.name st.cur
    return (true, .live finfo events children, { st with cur := cur })

/-- `propagate_children_recursive`, on the children array of a directory. -/
def propagateChildrenRecursive (env : Environment) (node : List ℕ) :
    Option (List FsTarget) → ObsSt → Option (Option (List FsTarget) × ObsSt)
  | none, _ => none
  | some children, st => do
    let (children, st) ← observeFrom env node 0 children st
    return (some children, st)

/-- The loop of `propagate_children_recursive`, from the child with index `i` on. -/
def observeFrom (env : Environment) (node : List ℕ) (i : ℕ) :
    List FsTarget → ObsSt → Option (List FsTarget × ObsSt)
  | [], st => some ([], st)
  | child :: children, st => do
    let (_, child, st) ← fsTargetObserve env (node ++ [i]) child st
    let (children, st) ← observeFrom env node (i + 1) children st
    return (child :: children, st)

end

/-- The loop visits what `fs_target_children_get` returns for the indices below
`fs_target_children_count`. -/
theorem children_get_count {finfo : Finfo} {events : Records FsTargetEvent}
    {children : List FsTarget} (hdir : finfo.type = .directory) :
    ∃ n, fsTargetChildrenCount (.live finfo events (some children)) = some n ∧
      (List.range n).map (fsTargetChildrenGet (.live finfo events (some children))) =
        children.map some := by
  refine ⟨children.length, by simp [fsTargetChildrenCount, hdir], ?_⟩
  apply List.ext_getElem
  · simp
  · intro i h₁ h₂
    have hi : i < children.length := by simpa using h₂
    have hne : children ≠ [] := List.ne_nil_of_length_pos (by omega)
    simp [fsTargetChildrenGet, hdir, Nat.not_le.mpr hi, hne, hi]

/-! ### The nodes of a target tree -/

/-- Induction over target trees. -/
theorem FsTarget.induction {P : FsTarget → Prop} (hnull : P .null) (hreleased : P .released)
    (hlive : ∀ finfo events children, (∀ cs, children = some cs → ∀ c ∈ cs, P c) →
      P (.live finfo events children)) (t : FsTarget) : P t := by
  refine FsTarget.rec (motive_1 := P) (motive_2 := fun children =>
    ∀ cs, children = some cs → ∀ c ∈ cs, P c) (motive_3 := fun cs => ∀ c ∈ cs, P c)
    hnull hreleased ?_ ?_ ?_ ?_ ?_ t
  · exact fun finfo events children ih => hlive finfo events children ih
  · rintro cs ⟨⟩
  · rintro cs ih _ ⟨⟩
    exact ih
  · rintro c ⟨⟩
  · intro c cs hc hcs x hx
    rcases List.mem_cons.mp hx with rfl | hx
    · exact hc
    · exact hcs x hx

/-- `t` reaches a node: the child indices that lead to it, the names from the root to the
node, and the data of the node. Only directories lead further. -/
inductive Reaches : FsTarget → List ℕ → List CStr → Finfo → Records FsTargetEvent → Prop
  | root {finfo : Finfo} {events : Records FsTargetEvent}
      {children : Option (List FsTarget)} :
      Reaches (.live finfo events children) [] [finfo.name] finfo events
  | child {finfo finfo' : Finfo} {events events' : Records FsTargetEvent}
      {children : List FsTarget} {i : ℕ} {c : FsTarget} {node : List ℕ} {names : List CStr} :
      finfo.type = .directory → children[i]? = some c →
      Reaches c node names finfo' events' →
      Reaches (.live finfo events (some children)) (i :: node) (finfo.name :: names)
        finfo' events'

/-- The path of a node whose names lead on from `s`. -/
def under (s : CStr) (names : List CStr) : CStr := names.foldl join s

/-- A traversal that starts with the path `s` finds nothing in its way: no released
record, a children array in every directory, and room for every path. -/
inductive Passable : CStr → FsTarget → Prop
  | null {s : CStr} : Passable s .null
  | leaf {s : CStr} {finfo : Finfo} {events : Records FsTargetEvent}
      {children : Option (List FsTarget)} :
      finfo.type ≠ .directory → Fits (join s finfo.name) →
      Passable s (.live finfo events children)
  | directory {s : CStr} {finfo : Finfo} {events : Records FsTargetEvent}
      {children : List FsTarget} :
      finfo.type = .directory → Fits (join s finfo.name) →
      (∀ c ∈ children, Passable (join s finfo.name) c) →
      Passable s (.live finfo events (some children))

/-- Every directory of the tree has a children array, of live targets. -/
inductive Intact : FsTarget → Prop
  | leaf {finfo : Finfo} {events : Records FsTargetEvent}
      {children : Option (List FsTarget)} :
      finfo.type ≠ .directory → Intact (.live finfo events children)
  | directory {finfo : Finfo} {events : Records FsTargetEvent} {children : List FsTarget} :
      finfo.type = .directory → (∀ c ∈ children, Intact c) →
      Intact (.live finfo events (some children))

/-- An intact tree whose paths fit is passable. -/
theorem Intact.passable {t : FsTarget} (h : Intact t) {s : CStr}
    (hfits : ∀ node names finfo events, Reaches t node names finfo events →
      Fits (under s names)) : Passable s t := by
  induction h generalizing s with
  | leaf hleaf => exact .leaf hleaf (hfits _ _ _ _ .root)
  | directory hdir _ ih =>
      refine .directory hdir (hfits _ _ _ _ .root) ?_
      intro c hc
      obtain ⟨i, hi⟩ := List.mem_iff_getElem?.mp hc
      exact ih c hc fun _ _ _ _ hreach => hfits _ _ _ _ (.child hdir hi hreach)

/-! ### What a traversal does -/

/-- The visits of a traversal that started at `node` with the path `s` are the nodes among
`nodes`, in post-order, each at its path, and tracked when the type is known. The set
`nodes` is indexed like `Reaches`. -/
structure Covers (s : CStr) (node : List ℕ)
    (nodes : List ℕ → List CStr → Finfo → Records FsTargetEvent → Prop)
    (visits : List Visit) : Prop where
  sound : ∀ v ∈ visits, ∃ p names finfo, nodes p names finfo v.events ∧
    v.node = node ++ p ∧ v.path = under s names ∧ (v.done.isSome ↔ finfo.type ≠ .unknown)
  complete : ∀ p names finfo events, nodes p names finfo events →
    ∃ v ∈ visits, v.node = node ++ p ∧ v.path = under s names ∧ v.events = events ∧
      (v.done.isSome ↔ finfo.type ≠ .unknown)
  ordered : visits.Pairwise fun v w => Before v.node w.node

/-- The nodes below a directory, from its child with index `i` on. -/
def ReachesFrom (i : ℕ) (children : List FsTarget) (p : List ℕ) (names : List CStr)
    (finfo : Finfo) (events : Records FsTargetEvent) : Prop :=
  ∃ j c q, p = (i + j) :: q ∧ children[j]? = some c ∧ Reaches c q names finfo events

section Traversal

variable {s : CStr} {node : List ℕ} {i : ℕ} {c : FsTarget} {children : List FsTarget}
  {visits visits' : List Visit} {finfo : Finfo} {events : Records FsTargetEvent}
  {done : Option Tracked}

/-- Nothing to reach, nothing visited. -/
theorem Covers.null : Covers s node (Reaches .null) [] :=
  ⟨by simp, fun _ _ _ _ h => (by cases h), .nil⟩

theorem Covers.none : Covers s node (ReachesFrom i []) [] := by
  refine ⟨by simp, ?_, .nil⟩
  rintro - names finfo events ⟨j, c, q, -, hj, -⟩
  simp at hj

/-- The visits of a child, then those of its later siblings. -/
theorem Covers.append (h : Covers s (node ++ [i]) (Reaches c) visits)
    (h' : Covers s node (ReachesFrom (i + 1) children) visits') :
    Covers s node (ReachesFrom i (c :: children)) (visits ++ visits') := by
  refine ⟨?_, ?_, ?_⟩
  · intro v hv
    rcases List.mem_append.mp hv with hv | hv
    · obtain ⟨p, names, finfo, hreach, hnode, hrest⟩ := h.sound v hv
      exact ⟨i :: p, names, finfo, ⟨0, c, p, rfl, rfl, hreach⟩, by simpa using hnode, hrest⟩
    · obtain ⟨p, names, finfo, ⟨j, d, q, rfl, hj, hreach⟩, hrest⟩ := h'.sound v hv
      exact ⟨_, names, finfo, ⟨j + 1, d, q, by congr 1; omega, hj, hreach⟩, hrest⟩
  · rintro p names finfo events ⟨j, d, q, rfl, hj, hreach⟩
    cases j with
    | zero =>
        obtain rfl : c = d := by simpa using hj
        obtain ⟨v, hv, hnode, hrest⟩ := h.complete q names finfo events hreach
        exact ⟨v, List.mem_append_left _ hv, by simpa using hnode, hrest⟩
    | succ j =>
        obtain ⟨v, hv, hrest⟩ := h'.complete _ names finfo events ⟨j, d, q, rfl, hj, hreach⟩
        refine ⟨v, List.mem_append_right _ hv, ?_⟩
        rwa [Nat.add_assoc, Nat.add_comm 1] at hrest
  · refine List.pairwise_append.mpr ⟨h.ordered, h'.ordered, ?_⟩
    intro v hv w hw
    obtain ⟨p, _, _, -, hv, -⟩ := h.sound v hv
    obtain ⟨_, _, _, ⟨j, _, q, rfl, -, -⟩, hw, -⟩ := h'.sound w hw
    rw [hv, hw, List.append_assoc]
    exact before_of_lt _ _ _ (by omega)

/-- A target that is not a directory reaches itself only. -/
theorem Covers.leaf {cs : Option (List FsTarget)} (hleaf : finfo.type ≠ .directory)
    (hdone : done.isSome ↔ finfo.type ≠ .unknown) :
    Covers s node (Reaches (.live finfo events cs))
      [⟨node, join s finfo.name, events, done⟩] := by
  refine ⟨?_, ?_, List.pairwise_singleton _ _⟩
  · intro v hv
    obtain rfl := List.mem_singleton.mp hv
    exact ⟨[], _, finfo, .root, by simp, rfl, hdone⟩
  · intro p names finfo' events' hreach
    cases hreach with
    | root => exact ⟨_, List.mem_singleton_self _, by simp, rfl, rfl, hdone⟩
    | child hdir => exact absurd hdir hleaf

/-- The visits below a directory, then the directory itself. -/
theorem Covers.directory {cs : List FsTarget} (hdir : finfo.type = .directory)
    (h : Covers (join s finfo.name) node (ReachesFrom 0 cs) visits)
    (hdone : done.isSome ↔ finfo.type ≠ .unknown) :
    Covers s node (Reaches (.live finfo events (some cs)))
      (visits ++ [⟨node, join s finfo.name, events, done⟩]) := by
  refine ⟨?_, ?_, ?_⟩
  · intro v hv
    rcases List.mem_append.mp hv with hv | hv
    · obtain ⟨p, names, finfo', ⟨j, d, q, rfl, hj, hreach⟩, hnode, hrest⟩ := h.sound v hv
      rw [Nat.zero_add] at hnode
      exact ⟨j :: q, finfo.name :: names, finfo', .child hdir hj hreach, hnode, hrest⟩
    · obtain rfl := List.mem_singleton.mp hv
      exact ⟨[], _, finfo, .root, by simp, rfl, hdone⟩
  · intro p names finfo' events' hreach
    cases hreach with
    | root =>
        exact ⟨_, List.mem_append_right _ (List.mem_singleton_self _), by simp, rfl, rfl,
          hdone⟩
    | @child _ _ _ _ _ j d q names _ hj hreach =>
        obtain ⟨v, hv, hrest⟩ := h.complete (j :: q) names finfo' events'
          ⟨j, d, q, by rw [Nat.zero_add], hj, hreach⟩
        exact ⟨v, List.mem_append_left _ hv, hrest⟩
  · refine List.pairwise_append.mpr ⟨h.ordered, List.pairwise_singleton _ _, ?_⟩
    intro v hv w hw
    obtain rfl := List.mem_singleton.mp hw
    obtain ⟨_, _, _, ⟨j, _, q, rfl, -, -⟩, hnode, -⟩ := h.sound v hv
    rw [hnode]
    exact before_ancestor _ _ _

end Traversal

/-- What a traversal of `t` does, from any state whose path lets it pass: it visits the
nodes the tree reaches, and restores the path. -/
def Traversed (t : FsTarget) : Prop :=
  ∀ (env : Environment) (node : List ℕ) (s : CStr) (st : ObsSt),
    st.cur.path = some s → Passable s t →
    ∃ t' st' visits, fsTargetObserve env node t st = some (decide t.NotNull, t', st') ∧
      st'.cur.path = some s ∧ st'.log = st.log ++ visits ∧ Covers s node (Reaches t) visits

section Visiting

variable (env : Environment) (node : List ℕ) (events : Records FsTargetEvent) (st : ObsSt)
  {s : CStr}

/-- An entry is logged under the path. -/
theorem logVisit_run (h : st.cur.path = some s) (done : Option Tracked) :
    logVisit node events done st =
      some { st with log := st.log ++ [⟨node, s, events, done⟩] } := by
  simp only [logVisit, h, Option.bind_eq_bind, Option.bind_some]
  rfl

theorem trackHere_run (h : st.cur.path = some s) :
    ∃ done, trackHere env node events st =
      some (done.events, { st with log := st.log ++ [⟨node, s, events, some done⟩] }) :=
  ⟨_, by
    simp only [trackHere, h, logVisit_run node events st h, Option.bind_eq_bind,
      Option.bind_some]
    rfl⟩

/-- What a call of `fs_target_event_track` does. -/
theorem of_trackHere {env : Environment} {node : List ℕ} {events events' : Records FsTargetEvent}
    {st st' : ObsSt} (h : trackHere env node events st = some (events', st')) :
    ∃ path, st.cur.path = some path ∧
      events' = (fsTargetEventTrack (env st.log.length path) events).events ∧
      st' = { st with log := st.log ++
        [⟨node, path, events, some (fsTargetEventTrack (env st.log.length path) events)⟩] } := by
  obtain ⟨path, hpath, hvisit⟩ := Option.bind_eq_some_iff.mp h
  have hlog := logVisit_run node events st hpath
    (some (fsTargetEventTrack (env st.log.length path) events))
  obtain ⟨st₁, hst₁, heq⟩ := Option.bind_eq_some_iff.mp hvisit
  cases hlog.symm.trans hst₁
  cases heq
  exact ⟨path, hpath, rfl, rfl⟩

/-- The loop over the children, from the one with index `i` on. -/
theorem observeFrom_covers {children : List FsTarget}
    (htrav : ∀ c ∈ children, Traversed c) (hpass : ∀ c ∈ children, Passable s c) (i : ℕ)
    (h : st.cur.path = some s) :
    ∃ children' st' visits, observeFrom env node i children st = some (children', st') ∧
      st'.cur.path = some s ∧ st'.log = st.log ++ visits ∧
      Covers s node (ReachesFrom i children) visits := by
  induction children generalizing i st with
  | nil => exact ⟨[], st, [], rfl, h, by simp, Covers.none⟩
  | cons c children ih =>
      simp only [List.mem_cons, forall_eq_or_imp] at htrav hpass
      obtain ⟨c', st₁, visits, hrun, hpath, hlog, hcovers⟩ :=
        htrav.1 env (node ++ [i]) s st h hpass.1
      obtain ⟨children', st₂, visits', hrun', hpath', hlog', hcovers'⟩ :=
        ih st₁ htrav.2 hpass.2 (i + 1) hpath
      refine ⟨c' :: children', st₂, visits ++ visits', ?_, hpath', ?_,
        hcovers.append hcovers'⟩
      · simp [observeFrom, hrun, hrun']
      · rw [hlog', hlog, List.append_assoc]

end Visiting

/-- **The traversal.** By induction over the tree: the buffer shows the path of a node
while the node and everything below it are visited, and what it did before afterwards. -/
theorem fsTargetObserve_covers (t : FsTarget) : Traversed t := by
  induction t using FsTarget.induction with
  | hnull =>
      intro env node s st h _
      exact ⟨.null, st, [], rfl, h, by simp, Covers.null⟩
  | hreleased => exact fun _ _ _ _ _ h => by cases h
  | hlive finfo events children ih =>
      intro env node s st h hpass
      cases hpass with
      | leaf hleaf hfits =>
          obtain ⟨cur, hset, hcur⟩ := setCurrentWd_shows h hfits
          obtain ⟨cur', hunset, hcur'⟩ := unsetCurrentWd_shows hcur
          obtain ⟨done, htrack⟩ := trackHere_run env node events { st with cur := cur } hcur
          have hlog := logVisit_run node events { st with cur := cur } hcur none
          by_cases hunknown : finfo.type = .unknown
          · refine ⟨.live finfo events children,
              ⟨cur', st.log ++ [⟨node, join s finfo.name, events, none⟩]⟩, _, ?_, hcur', rfl,
              Covers.leaf hleaf (by simp [hunknown])⟩
            simp [fsTargetObserve, hset, hunknown, logUnknown, hlog, hunset]
          · refine ⟨.live finfo done.events children,
              ⟨cur', st.log ++ [⟨node, join s finfo.name, events, some done⟩]⟩, _, ?_, hcur',
              rfl, Covers.leaf hleaf (by simp [hunknown])⟩
            cases htype : finfo.type <;>
              simp [fsTargetObserve, hset, htype, htrack, hunset]
                at hleaf hunknown ⊢
      | @directory _ _ _ cs hdir hfits hcs =>
          obtain ⟨cur, hset, hcur⟩ := setCurrentWd_shows h hfits
          obtain ⟨cs', st₁, visits, hloop, hpath₁, hlog₁, hcovers⟩ :=
            observeFrom_covers env node { st with cur := cur } (ih cs rfl) hcs 0 hcur
          obtain ⟨done, htrack⟩ := trackHere_run env node events st₁ hpath₁
          obtain ⟨cur', hunset, hcur'⟩ := unsetCurrentWd_shows hpath₁
          refine ⟨.live finfo done.events (some cs'),
            ⟨cur', st₁.log ++ [⟨node, join s finfo.name, events, some done⟩]⟩,
            visits ++ [⟨node, join s finfo.name, events, some done⟩], ?_, hcur', ?_,
            hcovers.directory hdir (by simp [hdir])⟩
          · simp [fsTargetObserve, propagateChildrenRecursive, hset, hdir, hloop, htrack,
              hunset]
          · rw [hlog₁, List.append_assoc]

/-- What a traversal of a live target that comes to its end did, and the target it leaves. -/
theorem of_observe_live {env : Environment} {node : List ℕ} {finfo : Finfo}
    {events : Records FsTargetEvent} {children : Option (List FsTarget)} {st : ObsSt}
    {r : Bool × FsTarget × ObsSt}
    (h : fsTargetObserve env node (.live finfo events children) st = some r) :
    ∃ cur events' children' st₁ st₂, setCurrentWd finfo.name st.cur = some cur ∧
      (if finfo.type = .directory then
        propagateChildrenRecursive env node children { st with cur := cur } = some (children', st₁)
      else children' = children ∧ st₁ = { st with cur := cur }) ∧
      (if finfo.type = .unknown then logUnknown node events st₁ = some st₂ ∧ events' = events
      else trackHere env node events st₁ = some (events', st₂)) ∧
      r.2.2.log = st₂.log ∧ r.2.1 = .live finfo events' children' := by
  rw [fsTargetObserve] at h
  obtain ⟨cur, hset, h⟩ := Option.bind_eq_some_iff.mp h
  cases htype : finfo.type with
  | directory =>
      simp only [htype, Option.bind_eq_bind, Option.bind_eq_some_iff] at h
      obtain ⟨⟨children', st₁⟩, hloop, ⟨events', st₂⟩, htrack, _, heq, _, _, h⟩ := h
      cases heq
      cases h
      exact ⟨cur, events', children', st₁, st₂, hset, hloop, htrack, rfl, rfl⟩
  | unknown =>
      simp only [htype, Option.bind_eq_bind, Option.bind_eq_some_iff] at h
      obtain ⟨st₂, hlog, _, heq, _, _, h⟩ := h
      cases heq
      cases h
      exact ⟨cur, events, children, _, st₂, hset, ⟨rfl, rfl⟩, ⟨hlog, rfl⟩, rfl, rfl⟩
  | fifo | chardev | blockdev | normal | symbolicLink | sock =>
      simp only [htype, Option.bind_eq_bind, Option.bind_eq_some_iff] at h
      obtain ⟨⟨events', st₂⟩, htrack, _, heq, _, _, h⟩ := h
      cases heq
      cases h
      exact ⟨cur, events', children, _, st₂, hset, ⟨rfl, rfl⟩, htrack, rfl, rfl⟩

/-- A loop that comes to its end had children it could pass. -/
theorem passable_of_observeFrom {env : Environment} {node : List ℕ} {s : CStr}
    {children : List FsTarget}
    (hpass : ∀ c ∈ children, ∀ (env : Environment) (node : List ℕ) (st : ObsSt)
      (r : Bool × FsTarget × ObsSt), st.cur.path = some s →
      fsTargetObserve env node c st = some r → Passable s c)
    {i : ℕ} {st : ObsSt} {r : List FsTarget × ObsSt} (h : st.cur.path = some s)
    (hrun : observeFrom env node i children st = some r) : ∀ c ∈ children, Passable s c := by
  induction children generalizing i st r with
  | nil => simp
  | cons c children ih =>
      simp only [List.mem_cons, forall_eq_or_imp] at hpass ⊢
      rw [observeFrom] at hrun
      obtain ⟨⟨b, c', st₁⟩, hchild, hrun⟩ := Option.bind_eq_some_iff.mp hrun
      obtain ⟨r', hrest, -⟩ := Option.bind_eq_some_iff.mp hrun
      have hc := hpass.1 env (node ++ [i]) st _ h hchild
      -- the child could be passed, so the path is what it was
      obtain ⟨_, st', _, hrun', hpath', -, -⟩ :=
        fsTargetObserve_covers c env (node ++ [i]) s st h hc
      obtain ⟨-, -, rfl⟩ : b = _ ∧ c' = _ ∧ st₁ = st' := by simpa [hchild] using hrun'
      exact ⟨hc, ih hpass.2 hpath' hrest⟩

/-- **Only passable trees are passed**: a traversal that comes to its end met no released
record, no directory without an array, and no path without room. -/
theorem passable_of_observe {t : FsTarget} {env : Environment} {node : List ℕ} {s : CStr}
    {st : ObsSt} {r : Bool × FsTarget × ObsSt} (h : st.cur.path = some s)
    (hrun : fsTargetObserve env node t st = some r) : Passable s t := by
  induction t using FsTarget.induction generalizing env node s st r with
  | hnull => exact .null
  | hreleased => cases hrun
  | hlive finfo events children ih =>
      obtain ⟨cur, _, _, _, _, hset, hprop, -⟩ := of_observe_live hrun
      have hfits := fits_of_setCurrentWd h hset
      obtain ⟨cur', hset', hcur⟩ := setCurrentWd_shows h hfits
      obtain rfl : cur = cur' := Option.some.inj (hset.symm.trans hset')
      by_cases hdir : finfo.type = .directory
      · rw [if_pos hdir] at hprop
        cases children with
        | none => cases hprop
        | some cs =>
            rw [propagateChildrenRecursive] at hprop
            obtain ⟨_, hloop, -⟩ := Option.bind_eq_some_iff.mp hprop
            exact .directory hdir hfits (passable_of_observeFrom
              (fun c hc env node st r hpath hrun => ih cs rfl c hc hpath hrun) hcur hloop)
      · exact .leaf hdir hfits

/-! ### Paths as joined names -/

/-- The non-empty part of a chain of names, joined by slashes: leading empty strings are
left out together with their slash. -/
def joined (names : List CStr) : CStr :=
  List.intercalate [slash] (names.dropWhile (· = []))

/-- A chain that begins with a name is joined as it stands. -/
theorem joined_cons {s : CStr} (hs : s ≠ []) (names : List CStr) :
    joined (s :: names) = List.intercalate [slash] (s :: names) := by
  simp [joined, hs]

/-- The path of a node is its chain of names, joined. -/
theorem under_eq_joined (s : CStr) (names : List CStr) : under s names = joined (s :: names) := by
  induction names generalizing s with
  | nil =>
      by_cases hs : s = []
      · simp [under, joined, hs]
      · simp [under, joined, hs]
  | cons name names ih =>
      have hstep : under s (name :: names) = under (join s name) names := rfl
      rw [hstep, ih]
      by_cases hs : s = []
      · simp [join, joined, hs]
      · have hjoin : join s name ≠ [] := by simp [join, hs]
        rw [joined_cons hjoin, joined_cons hs]
        cases names with
        | nil => simp [join, hs]
        | cons _ _ => simp [join, hs, List.intercalate_cons_cons]

/-- From an empty buffer, the path of a node is its chain of names, joined. -/
theorem under_nil (names : List CStr) : under [] names = joined names := by
  rw [under_eq_joined]
  simp [joined]

/-- The calls of `fs_target_event_track` among the visits. -/
def calls (visits : List Visit) : List Visit := visits.filter fun v => v.done.isSome

/-- **A round of the observer.** On an intact tree, started with `s` in the buffer such
that every path fits: the nodes of a known type are tracked, each once, and in post-order,
with `path()` at `s` and the names from the root joined by slashes; no other call is made;
and the buffer shows `s` again at the end. -/
theorem observe_tracks_once (env : Environment) {t : FsTarget} {s : CStr} {st : ObsSt}
    (hintact : Intact t) (hpath : st.cur.path = some s)
    (hfits : ∀ node names finfo events, Reaches t node names finfo events →
      Fits (joined (s :: names))) :
    ∃ t' st' visits, fsTargetObserve env [] t st = some (true, t', st') ∧
      st'.cur.path = some s ∧ st'.log = st.log ++ visits ∧
      ((calls visits).map Visit.node).Nodup ∧
      ((calls visits).map Visit.node).Pairwise Before ∧
      ∀ node path events,
        (∃ v ∈ calls visits, v.node = node ∧ v.path = path ∧ v.events = events) ↔
        ∃ names finfo, Reaches t node names finfo events ∧ finfo.type ≠ .unknown ∧
          path = joined (s :: names) := by
  have hpass : Passable s t := hintact.passable fun node names finfo events hreach => by
    rw [under_eq_joined]
    exact hfits node names finfo events hreach
  obtain ⟨t', st', visits, hrun, hpath', hlog, hcovers⟩ :=
    fsTargetObserve_covers t env [] s st hpath hpass
  have hlive : decide t.NotNull = true := by cases hintact <;> rfl
  have hordered : ((calls visits).map Visit.node).Pairwise Before :=
    List.pairwise_map.mpr (hcovers.ordered.sublist List.filter_sublist)
  refine ⟨t', st', visits, hlive ▸ hrun, hpath', hlog, nodup_of_pairwise_before hordered,
    hordered, ?_⟩
  intro node path events
  constructor
  · rintro ⟨v, hv, rfl, rfl, rfl⟩
    obtain ⟨hv, hdone⟩ := List.mem_filter.mp hv
    obtain ⟨p, names, finfo, hreach, hnode, hvpath, hknown⟩ := hcovers.sound v hv
    obtain rfl : v.node = p := hnode
    exact ⟨names, finfo, hreach, hknown.mp hdone, by rw [hvpath, under_eq_joined]⟩
  · rintro ⟨names, finfo, hreach, hknown, rfl⟩
    obtain ⟨v, hv, hnode, hvpath, hevents, hdone⟩ :=
      hcovers.complete node names finfo events hreach
    refine ⟨v, List.mem_filter.mpr ⟨hv, hdone.mpr hknown⟩, hnode, ?_, hevents⟩
    rw [hvpath, under_eq_joined]

/-- A directory of the given name with one file. -/
def directoryWith (name child : CStr) : FsTarget :=
  let events : Records FsTargetEvent := ⟨[], 2016⟩
  .live ⟨0, .directory, name, true⟩ events
    (some [.live ⟨0, .normal, child, true⟩ events none])

/-- The nodes of a directory with one file. -/
theorem reaches_directoryWith {name child : CStr} {node : List ℕ} {names : List CStr}
    {finfo : Finfo} {events : Records FsTargetEvent}
    (h : Reaches (directoryWith name child) node names finfo events) :
    names = [name] ∨ names = [name, child] := by
  cases h with
  | root => exact .inl rfl
  | @child _ _ _ _ _ j c q names _ hj hreach =>
      obtain ⟨-, rfl⟩ : j = 0 ∧ _ = c := by simpa [List.getElem?_singleton] using hj
      cases hreach with
      | root => exact .inr rfl

theorem intact_directoryWith (name child : CStr) : Intact (directoryWith name child) := by
  refine .directory rfl ?_
  simp only [List.mem_singleton, forall_eq]
  exact .leaf (by simp)

/-- In a directory `.` a file `.` is tracked as `./.`. -/
theorem dots_tracked : ∃ t' st', ∃ visits : List Visit,
    fsTargetObserve (fun _ _ => .answered (.error .enoent)) [] (directoryWith [dot] [dot])
        ⟨PathBuf.empty, []⟩ = some (true, t', st') ∧
      st'.cur.path = some [] ∧
      ((calls visits).map Visit.node).Pairwise Before ∧
      (∃ v ∈ calls visits, v.node = [0] ∧ v.path = [dot, slash, dot] ∧ v.events = ⟨[], 2016⟩) := by
  have hfits : ∀ node names finfo events,
      Reaches (directoryWith [dot] [dot]) node names finfo events →
      Fits (joined ([] :: names)) := by
    intro node names finfo events h
    rcases reaches_directoryWith h with rfl | rfl <;> decide
  have hstart : (ObsSt.mk PathBuf.empty []).cur.path = some [] := PathBuf.path_empty
  obtain ⟨t', st', visits, hrun, hpath, -, -, hordered, hvisits⟩ :=
    observe_tracks_once (fun _ _ => .answered (.error .enoent))
      (intact_directoryWith [dot] [dot]) hstart hfits
  refine ⟨t', st', visits, hrun, hpath, hordered, (hvisits [0] _ _).mpr ?_⟩
  exact ⟨[[dot], [dot]], _, .child rfl rfl .root, by decide, by decide⟩

/-- A string, when there is one, and names, all joined by slashes. -/
def plainJoined (s : CStr) (names : List CStr) : CStr :=
  List.intercalate [slash] (if s = [] then names else s :: names)

/-- With an empty buffer, a file `.` in a directory whose name is empty is tracked as `.`
and not as `/.`. -/
theorem empty_name_not_joined :
    ¬ ∀ (env : Environment) (t : FsTarget) (s : CStr) (st : ObsSt),
      Intact t → st.cur.path = some s →
      (∀ node names finfo events, Reaches t node names finfo events →
        Fits (plainJoined s names)) →
      ∃ t' st' visits, fsTargetObserve env [] t st = some (true, t', st') ∧
        st'.cur.path = some s ∧ st'.log = st.log ++ visits ∧
        ((calls visits).map Visit.node).Nodup ∧
        ((calls visits).map Visit.node).Pairwise Before ∧
        ∀ node path events,
          (∃ v ∈ calls visits, v.node = node ∧ v.path = path ∧ v.events = events) ↔
          ∃ names finfo, Reaches t node names finfo events ∧ finfo.type ≠ .unknown ∧
            path = plainJoined s names := by
  intro h
  have hfits : ∀ node names finfo events,
      Reaches (directoryWith [] [dot]) node names finfo events →
      Fits (plainJoined [] names) ∧ Fits (under [] names) := by
    intro node names finfo events hreach
    rcases reaches_directoryWith hreach with rfl | rfl <;> decide
  obtain ⟨t₁, st₁, visits₁, hrun₁, -, hlog₁, -, -, hvisits⟩ :=
    h (fun _ _ => .answered (.error .enoent)) (directoryWith [] [dot]) []
      ⟨PathBuf.empty, []⟩ (intact_directoryWith _ _) PathBuf.path_empty
      fun _ _ _ _ hreach => (hfits _ _ _ _ hreach).1
  have hpass : Passable [] (directoryWith [] [dot]) :=
    (intact_directoryWith _ _).passable fun _ _ _ _ hreach => (hfits _ _ _ _ hreach).2
  obtain ⟨t₂, st₂, visits₂, hrun₂, -, hlog₂, hcovers⟩ :=
    fsTargetObserve_covers (directoryWith [] [dot]) (fun _ _ => .answered (.error .enoent))
      [] [] ⟨PathBuf.empty, []⟩ PathBuf.path_empty hpass
  obtain ⟨-, rfl, rfl⟩ : _ ∧ t₁ = t₂ ∧ st₁ = st₂ := by simpa [hrun₁] using hrun₂
  obtain rfl : visits₁ = visits₂ := List.append_cancel_left (hlog₁.symm.trans hlog₂)
  obtain ⟨v, hv, -, hpath, -, hdone⟩ := hcovers.complete [0] [[], [dot]] _ _
    (.child rfl rfl .root)
  have hcall : v ∈ calls visits₁ :=
    List.mem_filter.mpr ⟨hv, hdone.mpr (by decide)⟩
  obtain ⟨names, _, hreach, -, hjoined⟩ := (hvisits v.node v.path v.events).mp
    ⟨v, hcall, rfl, rfl, rfl⟩
  rw [hpath] at hjoined
  rcases reaches_directoryWith hreach with rfl | rfl <;> exact absurd hjoined (by decide)

end Backd
