import Backd.Observe
import Backd.Library.StraightLine

/-!
# The Calls of a Traversal

Which functions `fs_target_observe` calls on a target tree, and in which order, depends on
nothing but the tree. This module lists the calls (`observeScript`), shows that the
traversal does what the list does, and says where in the tree, and with which path in the
buffer, each call is made.

## Main results

* `observe_eq_script`: the traversal is its list of calls.
* `callAt_of_mem_trace`: the place and the path of every call a traversal makes.
* `mem_trace_of_entered`: a traversal whose calls of `set_current_wd` stay inside the buffer
  comes to every target it can come to.
-/

namespace Backd

open StraightLine

/-! ### The calls -/

/-- A call made by `fs_target_observe`. The last one stands for reading a released record,
or a children array that is not there. -/
inductive ObsCall
  | setCurrentWd (name : CStr)
  | eventTrack (node : List ℕ) (events : Records FsTargetEvent)
  | unknownType (node : List ℕ) (events : Records FsTargetEvent)
  | unsetCurrentWd (name : CStr)
  | unreadable

/-- What a call does to the state of the observer. -/
def ObsCall.perform (env : Environment) : ObsCall → ObsSt → Option ObsSt
  | .setCurrentWd name, st => (Backd.setCurrentWd name st.cur).map fun cur => { st with cur := cur }
  | .eventTrack node events, st => (trackHere env node events st).map Prod.snd
  | .unknownType node events, st => logUnknown node events st
  | .unsetCurrentWd name, st =>
    (Backd.unsetCurrentWd name st.cur).map fun cur => { st with cur := cur }
  | .unreadable, _ => none

/-- What the `switch` on the type of a target calls last. -/
def visitScript (node : List ℕ) (finfo : Finfo) (events : Records FsTargetEvent) : List ObsCall :=
  if finfo.type = .unknown then [.unknownType node events] else [.eventTrack node events]

mutual

/-- The calls of `fs_target_observe`. -/
def observeScript (node : List ℕ) : FsTarget → List ObsCall
  | .null => []
  | .released => [.unreadable]
  | .live finfo events children =>
    .setCurrentWd finfo.name ::
      ((if finfo.type = .directory then childrenScript node children else []) ++
        (visitScript node finfo events ++ [.unsetCurrentWd finfo.name]))

/-- The calls of `propagate_children_recursive`. -/
def childrenScript (node : List ℕ) : Option (List FsTarget) → List ObsCall
  | none => [.unreadable]
  | some children => scriptFrom node 0 children

/-- The calls of its loop, from the child with index `i` on. -/
def scriptFrom (node : List ℕ) (i : ℕ) : List FsTarget → List ObsCall
  | [] => []
  | child :: children => observeScript (node ++ [i]) child ++ scriptFrom node (i + 1) children

end

section Script

variable {env : Environment} {node : List ℕ} {st st' : ObsSt} {s : CStr}

/-- The loop over the children does what its calls do, where the children do. -/
theorem observeFrom_eq_script (env : Environment) (node : List ℕ) {children : List FsTarget}
    (h : ∀ c ∈ children, ∀ node st, (fsTargetObserve env node c st).map (fun r => r.2.2) =
      run (ObsCall.perform env) (observeScript node c) st) (i : ℕ) (st : ObsSt) :
    (observeFrom env node i children st).map Prod.snd =
      run (ObsCall.perform env) (scriptFrom node i children) st := by
  induction children generalizing i st with
  | nil => rfl
  | cons c children ih =>
      simp only [List.mem_cons, forall_eq_or_imp] at h
      rw [scriptFrom, run_append, ← h.1, observeFrom]
      cases fsTargetObserve env (node ++ [i]) c st with
      | none => rfl
      | some r =>
          obtain ⟨b, c', st₁⟩ := r
          rw [Option.map_some, Option.bind_some, ← ih h.2]
          cases hrest : observeFrom env node (i + 1) children st₁ <;> simp [hrest]

/-- What a traversal does at a target of a known type, below which everything is done. -/
theorem run_visit (env : Environment) (node : List ℕ) {finfo : Finfo}
    (events : Records FsTargetEvent) (h : finfo.type ≠ .unknown) (st : ObsSt) :
    run (ObsCall.perform env) (visitScript node finfo events ++ [.unsetCurrentWd finfo.name]) st =
      (trackHere env node events st).bind fun r =>
        (unsetCurrentWd finfo.name r.2.cur).map fun cur => { r.2 with cur := cur } := by
  rw [visitScript, if_neg h, List.cons_append, List.nil_append, run_cons, ObsCall.perform]
  cases trackHere env node events st with
  | none => rfl
  | some r => exact Option.bind_fun_some _

/-- **The traversal is its list of calls.** -/
theorem observe_eq_script (env : Environment) (node : List ℕ) (t : FsTarget) (st : ObsSt) :
    (fsTargetObserve env node t st).map (fun r => r.2.2) =
      run (ObsCall.perform env) (observeScript node t) st := by
  induction t using FsTarget.induction generalizing node st with
  | hnull => rfl
  | hreleased => rfl
  | hlive finfo events children ih =>
      rw [fsTargetObserve, observeScript, run_cons, ObsCall.perform]
      cases hset : setCurrentWd finfo.name st.cur with
      | none => rfl
      | some cur =>
          by_cases hdir : finfo.type = .directory
          · cases children with
            | none => simp [hdir, propagateChildrenRecursive, childrenScript, ObsCall.perform]
            | some children =>
                have hloop := observeFrom_eq_script env node
                  (fun c hc node st => ih children rfl c hc node st) 0 { st with cur := cur }
                have hknown : finfo.type ≠ .unknown := by simp [hdir]
                simp only [hdir, childrenScript, propagateChildrenRecursive, if_true,
                  Option.map_some, Option.bind_some]
                rw [run_append, ← hloop]
                cases hrest : observeFrom env node 0 children { st with cur := cur } with
                | none => simp [hrest]
                | some r =>
                    rw [Option.map_some, Option.bind_some, run_visit env node events hknown]
                    cases htrack : trackHere env node events r.2 with
                    | none => simp [hrest, htrack]
                    | some r' => cases hunset : unsetCurrentWd finfo.name r'.2.cur <;>
                        simp [hrest, htrack, hunset]
          · by_cases hunknown : finfo.type = .unknown
            · cases hlog : logUnknown node events { st with cur := cur } with
              | none => simp [hunknown, visitScript, hlog, ObsCall.perform]
              | some st' =>
                  cases hunset : unsetCurrentWd finfo.name st'.cur <;>
                    simp [hunknown, visitScript, hlog, hunset, ObsCall.perform]
            · simp only [if_neg hdir, List.nil_append, Option.map_some, Option.bind_some,
                run_visit env node events hunknown]
              cases htrack : trackHere env node events { st with cur := cur } with
              | none => cases htype : finfo.type <;> simp [htype, htrack] at hdir hunknown ⊢
              | some r' => cases hunset : unsetCurrentWd finfo.name r'.2.cur <;>
                  cases htype : finfo.type <;> simp [htype, htrack, hunset] at hdir hunknown ⊢

end Script

/-! ### Where the calls are made -/

/-- Nothing a traversal reads is missing: no record was released, and every directory has a
children array. -/
inductive Readable : FsTarget → Prop
  | null : Readable .null
  | leaf {finfo : Finfo} {events : Records FsTargetEvent} {children : Option (List FsTarget)} :
      finfo.type ≠ .directory → Readable (.live finfo events children)
  | directory {finfo : Finfo} {events : Records FsTargetEvent} {children : List FsTarget} :
      finfo.type = .directory → (∀ c ∈ children, Readable c) →
      Readable (.live finfo events (some children))

/-- A traversal comes to a target of this name, with those names above it, past children
that are readable. -/
inductive Entered : FsTarget → List CStr → CStr → Prop
  | root {finfo : Finfo} {events : Records FsTargetEvent} {children : Option (List FsTarget)} :
      Entered (.live finfo events children) [] finfo.name
  | child {finfo : Finfo} {events : Records FsTargetEvent} {children : List FsTarget} {i : ℕ}
      {c : FsTarget} {front : List CStr} {name : CStr} :
      finfo.type = .directory → children[i]? = some c → (∀ d ∈ children.take i, Readable d) →
      Entered c front name →
      Entered (.live finfo events (some children)) (finfo.name :: front) name

/-- A tree that can be passed is readable. -/
theorem Passable.readable {s : CStr} {t : FsTarget} (h : Passable s t) : Readable t := by
  induction h with
  | null => exact .null
  | leaf hleaf _ => exact .leaf hleaf
  | directory hdir _ _ ih => exact .directory hdir ih

/-- The place of a call in the tree, and the path the buffer shows, for a traversal that
started at `node` with the path `s`. -/
def CallAt (s : CStr) (node : List ℕ) (t : FsTarget) : ObsCall → ObsSt → Prop
  | .setCurrentWd name, st => ∃ front, Entered t front name ∧ st.cur.path = some (under s front)
  | .eventTrack id events, st | .unknownType id events, st =>
    ∃ p names finfo, Reaches t p names finfo events ∧ id = node ++ p ∧
      st.cur.path = some (under s names)
  | .unsetCurrentWd name, st => ∃ path, st.cur.path = some (join path name)
  | .unreadable, _ => ¬ Readable t

section Places

variable {env : Environment} {node : List ℕ} {st st' : ObsSt} {s : CStr} {t : FsTarget}

/-- The place of a call below a child. -/
theorem CallAt.child {finfo : Finfo} {events : Records FsTargetEvent}
    {children : List FsTarget} {i : ℕ} {c : FsTarget} {call : ObsCall}
    (hdir : finfo.type = .directory) (hi : children[i]? = some c)
    (hfront : ∀ d ∈ children.take i, Readable d)
    (h : CallAt (join s finfo.name) (node ++ [i]) c call st) :
    CallAt s node (.live finfo events (some children)) call st := by
  cases call with
  | setCurrentWd name =>
      obtain ⟨front, hentered, hpath⟩ := h
      exact ⟨finfo.name :: front, .child hdir hi hfront hentered, hpath⟩
  | eventTrack id events | unknownType id events =>
      obtain ⟨p, names, finfo', hreach, hid, hpath⟩ := h
      exact ⟨i :: p, finfo.name :: names, finfo', .child hdir hi hreach, by simpa using hid, hpath⟩
  | unsetCurrentWd name => exact h
  | unreadable =>
      intro hread
      cases hread with
      | leaf hleaf => exact hleaf hdir
      | directory _ hcs => exact h (hcs c (List.mem_of_getElem? hi))

/-- Where nothing is missing, every call but `set_current_wd` is carried out. -/
theorem CallAt.performs (env : Environment) {call : ObsCall} (h : CallAt s node t call st)
    (hread : Readable t) (hcall : ∀ name, call ≠ .setCurrentWd name) :
    (call.perform env st).isSome := by
  cases call with
  | setCurrentWd name => exact absurd rfl (hcall name)
  | eventTrack id events =>
      obtain ⟨_, _, _, _, _, hpath⟩ := h
      obtain ⟨done, htrack⟩ := trackHere_run env id events st hpath
      simp [ObsCall.perform, htrack]
  | unknownType id events =>
      obtain ⟨_, _, _, _, _, hpath⟩ := h
      simp [ObsCall.perform, logUnknown, logVisit_run id events st hpath none]
  | unsetCurrentWd name =>
      obtain ⟨_, hpath⟩ := h
      obtain ⟨cur, hunset, -⟩ := unsetCurrentWd_shows hpath
      simp [ObsCall.perform, hunset]
  | unreadable => exact absurd hread h

/-- What a call of `set_current_wd` that is carried out leaves in the buffer. -/
theorem shows_of_set {name : CStr} (h : st.cur.path = some s)
    (hset : ObsCall.perform env (.setCurrentWd name) st = some st') :
    st'.cur.path = some (join s name) := by
  obtain ⟨cur, hcur, rfl⟩ := Option.map_eq_some_iff.mp hset
  obtain ⟨cur', hcur', hshows⟩ := setCurrentWd_shows h (fits_of_setCurrentWd h hcur)
  cases hcur.symm.trans hcur'
  exact hshows

/-- What a call of `fs_target_event_track` adds to the log. -/
theorem of_eventTrack {events : Records FsTargetEvent}
    (h : ObsCall.perform env (.eventTrack node events) st = some st') :
    ∃ path, st.cur.path = some path ∧ st' = { st with
      log := st.log ++
        [⟨node, path, events, some (fsTargetEventTrack (env st.log.length path) events)⟩] } := by
  obtain ⟨⟨events', st₁⟩, htrack, rfl⟩ := Option.map_eq_some_iff.mp h
  obtain ⟨path, hpath, -, hlog⟩ := of_trackHere htrack
  exact ⟨path, hpath, hlog⟩

/-- What the message for an unknown type adds to the log. -/
theorem of_unknownType {events : Records FsTargetEvent}
    (h : ObsCall.perform env (.unknownType node events) st = some st') :
    ∃ path, st.cur.path = some path ∧
      st' = { st with log := st.log ++ [⟨node, path, events, none⟩] } := by
  obtain ⟨path, hpath, h⟩ := Option.bind_eq_some_iff.mp h
  cases h
  exact ⟨path, hpath, rfl⟩

/-- The call adds an entry to the log. -/
def ObsCall.visits : ObsCall → Bool
  | .eventTrack _ _ | .unknownType _ _ => true
  | .setCurrentWd _ | .unsetCurrentWd _ | .unreadable => false

/-- A call adds to the log what it visits. -/
theorem log_of_perform {call : ObsCall} (h : call.perform env st = some st') :
    ∃ more, st'.log = st.log ++ more ∧ more.length = if call.visits then 1 else 0 := by
  cases call with
  | setCurrentWd name | unsetCurrentWd name =>
      obtain ⟨_, -, rfl⟩ := Option.map_eq_some_iff.mp h
      exact ⟨[], (List.append_nil _).symm, rfl⟩
  | eventTrack id events =>
      obtain ⟨_, -, rfl⟩ := of_eventTrack h
      exact ⟨_, rfl, rfl⟩
  | unknownType id events =>
      obtain ⟨_, -, rfl⟩ := of_unknownType h
      exact ⟨_, rfl, rfl⟩
  | unreadable => cases h

/-- The log tells how many visits were made. -/
theorem log_of_run {calls : List ObsCall}
    (h : run (ObsCall.perform env) calls st = some st') :
    ∃ more, st'.log = st.log ++ more ∧ more.length = calls.countP ObsCall.visits := by
  induction calls generalizing st with
  | nil =>
      cases h
      exact ⟨[], (List.append_nil _).symm, rfl⟩
  | cons call calls ih =>
      obtain ⟨st₁, hfirst, h⟩ := Option.bind_eq_some_iff.mp h
      obtain ⟨more, hlog, hlen⟩ := log_of_perform hfirst
      obtain ⟨more', hlog', hlen'⟩ := ih h
      refine ⟨more ++ more', by rw [hlog', hlog, List.append_assoc], ?_⟩
      rw [List.length_append, hlen, hlen', List.countP_cons, Nat.add_comm]

/-- What is done at a target leaves the buffer as it is. -/
theorem visit_cur {finfo : Finfo} {events : Records FsTargetEvent}
    (h : run (ObsCall.perform env) (visitScript node finfo events) st = some st') :
    st'.cur = st.cur := by
  by_cases hunknown : finfo.type = .unknown
  · rw [visitScript, if_pos hunknown] at h
    obtain ⟨_, hlog, h⟩ := Option.bind_eq_some_iff.mp h
    cases h
    obtain ⟨_, _, rfl⟩ := of_unknownType hlog
    rfl
  · rw [visitScript, if_neg hunknown] at h
    obtain ⟨_, htrack, h⟩ := Option.bind_eq_some_iff.mp h
    cases h
    obtain ⟨_, _, rfl⟩ := of_eventTrack htrack
    rfl

/-- A traversal that comes to its end found everything, and shows the path it started
with. -/
theorem restored_of_run (h : st.cur.path = some s)
    (hrun : run (ObsCall.perform env) (observeScript node t) st = some st') :
    st'.cur.path = some s ∧ Readable t := by
  rw [← observe_eq_script] at hrun
  obtain ⟨r, hobserve, rfl⟩ := Option.map_eq_some_iff.mp hrun
  have hpass := passable_of_observe h hobserve
  obtain ⟨t', st₁, visits, hcovers, hpath, -⟩ := fsTargetObserve_covers t env node s st h hpass
  cases hobserve.symm.trans hcovers
  exact ⟨hpath, hpass.readable⟩

/-- So does the loop over the children. -/
theorem restored_of_runFrom {children : List FsTarget} {i : ℕ} (h : st.cur.path = some s)
    (hrun : run (ObsCall.perform env) (scriptFrom node i children) st = some st') :
    st'.cur.path = some s ∧ ∀ c ∈ children, Readable c := by
  induction children generalizing i st with
  | nil =>
      cases hrun
      exact ⟨h, by simp⟩
  | cons c children ih =>
      rw [scriptFrom, run_append] at hrun
      obtain ⟨st₁, hfirst, hrun⟩ := Option.bind_eq_some_iff.mp hrun
      obtain ⟨hpath, hread⟩ := restored_of_run h hfirst
      obtain ⟨hpath', hreads⟩ := ih hpath hrun
      exact ⟨hpath', List.forall_mem_cons.mpr ⟨hread, hreads⟩⟩

/-- A call of the loop is made below one of the children, past the earlier ones. -/
theorem mem_trace_scriptFrom {children : List FsTarget} {i : ℕ} {e : ObsCall × ObsSt}
    (h : st.cur.path = some s)
    (he : e ∈ trace (ObsCall.perform env) (scriptFrom node i children) st) :
    ∃ j c st', children[j]? = some c ∧ (∀ d ∈ children.take j, Readable d) ∧
      st'.cur.path = some s ∧
      e ∈ trace (ObsCall.perform env) (observeScript (node ++ [i + j]) c) st' := by
  induction children generalizing i st with
  | nil => simp [scriptFrom] at he
  | cons c children ih =>
      rw [scriptFrom, mem_trace_append] at he
      rcases he with he | ⟨st₁, hfirst, he⟩
      · exact ⟨0, c, st, rfl, by simp, h, he⟩
      · obtain ⟨hpath, hread⟩ := restored_of_run h hfirst
        obtain ⟨j, d, st', hj, hfront, hpath', he⟩ := ih hpath he
        refine ⟨j + 1, d, st', hj, ?_, hpath', ?_⟩
        · rw [List.take_succ_cons]
          exact List.forall_mem_cons.mpr ⟨hread, hfront⟩
        · rwa [Nat.add_assoc, Nat.add_comm 1] at he

/-- **The place of every call** a traversal makes. -/
theorem callAt_of_mem_trace {e : ObsCall × ObsSt} (h : st.cur.path = some s)
    (he : e ∈ trace (ObsCall.perform env) (observeScript node t) st) :
    CallAt s node t e.1 e.2 := by
  induction t using FsTarget.induction generalizing node s st with
  | hnull => simp [observeScript] at he
  | hreleased =>
      obtain rfl : e = (.unreadable, st) := by
        simpa [observeScript, mem_trace_cons, ObsCall.perform] using he
      exact nofun
  | hlive finfo events children ih =>
      rw [observeScript, mem_trace_cons] at he
      rcases he with rfl | ⟨st₁, hset, he⟩
      · exact ⟨[], .root, h⟩
      have hcur := shows_of_set h hset
      rw [mem_trace_append] at he
      rcases he with he | ⟨st₂, hbelow, he⟩
      · -- below a child
        by_cases hdir : finfo.type = .directory
        · rw [if_pos hdir] at he
          cases children with
          | none =>
              obtain rfl : e = (.unreadable, _) := by
                simpa [childrenScript, mem_trace_cons, ObsCall.perform] using he
              rintro (_ | hleaf | _)
              exact hleaf hdir
          | some children =>
              obtain ⟨j, c, st', hj, hfront, hpath, he⟩ := mem_trace_scriptFrom hcur he
              rw [Nat.zero_add] at he
              exact .child hdir hj hfront (ih children rfl c (List.mem_of_getElem? hj) hpath he)
        · simp [if_neg hdir] at he
      -- at the target itself, with its path in the buffer again
      have hpath : st₂.cur.path = some (join s finfo.name) := by
        by_cases hdir : finfo.type = .directory
        · rw [if_pos hdir] at hbelow
          cases children with
          | none => simp [childrenScript, ObsCall.perform] at hbelow
          | some children => exact (restored_of_runFrom hcur hbelow).1
        · rw [if_neg hdir] at hbelow
          cases hbelow
          exact hcur
      rw [mem_trace_append] at he
      rcases he with he | ⟨st₃, hvisit, he⟩
      · have hroot : ∃ p names finfo', Reaches (.live finfo events children) p names finfo' events ∧
            node = node ++ p ∧ st₂.cur.path = some (under s names) :=
          ⟨[], [finfo.name], finfo, .root, (List.append_nil node).symm, hpath⟩
        by_cases hunknown : finfo.type = .unknown
        · rw [visitScript, if_pos hunknown, trace_singleton, List.mem_singleton] at he
          subst he
          exact hroot
        · rw [visitScript, if_neg hunknown, trace_singleton, List.mem_singleton] at he
          subst he
          exact hroot
      · rw [trace_singleton, List.mem_singleton] at he
        subst he
        exact ⟨s, (congrArg PathBuf.path (visit_cur hvisit)).trans hpath⟩

/-- The calls for children that stand one behind the other. -/
theorem scriptFrom_append (node : List ℕ) (i : ℕ) (xs ys : List FsTarget) :
    scriptFrom node i (xs ++ ys) = scriptFrom node i xs ++ scriptFrom node (i + xs.length) ys := by
  induction xs generalizing i with
  | nil => rfl
  | cons x xs ih =>
      rw [List.cons_append, scriptFrom, scriptFrom, ih, List.append_assoc, List.length_cons,
        Nat.add_assoc, Nat.add_comm 1]

/-- The calls of `set_current_wd` in a trace stay inside the buffer. -/
def SetsWithin (calls : List (ObsCall × ObsSt)) : Prop :=
  ∀ name st, (.setCurrentWd name, st) ∈ calls → (setCurrentWd name st.cur).isSome

theorem SetsWithin.mono {calls calls' : List (ObsCall × ObsSt)} (h : SetsWithin calls)
    (hsub : calls' ⊆ calls) : SetsWithin calls' :=
  fun name st hmem => h name st (hsub hmem)

/-- A call of `set_current_wd` inside the buffer is carried out. -/
theorem SetsWithin.performs (env : Environment) {calls : List (ObsCall × ObsSt)}
    (h : SetsWithin calls) {name : CStr} (hmem : (.setCurrentWd name, st) ∈ calls) :
    ∃ st', ObsCall.perform env (.setCurrentWd name) st = some st' := by
  obtain ⟨cur, hcur⟩ := Option.isSome_iff_exists.mp (h name st hmem)
  exact ⟨_, by rw [ObsCall.perform, hcur]; rfl⟩

/-- The loop over readable children comes to its end when its calls of `set_current_wd` stay
inside the buffer. -/
theorem run_of_setsWithin {children : List FsTarget} {i : ℕ} (h : st.cur.path = some s)
    (hread : ∀ c ∈ children, Readable c)
    (hsets : SetsWithin (trace (ObsCall.perform env) (scriptFrom node i children) st)) :
    ∃ st', run (ObsCall.perform env) (scriptFrom node i children) st = some st' := by
  rw [← Option.isSome_iff_exists, Option.isSome_iff_ne_none]
  intro hnone
  obtain ⟨⟨call, st'⟩, hmem, hstuck⟩ := stuck_of_run_eq_none hnone
  obtain ⟨j, c, _, hj, -, hpath, hchild⟩ := mem_trace_scriptFrom h hmem
  by_cases hcall : ∃ name, call = .setCurrentWd name
  · obtain ⟨name, rfl⟩ := hcall
    obtain ⟨_, hset⟩ := hsets.performs env hmem
    exact absurd (hstuck.symm.trans hset) nofun
  · have hat := callAt_of_mem_trace hpath hchild
    have hsome := hat.performs env (hread c (List.mem_of_getElem? hj))
      fun name hname => hcall ⟨name, hname⟩
    rw [hstuck] at hsome
    exact absurd hsome nofun

/-- **Every target that can be entered is entered**, when the calls of `set_current_wd` stay
inside the buffer. -/
theorem mem_trace_of_entered {front : List CStr} {name : CStr} (hentered : Entered t front name)
    (h : st.cur.path = some s)
    (hsets : SetsWithin (trace (ObsCall.perform env) (observeScript node t) st)) :
    ∃ st', (.setCurrentWd name, st') ∈ trace (ObsCall.perform env) (observeScript node t) st ∧
      st'.cur.path = some (under s front) := by
  induction hentered generalizing s node st with
  | root =>
      rw [observeScript]
      exact ⟨st, mem_trace_cons.mpr (.inl rfl), h⟩
  | @child finfo events children i c front name hdir hi hfront _ ih =>
      rw [observeScript, if_pos hdir, childrenScript] at hsets ⊢
      obtain ⟨st₁, hset⟩ := hsets.performs env (mem_trace_cons.mpr (.inl rfl))
      have hcur := shows_of_set h hset
      -- the children in front of this one, this one, and the rest
      have hlt : i < children.length := (List.getElem?_eq_some_iff.mp hi).1
      have hcell : children[i] = c := (List.getElem?_eq_some_iff.mp hi).2
      have hsplit : children = children.take i ++ c :: children.drop (i + 1) := by
        rw [← hcell, ← List.drop_eq_getElem_cons hlt, List.take_append_drop]
      have hscript : scriptFrom node 0 children = scriptFrom node 0 (children.take i) ++
          (observeScript (node ++ [i]) c ++ scriptFrom node (i + 1) (children.drop (i + 1))) := by
        conv_lhs => rw [hsplit]
        rw [scriptFrom_append, scriptFrom, List.length_take_of_le (Nat.le_of_lt hlt), Nat.zero_add]
      rw [hscript, List.append_assoc, List.append_assoc] at hsets ⊢
      obtain ⟨st₂, hrun⟩ := run_of_setsWithin hcur hfront
        (hsets.mono fun e he => trace_subset_cons hset (trace_subset_left _ _ he))
      have hpath := (restored_of_runFrom hcur hrun).1
      obtain ⟨st', hmem, hpath'⟩ := ih hpath (hsets.mono fun e he =>
        trace_subset_cons hset (trace_subset_right _ hrun (trace_subset_left _ _ he)))
      exact ⟨st', trace_subset_cons hset (trace_subset_right _ hrun (trace_subset_left _ _ hmem)),
        hpath'⟩

end Places

end Backd
