import Backd.Watch

/-!
# Every Event is Listed

The memory of the service lists the acknowledgements pushed, and the visits of the observer
with what each of them appended. This module shows that these lists are what the histories
consist of, whatever the targets went through.

## Main results

* `acked_of_create`: a snapshot begins each history with an acknowledgement that is listed.
* `attributed_of_observe`: a traversal appends to a history what it logs for the target.
* `histories_listed`: in every state the service comes to, every event in the history of a
  target is listed, for this target.
-/

namespace Backd

open StraightLine Runs

/-- An event of a target is listed: it is an acknowledgement, or a visit appended it. -/
def Memory.Lists (m : Memory) (target : TargetId) (e : FsTargetEvent) : Prop :=
  (∃ a ∈ m.acks, a.target = target ∧ a.event = e) ∨
    ∃ v ∈ m.obs.log, v.node = target ∧ e ∈ v.appended

section Listed

variable {m m' : Memory} {target : TargetId} {e : FsTargetEvent}

/-- A call takes nothing from the lists. -/
theorem Memory.Lists.of_perform {c : WatchCall} (h : m.Lists target e)
    (hc : c.perform m = some m') :
    m'.Lists target e := by
  cases c with
  | create c =>
      rcases h with ⟨a, ha, hack⟩ | ⟨v, hv, hvisit⟩
      · exact .inl ⟨a, acks_of_create hc ha, hack⟩
      · exact .inr ⟨v, by rwa [obs_of_create hc], hvisit⟩
  | observe env c =>
      obtain ⟨obs, hobs, rfl⟩ := Option.map_eq_some_iff.mp hc
      rcases h with ⟨a, ha, hack⟩ | ⟨v, hv, hvisit⟩
      · exact .inl ⟨a, ha, hack⟩
      · obtain ⟨more, hlog, -⟩ := log_of_perform hobs
        exact .inr ⟨v, by rw [hlog]; exact List.mem_append_left _ hv, hvisit⟩

/-- What is listed stays listed over a step of the service. -/
theorem Memory.Lists.of_step {s s' : WatchSt} {i : WatchStep} (h : s.mem.Lists target e)
    (hstep : watchStep s i = some ((), s')) : s'.mem.Lists target e :=
  run_invariant (I := fun m => m.Lists target e) h
    (fun _ _ _ hlists hc => hlists.of_perform hc) (run_calls hstep)

end Listed

/-! ### Snapshots -/

section Create

variable {clock : CStr → UInt64} {target : TargetId} {path : CStr} {m m' : Memory}
  {p : List ℕ} {names : List CStr} {finfo : Finfo} {events : Records FsTargetEvent}

/-- Acknowledgements are kept by further calls. -/
theorem acks_of_run {calls : List CreateCall} (hrun : run CreateCall.perform calls m = some m')
    {a : Ack} (ha : a ∈ m.acks) : a ∈ m'.acks :=
  run_invariant (I := fun m => a ∈ m.acks) ha (fun _ _ _ ha hc => acks_of_create hc ha) hrun

/-- What a history holds is listed as acknowledged. -/
def Acked (m : Memory) (target : TargetId) (events : Records FsTargetEvent) : Prop :=
  ∀ e ∈ events.items, ∃ a ∈ m.acks, a.target = target ∧ a.event = e

/-- Further calls keep it listed. -/
theorem Acked.of_run {calls : List CreateCall} (h : Acked m target events)
    (hrun : run CreateCall.perform calls m = some m') : Acked m' target events := by
  intro e he
  obtain ⟨a, ha, hack⟩ := h e he
  exact ⟨a, acks_of_run hrun ha, hack⟩

/-- The loop over the entries lists what it acknowledges, if the calls for each entry do. The
targets are numbered as they are found. -/
theorem acked_of_entries {entries : List (EntryName × FsNode)}
    (h : ∀ e ∈ entries, ∀ {target : TargetId} {path : CStr} {m m' : Memory} {p : List ℕ}
      {names : List CStr} {finfo : Finfo} {events : Records FsTargetEvent},
      m.strings target = some path →
      run CreateCall.perform (createScript clock target path e.2) m = some m' →
      Reaches (fsTargetCreate clock path e.2) p names finfo events →
      Acked m' (target ++ p) events) {i j : ℕ} {e : EntryName × FsNode}
    (hrun : run CreateCall.perform (entriesScript clock target path i entries) m = some m')
    (hj : (foundEntries entries)[j]? = some e)
    (hreach : Reaches (fsTargetCreate clock (attach path e.1) e.2) p names finfo events) :
    Acked m' (target ++ (i + j) :: p) events := by
  induction entries generalizing i j m with
  | nil => simp [foundEntries] at hj
  | cons x entries ih =>
      obtain ⟨name, node⟩ := x
      simp only [List.mem_cons, forall_eq_or_imp] at h
      by_cases hvis : visible name = true
      · rw [entriesScript_visible hvis] at hrun
        obtain ⟨m₁, hreceive, hcalls⟩ := Option.bind_eq_some_iff.mp hrun
        cases hreceive
        rw [run_append] at hcalls
        obtain ⟨m₂, hcreate, hrest⟩ := Option.bind_eq_some_iff.mp hcalls
        by_cases hfound : node.found = true
        · have hcons : foundEntries ((name, node) :: entries) =
              (name, node) :: foundEntries entries := by
            simp [foundEntries, hvis, hfound]
          rw [hcons] at hj
          cases j with
          | zero =>
              obtain rfl : (name, node) = e := Option.some.inj hj
              have hacked := h.1 (Function.update_self _ _ _) hcreate hreach
              simpa using hacked.of_run hrest
          | succ j =>
              obtain ⟨m₃, -, hrest⟩ := Option.bind_eq_some_iff.mp hrest
              rw [if_pos hfound] at hrest
              have hacked := ih h.2 hrest hj
              rwa [Nat.add_assoc, Nat.add_comm 1] at hacked
        · have hskip : foundEntries ((name, node) :: entries) = foundEntries entries := by
            simp [foundEntries, hvis, hfound]
          obtain ⟨m₃, -, hrest⟩ := Option.bind_eq_some_iff.mp hrest
          rw [if_neg hfound] at hrest
          rw [hskip] at hj
          exact ih h.2 hrest hj
      · have hskip : foundEntries ((name, node) :: entries) = foundEntries entries := by
          simp [foundEntries, hvis]
        rw [entriesScript, if_neg hvis] at hrun
        rw [hskip] at hj
        exact ih h.2 hrun hj

/-- **A snapshot lists its acknowledgements**: the history of a node of the tree it returns
is begun with an event that is listed for this node. -/
theorem acked_of_create {n : FsNode} (hpath : m.strings target = some path)
    (hrun : run CreateCall.perform (createScript clock target path n) m = some m')
    (hreach : Reaches (fsTargetCreate clock path n) p names finfo events) :
    Acked m' (target ++ p) events := by
  induction n using FsNode.induction generalizing target path m m' p names finfo events with
  | hnode given lstat entries ih =>
      cases lstat with
      | error e =>
          rw [fsTargetCreate_error] at hreach
          cases hreach
      | ok st =>
          rw [run_createScript hpath, createScript_ok, List.tail_cons] at hrun
          obtain ⟨m₁, hinit, hrun⟩ := Option.bind_eq_some_iff.mp hrun
          obtain ⟨s, hs, rfl⟩ := Option.map_eq_some_iff.mp hinit
          obtain rfl : basenameCut path = s := by simpa using hs
          have hroot : Acked m' (target ++ []) (acknowledged clock (basenameCut path) st) := by
            refine Acked.of_run ?_ hrun
            intro e he
            obtain rfl := List.mem_singleton.mp he
            exact ⟨_, List.mem_append_right _ (List.mem_singleton_self _),
              (List.append_nil _).symm, rfl⟩
          by_cases hdir : filetype (givenStat given).mode = .directory
          · cases entries with
            | none =>
                rw [fsTargetCreate_refused hdir] at hreach
                cases hreach
            | some es =>
                rw [create_directory path hdir] at hreach
                rw [if_pos hdir, handleScript] at hrun
                cases hreach with
                | root => exact hroot
                | @child _ _ _ _ _ i c q names _ hi hreach =>
                    rw [List.getElem?_map, Option.map_eq_some_iff] at hi
                    obtain ⟨e, he, rfl⟩ := hi
                    have hfound : (foundEntries es)[i]? = some e := by
                      rw [List.getElem?_take] at he
                      split at he
                      · exact he
                      · cases he
                    have hchild := acked_of_entries (fun e he => ih es rfl e he) hrun hfound hreach
                    rwa [Nat.zero_add] at hchild
          · rw [fsTargetCreate_file hdir] at hreach
            cases hreach with
            | root => exact hroot

end Create

/-! ### Rounds -/

section Observe

variable {env : Environment} {node : List ℕ} {t t' : FsTarget} {st st' : ObsSt}
  {log log' : List Visit}

/-- The events of a target that a traversal left are those it had, and what the visits in the
log appended. -/
def Attributed (t t' : FsTarget) (node : List ℕ) (log : List Visit) : Prop :=
  ∀ p names finfo events', Reaches t' p names finfo events' →
    ∃ events, Reaches t p names finfo events ∧
      ∀ e ∈ events'.items, e ∈ events.items ∨ ∃ v ∈ log, v.node = node ++ p ∧ e ∈ v.appended

/-- A longer log tells as much. -/
theorem Attributed.mono (h : Attributed t t' node log) (hlog : log ⊆ log') :
    Attributed t t' node log' := by
  intro p names finfo events' hreach
  obtain ⟨events, hevents, hfrom⟩ := h p names finfo events' hreach
  refine ⟨events, hevents, ?_⟩
  intro e he
  rcases hfrom e he with hold | ⟨v, hv, hvisit⟩
  · exact .inl hold
  · exact .inr ⟨v, hlog hv, hvisit⟩

/-- What is done at a live target appends to its history what it logs. -/
theorem attributed_here {finfo : Finfo} {events events' : Records FsTargetEvent}
    (h : if finfo.type = .unknown then logUnknown node events st = some st' ∧ events' = events
      else trackHere env node events st = some (events', st')) :
    st.log ⊆ st'.log ∧ ∀ e ∈ events'.items, e ∈ events.items ∨
      ∃ v ∈ st'.log, v.node = node ∧ e ∈ v.appended := by
  by_cases hunknown : finfo.type = .unknown
  · rw [if_pos hunknown] at h
    have hcall : ObsCall.perform env (.unknownType node events) st = some st' := h.1
    obtain ⟨_, -, rfl⟩ := of_unknownType hcall
    rw [h.2]
    exact ⟨List.subset_append_left _ _, fun e he => .inl he⟩
  · rw [if_neg hunknown] at h
    obtain ⟨path, -, rfl, rfl⟩ := of_trackHere h
    refine ⟨List.subset_append_left _ _, ?_⟩
    intro e he
    obtain ⟨more, hmore⟩ := fsTargetEventTrack_extends (env st.log.length path) events
    rw [← hmore] at he
    rcases List.mem_append.mp he with he | he
    · exact .inl he
    · refine .inr ⟨_, List.mem_append_right _ (List.mem_singleton_self _), rfl, ?_⟩
      rw [Visit.appended_tracked, ← hmore, List.drop_left]
      exact he

/-- A traversal adds to the log. -/
theorem log_subset_of_observe {b : Bool}
    (h : fsTargetObserve env node t st = some (b, t', st')) : st.log ⊆ st'.log := by
  have hrun := observe_eq_script env node t st
  rw [h, Option.map_some] at hrun
  obtain ⟨more, hlog, -⟩ := log_of_run hrun.symm
  rw [hlog]
  exact List.subset_append_left _ _

/-- The loop over the children, if it is so for each child. -/
theorem attributed_of_observeFrom {children children' : List FsTarget}
    (h : ∀ c ∈ children, ∀ {node : List ℕ} {st st' : ObsSt} {b : Bool} {c' : FsTarget},
      fsTargetObserve env node c st = some (b, c', st') → Attributed c c' node st'.log)
    {i : ℕ} (hrun : observeFrom env node i children st = some (children', st')) :
    st.log ⊆ st'.log ∧ ∀ j c', children'[j]? = some c' →
      ∃ c, children[j]? = some c ∧ Attributed c c' (node ++ [i + j]) st'.log := by
  induction children generalizing i st children' with
  | nil =>
      cases hrun
      exact ⟨List.Subset.refl _, by simp⟩
  | cons c children ih =>
      simp only [List.mem_cons, forall_eq_or_imp] at h
      rw [observeFrom] at hrun
      obtain ⟨⟨b, c', st₁⟩, hchild, hrun⟩ := Option.bind_eq_some_iff.mp hrun
      obtain ⟨⟨cs', st₂⟩, hloop, hrun⟩ := Option.bind_eq_some_iff.mp hrun
      cases hrun
      obtain ⟨hlog, hrest⟩ := ih h.2 hloop
      refine ⟨List.Subset.trans (log_subset_of_observe hchild) hlog, ?_⟩
      intro j d hj
      cases j with
      | zero =>
          obtain rfl : c' = d := Option.some.inj hj
          exact ⟨c, rfl, (h.1 hchild).mono hlog⟩
      | succ j =>
          obtain ⟨d', hd', hfrom⟩ := hrest j d hj
          rw [Nat.add_assoc, Nat.add_comm 1] at hfrom
          exact ⟨d', hd', hfrom⟩

/-- **A traversal logs what it appends**, by induction over the tree. -/
theorem attributed_of_observe {b : Bool}
    (h : fsTargetObserve env node t st = some (b, t', st')) : Attributed t t' node st'.log := by
  induction t using FsTarget.induction generalizing node st t' st' b with
  | hnull =>
      cases h
      intro p names finfo events' hreach
      cases hreach
  | hreleased => cases h
  | hlive finfo events children ih =>
      obtain ⟨cur, events', children', st₁, st₂, -, hloop, hhere, hlog, rfl⟩ := of_observe_live h
      obtain ⟨hmore, hroot⟩ := attributed_here hhere
      rw [← hlog] at hmore hroot
      intro p names finfo' events'' hreach
      cases hreach with
      | root => exact ⟨events, .root, by rwa [List.append_nil]⟩
      | @child _ _ _ _ cs' i c q names hdir hi hreach =>
          rw [if_pos hdir] at hloop
          cases children with
          | none => cases hloop
          | some cs =>
              rw [propagateChildrenRecursive] at hloop
              obtain ⟨⟨cs₁, st₃⟩, hloop, heq⟩ := Option.bind_eq_some_iff.mp hloop
              cases heq
              obtain ⟨-, hchildren⟩ := attributed_of_observeFrom
                (fun c hc => fun hobserve => ih cs rfl c hc hobserve) hloop
              obtain ⟨d, hd, hfrom⟩ := hchildren i c hi
              obtain ⟨events₀, hevents, hlisted⟩ := (hfrom.mono hmore) q names finfo' _ hreach
              refine ⟨events₀, .child hdir hd hevents, ?_⟩
              rwa [Nat.zero_add, List.append_assoc, List.singleton_append] at hlisted

end Observe

/-! ### Runs -/

/-- Every event in the history of a target is listed, for this target. -/
def Listed (s : WatchSt) : Prop :=
  ∀ k t, s.targets[k]? = some t → ∀ p names finfo events, Reaches t p names finfo events →
    ∀ e ∈ events.items, s.mem.Lists (k :: p) e

/-- A step lists what it appends to the histories. -/
theorem Listed.step {s s' : WatchSt} {i : WatchStep} (h : Listed s)
    (hstep : watchStep s i = some ((), s')) : Listed s' := by
  have hkeep : ∀ {id e}, s.mem.Lists id e → s'.mem.Lists id e := fun hlists => hlists.of_step hstep
  cases i with
  | snapshot clock path n =>
      obtain ⟨hcreate, htargets⟩ := of_snapshot_step hstep
      intro k t hk p names finfo events hreach e he
      rw [htargets] at hk
      by_cases hnull : (fsTargetCreate clock path n).NotNull
      · rw [if_pos hnull, List.getElem?_append] at hk
        split at hk
        · exact hkeep (h k t hk p names finfo events hreach e he)
        · -- the new target
          obtain ⟨hk₀, rfl⟩ : k = s.targets.length ∧ fsTargetCreate clock path n = t := by
            rw [List.getElem?_singleton] at hk
            split at hk
            · exact ⟨by omega, Option.some.inj hk⟩
            · cases hk
          subst hk₀
          obtain ⟨a, ha, hack⟩ := acked_of_create (Function.update_self _ _ _) hcreate hreach e he
          exact .inl ⟨a, ha, hack⟩
      · rw [if_neg hnull] at hk
        exact hkeep (h k t hk p names finfo events hreach e he)
  | observe env =>
      obtain ⟨t₀, t', b, st, ht₀, hobserve, -, htargets, hmem⟩ := of_observe_step hstep
      intro k t hk p names finfo events hreach e he
      rw [htargets, List.getElem?_set] at hk
      split at hk
      · -- the target of this round
        subst k
        have hlt : s.turn < s.targets.length := (List.getElem?_eq_some_iff.mp ht₀).1
        obtain rfl : t' = t := by simpa [hlt] using hk
        obtain ⟨events₀, hevents, hfrom⟩ :=
          attributed_of_observe hobserve p names finfo events hreach
        rcases hfrom e he with hold | ⟨v, hv, hvisit⟩
        · exact hkeep (h s.turn t₀ ht₀ p names finfo events₀ hevents e hold)
        · exact .inr ⟨v, by rwa [hmem], hvisit⟩
      · exact hkeep (h k t hk p names finfo events hreach e he)

/-- **The histories are listed**: in every state the service comes to, every event in the
history of a target is an acknowledgement or was appended by a visit, of this target. -/
theorem histories_listed {log : List (WatchStep × Unit)} {s : WatchSt}
    (h : watchMachine.Run .start log s) : Listed s :=
  h.invariant (I := Listed) (H := fun _ => True)
    (fun hlisted _ _ hstep => hlisted.step hstep)
    (by intro k t hk; cases hk) fun _ _ => trivial

end Backd
