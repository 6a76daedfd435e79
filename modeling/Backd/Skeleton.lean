import Backd.ServiceEnd

/-!
# What the Rounds Leave Alone

A round changes histories. The skeleton of a target tree is the tree without them: the
targets, their data, and their places. Rounds keep the skeletons of all snapshots, whatever
happens to the files, and printing and releasing a tree look at nothing else.

So the end of the service does not depend on what was observed: `service_deinit` prints and
releases what it would have printed and released right after `service_init`.

## Main results

* `fsTargetPrint_skeleton`, `fsTargetDeallocTrace_skeleton`: printing and releasing a tree is
  printing and releasing its skeleton.
* `skeleton_of_observe`: a traversal keeps the skeleton.
* `rounds_keep_trees`: after any rounds, the snapshots have their skeletons, and the end of the
  service is the same.
-/

namespace Backd

open Runs

/-! ### Trees without histories -/

mutual

/-- The tree without its histories. -/
def skeleton : FsTarget → FsTarget
  | .null => .null
  | .released => .released
  | .live finfo _ children => .live finfo ⟨[], 0⟩ (skeletonChildren children)

/-- The children of a target without their histories. -/
def skeletonChildren : Option (List FsTarget) → Option (List FsTarget)
  | none => none
  | some children => some (skeletons children)

/-- Targets without their histories. -/
def skeletons : List FsTarget → List FsTarget
  | [] => []
  | child :: children => skeleton child :: skeletons children

end

section Trees

variable {buf : StaticBuf} {path : Option CStr} {t : FsTarget}

theorem skeletons_eq_map (children : List FsTarget) :
    skeletons children = children.map skeleton := by
  induction children with
  | nil => rfl
  | cons child children ih => rw [skeletons, ih, List.map_cons]

@[simp] theorem notNull_skeleton : (skeleton t).NotNull ↔ t.NotNull := by
  cases t <;> simp [skeleton, FsTarget.NotNull]

/-- The loop over the children prints the same, if it is so for each child. -/
theorem printFrom_skeleton {children : List FsTarget}
    (h : ∀ c ∈ children, ∀ depth,
      fsTargetPrint buf path depth (skeleton c) = fsTargetPrint buf path depth c) (depth : ℕ) :
    printFrom buf path depth (skeletons children) = printFrom buf path depth children := by
  induction children with
  | nil => rfl
  | cons c children ih =>
      rw [List.forall_mem_cons] at h
      rw [skeletons, printFrom, printFrom, h.1, ih h.2]

/-- **Printing** a tree looks at its skeleton only. -/
theorem fsTargetPrint_skeleton (buf : StaticBuf) (path : Option CStr) (depth : ℕ) (t : FsTarget) :
    fsTargetPrint buf path depth (skeleton t) = fsTargetPrint buf path depth t := by
  induction t using FsTarget.induction generalizing depth with
  | hnull => rfl
  | hreleased => rfl
  | hlive finfo events children ih =>
      rw [skeleton, fsTargetPrint, fsTargetPrint]
      cases children with
      | none => rfl
      | some children =>
          rw [skeletonChildren, printChildren, printChildren,
            printFrom_skeleton (ih children rfl) depth]

/-- The loop over the children releases the same, if it is so for each child. -/
theorem deallocFrom_skeleton {node : List ℕ} {children : List FsTarget}
    (h : ∀ c ∈ children, ∀ node,
      fsTargetDeallocTrace node (skeleton c) = fsTargetDeallocTrace node c) (i : ℕ) :
    deallocFrom node i (skeletons children) = deallocFrom node i children := by
  induction children generalizing i with
  | nil => rfl
  | cons c children ih =>
      rw [List.forall_mem_cons] at h
      rw [skeletons, deallocFrom, deallocFrom, h.1, ih h.2]

/-- **Releasing** a tree looks at its skeleton only. -/
theorem fsTargetDeallocTrace_skeleton (node : List ℕ) (t : FsTarget) :
    fsTargetDeallocTrace node (skeleton t) = fsTargetDeallocTrace node t := by
  induction t using FsTarget.induction generalizing node with
  | hnull => rfl
  | hreleased => rfl
  | hlive finfo events children ih =>
      rw [skeleton, fsTargetDeallocTrace, fsTargetDeallocTrace]
      cases children with
      | none => rfl
      | some children =>
          have hlen : (skeletons children).length = children.length := by
            rw [skeletons_eq_map, List.length_map]
          rw [skeletonChildren, deallocChildren, deallocChildren,
            deallocFrom_skeleton (ih children rfl) 0, hlen]

/-- Trees with the same skeleton are printed alike. -/
theorem print_congr {t' : FsTarget} (h : skeleton t' = skeleton t) (depth : ℕ) :
    fsTargetPrint buf path depth t' = fsTargetPrint buf path depth t := by
  rw [← fsTargetPrint_skeleton, h, fsTargetPrint_skeleton]

/-- Trees with the same skeleton are released alike. -/
theorem delete_congr {t' : FsTarget} (h : skeleton t' = skeleton t) :
    fsTargetDelete t' = fsTargetDelete t := by
  rw [fsTargetDelete, fsTargetDelete, ← fsTargetDeallocTrace_skeleton, h,
    fsTargetDeallocTrace_skeleton]

end Trees

/-! ### Rounds -/

section Observe

variable {env : Environment} {node : List ℕ} {t t' : FsTarget} {st st' : ObsSt}

/-- The loop over the children keeps their skeletons, if it is so for each child. -/
theorem skeletons_of_observeFrom {children children' : List FsTarget}
    (h : ∀ c ∈ children, ∀ {node : List ℕ} {st st' : ObsSt} {b : Bool} {c' : FsTarget},
      fsTargetObserve env node c st = some (b, c', st') → skeleton c' = skeleton c)
    {i : ℕ} (hrun : observeFrom env node i children st = some (children', st')) :
    skeletons children' = skeletons children := by
  induction children generalizing i st children' with
  | nil =>
      cases hrun
      rfl
  | cons c children ih =>
      rw [List.forall_mem_cons] at h
      rw [observeFrom] at hrun
      obtain ⟨⟨b, c', st₁⟩, hchild, hrun⟩ := Option.bind_eq_some_iff.mp hrun
      obtain ⟨⟨cs', st₂⟩, hloop, hrun⟩ := Option.bind_eq_some_iff.mp hrun
      cases hrun
      rw [skeletons, skeletons, h.1 hchild, ih h.2 hloop]

/-- **A traversal keeps the skeleton**, by induction over the tree. -/
theorem skeleton_of_observe {b : Bool} (h : fsTargetObserve env node t st = some (b, t', st')) :
    skeleton t' = skeleton t := by
  induction t using FsTarget.induction generalizing node st t' st' b with
  | hnull =>
      cases h
      rfl
  | hreleased => cases h
  | hlive finfo events children ih =>
      obtain ⟨cur, events', children', st₁, st₂, -, hloop, -, -, rfl⟩ := of_observe_live h
      rw [skeleton, skeleton]
      by_cases hdir : finfo.type = .directory
      · rw [if_pos hdir] at hloop
        cases children with
        | none => cases hloop
        | some cs =>
            rw [propagateChildrenRecursive] at hloop
            obtain ⟨⟨cs', st₃⟩, hloop, heq⟩ := Option.bind_eq_some_iff.mp hloop
            cases heq
            rw [skeletonChildren, skeletonChildren, skeletons_of_observeFrom
              (fun c hc => fun hobserve => ih cs rfl c hc hobserve) hloop]
      · rw [if_neg hdir] at hloop
        rw [hloop.1]

end Observe

/-! ### The end of the service -/

/-- The slots hold the same paths, and trees with the same skeletons. -/
structure ServiceSt.Alike (svc svc' : ServiceSt) : Prop where
  index_eq : svc'.fpIndex = svc.fpIndex
  paths_eq : svc'.paths = svc.paths
  trees_eq : svc'.fp.map skeleton = svc.fp.map skeleton

section Deinit

variable {buf : StaticBuf} {svc svc' : ServiceSt} {i : ℕ} {target : FsTarget}

theorem ServiceSt.Alike.refl (svc : ServiceSt) : svc.Alike svc := ⟨rfl, rfl, rfl⟩

theorem ServiceSt.Alike.trans {svc'' : ServiceSt} (h : svc.Alike svc') (h' : svc'.Alike svc'') :
    svc.Alike svc'' :=
  ⟨h'.index_eq.trans h.index_eq, h'.paths_eq.trans h.paths_eq, h'.trees_eq.trans h.trees_eq⟩

theorem ServiceSt.Alike.symm (h : svc.Alike svc') : svc'.Alike svc :=
  ⟨h.index_eq.symm, h.paths_eq.symm, h.trees_eq.symm⟩

/-- What a slot holds. -/
theorem ServiceSt.Alike.slot (h : svc.Alike svc') (ht : svc.fp[i]? = some target) :
    ∃ target', svc'.fp[i]? = some target' ∧ skeleton target' = skeleton target := by
  have hslot : svc'.fp[i]?.map skeleton = svc.fp[i]?.map skeleton := by
    rw [← List.getElem?_map, ← List.getElem?_map, h.trees_eq]
  rw [ht] at hslot
  exact Option.map_eq_some_iff.mp hslot

/-- A tree with the same skeleton in one of the slots. -/
theorem ServiceSt.Alike.setSlot {target' : FsTarget} (ht : svc.fp[i]? = some target)
    (htarget : skeleton target' = skeleton target) : svc.Alike (svc.setSlot i target') where
  index_eq := rfl
  paths_eq := rfl
  trees_eq := by
    obtain ⟨hi, rfl⟩ := List.getElem?_eq_some_iff.mp ht
    rw [ServiceSt.setSlot, List.map_set, htarget, ← List.getElem_map skeleton (h := by simpa),
      List.set_getElem_self]

/-- What `service_deinit` prints for every snapshot. -/
theorem ServiceSt.Alike.slotPrints (h : svc.Alike svc') {printed : List PrintEvent}
    (hprints : SlotPrints buf svc printed) : SlotPrints buf svc' printed := by
  obtain ⟨last, path, hlast, hpath, hprint⟩ := hprints
  obtain ⟨last', hlast', hskel⟩ := h.slot hlast
  refine ⟨last', path, ?_, ?_, ?_⟩
  · rw [h.index_eq, hlast']
  · rw [h.index_eq, h.paths_eq, hpath]
  · rw [print_congr hskel, hprint]

/-- The blocks for some targets are blocks for targets with the same skeletons. -/
theorem Settles.of_skeletons {shows : List PrintEvent → Prop} {targets targets' : List FsTarget}
    {events : List DeinitEvent} (hskel : targets'.map skeleton = targets.map skeleton)
    (h : Settles (fun _ => shows) i targets events) :
    Settles (fun _ => shows) i targets' events := by
  induction targets generalizing i targets' events with
  | nil =>
      obtain rfl := List.map_eq_nil_iff.mp hskel
      exact h
  | cons target targets ih =>
      obtain ⟨target', rest, rfl, hhead, htail⟩ := List.map_eq_cons_iff.mp hskel
      have hnull : target'.NotNull ↔ target.NotNull := by
        rw [← notNull_skeleton, hhead, notNull_skeleton]
      rw [Settles] at h ⊢
      by_cases hheld : target.NotNull
      · rw [if_pos hheld] at h
        obtain ⟨printed, trace, behind, rfl, hshows, hdelete, hrest⟩ := h
        rw [if_pos (hnull.mpr hheld)]
        exact ⟨printed, trace, behind, rfl, hshows, by rw [delete_congr hhead, hdelete],
          ih htail hrest⟩
      · rw [if_neg hheld] at h
        rw [if_neg (mt hnull.mp hheld)]
        exact ih htail h

/-- What `service_deinit` does with the slots, it does with slots like these. -/
theorem ServiceSt.Alike.serviceDeinit (h : svc.Alike svc') {events : List DeinitEvent}
    (hrun : ∃ end', serviceDeinit buf svc = some (events, end')) :
    ∃ end', serviceDeinit buf svc' = some (events, end') := by
  by_cases hindex : svc.fpIndex ≤ serviceSlots
  · rw [serviceDeinit_settles hindex] at hrun
    rw [serviceDeinit_settles (h.index_eq ▸ hindex)]
    have hsame : SlotPrints buf svc' = SlotPrints buf svc := by
      funext printed
      exact propext ⟨h.symm.slotPrints, h.slotPrints⟩
    rw [hsame]
    refine Settles.of_skeletons ?_ hrun
    rw [List.map_take, List.map_take, h.trees_eq, h.index_eq]
  · obtain ⟨end', hrun⟩ := hrun
    rw [Backd.serviceDeinit, deinitLoop_outside (Nat.lt_of_not_le hindex) (Nat.zero_le _)] at hrun
    cases hrun

end Deinit

/-! ### Runs of the service -/

section Rounds

variable {svc svc' : ServiceSt} {obs obs' : ObsSt}

/-- A turn at a slot that is not empty. -/
theorem observeTurn_held {env : Environment} {i : ℕ} {target target' : FsTarget} {ok : Bool}
    (ht : svc.fp[i]? = some target) (hnull : target.NotNull)
    (hobserve : fsTargetObserve env [i] target obs = some (ok, target', obs')) :
    observeTurn env i (svc, obs) = some (ok, (svc.setSlot i target', obs')) := by
  rw [observeTurn, ht]
  simp only [Option.bind_eq_bind, Option.bind_some, if_pos hnull, hobserve]
  rfl

/-- A turn of a round keeps the trees. -/
theorem alike_of_observeTurn {env : Environment} {i : ℕ} {ok : Bool}
    (h : observeTurn env i (svc, obs) = some (ok, (svc', obs'))) : svc.Alike svc' := by
  obtain ⟨target, ht, hturn⟩ := Option.bind_eq_some_iff.mp h
  split at hturn
  · next hnull =>
      obtain ⟨⟨b, target', obs₁⟩, hobserve, hturn⟩ := Option.bind_eq_some_iff.mp hturn
      cases hturn
      exact ServiceSt.Alike.setSlot ht (skeleton_of_observe hobserve)
  · cases hturn
    exact .refl svc

/-- After any number of rounds the slots are alike. -/
theorem alike_of_run {log : List ((Environment × ℕ) × Bool)}
    (h : roundMachine.Run (svc, obs) log (svc', obs')) : svc.Alike svc' := by
  refine h.invariant (I := fun s => svc.Alike s.1) (H := fun _ => True) ?_ (.refl svc)
    fun _ _ => trivial
  rintro ⟨svc₁, obs₁⟩ i ok ⟨svc₂, obs₂⟩ halike - - hstep
  exact halike.trans (alike_of_observeTurn hstep)

/-- **Rounds leave the trees alone.** Whatever the files did meanwhile, the slots hold the same
paths and the same trees but for the histories, and `service_deinit` prints and releases
exactly what it would have printed and released before the rounds. -/
theorem rounds_keep_trees {log : List ((Environment × ℕ) × Bool)}
    (h : roundMachine.Run (svc, obs) log (svc', obs')) :
    svc'.fpIndex = svc.fpIndex ∧ svc'.paths = svc.paths ∧
      svc'.fp.map skeleton = svc.fp.map skeleton ∧
      ∀ buf events, (∃ end', serviceDeinit buf svc' = some (events, end')) ↔
        ∃ end', serviceDeinit buf svc = some (events, end') := by
  have halike := alike_of_run h
  exact ⟨halike.index_eq, halike.paths_eq, halike.trees_eq, fun buf events =>
    ⟨halike.symm.serviceDeinit, halike.serviceDeinit⟩⟩

end Rounds

/-! ### One snapshot -/

/-- The service with the snapshot of a directory `.` that has a file `.`. -/
def oneSnapshot : ServiceSt :=
  { ServiceSt.zeroed.setSlot 0 (directoryWith [dot] [dot]) with fpIndex := 1 }

theorem oneSnapshot_slot : oneSnapshot.fp[0]? = some (directoryWith [dot] [dot]) := rfl

/-- The paths `.` and `./.` fit. -/
theorem passable_dots : Passable [] (directoryWith [dot] [dot]) := by
  refine (intact_directoryWith _ _).passable fun node names finfo events hreach => ?_
  rcases reaches_directoryWith hreach with rfl | rfl <;> decide

/-- While both files are missing, the snapshot is observed, and printed and released as
before. -/
theorem oneSnapshot_kept : ∃ svc obs ok, observeTurn (fun _ _ => .answered (.error .enoent)) 0
      (oneSnapshot, ⟨PathBuf.empty, []⟩) = some (ok, (svc, obs)) ∧
    ∀ buf events, (∃ end', serviceDeinit buf svc = some (events, end')) ↔
      ∃ end', serviceDeinit buf oneSnapshot = some (events, end') := by
  obtain ⟨t', st', visits, hobserve, -⟩ := fsTargetObserve_covers _
    (fun _ _ => .answered (.error .enoent)) [0] [] ⟨PathBuf.empty, []⟩ PathBuf.path_empty
    passable_dots
  have hturn := observeTurn_held oneSnapshot_slot trivial hobserve
  have hadmits : roundMachine.Admits (oneSnapshot, ⟨PathBuf.empty, []⟩)
      ((fun _ _ => .answered (.error .enoent)), 0) := Nat.one_pos
  have hkept := rounds_keep_trees (.snoc .nil hadmits hturn)
  exact ⟨_, _, _, hturn, hkept.2.2.2⟩

end Backd
