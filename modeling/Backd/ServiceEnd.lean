import Backd.FsPrint
import Backd.Library.Runs
import Backd.Service

/-!
# The End of the Service

`service_deinit` of `loop.c`: for every slot in use, a target is printed and the snapshot of
the slot is deleted. The target that is printed is not that of the slot: the call reads
`fp[fp_index]`, the first slot that is not in use.

## Conventions

The trace of a call is what is printed and, for every deletion, the slot and what
`fs_target_delete` releases. The messages of the logger are left out. A read outside the
slots stops the loop with `none`, and so does a printer or a deletion that does.

## Main results

* `serviceDeinit_settles`: the trace of a call, with one block for every slot in use.
* `deinitRight_iff`: every snapshot is listed and deleted exactly if what the slot behind
  them holds reads like each of them.
* `service_ends`: after `service_init` that slot is empty, and nothing is listed.
-/

namespace Backd

open Runs

/-! ### The call -/

/-- What `service_deinit` does: it prints, or deletes the snapshot of a slot. -/
inductive DeinitEvent
  | printed (event : PrintEvent)
  | deleted (slot : ℕ) (trace : List Release)
  deriving DecidableEq, Repr

/-- A slot holds another tree. -/
def ServiceSt.setSlot (svc : ServiceSt) (i : ℕ) (target : FsTarget) : ServiceSt :=
  { svc with
    fp := svc.fp.set i target
    fp_length := by rw [List.length_set, svc.fp_length] }

/-- One turn of the loop. -/
def deinitTurn (buf : StaticBuf) (svc : ServiceSt) (i : ℕ) :
    Option (List DeinitEvent × ServiceSt) := do
  let target ← svc.fp[i]?
  if target.NotNull then do
    let last ← svc.fp[svc.fpIndex]?
    let path ← svc.paths[svc.fpIndex]?
    let printed ← fsTargetPrint buf path 0 last
    let trace ← fsTargetDelete target
    return (printed.map .printed ++ [.deleted i trace], svc.setSlot i (fsTargetDealloc target))
  else return ([], svc)

/-- `while (i < fp_index)`. -/
def deinitLoop (buf : StaticBuf) : ℕ → ℕ → ServiceSt → Option (List DeinitEvent × ServiceSt)
  | 0, _, _ => none
  | turns + 1, i, svc =>
    if i < svc.fpIndex then do
      let (here, svc) ← deinitTurn buf svc i
      let (behind, svc) ← deinitLoop buf turns (i + 1) svc
      return (here ++ behind, svc)
    else some ([], svc)

/-- `service_deinit`. Every turn but the last is for one slot. -/
def serviceDeinit (buf : StaticBuf) (svc : ServiceSt) : Option (List DeinitEvent × ServiceSt) :=
  deinitLoop buf (svc.fpIndex + 1) 0 svc

/-! ### Blocks -/

/-- The events are a block for each of the targets, the first of them in slot `i`, that is
not `NULL`: what is printed for it, as `shows` says, and then its deletion. -/
def Settles (shows : FsTarget → List PrintEvent → Prop) :
    ℕ → List FsTarget → List DeinitEvent → Prop
  | _, [], events => events = []
  | i, target :: targets, events =>
    if target.NotNull then
      ∃ printed trace behind, events = printed.map .printed ++ .deleted i trace :: behind ∧
        shows target printed ∧ fsTargetDelete target = some trace ∧
        Settles shows (i + 1) targets behind
    else Settles shows (i + 1) targets events

/-- What is printed is the listing of the tree. -/
def ShowsListing (target : FsTarget) (printed : List PrintEvent) : Prop :=
  ∃ l, Listing target l ∧ Writes printed (l.flatMap lineText)

/-- `service_deinit` comes to its end; for every snapshot in turn, it prints the listing and
then deletes it. -/
def DeinitRight (buf : StaticBuf) (svc : ServiceSt) : Prop :=
  ∃ events svc', serviceDeinit buf svc = some (events, svc') ∧
    Settles ShowsListing 0 (svc.fp.take svc.fpIndex) events

section Settles

variable {shows shows' : FsTarget → List PrintEvent → Prop} {i : ℕ} {targets : List FsTarget}

/-- A block ends with its deletion. -/
theorem block_inj {printed printed' : List PrintEvent} {trace trace' : List Release}
    {behind behind' : List DeinitEvent}
    (h : printed.map .printed ++ .deleted i trace :: behind =
      printed'.map .printed ++ .deleted i trace' :: behind') :
    printed = printed' ∧ trace = trace' ∧ behind = behind' := by
  induction printed generalizing printed' with
  | nil =>
      cases printed' with
      | nil =>
          cases h
          exact ⟨rfl, rfl, rfl⟩
      | cons event printed' => cases h
  | cons event printed ih =>
      cases printed' with
      | nil => cases h
      | cons event' printed' =>
          rw [List.map_cons, List.map_cons, List.cons_append, List.cons_append,
            List.cons.injEq, DeinitEvent.printed.injEq] at h
          obtain ⟨rfl, h⟩ := h
          obtain ⟨rfl, hrest⟩ := ih h
          exact ⟨rfl, hrest⟩

/-- The blocks of a sequence of events are settled. -/
theorem Settles.both {events : List DeinitEvent} (h : Settles shows i targets events)
    (h' : Settles shows' i targets events) :
    Settles (fun target printed => shows target printed ∧ shows' target printed) i targets
      events := by
  induction targets generalizing i events with
  | nil => exact h
  | cons target targets ih =>
      rw [Settles] at h h' ⊢
      by_cases hnull : target.NotNull
      · rw [if_pos hnull] at h h' ⊢
        obtain ⟨printed, trace, behind, rfl, hshows, hdelete, hrest⟩ := h
        obtain ⟨printed', trace', behind', heq, hshows', -, hrest'⟩ := h'
        obtain ⟨rfl, rfl, rfl⟩ := block_inj heq
        exact ⟨printed, trace, behind, rfl, ⟨hshows, hshows'⟩, hdelete, ih hrest hrest'⟩
      · rw [if_neg hnull] at h h' ⊢
        exact ih h h'

theorem Settles.mono {events : List DeinitEvent} (h : Settles shows i targets events)
    (himp : ∀ target printed, shows target printed → shows' target printed) :
    Settles shows' i targets events := by
  induction targets generalizing i events with
  | nil => exact h
  | cons target targets ih =>
      rw [Settles] at h ⊢
      by_cases hnull : target.NotNull
      · rw [if_pos hnull] at h ⊢
        obtain ⟨printed, trace, behind, rfl, hshows, hdelete, hrest⟩ := h
        exact ⟨printed, trace, behind, rfl, himp _ _ hshows, hdelete, ih hrest⟩
      · rw [if_neg hnull] at h ⊢
        exact ih h

/-- There are such events exactly if each of the targets can be shown and deleted. -/
theorem settles_exists_iff :
    (∃ events, Settles shows i targets events) ↔
      ∀ target ∈ targets, target.NotNull →
        (∃ printed, shows target printed) ∧ ∃ trace, fsTargetDelete target = some trace := by
  induction targets generalizing i with
  | nil => exact iff_of_true ⟨[], rfl⟩ fun target h => absurd h List.not_mem_nil
  | cons target targets ih =>
      rw [List.forall_mem_cons, ← ih (i := i + 1)]
      simp only [Settles]
      by_cases hnull : target.NotNull
      · simp only [if_pos hnull]
        constructor
        · rintro ⟨events, printed, trace, behind, -, hshows, hdelete, hrest⟩
          exact ⟨fun _ => ⟨⟨printed, hshows⟩, trace, hdelete⟩, behind, hrest⟩
        · rintro ⟨hthis, behind, hrest⟩
          obtain ⟨⟨printed, hshows⟩, trace, hdelete⟩ := hthis hnull
          exact ⟨_, printed, trace, behind, rfl, hshows, hdelete, hrest⟩
      · simp only [if_neg hnull]
        exact ⟨fun h => ⟨fun hthis => absurd hthis hnull, h⟩, And.right⟩

end Settles

/-! ### The trace of a call -/

/-- What is printed for every snapshot: the tree in the slot behind them. -/
def SlotPrints (buf : StaticBuf) (svc : ServiceSt) (printed : List PrintEvent) : Prop :=
  ∃ last path, svc.fp[svc.fpIndex]? = some last ∧ svc.paths[svc.fpIndex]? = some path ∧
    fsTargetPrint buf path 0 last = some printed

section Trace

variable {buf : StaticBuf} {svc svc' : ServiceSt} {i : ℕ} {target : FsTarget}
  {here events : List DeinitEvent}

/-- A turn at an empty slot. -/
theorem deinitTurn_null (ht : svc.fp[i]? = some target) (hnull : ¬ target.NotNull) :
    deinitTurn buf svc i = some ([], svc) := by
  rw [deinitTurn, ht]
  exact if_neg hnull

/-- A turn at a slot that is not empty. -/
theorem deinitTurn_held (ht : svc.fp[i]? = some target) (hnull : target.NotNull) :
    deinitTurn buf svc i = some (here, svc') ↔
      ∃ printed trace, SlotPrints buf svc printed ∧ fsTargetDelete target = some trace ∧
        here = printed.map .printed ++ [.deleted i trace] ∧
        svc' = svc.setSlot i (fsTargetDealloc target) := by
  rw [deinitTurn, ht]
  simp only [Option.bind_eq_bind, Option.bind_some, if_pos hnull]
  constructor
  · intro h
    obtain ⟨last, hlast, h⟩ := Option.bind_eq_some_iff.mp h
    obtain ⟨path, hpath, h⟩ := Option.bind_eq_some_iff.mp h
    obtain ⟨printed, hprint, h⟩ := Option.bind_eq_some_iff.mp h
    obtain ⟨trace, hdelete, h⟩ := Option.bind_eq_some_iff.mp h
    cases h
    exact ⟨printed, trace, ⟨last, path, hlast, hpath, hprint⟩, hdelete, rfl, rfl⟩
  · rintro ⟨printed, trace, ⟨last, path, hlast, hpath, hprint⟩, hdelete, rfl, rfl⟩
    simp only [hlast, hpath, hprint, hdelete, Option.bind_some, Option.pure_def]

/-- A turn leaves `fp_index`. -/
theorem deinitTurn_fpIndex (h : deinitTurn buf svc i = some (here, svc')) :
    svc'.fpIndex = svc.fpIndex := by
  obtain ⟨target, ht, -⟩ := Option.bind_eq_some_iff.mp h
  by_cases hnull : target.NotNull
  · obtain ⟨printed, trace, -, -, -, rfl⟩ := (deinitTurn_held ht hnull).mp h
    rfl
  · rw [deinitTurn_null ht hnull] at h
    cases h
    rfl

/-- With more slots in use than there are, the loop reads behind them. -/
theorem deinitLoop_outside (hindex : serviceSlots < svc.fpIndex) (hi : i ≤ serviceSlots)
    (turns : ℕ) : deinitLoop buf turns i svc = none := by
  induction turns generalizing i svc with
  | zero => rw [deinitLoop]
  | succ turns ih =>
      rw [deinitLoop, if_pos (by omega)]
      cases hturn : deinitTurn buf svc i with
      | none => rfl
      | some r =>
          have hlt : i < serviceSlots := by
            obtain ⟨target, ht, -⟩ := Option.bind_eq_some_iff.mp hturn
            exact svc.fp_length ▸ (List.getElem?_eq_some_iff.mp ht).1
          have hnext := ih (i := i + 1) (deinitTurn_fpIndex hturn ▸ hindex) hlt
          simp only [Option.bind_eq_bind, Option.bind_some, hnext, Option.bind_none]

/-- The loop goes past an empty slot. -/
theorem deinitLoop_null (hlt : i < svc.fpIndex) (ht : svc.fp[i]? = some target)
    (hnull : ¬ target.NotNull) (turns : ℕ) :
    deinitLoop buf (turns + 1) i svc = deinitLoop buf turns (i + 1) svc := by
  rw [deinitLoop, if_pos hlt, deinitTurn_null ht hnull]
  simp

/-- A slot that is not empty gives a block. -/
theorem deinitLoop_held (hlt : i < svc.fpIndex) (ht : svc.fp[i]? = some target)
    (hnull : target.NotNull) (turns : ℕ) :
    (∃ svc', deinitLoop buf (turns + 1) i svc = some (events, svc')) ↔
      ∃ printed trace behind, events = printed.map .printed ++ .deleted i trace :: behind ∧
        SlotPrints buf svc printed ∧ fsTargetDelete target = some trace ∧
        ∃ svc', deinitLoop buf turns (i + 1) (svc.setSlot i (fsTargetDealloc target)) =
          some (behind, svc') := by
  rw [deinitLoop, if_pos hlt]
  constructor
  · rintro ⟨svc', h⟩
    obtain ⟨⟨here, svc₁⟩, hturn, h⟩ := Option.bind_eq_some_iff.mp h
    obtain ⟨⟨behind, svc₂⟩, hloop, h⟩ := Option.bind_eq_some_iff.mp h
    cases h
    obtain ⟨printed, trace, hprints, hdelete, rfl, rfl⟩ := (deinitTurn_held ht hnull).mp hturn
    exact ⟨printed, trace, behind, by simp, hprints, hdelete, _, hloop⟩
  · rintro ⟨printed, trace, behind, rfl, hprints, hdelete, svc', hloop⟩
    have hturn : deinitTurn buf svc i = some (printed.map .printed ++ [.deleted i trace],
        svc.setSlot i (fsTargetDealloc target)) :=
      (deinitTurn_held ht hnull).mpr ⟨printed, trace, hprints, hdelete, rfl, rfl⟩
    exact ⟨svc', by simp [hturn, hloop]⟩

/-- The slots in use, from one that is there on. -/
theorem drop_slots (hlt : i < svc.fpIndex) (ht : svc.fp[i]? = some target) :
    (svc.fp.take svc.fpIndex).drop i = target :: (svc.fp.take svc.fpIndex).drop (i + 1) := by
  have hslot : (svc.fp.take svc.fpIndex)[i]? = some target := by
    rw [List.getElem?_take_of_lt hlt, ht]
  obtain ⟨hlen, hget⟩ := List.getElem?_eq_some_iff.mp hslot
  rw [List.drop_eq_getElem_cons hlen, hget]

/-- A write to a slot leaves the slots behind it. -/
theorem drop_setSlot (svc : ServiceSt) (i : ℕ) (target : FsTarget) :
    (((svc.setSlot i target).fp).take svc.fpIndex).drop (i + 1) =
      (svc.fp.take svc.fpIndex).drop (i + 1) := by
  rw [ServiceSt.setSlot, List.take_set, List.drop_set_of_lt (Nat.lt_succ_self i)]

/-- What is printed does not change while slots below are deleted. -/
theorem slotPrints_setSlot (hi : i < svc.fpIndex) (target : FsTarget) :
    SlotPrints buf (svc.setSlot i target) = SlotPrints buf svc := by
  have hslot : (svc.fp.set i target)[svc.fpIndex]? = svc.fp[svc.fpIndex]? :=
    List.getElem?_set_ne (Nat.ne_of_lt hi)
  funext printed
  simp only [SlotPrints, ServiceSt.setSlot, hslot]

/-- **The loop of `service_deinit`** leaves a block for each of the snapshots that are left. -/
theorem deinitLoop_settles (hindex : svc.fpIndex ≤ serviceSlots) {turns : ℕ}
    (hi : i ≤ svc.fpIndex) (hturns : svc.fpIndex < i + turns) :
    (∃ svc', deinitLoop buf turns i svc = some (events, svc')) ↔
      Settles (fun _ printed => SlotPrints buf svc printed) i
        ((svc.fp.take svc.fpIndex).drop i) events := by
  induction turns generalizing i svc events with
  | zero => omega
  | succ turns ih =>
      have hturns' : svc.fpIndex < i + 1 + turns := by omega
      by_cases hlt : i < svc.fpIndex
      · obtain ⟨target, ht⟩ : ∃ target, svc.fp[i]? = some target :=
          ⟨_, List.getElem?_eq_getElem (svc.fp_length ▸ Nat.lt_of_lt_of_le hlt hindex)⟩
        rw [drop_slots hlt ht, Settles]
        by_cases hnull : target.NotNull
        · rw [if_pos hnull, deinitLoop_held hlt ht hnull]
          have hnext : ∀ behind, (∃ svc', deinitLoop buf turns (i + 1)
              (svc.setSlot i (fsTargetDealloc target)) = some (behind, svc')) ↔
              Settles (fun _ printed => SlotPrints buf svc printed) (i + 1)
                ((svc.fp.take svc.fpIndex).drop (i + 1)) behind := by
            intro behind
            rw [← drop_setSlot svc i (fsTargetDealloc target),
              ← slotPrints_setSlot hlt (fsTargetDealloc target)]
            exact ih hindex hlt hturns'
          simp only [hnext]
        · rw [if_neg hnull, deinitLoop_null hlt ht hnull]
          exact ih hindex hlt hturns'
      · have hnil : (svc.fp.take svc.fpIndex).drop i = [] :=
          List.drop_eq_nil_of_le (Nat.le_trans (List.length_take_le _ _) (Nat.le_of_not_lt hlt))
        rw [hnil, Settles, deinitLoop, if_neg hlt]
        constructor
        · rintro ⟨svc', h⟩
          cases h
          rfl
        · rintro rfl
          exact ⟨svc, rfl⟩

/-- **`service_deinit`**: a block for every snapshot, in which the tree in the slot behind
them is printed. -/
theorem serviceDeinit_settles (hindex : svc.fpIndex ≤ serviceSlots) :
    (∃ svc', serviceDeinit buf svc = some (events, svc')) ↔
      Settles (fun _ printed => SlotPrints buf svc printed) 0 (svc.fp.take svc.fpIndex)
        events :=
  deinitLoop_settles hindex (Nat.zero_le _) (by omega)

/-- What has to be there for a call to go right, in terms of what is printed. -/
theorem deinitRight_iff_shown :
    DeinitRight buf svc ↔ svc.fpIndex ≤ serviceSlots ∧
      ∀ target ∈ svc.fp.take svc.fpIndex, target.NotNull →
        (∃ printed, SlotPrints buf svc printed ∧ ShowsListing target printed) ∧
          ∃ trace, fsTargetDelete target = some trace := by
  constructor
  · rintro ⟨events, svc', hrun, hlisted⟩
    have hindex : svc.fpIndex ≤ serviceSlots := by
      by_contra hover
      rw [serviceDeinit, deinitLoop_outside (Nat.lt_of_not_le hover) (Nat.zero_le _)] at hrun
      cases hrun
    have hblocks := (serviceDeinit_settles hindex).mp ⟨svc', hrun⟩
    exact ⟨hindex, settles_exists_iff.mp ⟨events, hblocks.both hlisted⟩⟩
  · rintro ⟨hindex, hall⟩
    obtain ⟨events, hboth⟩ := settles_exists_iff (i := 0).mpr hall
    obtain ⟨svc', hrun⟩ := (serviceDeinit_settles hindex).mpr (hboth.mono fun _ _ => And.left)
    exact ⟨events, svc', hrun, hboth.mono fun _ _ => And.right⟩

end Trace

/-! ### After the start of the service -/

/-- The snapshots are in the slots in use, and the slot behind them is empty. -/
structure Loaded (svc : ServiceSt) : Prop where
  held : ∀ target ∈ svc.fp.take svc.fpIndex, target.NotNull
  target_null : svc.fp[svc.fpIndex]? = some .null
  path_null : svc.paths[svc.fpIndex]? = some none

section Loaded

variable {buf : StaticBuf} {svc : ServiceSt}

theorem Loaded.index_lt (h : Loaded svc) : svc.fpIndex < serviceSlots :=
  svc.fp_length ▸ (List.getElem?_eq_some_iff.mp h.target_null).1

/-- All that is printed is the message of the check for `NULL`. -/
theorem Loaded.slotPrints (h : Loaded svc) (printed : List PrintEvent) :
    SlotPrints buf svc printed ↔ printed = [.failed .target] := by
  constructor
  · rintro ⟨last, path, hlast, -, hprint⟩
    obtain rfl := Option.some.inj (h.target_null.symm.trans hlast)
    rw [fsTargetPrint] at hprint
    exact (Option.some.inj hprint).symm
  · rintro rfl
    exact ⟨.null, none, h.target_null, h.path_null, by rw [fsTargetPrint]⟩

/-- Nothing is listed: the call goes right only where there is no snapshot. -/
theorem Loaded.deinitRight_iff_empty (h : Loaded svc) : DeinitRight buf svc ↔ svc.fpIndex = 0 := by
  rw [deinitRight_iff_shown]
  constructor
  · rintro ⟨-, hall⟩
    by_contra hne
    obtain ⟨target, hmem⟩ : ∃ target, target ∈ svc.fp.take svc.fpIndex := by
      refine List.exists_mem_of_length_pos ?_
      rw [List.length_take, svc.fp_length]
      exact Nat.lt_min.mpr ⟨Nat.pos_of_ne_zero hne, Nat.lt_of_le_of_lt (Nat.zero_le _) h.index_lt⟩
    obtain ⟨⟨printed, hprints, l, -, hwrites⟩, -⟩ := hall target hmem (h.held target hmem)
    rw [h.slotPrints] at hprints
    rw [hprints] at hwrites
    exact not_writes_failed _ _ hwrites
  · intro hzero
    refine ⟨Nat.le_of_lt h.index_lt, fun target hmem => ?_⟩
    rw [hzero] at hmem
    exact absurd hmem List.not_mem_nil

/-- What the call does instead: for every snapshot in turn, it prints the message and then
deletes it. -/
theorem Loaded.serviceDeinit_iff (h : Loaded svc) (events : List DeinitEvent) :
    (∃ svc', serviceDeinit buf svc = some (events, svc')) ↔
      Settles (fun _ printed => printed = [.failed .target]) 0 (svc.fp.take svc.fpIndex)
        events := by
  have hprints : (fun (_ : FsTarget) printed => SlotPrints buf svc printed) =
      fun _ printed => printed = [.failed .target] := by
    funext target printed
    exact propext (h.slotPrints printed)
  rw [serviceDeinit_settles (Nat.le_of_lt h.index_lt), hprints]

end Loaded

/-- While `service_init` fills the slots, those behind the snapshots are empty. -/
structure Loading (svc : ServiceSt) : Prop where
  held : ∀ target ∈ svc.fp.take svc.fpIndex, target.NotNull
  behind : ∀ target ∈ svc.fp.drop svc.fpIndex, target = .null

section Loading

variable {svc svc' : ServiceSt}

theorem zeroed_loading : Loading .zeroed :=
  ⟨fun _ hmem => absurd hmem List.not_mem_nil, fun _ hmem => List.eq_of_mem_replicate hmem⟩

/-- A path leaves the slots for targets. -/
theorem Loading.putPath {path : Option CStr} (h : Loading svc)
    (hput : svc.putPath path = some svc') :
    Loading svc' ∧ svc'.paths[svc'.fpIndex]? = some path ∧ svc'.fpIndex < serviceSlots := by
  rw [ServiceSt.putPath] at hput
  split at hput
  · next hlt =>
      cases hput
      exact ⟨⟨h.held, h.behind⟩, List.getElem?_set_self (svc.paths_length ▸ hlt), hlt⟩
  · cases hput

/-- A target in the next slot, if it is counted; no target leaves the slot empty. -/
theorem Loading.putTarget {target : FsTarget} (h : Loading svc)
    (hput : svc.putTarget target = some svc') :
    (target.NotNull → Loading { svc' with fpIndex := svc'.fpIndex + 1 }) ∧
      (¬ target.NotNull → Loading svc') := by
  rw [ServiceSt.putTarget] at hput
  split at hput
  · next hlt =>
      cases hput
      have hslot : svc.fpIndex < svc.fp.length := svc.fp_length ▸ hlt
      have hbehind := h.behind
      rw [List.drop_eq_getElem_cons hslot, List.forall_mem_cons] at hbehind
      constructor
      · intro hnull
        constructor
        · dsimp only
          rw [take_set_succ hslot]
          exact List.forall_mem_append.mpr ⟨h.held, List.forall_mem_singleton.mpr hnull⟩
        · dsimp only
          rw [List.drop_set_of_lt (Nat.lt_succ_self _)]
          exact hbehind.2
      · intro hnull
        have hsame : svc.fp.set svc.fpIndex target = svc.fp := by
          rw [FsTarget.eq_null hnull, ← hbehind.1, List.set_getElem_self]
        constructor
        · dsimp only
          rw [hsame]
          exact h.held
        · dsimp only
          rw [hsame]
          exact h.behind
  · cases hput

/-- The loop of `service_init` ends with an empty slot behind the snapshots. -/
theorem serviceLoop_loaded {create : CStr → FsTarget} {turns : ℕ} {s : FileStack}
    (h : Loading svc) (hrun : serviceLoop create turns s svc = some svc') : Loaded svc' := by
  induction turns generalizing s svc with
  | zero => cases hrun
  | succ turns ih =>
      obtain ⟨path, s', hpop⟩ : ∃ path s', filenameStackPop s = (path, s') := ⟨_, _, rfl⟩
      rw [serviceLoop, hpop] at hrun
      obtain ⟨svc₁, hput, hrun⟩ := Option.bind_eq_some_iff.mp hrun
      obtain ⟨hloading, hpath, hlt⟩ := h.putPath hput
      cases path with
      | none =>
          have hslot : svc₁.fpIndex < svc₁.fp.length := svc₁.fp_length ▸ hlt
          have hnull := hloading.behind
          rw [List.drop_eq_getElem_cons hslot] at hnull
          cases hrun
          refine ⟨hloading.held, ?_, hpath⟩
          rw [List.getElem?_eq_getElem hslot, hnull _ List.mem_cons_self]
      | some path =>
          simp only at hrun
          split at hrun
          · cases hrun
          · obtain ⟨svc₂, htarget, hrun⟩ := Option.bind_eq_some_iff.mp hrun
            obtain ⟨hcounted, hskipped⟩ := hloading.putTarget htarget
            split at hrun
            · next hnull => exact ih (hcounted hnull) hrun
            · next hnull => exact ih (hskipped hnull) hrun

/-- **`service_init`** leaves the slot behind the snapshots empty. -/
theorem serviceInit_loaded {create : CStr → FsTarget} {s : FileStack}
    (h : serviceInit create s = some svc) : Loaded svc :=
  serviceLoop_loaded zeroed_loading h

end Loading

/-! ### Runs of the service -/

/-- A turn of the loop in `service`: the target of a slot is observed, if there is one. -/
def observeTurn (env : Environment) (i : ℕ) (s : ServiceSt × ObsSt) :
    Option (Bool × (ServiceSt × ObsSt)) := do
  let target ← s.1.fp[i]?
  if target.NotNull then do
    let (ok, target, obs) ← fsTargetObserve env [i] target s.2
    return (ok, (s.1.setSlot i target, obs))
  else return (false, s)

/-- The rounds of `service`, in whatever order they come to the slots in use. -/
def roundMachine : Machine (ServiceSt × ObsSt) (Environment × ℕ) Bool where
  Admits s i := i.2 < s.1.fpIndex
  step s i := observeTurn i.1 i.2 s

section Rounds

variable {buf : StaticBuf} {svc svc' : ServiceSt} {obs obs' : ObsSt}

/-- A target that is not `NULL`, in a slot in use. -/
theorem Loaded.setSlot {i : ℕ} {target : FsTarget} (h : Loaded svc) (hi : i < svc.fpIndex)
    (hnull : target.NotNull) : Loaded (svc.setSlot i target) := by
  refine ⟨fun other hmem => ?_, ?_, h.path_null⟩
  · rw [ServiceSt.setSlot, List.take_set] at hmem
    rcases List.mem_or_eq_of_mem_set hmem with hmem | rfl
    · exact h.held other hmem
    · exact hnull
  · rw [← h.target_null]
    exact List.getElem?_set_ne (Nat.ne_of_lt hi)

/-- An observed target is there as before. -/
theorem notNull_of_observe {env : Environment} {node : List ℕ} {t t' : FsTarget} {b : Bool}
    (h : fsTargetObserve env node t obs = some (b, t', obs')) (hnull : t.NotNull) :
    t'.NotNull := by
  cases t with
  | null => exact absurd hnull id
  | released => cases h
  | live finfo events children =>
      obtain ⟨_, _, _, _, _, -, -, -, -, rfl⟩ := of_observe_live h
      trivial

/-- A turn leaves the slot behind the snapshots empty. -/
theorem Loaded.observeTurn {env : Environment} {i : ℕ} {ok : Bool} (h : Loaded svc)
    (hi : i < svc.fpIndex) (hturn : observeTurn env i (svc, obs) = some (ok, (svc', obs'))) :
    Loaded svc' := by
  obtain ⟨target, ht, hturn⟩ := Option.bind_eq_some_iff.mp hturn
  split at hturn
  · next hnull =>
      obtain ⟨⟨b, target', obs₁⟩, hobserve, hturn⟩ := Option.bind_eq_some_iff.mp hturn
      cases hturn
      exact h.setSlot hi (notNull_of_observe hobserve hnull)
  · cases hturn
    exact h

/-- **Whenever the service ends**, after any number of rounds, `service_deinit` prints the
message of a failed check for every snapshot, and deletes it; so it goes right only where
there is none. -/
theorem service_ends {create : CStr → FsTarget} {s : FileStack}
    {log : List ((Environment × ℕ) × Bool)} (hinit : serviceInit create s = some svc)
    (hrun : roundMachine.Run (svc, obs) log (svc', obs')) :
    (DeinitRight buf svc' ↔ svc'.fpIndex = 0) ∧
      ∀ events, (∃ svc'', serviceDeinit buf svc' = some (events, svc'')) ↔
        Settles (fun _ printed => printed = [.failed .target]) 0
          (svc'.fp.take svc'.fpIndex) events := by
  have hloaded : Loaded svc' := by
    refine hrun.invariant (I := fun s => Loaded s.1) (H := fun _ => True) ?_
      (serviceInit_loaded hinit) fun _ _ => trivial
    rintro ⟨svc, obs⟩ i ok ⟨svc', obs'⟩ h - hadmits hstep
    exact h.observeTurn hadmits hstep
  exact ⟨hloaded.deinitRight_iff_empty, hloaded.serviceDeinit_iff⟩

end Rounds

/-! ### When it goes right -/

/-- The slot behind the snapshots holds an intact tree, with a path, that reads like the
listing of this one. -/
def SlotReads (svc : ServiceSt) (target : FsTarget) : Prop :=
  ∃ last path, svc.fp[svc.fpIndex]? = some last ∧ svc.paths[svc.fpIndex]? = some path ∧
    path ≠ none ∧ Intact last ∧ shownText last = listingText target

/-- Every snapshot can be released, and reads like what the slot behind them holds. -/
structure DeinitSafe (svc : ServiceSt) : Prop where
  index_le : svc.fpIndex ≤ serviceSlots
  releasable : ∀ target ∈ svc.fp.take svc.fpIndex, target.NotNull → Releasable target
  reads : ∀ target ∈ svc.fp.take svc.fpIndex, target.NotNull → SlotReads svc target

/-- The printed tree is the listing of another one exactly if it reads so. -/
theorem slotReads_iff (buf : StaticBuf) (svc : ServiceSt) (target : FsTarget) :
    (∃ printed, SlotPrints buf svc printed ∧ ShowsListing target printed) ↔
      SlotReads svc target := by
  have hlisting : ∀ printed, ShowsListing target printed ↔
      Writes printed (listingText target) := by
    intro printed
    simp only [ShowsListing, listing_iff, exists_eq_left]
    rfl
  constructor
  · rintro ⟨printed, ⟨last, path, hlast, hpath, hprint⟩, hshows⟩
    have hwrites := (hlisting printed).mp hshows
    exact ⟨last, path, hlast, hpath,
      (fsTargetPrint_lists_iff buf path last _).mp ⟨printed, hprint, hwrites⟩⟩
  · rintro ⟨last, path, hlast, hpath, hreads⟩
    obtain ⟨printed, hprint, hwrites⟩ := (fsTargetPrint_lists_iff buf path last _).mpr hreads
    exact ⟨printed, ⟨last, path, hlast, hpath, hprint⟩, (hlisting printed).mpr hwrites⟩

/-- Every snapshot is listed and then deleted exactly if the slot behind them, which is the
one that is printed, reads like each of them. -/
theorem deinitRight_iff (buf : StaticBuf) (svc : ServiceSt) :
    DeinitRight buf svc ↔ DeinitSafe svc := by
  rw [deinitRight_iff_shown]
  simp only [slotReads_iff, fsTargetDelete_iff]
  constructor
  · rintro ⟨hindex, hall⟩
    exact ⟨hindex, fun target hmem hnull => (hall target hmem hnull).2,
      fun target hmem hnull => (hall target hmem hnull).1⟩
  · rintro ⟨hindex, hreleasable, hreads⟩
    exact ⟨hindex, fun target hmem hnull =>
      ⟨hreads target hmem hnull, hreleasable target hmem hnull⟩⟩

/-- The service is started with the operand `a`, a regular file, and ends at once: the name of
the file is not printed. -/
theorem deinit_prints_no_name :
    ∃ svc, serviceInit (fun path => fsTargetCreate (fun _ => 0) path fileNode)
        (filenameStackPush .empty (.argument [⟨97, by decide⟩])) = some svc ∧ svc.fpIndex = 1 ∧
      ¬ DeinitRight ⟨List.replicate iobufMax 0, List.length_replicate⟩ svc := by
  have hfile : filetype (givenStat (.ok normalStat)).mode ≠ .directory := by decide
  have hstack : (filenameStackPush .empty (.argument [⟨97, by decide⟩])).Holds
      (List.reverse [.argument [⟨97, by decide⟩]]) :=
    FileStack.empty_holds.push (by simp [fileStackSize]) _
  obtain ⟨svc, hinit, htook⟩ := serviceInit_takes
    (fun path => fsTargetCreate (fun _ => 0) path fileNode) hstack (by decide)
  have hindex : svc.fpIndex = 1 := by
    rw [htook.index]
    simp [created, texts, fileNode, fsTargetCreate_file hfile]
  refine ⟨svc, hinit, hindex, ?_⟩
  rw [(serviceInit_loaded hinit).deinitRight_iff_empty, hindex]
  exact Nat.one_ne_zero

end Backd
