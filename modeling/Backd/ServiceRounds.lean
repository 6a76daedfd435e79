import Backd.Skeleton

/-!
# The Rounds of the Service

`service` of `loop.c`: after `service_init` it waits, goes over the snapshots, and waits again,
until a wait is ended by a signal; then `service_deinit` ends it. Every way out of the loop is
`exit_failure`.

Since rounds keep the skeletons, every round has the same targets to visit, at the same paths,
and the service gets through all its rounds exactly if it gets through one.

## Conventions

A wait is what `get_timestamp` answered at its start, and what the clock and `terminate` were at
each of its polls; it is `none` if it has not come to its end with the last of them. The
messages of the logger and the newline written when a signal comes are left out.

## Main results

* `spin_iff`: when a wait ends, and how.
* `serviceRound_covers`: a round visits every target of every snapshot, once and in order.
* `serviceRounds_covers`: so do any number of rounds, one after the other.
* `service_whole`: when the service ends, how often it tracked each target, and what it released.
-/

namespace Backd

open PostOrder Runs

/-! ### Waiting -/

/-- A call of `spin`. -/
structure Spin where
  start : UInt64
  polls : List (UInt64 × Bool)

/-- `while (get_timestamp() - start < ms)`. -/
def spinLoop (ms start : UInt64) : List (UInt64 × Bool) → Option Bool
  | [] => none
  | (now, terminate) :: polls =>
    if now - start < ms then
      if terminate then some false else spinLoop ms start polls
    else some true

/-- `spin`. -/
def spin (ms : UInt64) (w : Spin) : Option Bool := spinLoop ms w.start w.polls

/-- A poll that goes on waiting. -/
def Waiting (ms start : UInt64) (poll : UInt64 × Bool) : Prop :=
  poll.1 - start < ms ∧ poll.2 = false

/-- A poll that ends the wait: the time is over, or `terminate` is set before it is. -/
def EndsWait (ms start : UInt64) (ok : Bool) (poll : UInt64 × Bool) : Prop :=
  if ok then ¬ poll.1 - start < ms else poll.1 - start < ms ∧ poll.2 = true

/-- **A wait** ends with the first poll that does not go on waiting. -/
theorem spin_iff {ms : UInt64} {w : Spin} {ok : Bool} :
    spin ms w = some ok ↔ ∃ before last after, w.polls = before ++ last :: after ∧
      (∀ poll ∈ before, Waiting ms w.start poll) ∧ EndsWait ms w.start ok last := by
  obtain ⟨start, polls⟩ := w
  dsimp only [spin]
  induction polls with
  | nil =>
      constructor
      · rintro ⟨⟩
      · rintro ⟨before, last, after, h, -, -⟩
        exact absurd h.symm (by simp)
  | cons poll polls ih =>
      obtain ⟨now, terminate⟩ := poll
      rw [spinLoop]
      constructor
      · intro h
        split at h
        · next hless =>
            split at h
            · next hterm =>
                cases h
                exact ⟨[], _, polls, rfl, by simp, hless, hterm⟩
            · next hterm =>
                obtain ⟨before, last, after, rfl, hbefore, hlast⟩ := ih.mp h
                refine ⟨(now, terminate) :: before, last, after, rfl, ?_, hlast⟩
                exact List.forall_mem_cons.mpr ⟨⟨hless, by simpa using hterm⟩, hbefore⟩
        · next hless =>
            cases h
            exact ⟨[], _, polls, rfl, by simp, hless⟩
      · rintro ⟨before, last, after, h, hbefore, hlast⟩
        cases before with
        | nil =>
            cases h
            cases ok with
            | true => rw [if_neg hlast]
            | false => rw [if_pos hlast.1, if_pos hlast.2]
        | cons first before =>
            cases h
            rw [List.forall_mem_cons] at hbefore
            obtain ⟨⟨hless, hterm⟩, hbefore⟩ := hbefore
            rw [if_pos hless, if_neg (by simpa using hterm)]
            exact ih.mpr ⟨before, last, after, rfl, hbefore, hlast⟩

/-! ### The loop -/

/-- `while (i < fp_index)`, in a round. -/
def observeLoop (env : Environment) : ℕ → ℕ → ServiceSt × ObsSt → Option (ServiceSt × ObsSt)
  | 0, _, _ => none
  | turns + 1, i, s =>
    if i < s.1.fpIndex then do
      let (_, s) ← observeTurn env i s
      observeLoop env turns (i + 1) s
    else some s

/-- A round. Every turn but the last is for one slot. -/
def serviceRound (env : Environment) (s : ServiceSt × ObsSt) : Option (ServiceSt × ObsSt) :=
  observeLoop env (s.1.fpIndex + 1) 0 s

/-- `for (;;)`: a round after every wait that is not ended by a signal. -/
def serviceRounds (env : Environment) : List Spin → ServiceSt × ObsSt → Option (ServiceSt × ObsSt)
  | [], _ => none
  | w :: waits, s => do
    let ok ← spin 1000 w
    if ok then do
      let s ← serviceRound env s
      serviceRounds env waits s
    else return s

/-- What `service` does between `service_init` and `service_deinit`; `signals` is what
`handle_signals` returns. -/
def serviceLoops (env : Environment) (signals : Bool) (waits : List Spin)
    (svc : ServiceSt) (obs : ObsSt) : Option (ServiceSt × ObsSt) :=
  if svc.fpIndex = 0 then some (svc, obs)
  else if signals then serviceRounds env waits (svc, obs)
  else some (svc, obs)

/-- `service`. -/
def service (create : CStr → FsTarget) (buf : StaticBuf) (env : Environment) (signals : Bool)
    (waits : List Spin) (stack : FileStack) (obs : ObsSt) :
    Option (List DeinitEvent × ServiceSt × ObsSt) := do
  let svc ← serviceInit create stack
  let (svc, obs) ← serviceLoops env signals waits svc obs
  let (events, svc) ← serviceDeinit buf svc
  return (events, svc, obs)

/-! ### Skeletons and paths -/

section Skeletons

variable {t t' : FsTarget} {s : CStr} {p : List ℕ} {names : List CStr} {finfo : Finfo}

/-- A node of the tree, whatever its history is. -/
def HasNode (t : FsTarget) (p : List ℕ) (names : List CStr) (finfo : Finfo) : Prop :=
  ∃ events, Reaches t p names finfo events

/-- The children of a skeleton. -/
theorem skeleton_some (finfo : Finfo) (events : Records FsTargetEvent) (cs : List FsTarget) :
    skeleton (.live finfo events (some cs)) =
      .live finfo ⟨[], 0⟩ (some (cs.map skeleton)) := by
  rw [skeleton, skeletonChildren, skeletons_eq_map]

/-- A skeleton has the nodes of the tree. -/
theorem places_skeleton : HasNode (skeleton t) p names finfo ↔ HasNode t p names finfo := by
  induction t using FsTarget.induction generalizing p names with
  | hnull => rfl
  | hreleased => rfl
  | hlive finfo₀ events₀ children ih =>
      cases children with
      | none =>
          rw [skeleton, skeletonChildren]
          constructor
          · rintro ⟨events, h⟩
            cases h
            exact ⟨_, .root⟩
          · rintro ⟨events, h⟩
            cases h
            exact ⟨_, .root⟩
      | some cs =>
          rw [skeleton_some]
          constructor
          · rintro ⟨events, h⟩
            cases h with
            | root => exact ⟨_, .root⟩
            | @child _ _ _ _ _ i c q names hdir hi hreach =>
                rw [List.getElem?_map, Option.map_eq_some_iff] at hi
                obtain ⟨d, hd, rfl⟩ := hi
                obtain ⟨events, hreach⟩ :=
                  (ih cs rfl d (List.mem_of_getElem? hd)).mp ⟨events, hreach⟩
                exact ⟨events, .child hdir hd hreach⟩
          · rintro ⟨events, h⟩
            cases h with
            | root => exact ⟨_, .root⟩
            | @child _ _ _ _ _ i c q names hdir hi hreach =>
                obtain ⟨events, hreach⟩ :=
                  (ih cs rfl c (List.mem_of_getElem? hi)).mpr ⟨events, hreach⟩
                refine ⟨events, .child hdir ?_ hreach⟩
                rw [List.getElem?_map, hi, Option.map_some]

theorem places_congr (h : skeleton t' = skeleton t) :
    HasNode t' p names finfo ↔ HasNode t p names finfo := by
  rw [← places_skeleton, h, places_skeleton]

/-- A traversal passes a skeleton exactly if it passes the tree. -/
theorem passable_skeleton : Passable s (skeleton t) ↔ Passable s t := by
  induction t using FsTarget.induction generalizing s with
  | hnull => rfl
  | hreleased => rfl
  | hlive finfo₀ events₀ children ih =>
      cases children with
      | none =>
          rw [skeleton, skeletonChildren]
          constructor
          · rintro (_ | ⟨hleaf, hfits⟩)
            exact .leaf hleaf hfits
          · rintro (_ | ⟨hleaf, hfits⟩)
            exact .leaf hleaf hfits
      | some cs =>
          rw [skeleton_some]
          constructor
          · rintro (_ | ⟨hleaf, hfits⟩ | ⟨hdir, hfits, hcs⟩)
            · exact .leaf hleaf hfits
            · rw [List.forall_mem_map] at hcs
              exact .directory hdir hfits fun c hc => (ih cs rfl c hc).mp (hcs c hc)
          · rintro (_ | ⟨hleaf, hfits⟩ | ⟨hdir, hfits, hcs⟩)
            · exact .leaf hleaf hfits
            · refine .directory hdir hfits ?_
              rw [List.forall_mem_map]
              exact fun c hc => (ih cs rfl c hc).mpr (hcs c hc)

theorem passable_congr (h : skeleton t' = skeleton t) : Passable s t' ↔ Passable s t := by
  rw [← passable_skeleton, h, passable_skeleton]

end Skeletons

/-! ### Rounds -/

/-- The nodes of the snapshots in the slots in use, addressed by the slot and the child
indices, from one slot on. -/
def ServiceSt.PlacesFrom (svc : ServiceSt) (first : ℕ) (node : List ℕ) (names : List CStr)
    (finfo : Finfo) : Prop :=
  ∃ i target p, first ≤ i ∧ i < svc.fpIndex ∧ svc.fp[i]? = some target ∧ node = i :: p ∧
    HasNode target p names finfo

/-- The nodes of the snapshots. -/
def ServiceSt.Places (svc : ServiceSt) : List ℕ → List CStr → Finfo → Prop := svc.PlacesFrom 0

/-- The visits of a round are these nodes, in post-order, each at its path, and tracked when
the type is known. -/
structure RoundCovers (s : CStr) (nodes : List ℕ → List CStr → Finfo → Prop)
    (visits : List Visit) : Prop where
  sound : ∀ v ∈ visits, ∃ names finfo, nodes v.node names finfo ∧ v.path = under s names ∧
    (v.done.isSome ↔ finfo.type ≠ .unknown)
  complete : ∀ node names finfo, nodes node names finfo →
    ∃ v ∈ visits, v.node = node ∧ v.path = under s names ∧
      (v.done.isSome ↔ finfo.type ≠ .unknown)
  ordered : visits.Pairwise fun v w => Before v.node w.node

/-- A traversal finds nothing in its way in any of the slots in use, from one slot on. -/
def ServiceSt.PassableFrom (svc : ServiceSt) (s : CStr) (first : ℕ) : Prop :=
  svc.fpIndex ≤ serviceSlots ∧
    ∀ i target, first ≤ i → i < svc.fpIndex → svc.fp[i]? = some target → Passable s target

section Rounds

variable {env : Environment} {svc svc' : ServiceSt} {obs obs' : ObsSt} {s : CStr}

theorem ServiceSt.Alike.placesFrom (h : svc.Alike svc') {first : ℕ} {node : List ℕ}
    {names : List CStr} {finfo : Finfo} (hplace : svc.PlacesFrom first node names finfo) :
    svc'.PlacesFrom first node names finfo := by
  obtain ⟨i, target, p, hfirst, hi, ht, rfl, hplace⟩ := hplace
  obtain ⟨target', ht', hskel⟩ := h.slot ht
  exact ⟨i, target', p, hfirst, h.index_eq ▸ hi, ht', rfl, (places_congr hskel).mpr hplace⟩

theorem ServiceSt.Alike.placesFrom_eq (h : svc.Alike svc') (first : ℕ) :
    svc'.PlacesFrom first = svc.PlacesFrom first := by
  funext node names finfo
  exact propext ⟨h.symm.placesFrom, h.placesFrom⟩

theorem ServiceSt.Alike.passableFrom (h : svc.Alike svc') {first : ℕ}
    (hpass : svc.PassableFrom s first) : svc'.PassableFrom s first := by
  refine ⟨h.index_eq ▸ hpass.1, fun i target' hfirst hi ht' => ?_⟩
  obtain ⟨target, ht, hskel⟩ := h.symm.slot ht'
  exact (passable_congr hskel).mp (hpass.2 i target hfirst (h.index_eq ▸ hi) ht)

/-- The visits of a snapshot, then those of the slots behind it. -/
theorem RoundCovers.cons {i : ℕ} {target : FsTarget} {visits visits' : List Visit}
    (hi : i < svc.fpIndex) (ht : svc.fp[i]? = some target)
    (h : Covers s [i] (Reaches target) visits)
    (h' : RoundCovers s (svc.PlacesFrom (i + 1)) visits') :
    RoundCovers s (svc.PlacesFrom i) (visits ++ visits') := by
  constructor
  · intro v hv
    rcases List.mem_append.mp hv with hv | hv
    · obtain ⟨p, names, finfo, hreach, hnode, hrest⟩ := h.sound v hv
      exact ⟨names, finfo, ⟨i, target, p, Nat.le_refl i, hi, ht, hnode, _, hreach⟩, hrest⟩
    · obtain ⟨names, finfo, ⟨j, other, p, hfirst, hj⟩, hrest⟩ := h'.sound v hv
      exact ⟨names, finfo, ⟨j, other, p, Nat.le_of_succ_le hfirst, hj⟩, hrest⟩
  · rintro node names finfo ⟨j, other, p, hfirst, hj, hother, rfl, events, hreach⟩
    rcases Nat.eq_or_lt_of_le hfirst with rfl | hlt
    · obtain rfl := Option.some.inj (ht.symm.trans hother)
      obtain ⟨v, hv, hnode, hvpath, -, hdone⟩ := h.complete p names finfo events hreach
      exact ⟨v, List.mem_append_left _ hv, hnode, hvpath, hdone⟩
    · obtain ⟨v, hv, hrest⟩ := h'.complete _ names finfo
        ⟨j, other, p, hlt, hj, hother, rfl, events, hreach⟩
      exact ⟨v, List.mem_append_right _ hv, hrest⟩
  · refine List.pairwise_append.mpr ⟨h.ordered, h'.ordered, fun v hv w hw => ?_⟩
    obtain ⟨p, _, _, -, hvnode, -⟩ := h.sound v hv
    obtain ⟨_, _, ⟨j, _, q, hfirst, -, -, hwnode, -⟩, -⟩ := h'.sound w hw
    rw [hvnode, hwnode]
    exact before_of_lt [] p q hfirst

/-- Behind the last slot in use, nothing is visited. -/
theorem RoundCovers.nil {i : ℕ} (hi : svc.fpIndex ≤ i) :
    RoundCovers s (svc.PlacesFrom i) [] := by
  refine ⟨by simp, ?_, .nil⟩
  rintro node names finfo ⟨j, _, _, hfirst, hj, -⟩
  omega

/-- A turn visits the nodes of the snapshot, if it can be passed. -/
theorem observeTurn_covers (env : Environment) {i : ℕ} {target : FsTarget}
    (ht : svc.fp[i]? = some target) (hpath : obs.cur.path = some s) (hpass : Passable s target) :
    ∃ ok svc' obs' visits, observeTurn env i (svc, obs) = some (ok, (svc', obs')) ∧
      obs'.cur.path = some s ∧ obs'.log = obs.log ++ visits ∧
      Covers s [i] (Reaches target) visits := by
  by_cases hnull : target.NotNull
  · obtain ⟨target', obs', visits, hrun, hrest⟩ :=
      fsTargetObserve_covers target env [i] s obs hpath hpass
    exact ⟨_, _, obs', visits, observeTurn_held ht hnull hrun, hrest⟩
  · refine ⟨false, svc, obs, [], ?_, hpath, (List.append_nil _).symm, ?_⟩
    · rw [observeTurn, ht]
      exact if_neg hnull
    · rw [FsTarget.eq_null hnull]
      exact Covers.null

/-- A turn that comes to its end was at a snapshot it could pass. -/
theorem passable_of_observeTurn {i : ℕ} {r : Bool × (ServiceSt × ObsSt)}
    (hpath : obs.cur.path = some s) (h : observeTurn env i (svc, obs) = some r) :
    ∃ target, svc.fp[i]? = some target ∧ Passable s target := by
  obtain ⟨target, ht, hturn⟩ := Option.bind_eq_some_iff.mp h
  refine ⟨target, ht, ?_⟩
  split at hturn
  · obtain ⟨r', hobserve, -⟩ := Option.bind_eq_some_iff.mp hturn
    exact passable_of_observe hpath hobserve
  · next hnull =>
      rw [FsTarget.eq_null hnull]
      exact .null

/-- The loop over the slots, from one slot on. -/
theorem observeLoop_covers {turns i : ℕ} (hindex : i ≤ svc.fpIndex)
    (hturns : svc.fpIndex < i + turns) (hpath : obs.cur.path = some s)
    (hpass : svc.PassableFrom s i) :
    ∃ svc' obs' visits, observeLoop env turns i (svc, obs) = some (svc', obs') ∧
      svc.Alike svc' ∧ obs'.cur.path = some s ∧ obs'.log = obs.log ++ visits ∧
      RoundCovers s (svc.PlacesFrom i) visits := by
  induction turns generalizing i svc obs with
  | zero => omega
  | succ turns ih =>
      rw [observeLoop]
      by_cases hi : i < svc.fpIndex
      · have hslot : i < svc.fp.length := by
          rw [svc.fp_length]
          exact Nat.lt_of_lt_of_le hi hpass.1
        have ht := List.getElem?_eq_getElem hslot
        obtain ⟨ok, svc₁, obs₁, here, hturn, hpath₁, hlog₁, hhere⟩ :=
          observeTurn_covers env ht hpath (hpass.2 i _ (Nat.le_refl i) hi ht)
        have halike := alike_of_observeTurn hturn
        have hpass₁ : svc₁.PassableFrom s (i + 1) := halike.passableFrom
          ⟨hpass.1, fun j target hfirst => hpass.2 j target (Nat.le_of_succ_le hfirst)⟩
        obtain ⟨svc₂, obs₂, behind, hloop, halike', hpath₂, hlog₂, hbehind⟩ :=
          ih (i := i + 1) (by rwa [halike.index_eq]) (by rw [halike.index_eq]; omega) hpath₁ hpass₁
        rw [halike.placesFrom_eq] at hbehind
        refine ⟨svc₂, obs₂, here ++ behind, ?_, halike.trans halike', hpath₂, ?_,
          .cons hi ht hhere hbehind⟩
        · rw [if_pos hi]
          simp [hturn, hloop]
        · rw [hlog₂, hlog₁, List.append_assoc]
      · exact ⟨svc, obs, [], if_neg hi, .refl svc, hpath, (List.append_nil _).symm,
          .nil (Nat.le_of_not_lt hi)⟩

/-- A loop that comes to its end was over snapshots it could pass. -/
theorem passable_of_observeLoop {turns i : ℕ} {r : ServiceSt × ObsSt}
    (hpath : obs.cur.path = some s) (hslots : i ≤ serviceSlots)
    (h : observeLoop env turns i (svc, obs) = some r) : svc.PassableFrom s i := by
  induction turns generalizing i svc obs with
  | zero => cases h
  | succ turns ih =>
      rw [observeLoop] at h
      by_cases hi : i < svc.fpIndex
      · rw [if_pos hi] at h
        obtain ⟨⟨ok, svc₁, obs₁⟩, hturn, hloop⟩ := Option.bind_eq_some_iff.mp h
        obtain ⟨target, ht, hpass⟩ := passable_of_observeTurn hpath hturn
        obtain ⟨_, _, _, _, hturn', hpath₁, -, -⟩ :=
          observeTurn_covers env ht hpath hpass
        cases hturn.symm.trans hturn'
        have hslot : i < serviceSlots := by
          rw [← svc.fp_length]
          exact (List.getElem?_eq_some_iff.mp ht).1
        have hrest := (alike_of_observeTurn hturn).symm.passableFrom (ih hpath₁ hslot hloop)
        refine ⟨hrest.1, fun j other hfirst hj hother => ?_⟩
        rcases Nat.eq_or_lt_of_le hfirst with rfl | hlt
        · exact Option.some.inj (ht.symm.trans hother) ▸ hpass
        · exact hrest.2 j other hlt hj hother
      · exact ⟨Nat.le_trans (Nat.le_of_not_lt hi) hslots, fun j _ hfirst hj => by omega⟩

/-- **A round** visits the nodes of all snapshots. -/
theorem serviceRound_covers (env : Environment) (hpath : obs.cur.path = some s)
    (hpass : svc.PassableFrom s 0) :
    ∃ svc' obs' visits, serviceRound env (svc, obs) = some (svc', obs') ∧ svc.Alike svc' ∧
      obs'.cur.path = some s ∧ obs'.log = obs.log ++ visits ∧ RoundCovers s svc.Places visits :=
  observeLoop_covers (Nat.zero_le _)
    (Nat.lt_of_lt_of_eq (Nat.lt_succ_self _) (Nat.zero_add _).symm) hpath hpass

/-- A round comes to its end only if it can pass all snapshots. -/
theorem passable_of_serviceRound {r : ServiceSt × ObsSt} (hpath : obs.cur.path = some s)
    (h : serviceRound env (svc, obs) = some r) : svc.PassableFrom s 0 :=
  passable_of_observeLoop hpath (Nat.zero_le _) h

end Rounds

/-! ### Rounds until a signal comes -/

/-- The first of the waits elapse, as many as there are rounds, and a signal ends the next. -/
def SignalAfter (rounds : ℕ) (waits : List Spin) : Prop :=
  ∃ elapsed last behind, waits = elapsed ++ last :: behind ∧ elapsed.length = rounds ∧
    (∀ w ∈ elapsed, spin 1000 w = some true) ∧ spin 1000 last = some false

theorem signalAfter_zero {waits : List Spin} :
    SignalAfter 0 waits ↔ ∃ w behind, waits = w :: behind ∧ spin 1000 w = some false := by
  constructor
  · rintro ⟨elapsed, last, behind, rfl, hlen, -, hlast⟩
    obtain rfl := List.eq_nil_of_length_eq_zero hlen
    exact ⟨last, behind, rfl, hlast⟩
  · rintro ⟨w, behind, rfl, hlast⟩
    exact ⟨[], w, behind, rfl, rfl, by simp, hlast⟩

theorem signalAfter_succ {rounds : ℕ} {waits : List Spin} :
    SignalAfter (rounds + 1) waits ↔
      ∃ w behind, waits = w :: behind ∧ spin 1000 w = some true ∧ SignalAfter rounds behind := by
  constructor
  · rintro ⟨elapsed, last, behind, rfl, hlen, helapsed, hlast⟩
    obtain ⟨w, elapsed, rfl⟩ := List.exists_cons_of_length_eq_add_one hlen
    rw [List.forall_mem_cons] at helapsed
    exact ⟨w, _, rfl, helapsed.1, elapsed, last, behind, rfl, Nat.succ.inj hlen, helapsed.2, hlast⟩
  · rintro ⟨w, _, rfl, hw, elapsed, last, behind, rfl, rfl, helapsed, hlast⟩
    exact ⟨w :: elapsed, last, behind, rfl, rfl, List.forall_mem_cons.mpr ⟨hw, helapsed⟩, hlast⟩

/-- There is one such number of rounds. -/
theorem SignalAfter.unique {rounds rounds' : ℕ} {waits : List Spin}
    (h : SignalAfter rounds waits) (h' : SignalAfter rounds' waits) : rounds = rounds' := by
  induction rounds generalizing rounds' waits with
  | zero =>
      obtain ⟨w, behind, rfl, hw⟩ := signalAfter_zero.mp h
      cases rounds' with
      | zero => rfl
      | succ rounds' =>
          obtain ⟨_, _, heq, hw', -⟩ := signalAfter_succ.mp h'
          cases heq
          exact absurd (hw.symm.trans hw') (by simp)
  | succ rounds ih =>
      obtain ⟨w, behind, rfl, hw, h⟩ := signalAfter_succ.mp h
      cases rounds' with
      | zero =>
          obtain ⟨_, _, heq, hw'⟩ := signalAfter_zero.mp h'
          cases heq
          exact absurd (hw.symm.trans hw') (by simp)
      | succ rounds' =>
          obtain ⟨_, _, heq, -, h'⟩ := signalAfter_succ.mp h'
          cases heq
          rw [ih h h']

section Signals

variable {env : Environment} {svc svc' : ServiceSt} {obs obs' : ObsSt} {s : CStr}
  {waits : List Spin}

/-- **The rounds until a signal comes**: each visits the nodes of all snapshots, as they were
in the beginning. -/
theorem serviceRounds_covers (hpath : obs.cur.path = some s)
    (h : serviceRounds env waits (svc, obs) = some (svc', obs')) :
    ∃ rounds : List (List Visit), SignalAfter rounds.length waits ∧ svc.Alike svc' ∧
      obs'.cur.path = some s ∧ obs'.log = obs.log ++ rounds.flatten ∧
      ∀ visits ∈ rounds, RoundCovers s svc.Places visits := by
  induction waits generalizing svc obs with
  | nil => cases h
  | cons w waits ih =>
      obtain ⟨ok, hspin, h⟩ := Option.bind_eq_some_iff.mp h
      cases ok with
      | false =>
          cases h
          exact ⟨[], signalAfter_zero.mpr ⟨w, waits, rfl, hspin⟩, .refl _, hpath,
            (List.append_nil _).symm, by simp⟩
      | true =>
          obtain ⟨⟨svc₁, obs₁⟩, hround, hrest⟩ := Option.bind_eq_some_iff.mp h
          obtain ⟨_, _, visits, hround', halike, hpath₁, hlog₁, hcovers⟩ :=
            serviceRound_covers env hpath (passable_of_serviceRound hpath hround)
          cases hround.symm.trans hround'
          obtain ⟨rounds, hwaits, halike', hpath', hlog', hall⟩ := ih hpath₁ hrest
          have hplaces : svc₁.Places = svc.Places := halike.placesFrom_eq 0
          rw [hplaces] at hall
          refine ⟨visits :: rounds, signalAfter_succ.mpr ⟨w, waits, rfl, hspin, hwaits⟩,
            halike.trans halike', hpath', ?_, List.forall_mem_cons.mpr ⟨hcovers, hall⟩⟩
          rw [hlog', hlog₁, List.flatten_cons, List.append_assoc]

/-- The rounds come to their end exactly if a signal comes, and the snapshots can be passed
if it does not come at once. -/
theorem serviceRounds_ends (hpath : obs.cur.path = some s) :
    (∃ r, serviceRounds env waits (svc, obs) = some r) ↔
      ∃ rounds, SignalAfter rounds waits ∧ (rounds = 0 ∨ svc.PassableFrom s 0) := by
  induction waits generalizing svc obs with
  | nil =>
      constructor
      · rintro ⟨r, ⟨⟩⟩
      · rintro ⟨rounds, ⟨elapsed, last, behind, h, -⟩, -⟩
        exact absurd h.symm (by simp)
  | cons w waits ih =>
      rw [serviceRounds]
      cases hspin : spin 1000 w with
      | none =>
          constructor
          · rintro ⟨r, ⟨⟩⟩
          · rintro ⟨rounds, hwaits, -⟩
            cases rounds with
            | zero =>
                obtain ⟨_, _, heq, hlast⟩ := signalAfter_zero.mp hwaits
                cases heq
                exact absurd (hspin.symm.trans hlast) (by simp)
            | succ rounds =>
                obtain ⟨_, _, heq, hover, -⟩ := signalAfter_succ.mp hwaits
                cases heq
                exact absurd (hspin.symm.trans hover) (by simp)
      | some ok =>
          cases ok with
          | false =>
              exact iff_of_true ⟨_, rfl⟩
                ⟨0, signalAfter_zero.mpr ⟨w, waits, rfl, hspin⟩, .inl rfl⟩
          | true =>
              simp only [Option.bind_eq_bind, Option.bind_some, if_true]
              constructor
              · rintro ⟨r, hrun⟩
                obtain ⟨⟨svc₁, obs₁⟩, hround, hrest⟩ := Option.bind_eq_some_iff.mp hrun
                have hpass := passable_of_serviceRound hpath hround
                obtain ⟨_, _, _, hround', -, hpath₁, -, -⟩ :=
                  serviceRound_covers env hpath hpass
                cases hround.symm.trans hround'
                obtain ⟨rounds, hwaits, -⟩ := (ih hpath₁).mp ⟨r, hrest⟩
                exact ⟨rounds + 1, signalAfter_succ.mpr ⟨w, waits, rfl, hspin, hwaits⟩, .inr hpass⟩
              · rintro ⟨rounds, hwaits, hpass⟩
                cases rounds with
                | zero =>
                    obtain ⟨_, _, heq, hlast⟩ := signalAfter_zero.mp hwaits
                    cases heq
                    exact absurd (hspin.symm.trans hlast) (by simp)
                | succ rounds =>
                    obtain ⟨_, _, heq, -, hwaits⟩ := signalAfter_succ.mp hwaits
                    cases heq
                    have hpass := hpass.resolve_left (Nat.succ_ne_zero rounds)
                    obtain ⟨svc₁, obs₁, _, hround, halike, hpath₁, -, -⟩ :=
                      serviceRound_covers env hpath hpass
                    obtain ⟨r, hrest⟩ := (ih hpath₁).mpr
                      ⟨rounds, hwaits, .inr (halike.passableFrom hpass)⟩
                    exact ⟨r, by rw [hround, Option.bind_some, hrest]⟩

end Signals

/-! ### The whole service -/

/-- How often a node is tracked among the visits. -/
def timesTracked (visits : List Visit) (node : List ℕ) : ℕ :=
  ((calls visits).map Visit.node).count node

theorem timesTracked_append (visits visits' : List Visit) (node : List ℕ) :
    timesTracked (visits ++ visits') node =
      timesTracked visits node + timesTracked visits' node := by
  simp [timesTracked, calls]

/-- A round tracks each of its nodes of a known type once. -/
theorem RoundCovers.timesTracked {s : CStr} {nodes : List ℕ → List CStr → Finfo → Prop}
    {visits : List Visit} {node : List ℕ} {names : List CStr} {finfo : Finfo}
    (h : RoundCovers s nodes visits) (hnode : nodes node names finfo)
    (hknown : finfo.type ≠ .unknown) : timesTracked visits node = 1 := by
  have hordered : ((calls visits).map Visit.node).Pairwise Before :=
    List.pairwise_map.mpr (h.ordered.sublist List.filter_sublist)
  obtain ⟨v, hv, rfl, -, hdone⟩ := h.complete node names finfo hnode
  refine List.count_eq_one_of_mem (nodup_of_pairwise_before hordered) ?_
  exact List.mem_map_of_mem (List.mem_filter.mpr ⟨hv, hdone.mpr hknown⟩)

/-- So do all rounds together, as often as there are rounds. -/
theorem timesTracked_flatten {s : CStr} {nodes : List ℕ → List CStr → Finfo → Prop}
    {rounds : List (List Visit)} {node : List ℕ} {names : List CStr} {finfo : Finfo}
    (h : ∀ visits ∈ rounds, RoundCovers s nodes visits) (hnode : nodes node names finfo)
    (hknown : finfo.type ≠ .unknown) : timesTracked rounds.flatten node = rounds.length := by
  induction rounds with
  | nil => rfl
  | cons visits rounds ih =>
      rw [List.forall_mem_cons] at h
      rw [List.flatten_cons, timesTracked_append, h.1.timesTracked hnode hknown, ih h.2,
        List.length_cons, Nat.add_comm]

section Whole

variable {create : CStr → FsTarget} {buf : StaticBuf} {env : Environment} {signals : Bool}
  {waits : List Spin} {stack : FileStack} {svc svc' : ServiceSt} {obs obs' : ObsSt}
  {taken : List CStr} {s : CStr}

/-- The slot of a snapshot that was taken. -/
theorem ServiceSt.Took.slot (h : svc.Took create taken) {i : ℕ} (hi : i < svc.fpIndex) :
    svc.fp[i]? = taken[i]?.map create := by
  rw [← List.getElem?_map, ← h.targets, List.getElem?_take_of_lt hi]

/-- The nodes of the snapshots that were taken. -/
theorem ServiceSt.Took.places (h : svc.Took create taken) {node : List ℕ} {names : List CStr}
    {finfo : Finfo} :
    svc.Places node names finfo ↔ ∃ i path p, taken[i]? = some path ∧ node = i :: p ∧
      HasNode (create path) p names finfo := by
  constructor
  · rintro ⟨i, target, p, -, hi, ht, rfl, hplace⟩
    rw [h.slot hi, Option.map_eq_some_iff] at ht
    obtain ⟨path, hpath, rfl⟩ := ht
    exact ⟨i, path, p, hpath, rfl, hplace⟩
  · rintro ⟨i, path, p, hpath, rfl, hplace⟩
    have hi : i < svc.fpIndex := by
      rw [h.index]
      exact (List.getElem?_eq_some_iff.mp hpath).1
    exact ⟨i, create path, p, Nat.zero_le i, hi, by rw [h.slot hi, hpath]; rfl, rfl, hplace⟩

/-- The snapshots can be passed if each of them can. -/
theorem ServiceSt.Took.passable_iff (h : svc.Took create taken)
    (hindex : svc.fpIndex ≤ serviceSlots) :
    svc.PassableFrom s 0 ↔ ∀ path ∈ taken, Passable s (create path) := by
  constructor
  · rintro ⟨-, hpass⟩ path hmem
    obtain ⟨i, hi⟩ := List.mem_iff_getElem?.mp hmem
    have hlt : i < svc.fpIndex := by
      rw [h.index]
      exact (List.getElem?_eq_some_iff.mp hi).1
    exact hpass i _ (Nat.zero_le i) hlt (by rw [h.slot hlt, hi]; rfl)
  · intro hpass
    refine ⟨hindex, fun i target _ hi ht => ?_⟩
    rw [h.slot hi, Option.map_eq_some_iff] at ht
    obtain ⟨path, hpath, rfl⟩ := ht
    exact hpass path (List.mem_of_getElem? hpath)

/-- How many rounds a service with these snapshots goes through. -/
def RoundsDue (taken : List CStr) (signals : Bool) (waits : List Spin) (rounds : ℕ) : Prop :=
  if taken ≠ [] ∧ signals = true then SignalAfter rounds waits else rounds = 0

theorem serviceLoops_ends (env : Environment) (h : svc.Took create taken)
    (hindex : svc.fpIndex ≤ serviceSlots) (hpath : obs.cur.path = some s) :
    (∃ r, serviceLoops env signals waits svc obs = some r) ↔ ∃ rounds,
      RoundsDue taken signals waits rounds ∧
        (rounds = 0 ∨ ∀ path ∈ taken, Passable s (create path)) := by
  have hempty : svc.fpIndex = 0 ↔ taken = [] := by rw [h.index, List.length_eq_zero_iff]
  rw [serviceLoops]
  by_cases hgo : taken ≠ [] ∧ signals = true
  · rw [if_neg (mt hempty.mp hgo.1), if_pos hgo.2, serviceRounds_ends hpath]
    simp only [RoundsDue, if_pos hgo, h.passable_iff hindex]
  · have hstay : (if svc.fpIndex = 0 then some (svc, obs)
        else if signals then serviceRounds env waits (svc, obs) else some (svc, obs)) =
          some (svc, obs) := by
      split
      · rfl
      · next hne => exact if_neg fun hsignals => hgo ⟨mt hempty.mpr hne, hsignals⟩
    rw [hstay]
    exact iff_of_true ⟨_, rfl⟩ ⟨0, by rw [RoundsDue, if_neg hgo], .inl rfl⟩

theorem serviceLoops_covers (h : svc.Took create taken) (hpath : obs.cur.path = some s)
    (hrun : serviceLoops env signals waits svc obs = some (svc', obs')) :
    ∃ rounds : List (List Visit), RoundsDue taken signals waits rounds.length ∧
      svc.Alike svc' ∧ obs'.log = obs.log ++ rounds.flatten ∧
      ∀ visits ∈ rounds, RoundCovers s svc.Places visits := by
  have hempty : svc.fpIndex = 0 ↔ taken = [] := by rw [h.index, List.length_eq_zero_iff]
  rw [serviceLoops] at hrun
  by_cases hgo : taken ≠ [] ∧ signals = true
  · rw [if_neg (mt hempty.mp hgo.1), if_pos hgo.2] at hrun
    obtain ⟨rounds, hwaits, halike, -, hlog, hall⟩ := serviceRounds_covers hpath hrun
    exact ⟨rounds, by rwa [RoundsDue, if_pos hgo], halike, hlog, hall⟩
  · have hstay : some (svc, obs) = some (svc', obs') := by
      rw [← hrun]
      split
      · rfl
      · next hne => exact (if_neg fun hsignals => hgo ⟨mt hempty.mpr hne, hsignals⟩).symm
    cases hstay
    exact ⟨[], by rw [RoundsDue, if_neg hgo]; rfl, .refl _, (List.append_nil _).symm, by simp⟩

/-- The end of a service that has these snapshots. -/
theorem serviceDeinit_taken (buf : StaticBuf) (h : svc.Took create taken)
    (hloaded : Loaded svc) (halike : svc.Alike svc') (events : List DeinitEvent) :
    (∃ end', serviceDeinit buf svc' = some (events, end')) ↔
      Settles (fun _ printed => printed = [.failed .target]) 0 (taken.map create) events := by
  have hfresh : (∃ end', serviceDeinit buf svc = some (events, end')) ↔ _ :=
    hloaded.serviceDeinit_iff events
  rw [← h.targets, ← hfresh]
  exact ⟨halike.symm.serviceDeinit, halike.serviceDeinit⟩

/-- Every snapshot that was counted is there. -/
theorem created_notNull {todo : List CStr} :
    ∀ path ∈ created create todo, (create path).NotNull :=
  fun _ hmem => of_decide_eq_true (List.mem_filter.mp hmem).2

/-- What the service does behind `service_init`. -/
theorem service_iff (hinit : serviceInit create stack = some svc) {events : List DeinitEvent}
    {end' : ServiceSt} :
    service create buf env signals waits stack obs = some (events, end', obs') ↔
      ∃ svc', serviceLoops env signals waits svc obs = some (svc', obs') ∧
        serviceDeinit buf svc' = some (events, end') := by
  rw [service, hinit, Option.bind_eq_bind, Option.bind_some]
  constructor
  · intro hrun
    obtain ⟨⟨svc', obs₁⟩, hloops, hrun⟩ := Option.bind_eq_some_iff.mp hrun
    obtain ⟨⟨events₁, end₁⟩, hdeinit, hrun⟩ := Option.bind_eq_some_iff.mp hrun
    cases hrun
    exact ⟨svc', hloops, hdeinit⟩
  · rintro ⟨svc', hloops, hdeinit⟩
    simp [hloops, hdeinit]

/-- A service that ends was given no literal that `basename` writes to. -/
theorem service_safe {todo : List Filename} (hstack : stack.Holds todo.reverse)
    {r : List DeinitEvent × ServiceSt × ObsSt}
    (hrun : service create buf env signals waits stack obs = some r) :
    ∀ f ∈ todo, ¬ f.Faults := by
  obtain ⟨svc, hinit, -⟩ := Option.bind_eq_some_iff.mp hrun
  exact (serviceInit_iff hstack).mp ⟨svc, hinit⟩

/-- When the service ends, if it is given no such literal. -/
theorem service_ends_of_safe {todo : List Filename} (hstack : stack.Holds todo.reverse)
    (hsafe : ∀ f ∈ todo, ¬ f.Faults) (hpath : obs.cur.path = some []) :
    (∃ r, service create buf env signals waits stack obs = some r) ↔
      (∃ rounds, RoundsDue (created create (texts todo)) signals waits rounds ∧
        (rounds = 0 ∨ ∀ path ∈ created create (texts todo), Passable [] (create path))) ∧
      ∀ path ∈ created create (texts todo),
        ∃ trace, fsTargetDelete (create path) = some trace := by
  obtain ⟨svc, hinit, htook⟩ := serviceInit_takes create hstack hsafe
  have hloaded := serviceInit_loaded hinit
  have hdelete : (∃ events, Settles (fun _ printed => printed = [.failed .target]) 0
      ((created create (texts todo)).map create) events) ↔
      ∀ path ∈ created create (texts todo),
        ∃ trace, fsTargetDelete (create path) = some trace := by
    rw [settles_exists_iff, List.forall_mem_map]
    exact ⟨fun h path hmem => (h path hmem (created_notNull path hmem)).2,
      fun h path hmem _ => ⟨⟨_, rfl⟩, h path hmem⟩⟩
  rw [← serviceLoops_ends env htook (Nat.le_of_lt hloaded.index_lt) hpath, ← hdelete]
  constructor
  · rintro ⟨⟨events, end', obs'⟩, hrun⟩
    obtain ⟨svc', hloops, hdeinit⟩ := (service_iff hinit).mp hrun
    obtain ⟨rounds, -, halike, -, -⟩ := serviceLoops_covers htook hpath hloops
    exact ⟨⟨_, hloops⟩, events,
      (serviceDeinit_taken _ htook hloaded halike events).mp ⟨_, hdeinit⟩⟩
  · rintro ⟨⟨⟨svc', obs'⟩, hloops⟩, events, hsettles⟩
    obtain ⟨rounds, -, halike, -, -⟩ := serviceLoops_covers htook hpath hloops
    obtain ⟨end', hdeinit⟩ :=
      (serviceDeinit_taken buf htook hloaded halike events).mpr hsettles
    exact ⟨_, (service_iff hinit).mpr ⟨svc', hloops, hdeinit⟩⟩

/-- **When the service ends**: `basename` writes to no literal, a signal comes, every path fits
into the buffer unless it comes before the first round, and the snapshots can be released. -/
theorem service_ends_iff {todo : List Filename} (hstack : stack.Holds todo.reverse)
    (hpath : obs.cur.path = some []) :
    (∃ r, service create buf env signals waits stack obs = some r) ↔
      (∀ f ∈ todo, ¬ f.Faults) ∧
      (∃ rounds, RoundsDue (created create (texts todo)) signals waits rounds ∧
        (rounds = 0 ∨ ∀ path ∈ created create (texts todo), Passable [] (create path))) ∧
      ∀ path ∈ created create (texts todo),
        ∃ trace, fsTargetDelete (create path) = some trace := by
  constructor
  · rintro ⟨r, hrun⟩
    have hsafe := service_safe hstack hrun
    exact ⟨hsafe, (service_ends_of_safe hstack hsafe hpath).mp ⟨r, hrun⟩⟩
  · rintro ⟨hsafe, h⟩
    exact (service_ends_of_safe hstack hsafe hpath).mpr h

/-- **What a service that ends has done**: rounds over the snapshots it took, and their
release. -/
theorem service_covers {todo : List Filename} (hstack : stack.Holds todo.reverse)
    (hpath : obs.cur.path = some []) {events : List DeinitEvent}
    (hrun : service create buf env signals waits stack obs = some (events, svc', obs')) :
    ∃ (svc : ServiceSt) (rounds : List (List Visit)),
      svc.Took create (created create (texts todo)) ∧
      RoundsDue (created create (texts todo)) signals waits rounds.length ∧
      obs'.log = obs.log ++ rounds.flatten ∧
      (∀ visits ∈ rounds, RoundCovers [] svc.Places visits) ∧
      Settles (fun _ printed => printed = [.failed .target]) 0
        ((created create (texts todo)).map create) events := by
  obtain ⟨svc, hinit, htook⟩ := serviceInit_takes create hstack (service_safe hstack hrun)
  obtain ⟨svc₁, hloops, hdeinit⟩ := (service_iff hinit).mp hrun
  obtain ⟨rounds, hdue, halike, hlog, hall⟩ := serviceLoops_covers htook hpath hloops
  exact ⟨svc, rounds, htook, hdue, hlog, hall,
    (serviceDeinit_taken _ htook (serviceInit_loaded hinit) halike events).mp ⟨_, hdeinit⟩⟩

/-- **The whole service**, from the operands on the stack to its end.

It ends exactly if `basename` writes to no literal, a signal comes, every path fits into the
buffer unless the signal comes before the first round, and the snapshots can be released as they
were taken. Then there were as many rounds as waits that no signal ended; in each, every target of
a known type was tracked once, at the path of its names, and nothing else was; and every snapshot
is released as it was taken, after a message of a failed check. -/
theorem service_whole {todo : List Filename} (hstack : stack.Holds todo.reverse)
    (hpath : obs.cur.path = some []) :
    ((∃ r, service create buf env signals waits stack obs = some r) ↔
      (∀ f ∈ todo, ¬ f.Faults) ∧
      (∃ rounds, RoundsDue (created create (texts todo)) signals waits rounds ∧
        (rounds = 0 ∨ ∀ path ∈ created create (texts todo), Passable [] (create path))) ∧
      ∀ path ∈ created create (texts todo),
        ∃ trace, fsTargetDelete (create path) = some trace) ∧
    ∀ events svc' obs', service create buf env signals waits stack obs =
        some (events, svc', obs') →
      ∃ rounds visits, RoundsDue (created create (texts todo)) signals waits rounds ∧
        obs'.log = obs.log ++ visits ∧
        (∀ v ∈ calls visits, ∃ i path p names finfo,
          (created create (texts todo))[i]? = some path ∧ v.node = i :: p ∧
          HasNode (create path) p names finfo ∧ finfo.type ≠ .unknown ∧
          v.path = joined names) ∧
        (∀ i path p names finfo, (created create (texts todo))[i]? = some path →
          HasNode (create path) p names finfo → finfo.type ≠ .unknown →
          timesTracked visits (i :: p) = rounds) ∧
        Settles (fun _ printed => printed = [.failed .target]) 0
          ((created create (texts todo)).map create) events := by
  refine ⟨service_ends_iff hstack hpath, fun events svc' obs' hrun => ?_⟩
  obtain ⟨svc, rounds, htook, hdue, hlog, hall, hsettles⟩ := service_covers hstack hpath hrun
  refine ⟨rounds.length, rounds.flatten, hdue, hlog, ?_, ?_, hsettles⟩
  · intro v hv
    obtain ⟨hv, hdone⟩ := List.mem_filter.mp hv
    obtain ⟨visits, hvisits, hv⟩ := List.mem_flatten.mp hv
    obtain ⟨names, finfo, hplace, hvpath, hknown⟩ := (hall visits hvisits).sound v hv
    obtain ⟨i, path, p, hi, hnode, hplace⟩ := htook.places.mp hplace
    exact ⟨i, path, p, names, finfo, hi, hnode, hplace, hknown.mp hdone,
      by rw [hvpath, under_nil]⟩
  · intro i path p names finfo hi hplace hknown
    exact timesTracked_flatten hall (htook.places.mpr ⟨i, path, p, hi, rfl, hplace⟩) hknown

end Whole

/-- The snapshot of a regular file. -/
def snapshotFile (path : CStr) : FsTarget := fsTargetCreate (fun _ => 0) path fileNode

theorem snapshotFile_eq (path : CStr) : snapshotFile path = .live
    (fsTargetSetInfo path normalStat)
    (acknowledged (fun _ => 0) (basenameCut path) normalStat) none :=
  @fsTargetCreate_file _ _ (.ok normalStat) (by decide) _ _

/-- A wait that is over after a second, and one that a signal ends. -/
def twoWaits : List Spin :=
  [⟨0, [(500, false), (1000, false)]⟩, ⟨1000, [(1001, true)]⟩]

theorem signalAfter_twoWaits : SignalAfter 1 twoWaits :=
  ⟨[⟨0, [(500, false), (1000, false)]⟩], ⟨1000, [(1001, true)]⟩, [], rfl, rfl, by decide,
    by decide⟩

/-- The service is started with the operand `a`, a regular file, and a signal comes in the
second wait: the file is tracked once. -/
theorem service_tracks_file : ∃ r,
    service snapshotFile ⟨List.replicate iobufMax 0, List.length_replicate⟩
      (fun _ _ => .answered (.error .enoent)) true twoWaits
      (filenameStackPush .empty (.argument [⟨97, by decide⟩])) ⟨PathBuf.empty, []⟩ = some r ∧
    timesTracked r.2.2.log [0] = 1 := by
  have hfile : (fsTargetSetInfo [⟨97, by decide⟩] normalStat).type ≠ .directory := by decide
  have htaken : created snapshotFile (texts [.argument [⟨97, by decide⟩]]) =
      [[⟨97, by decide⟩]] := by
    simp [created, texts, Filename.text, snapshotFile_eq]
  have hstack : (filenameStackPush .empty (.argument [⟨97, by decide⟩])).Holds
      (List.reverse [.argument [⟨97, by decide⟩]]) :=
    FileStack.empty_holds.push (by simp [fileStackSize]) _
  obtain ⟨hends, hall⟩ := @service_whole snapshotFile
    ⟨List.replicate iobufMax 0, List.length_replicate⟩ (fun _ _ => .answered (.error .enoent))
    true twoWaits _ ⟨PathBuf.empty, []⟩ _ hstack PathBuf.path_empty
  rw [htaken] at hends hall
  have hdue : RoundsDue [[⟨97, by decide⟩]] true twoWaits 1 := by
    rw [RoundsDue, if_pos ⟨List.cons_ne_nil _ _, rfl⟩]
    exact signalAfter_twoWaits
  have hpass : Passable [] (snapshotFile [⟨97, by decide⟩]) := by
    rw [snapshotFile_eq]
    exact .leaf hfile (by decide)
  have hdelete : ∃ trace, fsTargetDelete (snapshotFile [⟨97, by decide⟩]) = some trace := by
    rw [snapshotFile_eq]
    exact (fsTargetDelete_releases (.leaf hfile)).imp fun _ h => h.1
  obtain ⟨⟨events, svc', obs'⟩, hrun⟩ := hends.mpr
    ⟨by decide, ⟨1, hdue, .inr (List.forall_mem_singleton.mpr hpass)⟩,
      List.forall_mem_singleton.mpr hdelete⟩
  obtain ⟨rounds, visits, hdue', hlog, -, htimes, -⟩ := hall events svc' obs' hrun
  refine ⟨_, hrun, ?_⟩
  rw [RoundsDue, if_pos ⟨List.cons_ne_nil _ _, rfl⟩] at hdue'
  rw [List.nil_append] at hlog
  rw [hlog, signalAfter_twoWaits.unique hdue']
  obtain ⟨names, hplace⟩ : ∃ names, HasNode (snapshotFile [⟨97, by decide⟩]) [] names
      (fsTargetSetInfo [⟨97, by decide⟩] normalStat) := by
    rw [snapshotFile_eq]
    exact ⟨_, _, .root⟩
  exact htimes 0 _ [] _ _ rfl hplace (by decide)

end Backd
