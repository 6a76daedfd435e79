import Mathlib.Data.List.Chain
import Backd.EventPaths

/-!
# What is Recorded is Reported

The observer prints an event when it has recorded it. This module keeps the accounts of whole
runs of the service: for every target, the acknowledgement of the snapshot and the visits of
the observer, in their order, against the history of the target.

A history is a chronicle: after the acknowledgement, every event says how its stat differs from
that of the event before it, or that there was none.

## Main results

* `fsTargetEventTrack_cases`: what a round can do: nothing, record and print an event, or print
  the last one again when memory runs out.
* `histories_booked`: in every state the service comes to, the history of a target is its
  acknowledgement and what its visits appended, each once and in their order.
* `histories_reported`: what is appended is what is printed.
* `histories_chronicle`: every history is a chronicle, and all its events have names.
-/

namespace Backd

open StraightLine Runs

/-! ### One round -/

/-- An event that may follow another one in a history: it tells how its stat differs from the
one recorded before, or that `lstat` failed. -/
inductive Succeeds (previous : FsTargetEvent) : FsTargetEvent → Prop
  | change {now : UInt64} {st : Stat} : ¬ st.Agrees previous.st →
      Succeeds previous (changeEvent previous.st now st)
  | failure {now : UInt64} {e : Errno} : Succeeds previous (failureEvent now e)

section Round

variable {r : Round} {events : Records FsTargetEvent}

/-- **What a round can do** to a history: it finds nothing new; it records an event, which it
prints; or it is refused the memory for one, and prints the last event again. -/
inductive Rounds (events : Records FsTargetEvent) (done : Tracked) : Prop
  | quiet : done.detected = some 0 → done.events = events → done.printed = none →
      Rounds events done
  | recorded {previous e : FsTargetEvent} {cap : ℕ} : done.detected = some 1 →
      events.items.getLast? = some previous → Succeeds previous e →
      done.events = ⟨events.items ++ [e], cap⟩ → done.printed = some e → Rounds events done
  | refused : done.detected = some (-1) → done.events = events →
      done.printed = events.items.getLast? → Rounds events done

theorem rounds_of_record {previous event : FsTargetEvent}
    (hlast : events.items.getLast? = some previous) (hsucc : Succeeds previous event)
    (hdetect : targetEventDetect r events previous = recordEvent r events event) :
    Rounds events (fsTargetEventTrack r events) := by
  rcases recordEvent_cases r events event with ⟨cap, hrec⟩ | hrec
  · have htrack : fsTargetEventTrack r events =
        { result := true, events := ⟨events.items ++ [event], cap⟩, detected := some 1
          printed := some event } := by
      simp [fsTargetEventTrack, fsTargetLatestEvent_eq, hlast, hdetect, hrec]
    exact .recorded (by rw [htrack]) hlast hsucc (by rw [htrack]) (by rw [htrack])
  · have htrack : fsTargetEventTrack r events =
        { result := true, events := events, detected := some (-1), printed := some previous } := by
      simp [fsTargetEventTrack, fsTargetLatestEvent_eq, hlast, hdetect, hrec]
    exact .refused (by rw [htrack]) (by rw [htrack]) (by rw [htrack, hlast])

theorem fsTargetEventTrack_cases (r : Round) (h : events.items ≠ []) :
    Rounds events (fsTargetEventTrack r events) := by
  have hlast := List.getLast?_eq_some_getLast h
  cases hst : r.lstat with
  | error e => exact rounds_of_record hlast .failure (targetEventDetect_error hst)
  | ok st =>
      have hdetect := @targetEventDetect_ok r events (events.items.getLast h) st hst
      by_cases hagree : st.Agrees (events.items.getLast h).st
      · rw [if_pos hagree] at hdetect
        have htrack : fsTargetEventTrack r events =
            { result := true, events := events, detected := some 0, printed := none } := by
          simp [fsTargetEventTrack, fsTargetLatestEvent_eq, hlast, hdetect]
        exact .quiet (by rw [htrack]) (by rw [htrack]) (by rw [htrack])
      · rw [if_neg hagree] at hdetect
        exact rounds_of_record hlast (.change hagree) hdetect

end Round

/-! ### Visits -/

/-- The events a visit printed. -/
def Visit.reported (v : Visit) : List FsTargetEvent := (v.done.bind Tracked.printed).toList

/-- The visit was refused the memory for an event. -/
def Visit.Refused (v : Visit) : Prop := v.done.bind Tracked.detected = some (-1)

instance : DecidablePred Visit.Refused := fun v =>
  inferInstanceAs (Decidable (v.done.bind Tracked.detected = some (-1)))

/-- What the visit did, if anything, is what `fs_target_event_track` does. -/
def Visit.Tracks (v : Visit) : Prop :=
  ∀ done, v.done = some done → ∃ r, done = fsTargetEventTrack r v.events

/-- Such a visit that found a history with an event. -/
structure Visit.Sound (v : Visit) : Prop where
  recorded : v.events.items ≠ []
  tracked : v.Tracks

section Visits

variable {v : Visit}

/-- A visit prints what it appends, unless it was refused. -/
theorem Visit.Sound.reported (h : v.Sound) (hdone : ¬ v.Refused) : v.reported = v.appended := by
  obtain ⟨node, path, events, done⟩ := v
  cases done with
  | none => rfl
  | some done =>
      obtain ⟨r, hround⟩ := h.tracked done rfl
      obtain rfl : done = fsTargetEventTrack r events := hround
      rw [Visit.appended_tracked]
      cases fsTargetEventTrack_cases r h.recorded with
      | quiet _ hevents hprinted => simp [Visit.reported, hevents, hprinted]
      | recorded _ _ _ hevents hprinted => simp [Visit.reported, hevents, hprinted]
      | refused hdetected => exact absurd hdetected hdone

/-- A visit that was refused appends nothing, and prints the last event again. -/
theorem Visit.Sound.refused (h : v.Sound) (hdone : v.Refused) :
    v.appended = [] ∧ v.reported = v.events.items.getLast?.toList := by
  obtain ⟨node, path, events, done⟩ := v
  cases done with
  | none => cases hdone
  | some done =>
      obtain ⟨r, hround⟩ := h.tracked done rfl
      obtain rfl : done = fsTargetEventTrack r events := hround
      have hdone : (fsTargetEventTrack r events).detected = some (-1) := hdone
      rw [Visit.appended_tracked]
      cases fsTargetEventTrack_cases r h.recorded with
      | quiet hdetected => exact absurd (hdetected.symm.trans hdone) (by decide)
      | recorded hdetected => exact absurd (hdetected.symm.trans hdone) (by decide)
      | refused _ hevents hprinted => simp [Visit.reported, hevents, hprinted]

end Visits

/-- What the visits in a log appended to the history of a target, in their order. -/
def appendedTo (log : List Visit) (target : TargetId) : List FsTargetEvent :=
  (log.filter fun v => v.node = target).flatMap Visit.appended

/-- The acknowledgements of a target. -/
def ackedTo (acks : List Ack) (target : TargetId) : List Ack :=
  acks.filter fun a => a.target = target

@[simp] theorem appendedTo_append (log log' : List Visit) (target : TargetId) :
    appendedTo (log ++ log') target = appendedTo log target ++ appendedTo log' target := by
  simp [appendedTo]

@[simp] theorem ackedTo_append (acks acks' : List Ack) (target : TargetId) :
    ackedTo (acks ++ acks') target = ackedTo acks target ++ ackedTo acks' target :=
  List.filter_append ..

theorem appendedTo_other {log : List Visit} {target : TargetId}
    (h : ∀ v ∈ log, v.node ≠ target) : appendedTo log target = [] := by
  have hfilter : (log.filter fun v => v.node = target) = [] :=
    List.filter_eq_nil_iff.mpr fun v hv => by simpa using h v hv
  rw [appendedTo, hfilter, List.flatMap_nil]

theorem ackedTo_other {acks : List Ack} {target : TargetId}
    (h : ∀ a ∈ acks, a.target ≠ target) : ackedTo acks target = [] :=
  List.filter_eq_nil_iff.mpr fun a ha => by simpa using h a ha

/-- One more acknowledgement is listed for its target, and for no other. -/
theorem ackedTo_concat (acks : List Ack) (a : Ack) :
    ackedTo (acks ++ [a]) a.target = ackedTo acks a.target ++ [a] := by
  simp [ackedTo]

theorem ackedTo_concat_other {acks : List Ack} {a : Ack} (target : TargetId)
    (h : target ≠ a.target) : ackedTo (acks ++ [a]) target = ackedTo acks target := by
  rw [ackedTo_append, @ackedTo_other [a] target, List.append_nil]
  intro b hb
  rw [List.mem_singleton.mp hb]
  exact Ne.symm h

/-! ### Traversals -/

section Observe

variable {env : Environment} {node : List ℕ} {t t' : FsTarget} {st st' : ObsSt}

/-- The histories below `node` after some visits: each is the one before, with what the visits
appended for its target, and no more than one round went over it. -/
structure Accounts (t t' : FsTarget) (node : List ℕ) (visits : List Visit) : Prop where
  visited : ∀ v ∈ visits, ∃ p names finfo, v.node = node ++ p ∧ Reaches t p names finfo v.events
  tracked : ∀ v ∈ visits, v.Tracks
  history : ∀ p names finfo events', Reaches t' p names finfo events' →
    ∃ events, Reaches t p names finfo events ∧
      events'.items = events.items ++ appendedTo visits (node ++ p) ∧
      (events' = events ∨ ∃ r, events' = (fsTargetEventTrack r events).events)

/-- What is done at a live target. -/
theorem accounts_here {finfo : Finfo} {events events' : Records FsTargetEvent}
    (h : if finfo.type = .unknown then logUnknown node events st = some st' ∧ events' = events
      else trackHere env node events st = some (events', st')) :
    ∃ v, st'.log = st.log ++ [v] ∧ v.node = node ∧ v.events = events ∧ v.Tracks ∧
      events'.items = events.items ++ v.appended ∧
      (events' = events ∨ ∃ r, events' = (fsTargetEventTrack r events).events) := by
  by_cases hunknown : finfo.type = .unknown
  · rw [if_pos hunknown] at h
    have hcall : ObsCall.perform env (.unknownType node events) st = some st' := h.1
    obtain ⟨path, -, rfl⟩ := of_unknownType hcall
    refine ⟨⟨node, path, events, none⟩, rfl, rfl, rfl, ?_, ?_, .inl h.2⟩
    · rintro done ⟨⟩
    · rw [h.2]
      exact (List.append_nil _).symm
  · rw [if_neg hunknown] at h
    obtain ⟨path, -, rfl, rfl⟩ := of_trackHere h
    refine ⟨_, rfl, rfl, rfl, ?_, ?_, .inr ⟨_, rfl⟩⟩
    · rintro done ⟨⟩
      exact ⟨_, rfl⟩
    obtain ⟨more, hmore⟩ := fsTargetEventTrack_extends (env st.log.length path) events
    rw [Visit.appended_tracked, ← hmore, List.drop_left]

/-- The loop over the children, if it is so for each child. The visits of the child with one
index are not those of another. -/
theorem accounts_of_observeFrom {children children' : List FsTarget}
    (h : ∀ c ∈ children, ∀ {node : List ℕ} {st st' : ObsSt} {b : Bool} {c' : FsTarget},
      fsTargetObserve env node c st = some (b, c', st') →
        ∃ visits, st'.log = st.log ++ visits ∧ Accounts c c' node visits)
    {i : ℕ} (hrun : observeFrom env node i children st = some (children', st')) :
    ∃ visits, st'.log = st.log ++ visits ∧
      (∀ v ∈ visits, v.Tracks ∧ ∃ j c q names finfo, v.node = node ++ (i + j) :: q ∧
        children[j]? = some c ∧ Reaches c q names finfo v.events) ∧
      ∀ j c', children'[j]? = some c' → ∀ p names finfo events', Reaches c' p names finfo events' →
        ∃ c events, children[j]? = some c ∧ Reaches c p names finfo events ∧
          events'.items = events.items ++ appendedTo visits (node ++ (i + j) :: p) ∧
          (events' = events ∨ ∃ r, events' = (fsTargetEventTrack r events).events) := by
  induction children generalizing i st children' with
  | nil =>
      cases hrun
      exact ⟨[], (List.append_nil _).symm, by simp, by simp⟩
  | cons c children ih =>
      rw [List.forall_mem_cons] at h
      rw [observeFrom] at hrun
      obtain ⟨⟨b, c', st₁⟩, hchild, hrun⟩ := Option.bind_eq_some_iff.mp hrun
      obtain ⟨⟨cs', st₂⟩, hloop, hrun⟩ := Option.bind_eq_some_iff.mp hrun
      cases hrun
      obtain ⟨here, hhere, hfirst⟩ := h.1 hchild
      obtain ⟨later, hlater, hbelow, hrest⟩ := ih h.2 hloop
      refine ⟨here ++ later, by rw [hlater, hhere, List.append_assoc], ?_, ?_⟩
      · intro v hv
        rcases List.mem_append.mp hv with hv | hv
        · obtain ⟨q, names, finfo, hq, hreach⟩ := hfirst.visited v hv
          exact ⟨hfirst.tracked v hv, 0, c, q, names, finfo, by simpa using hq, rfl, hreach⟩
        · obtain ⟨htracks, j, d, q, names, finfo, hq, hd, hreach⟩ := hbelow v hv
          refine ⟨htracks, j + 1, d, q, names, finfo, ?_, hd, hreach⟩
          rwa [Nat.add_assoc, Nat.add_comm 1] at hq
      · intro j d hj p names finfo events' hreach
        cases j with
        | zero =>
            obtain rfl : c' = d := Option.some.inj hj
            obtain ⟨events, hevents, hitems, hround⟩ := hfirst.history p names finfo events' hreach
            refine ⟨c, events, rfl, hevents, ?_, hround⟩
            have hnone : appendedTo later (node ++ i :: p) = [] := by
              refine appendedTo_other fun v hv heq => ?_
              obtain ⟨-, j, d, q, _, _, hq, -⟩ := hbelow v hv
              have hindex := (List.cons.inj (List.append_cancel_left (hq.symm.trans heq))).1
              omega
            rw [Nat.add_zero, appendedTo_append, hnone, List.append_nil, hitems]
            simp
        | succ j =>
            obtain ⟨d', events, hd', hevents, hitems, hround⟩ :=
              hrest j d hj p names finfo events' hreach
            refine ⟨d', events, hd', hevents, ?_, hround⟩
            have hnone : appendedTo here (node ++ (i + (j + 1)) :: p) = [] := by
              refine appendedTo_other fun v hv heq => ?_
              obtain ⟨q, _, _, hq, -⟩ := hfirst.visited v hv
              rw [List.append_assoc, List.singleton_append] at hq
              have hindex := (List.cons.inj (List.append_cancel_left (hq.symm.trans heq))).1
              omega
            rw [appendedTo_append, hnone, List.nil_append, hitems, Nat.add_assoc, Nat.add_comm 1]

/-- **The accounts of a traversal**, by induction over the tree. -/
theorem accounts_of_observe {b : Bool} (h : fsTargetObserve env node t st = some (b, t', st')) :
    ∃ visits, st'.log = st.log ++ visits ∧ Accounts t t' node visits := by
  induction t using FsTarget.induction generalizing node st t' st' b with
  | hnull =>
      cases h
      exact ⟨[], (List.append_nil _).symm, by simp, by simp,
        fun _ _ _ _ hreach => by cases hreach⟩
  | hreleased => cases h
  | hlive finfo events children ih =>
      obtain ⟨cur, events', children', st₁, st₂, -, hloop, hhere, hlog, rfl⟩ := of_observe_live h
      obtain ⟨v, hv, hnode, hfound, htracks, hitems, hround⟩ := accounts_here hhere
      have hself : ∃ p names finfo', v.node = node ++ p ∧
          Reaches (.live finfo events children) p names finfo' v.events :=
        ⟨[], [finfo.name], finfo, by rw [hnode, List.append_nil], hfound ▸ .root⟩
      by_cases hdir : finfo.type = .directory
      · rw [if_pos hdir] at hloop
        cases children with
        | none => cases hloop
        | some cs =>
            rw [propagateChildrenRecursive] at hloop
            obtain ⟨⟨cs', st₃⟩, hloop, heq⟩ := Option.bind_eq_some_iff.mp hloop
            cases heq
            obtain ⟨visits, hvisits, hbelow, hrest⟩ := accounts_of_observeFrom
              (fun c hc => fun hobserve => ih cs rfl c hc hobserve) hloop
            refine ⟨visits ++ [v], ?_, ?_, ?_, ?_⟩
            · rw [hlog, hv, hvisits, List.append_assoc]
            · intro w hw
              rcases List.mem_append.mp hw with hw | hw
              · obtain ⟨-, j, c, q, names, finfo', hq, hj, hreach⟩ := hbelow w hw
                rw [Nat.zero_add] at hq
                exact ⟨j :: q, _, finfo', hq, .child hdir hj hreach⟩
              · obtain rfl := List.mem_singleton.mp hw
                exact hself
            · intro w hw
              rcases List.mem_append.mp hw with hw | hw
              · exact (hbelow w hw).1
              · obtain rfl := List.mem_singleton.mp hw
                exact htracks
            · intro p names finfo' events'' hreach
              cases hreach with
              | root =>
                  refine ⟨events, .root, ?_, hround⟩
                  have hnone : appendedTo visits (node ++ []) = [] := by
                    refine appendedTo_other fun w hw heq => ?_
                    obtain ⟨-, j, c, q, _, _, hq, -⟩ := hbelow w hw
                    rw [hq] at heq
                    exact List.cons_ne_nil _ _ (List.append_cancel_left heq)
                  rw [appendedTo_append, hnone, List.nil_append, hitems]
                  simp [appendedTo, hnode]
              | @child _ _ _ _ _ i c q names _ hi hreach =>
                  obtain ⟨d, events₀, hd, hevents, hitems', hround'⟩ :=
                    hrest i c hi q names finfo' _ hreach
                  refine ⟨events₀, .child hdir hd hevents, ?_, hround'⟩
                  have hnone : appendedTo [v] (node ++ i :: q) = [] := by
                    refine appendedTo_other fun w hw heq => ?_
                    obtain rfl := List.mem_singleton.mp hw
                    rw [hnode] at heq
                    have heq : node ++ [] = node ++ i :: q := by rwa [List.append_nil]
                    exact List.cons_ne_nil _ _ (List.append_cancel_left heq).symm
                  rw [appendedTo_append, hnone, List.append_nil, hitems', Nat.zero_add]
      · rw [if_neg hdir] at hloop
        obtain ⟨rfl, rfl⟩ := hloop
        refine ⟨[v], by rw [hlog, hv], ?_, ?_, ?_⟩
        · intro w hw
          obtain rfl := List.mem_singleton.mp hw
          exact hself
        · intro w hw
          obtain rfl := List.mem_singleton.mp hw
          exact htracks
        · intro p names finfo' events'' hreach
          cases hreach with
          | root => exact ⟨events, .root, by simp [appendedTo, hnode, hitems], hround⟩
          | child hdir' => exact absurd hdir' hdir

end Observe

/-! ### Snapshots -/

section Create

variable {clock : CStr → UInt64} {target : TargetId} {path : CStr} {m m' : Memory}

/-- What a snapshot acknowledges: each target of the tree once, and nothing elsewhere. -/
structure Acknowledges (m m' : Memory) (target : TargetId) (t : FsTarget) : Prop where
  elsewhere : ∀ id, ¬ target <+: id → ackedTo m'.acks id = ackedTo m.acks id
  history : ∀ p names finfo events, Reaches t p names finfo events →
    ∃ a : Ack, ackedTo m'.acks (target ++ p) = ackedTo m.acks (target ++ p) ++ [a] ∧
      a.event.mask = eventAck ∧ events.items = [a.event]

/-- A node that is not found is not acknowledged. -/
theorem createScript_missing {n : FsNode} (h : ¬ n.found = true) :
    createScript clock target path n = [.basename target] := by
  refine createScript_null fun hnull => h ?_
  rw [← create_notNull clock path n]
  exact decide_eq_true hnull

/-- The loop over the entries, if it is so for each entry. The targets are numbered as they
are found, so no two entries acknowledge the same target. -/
theorem acknowledges_entries {entries : List (EntryName × FsNode)}
    (h : ∀ e ∈ entries, ∀ {target : TargetId} {path : CStr} {m m' : Memory},
      m.strings target = some path →
      run CreateCall.perform (createScript clock target path e.2) m = some m' →
      Acknowledges m m' target (fsTargetCreate clock path e.2)) {i : ℕ}
    (hrun : run CreateCall.perform (entriesScript clock target path i entries) m = some m') :
    (∀ id, (∀ j q, i ≤ j → id ≠ target ++ j :: q) → ackedTo m'.acks id = ackedTo m.acks id) ∧
    ∀ j e, (foundEntries entries)[j]? = some e → ∀ p names finfo events,
      Reaches (fsTargetCreate clock (attach path e.1) e.2) p names finfo events →
      ∃ a : Ack, ackedTo m'.acks (target ++ (i + j) :: p) =
          ackedTo m.acks (target ++ (i + j) :: p) ++ [a] ∧
        a.event.mask = eventAck ∧ events.items = [a.event] := by
  induction entries generalizing i m with
  | nil =>
      cases hrun
      exact ⟨fun _ _ => rfl, by simp [foundEntries]⟩
  | cons x entries ih =>
      obtain ⟨name, node⟩ := x
      rw [List.forall_mem_cons] at h
      by_cases hvis : visible name = true
      · rw [entriesScript_visible hvis] at hrun
        obtain ⟨m₁, hreceive, hcalls⟩ := Option.bind_eq_some_iff.mp hrun
        cases hreceive
        rw [run_append] at hcalls
        obtain ⟨m₂, hcreate, hrest⟩ := Option.bind_eq_some_iff.mp hcalls
        obtain ⟨m₃, hfree, hrest⟩ := Option.bind_eq_some_iff.mp hrest
        cases hfree
        by_cases hfound : node.found = true
        · have hcons : foundEntries ((name, node) :: entries) =
              (name, node) :: foundEntries entries := by
            simp [foundEntries, hvis, hfound]
          rw [if_pos hfound] at hrest
          obtain ⟨helsewhere, hhistory⟩ := ih h.2 hrest
          have hchild := h.1 (Function.update_self _ _ _) hcreate
          constructor
          · intro id hid
            refine (helsewhere id fun j q hj => hid j q (Nat.le_of_succ_le hj)).trans ?_
            refine hchild.elsewhere id ?_
            rintro ⟨q, rfl⟩
            exact hid i q (Nat.le_refl i) (by simp)
          · intro j e hj p names finfo events hreach
            rw [hcons] at hj
            cases j with
            | zero =>
                obtain rfl : (name, node) = e := Option.some.inj hj
                obtain ⟨a, hacked, hrest⟩ := hchild.history p names finfo events hreach
                refine ⟨a, ?_, hrest⟩
                have hkept := helsewhere (target ++ i :: p) fun j q hj heq => by
                  have hindex := (List.cons.inj (List.append_cancel_left heq)).1
                  omega
                simpa using hkept.trans (by simpa using hacked)
            | succ j =>
                obtain ⟨a, hacked, hrest⟩ := hhistory j e hj p names finfo events hreach
                refine ⟨a, ?_, hrest⟩
                rw [Nat.add_assoc, Nat.add_comm 1] at hacked
                rw [hacked]
                refine congrArg (· ++ [a]) (hchild.elsewhere _ ?_)
                rintro ⟨q, hq⟩
                rw [List.append_assoc, List.singleton_append] at hq
                have hindex := (List.cons.inj (List.append_cancel_left hq)).1
                omega
        · have hskip : foundEntries ((name, node) :: entries) = foundEntries entries := by
            simp [foundEntries, hvis, hfound]
          rw [if_neg hfound] at hrest
          rw [createScript_missing hfound] at hcreate
          obtain ⟨m₃, hcut, hend⟩ := Option.bind_eq_some_iff.mp hcreate
          obtain ⟨string, -, rfl⟩ := Option.map_eq_some_iff.mp hcut
          cases hend
          rw [hskip]
          have hsame := ih h.2 hrest
          exact hsame
      · have hskip : foundEntries ((name, node) :: entries) = foundEntries entries := by
          simp [foundEntries, hvis]
        rw [entriesScript, if_neg hvis] at hrun
        rw [hskip]
        exact ih h.2 hrun

/-- **A snapshot acknowledges every target once**, by induction over the file system. -/
theorem acknowledges_create {n : FsNode} (hpath : m.strings target = some path)
    (hrun : run CreateCall.perform (createScript clock target path n) m = some m') :
    Acknowledges m m' target (fsTargetCreate clock path n) := by
  induction n using FsNode.induction generalizing target path m m' with
  | hnode given lstat entries ih =>
      rw [run_createScript hpath] at hrun
      cases lstat with
      | error e =>
          rw [createScript_error] at hrun
          cases hrun
          rw [fsTargetCreate_error]
          exact ⟨fun _ _ => rfl, fun _ _ _ _ hreach => by cases hreach⟩
      | ok st =>
          rw [createScript_ok, List.tail_cons] at hrun
          obtain ⟨m₁, hinit, hrun⟩ := Option.bind_eq_some_iff.mp hrun
          obtain ⟨s, hs, rfl⟩ := Option.map_eq_some_iff.mp hinit
          obtain rfl : basenameCut path = s := by simpa using hs
          have hself := ackedTo_concat m.acks
            ⟨target, ackEvent (basenameCut path) st (clock (basenameCut path)), basenameCut path⟩
          have hother := @ackedTo_concat_other m.acks
            ⟨target, ackEvent (basenameCut path) st (clock (basenameCut path)), basenameCut path⟩
          have hne : ∀ id, ¬ target <+: id → id ≠ target :=
            fun id hid heq => hid (heq ▸ List.prefix_rfl)
          by_cases hdir : filetype (givenStat given).mode = .directory
          · rw [if_pos hdir] at hrun
            cases entries with
            | none =>
                cases hrun
                rw [fsTargetCreate_refused hdir]
                exact ⟨fun id hid => hother id (hne id hid), fun _ _ _ _ hreach => by cases hreach⟩
            | some es =>
                obtain ⟨helsewhere, hhistory⟩ :=
                  acknowledges_entries (fun e he => ih es rfl e he) hrun
                rw [create_directory path hdir]
                constructor
                · intro id hid
                  refine (helsewhere id ?_).trans (hother id (hne id hid))
                  rintro j q - rfl
                  exact hid (List.prefix_append _ _)
                · intro p names finfo events hreach
                  cases hreach with
                  | root =>
                      refine ⟨⟨target, ackEvent _ st _, basenameCut path⟩, ?_, rfl, rfl⟩
                      rw [List.append_nil, helsewhere target ?_]
                      · exact hself
                      · intro j q _ heq
                        have heq : target ++ [] = target ++ j :: q := by rwa [List.append_nil]
                        exact List.cons_ne_nil _ _ (List.append_cancel_left heq).symm
                  | @child _ _ _ _ _ i c q names _ hi hreach =>
                      rw [List.getElem?_map, Option.map_eq_some_iff] at hi
                      obtain ⟨e, he, rfl⟩ := hi
                      have hfound : (foundEntries es)[i]? = some e := by
                        rw [List.getElem?_take] at he
                        split at he
                        · exact he
                        · cases he
                      obtain ⟨a, hacked, hrest⟩ := hhistory i e hfound q names _ _ hreach
                      refine ⟨a, ?_, hrest⟩
                      rw [Nat.zero_add] at hacked
                      rw [hacked]
                      refine congrArg (· ++ [a]) (hother _ fun heq => ?_)
                      have heq : target ++ i :: q = target ++ [] := by rwa [List.append_nil]
                      exact List.cons_ne_nil _ _ (List.append_cancel_left heq)
          · rw [if_neg hdir] at hrun
            cases hrun
            rw [fsTargetCreate_file hdir]
            refine ⟨fun id hid => hother id (hne id hid), ?_⟩
            intro p names finfo events hreach
            cases hreach with
            | root =>
                refine ⟨⟨target, ackEvent _ st _, basenameCut path⟩, ?_, rfl, rfl⟩
                rw [List.append_nil]
                exact hself

end Create

/-! ### Runs -/

/-- The accounts of the service: every visit found a history and tracked it; nothing is booked
for a target there is not; and the history of a target is its acknowledgement and what its
visits appended, a chronicle. -/
structure Booked (s : WatchSt) : Prop where
  visits : ∀ v ∈ s.mem.obs.log, v.Sound
  outside : ∀ k q, s.targets.length ≤ k →
    ackedTo s.mem.acks (k :: q) = [] ∧ appendedTo s.mem.obs.log (k :: q) = []
  history : ∀ k t, s.targets[k]? = some t → ∀ p names finfo events, Reaches t p names finfo events →
    events.items.IsChain Succeeds ∧ ∃ a, ackedTo s.mem.acks (k :: p) = [a] ∧
      a.event.mask = eventAck ∧ events.items = a.event :: appendedTo s.mem.obs.log (k :: p)

section Runs

variable {s s' : WatchSt} {log : List (WatchStep × Unit)}

theorem booked_start : Booked .start := by
  refine ⟨?_, fun _ _ _ => ⟨rfl, rfl⟩, ?_⟩
  · intro v hv
    cases hv
  · intro k t hk
    cases hk

/-- A round carries a chronicle on. -/
theorem chronicle_track {events : Records FsTargetEvent} (r : Round)
    (h : events.items.IsChain Succeeds) :
    (fsTargetEventTrack r events).events.items.IsChain Succeeds := by
  by_cases hne : events.items = []
  · have hsame : (fsTargetEventTrack r events).events = events :=
      fsTargetEventTrack_silent (.inr (.inl hne))
    rwa [hsame]
  · cases fsTargetEventTrack_cases r hne with
    | quiet _ hevents | refused _ hevents => rwa [hevents]
    | recorded _ hlast hsucc hevents =>
        rw [hevents]
        refine h.append (List.isChain_singleton _) ?_
        intro x hx y hy
        obtain rfl := Option.some.inj (hlast.symm.trans hx)
        obtain rfl := Option.some.inj hy
        exact hsucc

/-- A snapshot that is taken books one acknowledgement for every target of its tree. -/
theorem Booked.snapshot {t₀ : FsTarget} (h : Booked s)
    (hacks : Acknowledges s.mem s'.mem [s.targets.length] t₀) (hobs : s'.mem.obs = s.mem.obs)
    (htargets : s'.targets = s.targets ++ [t₀]) : Booked s' := by
  have hother : ∀ k q, k ≠ s.targets.length →
      ackedTo s'.mem.acks (k :: q) = ackedTo s.mem.acks (k :: q) := by
    intro k q hk
    refine hacks.elsewhere _ ?_
    rintro ⟨p, hp⟩
    exact hk (List.cons.inj hp).1.symm
  refine ⟨by rw [hobs]; exact h.visits, ?_, ?_⟩
  · intro k q hk
    rw [htargets, List.length_append, List.length_singleton] at hk
    rw [hother k q (by omega), hobs]
    exact h.outside k q (by omega)
  · intro k t hk p names finfo events hreach
    rw [htargets, List.getElem?_append] at hk
    rw [hobs]
    split at hk
    · next hlt =>
        rw [hother k p (Nat.ne_of_lt hlt)]
        exact h.history k t hk p names finfo events hreach
    · -- the new target
      obtain ⟨rfl, rfl⟩ : k = s.targets.length ∧ t₀ = t := by
        rw [List.getElem?_singleton] at hk
        split at hk
        · exact ⟨by omega, Option.some.inj hk⟩
        · cases hk
      obtain ⟨a, hacked, hmask, hitems⟩ := hacks.history p names finfo events hreach
      obtain ⟨hnone, hvisits⟩ := h.outside s.targets.length p (Nat.le_refl _)
      have hacked : ackedTo s'.mem.acks (s.targets.length :: p) =
          ackedTo s.mem.acks (s.targets.length :: p) ++ [a] := hacked
      rw [hnone] at hacked
      rw [hitems, hvisits]
      exact ⟨List.isChain_singleton _, a, hacked, hmask, rfl⟩

/-- A traversal books what its visits append to the histories of the target observed. -/
theorem Booked.observe {t₀ t' : FsTarget} {visits : List Visit} (h : Booked s)
    (ht₀ : s.targets[s.turn]? = some t₀) (haccounts : Accounts t₀ t' [s.turn] visits)
    (hacks : s'.mem.acks = s.mem.acks) (hobs : s'.mem.obs.log = s.mem.obs.log ++ visits)
    (htargets : s'.targets = s.targets.set s.turn t') : Booked s' := by
  have hother : ∀ k q, k ≠ s.turn → appendedTo visits (k :: q) = [] := by
    intro k q hk
    refine appendedTo_other fun v hv heq => ?_
    obtain ⟨p, _, _, hp, -⟩ := haccounts.visited v hv
    exact hk (List.cons.inj (heq.symm.trans hp)).1
  have hlen : s'.targets.length = s.targets.length := by rw [htargets, List.length_set]
  have hlt : s.turn < s.targets.length := (List.getElem?_eq_some_iff.mp ht₀).1
  refine ⟨?_, ?_, ?_⟩
  · rw [hobs]
    refine List.forall_mem_append.mpr ⟨h.visits, ?_⟩
    intro v hv
    obtain ⟨p, names, finfo, -, hreach⟩ := haccounts.visited v hv
    obtain ⟨-, a, -, -, hitems⟩ := h.history s.turn t₀ ht₀ p names finfo _ hreach
    exact ⟨by rw [hitems]; exact List.cons_ne_nil _ _, haccounts.tracked v hv⟩
  · intro k q hk
    rw [hlen] at hk
    obtain ⟨hnone, hvisits⟩ := h.outside k q hk
    rw [hacks, hobs, appendedTo_append, hother k q (by omega), List.append_nil]
    exact ⟨hnone, hvisits⟩
  · intro k t hk p names finfo events hreach
    rw [htargets, List.getElem?_set] at hk
    rw [hacks, hobs, appendedTo_append]
    split at hk
    · -- the target of this round
      subst k
      obtain rfl : t' = t := by simpa [hlt] using hk
      obtain ⟨events₀, hevents, hitems, hround⟩ := haccounts.history p names finfo events hreach
      obtain ⟨hchain, a, hacked, hmask, hbefore⟩ :=
        h.history s.turn t₀ ht₀ p names finfo events₀ hevents
      refine ⟨?_, a, hacked, hmask, ?_⟩
      · rcases hround with rfl | ⟨r, rfl⟩
        · exact hchain
        · exact chronicle_track r hchain
      · rw [hitems, hbefore]
        rfl
    · next hne =>
        rw [hother k p (Ne.symm hne), List.append_nil]
        exact h.history k t hk p names finfo events hreach

/-- **Step lemma**: the accounts balance after every step. -/
theorem Booked.step {i : WatchStep} (h : Booked s) (hstep : watchStep s i = some ((), s')) :
    Booked s' := by
  cases i with
  | snapshot clock path n =>
      obtain ⟨hcreate, htargets⟩ := of_snapshot_step hstep
      have hobs : s'.mem.obs = s.mem.obs :=
        run_invariant (I := fun m => m.obs = s.mem.obs) rfl
          (fun _ _ _ hsame hc => (obs_of_create hc).trans hsame) hcreate
      by_cases hnull : (fsTargetCreate clock path n).NotNull
      · rw [if_pos hnull] at htargets
        have hacks := acknowledges_create (Function.update_self _ _ _) hcreate
        exact h.snapshot ⟨hacks.elsewhere, hacks.history⟩ hobs htargets
      · rw [if_neg hnull] at htargets
        have hacks : s'.mem.acks = s.mem.acks := by rw [mem_of_missing hstep hnull]; rfl
        refine ⟨by rw [hobs]; exact h.visits, ?_, ?_⟩
        · rw [htargets, hacks, hobs]
          exact h.outside
        · rw [htargets, hacks, hobs]
          exact h.history
  | observe env =>
      obtain ⟨t₀, t', b, st, ht₀, hobserve, -, htargets, hmem⟩ := of_observe_step hstep
      obtain ⟨visits, hlog, haccounts⟩ := accounts_of_observe hobserve
      exact h.observe ht₀ haccounts (by rw [hmem]) (by rw [hmem]; exact hlog) htargets

/-- In every state the service comes to, the accounts balance. -/
theorem histories_booked (h : watchMachine.Run .start log s) : Booked s :=
  h.invariant (I := Booked) (H := fun _ => True)
    (fun hbooked _ _ hstep => hbooked.step hstep) booked_start fun _ _ => trivial

/-- **What is recorded is reported**: in every state the service comes to, the history of a
target is its one acknowledgement, and then the events its visits printed, each once and in
their order. Only a visit that was refused the memory for an event is left out: it printed an
event again that the target had already. -/
theorem histories_reported (h : watchMachine.Run .start log s) {k : ℕ} {t : FsTarget}
    {p : List ℕ} {names : List CStr} {finfo : Finfo} {events : Records FsTargetEvent}
    (hk : s.targets[k]? = some t) (hreach : Reaches t p names finfo events) :
    (∃ a, ackedTo s.mem.acks (k :: p) = [a] ∧ events.items = a.event ::
      ((s.mem.obs.log.filter fun v => v.node = k :: p).filter fun v => ¬ v.Refused).flatMap
        Visit.reported) ∧
    ∀ v ∈ s.mem.obs.log, v.Refused → v.reported = v.events.items.getLast?.toList := by
  have hbooked := histories_booked h
  obtain ⟨-, a, hacked, -, hitems⟩ := hbooked.history k t hk p names finfo events hreach
  refine ⟨⟨a, hacked, ?_⟩, fun v hv hrefused => ((hbooked.visits v hv).refused hrefused).2⟩
  -- visit by visit, what is appended is what is printed
  have hsame : ∀ visits : List Visit, (∀ v ∈ visits, v.Sound) →
      visits.flatMap Visit.appended =
        (visits.filter fun v => ¬ v.Refused).flatMap Visit.reported := by
    intro visits hsound
    induction visits with
    | nil => rfl
    | cons v visits ih =>
        rw [List.forall_mem_cons] at hsound
        rw [List.flatMap_cons, ih hsound.2]
        by_cases hrefused : v.Refused
        · rw [(hsound.1.refused hrefused).1, List.nil_append,
            List.filter_cons_of_neg (by simpa using hrefused)]
        · rw [← hsound.1.reported hrefused, List.filter_cons_of_pos (by simpa using hrefused),
            List.flatMap_cons]
  rw [hitems, appendedTo, hsame]
  exact fun v hv => hbooked.visits v (List.mem_of_mem_filter hv)

end Runs

/-! ### The names of the events -/

/-- `EVENT_ACCESS`. -/
def eventAccess : Int32 := (1 : Int32) <<< 2

/-- `EVENT_CREATE`. -/
def eventCreate : Int32 := (1 : Int32) <<< 3

/-- The names of events that are printed. -/
inductive EventName
  | ack
  | access
  | create
  | delete
  | modify
  | open
  | fail
  | unknown
  deriving DecidableEq, Repr

/-- The name `print_fs_target_event` prints for a mask. -/
def eventName (mask : Int32) : EventName :=
  if mask = eventAck then .ack
  else if mask = eventAccess then .access
  else if mask = eventCreate then .create
  else if mask = eventDelete then .delete
  else if mask = eventModify then .modify
  else if mask = eventOpen then .open
  else if mask = eventFail then .fail
  else .unknown

/-- What `print_fs_target_event` prints, with the string its path leads to. -/
structure EventLine where
  path : Option CStr
  id : UInt64
  timestamp : UInt64
  name : EventName
  mtime : Int64
  deriving DecidableEq, Repr

/-- `print_fs_target_event`. -/
def printFsTargetEvent (path : Option CStr) (event : FsTargetEvent) : EventLine :=
  { path := path, id := fuidCreate event.st, timestamp := event.timestamp
    name := eventName event.mask, mtime := event.st.mtime }

section Names

variable {previous e : FsTargetEvent}

/-- An event that follows another one is a change of a file that is there, or the line says
that it is not, with the identity and the time zero. -/
theorem Succeeds.line (h : Succeeds previous e) (path : Option CStr) :
    e.path = .curPath ∧
      ((printFsTargetEvent path e).name ∈ [.modify, .open] ∧ ¬ e.st.Agrees previous.st ∨
        (printFsTargetEvent path e).name ∈ [.delete, .fail] ∧
          (printFsTargetEvent path e).id = 0 ∧ (printFsTargetEvent path e).mtime = 0) := by
  refine ⟨by cases h <;> rfl, ?_⟩
  cases h with
  | @change now st hdiffers =>
      refine .inl ⟨?_, hdiffers⟩
      simp only [printFsTargetEvent, changeEvent, changeMask]
      split
      · exact List.mem_cons_of_mem _ (List.mem_singleton_self _)
      · exact List.mem_cons_self
  | @failure now e =>
      refine .inr ⟨?_, by simp [printFsTargetEvent, failureEvent, fuidCreate, Stat.zeroed], rfl⟩
      cases e with
      | eacces => exact List.mem_cons_of_mem _ (List.mem_singleton_self _)
      | enoent | other => exact List.mem_cons_self

/-- Every link of a chain but the first follows another one. -/
theorem exists_rel_of_isChain {α : Type*} {R : α → α → Prop} {a x : α} {l : List α}
    (h : (a :: l).IsChain R) (hx : x ∈ l) : ∃ y ∈ a :: l, R y x := by
  induction l generalizing a with
  | nil => cases hx
  | cons b l ih =>
      obtain ⟨hab, hrest⟩ := List.isChain_cons_cons.mp h
      rcases List.mem_cons.mp hx with rfl | hx
      · exact ⟨a, List.mem_cons_self, hab⟩
      · obtain ⟨y, hy, hyx⟩ := ih hrest hx
        exact ⟨y, List.mem_cons_of_mem _ hy, hyx⟩

/-- **Every history is a chronicle**: in every state the service comes to, it is one
acknowledgement, and then events each of which follows the one before it. So no target is
without an event, and no line of the observer calls an event `ACCESS`, `CREATE` or
`UNKNOWN`. -/
theorem histories_chronicle {log : List (WatchStep × Unit)} {s : WatchSt}
    (h : watchMachine.Run .start log s) {k : ℕ} {t : FsTarget} {p : List ℕ} {names : List CStr}
    {finfo : Finfo} {events : Records FsTargetEvent} (hk : s.targets[k]? = some t)
    (hreach : Reaches t p names finfo events) :
    ∃ ack rest, events.items = ack :: rest ∧ (ack :: rest).IsChain Succeeds ∧
      eventName ack.mask = .ack ∧
      ∀ e ∈ rest, e.path = .curPath ∧ eventName e.mask ∈ [.modify, .open, .delete, .fail] := by
  obtain ⟨hchain, a, -, hmask, hitems⟩ :=
    (histories_booked h).history k t hk p names finfo events hreach
  rw [hitems] at hchain
  refine ⟨a.event, _, hitems, hchain, by rw [hmask]; rfl, fun e he => ?_⟩
  obtain ⟨previous, -, hsucc⟩ := exists_rel_of_isChain hchain he
  have hnames : [EventName.modify, .open, .delete, .fail] =
      [.modify, .open] ++ [.delete, .fail] := rfl
  obtain ⟨hpath, hname⟩ := hsucc.line none
  rw [hnames, List.mem_append]
  exact ⟨hpath, hname.imp And.left And.left⟩

end Names

/-! ### A file that is missing -/

/-- A file was there for the snapshot and missing in two rounds: its history is the
acknowledgement and the two events that were printed. -/
theorem histories_reported_file : ∃ s events, missingRounds 2 = some s ∧
    s.targets = [.live ⟨0, .normal, [dash], true⟩ events none] ∧ events.items.length = 3 ∧
    ∃ a, ackedTo s.mem.acks [0] = [a] ∧ events.items = a.event ::
      ((s.mem.obs.log.filter fun v => v.node = [0]).filter fun v => ¬ v.Refused).flatMap
        Visit.reported := by
  refine ⟨_, _, rfl, rfl, rfl, ?_⟩
  obtain ⟨log, hrun⟩ := run_missingRounds (n := 2) rfl
  exact (histories_reported hrun (k := 0) rfl .root).1

/-- Each of its events follows the one before it. -/
theorem histories_chronicle_file : ∃ s events, missingRounds 2 = some s ∧
    s.targets = [.live ⟨0, .normal, [dash], true⟩ events none] ∧
    ∃ ack rest, events.items = ack :: rest ∧ rest.length = 2 ∧ (ack :: rest).IsChain Succeeds ∧
      eventName ack.mask = .ack ∧
      ∀ e ∈ rest, e.path = .curPath ∧ eventName e.mask ∈ [.modify, .open, .delete, .fail] := by
  refine ⟨_, _, rfl, rfl, ?_⟩
  obtain ⟨log, hrun⟩ := run_missingRounds (n := 2) rfl
  obtain ⟨ack, rest, hitems, hchain⟩ := histories_chronicle hrun (k := 0) rfl .root
  exact ⟨ack, rest, hitems, congrArg (fun l => l.length - 1) hitems.symm, hchain⟩

end Backd
