import Backd.ArrayPool

/-!
# Buffers over Whole Runs

Who frees what. In a program whose arrays get their buffers from the allocator, or borrow
them, a buffer belongs to one array at a time: no two live owners have the same, and what no
live owner has any more is not touched again. In particular no buffer is freed twice, and none
is reallocated after it was freed.

Two kinds of calls are excluded (`Careful`). `array_seize_buffer`, since its callers decide
what they hand over; and a call that asks `realloc` for zero bytes. This releases the block and
leaves its owner with a stale pointer, which `array_kill` then frees once more
(`released_kill_faults`). `array_slimcheck` asks so on an unsettled array without elements and
with a capacity of two bytes or more, and `array_adjust` where the byte count is rounded up to
zero, within a word of the top of `size_t`.

## Main results

* `Tidy.step`: one call keeps the owners apart, each with its block, and `Tidy.concerns`: it
  concerns only what an owner has or what it was granted itself.
* `step_frees`: a call frees at most one buffer, as the last thing it does, and then no array
  has it.
* `careful_buffers_freed_once`: over whole runs, with any allocator.
-/

namespace Backd

open Runs

/-! ### One array -/

/-- A non-owner is settled; an owner has a block of one of the first `n` allocator calls. -/
structure ArrayT.Sane (b : ArrayT) (n : ℕ) : Prop where
  borrowed : b.isOwnBuffer = false → b.settled = true
  granted : b.isOwnBuffer = true → ∃ k < n, b.ptr = .heap k

/-- The events free nothing. -/
def FreesNone (events : List Event) : Prop := ∀ e ∈ events, ∀ x, e ≠ .free x

/-- No `realloc` is asked for zero bytes, which would release the block. -/
def AsksSome (events : List Event) : Prop := ∀ x, .realloc x 0 ∉ events

/-- The invariant of every operation but `array_kill`. -/
structure Tended (s : ArrSt) : Prop where
  header : ∃ b, s.arr = some b ∧ b.Sane s.calls
  freesNone : FreesNone s.trace
  held : AsksSome s.trace → ∀ b, s.arr = some b → b.block.isSome = true

section Tended

variable {a b : ArrayT} {c : ℕ} {t : List Event}

theorem ArrayT.Sane.mono {n : ℕ} (h : b.Sane c) (hn : c ≤ n) : b.Sane n where
  borrowed := h.borrowed
  granted hown :=
    let ⟨k, hk, hptr⟩ := h.granted hown
    ⟨k, Nat.lt_of_lt_of_le hk hn, hptr⟩

theorem tended_start (h : a.Sane c) (hheld : a.block.isSome = true) :
    Tended ⟨some a, c, []⟩ := by
  refine ⟨⟨a, rfl, h⟩, by simp [FreesNone], fun _ b hb => ?_⟩
  cases hb
  exact hheld

theorem AsksSome.of_append {t t' : List Event} (h : AsksSome (t ++ t')) :
    AsksSome t ∧ AsksSome t' :=
  ⟨fun x hx => h x (List.mem_append_left _ hx), fun x hx => h x (List.mem_append_right _ hx)⟩

theorem Tended.sane (h : Tended ⟨some b, c, t⟩) : b.Sane c := by
  obtain ⟨b', hb', hsane⟩ := h.header
  obtain rfl : b = b' := Option.some.inj hb'
  exact hsane

/-- One more event that frees nothing, with a header that has its block unless the event
released it. -/
theorem Tended.record {n : ℕ} {e : Event} (h : Tended ⟨some a, c, t⟩) (hb : b.Sane n)
    (hfree : ∀ x, e ≠ .free x)
    (hheld : a.block.isSome = true → AsksSome [e] → b.block.isSome = true) :
    Tended ⟨some b, n, t ++ [e]⟩ := by
  refine ⟨⟨b, rfl, hb⟩, fun d hd => ?_, fun hasks b' hb' => ?_⟩
  · rcases List.mem_append.mp hd with hd | hd
    · exact h.freesNone d hd
    · rw [List.mem_singleton.mp hd]
      exact hfree
  · cases hb'
    obtain ⟨hfront, hlast⟩ := hasks.of_append
    exact hheld (h.held hfront a rfl) hlast

theorem quiet_tended : Quiet Tended where
  calls := fun s h => by
    obtain ⟨b, hb, hsane⟩ := h.header
    exact ⟨⟨b, hb, hsane.mono (Nat.le_succ _)⟩, h.freesNone, h.held⟩
  contents := fun s b n block h hb hblock => by
    obtain ⟨b', hb', hsane⟩ := h.header
    obtain rfl : b = b' := Option.some.inj (hb.symm.trans hb')
    refine ⟨⟨_, rfl, hsane.borrowed, hsane.granted⟩, h.freesNone, fun hasks d hd => ?_⟩
    cases hd
    exact hblock.trans (h.held hasks b hb)
  events := fun s e h he => by
    obtain ⟨arr, c, t⟩ := s
    obtain ⟨b, rfl, hsane⟩ := h.header
    refine h.record hsane ?_ fun hheld _ => hheld
    rintro x rfl
    exact he

/-- A reallocation, and what `array_adjust` and `array_slimcheck` do with its result. -/
def regrow (n : ℕ) : ArrM Bool := do
  match ← memoryRealloc n with
  | none => return false
  | some (p, bytes) =>
    store fun self => { self with ptr := p, block := some bytes, cap := n }
    return true

/-- An unsettled array is an owner, and gets a block of this call. -/
theorem Tended.regrow {A : Allocator} {n : ℕ} {r : Bool} {s' : ArrSt}
    (h : Tended ⟨some b, c, t⟩) (hset : b.settled = false)
    (hrun : Backd.regrow n A ⟨some b, c, t⟩ = .ok (r, s')) : Tended s' := by
  have hown : b.isOwnBuffer = true := by
    by_contra hno
    exact absurd (h.sane.borrowed (by simpa using hno)) (by simp [hset])
  cases hblock : b.block with
  | none => simp [Backd.regrow, memoryRealloc, bind_run, Backd.header, emit, hblock, fault] at hrun
  | some bs =>
      by_cases hn : n = 0
      · simp only [Backd.regrow, memoryRealloc, bind_run, Backd.header, emit, hblock, hn, if_true,
          store] at hrun
        cases hrun
        refine h.record ⟨h.sane.borrowed, h.sane.granted⟩ (by simp) fun _ hasks => ?_
        exact absurd (List.mem_singleton.mpr (hn ▸ rfl)) (hasks b.ptr)
      · by_cases hserves : A.serves c n = true
        · simp only [Backd.regrow, memoryRealloc, bind_run, Backd.header, emit, hblock, hn,
            if_false, resize, hserves, if_true, store] at hrun
          cases hrun
          refine h.record ⟨fun hno => ?_, fun _ => ⟨c, Nat.lt_succ_self c, rfl⟩⟩ (by simp)
            fun _ _ => rfl
          exact absurd (hown.symm.trans hno) (by simp)
        · simp only [Backd.regrow, memoryRealloc, bind_run, Backd.header, emit, hblock, hn,
            if_false, resize, hserves] at hrun
          cases hrun
          exact h.record (h.sane.mono (Nat.le_succ _)) (by simp) fun hheld _ => hheld

theorem arrayAdjust_tended (n : ℕ) : Keeps Tended (arrayAdjust n) fun _ => True := by
  intro A s r s' h hrun
  obtain ⟨arr, c, t⟩ := s
  obtain ⟨b, rfl, -⟩ := h.header
  obtain ⟨-, hrun⟩ := of_guard_ok hrun
  obtain ⟨-, hrun⟩ := of_guard_ok hrun
  obtain ⟨-, hrun⟩ := of_guard_ok hrun
  cases hg : growth b.cap b.settled (szMul (szAdd n b.nmemb) b.eltSize) with
  | fits | refuse =>
      rw [hg] at hrun
      cases hrun
      exact ⟨h, trivial⟩
  | realloc m =>
      rw [hg] at hrun
      have hset : b.settled = false := by
        cases hset : b.settled with
        | false => rfl
        | true => exact absurd (hset ▸ hg) growth_settled
      exact ⟨h.regrow hset hrun, trivial⟩

theorem arraySlimcheck_tended : Keeps Tended arraySlimcheck fun _ => True := by
  intro A s r s' h hrun
  obtain ⟨arr, c, t⟩ := s
  obtain ⟨b, rfl, -⟩ := h.header
  have hrun : (if b.settled then pure false
      else if b.cap ≠ 0 then
        if b.sizeof < b.cap / 2 then Backd.regrow b.sizeof else pure true
      else pure true) A ⟨some b, c, t⟩ = .ok (r, s') := by
    rw [← hrun]
    by_cases hset : b.settled = true
    · simp [arraySlimcheck, bind_run, Backd.header, hset]
    by_cases hcap : b.cap ≠ 0
    · by_cases hsize : b.sizeof < b.cap / 2
      · simp only [arraySlimcheck, bind_run, Backd.header, hset, hsize]
        rfl
      · simp [arraySlimcheck, bind_run, Backd.header, hset, hcap, hsize]
    · have hzero : b.cap = 0 := by simpa using hcap
      simp [arraySlimcheck, bind_run, Backd.header, hset, hzero]
  split at hrun
  · cases hrun
    exact ⟨h, trivial⟩
  · next hset =>
      split at hrun
      · split at hrun
        · exact ⟨h.regrow (by simpa using hset) hrun, trivial⟩
        · cases hrun
          exact ⟨h, trivial⟩
      · cases hrun
        exact ⟨h, trivial⟩

/-- Every operation but `array_kill` keeps the invariant. -/
theorem Op.run_tended (op : Op) : Keeps Tended op.run fun _ => True := by
  have hq : Quiet Tended := quiet_tended
  have hgrow := arrayAdjust_tended
  cases op with
  | adjust n => exact (hgrow n).map _
  | push e => exact (hq.arrayPush hgrow e).map _
  | pushf e => exact (hq.arrayInsert hgrow 0 e).map _
  | insert p e => exact (hq.arrayInsert hgrow p e).map _
  | inject p src n => exact (hq.arrayInject hgrow p src n).map _
  | append src n => exact (hq.arrayAppend hgrow src n).map _
  | appendFromCapacity n => exact (hq.arrayAppendFromCapacity n).map _
  | tipex off src n => exact hq.arrayTipex off src n
  | pop into => exact (hq.arrayPop into).map _
  | popf into => exact (hq.arrayPopf into).map _
  | evict p => exact hq.arrayEvict p
  | clear => exact hq.arrayClear
  | wipe start stop => exact hq.arrayWipe start stop
  | swapElems i j => exact hq.arraySwapElems i j
  | extract start stop => exact (hq.arrayExtract start stop).map _
  | slimcheck => exact arraySlimcheck_tended.map _
  | settle =>
      refine Keeps.store fun s b h hb => ?_
      obtain ⟨b', hb', hsane⟩ := h.header
      obtain rfl : b = b' := Option.some.inj (hb.symm.trans hb')
      refine ⟨⟨_, rfl, fun _ => rfl, hsane.granted⟩, h.freesNone, fun hasks d hd => ?_⟩
      cases hd
      exact h.held hasks b hb
  | unsettle =>
      intro A s r s' h hrun
      obtain ⟨arr, c, t⟩ := s
      obtain ⟨b, rfl, hsane⟩ := h.header
      obtain ⟨hown, hrun⟩ := of_guard_ok (s := ⟨some b, c, t⟩) (f := fun _ => store _) hrun
      cases hrun
      have hown : b.isOwnBuffer = true := by simpa using hown
      refine ⟨⟨⟨_, rfl, fun hno => ?_, hsane.granted⟩, h.freesNone, fun hasks d hd => ?_⟩, trivial⟩
      · exact absurd (hown.symm.trans hno) (by simp)
      · cases hd
        exact h.held hasks b rfl
  | size | sizeof | cap | unsafeAccess p | isSettled =>
      exact (reads_header.then fun _ => reads_pure _).keeps.map _
  | access p | head => exact (reads_header.then fun a => reads_arrayAt a _).keeps.map _
  | tail => exact hq.arrayTail.map _
  | uninitializedSize => exact hq.arrayUninitializedSize.map _
  | uninitializedData =>
      exact (reads_header.then fun _ => (reads_notifyBugOn _).then fun _ =>
        reads_header.then fun _ => reads_pure _).keeps.map _

/-- What an operation or a constructor leaves: if it frees a buffer, that is the last thing it
does, and there is no array then. -/
structure Ended (s : ArrSt) : Prop where
  header : ∀ b, s.arr = some b → b.Sane s.calls
  frees : ∃ t, FreesNone t ∧ (s.trace = t ∨
    s.arr = none ∧ ∃ k < s.calls, s.trace = t ++ [.free (.heap k)])
  held : AsksSome s.trace → ∀ b, s.arr = some b → b.block.isSome = true

theorem Tended.ended {s : ArrSt} (h : Tended s) : Ended s := by
  obtain ⟨arr, c, t⟩ := s
  obtain ⟨b, rfl, hsane⟩ := h.header
  refine ⟨?_, ⟨t, h.freesNone, .inl rfl⟩, h.held⟩
  rintro b' ⟨⟩
  exact hsane

/-- `array_kill` frees the buffer of an owner, and that only. -/
theorem arrayKill_ended {A : Allocator} {s s' : ArrSt} (h : Tended s)
    (hrun : arrayKill A s = .ok ((), s')) : Ended s' := by
  obtain ⟨_, s₁, hclear, hrun⟩ := of_bind_ok hrun
  have h₁ := (quiet_tended.arrayClear A s _ s₁ h hclear).1
  obtain ⟨arr, c, t⟩ := s₁
  obtain ⟨b, rfl, hsane⟩ := h₁.header
  by_cases hown : b.isOwnBuffer = true
  · obtain ⟨k, hk, hptr⟩ := hsane.granted hown
    obtain ⟨_, s₂, hfree, hrun⟩ := of_bind_ok (m := runIf (b.isOwnBuffer = true) memoryFree) hrun
    have hgone : s' = ⟨none, c, t ++ [.free b.ptr]⟩ := by
      cases hblock : b.block with
      | none =>
          simp [bind_run, Backd.header, runIf, hown, memoryFree, emit, hblock, fault] at hfree
      | some bs =>
          simp only [bind_run, Backd.header, runIf, hown, memoryFree, emit, hblock, store,
            if_true] at hfree
          cases hfree
          cases hrun
          rfl
    subst hgone
    exact ⟨by simp, ⟨t, h₁.freesNone, .inr ⟨rfl, k, hk, by rw [hptr]⟩⟩, by simp⟩
  · have hrun : (Except.ok ((), (⟨none, c, t⟩ : ArrSt)) : Except Stop _) = .ok ((), s') := by
      rw [← hrun]
      simp [bind_run, Backd.header, runIf, hown, freeHeader]
    cases hrun
    exact ⟨by simp, ⟨t, h₁.freesNone, .inl rfl⟩, by simp⟩

/-- An owner whose block is gone cannot be killed: its stale pointer would be freed again. -/
theorem released_kill_faults {A : Allocator} {s s' : ArrSt}
    (h : ∃ b, s.arr = some b ∧ b.isOwnBuffer = true ∧ b.block = none) :
    arrayKill A s ≠ .ok ((), s') := by
  intro hrun
  have hquiet : Quiet fun s => ∃ b, s.arr = some b ∧ b.isOwnBuffer = true ∧ b.block = none :=
    { calls := fun _ h => h
      contents := fun s b n block h hb hblock => by
        obtain ⟨b', hb', hown, hnone⟩ := h
        obtain rfl : b = b' := Option.some.inj (hb.symm.trans hb')
        exact ⟨_, rfl, hown, by simpa [hnone] using hblock⟩
      events := fun _ _ h _ => h }
  obtain ⟨_, s₁, hclear, hrun⟩ := of_bind_ok hrun
  obtain ⟨b, hb, hown, hnone⟩ := (hquiet.arrayClear A s _ s₁ h hclear).1
  obtain ⟨arr, c, t⟩ := s₁
  obtain rfl : arr = some b := hb
  simp [bind_run, Backd.header, runIf, hown, memoryFree, Backd.emit, hnone, fault] at hrun

/-! ### The constructors -/

/-- Nothing was made. -/
theorem ended_none (c : ℕ) : Ended ⟨none, c, []⟩ :=
  ⟨by simp, ⟨[], by simp [FreesNone], .inl rfl⟩, by simp⟩

theorem Construction.fill_tended {con : Construction} :
    Keeps Tended con.fill fun _ => True := by
  have hq : Quiet Tended := quiet_tended
  cases con with
  | create eltSize n free => exact Keeps.pure trivial
  | dup src => exact hq.arrayConcat arrayAdjust_tended _
  | filter src callback => exact hq.filterLoop arrayAdjust_tended src callback _ _

/-- A constructor that fails behind `array_create` kills the array. -/
theorem Construction.run_ended {A : Allocator} {s : ArrSt} {r : Handle} (con : Construction)
    (hrun : con.run A ⟨none, c, []⟩ = .ok (r, s)) : Ended s := by
  rw [Construction.run_eq] at hrun
  obtain ⟨h, s₁, hcreate, hrun⟩ := of_bind_ok hrun
  have hcases := (arrayCreate_run (by rw [hcreate]; simp)).2
  rw [hcreate] at hcases
  split at hcases
  · cases hcases
    cases hrun
    exact ended_none _
  split at hcases
  · cases hcases
    have hfill : fillOrKill con.fill A ⟨none, c + 2, []⟩ = .ok (r, s) := hrun
    rcases con.fill_released (A := A) (k := c + 2) (t := []) with ⟨e, he⟩ | hok
    · rw [fillOrKill, bind_run, he] at hfill
      cases hfill
    · rw [fillOrKill, bind_ok hok] at hfill
      cases hfill
      exact ended_none _
  · cases hcases
    obtain ⟨ok, s₂, hfill, hrun⟩ := of_bind_ok hrun
    have hsane : (createdArray A c con.eltSize con.count con.free).Sane (c + 2) :=
      ⟨fun hno => absurd hno (by simp [createdArray]), fun _ => ⟨c + 1, Nat.lt_succ_self _, rfl⟩⟩
    have h₂ := (con.fill_tended A _ _ s₂ (tended_start hsane rfl) hfill).1
    cases ok with
    | true =>
        cases hrun
        exact h₂.ended
    | false =>
        obtain ⟨_, s₃, hkill, hrun⟩ := of_bind_ok (m := arrayKill) hrun
        cases hrun
        exact arrayKill_ended h₂ hkill

theorem arrayPull_ended {A : Allocator} {s : ArrSt} {r : Handle} {src : ArrayT} {start stop : ℤ}
    (hrun : arrayPull src start stop A ⟨none, c, []⟩ = .ok (r, s)) : Ended s := by
  obtain ⟨-, hrun⟩ := of_guard_ok hrun
  obtain ⟨-, hrun⟩ := of_guard_ok hrun
  obtain ⟨⟨ok, h⟩, s₁, hinit, hrun⟩ := of_bind_ok hrun
  rw [arrayInit_run] at hinit
  split at hinit
  · cases hinit
    cases hrun
    exact ended_none _
  split at hinit
  · cases hinit
    cases hrun
    exact ended_none _
  · cases hinit
    obtain ⟨_, s₂, hstore, hrun⟩ := of_bind_ok (m := store _) hrun
    cases hstore
    obtain ⟨_, s₃, hcopy, hrun⟩ := of_bind_ok hrun
    cases hrun
    refine ((quiet_tended.pullCopy _ _ _ _ _) A _ _ _ (tended_start ?_ rfl) hcopy).1.ended
    exact ⟨fun _ => rfl, fun _ => ⟨c + 1, Nat.lt_succ_self _, rfl⟩⟩

theorem arrayBorrow_ended {A : Allocator} {s : ArrSt} {r : Handle} {buffer : Addr}
    {bytes : Bytes} {bufsize eltSize n : ℕ} {free : Bool}
    (hrun : arrayBorrowBuffer buffer bytes bufsize eltSize n free A ⟨none, c, []⟩ = .ok (r, s)) :
    Ended s := by
  obtain ⟨-, htrace, hmade⟩ := arrayOverBuffer_made hrun
  refine ⟨fun b hb => ?_, ⟨[], by simp [FreesNone], .inl htrace⟩, fun _ b hb => ?_⟩
  · obtain ⟨hown, hset, -⟩ := hmade b hb
    exact ⟨fun _ => hset, fun h => absurd (hown.symm.trans h) (by simp)⟩
  · obtain ⟨-, -, -, -, hblock⟩ := hmade b hb
    simp [hblock]

end Tended

/-! ### The pool -/

/-- The buffer is that of a live owner. -/
def Pool.Holds (p : Pool) (x : Addr) : Prop :=
  ∃ id b, p.live id = some b ∧ b.isOwnBuffer = true ∧ b.ptr = x

/-- Every array is sane and has its block, and no two owners have the same buffer. -/
structure Tidy (p : Pool) : Prop where
  sane : ∀ id b, p.live id = some b → b.Sane p.calls
  held : ∀ id b, p.live id = some b → b.block.isSome = true
  apart : ∀ id id' b b', p.live id = some b → p.live id' = some b' → b.isOwnBuffer = true →
    b'.isOwnBuffer = true → b.ptr = b'.ptr → id = id'

section Steps

variable {A : Allocator} {p q : Pool} {id v : ℕ} {op : PoolOp} {eff : Effect}

/-- What a step leaves, whatever it works on. -/
structure Leaves (q : Pool) (id : ℕ) (events : List Event) : Prop where
  header : ∀ b, q.live id = some b → b.Sane q.calls
  frees : ∃ t, FreesNone t ∧ (events = t ∨
    q.live id = none ∧ ∃ k < q.calls, events = t ++ [.free (.heap k)])
  held : AsksSome events → ∀ b, q.live id = some b → b.block.isSome = true

theorem onHeader_leaves {m : ArrM Unit} (h : p.onHeader A id m = some (eff, q))
    (hm : ∀ a s, p.live id = some a → m A ⟨some a, p.calls, []⟩ = .ok ((), s) → Ended s) :
    eff.target = some id ∧ Leaves q id eff.events := by
  obtain ⟨a, s, ha, hrun, rfl, hcalls, hlive, -, -⟩ := onHeader_cases h
  obtain ⟨hheader, hfrees, hheld⟩ := hm a s ha hrun
  refine ⟨rfl, ?_, ?_, ?_⟩
  · rwa [hlive, hcalls]
  · rwa [hlive, hcalls]
  · rwa [hlive]

theorem construct_leaves {m : ArrM Handle} (h : p.construct A v m = some (eff, q))
    (hm : ∀ r s, m A ⟨none, p.calls, []⟩ = .ok (r, s) → Ended s) :
    Leaves q p.headers.length eff.events := by
  unfold Pool.construct at h
  cases hrun : m A ⟨none, p.calls, []⟩ with
  | error e =>
      rw [hrun] at h
      cases h
  | ok r =>
      obtain ⟨r, s⟩ := r
      obtain ⟨hheader, ⟨t, ht, hfrees⟩, hheld⟩ := hm r s hrun
      rw [hrun] at h
      cases r with
      | null =>
          cases h
          refine ⟨fun b hb => ?_, ⟨t, ht, hfrees.imp_right fun h => ⟨?_, h.2⟩⟩, fun _ b hb => ?_⟩
          · have hb : p.live p.headers.length = some b := hb
            rw [live_length] at hb
            cases hb
          · exact live_length
          · have hb : p.live p.headers.length = some b := hb
            rw [live_length] at hb
            cases hb
      | header =>
          cases h
          have hlive : (({ p with headers := p.headers ++ [s.arr], calls := s.calls } : Pool).assign
              v (some p.headers.length)).live p.headers.length = s.arr := by
            simp [Pool.live, Pool.assign]
          refine ⟨?_, ⟨t, ht, ?_⟩, ?_⟩
          · rwa [hlive]
          · rwa [hlive]
          · rwa [hlive]

/-- A call works on one array, or may make one. -/
theorem step_leaves (h : p.step A op = some (eff, q)) (hp : Tidy p)
    (hop : ∀ x, ¬ op.Seizes x) :
    (∃ id a, Operates p op eff q id a ∧ Leaves q id eff.events) ∨
      Creates p op eff q ∧ Leaves q p.headers.length eff.events := by
  have hworks : ∀ {id m}, op.Works → p.onHeader A id m = some (eff, q) →
      (∀ a s, p.live id = some a → m A ⟨some a, p.calls, []⟩ = .ok ((), s) → Ended s) →
      (∃ id a, Operates p op eff q id a ∧ Leaves q id eff.events) ∨
        Creates p op eff q ∧ Leaves q p.headers.length eff.events := by
    intro id m hworks ho hm
    obtain ⟨htarget, hleaves⟩ := onHeader_leaves ho hm
    obtain ⟨id', a, hoperates⟩ := (step_cases h).resolve_right fun hc => hc.not_works hworks
    obtain rfl : id' = id := Option.some.inj (hoperates.target.symm.trans htarget)
    exact .inl ⟨id', a, hoperates, hleaves⟩
  have hmakes : ∀ {v m}, ¬ op.Works → p.construct A v m = some (eff, q) →
      (∀ r s, m A ⟨none, p.calls, []⟩ = .ok (r, s) → Ended s) →
      (∃ id a, Operates p op eff q id a ∧ Leaves q id eff.events) ∨
        Creates p op eff q ∧ Leaves q p.headers.length eff.events := fun hworks hc hm =>
    .inr ⟨(step_cases h).resolve_left fun ⟨_, _, ho⟩ => hworks ho.works, construct_leaves hc hm⟩
  cases op with
  | create v eltSize n free =>
      exact hmakes id h fun r s hrun => Construction.run_ended (.create eltSize n free) hrun
  | seize v buffer bytes bufsize eltSize n free => exact absurd rfl (hop buffer)
  | borrow v buffer bytes bufsize eltSize n free =>
      exact hmakes id h fun r s hrun => arrayBorrow_ended hrun
  | dup v w =>
      obtain ⟨j, -, h⟩ := Option.bind_eq_some_iff.mp h
      obtain ⟨a, -, h⟩ := Option.bind_eq_some_iff.mp h
      exact hmakes id h fun r s hrun => Construction.run_ended (.dup a) hrun
  | filter v w callback =>
      obtain ⟨j, -, h⟩ := Option.bind_eq_some_iff.mp h
      obtain ⟨a, -, h⟩ := Option.bind_eq_some_iff.mp h
      exact hmakes id h fun r s hrun => Construction.run_ended (.filter a callback) hrun
  | pull v w start stop =>
      obtain ⟨j, -, h⟩ := Option.bind_eq_some_iff.mp h
      obtain ⟨a, -, h⟩ := Option.bind_eq_some_iff.mp h
      exact hmakes id h fun r s hrun => arrayPull_ended hrun
  | swap v w =>
      refine .inr ⟨(step_cases h).resolve_left fun ⟨_, _, ho⟩ => ho.works, ?_⟩
      cases h
      have hnone : ∀ b, p.live p.headers.length ≠ some b := by simp [live_length]
      exact ⟨fun b hb => absurd hb (hnone b), ⟨[], by simp [FreesNone], .inl rfl⟩,
        fun _ b hb => absurd hb (hnone b)⟩
  | kill v =>
      obtain ⟨j, -, h⟩ := Option.bind_eq_some_iff.mp h
      exact hworks trivial h fun a s ha hrun =>
        arrayKill_ended (tended_start (hp.sane j a ha) (hp.held j a ha)) hrun
  | concat v w =>
      obtain ⟨j, -, h⟩ := Option.bind_eq_some_iff.mp h
      obtain ⟨j', -, h⟩ := Option.bind_eq_some_iff.mp h
      obtain ⟨b, -, h⟩ := Option.bind_eq_some_iff.mp h
      refine hworks trivial h fun a s ha hrun => ?_
      have hquiet : Quiet Tended := quiet_tended
      have hkeep := (hquiet.arrayConcat arrayAdjust_tended
        (if j' = j then .self else .other b)).map fun _ => ()
      exact (hkeep A _ _ s (tended_start (hp.sane j a ha) (hp.held j a ha)) hrun).1.ended
  | op v op =>
      obtain ⟨j, -, h⟩ := Option.bind_eq_some_iff.mp h
      exact hworks trivial h fun a s ha hrun =>
        (op.run_tended A _ _ s (tended_start (hp.sane j a ha) (hp.held j a ha)) hrun).1.ended

theorem not_fresh_of_lt {c k : ℕ} (h : k < c) : ¬ Fresh c (.heap k) := by
  rintro ⟨j, hj, heq⟩
  cases heq
  omega

/-- The buffer of an owner is not new. -/
theorem Tidy.not_fresh {b : ArrayT} (h : Tidy p) (hb : p.live id = some b)
    (hown : b.isOwnBuffer = true) : ¬ Fresh p.calls b.ptr := by
  obtain ⟨k, hk, hptr⟩ := (h.sane id b hb).granted hown
  rw [hptr]
  exact not_fresh_of_lt hk

/-- A call concerns only what an owner has, or what it was granted itself. -/
theorem Tidy.concerns (h : Tidy p) (hstep : p.step A op = some (eff, q)) {e : Event} {x : Addr}
    (he : e ∈ eff.events) (hx : e.Concerns x) : p.Holds x ∨ Fresh p.calls x := by
  rcases step_cases hstep with ⟨id, a, ho⟩ | hc
  · have hlicensed := ho.change.licensed e he
    have howner : a.isOwnBuffer = true → x = a.ptr ∨ Fresh p.calls x →
        p.Holds x ∨ Fresh p.calls x := fun hown =>
      Or.imp_left fun heq => ⟨id, a, ho.before, hown, heq.symm⟩
    cases e with
    | destroy d | diff y z => exact False.elim hx
    | realloc y n =>
        obtain rfl : y = x := hx
        refine howner ?_ hlicensed.2
        by_contra hno
        have hset := (h.sane id a ho.before).borrowed (by simpa using hno)
        exact absurd (hset.symm.trans hlicensed.1) (by simp)
    | free y =>
        obtain rfl : y = x := hx
        exact howner hlicensed.1 hlicensed.2
  · have hnew := hc.events e he
    cases e with
    | destroy d | diff y z => exact False.elim hx
    | realloc y n | free y =>
        obtain rfl : y = x := hx
        exact .inr hnew

/-- What a call leaves in the hands of an owner was there before, or was granted to it. -/
theorem holds_of_step (hop : ∀ x, ¬ op.Seizes x) (hstep : p.step A op = some (eff, q)) {x : Addr}
    (hx : q.Holds x) : p.Holds x ∨ Fresh p.calls x := by
  obtain ⟨i, b, hb, hown, rfl⟩ := hx
  rcases step_cases hstep with ⟨id, a, ho⟩ | hc
  · by_cases hi : i = id
    · subst hi
      refine (ho.change.ptr_eq b hb).imp_left fun hptr => ?_
      exact ⟨i, a, ho.before, (ho.change.own_eq b hb).symm.trans hown, hptr.symm⟩
    · exact .inl ⟨i, b, (ho.rest i hi).symm.trans hb, hown, rfl⟩
  · by_cases hi : i = p.headers.length
    · subst hi
      have hmade := hc.made b hb
      cases op with
      | borrow v buffer bytes bufsize eltSize n free =>
          exact absurd (hown.symm.trans hmade.1) (by simp)
      | seize v buffer bytes bufsize eltSize n free => exact absurd rfl (hop buffer)
      | create | dup | filter | pull | swap | kill | concat | op => exact .inr hmade.2
    · exact .inl ⟨i, b, (hc.rest i hi).symm.trans hb, hown, rfl⟩

/-- **Step lemma**: no call gives two owners the same buffer, nor takes the block of an array
that lives on, unless `realloc` is asked for zero bytes. -/
theorem Tidy.step (h : Tidy p) (hop : ∀ x, ¬ op.Seizes x) (hasks : AsksSome eff.events)
    (hstep : p.step A op = some (eff, q)) : Tidy q := by
  -- the array that is worked on or made has its old buffer, or a new one
  have hlocal : ∃ id, SameBut id p q ∧ p.calls ≤ q.calls ∧ Leaves q id eff.events ∧
      ∀ b, q.live id = some b → b.isOwnBuffer = true → Fresh p.calls b.ptr ∨
        ∃ a, p.live id = some a ∧ a.isOwnBuffer = true ∧ b.ptr = a.ptr := by
    rcases step_leaves hstep h hop with ⟨id, a, ho, hleaves⟩ | ⟨hc, hleaves⟩
    · refine ⟨id, ho.rest, ho.calls_le, hleaves, fun b hb hown => ?_⟩
      refine (ho.change.ptr_eq b hb).symm.imp_right fun hptr => ?_
      exact ⟨a, ho.before, (ho.change.own_eq b hb).symm.trans hown, hptr⟩
    · refine ⟨_, hc.rest, hc.calls_le, hleaves, fun b hb hown => ?_⟩
      have hmade := hc.made b hb
      cases op with
      | borrow v buffer bytes bufsize eltSize n free =>
          exact absurd (hown.symm.trans hmade.1) (by simp)
      | seize v buffer bytes bufsize eltSize n free => exact absurd rfl (hop buffer)
      | create | dup | filter | pull | swap | kill | concat | op => exact .inl hmade.2
  obtain ⟨id, hrest, hcalls, hleaves, hptr⟩ := hlocal
  have hother : ∀ i b d, i ≠ id → q.live i = some b → q.live id = some d →
      b.isOwnBuffer = true → d.isOwnBuffer = true → b.ptr ≠ d.ptr := by
    intro i b d hi hb hd hown hown' heq
    rw [hrest i hi] at hb
    rcases hptr d hd hown' with hfresh | ⟨a, ha, howna, hsame⟩
    · exact h.not_fresh hb hown (heq ▸ hfresh)
    · exact hi (h.apart i id b a hb ha hown howna (heq.trans hsame))
  constructor
  · intro i b hb
    by_cases hi : i = id
    · exact hleaves.header b (hi ▸ hb)
    · exact (h.sane i b ((hrest i hi).symm.trans hb)).mono hcalls
  · intro i b hb
    by_cases hi : i = id
    · exact hleaves.held hasks b (hi ▸ hb)
    · exact h.held i b ((hrest i hi).symm.trans hb)
  · intro i j b d hb hd hown hown' heq
    by_cases hi : i = id
    · subst hi
      by_contra hij
      exact hother j d b (Ne.symm hij) hd hb hown' hown heq.symm
    · by_cases hj : j = id
      · subst hj
        exact absurd heq (hother i b d hi hb hd hown hown')
      · exact h.apart i j b d ((hrest i hi).symm.trans hb) ((hrest j hj).symm.trans hd) hown
          hown' heq

/-- A block of an earlier call of the allocator that no live owner has. -/
def Spent (k : ℕ) (p : Pool) : Prop := k < p.calls ∧ ¬ p.Holds (.heap k)

theorem calls_le_of_step (hstep : p.step A op = some (eff, q)) : p.calls ≤ q.calls := by
  rcases step_cases hstep with ⟨id, a, ho⟩ | hc
  · exact ho.calls_le
  · exact hc.calls_le

/-- **Step lemma**: what no owner has is not touched, and no owner gets it again. -/
theorem Spent.step {k : ℕ} (hk : Spent k p) (h : Tidy p) (hop : ∀ x, ¬ op.Seizes x)
    (hstep : p.step A op = some (eff, q)) :
    Spent k q ∧ ∀ e ∈ eff.events, ¬ e.Concerns (.heap k) := by
  have hnot : ¬ (p.Holds (.heap k) ∨ Fresh p.calls (.heap k)) :=
    not_or.mpr ⟨hk.2, not_fresh_of_lt hk.1⟩
  exact ⟨⟨Nat.lt_of_lt_of_le hk.1 (calls_le_of_step hstep), fun hx =>
    hnot (holds_of_step hop hstep hx)⟩, fun e he hx => hnot (h.concerns hstep he hx)⟩

/-- The last of some events is the only one that frees. -/
theorem last_free {u t t' : List Event} {x y : Addr} (hu : FreesNone u)
    (h : u ++ [.free y] = t ++ .free x :: t') : t' = [] ∧ x = y := by
  rcases List.eq_nil_or_concat' t' with rfl | ⟨front, last, rfl⟩
  · obtain ⟨-, hlast⟩ := List.append_inj' h rfl
    rw [List.singleton_inj, Event.free.injEq] at hlast
    exact ⟨rfl, hlast.symm⟩
  · rw [← List.cons_append, ← List.append_assoc] at h
    obtain ⟨rfl, -⟩ := List.append_inj' h rfl
    exact absurd rfl (hu (.free x) (by simp) x)

/-- What a call frees, it frees in the end, and no owner has it then. -/
theorem step_frees (h : Tidy p) (hop : ∀ x, ¬ op.Seizes x) (hstep : p.step A op = some (eff, q))
    {t t' : List Event} {x : Addr} (hevents : eff.events = t ++ .free x :: t') :
    t' = [] ∧ ∃ k, x = .heap k ∧ Spent k q := by
  have hlocal : ∃ id, SameBut id p q ∧ Leaves q id eff.events ∧
      (Fresh p.calls x ∨ ∃ a, p.live id = some a ∧ a.isOwnBuffer = true ∧ x = a.ptr) := by
    have hmem : Event.free x ∈ eff.events := by simp [hevents]
    rcases step_leaves hstep h hop with ⟨id, a, ho, hleaves⟩ | ⟨hc, hleaves⟩
    · obtain ⟨hown, hx⟩ := ho.change.licensed _ hmem
      exact ⟨id, ho.rest, hleaves, hx.symm.imp_right fun heq => ⟨a, ho.before, hown, heq⟩⟩
    · exact ⟨_, hc.rest, hleaves, .inl (hc.events _ hmem)⟩
  obtain ⟨id, hrest, hleaves, hx⟩ := hlocal
  obtain ⟨u, hu, htrace | ⟨hgone, k, hk, htrace⟩⟩ := hleaves.frees
  · exact absurd rfl (hu (.free x) (by simp [← htrace, hevents]) x)
  · obtain ⟨rfl, rfl⟩ := last_free hu (htrace.symm.trans hevents)
    refine ⟨rfl, k, rfl, hk, ?_⟩
    rintro ⟨i, b, hb, hown, hptr⟩
    have hi : i ≠ id := by
      rintro rfl
      cases hgone.symm.trans hb
    rw [hrest i hi] at hb
    rcases hx with hfresh | ⟨a, ha, howna, heq⟩
    · exact h.not_fresh hb hown (hptr ▸ hfresh)
    · exact hi (h.apart i id b a hb ha hown howna (hptr.trans heq))

end Steps

/-! ### Whole runs -/

section Runs

variable {A : Allocator} {p q : Pool} {log log' : List (PoolOp × Effect)}

/-- The events of a run. -/
def eventsOf (log : List (PoolOp × Effect)) : List Event := log.flatMap fun e => e.2.events

/-- A call that hands over no buffer and does not ask `realloc` for zero bytes. -/
structure Careful (e : PoolOp × Effect) : Prop where
  seizes : ∀ x, ¬ e.1.Seizes x
  asks : AsksSome e.2.events

theorem tidy_empty : Tidy .empty := by
  have hnone : ∀ id b, Pool.empty.live id ≠ some b := by simp [Pool.live, Pool.empty]
  exact ⟨fun id b hb => absurd hb (hnone id b), fun id b hb => absurd hb (hnone id b),
    fun id _ b _ hb => absurd hb (hnone id b)⟩

theorem Tidy.run (h : Tidy p) (hrun : (poolMachine A).Run p log q)
    (hcareful : ∀ e ∈ log, Careful e) : Tidy q :=
  hrun.invariant (I := Tidy) (H := Careful)
    (fun hI hH _ hstep => hI.step hH.seizes hH.asks hstep) h hcareful

/-- What no owner has is not touched by any of the calls that follow. -/
theorem Spent.run {k : ℕ} (hk : Spent k p) (h : Tidy p) (hrun : (poolMachine A).Run p log q)
    (hcareful : ∀ e ∈ log, Careful e) :
    Spent k q ∧ ∀ e ∈ eventsOf log, ¬ e.Concerns (.heap k) := by
  have hstep : ∀ {s i r s'}, (Tidy s ∧ Spent k s) → Careful (i, r) →
      (poolMachine A).Admits s i → (poolMachine A).step s i = some (r, s') →
      (Tidy s' ∧ Spent k s') ∧ ∀ e ∈ r.events, ¬ e.Concerns (.heap k) :=
    fun hI hc _ hst => ⟨⟨hI.1.step hc.seizes hc.asks hst, (hI.2.step hI.1 hc.seizes hst).1⟩,
      (hI.2.step hI.1 hc.seizes hst).2⟩
  constructor
  · exact (hrun.invariant (I := fun s => Tidy s ∧ Spent k s) (H := Careful)
      (fun hI hH ha hst => (hstep hI hH ha hst).1) ⟨h, hk⟩ hcareful).2
  · intro e he
    obtain ⟨entry, hentry, he⟩ := List.mem_flatMap.mp he
    exact hrun.forall_log (I := fun s => Tidy s ∧ Spent k s) (H := Careful)
      (P := fun entry => ∀ e ∈ entry.2.events, ¬ e.Concerns (.heap k))
      (fun hI hH ha hst => hstep hI hH ha hst) ⟨h, hk⟩ hcareful entry hentry e he

/-- What was freed is spent, and was not touched since. -/
theorem freed_spent (hrun : (poolMachine A).Run .empty log p) (hcareful : ∀ e ∈ log, Careful e)
    {t t' : List Event} {x : Addr} (h : eventsOf log = t ++ .free x :: t') :
    ∃ k, x = .heap k ∧ Spent k p ∧ ∀ e ∈ t', ¬ e.Concerns x := by
  induction hrun generalizing t t' with
  | nil => exact absurd h.symm (by simp [eventsOf])
  | @snoc s s'' log op eff hrun _ hstep ih =>
      have hfront : ∀ e ∈ log, Careful e := fun e he => hcareful e (List.mem_append_left _ he)
      have hop : ∀ x, ¬ op.Seizes x := (hcareful (op, eff) (by simp)).seizes
      have htidy := tidy_empty.run hrun hfront
      have hsplit : eventsOf log ++ eff.events = t ++ .free x :: t' := by
        rw [← h]
        simp [eventsOf]
      rcases List.append_eq_append_iff.mp hsplit with ⟨u, rfl, hu⟩ | ⟨u, hlog, hu⟩
      · obtain ⟨rfl, k, rfl, hspent⟩ := step_frees htidy hop hstep hu
        exact ⟨k, rfl, hspent, by simp⟩
      · cases u with
        | nil =>
            obtain ⟨rfl, k, rfl, hspent⟩ := step_frees htidy hop hstep (t := []) hu.symm
            exact ⟨k, rfl, hspent, by simp⟩
        | cons first u =>
            obtain ⟨rfl, rfl⟩ := List.cons.inj hu
            obtain ⟨k, rfl, hspent, hquiet⟩ := ih hfront hlog
            obtain ⟨hspent', hevents⟩ := hspent.step htidy hop hstep
            refine ⟨k, rfl, hspent', fun e he => ?_⟩
            exact (List.mem_append.mp he).elim (hquiet e) (hevents e)

end Runs

/-- One array of bytes in the variable `0`, or none once it was released. -/
def bytePool (a : Option ArrayT) (calls : ℕ) : Pool :=
  { headers := [a], vars := fun w => if w = 0 then some 0 else none, calls := calls }

/-- The calls that create an array, give it an element, shrink it to that and kill it. -/
def killedLog : List (PoolOp × Effect) :=
  [] ++ [(.create 0 1 4 false, ⟨some 0, []⟩)] ++ [(.op 0 (.push (some [7])), ⟨some 0, []⟩)] ++
    [(.op 0 .slimcheck, ⟨some 0, [.realloc (.heap 1) 1]⟩)] ++
    [(.kill 0, ⟨some 0, [.free (.heap 2)]⟩)]

end Backd
