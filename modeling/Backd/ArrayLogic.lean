import Backd.ArrayState

/-!
# A Logic for the Array Monad

`Returns A a m Q` says that `m`, run on the array `a`, never faults: it trips a run-time
guard (`Stop.bug`), or it returns, and then the result, the array left behind and the new
events satisfy `Q`. The statement is for every count of allocator calls and every earlier
trace, so it covers every pattern of allocator answers.

One rule for each primitive, to be read as its weakest precondition, and `Returns.bind`
for sequencing. The rule of a guard hands its negation to what follows, which is how the
guards of `array.c` become facts of the proofs.

Where an operation creates or releases the header, the equations `bind_run` and `bind_ok`
are used directly.
-/

namespace Backd

variable {α β : Type} {A : Allocator} {a : ArrayT}

/-- Run on `a`, the operation trips a guard or returns with `Q`; it does not fault. -/
def Returns (A : Allocator) (a : ArrayT) (m : ArrM α)
    (Q : α → ArrayT → List Event → Prop) : Prop :=
  ∀ k t, m A ⟨some a, k, t⟩ = .error .bug ∨
    ∃ x a' k' ev, m A ⟨some a, k, t⟩ = .ok (x, ⟨some a', k', t ++ ev⟩) ∧ Q x a' ev

/-! ### Sequencing -/

@[simp] theorem pure_run (x : α) (s : ArrSt) : (pure x : ArrM α) A s = .ok (x, s) := rfl

theorem bind_run (m : ArrM α) (f : α → ArrM β) (s : ArrSt) :
    (m >>= f) A s =
      match m A s with
      | .ok (x, s') => f x A s'
      | .error e => .error e := rfl

theorem map_run (g : α → β) (m : ArrM α) (s : ArrSt) :
    (g <$> m) A s =
      match m A s with
      | .ok (x, s') => .ok (g x, s')
      | .error e => .error e := rfl

/-- A computation that returns continues with its result. -/
theorem bind_ok {m : ArrM α} {f : α → ArrM β} {s s' : ArrSt} {x : α}
    (h : m A s = .ok (x, s')) : (m >>= f) A s = f x A s' := by
  rw [bind_run, h]

/-- What a sequence returns comes from what its first part returns. -/
theorem of_bind_ok {m : ArrM α} {f : α → ArrM β} {s s'' : ArrSt} {y : β}
    (h : (m >>= f) A s = .ok (y, s'')) :
    ∃ x s', m A s = .ok (x, s') ∧ f x A s' = .ok (y, s'') := by
  rw [bind_run] at h
  cases hm : m A s with
  | error e =>
      rw [hm] at h
      cases h
  | ok r =>
      rw [hm] at h
      exact ⟨r.1, r.2, rfl, h⟩

theorem Returns.pure {x : α} {Q : α → ArrayT → List Event → Prop} (h : Q x a []) :
    Returns A a (Pure.pure x) Q := by
  intro k t
  exact .inr ⟨x, a, k, [], by simp, h⟩

/-- **Sequencing**: the second part starts from whatever the first may leave. -/
theorem Returns.bind {m : ArrM α} {f : α → ArrM β} {P : α → ArrayT → List Event → Prop}
    {Q : β → ArrayT → List Event → Prop} (hm : Returns A a m P)
    (hf : ∀ x a' ev, P x a' ev →
      Returns A a' (f x) fun y b ev' => Q y b (ev ++ ev')) :
    Returns A a (m >>= f) Q := by
  intro k t
  rcases hm k t with hbug | ⟨x, a', k', ev, hok, hP⟩
  · exact .inl (by rw [bind_run, hbug])
  rw [bind_ok hok]
  rcases hf x a' ev hP k' (t ++ ev) with hbug | ⟨y, b, k'', ev', hok', hQ⟩
  · exact .inl hbug
  · exact .inr ⟨y, b, k'', ev ++ ev', by rw [hok', List.append_assoc], hQ⟩

/-- Weakening of the postcondition. -/
theorem Returns.mono {m : ArrM α} {P Q : α → ArrayT → List Event → Prop}
    (hm : Returns A a m P) (h : ∀ x a' ev, P x a' ev → Q x a' ev) : Returns A a m Q := by
  intro k t
  rcases hm k t with hbug | ⟨x, a', k', ev, hok, hP⟩
  · exact .inl hbug
  · exact .inr ⟨x, a', k', ev, hok, h _ _ _ hP⟩

/-- A result wrapped up by a pure function. -/
theorem Returns.map {m : ArrM α} {g : α → β} {Q : β → ArrayT → List Event → Prop}
    (hm : Returns A a m fun x => Q (g x)) : Returns A a (g <$> m) Q := by
  refine Returns.bind hm ?_
  intro x a' ev h
  exact Returns.pure (by simpa using h)

/-- A call whose guards hold returns. -/
theorem Returns.ok {m : ArrM α} {Q : α → ArrayT → List Event → Prop} (hm : Returns A a m Q)
    {k : ℕ} {t : List Event} (hbug : m A ⟨some a, k, t⟩ ≠ .error .bug) :
    ∃ x a' k' ev, m A ⟨some a, k, t⟩ = .ok (x, ⟨some a', k', t ++ ev⟩) ∧ Q x a' ev :=
  (hm k t).resolve_left hbug

/-- A call that returns satisfies the postcondition. -/
theorem Returns.of_ok {m : ArrM α} {Q : α → ArrayT → List Event → Prop}
    (hm : Returns A a m Q) {k : ℕ} {t : List Event} {x : α} {s' : ArrSt}
    (h : m A ⟨some a, k, t⟩ = .ok (x, s')) :
    ∃ a' k' ev, s' = ⟨some a', k', t ++ ev⟩ ∧ Q x a' ev := by
  rcases hm k t with hbug | ⟨y, a', k', ev, hok, hQ⟩
  · rw [h] at hbug
    cases hbug
  · rw [h] at hok
    obtain ⟨rfl, rfl⟩ : x = y ∧ s' = ⟨some a', k', t ++ ev⟩ := by simpa using hok
    exact ⟨a', k', ev, rfl, hQ⟩

/-! ### Primitives -/

section Primitives

variable {Q : β → ArrayT → List Event → Prop}

theorem Returns.header {f : ArrayT → ArrM β} (h : Returns A a (f a) Q) :
    Returns A a (Backd.header >>= f) Q := h

theorem Returns.store {g : ArrayT → ArrayT} {f : Unit → ArrM β}
    (h : Returns A (g a) (f ()) Q) : Returns A a (Backd.store g >>= f) Q := h

/-- A guard that does not fire is a fact for what follows. -/
theorem Returns.guard {expr : Bool} {f : Unit → ArrM β}
    (h : expr = false → Returns A a (f ()) Q) :
    Returns A a (notifyBugOn expr >>= f) Q := by
  intro k t
  cases expr with
  | false => exact h rfl k t
  | true => exact .inl rfl

theorem Returns.emit {e : Event} {f : Unit → ArrM β}
    (h : Returns A a (f ()) fun y b ev => Q y b (e :: ev)) :
    Returns A a (Backd.emit e >>= f) Q := by
  intro k t
  rcases h k (t ++ [e]) with hbug | ⟨y, b, k', ev, hok, hQ⟩
  · exact .inl hbug
  · exact .inr ⟨y, b, k', e :: ev, by simpa [bind_run, Backd.emit] using hok, hQ⟩

theorem Returns.diff {x y : ℕ} {f : ℕ → ArrM β}
    (h : Returns A a (f (szSub x y)) fun r b ev => Q r b (.diff x y :: ev)) :
    Returns A a (Backd.diff x y >>= f) Q := by
  intro k t
  exact Returns.emit (f := fun _ => f (szSub x y)) h k t

theorem Returns.runIf {p : Prop} [Decidable p] {m : ArrM Unit}
    {P : Unit → ArrayT → List Event → Prop}
    (htrue : p → Returns A a m P) (hfalse : ¬p → P () a []) :
    Returns A a (Backd.runIf p m) P := by
  unfold Backd.runIf
  split
  · next hp => exact htrue hp
  · next hp => exact Returns.pure (hfalse hp)

/-- A request leaves the array alone, whatever the answer. -/
theorem Returns.alloc {size : ℕ} {f : Option (Addr × Bytes) → ArrM β}
    (h : ∀ r, Returns A a (f r) Q) : Returns A a (memoryAlloc size >>= f) Q := by
  intro k t
  by_cases hg : A.serves k size = true
  · simpa [bind_run, memoryAlloc, hg] using h (some (.heap k, A.fresh k 0 size)) (k + 1) t
  · simpa [bind_run, memoryAlloc, hg] using h none (k + 1) t

/-- A read inside a buffer, of this array or of another. -/
theorem Returns.readOf {b : ArrayT} {bs : Bytes} {off len : ℕ} {f : Bytes → ArrM β}
    (hb : b.block = some bs) (hin : off + len ≤ bs.length)
    (h : Returns A a (f (Splice.window bs off len)) Q) :
    Returns A a (Backd.readOf b off len >>= f) Q := by
  by_cases hlen : len = 0
  · simpa [Backd.readOf, hlen, Returns, bind_run] using h
  · simpa [Backd.readOf, hlen, hb, hin, Returns, bind_run] using h

theorem Returns.readBlock {bs : Bytes} {off len : ℕ} {f : Bytes → ArrM β}
    (hb : a.block = some bs) (hin : off + len ≤ bs.length)
    (h : Returns A a (f (Splice.window bs off len)) Q) :
    Returns A a (Backd.readBlock off len >>= f) Q :=
  Returns.readOf hb hin h

/-- A source that holds enough bytes can be read. -/
theorem Returns.readSource {bs : Bytes} {len : ℕ} {f : Bytes → ArrM β}
    (hin : len ≤ bs.length) (h : Returns A a (f (bs.take len)) Q) :
    Returns A a (Backd.readSource (some bs) len >>= f) Q := by
  simpa [Backd.readSource, hin, Returns, bind_run] using h

variable {P : Unit → ArrayT → List Event → Prop}

/-- A store at the end of an operation. -/
theorem Returns.storeLast {g : ArrayT → ArrayT} (h : P () (g a) []) :
    Returns A a (Backd.store g) P := by
  intro k t
  exact .inr ⟨(), g a, k, [], by rw [List.append_nil]; rfl, h⟩

/-- A write inside the buffer. -/
theorem Returns.writeBlock {bs src : Bytes} {off : ℕ}
    (hb : a.block = some bs) (hin : off + src.length ≤ bs.length)
    (h : P () { a with block := some (Splice.overwrite bs off src) } []) :
    Returns A a (Backd.writeBlock off src) P := by
  refine Returns.header ?_
  by_cases hsrc : src = []
  · subst hsrc
    rw [if_pos rfl]
    refine Returns.pure ?_
    simpa [← hb] using h
  · simp only [hsrc, if_false, hb, hin, if_true]
    exact Returns.storeLast h

/-- `memmove` between two ranges of the buffer. -/
theorem Returns.moveBlock {bs : Bytes} {dst src len : ℕ} (hb : a.block = some bs)
    (hsrc : src + len ≤ bs.length) (hdst : dst + len ≤ bs.length)
    (h : P () { a with
      block := some (Splice.overwrite bs dst (Splice.window bs src len)) } []) :
    Returns A a (Backd.moveBlock dst src len) P := by
  refine Returns.readBlock hb hsrc (Returns.writeBlock hb ?_ h)
  rw [Splice.length_window hsrc]
  exact hdst

/-- The destructor is handed the bytes of the element it is called on. -/
theorem Returns.callFree {bs : Bytes} {pos : ℕ} (hb : a.block = some bs)
    (hin : a.relativeData pos + a.eltSize ≤ bs.length)
    (h : P () a [.destroy (Splice.window bs (a.relativeData pos) a.eltSize)]) :
    Returns A a (Backd.callFree pos) P := by
  refine Returns.header (Returns.readBlock hb hin ?_)
  intro k t
  exact .inr ⟨(), a, k, _, rfl, h⟩

end Primitives

/-! ### Operations without guards -/

/-- The operation trips no guard, whatever it is run on. -/
def Unguarded (m : ArrM α) : Prop :=
  ∀ A s, m A s ≠ .error .bug

theorem Unguarded.pure (x : α) : Unguarded (Pure.pure x) := by
  intro A s h
  cases h

theorem Unguarded.bind {m : ArrM α} {f : α → ArrM β} (hm : Unguarded m)
    (hf : ∀ x, Unguarded (f x)) : Unguarded (m >>= f) := by
  intro A s
  rw [bind_run]
  cases h : m A s with
  | error e =>
      intro hbug
      cases hbug
      exact hm A s h
  | ok r => exact hf r.1 A r.2

theorem unguarded_header : Unguarded header := by
  rintro A ⟨_ | a, k, t⟩ h <;> cases h

theorem unguarded_store (f : ArrayT → ArrayT) : Unguarded (store f) := by
  rintro A ⟨_ | a, k, t⟩ h <;> cases h

theorem unguarded_fault : Unguarded (fault : ArrM α) := by
  intro A s h
  cases h

theorem unguarded_emit (e : Event) : Unguarded (emit e) := by
  intro A s h
  cases h

theorem unguarded_diff (x y : ℕ) : Unguarded (diff x y) :=
  (unguarded_emit _).bind fun _ => .pure _

theorem Unguarded.runIf {p : Prop} [Decidable p] {m : ArrM Unit} (hm : Unguarded m) :
    Unguarded (Backd.runIf p m) := by
  unfold Backd.runIf
  split
  · exact hm
  · exact .pure _

theorem unguarded_readOf (a : ArrayT) (off len : ℕ) : Unguarded (readOf a off len) := by
  unfold readOf
  split
  · exact .pure _
  · split
    · exact unguarded_fault
    · split
      · exact .pure _
      · exact unguarded_fault

theorem unguarded_readBlock (off len : ℕ) : Unguarded (readBlock off len) :=
  unguarded_header.bind fun a => unguarded_readOf a off len

theorem unguarded_writeBlock (off : ℕ) (src : Bytes) : Unguarded (writeBlock off src) := by
  refine unguarded_header.bind fun a => ?_
  split
  · exact .pure _
  · split
    · exact unguarded_fault
    · split
      · exact unguarded_store _
      · exact unguarded_fault

theorem unguarded_moveBlock (dst src len : ℕ) : Unguarded (moveBlock dst src len) :=
  (unguarded_readBlock src len).bind fun bytes => unguarded_writeBlock dst bytes

theorem unguarded_callFree (pos : ℕ) : Unguarded (callFree pos) :=
  unguarded_header.bind fun _ => (unguarded_readBlock _ _).bind fun _ => unguarded_emit _

/-! ### Equations

Where a call is known to stay inside its buffers, its run is an equation. -/

theorem readOf_ok {b : ArrayT} {bs : Bytes} {off len : ℕ} (hb : b.block = some bs)
    (hin : off + len ≤ bs.length) (s : ArrSt) :
    readOf b off len A s = .ok (Splice.window bs off len, s) := by
  by_cases hlen : len = 0
  · simp [readOf, hlen]
  · simp [readOf, hlen, hb, hin]

theorem writeBlock_ok {bs src : Bytes} {off k : ℕ} {t : List Event} (hb : a.block = some bs)
    (hin : off + src.length ≤ bs.length) :
    writeBlock off src A ⟨some a, k, t⟩ =
      .ok ((), ⟨some { a with block := some (Splice.overwrite bs off src) }, k, t⟩) := by
  by_cases hsrc : src = []
  · simp [writeBlock, bind_run, header, hsrc, ← hb]
  · simp [writeBlock, bind_run, header, hsrc, hb, hin, store]

/-- A guard that does not fire. -/
theorem guard_run {expr : Bool} {f : Unit → ArrM β} {s : ArrSt} (h : expr = false) :
    (notifyBugOn expr >>= f) A s = f () A s := by
  subst h
  rfl

end Backd
