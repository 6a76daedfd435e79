import Backd.ArrayCreate
import Backd.Library.Runs

/-!
# Runs of Array Calls

The array as a list. A `Call` is one call of a mutating operation with its arguments;
`Call.onList` is the list operation it is named after, and `Call.removed` the elements it
takes out. The machine `arrayMachine` sends calls to the operations of `array.c`. A caller
may send a call whose guards hold, whose source is an object that holds the elements
announced (`Call.Sound`), and in the case of `array_adjust` asks for no more bytes than an
object can have.

## Main results

* `Call.run_returns`: one call acts on the elements as its list operation does, or fails
  and changes nothing, and hands the removed elements to the destructor.
* `array_simulates_list`: after any run from a created array, the buffer decodes to the
  list obtained from the calls that succeeded, and every call that a caller may send next
  returns, without a change when it reports failure.
-/

namespace Backd

open Splice Runs

/-- A call of an operation that changes an array. The source of an insertion is the
caller's memory from the pointer on. -/
inductive Call
  | push (e : Bytes)
  | pushf (e : Bytes)
  | insert (p : ℕ) (e : Bytes)
  | inject (p : ℕ) (src : Bytes) (n : ℕ)
  | append (src : Bytes) (n : ℕ)
  | concat (other : Operand)
  | pop (into : Bool)
  | popf (into : Bool)
  | evict (p : ℕ)
  | clear
  | adjust (n : ℕ)
  | settle
  | unsettle
  deriving DecidableEq, Repr

/-- What a call gives back: the success flag, the bytes copied to the caller, or
nothing. -/
inductive Answer
  | flag (ok : Bool)
  | copied (e : Option Bytes)
  | void
  deriving DecidableEq, Repr

/-- The call did what it is named after. -/
def Answer.performed : Answer → Bool
  | .flag ok => ok
  | _ => true

namespace Call

/-- The function called. -/
def run : Call → ArrM Answer
  | push e => .flag <$> arrayPush (some e)
  | pushf e => .flag <$> arrayPushf (some e)
  | insert p e => .flag <$> arrayInsert p (some e)
  | inject p src n => .flag <$> arrayInject p (some src) n
  | append src n => .flag <$> arrayAppend (some src) n
  | concat other => .flag <$> arrayConcat other
  | pop into => .copied <$> arrayPop into
  | popf into => .copied <$> arrayPopf into
  | evict p => (fun _ => .void) <$> arrayEvict p
  | clear => (fun _ => .void) <$> arrayClear
  | adjust n => .flag <$> arrayAdjust n
  | settle => (fun _ => .void) <$> arraySettle
  | unsettle => (fun _ => .void) <$> arrayUnsettle

/-- The list operation of a call, for elements of `k` bytes. -/
def onList (k : ℕ) (l : List Bytes) : Call → List Bytes
  | push e => l ++ [e.take k]
  | pushf e => e.take k :: l
  | insert p e => l.take p ++ [e.take k] ++ l.drop p
  | inject p src n => l.take p ++ cells k n src ++ l.drop p
  | append src n => l ++ cells k n src
  | concat .self => l ++ l
  | concat (.other b) => l ++ b.elements
  | pop _ => l.dropLast
  | popf _ => l.tail
  | evict p => l.eraseIdx p
  | clear => []
  | adjust _ | settle | unsettle => l

/-- The elements a call takes out, in the order they go. -/
def removed (l : List Bytes) : Call → List Bytes
  | pop _ => l.getLast?.toList
  | popf _ => l.head?.toList
  | evict p => l[p]?.toList
  | clear => l.reverse
  | _ => []

/-- The caller's side of a call on `a`: sources hold what they announce, a second array is
live, and `array_adjust` is not asked for more bytes than an object has. -/
def Sound (a : ArrayT) : Call → Prop
  | push e | pushf e | insert _ e => Supplies a.eltSize 1 e
  | inject _ src n | append src n => Supplies a.eltSize n src
  | concat other => other.Live
  | adjust n => a.eltSize * (a.nmemb + n) ≤ ptrdiffMax
  | pop _ | popf _ | evict _ | clear | settle | unsettle => True

end Call

/-- What a call does to an array that holds `l`: its list operation, or nothing. -/
structure Acts (a : ArrayT) (l : List Bytes) (call : Call) (ans : Answer) (b : ArrayT)
    (ev : List Event) : Prop where
  outcome : (ans.performed = true ∧ Holds b (call.onList a.eltSize l)) ∨
    (ans.performed = false ∧ b = a ∧ call.removed l = [])
  eltSize_eq : b.eltSize = a.eltSize
  free_eq : b.free = a.free
  destroyed_eq : destroyed ev = a.dropped (call.removed l)

section Calls

variable {A : Allocator} {a b : ArrayT} {l l' : List Bytes} {call : Call}
  {ev : List Event}

theorem dropped_nil : a.dropped [] = [] := by
  simp [ArrayT.dropped]

/-- A growing call acts as its list operation, or fails. -/
theorem Grows.acts {ok : Bool} (h : Grows a l' ok b ev)
    (hl : call.onList a.eltSize l = l') (hr : call.removed l = []) :
    Acts a l call (.flag ok) b ev := by
  obtain ⟨hev, ⟨rfl, hb⟩ | ⟨rfl, rfl⟩⟩ := h
  · exact ⟨.inl ⟨rfl, hl ▸ hb.holds⟩, hb.eltSize_eq, hb.free_eq,
      by rw [hev.destroyed_eq, hr, dropped_nil]⟩
  · exact ⟨.inr ⟨rfl, rfl, hr⟩, rfl, rfl, by rw [hev.destroyed_eq, hr, dropped_nil]⟩

/-- A removing call always acts. -/
theorem Becomes.acts {ans : Answer} {gone : List Bytes} (h : Becomes a l' b)
    (hans : ans.performed = true) (hl : call.onList a.eltSize l = l')
    (hr : call.removed l = gone) (hev : destroyed ev = a.dropped gone) :
    Acts a l call ans b ev :=
  ⟨.inl ⟨hans, hl ▸ h.holds⟩, h.eltSize_eq, h.free_eq, by rw [hev, hr]⟩

/-- **One call.** On an array that holds `l`, a call acts as its list operation or changes
nothing. -/
theorem Call.run_returns (h : Holds a l) (hs : call.Sound a) :
    Returns A a call.run (Acts a l call) := by
  cases call with
  | push e =>
      exact ((arrayPush_returns h hs).mono fun _ _ _ hg => hg.acts rfl rfl).map
  | pushf e =>
      exact ((arrayPushf_returns h hs).mono fun _ _ _ hg => hg.acts rfl rfl).map
  | insert p e =>
      exact ((arrayInsert_returns h hs).mono fun _ _ _ hg => hg.acts rfl rfl).map
  | inject p src n =>
      exact ((arrayInject_returns h hs).mono fun _ _ _ hg => hg.acts rfl rfl).map
  | append src n =>
      exact ((arrayAppend_returns h hs).mono fun _ _ _ hg => hg.acts rfl rfl).map
  | concat other =>
      refine ((arrayConcat_returns h hs).mono fun _ _ _ hg => hg.acts ?_ rfl).map
      cases other with
      | self => rw [Call.onList, Operand.elements, h.elements_eq]
      | other b => rfl
  | pop into =>
      refine ((arrayPop_returns h).mono ?_).map
      rintro x b ev ⟨m, e, rfl, hb, hev, -⟩
      exact hb.acts rfl (by simp [Call.onList]) (by simp [Call.removed]) hev.destroyed_eq
  | popf into =>
      refine ((arrayPopf_returns h).mono ?_).map
      rintro x b ev ⟨e, m, rfl, hb, hev, -⟩
      exact hb.acts rfl (by simp [Call.onList]) (by simp [Call.removed]) hev.destroyed_eq
  | evict p =>
      refine ((arrayEvict_returns h).mono ?_).map
      rintro x b ev ⟨hp, hb, hev⟩
      exact hb.acts rfl rfl (by simp [Call.removed, hp]) hev.destroyed_eq
  | clear =>
      refine ((arrayClear_returns h).mono ?_).map
      rintro x b ev ⟨hb, hev⟩
      exact hb.acts rfl rfl rfl hev
  | adjust n =>
      have hreq : a.eltSize * (l.length + n) ≤ ptrdiffMax := by
        rw [← h.nmemb_eq]
        exact hs
      have hn : l.length + n ≤ a.eltSize * (l.length + n) := Nat.le_mul_of_pos_left _ h.elt_pos
      refine ((arrayAdjust_returns h ?_).mono ?_).map
      · simp only [ptrdiffMax, sizeMax] at *
        omega
      · rintro ok b ev ⟨hev, ⟨rfl, hb, -, -⟩ | ⟨rfl, rfl | ⟨-, hwrap⟩⟩⟩
        · exact Grows.acts ⟨hev, .inl ⟨rfl, hb⟩⟩ rfl rfl
        · exact Grows.acts ⟨hev, .inr ⟨rfl, rfl⟩⟩ rfl rfl
        · simp only [ptrdiffMax, sizeMax, ptrSize] at *
          omega
  | settle =>
      refine (arraySettle_returns.mono ?_).map
      rintro x b ev ⟨rfl, rfl⟩
      exact ⟨.inl ⟨rfl, h.setSettled true⟩, rfl, rfl, dropped_nil.symm⟩
  | unsettle =>
      refine (arrayUnsettle_returns.mono ?_).map
      rintro x b ev ⟨rfl, rfl⟩
      exact ⟨.inl ⟨rfl, h.setSettled false⟩, rfl, rfl, dropped_nil.symm⟩

end Calls

/-! ### The machine -/

/-- The machine of one array. A caller may send a sound call whose guards hold. -/
def arrayMachine (A : Allocator) : Machine ArrSt Call Answer where
  Admits s call := ∃ a, s.arr = some a ∧ call.Sound a ∧ call.run A s ≠ .error .bug
  step s call := (call.run A s).toOption

/-- The list after an answered call: a call that reports failure leaves it. -/
def listStep (k : ℕ) (l : List Bytes) (entry : Call × Answer) : List Bytes :=
  if entry.2.performed then entry.1.onList k l else l

/-- The simulation relation: the header is live, holds `l`, and still has the element size
and the destructor it was created with. -/
def Simulates (k : ℕ) (free : Bool) (s : ArrSt) (l : List Bytes) : Prop :=
  ∃ a, s.arr = some a ∧ Holds a l ∧ a.eltSize = k ∧ a.free = free

section Machine

variable {A : Allocator} {k : ℕ} {free : Bool} {s s' : ArrSt} {l : List Bytes}
  {call : Call} {ans : Answer}

/-- What an answered call did, as an `Acts` record. -/
theorem acts_of_step {a : ArrayT} (ha : s.arr = some a) (h : Holds a l)
    (hadm : (arrayMachine A).Admits s call)
    (hstep : (arrayMachine A).step s call = some (ans, s')) :
    ∃ b ev, s'.arr = some b ∧ s'.trace = s.trace ++ ev ∧ Acts a l call ans b ev := by
  obtain ⟨a', ha', hsound, -⟩ := hadm
  obtain rfl : a = a' := Option.some.inj (ha.symm.trans ha')
  obtain ⟨arr, calls, trace⟩ := s
  obtain rfl : arr = some a := ha
  have hrun : call.run A ⟨some a, calls, trace⟩ = .ok (ans, s') := by
    change (call.run A ⟨some a, calls, trace⟩).toOption = some (ans, s') at hstep
    cases hres : call.run A ⟨some a, calls, trace⟩ with
    | error e =>
        rw [hres] at hstep
        cases hstep
    | ok r =>
        rw [hres] at hstep
        exact congrArg Except.ok (Option.some.inj hstep)
  obtain ⟨b, k', ev, rfl, hacts⟩ := (Call.run_returns h hsound).of_ok hrun
  exact ⟨b, ev, rfl, rfl, hacts⟩

/-- **Step lemma**: an answered call takes the list along. -/
theorem Simulates.step (h : Simulates k free s l) (hadm : (arrayMachine A).Admits s call)
    (hstep : (arrayMachine A).step s call = some (ans, s')) :
    Simulates k free s' (listStep k l (call, ans)) := by
  obtain ⟨a, ha, hl, rfl, rfl⟩ := h
  obtain ⟨b, ev, hb, -, hacts⟩ := acts_of_step ha hl hadm hstep
  refine ⟨b, hb, ?_, hacts.eltSize_eq, hacts.free_eq⟩
  rcases hacts.outcome with ⟨hans, hholds⟩ | ⟨hans, rfl, -⟩
  · simpa [listStep, hans] using hholds
  · simpa [listStep, hans] using hl

/-- A call that a caller may send returns, and changes nothing where it reports
failure. -/
theorem answers_of_admits {a : ArrayT} (ha : s.arr = some a) (h : Holds a l)
    (hadm : (arrayMachine A).Admits s call) :
    ∃ ans s', (arrayMachine A).step s call = some (ans, s') ∧
      (ans.performed = false → s'.arr = some a) := by
  obtain ⟨a', ha', hsound, hbug⟩ := hadm
  obtain rfl : a = a' := Option.some.inj (ha.symm.trans ha')
  obtain ⟨arr, calls, trace⟩ := s
  obtain rfl : arr = some a := ha
  obtain ⟨ans, b, k', ev, hok, hacts⟩ := (Call.run_returns h hsound).ok hbug
  refine ⟨ans, ⟨some b, k', trace ++ ev⟩, ?_, fun hans => ?_⟩
  · change (call.run A ⟨some a, calls, trace⟩).toOption = _
    rw [hok]
    rfl
  · rcases hacts.outcome with ⟨hans', -⟩ | ⟨-, rfl, -⟩
    · rw [hans] at hans'
      cases hans'
    · rfl

/-- A creation that leaves a header behind has created an empty array. -/
theorem simulates_created {n calls calls' : ℕ} {t t' : List Event} {r : Handle} {a : ArrayT}
    (hcreate : arrayCreate k n free A ⟨none, calls, t⟩ = .ok (r, ⟨some a, calls', t'⟩)) :
    Simulates k free ⟨some a, calls', t'⟩ [] ∧ t' = t := by
  obtain ⟨helt, hrun⟩ := arrayCreate_run (by rw [hcreate]; simp)
  rw [hcreate] at hrun
  split at hrun
  · cases hrun
  split at hrun
  · cases hrun
  next hbuf =>
  obtain ⟨-, rfl, -, rfl⟩ : r = .header ∧ a = createdArray A calls k n free ∧
    calls' = calls + 2 ∧ t' = t := by simpa using hrun
  exact ⟨⟨_, rfl, holds_createdArray helt (by simpa using hbuf), rfl, rfl⟩, rfl⟩

/-- **An array is a list.** After any run from a created array, whatever the allocator
answers: the block has `_cap` bytes, the counted elements fit into it, and decoding them
gives the list obtained from the calls that succeeded. Every call a caller may send next
returns, and one that reports failure leaves the array as it was. -/
theorem array_simulates_list {n calls calls' : ℕ} {t t' : List Event} {r : Handle}
    {a₀ : ArrayT} {log : List (Call × Answer)}
    (hcreate : arrayCreate k n free A ⟨none, calls, t⟩ = .ok (r, ⟨some a₀, calls', t'⟩))
    (hrun : (arrayMachine A).Run ⟨some a₀, calls', t'⟩ log s') :
    ∃ a bs, s'.arr = some a ∧ a.block = some bs ∧ bs.length = a.cap ∧
      a.nmemb * a.eltSize ≤ a.cap ∧
      cells a.eltSize a.nmemb bs = log.foldl (listStep k) [] ∧
      ∀ call, (arrayMachine A).Admits s' call →
        ∃ ans s'', (arrayMachine A).step s' call = some (ans, s'') ∧
          (ans.performed = false → s''.arr = some a) := by
  obtain ⟨a, ha, hl, rfl, -⟩ := hrun.refines (R := Simulates k free)
    (H := fun _ => True) (listStep k) (fun h _ hadm hstep => h.step hadm hstep)
    (simulates_created hcreate).1 (fun _ _ => trivial)
  obtain ⟨bs, hb, hlen, hlays⟩ := hl.exists_block
  have hfit := hl.bytes_le
  rw [Nat.mul_comm] at hfit
  refine ⟨a, bs, ha, hb, hlen, hl.nmemb_eq ▸ hfit, ?_, fun call => answers_of_admits ha hl⟩
  rw [hl.nmemb_eq, hlays.cells_eq]

end Machine

/-- The array that `array_create(2, 1, f)` gives, holding `n` elements in the block
`bs`. -/
def pairsArray (n : ℕ) (bs : Bytes) : ArrayT :=
  { createdArray (.upTo 2) 0 2 1 true with nmemb := n, block := some bs }

/-- The events of the run below. -/
def pairsTrace : List Event :=
  [.diff 2 0, .diff 2 1, .destroy [1, 2], .diff 2 1, .diff 2 2]

/-- Push, insert in front, evict the last. -/
theorem pairs_run : (arrayMachine (.upTo 2)).Run
    ⟨some (pairsArray 0 [0, 0, 0, 0, 0, 0, 0, 0]), 2, []⟩
    [(.push [1, 2], .flag true), (.insert 0 [3, 4], .flag true), (.evict 1, .void)]
    ⟨some (pairsArray 1 [3, 4, 1, 2, 0, 0, 0, 0]), 2, pairsTrace⟩ :=
  have h₀ := Machine.Run.nil (M := arrayMachine (.upTo 2))
    (s := ⟨some (pairsArray 0 [0, 0, 0, 0, 0, 0, 0, 0]), 2, []⟩)
  have h₁ : (arrayMachine (.upTo 2)).Run _ _
      ⟨some (pairsArray 1 [1, 2, 0, 0, 0, 0, 0, 0]), 2, []⟩ :=
    h₀.snoc (i := Call.push [1, 2]) (r := Answer.flag true)
    ⟨_, rfl, ⟨by decide, by decide⟩, by decide⟩ rfl
  have h₂ : (arrayMachine (.upTo 2)).Run _ _
      ⟨some (pairsArray 2 [3, 4, 1, 2, 0, 0, 0, 0]), 2, [.diff 2 0]⟩ :=
    h₁.snoc (i := Call.insert 0 [3, 4]) (r := Answer.flag true)
    ⟨_, rfl, ⟨by decide, by decide⟩, by decide⟩ rfl
  h₂.snoc (i := Call.evict 1) (r := Answer.void) ⟨_, rfl, trivial, by decide⟩ rfl

theorem pairs_simulate_list : ∃ a bs,
    some (pairsArray 1 [3, 4, 1, 2, 0, 0, 0, 0]) = some a ∧ a.block = some bs ∧
      cells a.eltSize a.nmemb bs = [[3, 4]] :=
  have hcreate : arrayCreate 2 1 true (.upTo 2) ⟨none, 0, []⟩
      = .ok (.header, ⟨some (pairsArray 0 [0, 0, 0, 0, 0, 0, 0, 0]), 2, []⟩) := rfl
  let ⟨a, bs, ha, hb, _, _, hcells, _⟩ := array_simulates_list hcreate pairs_run
  ⟨a, bs, ha, hb, hcells⟩

end Backd
