import Backd.ArrayLogic
import Backd.ArrayOps

/-!
# A Frame Logic for the Array Monad

`Keeps I m Q` is partial correctness for one invariant: whenever `m` returns from a state
that satisfies `I`, the state it leaves satisfies `I` and the result satisfies `Q`.
Nothing is said about calls that trip a guard or fault, so the rules have no side
conditions on sizes or offsets, and an operation is framed by walking through its text.

`Reads m` is the special case of an operation that leaves its state alone. An invariant is
`Quiet` when it does not look at the elements: the size, the contents of the block, calls
of the destructor and subtractions of sizes do not matter to it. Every operation that
neither reallocates, nor sets a flag, nor releases anything keeps a quiet invariant.
-/

namespace Backd

variable {α β : Type}

/-- A returning call keeps the invariant, and its result satisfies `Q`. -/
def Keeps (I : ArrSt → Prop) (m : ArrM α) (Q : α → Prop) : Prop :=
  ∀ A s x s', I s → m A s = .ok (x, s') → I s' ∧ Q x

/-- A returning call leaves its state alone. -/
def Reads (m : ArrM α) : Prop :=
  ∀ A s x s', m A s = .ok (x, s') → s' = s

section Rules

variable {I : ArrSt → Prop} {Q : β → Prop}

theorem Keeps.pure {x : β} (h : Q x) : Keeps I (Pure.pure x) Q := by
  rintro A s y s' hI hrun
  cases hrun
  exact ⟨hI, h⟩

/-- **Sequencing.** -/
theorem Keeps.bind {m : ArrM α} {f : α → ArrM β} {P : α → Prop} (hm : Keeps I m P)
    (hf : ∀ x, P x → Keeps I (f x) Q) : Keeps I (m >>= f) Q := by
  intro A s y s'' hI hrun
  obtain ⟨x, s', h₁, h₂⟩ := of_bind_ok hrun
  obtain ⟨hI', hP⟩ := hm A s x s' hI h₁
  exact hf x hP A s' y s'' hI' h₂

theorem Keeps.mono {m : ArrM β} {P : β → Prop} (hm : Keeps I m P) (h : ∀ x, P x → Q x) :
    Keeps I m Q := by
  intro A s x s' hI hrun
  obtain ⟨hI', hP⟩ := hm A s x s' hI hrun
  exact ⟨hI', h x hP⟩

theorem Keeps.map {m : ArrM α} {P : α → Prop} (hm : Keeps I m P) (g : α → β) :
    Keeps I (g <$> m) fun _ => True :=
  hm.bind fun _ _ => Keeps.pure trivial

/-- A fault does not return. -/
theorem keeps_fault : Keeps I fault Q := by
  intro A s x s' _ hrun
  cases hrun

/-- An operation that only reads keeps every invariant. -/
theorem Reads.keeps {m : ArrM α} (h : Reads m) : Keeps I m fun _ => True := by
  intro A s x s' hI hrun
  rw [h A s x s' hrun]
  exact ⟨hI, trivial⟩

theorem Reads.bind {m : ArrM α} {f : α → ArrM β} (hm : Reads m)
    (hf : ∀ x, Keeps I (f x) Q) : Keeps I (m >>= f) Q :=
  hm.keeps.bind fun x _ => hf x

/-- What is known of the header whenever the invariant holds is known after reading it. -/
theorem Keeps.header {G : ArrayT → Prop} {f : ArrayT → ArrM β}
    (hG : ∀ s a, I s → s.arr = some a → G a) (hf : ∀ a, G a → Keeps I (f a) Q) :
    Keeps I (Backd.header >>= f) Q := by
  intro A s x s' hI hrun
  obtain ⟨arr, calls, trace⟩ := s
  cases arr with
  | none => cases hrun
  | some a => exact hf a (hG _ a hI rfl) A _ x s' hI hrun

/-- The header that was read is the one in the state. -/
theorem Keeps.onHeader {f : ArrayT → ArrM β}
    (hf : ∀ a A s x s', I s → s.arr = some a → f a A s = .ok (x, s') → I s' ∧ Q x) :
    Keeps I (Backd.header >>= f) Q := by
  intro A s x s' hI hrun
  obtain ⟨arr, calls, trace⟩ := s
  cases arr with
  | none => cases hrun
  | some a => exact hf a A _ x s' hI rfl hrun

/-- A guard that does not fire is a fact for what follows. -/
theorem Keeps.guard {expr : Bool} {f : Unit → ArrM β}
    (hf : expr = false → Keeps I (f ()) Q) : Keeps I (notifyBugOn expr >>= f) Q := by
  intro A s x s' hI hrun
  cases expr with
  | true => cases hrun
  | false => exact hf rfl A s x s' hI hrun

theorem Keeps.store {g : ArrayT → ArrayT}
    (hg : ∀ s a, I s → s.arr = some a → I { s with arr := some (g a) }) :
    Keeps I (Backd.store g) fun _ => True := by
  intro A s x s' hI hrun
  obtain ⟨arr, calls, trace⟩ := s
  cases arr with
  | none => cases hrun
  | some a =>
      cases hrun
      exact ⟨hg _ a hI rfl, trivial⟩

theorem Keeps.emit {e : Event} (he : ∀ s, I s → I { s with trace := s.trace ++ [e] }) :
    Keeps I (Backd.emit e) fun _ => True := by
  intro A s x s' hI hrun
  cases hrun
  exact ⟨he s hI, trivial⟩

theorem Keeps.runIf {p : Prop} [Decidable p] {m : ArrM Unit}
    (hm : p → Keeps I m fun _ => True) : Keeps I (Backd.runIf p m) fun _ => True := by
  unfold Backd.runIf
  split
  · next hp => exact hm hp
  · exact Keeps.pure trivial

end Rules

/-! ### Inverting a run -/

section Inversion

variable {A : Allocator} {s : ArrSt} {r : β × ArrSt}

/-- In a run that returned, no guard fired. -/
theorem of_guard_ok {expr : Bool} {f : Unit → ArrM β}
    (h : (notifyBugOn expr >>= f) A s = .ok r) : expr = false ∧ f () A s = .ok r := by
  cases expr with
  | true => cases h
  | false => exact ⟨rfl, h⟩

theorem of_diff_ok {x y : ℕ} {f : ℕ → ArrM β} (h : (diff x y >>= f) A s = .ok r) :
    f (szSub x y) A { s with trace := s.trace ++ [.diff x y] } = .ok r := h

end Inversion

/-! ### Reading primitives -/

theorem reads_notifyBugOn (expr : Bool) : Reads (notifyBugOn expr) := by
  intro A s x s' hrun
  cases expr with
  | true => cases hrun
  | false =>
      cases hrun
      rfl

theorem reads_header : Reads header := by
  intro A s x s' hrun
  obtain ⟨arr, calls, trace⟩ := s
  cases arr with
  | none => cases hrun
  | some a =>
      cases hrun
      rfl

theorem Reads.then {m : ArrM α} {f : α → ArrM β} (hm : Reads m) (hf : ∀ x, Reads (f x)) :
    Reads (m >>= f) := by
  intro A s y s'' hrun
  obtain ⟨x, s', h₁, h₂⟩ := of_bind_ok hrun
  rw [hf x A s' y s'' h₂, hm A s x s' h₁]

theorem reads_pure (x : α) : Reads (pure x) := by
  intro A s y s' hrun
  cases hrun
  rfl

theorem reads_fault : Reads (fault (α := α)) := by
  intro A s x s' hrun
  cases hrun

theorem reads_readOf (a : ArrayT) (off len : ℕ) : Reads (readOf a off len) := by
  unfold readOf
  split
  · exact reads_pure _
  · cases a.block with
    | none => exact reads_fault
    | some bs =>
        dsimp only
        split
        · exact reads_pure _
        · exact reads_fault

theorem reads_readBlock (off len : ℕ) : Reads (readBlock off len) :=
  reads_header.then fun a => reads_readOf a off len

theorem reads_readSource (src : Option Bytes) (len : ℕ) : Reads (readSource src len) := by
  unfold readSource
  split <;> split
  · exact reads_pure _
  · exact reads_fault
  · exact reads_pure _
  · exact reads_fault

theorem reads_copyInto (into : Bool) (off len : ℕ) : Reads (copyInto into off len) := by
  unfold copyInto
  split
  · exact (reads_readBlock off len).then fun _ => reads_pure _
  · exact reads_pure _

theorem reads_operand (o : Operand) : Reads o.header := by
  cases o with
  | self => exact reads_header
  | other b => exact reads_pure b

theorem reads_arrayAt (a : ArrayT) (p : ℕ) : Reads (arrayAt a p) := by
  refine (reads_notifyBugOn _).then fun _ => ?_
  split <;> exact reads_pure _

/-! ### Quiet invariants -/

/-- The event concerns elements or sizes, not a buffer. -/
def Event.IsQuiet : Event → Prop
  | .destroy _ | .diff _ _ => True
  | .realloc _ _ | .free _ => False

/-- The invariant does not look at the elements, only at whether there is a block, nor at the
number of allocator calls once it is large enough. -/
structure Quiet (I : ArrSt → Prop) : Prop where
  calls : ∀ s, I s → I { s with calls := s.calls + 1 }
  contents : ∀ s a n block, I s → s.arr = some a → block.isSome = a.block.isSome →
    I { s with arr := some { a with nmemb := n, block := block } }
  events : ∀ s e, I s → e.IsQuiet → I { s with trace := s.trace ++ [e] }

/-- The operations that begin with `array_adjust` and give up when it fails. -/
theorem Keeps.reserve {I : ArrSt → Prop} {n : ℕ} {f : ArrM Bool}
    (hgrow : Keeps I (arrayAdjust n) fun _ => True) (hf : Keeps I f fun _ => True) :
    Keeps I (arrayAdjust n >>= fun ok => if (!ok) = true then Pure.pure false else f)
      fun _ => True := by
  refine hgrow.bind fun ok _ => ?_
  split
  · exact Keeps.pure trivial
  · exact hf

section Quiet

variable {I : ArrSt → Prop} (hI : Quiet I)

include hI

theorem Quiet.diff (x y : ℕ) : Keeps I (Backd.diff x y) fun _ => True :=
  (Keeps.emit (e := .diff x y) fun s hs => hI.events s _ hs trivial).bind fun _ _ =>
    Keeps.pure trivial

theorem Quiet.setSize (f : ArrayT → ℕ) :
    Keeps I (store fun self => { self with nmemb := f self }) fun _ => True :=
  Keeps.store fun s a hs ha => hI.contents s a (f a) a.block hs ha rfl

theorem Quiet.writeBlock (off : ℕ) (src : Bytes) :
    Keeps I (Backd.writeBlock off src) fun _ => True := by
  refine Keeps.onHeader fun a A s x s' hs ha hrun => ?_
  split at hrun
  · cases hrun
    exact ⟨hs, trivial⟩
  · cases hblock : a.block with
    | none =>
        rw [hblock] at hrun
        cases hrun
    | some bs =>
        rw [hblock] at hrun
        dsimp only at hrun
        split at hrun
        · obtain ⟨arr, calls, trace⟩ := s
          obtain rfl : arr = some a := ha
          cases hrun
          exact ⟨hI.contents _ a a.nmemb _ hs rfl (by simp [hblock]), trivial⟩
        · cases hrun

theorem Quiet.moveBlock (dst src len : ℕ) :
    Keeps I (Backd.moveBlock dst src len) fun _ => True :=
  (reads_readBlock src len).bind fun bytes => hI.writeBlock dst bytes

theorem Quiet.callFree (pos : ℕ) : Keeps I (Backd.callFree pos) fun _ => True :=
  reads_header.bind fun _ => (reads_readBlock _ _).bind fun _ =>
    Keeps.emit fun s hs => hI.events s _ hs trivial

theorem Quiet.memoryAlloc (size : ℕ) : Keeps I (Backd.memoryAlloc size) fun _ => True := by
  intro A s x s' hs hrun
  simp only [Backd.memoryAlloc] at hrun
  split at hrun <;> cases hrun <;> exact ⟨hI.calls s hs, trivial⟩

/-! ### Operations that neither grow nor release -/

theorem Quiet.arrayTipex (off : ℕ) (src : Option Bytes) (n : ℕ) :
    Keeps I (Backd.arrayTipex off src n) fun _ => True :=
  Keeps.guard fun _ => (reads_readSource src n).bind fun bytes => hI.writeBlock off bytes

theorem Quiet.arrayUninitializedSize : Keeps I Backd.arrayUninitializedSize fun _ => True := by
  refine reads_header.bind fun self => Keeps.guard fun _ => (hI.diff _ _).bind fun n _ => ?_
  split <;> exact Keeps.pure trivial

theorem Quiet.arrayAppendFromCapacity (n : ℕ) :
    Keeps I (Backd.arrayAppendFromCapacity n) fun _ => True := by
  refine hI.arrayUninitializedSize.bind fun room _ => ?_
  split
  · exact Keeps.pure trivial
  · exact (hI.setSize fun self => szAdd self.nmemb n).bind fun _ _ => Keeps.pure trivial

theorem Quiet.arrayTail : Keeps I Backd.arrayTail fun _ => True := by
  refine reads_header.bind fun self => ?_
  split
  · exact (hI.diff _ _).bind fun p _ => reads_header.bind fun a => (reads_arrayAt a p).keeps
  · exact Keeps.pure trivial

theorem Quiet.clearLoop (n : ℕ) : Keeps I (Backd.clearLoop n) fun _ => True := by
  induction n with
  | zero =>
      exact reads_header.bind fun _ => (hI.diff _ _).bind fun size _ => hI.setSize fun _ => size
  | succ n ih =>
      exact reads_header.bind fun _ => (hI.diff _ _).bind fun size _ =>
        (hI.setSize fun _ => size).bind fun _ _ => (hI.callFree size).bind fun _ _ => ih

theorem Quiet.arrayClear : Keeps I Backd.arrayClear fun _ => True :=
  reads_header.bind fun self => (Keeps.runIf fun _ => hI.clearLoop self.nmemb).bind fun _ _ =>
    hI.setSize fun _ => 0

theorem Quiet.arrayPop (into : Bool) : Keeps I (Backd.arrayPop into) fun _ => True :=
  reads_header.bind fun _ => Keeps.guard fun _ => (hI.diff _ _).bind fun size _ =>
    (hI.setSize fun _ => size).bind fun _ _ => (reads_copyInto into _ _).bind fun _ =>
      (Keeps.runIf fun _ => hI.callFree size).bind fun _ _ => Keeps.pure trivial

theorem Quiet.arrayEvict (p : ℕ) : Keeps I (Backd.arrayEvict p) fun _ => True :=
  reads_header.bind fun _ => Keeps.guard fun _ => (hI.diff _ _).bind fun _ _ =>
    (Keeps.runIf fun _ => hI.callFree p).bind fun _ _ => (hI.diff _ _).bind fun size _ =>
      (hI.setSize fun _ => size).bind fun _ _ => Keeps.runIf fun _ =>
        (hI.diff _ _).bind fun _ _ => hI.moveBlock _ _ _

theorem Quiet.arrayPopf (into : Bool) : Keeps I (Backd.arrayPopf into) fun _ => True :=
  reads_header.bind fun _ => Keeps.guard fun _ => (reads_copyInto into _ _).bind fun _ =>
    (hI.arrayEvict 0).bind fun _ _ => Keeps.pure trivial

theorem Quiet.wipeLoop (n i : ℕ) : Keeps I (Backd.wipeLoop n i) fun _ => True := by
  induction n generalizing i with
  | zero => exact Keeps.pure trivial
  | succ n ih => exact (hI.callFree i).bind fun _ _ => ih (i + 1)

theorem Quiet.arrayWipe (start stop : ℕ) :
    Keeps I (Backd.arrayWipe start stop) fun _ => True :=
  reads_header.bind fun _ => Keeps.guard fun _ => (hI.diff _ _).bind fun _ _ =>
    Keeps.guard fun _ => (hI.diff _ _).bind fun n _ =>
      (Keeps.runIf fun _ => hI.wipeLoop n 0).bind fun _ _ => (hI.diff _ _).bind fun _ _ =>
        (hI.diff _ _).bind fun _ _ => (hI.moveBlock _ _ _).bind fun _ _ =>
          reads_header.bind fun _ => (hI.diff _ _).bind fun size _ => hI.setSize fun _ => size

theorem Quiet.xorByte (p q : ℕ) : Keeps I (Backd.xorByte p q) fun _ => True :=
  (reads_readBlock p 1).bind fun _ => (reads_readBlock q 1).bind fun _ => hI.writeBlock p _

theorem Quiet.swapLoop (n p q : ℕ) : Keeps I (Backd.swapLoop n p q) fun _ => True := by
  induction n generalizing p q with
  | zero => exact Keeps.pure trivial
  | succ n ih =>
      exact (hI.xorByte p q).bind fun _ _ => (hI.xorByte q p).bind fun _ _ =>
        (hI.xorByte p q).bind fun _ _ => ih (p + 1) (q + 1)

theorem Quiet.arraySwapElems (i j : ℕ) :
    Keeps I (Backd.arraySwapElems i j) fun _ => True :=
  reads_header.bind fun _ => Keeps.guard fun _ => Keeps.guard fun _ => hI.swapLoop _ _ _

theorem Quiet.arrayExtract (start stop : ℕ) :
    Keeps I (Backd.arrayExtract start stop) fun _ => True := by
  refine reads_header.bind fun _ => Keeps.guard fun _ => (hI.diff _ _).bind fun _ _ =>
    Keeps.guard fun _ => Keeps.guard fun _ => (hI.diff _ _).bind fun _ _ =>
      (hI.diff _ _).bind fun _ _ => Keeps.guard fun _ => (hI.diff _ _).bind fun _ _ =>
        (hI.memoryAlloc _).bind fun r _ => ?_
  cases r with
  | none => exact Keeps.pure trivial
  | some p =>
      exact (hI.diff _ _).bind fun _ _ => (reads_readBlock _ _).bind fun _ => Keeps.pure trivial

theorem Quiet.pullLoop (src : ArrayT) (n off : ℕ) (start stop : ℤ) :
    Keeps I (Backd.pullLoop src n off start stop) fun _ => True := by
  induction n generalizing off start with
  | zero =>
      unfold Backd.pullLoop
      split
      · exact Keeps.pure trivial
      · exact reads_fault.keeps
  | succ n ih =>
      unfold Backd.pullLoop
      split
      · exact Keeps.pure trivial
      · exact (reads_readOf _ _ _).bind fun bytes => (hI.writeBlock off bytes).bind fun _ _ =>
          ih _ _

theorem Quiet.pullCopy (src : ArrayT) (n size : ℕ) (start stop : ℤ) :
    Keeps I (Backd.pullCopy src n size start stop) fun _ => True := by
  unfold Backd.pullCopy
  split
  · exact (reads_readOf _ _ _).bind fun bytes => hI.writeBlock 0 bytes
  · exact hI.pullLoop src n 0 start stop

/-! ### Operations that grow -/

section Growing

variable (hgrow : ∀ n, Keeps I (arrayAdjust n) fun _ => True)

include hgrow

theorem Quiet.arrayPush (e : Option Bytes) : Keeps I (Backd.arrayPush e) fun _ => True :=
  Keeps.guard fun _ => Keeps.reserve (hgrow _) <| reads_header.bind fun _ =>
    (reads_readSource e _).bind fun _ => (hI.writeBlock _ _).bind fun _ _ =>
      (hI.setSize fun self => szAdd self.nmemb 1).bind fun _ _ => Keeps.pure trivial

theorem Quiet.arrayInsert (p : ℕ) (e : Option Bytes) :
    Keeps I (Backd.arrayInsert p e) fun _ => True :=
  reads_header.bind fun _ => Keeps.guard fun _ => Keeps.reserve (hgrow _) <|
    reads_header.bind fun _ => (Keeps.runIf fun _ =>
      (hI.diff _ _).bind fun _ _ => hI.moveBlock _ _ _).bind fun _ _ =>
        (reads_readSource e _).bind fun _ => (hI.writeBlock _ _).bind fun _ _ =>
          (hI.setSize fun self => szAdd self.nmemb 1).bind fun _ _ => Keeps.pure trivial

theorem Quiet.arrayInject (p : ℕ) (src : Option Bytes) (n : ℕ) :
    Keeps I (Backd.arrayInject p src n) fun _ => True := by
  refine reads_header.bind fun _ => Keeps.guard fun _ => Keeps.guard fun _ =>
    Keeps.guard fun _ => Keeps.reserve (hgrow _) ?_
  split
  · exact Keeps.pure trivial
  · exact reads_header.bind fun _ => (Keeps.runIf fun _ =>
      (hI.diff _ _).bind fun _ _ => hI.moveBlock _ _ _).bind fun _ _ =>
        (reads_readSource src _).bind fun _ => (hI.writeBlock _ _).bind fun _ _ =>
          (hI.setSize fun self => szAdd self.nmemb n).bind fun _ _ => Keeps.pure trivial

theorem Quiet.arrayAppend (src : Option Bytes) (n : ℕ) :
    Keeps I (Backd.arrayAppend src n) fun _ => True :=
  Keeps.guard fun _ => Keeps.reserve (hgrow _) <| reads_header.bind fun _ =>
    (reads_readSource src _).bind fun _ => (hI.writeBlock _ _).bind fun _ _ =>
      (hI.setSize fun self => szAdd self.nmemb n).bind fun _ _ => Keeps.pure trivial

theorem Quiet.arrayConcat (o : Operand) : Keeps I (Backd.arrayConcat o) fun _ => True :=
  reads_header.bind fun _ => (reads_operand o).bind fun _ => Keeps.guard fun _ =>
    Keeps.reserve (hgrow _) <| reads_header.bind fun _ => (reads_operand o).bind fun _ =>
      (reads_readOf _ _ _).bind fun _ => (hI.writeBlock _ _).bind fun _ _ =>
        (reads_operand o).bind fun other =>
          (hI.setSize fun self => szAdd self.nmemb other.nmemb).bind fun _ _ =>
            Keeps.pure trivial

theorem Quiet.filterLoop (src : ArrayT) (callback : Bytes → Bool) (n i : ℕ) :
    Keeps I (Backd.filterLoop src callback n i) fun _ => True := by
  induction n generalizing i with
  | zero => exact Keeps.pure trivial
  | succ n ih =>
      refine (reads_arrayAt src i).bind fun r => ?_
      cases r with
      | none => exact Keeps.pure trivial
      | some off =>
          refine (reads_readOf src off _).bind fun elem => ?_
          split
          · refine (hI.arrayPush hgrow (some elem)).bind fun ok _ => ?_
            cases ok with
            | true => exact ih (i + 1)
            | false => exact Keeps.pure trivial
          · exact ih (i + 1)

end Growing

end Quiet

end Backd
