import Mathlib.Algebra.BigOperators.Group.List.Basic
import Mathlib.Data.Multiset.AddSub
import Backd.ArrayRuns

/-!
# Every Element Is Destroyed Once

For an array with a destructor, the elements are counted as multisets along a run:

    destroyed so far + still in the array = held at the start + inserted so far

The equation is kept by every call (`Call.conserves` for the list, `Balanced.step` for the
array), so no element is destroyed while it is still in the array, and what
`array_kill` destroys at the end settles the account exactly.

`array_concat` copies elements that belong to another array, and is left out.

## Main results

* `destroyed_eq_inserted`: the account after every run, what each call destroys, and the
  account after `array_kill`.
-/

namespace Backd

open Splice Runs

namespace Call

/-- The elements a call puts in, when it succeeds. -/
def inserted (k : ℕ) : Call → List Bytes
  | push e | pushf e | insert _ e => [e.take k]
  | inject _ src n | append src n => cells k n src
  | concat _ | pop _ | popf _ | evict _ | clear | adjust _ | settle | unsettle => []

/-- The call copies elements of another array. -/
def isConcat : Call → Bool
  | concat _ => true
  | _ => false

/-- A part put into the middle of a list. -/
theorem perm_splice (l m : List Bytes) (p : ℕ) :
    (l.take p ++ m ++ l.drop p).Perm (l ++ m) :=
  calc l.take p ++ m ++ l.drop p
      = l.take p ++ (m ++ l.drop p) := List.append_assoc _ _ _
    List.Perm _ (l.take p ++ (l.drop p ++ m)) := List.perm_append_comm.append_left _
    _ = l ++ m := by rw [← List.append_assoc, List.take_append_drop]

/-- The list operation of a call neither makes nor loses elements. -/
theorem conserves (k : ℕ) (l : List Bytes) {call : Call} (hcall : call.isConcat = false) :
    (↑(call.removed l) : Multiset Bytes) + ↑(call.onList k l) = ↑l + ↑(call.inserted k) := by
  rw [Multiset.coe_add, Multiset.coe_add, Multiset.coe_eq_coe]
  cases call with
  | push e | append src n => exact List.Perm.refl _
  | pushf e => exact (List.perm_append_singleton _ _).symm
  | insert p e | inject p src n => exact perm_splice _ _ _
  | concat other => cases hcall
  | pop into =>
      rcases List.eq_nil_or_concat l with rfl | ⟨m, e, rfl⟩
      · exact List.Perm.refl _
      · simpa [removed, onList, inserted] using (List.perm_append_singleton e m).symm
  | popf into => cases l <;> simp [removed, onList, inserted]
  | evict p =>
      by_cases hp : p < l.length
      · simpa [removed, onList, inserted, hp] using List.getElem_cons_eraseIdx_perm hp
      · simp [removed, onList, inserted, hp, List.eraseIdx_of_length_le (Nat.le_of_not_lt hp)]
  | clear => simp [removed, onList, inserted, List.reverse_perm]
  | adjust n | settle | unsettle => simp [removed, onList, inserted]

end Call

/-- The elements inserted by the calls of a log that succeeded. -/
def insertedBy (k : ℕ) (log : List (Call × Answer)) : Multiset Bytes :=
  (log.map fun e => if e.2.performed then (↑(e.1.inserted k) : Multiset Bytes) else 0).sum

/-- The machine of one array whose elements come from the caller. -/
def ownerMachine (A : Allocator) : Machine ArrSt Call Answer :=
  (arrayMachine A).restrict fun call => call.isConcat = false

/-- The account of an array with a destructor: the total of the elements destroyed since
the trace `t` and of those still in the array. -/
def Balanced (k : ℕ) (t : List Event) (s : ArrSt) (total : Multiset Bytes) : Prop :=
  ∃ a l ev, s.arr = some a ∧ Holds a l ∧ a.eltSize = k ∧ a.free = true ∧
    s.trace = t ++ ev ∧ ↑(destroyed ev) + ↑l = total

section Account

variable {A : Allocator} {k : ℕ} {s s' : ArrSt} {t : List Event} {total : Multiset Bytes}
  {call : Call} {ans : Answer}

/-- With a destructor, everything removed is destroyed. -/
theorem dropped_eq {a : ArrayT} (h : a.free = true) (gone : List Bytes) :
    a.dropped gone = gone := by
  simp [ArrayT.dropped, h]

/-- **Step lemma**: the account changes by what the call inserted. -/
theorem Balanced.step (h : Balanced k t s total) (hadm : (ownerMachine A).Admits s call)
    (hstep : (ownerMachine A).step s call = some (ans, s')) :
    Balanced k t s' (total + insertedBy k [(call, ans)]) := by
  obtain ⟨a, l, ev, ha, hl, rfl, hfree, htrace, rfl⟩ := h
  obtain ⟨hadm, hcall⟩ := hadm
  obtain ⟨b, d, hb, hd, hacts⟩ := acts_of_step ha hl hadm hstep
  have hbfree : b.free = true := hacts.free_eq.trans hfree
  have hgone : destroyed d = call.removed l := by
    rw [hacts.destroyed_eq, dropped_eq hfree]
  rcases hacts.outcome with ⟨hans, hholds⟩ | ⟨hans, rfl, hnone⟩
  · refine ⟨b, _, ev ++ d, hb, hholds, hacts.eltSize_eq, hbfree, ?_, ?_⟩
    · rw [hd, htrace, List.append_assoc]
    · calc (↑(destroyed (ev ++ d)) : Multiset Bytes) + ↑(call.onList a.eltSize l)
          = ↑(destroyed ev) + (↑(call.removed l) + ↑(call.onList a.eltSize l)) := by
            rw [destroyed_append, hgone, ← Multiset.coe_add, Multiset.add_assoc]
        _ = ↑(destroyed ev) + (↑l + ↑(call.inserted a.eltSize)) := by
            rw [Call.conserves _ _ hcall]
        _ = ↑(destroyed ev) + ↑l + insertedBy a.eltSize [(call, ans)] := by
            rw [← Multiset.add_assoc]
            simp [insertedBy, hans]
  · refine ⟨b, l, ev ++ d, hb, hl, rfl, hbfree, ?_, ?_⟩
    · rw [hd, htrace, List.append_assoc]
    · rw [destroyed_append, hgone, hnone, List.append_nil]
      simp [insertedBy, hans]

/-- The inserted elements add up along a log. -/
theorem foldl_insertedBy (log : List (Call × Answer)) :
    log.foldl (fun m e => m + insertedBy k [e]) total = total + insertedBy k log := by
  induction log generalizing total with
  | nil => simp [insertedBy]
  | cons e log ih =>
      rw [List.foldl_cons, ih]
      simp [insertedBy, Multiset.add_assoc]

/-- **Every element is destroyed once.** After any run from a live array with a
destructor: what was destroyed and what is in the array make up what was held and
inserted; each call destroys exactly the elements it takes out; and once `array_kill` has
returned, what was destroyed is what was held and inserted. -/
theorem destroyed_eq_inserted {a₀ : ArrayT} {l₀ : List Bytes} {calls : ℕ}
    {log : List (Call × Answer)} (hl₀ : Holds a₀ l₀) (hk : a₀.eltSize = k)
    (hfree : a₀.free = true) (hrun : (ownerMachine A).Run ⟨some a₀, calls, t⟩ log s) :
    ∃ a ev, s.arr = some a ∧ s.trace = t ++ ev ∧
      (↑(destroyed ev) + ↑a.elements : Multiset Bytes) = ↑l₀ + insertedBy k log ∧
      (∀ call ans s', (ownerMachine A).Admits s call →
        (ownerMachine A).step s call = some (ans, s') →
        ∃ b d, s'.arr = some b ∧ s'.trace = s.trace ++ d ∧
          destroyed d = call.removed a.elements ∧
          b.elements = listStep k a.elements (call, ans)) ∧
      ∃ calls' d, arrayKill A s = .ok ((), ⟨none, calls', s.trace ++ d⟩) ∧
        destroyed d = a.elements.reverse ∧
        (↑(destroyed (ev ++ d)) : Multiset Bytes) = ↑l₀ + insertedBy k log := by
  have hstart : Balanced k t ⟨some a₀, calls, t⟩ ↑l₀ :=
    ⟨a₀, l₀, [], rfl, hl₀, hk, hfree, by simp, by simp [destroyed]⟩
  obtain ⟨a, l, ev, ha, hl, hk', hfree', htrace, htotal⟩ :=
    hrun.refines (H := fun _ => True) (fun m e => m + insertedBy k [e])
      (fun h _ hadm hstep => h.step hadm hstep) hstart (fun _ _ => trivial)
  rw [foldl_insertedBy] at htotal
  refine ⟨a, ev, ha, htrace, by rw [hl.elements_eq, htotal], ?_, ?_⟩
  · rintro call ans s' ⟨hadm, -⟩ hstep
    obtain ⟨b, d, hb, hd, hacts⟩ := acts_of_step ha hl hadm hstep
    refine ⟨b, d, hb, hd, ?_, ?_⟩
    · rw [hacts.destroyed_eq, dropped_eq hfree', hl.elements_eq]
    · have hsim : Simulates k true s l := ⟨a, ha, hl, hk', hfree'⟩
      obtain ⟨b', hb', hlist, -⟩ := hsim.step hadm hstep
      obtain rfl : b = b' := Option.some.inj (hb.symm.trans hb')
      rw [hlist.elements_eq, hl.elements_eq]
  · obtain ⟨arr, calls', trace⟩ := s
    obtain rfl : arr = some a := ha
    obtain ⟨d, hkill, hd⟩ := arrayKill_run (A := A) hl calls' trace
    rw [dropped_eq hfree'] at hd
    refine ⟨calls', d, hkill, by rw [hd, hl.elements_eq], ?_⟩
    rw [destroyed_append, hd, ← Multiset.coe_add, Multiset.coe_reverse, htotal]

end Account

/-- Two elements go in, one is evicted, and `array_kill` destroys the other. -/
theorem pairs_destroyed_once : ∃ calls d,
    arrayKill (.upTo 2) ⟨some (pairsArray 1 [3, 4, 1, 2, 0, 0, 0, 0]), 2, pairsTrace⟩
        = .ok ((), ⟨none, calls, pairsTrace ++ d⟩) ∧
      (↑(destroyed (pairsTrace ++ d)) : Multiset Bytes) = {[1, 2], [3, 4]} := by
  have hempty : Holds (pairsArray 0 [0, 0, 0, 0, 0, 0, 0, 0]) [] :=
    ⟨by decide, by decide, rfl, _, rfl, rfl, lays_nil _ _⟩
  have hrun : (ownerMachine (.upTo 2)).Run _ _ _ := pairs_run.restrict (by decide)
  obtain ⟨a, ev, -, rfl, -, -, calls, d, hkill, -, htotal⟩ :=
    destroyed_eq_inserted hempty rfl rfl hrun
  exact ⟨calls, d, hkill, htotal⟩

end Backd
