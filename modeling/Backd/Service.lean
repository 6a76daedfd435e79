import Backd.Main
import Backd.Snapshot

/-!
# The Start of the Service

`service_init` of `loop.c`: the operands are taken off the stack one after the other, and
for each a snapshot is taken. A slot whose snapshot fails is used again for the next one.

## Conventions

The slots are static arrays, and a write behind their end stops the loop with `none`. So does
`fs_target_create` if `basename` has slashes to take away from a literal, which cannot be
written to. `create` stands for `fs_target_create` on the file system as it is; a slot of
`paths` is written as the string it had on the stack. The messages of the logger are left out.
-/

namespace Backd

/-- The size of `fp` and of `paths`. -/
def serviceSlots : ℕ := 64

/-- `fp`, `paths` and `fp_index`. -/
structure ServiceSt where
  fp : List FsTarget
  paths : List (Option CStr)
  fpIndex : ℕ
  fp_length : fp.length = serviceSlots
  paths_length : paths.length = serviceSlots

/-- The slots the program starts with. -/
def ServiceSt.zeroed : ServiceSt :=
  { fp := List.replicate serviceSlots .null, paths := List.replicate serviceSlots none,
    fpIndex := 0, fp_length := List.length_replicate, paths_length := List.length_replicate }

/-- `paths[fp_index] = path`. -/
def ServiceSt.putPath (svc : ServiceSt) (path : Option CStr) : Option ServiceSt :=
  if svc.fpIndex < serviceSlots then
    some { svc with
      paths := svc.paths.set svc.fpIndex path
      paths_length := by rw [List.length_set, svc.paths_length] }
  else none

/-- `fp[fp_index] = target`. -/
def ServiceSt.putTarget (svc : ServiceSt) (target : FsTarget) : Option ServiceSt :=
  if svc.fpIndex < serviceSlots then
    some { svc with
      fp := svc.fp.set svc.fpIndex target
      fp_length := by rw [List.length_set, svc.fp_length] }
  else none

/-- `basename` writes to a literal. -/
def Filename.Faults : Filename → Prop
  | .argument _ => False
  | .literal text => basenameCut text ≠ text

instance : DecidablePred Filename.Faults
  | .argument _ => isFalse id
  | .literal text => inferInstanceAs (Decidable (basenameCut text ≠ text))

/-- The loop of `service_init`. -/
def serviceLoop (create : CStr → FsTarget) : ℕ → FileStack → ServiceSt → Option ServiceSt
  | 0, _, _ => none
  | turns + 1, s, svc => do
    let (path, s) := filenameStackPop s
    let svc ← svc.putPath (path.map Filename.text)
    match path with
    | none => return svc
    | some path =>
      if path.Faults then none
      else do
        let svc ← svc.putTarget (create path.text)
        if (create path.text).NotNull then
          serviceLoop create turns s { svc with fpIndex := svc.fpIndex + 1 }
        else serviceLoop create turns s svc

/-- `service_init`. Every turn but the last takes an operand off the stack. -/
def serviceInit (create : CStr → FsTarget) (s : FileStack) : Option ServiceSt :=
  serviceLoop create (s.top + 1) s .zeroed

/-! ### What the stack holds -/

/-- The stack holds these operands, the last one on top. -/
structure FileStack.Holds (s : FileStack) (l : List Filename) : Prop where
  top_eq : s.top = l.length
  cells_eq : ∃ x rest, s.cells = x :: (l.map some ++ rest)

theorem FileStack.empty_holds : FileStack.empty.Holds [] :=
  ⟨rfl, none, List.replicate (fileStackSize - 1) none, rfl⟩

/-- The stack holds less than `FILE_STACK_SIZE` operands. -/
theorem FileStack.Holds.length_lt {s : FileStack} {l : List Filename} (h : s.Holds l) :
    l.length < fileStackSize := h.top_eq ▸ s.top_lt

/-- A push with room left. -/
theorem FileStack.Holds.push {s : FileStack} {l : List Filename} (h : s.Holds l)
    (hroom : l.length + 1 < fileStackSize) (filename : Filename) :
    (filenameStackPush s filename).Holds (l ++ [filename]) := by
  obtain ⟨x, rest, hcells⟩ := h.cells_eq
  have hlt : s.top < fileStackSize - 1 := by
    rw [h.top_eq]
    omega
  rw [filenameStackPush, dif_pos hlt]
  refine ⟨by simp [h.top_eq], ?_⟩
  have hlen := s.length_eq
  rw [hcells, List.length_cons, List.length_append, List.length_map] at hlen
  cases rest with
  | nil =>
      rw [List.length_nil] at hlen
      omega
  | cons y rest =>
      refine ⟨x, rest, ?_⟩
      dsimp only
      rw [hcells, h.top_eq, List.set_cons_succ, List.set_append_right _ _ (by simp)]
      simp

/-- A push on a full stack does nothing. -/
theorem FileStack.Holds.push_full {s : FileStack} {l : List Filename} (h : s.Holds l)
    (hfull : l.length + 1 = fileStackSize) (filename : Filename) :
    filenameStackPush s filename = s := by
  have hlt : ¬ s.top < fileStackSize - 1 := by
    rw [h.top_eq]
    omega
  rw [filenameStackPush, dif_neg hlt]

/-- A pop takes the last operand. -/
theorem FileStack.Holds.pop {s : FileStack} {l : List Filename} {filename : Filename}
    (h : s.Holds (l ++ [filename])) :
    ∃ s', filenameStackPop s = (some filename, s') ∧ s'.Holds l := by
  obtain ⟨x, rest, hcells⟩ := h.cells_eq
  have htop : s.top = l.length + 1 := by simpa using h.top_eq
  have hcell : s.cells.getD s.top none = some filename := by
    rw [hcells, htop, List.getD_cons_succ]
    simp
  rw [filenameStackPop, if_pos (by omega), hcell]
  refine ⟨_, rfl, by simp [htop], x, some filename :: rest, ?_⟩
  simp [hcells]

/-- A pop from the empty stack. -/
theorem FileStack.Holds.pop_nil {s : FileStack} (h : s.Holds []) :
    filenameStackPop s = (none, s) := by
  rw [filenameStackPop, if_neg (by simp [h.top_eq])]

/-- The loop exchanges the ends of a run of cells, then those of the run between them, and
so turns it around. -/
theorem reverseLoop_eq (turns : ℕ) (f m r : List (Option Filename)) (hturns : m.length ≤ turns) :
    reverseLoop (f ++ (m ++ r)) turns f.length (f.length + m.length - 1) =
      f ++ (m.reverse ++ r) := by
  induction turns generalizing f m r with
  | zero =>
      obtain rfl : m = [] := List.eq_nil_of_length_eq_zero (Nat.le_zero.mp hturns)
      rfl
  | succ turns ih =>
      rw [reverseLoop]
      rcases m with _ | ⟨x, m⟩
      · rw [if_neg (by simp)]
        rfl
      rcases List.eq_nil_or_concat' m with rfl | ⟨mid, y, rfl⟩
      · rw [if_neg (by simp)]
        rfl
      have hlt : f.length < f.length + (x :: (mid ++ [y])).length - 1 := by
        simp only [List.length_cons, List.length_append]
        omega
      have hj : f.length + (x :: (mid ++ [y])).length - 1 = f.length + (mid.length + 1) := by
        simp only [List.length_cons, List.length_append, List.length_nil]
        omega
      have hx : (f ++ (x :: (mid ++ [y]) ++ r)).getD f.length none = x := by simp
      have hy : (f ++ (x :: (mid ++ [y]) ++ r)).getD (f.length + (mid.length + 1)) none = y := by
        simp [List.getD_eq_getElem?_getD]
      have hset : ((f ++ (x :: (mid ++ [y]) ++ r)).set f.length y).set
          (f.length + (mid.length + 1)) x = (f ++ [y]) ++ (mid ++ (x :: r)) := by
        simp [List.set_append_right]
      have hnext := ih (f ++ [y]) mid (x :: r) (by
        simp only [List.length_cons, List.length_append, List.length_nil] at hturns
        omega)
      rw [if_pos hlt, hj]
      simp only [hx, hy, hset]
      have hfront : (f ++ [y]).length = f.length + 1 := by simp
      have hback : f.length + (mid.length + 1) - 1 = (f ++ [y]).length + mid.length - 1 := by
        rw [hfront]
        omega
      rw [← hfront, hback, hnext]
      simp

/-- **`stack_reverse_in_place`** turns the operands around. -/
theorem FileStack.Holds.reverse {s : FileStack} {l : List Filename} (h : s.Holds l) :
    (stackReverseInPlace s).Holds l.reverse := by
  obtain ⟨x, rest, hcells⟩ := h.cells_eq
  have htop : s.top = [x].length + (l.map some).length - 1 := by
    rw [h.top_eq, List.length_map, List.length_singleton]
    omega
  refine ⟨by simpa [stackReverseInPlace] using h.top_eq, x, rest, ?_⟩
  have hloop := reverseLoop_eq s.top [x] (l.map some) rest (by
    rw [h.top_eq, List.length_map])
  rw [← htop] at hloop
  have hsame : (stackReverseInPlace s).cells = reverseLoop s.cells s.top 1 s.top := rfl
  rw [hsame, hcells]
  simpa using hloop

/-! ### What the service takes -/

/-- The slots below `fp_index` hold these snapshots. -/
structure ServiceSt.Took (svc : ServiceSt) (create : CStr → FsTarget) (l : List CStr) : Prop where
  index : svc.fpIndex = l.length
  targets : svc.fp.take svc.fpIndex = l.map create
  names : svc.paths.take svc.fpIndex = l.map some

section Take

variable {create : CStr → FsTarget} {svc : ServiceSt} {l : List CStr}

/-- A write behind the slots that are filled. -/
theorem take_set_behind {α : Type*} (xs : List α) (n : ℕ) (x : α) :
    (xs.set n x).take n = xs.take n := by
  rw [List.take_set, List.set_eq_of_length_le (List.length_take_le _ _)]

/-- The first slot that is not filled takes what is written to it. -/
theorem take_set_succ {α : Type*} {xs : List α} {n : ℕ} (h : n < xs.length) (x : α) :
    (xs.set n x).take (n + 1) = xs.take n ++ [x] := by
  rw [List.take_succ_eq_append_getElem (by rwa [List.length_set]), take_set_behind,
    List.getElem_set_self]

/-- Nothing is taken in the beginning. -/
theorem ServiceSt.zeroed_took (create : CStr → FsTarget) : ServiceSt.zeroed.Took create [] :=
  ⟨rfl, rfl, rfl⟩

/-- A path in the next slot leaves what was taken. -/
theorem ServiceSt.Took.putPath (h : svc.Took create l) (hroom : l.length < serviceSlots)
    (path : Option CStr) :
    ∃ svc', svc.putPath path = some svc' ∧ svc'.Took create l ∧
      svc'.paths.take (svc'.fpIndex + 1) = l.map some ++ [path] := by
  have hlt : svc.fpIndex < serviceSlots := h.index ▸ hroom
  rw [ServiceSt.putPath, if_pos hlt]
  refine ⟨_, rfl, ⟨h.index, h.targets, (take_set_behind _ _ _).trans h.names⟩, ?_⟩
  rw [take_set_succ (svc.paths_length ▸ hlt), h.names]

/-- A snapshot in the next slot is taken if it is counted, and leaves what was taken if
not. -/
theorem ServiceSt.Took.putTarget {path : CStr} (h : svc.Took create l)
    (hroom : l.length < serviceSlots)
    (hpath : svc.paths.take (svc.fpIndex + 1) = l.map some ++ [some path]) :
    ∃ svc', svc.putTarget (create path) = some svc' ∧ svc'.Took create l ∧
      ({ svc' with fpIndex := svc'.fpIndex + 1 } : ServiceSt).Took create (l ++ [path]) := by
  have hlt : svc.fpIndex < serviceSlots := h.index ▸ hroom
  rw [ServiceSt.putTarget, if_pos hlt]
  refine ⟨_, rfl, ⟨h.index, (take_set_behind _ _ _).trans h.targets, h.names⟩, ?_, ?_, ?_⟩
  · simp [h.index]
  · rw [take_set_succ (svc.fp_length ▸ hlt), h.targets]
    simp
  · rw [hpath]
    simp

/-- The operands whose snapshots are counted. -/
def created (create : CStr → FsTarget) (l : List CStr) : List CStr :=
  l.filter fun path => (create path).NotNull

/-- The strings of what is on the stack. -/
def texts (l : List Filename) : List CStr := l.map Filename.text

/-- The loop of `service_init` takes the snapshots of what is on the stack, from the top
on. -/
theorem serviceLoop_takes {s : FileStack} {todo : List Filename}
    (hs : s.Holds todo.reverse) (hsafe : ∀ f ∈ todo, ¬ f.Faults) {turns : ℕ}
    (hturns : todo.length < turns) (h : svc.Took create l)
    (hroom : l.length + todo.length < serviceSlots) :
    ∃ svc', serviceLoop create turns s svc = some svc' ∧
      svc'.Took create (l ++ created create (texts todo)) := by
  induction turns generalizing s todo svc l with
  | zero => omega
  | succ turns ih =>
      cases todo with
      | nil =>
          obtain ⟨svc', hput, htook, -⟩ := h.putPath (by simpa using hroom) none
          refine ⟨svc', ?_, by simpa [created, texts] using htook⟩
          rw [serviceLoop, hs.pop_nil]
          simp only [Option.map_none, hput, Option.bind_eq_bind, Option.bind_some]
          rfl
      | cons path todo =>
          rw [List.length_cons] at hroom hturns
          rw [List.reverse_cons] at hs
          rw [List.forall_mem_cons] at hsafe
          obtain ⟨s', hpop, hs'⟩ := hs.pop
          obtain ⟨svc₁, hput, htook, hname⟩ := h.putPath (by omega) (some path.text)
          obtain ⟨svc₂, htarget, hkept, hcounted⟩ := htook.putTarget (by omega) hname
          rw [serviceLoop, hpop]
          simp only [Option.map_some, hput, if_neg hsafe.1, htarget, Option.bind_eq_bind,
            Option.bind_some]
          by_cases hnull : (create path.text).NotNull
          · rw [if_pos hnull]
            obtain ⟨svc', hloop, hall⟩ := ih hs' hsafe.2 (by omega) hcounted (by
              rw [List.length_append, List.length_singleton]
              omega)
            refine ⟨svc', hloop, ?_⟩
            simpa [created, texts, hnull] using hall
          · rw [if_neg hnull]
            obtain ⟨svc', hloop, hall⟩ := ih hs' hsafe.2 (by omega) hkept (by omega)
            refine ⟨svc', hloop, ?_⟩
            simpa [created, texts, hnull] using hall

/-- A loop that comes to its end was given no literal that `basename` writes to. -/
theorem serviceLoop_safe {s : FileStack} {todo : List Filename} (hs : s.Holds todo.reverse)
    {turns : ℕ} {svc' : ServiceSt} (h : serviceLoop create turns s svc = some svc') :
    ∀ f ∈ todo, ¬ f.Faults := by
  induction turns generalizing s todo svc with
  | zero => cases h
  | succ turns ih =>
      cases todo with
      | nil => simp
      | cons path todo =>
          rw [List.reverse_cons] at hs
          obtain ⟨s', hpop, hs'⟩ := hs.pop
          rw [serviceLoop, hpop] at h
          obtain ⟨svc₁, -, h⟩ := Option.bind_eq_some_iff.mp h
          simp only at h
          split at h
          · cases h
          · next hsafe =>
              refine List.forall_mem_cons.mpr ⟨hsafe, ?_⟩
              obtain ⟨svc₂, -, h⟩ := Option.bind_eq_some_iff.mp h
              split at h
              · exact ih hs' h
              · exact ih hs' h

/-- **`service_init`** takes the snapshots of the operands on a stack that was turned
around. -/
theorem serviceInit_takes (create : CStr → FsTarget) {s : FileStack} {todo : List Filename}
    (hs : s.Holds todo.reverse) (hsafe : ∀ f ∈ todo, ¬ f.Faults) :
    ∃ svc, serviceInit create s = some svc ∧
      svc.Took create (created create (texts todo)) := by
  have htop : s.top = todo.length := by rw [hs.top_eq, List.length_reverse]
  have hlt : todo.length < serviceSlots :=
    Nat.lt_trans (htop ▸ s.top_lt : todo.length < fileStackSize) (by decide)
  have hturns : todo.length < s.top + 1 := Nat.lt_succ_of_le (Nat.le_of_eq htop.symm)
  have h := serviceLoop_takes hs hsafe hturns (ServiceSt.zeroed_took create)
    (by simpa using hlt)
  simpa [serviceInit] using h

/-- It comes to its end exactly if none of them is a literal that `basename` writes to. -/
theorem serviceInit_iff {s : FileStack} {todo : List Filename} (hs : s.Holds todo.reverse) :
    (∃ svc, serviceInit create s = some svc) ↔ ∀ f ∈ todo, ¬ f.Faults := by
  constructor
  · rintro ⟨svc, hinit⟩
    exact serviceLoop_safe hs hinit
  · intro hsafe
    exact (serviceInit_takes create hs hsafe).imp fun _ h => h.1

end Take

end Backd
