import Backd.Dynstr

/-!
# Reading From a Descriptor

`fd_read` and `fd_sneek_read` of `fs.c`. The second is meant to look at the next bytes
without moving on: it asks for the offset, reads, and sets the offset back.

## Conventions

A seekable descriptor is its contents and its offset, which may lie behind them. `lseek` and
`read` do what POSIX says: a read starts at the offset, hands out no more bytes than it is
asked for and than there are, possibly fewer, and moves the offset on by as many; one that
fails moves nothing. How many bytes it is ready to hand out, or that it fails, is the
`ReadOutcome`. The memory at `dest` holds at least `n` bytes, as the callers of a read
promise; a write outside it stops the call with `none`.

## Main results

* `fdSneekRead_eq`: a call does what `fd_read` does, and takes back the move if it succeeds.
* `fdSneekRead_keeps_iff`: the offset stays where it was unless some of the bytes are read,
  but not all.
-/

namespace Backd

open Splice

/-! ### Descriptors -/

/-- The largest `off_t`. -/
def offMax : ℕ := 2 ^ 63 - 1

/-- A seekable descriptor. -/
structure Fd where
  contents : Bytes
  offset : ℕ
  contents_le : contents.length ≤ offMax
  offset_le : offset ≤ offMax

/-- `SEEK_SET` and `SEEK_CUR`. -/
inductive Whence
  | set
  | cur
  deriving DecidableEq, Repr

/-- Where a seek starts. -/
def Fd.base (fd : Fd) : Whence → ℤ
  | .set => 0
  | .cur => fd.offset

/-- `lseek`: the new offset, or `-1`. -/
def lseek (fd : Fd) (offset : ℤ) (whence : Whence) : ℤ × Fd :=
  if h : 0 ≤ fd.base whence + offset ∧ fd.base whence + offset ≤ offMax then
    (fd.base whence + offset,
      { fd with offset := (fd.base whence + offset).toNat, offset_le := by omega })
  else (-1, fd)

/-- What comes of a `read`: an error, or up to so many bytes. -/
inductive ReadOutcome
  | error
  | upTo (most : ℕ)
  deriving DecidableEq, Repr

/-- How many bytes there are from the offset on. -/
def Fd.left (fd : Fd) : ℕ := fd.contents.length - fd.offset

/-- How many bytes are read. -/
def ReadOutcome.count (outcome : ReadOutcome) (fd : Fd) (n : UInt64) : ℕ :=
  match outcome with
  | .error => 0
  | .upTo most => min most (min n.toNat fd.left)

/-- The descriptor after a read. -/
def Fd.after (fd : Fd) (n : UInt64) (outcome : ReadOutcome) : Fd :=
  { fd with
    offset := fd.offset + outcome.count fd n
    offset_le := by
      have hcontents := fd.contents_le
      have hoffset := fd.offset_le
      cases outcome <;> simp only [ReadOutcome.count, Fd.left] <;> omega }

/-- `read`: the result, the memory at `dest`, and the descriptor. -/
def readFd (fd : Fd) (dest : Bytes) (n : UInt64) (outcome : ReadOutcome) :
    Option (ℤ × Bytes × Fd) := do
  let dest ← writeAt dest 0 (window fd.contents fd.offset (outcome.count fd n))
  let ret : ℤ := if outcome = .error then -1 else outcome.count fd n
  return (ret, dest, fd.after n outcome)

/-- `fd_read`. The cast of `n` to `ssize_t` wraps. -/
def fdRead (fd : Fd) (dest : Bytes) (n : UInt64) (outcome : ReadOutcome) :
    Option (Bool × Bytes × Fd) := do
  let (ret, dest, fd) ← readFd fd dest n outcome
  if ret = -1 then return (false, dest, fd)
  else if ret ≠ wrapInt64 n.toNat then return (false, dest, fd)
  else return (true, dest, fd)

/-- `fd_sneek_read`. -/
def fdSneekRead (fd : Fd) (dest : Bytes) (n : UInt64) (outcome : ReadOutcome) :
    Option (Bool × Bytes × Fd) := do
  let (startOffset, fd) := lseek fd 0 .cur
  if startOffset = -1 then return (false, dest, fd)
  else
    let (ret, dest, fd) ← readFd fd dest n outcome
    if ret = -1 then return (false, dest, fd)
    else if ret ≠ wrapInt64 n.toNat then return (false, dest, fd)
    else
      let (ret, fd) := lseek fd startOffset .set
      if ret = -1 then return (false, dest, fd)
      else if ret ≠ startOffset then return (false, dest, fd)
      else return (true, dest, fd)

/-! ### What a read does -/

section Read

variable (fd : Fd) (n : UInt64) (outcome : ReadOutcome)

/-- The memory a caller of a read hands over. -/
abbrev Dest (n : UInt64) := {dest : Bytes // n.toNat ≤ dest.length}

theorem ReadOutcome.count_le : outcome.count fd n ≤ n.toNat := by
  cases outcome with
  | error => exact Nat.zero_le _
  | upTo most => exact Nat.le_trans (Nat.min_le_right _ _) (Nat.min_le_left _ _)

theorem ReadOutcome.count_le_left : outcome.count fd n ≤ fd.left := by
  cases outcome with
  | error => exact Nat.zero_le _
  | upTo most => exact Nat.le_trans (Nat.min_le_right _ _) (Nat.min_le_right _ _)

/-- There are as many bytes at the offset as are read. -/
theorem length_window_count :
    (window fd.contents fd.offset (outcome.count fd n)).length = outcome.count fd n := by
  have hleft := outcome.count_le_left fd n
  simp only [Fd.left] at hleft
  simp only [window, List.length_take, List.length_drop]
  omega

/-- The bytes that are read fit into the memory. -/
theorem writeAt_dest (dest : Dest n) :
    writeAt dest.1 0 (window fd.contents fd.offset (outcome.count fd n)) =
      some (overwrite dest.1 0 (window fd.contents fd.offset (outcome.count fd n))) := by
  have hroom := Nat.le_trans (outcome.count_le fd n) dest.2
  rw [writeAt, if_pos (by rwa [Nat.zero_add, length_window_count])]

/-- The result is `n` as an `ssize_t` exactly if `n` bytes were read: a larger `n` turns
negative. -/
theorem count_eq_wrapInt64 :
    (outcome.count fd n : ℤ) = wrapInt64 n.toNat ↔ outcome.count fd n = n.toNat := by
  have hcount := outcome.count_le_left fd n
  have hcontents := fd.contents_le
  have hn := n.toNat_lt
  simp only [Fd.left] at hcount
  simp only [offMax] at hcontents
  rw [wrapInt64, Int.bmod]
  omega

/-- **`fd_read`** succeeds if all bytes were read; in any case it moves on by those that
were. -/
theorem fdRead_eq (dest : Dest n) :
    fdRead fd dest.1 n outcome =
      some (decide (outcome ≠ .error ∧ outcome.count fd n = n.toNat),
        overwrite dest.1 0 (window fd.contents fd.offset (outcome.count fd n)),
        fd.after n outcome) := by
  have hcast := count_eq_wrapInt64 fd n outcome
  simp only [fdRead, readFd, writeAt_dest, Option.bind_eq_bind, Option.bind_some,
    Option.pure_def]
  by_cases herror : outcome = .error
  · simp [herror]
  · have hnonneg : ((outcome.count fd n : ℕ) : ℤ) ≠ -1 := by omega
    rw [if_neg herror, if_neg hnonneg]
    by_cases hall : outcome.count fd n = n.toNat
    · rw [if_neg (not_not.mpr (hcast.mpr hall)), decide_eq_true ⟨herror, hall⟩]
    · rw [if_pos (mt hcast.mp hall), decide_eq_false (fun h => hall h.2)]

/-- The offset is where it is. -/
theorem lseek_cur : lseek fd 0 .cur = ((fd.offset : ℤ), fd) := by
  have hoffset := fd.offset_le
  simp [lseek, Fd.base, hoffset]

/-- A descriptor is set back to where it was before a read. -/
theorem lseek_set : lseek (fd.after n outcome) fd.offset .set = ((fd.offset : ℤ), fd) := by
  have hoffset := fd.offset_le
  simp [lseek, Fd.base, hoffset, Fd.after]

/-- **`fd_sneek_read`** does what `fd_read` does, and takes the move back only if all bytes
were read. -/
theorem fdSneekRead_eq (dest : Dest n) :
    fdSneekRead fd dest.1 n outcome =
      (fdRead fd dest.1 n outcome).map fun (ok, mem, fd') =>
        (ok, mem, if ok then fd else fd') := by
  have hoffset : (fd.offset : ℤ) ≠ -1 := by omega
  simp only [fdSneekRead, fdRead, readFd, lseek_cur, lseek_set, writeAt_dest, if_neg hoffset,
    Option.bind_eq_bind, Option.bind_some, Option.pure_def, ne_eq, not_true_eq_false, if_false]
  split_ifs <;> rfl

/-- A peek that succeeds can be repeated: a read behind it finds the same bytes. -/
theorem fdRead_of_sneek {dest : Dest n} {mem : Bytes} {fd' : Fd}
    (h : fdSneekRead fd dest.1 n outcome = some (true, mem, fd')) :
    fd' = fd ∧ fdRead fd' dest.1 n outcome = some (true, mem, fd.after n outcome) := by
  rw [fdSneekRead_eq, fdRead_eq, Option.map_some] at h
  simp only [Option.some.injEq, Prod.mk.injEq] at h
  obtain ⟨hok, hmem, hfd⟩ := h
  rw [if_pos hok] at hfd
  refine ⟨hfd.symm, ?_⟩
  rw [← hfd, fdRead_eq, hok, hmem]

/-- A peek that gets some of the bytes but not all fails, and has moved on. -/
theorem fdSneekRead_short (dest : Dest n) (h : outcome.count fd n < n.toNat) :
    fdSneekRead fd dest.1 n outcome =
      some (false, overwrite dest.1 0 (window fd.contents fd.offset (outcome.count fd n)),
        fd.after n outcome) := by
  rw [fdSneekRead_eq, fdRead_eq, Option.map_some]
  simp [Nat.ne_of_lt h]

end Read

/-! ### What is promised -/

/-- The call leaves the offset where it is, and if it succeeds the next `n` bytes are at
`dest`, with the memory behind them untouched. -/
def SneekKeeps (fd : Fd) (dest : Bytes) (n : UInt64) (outcome : ReadOutcome) : Prop :=
  ∃ ok mem fd', fdSneekRead fd dest n outcome = some (ok, mem, fd') ∧
    fd'.offset = fd.offset ∧
    (ok = true → ∃ next, next <+: fd.contents.drop fd.offset ∧ next.length = n.toNat ∧
      mem = overwrite dest 0 next)

/-- The offset is left where it is exactly if `read` fails, or hands out all bytes or none:
what a short read moves is not taken back. -/
theorem fdSneekRead_keeps_iff (fd : Fd) (n : UInt64) (dest : Dest n) (outcome : ReadOutcome) :
    SneekKeeps fd dest.1 n outcome ↔
      outcome = .error ∨ outcome.count fd n = 0 ∨ outcome.count fd n = n.toNat := by
  have hcount := outcome.count_le fd n
  constructor
  · rintro ⟨ok, mem, fd', hrun, hkept, -⟩
    by_cases hall : outcome.count fd n = n.toNat
    · exact .inr (.inr hall)
    · rw [fdSneekRead_short fd n outcome dest (by omega)] at hrun
      simp only [Option.some.injEq, Prod.mk.injEq] at hrun
      rw [← hrun.2.2] at hkept
      have hmove : fd.offset + outcome.count fd n = fd.offset := hkept
      exact .inr (.inl (by omega))
  · intro hcond
    have hrun := fdSneekRead_eq fd n outcome dest
    rw [fdRead_eq, Option.map_some] at hrun
    refine ⟨_, _, _, hrun, ?_, ?_⟩
    · by_cases hall : outcome ≠ .error ∧ outcome.count fd n = n.toNat
      · simp [hall]
      · have hzero : outcome.count fd n = 0 := by
          rcases hcond with rfl | hzero | hfull
          · rfl
          · exact hzero
          · by_contra hne
            refine hall ⟨?_, hfull⟩
            rintro rfl
            exact hne rfl
        rw [decide_eq_false hall]
        simp [Fd.after, hzero]
    · intro hok
      have hall := (of_decide_eq_true hok).2
      refine ⟨_, List.take_prefix _ _, ?_, rfl⟩
      exact (length_window_count fd n outcome).trans hall

/-- Two bytes are asked for where there is one: the call fails, and the descriptor is at the
end. -/
theorem fdSneekRead_moves :
    ∃ (fd : Fd) (n : UInt64) (dest : Dest n) (outcome : ReadOutcome),
      fd.contents = [1] ∧ fd.offset = 0 ∧ n = 2 ∧ outcome = .upTo 2 ∧
        ¬ SneekKeeps fd dest.1 n outcome := by
  let fd : Fd := ⟨[1], 0, by simp [offMax], Nat.zero_le _⟩
  let dest : Dest 2 := ⟨[0, 0], Nat.le_refl 2⟩
  have hshort : ReadOutcome.count (.upTo 2) fd 2 < UInt64.toNat 2 := Nat.one_lt_two
  refine ⟨fd, 2, dest, .upTo 2, rfl, rfl, rfl, rfl, ?_⟩
  rintro ⟨ok, mem, fd', hrun, hkept, -⟩
  rw [fdSneekRead_short fd 2 (.upTo 2) dest hshort] at hrun
  simp only [Option.some.injEq, Prod.mk.injEq] at hrun
  rw [← hrun.2.2] at hkept
  exact absurd hkept Nat.one_ne_zero

end Backd
