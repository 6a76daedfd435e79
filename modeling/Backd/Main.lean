import Backd.Args
import Backd.CronParse

/-!
# The Entry of the Daemon

`main`: it goes through the options, hands the value of `-c` to `cron_check`, and collects
the operands on a small stack, which it turns around before the service starts.

## Conventions

The stack counts from one, so its top stays below `FILE_STACK_SIZE`; `FileStack` carries
this. What is pushed is a pointer, so it is kept whether the string is one of the command line or
a literal of the program (`Filename`), which nobody may write to. The allocation of `args` is
served or not (`served`), and `erange` says whether `errno` is `ERANGE`. The messages of `usage`,
`version` and the failures are left out, and `turns` limits the loops over ranges of a cron
string.
-/

namespace Backd

/-! ### The stack of operands -/

/-- `FILE_STACK_SIZE`. -/
def fileStackSize : ℕ := 16

/-- A pointer to the name of an operand: to a string of the command line, or to a literal. -/
inductive Filename
  | argument (text : CStr)
  | literal (text : CStr)
  deriving DecidableEq

/-- The string it points to. -/
def Filename.text : Filename → CStr
  | .argument text | .literal text => text

/-- `__stack` and `__top`. -/
structure FileStack where
  cells : List (Option Filename)
  top : ℕ
  length_eq : cells.length = fileStackSize
  top_lt : top < fileStackSize
  deriving DecidableEq

/-- The stack the program starts with. -/
def FileStack.empty : FileStack :=
  { cells := List.replicate fileStackSize none, top := 0, length_eq := List.length_replicate,
    top_lt := by decide }

/-- `filename_stack_push`. -/
def filenameStackPush (s : FileStack) (filename : Filename) : FileStack :=
  if h : s.top < fileStackSize - 1 then
    { cells := s.cells.set (s.top + 1) (some filename), top := s.top + 1,
      length_eq := by rw [List.length_set, s.length_eq], top_lt := Nat.add_lt_of_lt_sub h }
  else s

/-- `filename_stack_pop`. -/
def filenameStackPop (s : FileStack) : Option Filename × FileStack :=
  if s.top > 0 then
    (s.cells.getD s.top none, { s with top := s.top - 1, top_lt := Nat.sub_lt_of_lt s.top_lt })
  else (none, s)

/-- The loop of `stack_reverse_in_place`. The positions meet before the turns are used
up. -/
def reverseLoop (cells : List (Option Filename)) : ℕ → ℕ → ℕ → List (Option Filename)
  | 0, _, _ => cells
  | turns + 1, i, j =>
    if i < j then
      let tmp := cells.getD i none
      let cells := cells.set i (cells.getD j none)
      reverseLoop (cells.set j tmp) turns (i + 1) (j - 1)
    else cells

theorem length_reverseLoop (cells : List (Option Filename)) (turns i j : ℕ) :
    (reverseLoop cells turns i j).length = cells.length := by
  induction turns generalizing cells i j with
  | zero => rfl
  | succ turns ih =>
      rw [reverseLoop]
      split
      · rw [ih, List.length_set, List.length_set]
      · rfl

/-- `stack_reverse_in_place`. -/
def stackReverseInPlace (s : FileStack) : FileStack :=
  { s with
    cells := reverseLoop s.cells s.top 1 s.top
    length_eq := by rw [length_reverseLoop, s.length_eq] }

/-! ### The options -/

/-- `args_t`. -/
structure ArgsT where
  flags : UInt32
  cronStr : Option CStr
  nSeconds : UInt32
  deriving DecidableEq

/-- `FLAGS_DEBUG`. -/
def flagsDebug : UInt32 := (1 : UInt32) <<< 1

/-- What `main` works on, with the arrays of `cron-parse.c`. -/
structure MainSt where
  args : ArgsT
  opts : Getopts
  stack : FileStack
  cron : CronArrays
  erange : Bool
  deriving DecidableEq

/-- How `main` gives up: in `exit(0)`, or in `EXIT_FAILURE`. -/
inductive MainExit
  | exited
  | failed
  deriving DecidableEq

/-- How `main` ends: it gives up, or it reaches `backd_init`. -/
inductive MainEnd
  | exit (e : MainExit)
  | started (st : MainSt)
  deriving DecidableEq

/-- `"dvhc:s:"`. -/
def mainOptions : CStr :=
  [letterD, letterV, letterH, letterC, colon, letterS, colon]

/-- `"current"`. -/
def currentName : CStr :=
  [letterC, ⟨117, by decide⟩, ⟨114, by decide⟩, ⟨114, by decide⟩, ⟨101, by decide⟩,
    ⟨110, by decide⟩, ⟨116, by decide⟩]

/-- `"./"`. -/
def hereName : CStr := [dot, slash]

/-- What is pushed for the argument of a `*`. -/
def operandName (arg : Option CStr) : Filename :=
  match arg with
  | none => .literal hereName
  | some arg => if arg = currentName then .literal hereName else .argument arg

/-- The switch in the loop of `main`. -/
def mainOption (turns : ℕ) (c : ℤ) (st : MainSt) : Option (Except MainExit MainSt) :=
  if c = 100 then
    some (.ok { st with args := { st.args with flags := st.args.flags ||| flagsDebug } })
  else if c = 99 then
    match stringParse st.opts.arg st.args.cronStr with
    | (false, _) => some (.error .failed)
    | (true, cronStr) => do
      let (_, cron) ← cronCheck turns cronStr st.cron
      return .ok { st with args := { st.args with cronStr := cronStr }, cron := cron }
  else if c = 115 then do
    let expr ← st.opts.arg
    let (ok, nSeconds, erange) := uint32Parse st.erange expr st.args.nSeconds
    if !ok then return .error .failed
    else return .ok { st with args := { st.args with nSeconds := nSeconds }, erange := erange }
  else if c = 42 then
    if st.stack.top = fileStackSize then some (.ok st)
    else some (.ok { st with stack := filenameStackPush st.stack (operandName st.opts.arg) })
  else if c = 118 ∨ c = 104 ∨ c = 63 then some (.error .exited)
  else some (.ok st)

/-- The loop of `main` over the options, at most `calls` calls of `getopts_next` long. -/
def mainLoop (turns : ℕ) (argv : List CStr) : ℕ → MainSt → Option (Except MainExit MainSt)
  | 0, _ => none
  | calls + 1, st => do
    let (c, opts) ← getoptsNext argv st.opts
    let st := { st with opts := opts }
    if c = -1 then return .ok st
    else
      match ← mainOption turns c st with
      | .error e => return .error e
      | .ok st => mainLoop turns argv calls st

/-- `while (*opts.av++ && *opts.av) filename_stack_push(*opts.av);`. -/
def pushRest (argv : List CStr) : ℕ → ℕ → FileStack → Option FileStack
  | 0, _, _ => none
  | turns + 1, av, s => do
    let here ← argAt argv av
    match here with
    | none => return s
    | some _ => do
      let next ← argAt argv (av + 1)
      match next with
      | none => return s
      | some filename => pushRest argv turns (av + 1) (filenameStackPush s (.argument filename))

/-- What `main` works on when the loop begins. -/
def mainStart (argv : List CStr) (erange : Bool) (cron : CronArrays) : MainSt :=
  { args := { flags := 0, cronStr := none, nSeconds := 0 },
    opts := getoptsInit argv.length mainOptions, stack := .empty, cron := cron,
    erange := erange }

/-- `main`, up to `backd_init`. -/
def main (turns : ℕ) (served erange : Bool) (cron : CronArrays) (argv : List CStr) :
    Option MainEnd :=
  if argv.length = 1 then some (.exit .exited)
  else if !served then some (.exit .failed)
  else do
    match ← mainLoop turns argv (argv.length + 1) (mainStart argv erange cron) with
    | .error e => return .exit e
    | .ok st =>
      if st.opts.fail then return .exit .failed
      else do
        let stack ← pushRest argv (argv.length + 1) st.opts.av st.stack
        let stack := stackReverseInPlace stack
        if st.args.nSeconds ≠ 0 ∧ st.args.cronStr.isSome then return .exit .failed
        else return .started { st with stack := stack }

end Backd
