import Backd.Atoi
import Backd.Size

/-!
# Command Line Options

`args.c`: one call of `getopts_next` after the other reads the next option of an argument
vector, or hands out the next operand. The values of options are read by `uint32_parse` and
`string_parse`.

## Conventions

The argument vector is the list of its strings; behind the last one stands `NULL`, and to
read further stops the call with `none`. The cursor `av` is a position of this list. The
messages on the standard error are left out.
-/

namespace Backd

/-! ### The argument vector -/

/-- `av[i]`, where the inner `none` is the `NULL` behind the arguments. -/
def argAt (argv : List CStr) (i : ℕ) : Option (Option CStr) :=
  if i ≤ argv.length then some argv[i]? else none

/-- `--ac`, of a `size_t`. -/
def szDec (ac : ℕ) : ℕ := if ac = 0 then sizeMax else ac - 1

/-- `getopts_t`. -/
structure Getopts where
  fail : Bool
  arg : Option CStr
  ac : ℕ
  av : ℕ
  ostr : CStr
  deriving DecidableEq

/-- `getopts_init`. -/
def getoptsInit (ac : ℕ) (ostr : CStr) : Getopts :=
  { fail := false, arg := none, ac := szDec ac, av := 1, ostr := ostr }

/-- `next_arg`: the argument, and the count and the cursor it leaves. -/
def nextArg (argv : List CStr) (ac av : ℕ) : Option (Option CStr × ℕ × ℕ) :=
  if ac ≠ 0 then do
    let arg ← argAt argv (av + 1)
    return (arg, ac - 1, av + 1)
  else return (none, ac, av)

/-- `*ptr == '-' && *(ptr + 1) && !*(ptr + 2)`, and the character at `ptr + 1`. -/
def dashed : CStr → Option CChar
  | [d, x] => if d = dash then some x else none
  | _ => none

/-- `getopts_next`: the result, and the options it leaves. -/
def getoptsNext (argv : List CStr) (opts : Getopts) : Option (ℤ × Getopts) :=
  if opts.ac = 0 then some (-1, opts)
  else do
    let opts := { opts with arg := none }
    let tok ← argAt argv opts.av
    let tok ← tok
    let ptr := skipSpace tok
    match dashed ptr with
    | some x =>
      if x = dash then some (-1, opts)
      else
        match strchr opts.ostr x with
        | [] => some (63, { opts with av := opts.av + 1, ac := opts.ac - 1 })
        | ch :: behind =>
          if behind.head? = some colon then do
            let (arg, ac, av) ← nextArg argv opts.ac opts.av
            let opts := { opts with arg := arg, ac := ac, av := av }
            if arg = none then some (-1, { opts with fail := true })
            else some (ch.code, { opts with av := opts.av + 1, ac := opts.ac - 1 })
          else some (ch.code, { opts with av := opts.av + 1, ac := opts.ac - 1 })
    | none => some (42, { opts with arg := some ptr, av := opts.av + 1, ac := opts.ac - 1 })

/-- `getopts_next`, called until it returns `-1`: the result of each call, and the options
it leaves. -/
def getoptsAll (argv : List CStr) : ℕ → Getopts → Option (List (ℤ × Getopts))
  | 0, _ => none
  | calls + 1, opts => do
    let (c, opts) ← getoptsNext argv opts
    if c = -1 then return [(c, opts)]
    else do
      let log ← getoptsAll argv calls opts
      return (c, opts) :: log

/-! ### Values -/

/-- `uint32_parse`: the result, `*dest`, and whether `errno` is `ERANGE` afterwards. -/
def uint32Parse (erange : Bool) (expr : CStr) (dest : UInt32) : Bool × UInt32 × Bool :=
  let (ret, result, erange) := atoi32 erange expr dest.toInt32
  (decide (ret = some []), result.toUInt32, erange)

/-- `string_parse`: the result, and `*dest`. -/
def stringParse (expr : Option CStr) (dest : Option CStr) : Bool × Option CStr :=
  match expr with
  | none => (false, dest)
  | some expr => (true, some expr)

end Backd
