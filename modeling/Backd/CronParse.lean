import Backd.StringF

/-!
# Cron Strings

`cron-parse.c`: a cron string is read entry by entry, each one of five lists, each one of
elements. What an element stands for is marked in one of five arrays.

## Conventions

The loops that mark a range run on the eight bits of `i` and `step`, and may go on for ever;
`turns` limits each of them, and `none` means that one did not come to its end. Any other
loop passes a character a turn, so the length of the string limits it.

`cron_check` prints the arrays in the end; this is left out.
-/

namespace Backd

/-- The static arrays. -/
structure CronArrays where
  minutes : Bytes
  hours : Bytes
  mdays : Bytes
  months : Bytes
  wdays : Bytes
  deriving DecidableEq, Repr

/-- The arrays, cleared by `memset`. -/
def CronArrays.cleared : CronArrays :=
  { minutes := List.replicate 60 0, hours := List.replicate 24 0, mdays := List.replicate 32 0,
    months := List.replicate 13 0, wdays := List.replicate 8 0 }

/-! ### Numbers and ranges -/

/-- The loop of `cron_parse_number`. -/
def numberLoop (n : UInt8) : CStr → UInt8 × CStr
  | [] => (n, [])
  | c :: ps => if isdigit c then numberLoop (n * 10 + (c.1 - 48)) ps else (n, c :: ps)

/-- `cron_parse_number`: the number, and what follows. -/
def cronParseNumber (ps : CStr) : UInt8 × CStr := numberLoop 0 ps

/-- The step of a range, one if none is given. -/
def cronParseStep (ps : CStr) : UInt8 × CStr :=
  if ps.head? = some slash then cronParseNumber ps.tail else (1, ps)

/-- `for (i = first; i <= last; i += step) pbuf[i] = true;`. -/
def markLoop (last step : UInt8) : ℕ → UInt8 → Bytes → Option Bytes
  | 0, _, _ => none
  | turns + 1, i, pbuf =>
    if i ≤ last then do
      let pbuf ← putAt pbuf i.toNat 1
      markLoop last step turns (i + step) pbuf
    else some pbuf

/-! ### Elements, lists and entries -/

/-- `cron_parse_element`: the result, `none` for `NULL`, and the array. -/
def cronParseElement (turns : ℕ) (min max : UInt8) (ps : CStr) (pbuf : Bytes) :
    Option (Option CStr × Bytes) :=
  match skipSpace ps with
  | [] => some (none, pbuf)
  | c :: ps =>
    if c.1 = 42 then do
      let (step, ps) := cronParseStep ps
      let pbuf ← markLoop max step turns min pbuf
      return (some ps, pbuf)
    else if isdigit c then
      let (first, ps) := cronParseNumber (c :: ps)
      if ps.head? ≠ some dash then do
        let first := if first > max then max else first
        let pbuf ← putAt pbuf first.toNat 1
        return (some ps, pbuf)
      else do
        let (last, ps) := cronParseNumber ps.tail
        let (step, ps) := cronParseStep ps
        let first := if first < min then min else first
        let last := if last > max then max else last
        let first := if first > max then max else first
        let pbuf ← markLoop last step turns first pbuf
        return (some ps, pbuf)
    else some (none, pbuf)

/-- `cron_eol`. -/
def cronEol (ps : CStr) : Bool := ps.head?.all fun c => c.1 = 59

/-- The loop of `cron_parse_list` over elements, at most `n` of them. -/
def cronElements (turns : ℕ) (min max : UInt8) : ℕ → CStr → Bytes → Option (Option CStr × Bytes)
  | 0, _, _ => none
  | n + 1, ps, pbuf => do
    let (ps, pbuf) ← cronParseElement turns min max ps pbuf
    match ps with
    | none => return (none, pbuf)
    | some ps =>
      if ps.head?.map Subtype.val = some 44 then cronElements turns min max n ps.tail pbuf
      else return (some ps, pbuf)

/-- `if (!isspace(*ps) && !cron_eol(ps)) ++ps;`. -/
def skipError (ps : CStr) : CStr := if ps.head?.any isspace || cronEol ps then ps else ps.tail

/-- `cron_parse_list`. -/
def cronParseList (turns : ℕ) (min max : UInt8) (ps : Option CStr) (pbuf : Bytes) :
    Option (Option CStr × Bytes) :=
  match ps with
  | none => some (none, pbuf)
  | some ps =>
    let ps := skipSpace ps
    if !cronEol ps then do
      let (ps, pbuf) ← cronElements turns min max (ps.length + 1) ps pbuf
      return (ps.map skipError, pbuf)
    else do
      let pbuf ← markLoop max 1 turns min pbuf
      return (some ps, pbuf)

/-- The end of `cron_parse_entry`: the rest of the entry is skipped, and its delimiter. -/
def skipEntry (ps : CStr) : CStr :=
  let ps := ps.dropWhile fun c => c.1 ≠ 59
  skipSpace ps.tail

/-- `cron_parse_entry`. -/
def cronParseEntry (turns : ℕ) (ps : CStr) (a : CronArrays) :
    Option (Option CStr × CronArrays) := do
  let (ps, minutes) ← cronParseList turns 0 59 (some ps) a.minutes
  let (ps, hours) ← cronParseList turns 0 23 ps a.hours
  let (ps, mdays) ← cronParseList turns 1 31 ps a.mdays
  let (ps, months) ← cronParseList turns 1 12 ps a.months
  let (ps, wdays) ← cronParseList turns 0 6 ps a.wdays
  return (ps.map skipEntry,
    { minutes := minutes, hours := hours, mdays := mdays, months := months, wdays := wdays })

/-- The loop of `cron_check` over entries, at most `n` of them. -/
def cronEntries (turns : ℕ) : ℕ → CStr → CronArrays → Option CronArrays
  | 0, _, _ => none
  | n + 1, ps, a => do
    let (ps, a) ← cronParseEntry turns ps a
    match ps with
    | none | some [] => return a
    | some (c :: ps) => cronEntries turns n (c :: ps) a

/-- The `Z` or the `L` in front of a cron string. -/
def skipZone : CStr → CStr
  | [] => []
  | c :: ps => if c.1 = 90 ∨ c.1 = 76 then ps else c :: ps

/-- `cron_check`, whose result never changes: the result, and the arrays. -/
def cronCheck (turns : ℕ) (ps : Option CStr) (a : CronArrays) : Option (Bool × CronArrays) :=
  match ps with
  | none | some [] => some (false, a)
  | some (c :: ps) => do
    let ps := skipZone (skipSpace (c :: ps))
    let a ← cronEntries turns (ps.length + 1) ps .cleared
    let sunday := a.wdays.getD 7 0
    let a := if sunday ≠ 0 then { a with wdays := a.wdays.set 0 1 } else a
    return (false, a)

end Backd
