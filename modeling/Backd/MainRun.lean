import Backd.CronMarks
import Backd.Main
import Backd.OptionScan

/-!
# How the Arguments Are Processed

The loop of `main` handles the calls of `getopts_next` one after the other, and these follow
the scan of the arguments. So it is enough to look at what `main` does with each item of the
scan.

## Main results

* `mainLoop_eq`: the loop handles the calls in their order.
* `getoptsAll_consumes`: every call but the last passes a token.
* `main_ends_iff`: the arguments are processed to an end exactly if no value of `-c` that is
  handled has an endless range.
-/

namespace Backd

open Endings

/-! ### The options of the daemon -/

/-- The options of `main`. -/
def mainDecls : List OptDecl :=
  [⟨letterD, false, by decide, by decide⟩,
    ⟨letterV, false, by decide, by decide⟩,
    ⟨letterH, false, by decide, by decide⟩,
    ⟨letterC, true, by decide, by decide⟩,
    ⟨letterS, true, by decide, by decide⟩]

/-- The option string of `main` declares these letters. -/
theorem optString_mainDecls : optString mainDecls = mainOptions := rfl

/-- The scan of the arguments of `main`. -/
def mainScan (args : List CStr) : Scan := referenceScan skipSpace mainDecls args

/-- What the items of a scan can be. -/
inductive Item.Reads (decls : List OptDecl) : Item → Prop
  | operand {tok : CStr} : dashed tok = none → Reads decls ⟨tok, 42, some tok⟩
  | unknown {tok : CStr} {x : CChar} : dashed tok = some x → Reads decls ⟨tok, 63, none⟩
  | flag {tok : CStr} {d : OptDecl} : dashed tok = some d.letter → d ∈ decls → ¬ d.takesArg →
      Reads decls ⟨tok, d.letter.code, none⟩
  | value {tok : CStr} {d : OptDecl} (arg : CStr) : dashed tok = some d.letter → d ∈ decls →
      Reads decls ⟨tok, d.letter.code, some arg⟩

theorem reads_of_mem {read : CStr → CStr} {decls : List OptDecl} {toks : List CStr} {i : Item}
    (hi : i ∈ (referenceScan read decls toks).items) : i.Reads decls := by
  induction toks using referenceScan.induct read decls with
  | case1 => simp [referenceScan] at hi
  | case2 tok toks hd ih =>
      simp only [referenceScan, hd, Scan.cons, List.mem_cons] at hi
      rcases hi with rfl | hi
      · exact .operand hd
      · exact ih hi
  | case3 tok toks hd => simp [referenceScan, hd] at hi
  | case4 tok toks x hd hx hnone ih =>
      simp only [referenceScan, hd, if_neg hx, hnone, Scan.cons, List.mem_cons] at hi
      rcases hi with rfl | hi
      · exact .unknown hd
      · exact ih hi
  | case5 tok x hd hx d hdecl ht => simp [referenceScan, hd, hx, hdecl, ht] at hi
  | case6 tok x hd hx d hdecl ht arg toks ih =>
      simp only [referenceScan, hd, if_neg hx, hdecl, if_pos ht, Scan.cons, List.mem_cons] at hi
      obtain rfl := letter_of_declared hdecl
      rcases hi with rfl | hi
      · exact .value arg hd (List.mem_of_find?_eq_some hdecl)
      · exact ih hi
  | case7 tok toks x hd hx d hdecl ht ih =>
      simp only [referenceScan, hd, if_neg hx, hdecl, if_neg ht, Scan.cons, List.mem_cons] at hi
      obtain rfl := letter_of_declared hdecl
      rcases hi with rfl | hi
      · exact .flag hd (List.mem_of_find?_eq_some hdecl) ht
      · exact ih hi

/-- The items of `-s` have an argument. -/
theorem arg_of_seconds {args : List CStr} {i : Item} (hi : i ∈ (mainScan args).items)
    (hcode : i.code = 115) : ∃ v, i.arg = some v := by
  cases reads_of_mem hi with
  | operand => exact absurd hcode (by decide : (42 : ℤ) ≠ 115)
  | unknown => exact absurd hcode (by decide : (63 : ℤ) ≠ 115)
  | flag _ hd ht =>
      have hflags : ∀ d ∈ mainDecls, ¬ d.takesArg → d.letter.code ≠ 115 := by decide
      exact absurd hcode (hflags _ hd ht)
  | value arg => exact ⟨arg, rfl⟩

/-- The items of operands are not the token `-:`. -/
theorem token_of_operand {args : List CStr} {i : Item} (hi : i ∈ (mainScan args).items)
    (hcode : i.code = 42) : i.token ≠ [dash, colon] := by
  have hletters : ∀ d ∈ mainDecls, d.letter.code ≠ 42 := by decide
  cases reads_of_mem hi with
  | operand hd =>
      rintro rfl
      cases hd
  | unknown => exact absurd hcode (by decide : (63 : ℤ) ≠ 42)
  | flag _ hd => exact absurd hcode (hletters _ hd)
  | value _ _ hd => exact absurd hcode (hletters _ hd)

/-! ### The loop -/

/-- The calls of `getopts_next`, handled one after the other. -/
def handleCalls (turns : ℕ) : List (ℤ × Getopts) → MainSt → Option (Except MainExit MainSt)
  | [], st => some (.ok st)
  | (c, opts) :: log, st => do
    match ← mainOption turns c { st with opts := opts } with
    | .error e => return .error e
    | .ok st => handleCalls turns log st

/-- Handling an option leaves the position in the arguments, and the stack unless it is an
operand. -/
theorem mainOption_ok {turns : ℕ} {c : ℤ} {st st' : MainSt}
    (h : mainOption turns c st = some (.ok st')) :
    st'.opts = st.opts ∧ st'.stack =
      if c = 42 then filenameStackPush st.stack (operandName st.opts.arg) else st.stack := by
  rw [mainOption] at h
  split at h
  · next hc =>
      cases h
      rw [if_neg (by omega)]
      exact ⟨rfl, rfl⟩
  split at h
  · -- `-c`
    next hc =>
      rw [if_neg (by omega)]
      split at h
      · cases h
      · obtain ⟨r, -, h⟩ := Option.bind_eq_some_iff.mp h
        cases h
        exact ⟨rfl, rfl⟩
  split at h
  · -- `-s`
    next hc =>
      rw [if_neg (by omega)]
      obtain ⟨expr, -, h⟩ := Option.bind_eq_some_iff.mp h
      dsimp only at h
      split at h
      · cases h
      · cases h
        exact ⟨rfl, rfl⟩
  split at h
  · -- an operand; the stack never has as many as `main` tests for
    next hc =>
      rw [if_pos hc]
      split at h
      · next hfull => exact absurd hfull (Nat.ne_of_lt st.stack.top_lt)
      · cases h
        exact ⟨rfl, rfl⟩
  next hc =>
    rw [if_neg hc]
    split at h
    · cases h
    · cases h
      exact ⟨rfl, rfl⟩

/-- **The loop of `main`** handles the calls, in their order, and keeps what the last one
left. -/
theorem mainLoop_eq {turns : ℕ} {argv : List CStr} {calls : ℕ} {log : List (ℤ × Getopts)}
    {last : Getopts} {st : MainSt}
    (h : getoptsAll argv calls st.opts = some (log ++ [(-1, last)])) :
    mainLoop turns argv calls st =
      (handleCalls turns log st).map (Except.map fun st => { st with opts := last }) := by
  induction calls generalizing log st with
  | zero => cases h
  | succ calls ih =>
      rw [getoptsAll] at h
      obtain ⟨⟨c, opts⟩, hnext, h⟩ := Option.bind_eq_some_iff.mp h
      rw [mainLoop, hnext]
      simp only [Option.bind_eq_bind, Option.bind_some]
      by_cases hc : c = -1
      · simp only [if_pos hc] at h ⊢
        subst hc
        have hlog : [] ++ [(-1, opts)] = log ++ [(-1, last)] := Option.some.inj h
        obtain ⟨rfl, hlast⟩ := List.append_inj' hlog rfl
        obtain rfl : opts = last := by simpa using hlast
        rfl
      · simp only [if_neg hc] at h ⊢
        obtain ⟨more, hmore, hlog⟩ := Option.bind_eq_some_iff.mp h
        cases log with
        | nil =>
            have hcall : (c, opts) = (-1, last) := (List.cons.inj (Option.some.inj hlog)).1
            exact absurd (congrArg Prod.fst hcall) hc
        | cons call log =>
            obtain ⟨rfl, rfl⟩ : (c, opts) = call ∧ more = log ++ [(-1, last)] := by
              simpa using hlog
            rw [handleCalls]
            cases hhandle : mainOption turns c { st with opts := opts } with
            | none => rfl
            | some r =>
                cases r with
                | error e => rfl
                | ok st' =>
                    have hst : st'.opts = opts := (mainOption_ok hhandle).1
                    rw [← hst] at hmore
                    exact ih hmore

/-- The code a call of `main` returns for an item. -/
theorem code_of_yields {i : Item} {call : ℤ × Getopts} (h : Yields mainDecls i call) :
    call.1 = if i.token = [dash, colon] then colon.code else i.code := by
  have hmarks : ∃ d ∈ mainDecls, d.takesArg := by decide
  rw [h.1]
  simp only [hmarks, and_true]

/-- The operands behind a `--` are pushed as they are. -/
theorem pushRest_eq {argv : List CStr} {turns av : ℕ} (hav : av ≤ argv.length)
    (hturns : argv.length < turns + av) (s : FileStack) :
    pushRest argv turns av s =
      some (((argv.drop (av + 1)).map .argument).foldl filenameStackPush s) := by
  induction turns generalizing av s with
  | zero => omega
  | succ turns ih =>
      rw [pushRest, argAt, if_pos hav]
      simp only [Option.bind_eq_bind, Option.bind_some]
      by_cases hend : av = argv.length
      · have hnull : argv[av]? = none := by rw [List.getElem?_eq_none_iff, hend]
        have hdrop : argv.drop (av + 1) = [] := List.drop_of_length_le (by omega)
        rw [hnull, hdrop]
        rfl
      · have hlt : av < argv.length := by omega
        rw [List.getElem?_eq_getElem hlt]
        simp only [argAt, if_pos (Nat.succ_le_of_lt hlt), Option.bind_some]
        by_cases hlast : av + 1 = argv.length
        · have hnull : argv[av + 1]? = none := by rw [List.getElem?_eq_none_iff, hlast]
          have hdrop : argv.drop (av + 1) = [] := List.drop_of_length_le (by omega)
          rw [hnull, hdrop]
          rfl
        · have hnext : av + 1 < argv.length := by omega
          rw [List.getElem?_eq_getElem hnext, List.drop_eq_getElem_cons hnext, List.map_cons,
            List.foldl_cons]
          exact ih hlt (by omega) _

/-! ### The values of `-c` -/

/-- The values of `-c` that `main` handles for the items of a scan: those in front of the
first item that makes it exit, an option `v`, `h` or an unknown one, or a value of `-s` that
is no number. The token `-:` is passed over. -/
def handledCrons (erange : Bool) : List Item → List CStr
  | [] => []
  | i :: items =>
    if i.token = [dash, colon] then handledCrons erange items
    else if i.code = 99 then
      match i.arg with
      | none => []
      | some v => v :: handledCrons erange items
    else if i.code = 115 then
      if i.arg.any fun v => (uint32Parse erange v 0).1 then handledCrons erange items else []
    else if i.code = 118 ∨ i.code = 104 ∨ i.code = 63 then []
    else handledCrons erange items

/-- What `uint32_parse` makes of a string does not depend on what was in `*dest`, and a
success leaves `errno`. -/
theorem uint32Parse_result (erange : Bool) (expr : CStr) (dest : UInt32) :
    (uint32Parse erange expr dest).1 = (uint32Parse erange expr 0).1 ∧
      ((uint32Parse erange expr dest).1 = true → (uint32Parse erange expr dest).2.2 = erange) := by
  rcases atoi32_outcome erange expr with ⟨ptr, v, h⟩ | ⟨erange', h⟩
  · simp only [uint32Parse, h]
    exact ⟨trivial, fun _ => trivial⟩
  · simp only [uint32Parse, h]
    exact ⟨trivial, fun hok => by simp at hok⟩

/-- What is neither a value nor a reason to exit is handled without further ado. -/
theorem mainOption_goes_on (turns : ℕ) {c : ℤ} (hcron : c ≠ 99) (hseconds : c ≠ 115)
    (hexit : ¬ (c = 118 ∨ c = 104 ∨ c = 63)) (st : MainSt) :
    ∃ st', mainOption turns c st = some (.ok st') ∧ st'.erange = st.erange := by
  rw [mainOption, if_neg hcron, if_neg hseconds, if_neg hexit]
  by_cases hdebug : c = 100
  · rw [if_pos hdebug]
    exact ⟨_, rfl, rfl⟩
  rw [if_neg hdebug]
  by_cases hoperand : c = 42
  · rw [if_pos hoperand]
    by_cases hfull : st.stack.top = fileStackSize
    · rw [if_pos hfull]
      exact ⟨_, rfl, rfl⟩
    · rw [if_neg hfull]
      exact ⟨_, rfl, rfl⟩
  · rw [if_neg hoperand]
    exact ⟨_, rfl, rfl⟩

/-- `-c` checks its argument. -/
theorem mainOption_cron (turns : ℕ) (st : MainSt) {v : CStr} (harg : st.opts.arg = some v) :
    mainOption turns 99 st = (cronCheck turns (some v) st.cron).bind fun r =>
      some (.ok { st with args := { st.args with cronStr := some v }, cron := r.2 }) := by
  simp [mainOption, harg, stringParse]

/-- `-s` reads its argument. -/
theorem mainOption_seconds (turns : ℕ) (st : MainSt) {v : CStr} (harg : st.opts.arg = some v) :
    ∃ st', st'.erange = st.erange ∧ mainOption turns 115 st =
      some (if (uint32Parse st.erange v 0).1 then .ok st' else .error .failed) := by
  obtain ⟨hsame, herange⟩ := uint32Parse_result st.erange v st.args.nSeconds
  rw [← hsame]
  by_cases hok : (uint32Parse st.erange v st.args.nSeconds).1
  · refine ⟨{ st with
      args := { st.args with nSeconds := (uint32Parse st.erange v st.args.nSeconds).2.1 } },
      rfl, ?_⟩
    simp [mainOption, harg, hok, herange hok]
  · refine ⟨st, rfl, ?_⟩
    simp [mainOption, harg, hok]

/-- `-v`, `-h` and what is not an option end the program. -/
theorem mainOption_exits (turns : ℕ) (st : MainSt) {c : ℤ} (hexit : c = 118 ∨ c = 104 ∨ c = 63) :
    mainOption turns c st = some (.error .exited) := by
  rcases hexit with rfl | rfl | rfl <;> rfl

/-- Handling the calls of a scan comes to its end unless a cron string on the way does
not. -/
theorem handleCalls_ends (turns : ℕ) {items : List Item} {log : List (ℤ × Getopts)}
    (hitems : List.Forall₂ (Yields mainDecls) items log)
    (hargs : ∀ i ∈ items, i.code = 115 → ∃ v, i.arg = some v) {erange : Bool} {st : MainSt}
    (hst : st.erange = erange) :
    EndsIff (∀ v ∈ handledCrons erange items, AllEnd (cronMarks v)) (61 ≤ turns)
      (handleCalls turns log st) (fun _ => True) := by
  induction hitems generalizing st with
  | nil => exact (EndsIff.ret trivial).congr (by simp [handledCrons])
  | @cons i call items log hi _ ih =>
      obtain ⟨c, opts⟩ := call
      have hc : c = if i.token = [dash, colon] then colon.code else i.code := code_of_yields hi
      have harg : opts.arg = i.arg := hi.2
      have hrest := fun {st : MainSt} (hst : st.erange = erange) =>
        ih (fun i hi => hargs i (List.mem_cons_of_mem _ hi)) hst
      rw [handleCalls, handledCrons]
      by_cases hcolon : i.token = [dash, colon]
      · -- `-:` gives a result that `main` does not know
        rw [if_pos hcolon] at hc ⊢
        obtain ⟨st', hhandle, hst'⟩ := mainOption_goes_on turns (c := c)
          (by rw [hc]; decide) (by rw [hc]; decide) (by rw [hc]; decide) { st with opts := opts }
        rw [hhandle]
        exact hrest (hst'.trans hst)
      rw [if_neg hcolon] at hc ⊢
      subst hc
      by_cases hcron : i.code = 99
      · rw [if_pos hcron, hcron]
        cases hv : i.arg with
        | none =>
            have hhandle : mainOption turns 99 { st with opts := opts } =
                some (.error .failed) := by
              simp [mainOption, harg, hv, stringParse]
            rw [hhandle]
            exact (EndsIff.ret trivial).congr (by simp)
        | some v =>
            rw [mainOption_cron turns { st with opts := opts } (harg.trans hv),
              Option.bind_eq_bind, Option.bind_assoc]
            refine ((cronCheck_ends turns v st.cron).bind fun r _ => hrest ?_).congr (by simp)
            exact hst
      rw [if_neg hcron]
      by_cases hseconds : i.code = 115
      · rw [if_pos hseconds, hseconds]
        obtain ⟨v, hv⟩ := hargs i List.mem_cons_self hseconds
        obtain ⟨st', hst', hhandle⟩ :=
          mainOption_seconds turns { st with opts := opts } (harg.trans hv)
        rw [hhandle]
        simp only [hv, Option.any_some, hst]
        by_cases hok : (uint32Parse erange v 0).1
        · rw [if_pos hok, if_pos hok]
          exact hrest (hst'.trans hst)
        · rw [if_neg hok, if_neg hok]
          exact (EndsIff.ret trivial).congr (by simp)
      rw [if_neg hseconds]
      by_cases hexit : i.code = 118 ∨ i.code = 104 ∨ i.code = 63
      · rw [if_pos hexit, mainOption_exits turns _ hexit]
        exact (EndsIff.ret trivial).congr (by simp)
      · rw [if_neg hexit]
        obtain ⟨st', hhandle, hst'⟩ := mainOption_goes_on turns hcron hseconds hexit
          { st with opts := opts }
        rw [hhandle]
        exact hrest (hst'.trans hst)

/-! ### The whole of `main` -/

/-- What a loop of `main` has come to when it ends: the items of the scan, handled. -/
theorem mainLoop_handles (turns : ℕ) (prog : CStr) (args : List CStr) (st : MainSt)
    (hst : st.opts = getoptsInit (prog :: args).length mainOptions) :
    ∃ log last, List.Forall₂ (Yields mainDecls) (mainScan args).items log ∧
      CursorKept (prog :: args) last ∧ (prog :: args).drop last.av = (mainScan args).left ∧
      last.fail = (mainScan args).missing ∧
      mainLoop turns (prog :: args) ((prog :: args).length + 1) st =
        (handleCalls turns log st).map (Except.map fun st => { st with opts := last }) := by
  have hat := getoptsInit_at prog args mainDecls
  obtain ⟨log, last, hall, hitems, hkept, hleft, hmissing⟩ :=
    getoptsAll_scans hat (Nat.le_succ args.length)
  refine ⟨log, last, hitems, hkept (-1, last) (by simp), hleft, hmissing, mainLoop_eq ?_⟩
  rw [hst, ← optString_mainDecls]
  exact hall

/-- **`main`** comes to its end exactly if the cron strings it handles do. -/
theorem main_ends (turns : ℕ) (served erange : Bool) (cron : CronArrays) (argv : List CStr) :
    EndsIff (served = false ∨
        argv ≠ [] ∧ ∀ v ∈ handledCrons erange (mainScan argv.tail).items, AllEnd (cronMarks v))
      (61 ≤ turns) (main turns served erange cron argv) (fun _ => True) := by
  rw [main]
  by_cases hone : argv.length = 1
  · obtain ⟨prog, rfl⟩ := List.length_eq_one_iff.mp hone
    rw [if_pos hone]
    exact (EndsIff.ret trivial).congr (by simp [mainScan, referenceScan, handledCrons])
  rw [if_neg hone]
  cases served with
  | false => exact (EndsIff.ret trivial).congr (by simp)
  | true =>
      simp only [Bool.not_true, Bool.false_eq_true, if_false, false_or, reduceCtorEq]
      cases argv with
      | nil =>
          -- the count of no arguments wraps, and the cursor starts behind their end
          have hstart : getoptsNext [] (mainStart [] erange cron).opts = none := rfl
          refine ⟨fun _ => ?_, fun h => absurd rfl h.1, fun h => ?_⟩
          · simp [mainLoop, hstart]
          · simp [mainLoop, hstart] at h
      | cons prog args =>
          obtain ⟨log, last, hitems, hkept, -, -, hloop⟩ :=
            mainLoop_handles turns prog args (mainStart (prog :: args) erange cron) rfl
          rw [hloop]
          have hhandle := handleCalls_ends turns hitems
            (fun i hi hcode => arg_of_seconds hi hcode)
            (rfl : (mainStart (prog :: args) erange cron).erange = erange)
          have hlast : last.av ≤ (prog :: args).length := by
            rw [hkept.2]
            exact Nat.sub_le _ _
          have hloop : EndsIff _ (61 ≤ turns) _
              (fun r : Except MainExit MainSt => ∀ st, r = .ok st → st.opts = last) :=
            hhandle.map (f := Except.map fun st => { st with opts := last }) fun r _ st hr => by
              cases r with
              | error e => cases hr
              | ok st' =>
                  cases hr
                  rfl
          have hcond : (∀ v ∈ handledCrons erange (mainScan args).items, AllEnd (cronMarks v)) ∧
              True ↔ prog :: args ≠ [] ∧
              ∀ v ∈ handledCrons erange (mainScan (prog :: args).tail).items,
                AllEnd (cronMarks v) := by simp
          refine (hloop.bind fun r hr => ?_).congr hcond
          cases r with
          | error e => exact .ret trivial
          | ok st =>
              have hst : st.opts = last := hr st rfl
              dsimp only
              by_cases hfail : st.opts.fail
              · rw [if_pos hfail]
                exact .ret trivial
              · rw [if_neg hfail, hst, pushRest_eq hlast (by omega)]
                simp only [Option.bind_eq_bind, Option.bind_some]
                split
                · exact .ret trivial
                · exact .ret trivial

/-- The arguments are processed to an end: every call of `getopts_next` but the last consumes
a token, and `main` exits, returns or reaches `backd_init`. -/
def Processes (served erange : Bool) (cron : CronArrays) (argv : List CStr) : Prop :=
  (argv ≠ [] → ∃ log last,
    getoptsAll argv argv.length (getoptsInit argv.length mainOptions) =
      some (log ++ [(-1, last)]) ∧
    (getoptsInit argv.length mainOptions :: log.map Prod.snd).IsChain
      fun o o' => o'.ac < o.ac) ∧
  ∃ turns e, main turns served erange cron argv = some e

/-- Every call of `getopts_next` makes progress. -/
theorem calls_consume {argv : List CStr} (h : argv ≠ []) : ∃ log last,
    getoptsAll argv argv.length (getoptsInit argv.length mainOptions) =
      some (log ++ [(-1, last)]) ∧
    (getoptsInit argv.length mainOptions :: log.map Prod.snd).IsChain
      fun o o' => o'.ac < o.ac := by
  cases argv with
  | nil => exact absurd rfl h
  | cons prog args =>
      rw [← optString_mainDecls]
      exact getoptsAll_consumes (getoptsInit_at prog args mainDecls) (Nat.le_refl _)

/-- The arguments are processed to an end exactly if there is no memory to begin with, or
there is a program name and no value of `-c` that is handled has an endless range. -/
theorem main_ends_iff (served erange : Bool) (cron : CronArrays) (argv : List CStr) :
    Processes served erange cron argv ↔ served = false ∨
      argv ≠ [] ∧ ∀ v ∈ handledCrons erange (mainScan argv.tail).items, AllEnd (cronMarks v) := by
  have hends := EndsIff.exists_iff (fun turns => main_ends turns served erange cron argv)
    ⟨61, Nat.le_refl _⟩
  rw [← hends]
  exact and_iff_right calls_consume

/-- The value `*/0` of `-c` is never done with. -/
theorem main_loops :
    ¬ Processes true false .cleared
      [[], [dash, ⟨99, by decide⟩], [⟨42, by decide⟩, slash, ⟨48, by decide⟩]] := by
  rintro ⟨-, turns, e, he⟩
  have hstuck := (main_ends turns true false .cleared
    [[], [dash, ⟨99, by decide⟩], [⟨42, by decide⟩, slash, ⟨48, by decide⟩]]).stuck (by decide)
  rw [hstuck] at he
  cases he

end Backd
