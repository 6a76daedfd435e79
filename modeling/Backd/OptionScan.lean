import Mathlib.Data.List.Forall2
import Backd.Args

/-!
# The Scan of the Options

What `getopts_next` should make of an argument vector is said once, without counts and
cursors: `referenceScan` goes through the tokens and collects what they stand for. Called
until it returns `-1`, `getopts_next` yields this scan and keeps its count and its cursor
in step.

A token is read without the blanks in front of it. With the option string `"a:"` the token
`-:` is found where a `:` only marks an argument; the scan leaves the result for this one
token open.

## Main results

* `getoptsAll_scans`: the calls from any point of a vector on.
* `getopts_scans`: a whole scan, for any arguments and any options.
-/

namespace Backd

/-! ### Options -/

/-- An option: its letter, and whether an argument follows. -/
structure OptDecl where
  letter : CChar
  takesArg : Bool
  ascii : letter.1 < 128
  notColon : letter ≠ colon

/-- How an option is written in an option string. -/
def OptDecl.text (d : OptDecl) : CStr := if d.takesArg then [d.letter, colon] else [d.letter]

/-- An option string: letters, each followed by a `:` when it takes an argument. -/
def optString (decls : List OptDecl) : CStr := decls.flatMap OptDecl.text

/-- The first declaration of a letter. -/
def declared (decls : List OptDecl) (x : CChar) : Option OptDecl :=
  decls.find? fun d => d.letter = x

/-- The declaration that was found carries the letter that was looked for. -/
theorem letter_of_declared {decls : List OptDecl} {x : CChar} {d : OptDecl}
    (h : declared decls x = some d) : d.letter = x := by
  simpa using List.find?_some h

/-- An ASCII letter is no end mark. -/
theorem OptDecl.code_ne (d : OptDecl) : d.letter.code ≠ -1 := by
  intro h
  have hbyte : d.letter.1 = 255 := by
    rw [CChar.code] at h
    have hint : d.letter.1.toInt8 = -1 := Int8.toInt_inj.mp h
    have hback := congrArg Int8.toUInt8 hint
    rwa [UInt8.toUInt8_toInt8] at hback
  have hascii := d.ascii
  rw [hbyte] at hascii
  exact absurd hascii (by decide)

/-- No option string begins with a mark. -/
theorem optString_head (decls : List OptDecl) : (optString decls).head? ≠ some colon := by
  cases decls with
  | nil => simp [optString]
  | cons d decls =>
      have hd := d.notColon
      by_cases harg : d.takesArg <;> simp [optString, OptDecl.text, harg, hd]

/-- Looking for anything but its letter or a mark passes a declaration. -/
theorem strchr_pass {d : OptDecl} {x : CChar} (hd : d.letter ≠ x)
    (hx : d.takesArg → x ≠ colon) (decls : List OptDecl) :
    strchr (optString (d :: decls)) x = strchr (optString decls) x := by
  by_cases harg : d.takesArg
  · have hcolon : colon ≠ x := Ne.symm (hx harg)
    simp [strchr, optString, OptDecl.text, harg, hd, hcolon]
  · simp [strchr, optString, OptDecl.text, harg, hd]

/-- `strchr` finds the declaration of a letter, and behind it the mark of its argument. -/
theorem strchr_optString {x : CChar} (hx : x ≠ colon) (decls : List OptDecl) :
    match declared decls x with
    | none => strchr (optString decls) x = []
    | some d => ∃ behind, strchr (optString decls) x = x :: behind ∧
        (behind.head? = some colon ↔ d.takesArg) := by
  induction decls with
  | nil => rfl
  | cons d decls ih =>
      by_cases hd : d.letter = x
      · have hfound : declared (d :: decls) x = some d := by simp [declared, hd]
        simp only [hfound]
        by_cases harg : d.takesArg
        · refine ⟨colon :: optString decls, ?_, by simp [harg]⟩
          simp [strchr, optString, OptDecl.text, harg, hd]
        · refine ⟨optString decls, ?_, by simp [harg, optString_head]⟩
          simp [strchr, optString, OptDecl.text, harg, hd]
      · have hnext : declared (d :: decls) x = declared decls x := by simp [declared, hd]
        rw [hnext, strchr_pass hd (fun _ => hx)]
        exact ih

/-- Looking for a `:` finds the first mark, when there is one. -/
theorem strchr_colon (decls : List OptDecl) :
    strchr (optString decls) colon = [] ∧ (∀ d ∈ decls, ¬ d.takesArg) ∨
      (∃ d ∈ decls, d.takesArg) ∧ ∃ behind, strchr (optString decls) colon = colon :: behind ∧
        behind.head? ≠ some colon := by
  induction decls with
  | nil => exact .inl ⟨rfl, by simp⟩
  | cons d decls ih =>
      by_cases harg : d.takesArg
      · refine .inr ⟨⟨d, by simp, harg⟩, optString decls, ?_, optString_head decls⟩
        simp [strchr, optString, OptDecl.text, harg, d.notColon]
      · rw [strchr_pass d.notColon (fun h => absurd h harg)]
        rcases ih with ⟨hnone, hall⟩ | ⟨⟨e, he, hearg⟩, hfound⟩
        · exact .inl ⟨hnone, by simpa [harg] using hall⟩
        · exact .inr ⟨⟨e, List.mem_cons_of_mem _ he, hearg⟩, hfound⟩

/-- The token in which the letter was found. -/
theorem eq_of_dashed {ptr : CStr} {x : CChar} (h : dashed ptr = some x) : ptr = [dash, x] := by
  match ptr with
  | [] | [_] | _ :: _ :: _ :: _ => simp [dashed] at h
  | [d, y] =>
      rw [dashed] at h
      split at h
      · next hd =>
          obtain rfl : y = x := Option.some.inj h
          rw [hd]
      · cases h

/-- A token with a declared letter is not `-:`. -/
theorem token_ne_of_declared {ptr : CStr} {x : CChar} {decls : List OptDecl} {d : OptDecl}
    (h : dashed ptr = some x) (hd : declared decls x = some d) : ptr ≠ [dash, colon] := by
  have hx : x ≠ colon := letter_of_declared hd ▸ d.notColon
  rw [eq_of_dashed h]
  simpa using hx

/-! ### The scan -/

/-- What a token, as it is read, stands for. -/
structure Item where
  token : CStr
  code : ℤ
  arg : Option CStr
  deriving DecidableEq

/-- A scan: what it found, the tokens it left, and whether an argument was missing at its
end. -/
structure Scan where
  items : List Item
  left : List CStr
  missing : Bool
  deriving DecidableEq

/-- A scan that finds one thing more in front. -/
def Scan.cons (i : Item) (s : Scan) : Scan := { s with items := i :: s.items }

/-- The scan of some tokens, each of which is first put through `read`. -/
def referenceScan (read : CStr → CStr) (decls : List OptDecl) : List CStr → Scan
  | [] => { items := [], left := [], missing := false }
  | tok :: toks =>
    match dashed (read tok) with
    | none => (referenceScan read decls toks).cons ⟨read tok, 42, some (read tok)⟩
    | some x =>
      if x = dash then { items := [], left := tok :: toks, missing := false }
      else
        match declared decls x with
        | none => (referenceScan read decls toks).cons ⟨read tok, 63, none⟩
        | some d =>
          if d.takesArg then
            match toks with
            | [] => { items := [], left := [], missing := true }
            | arg :: toks => (referenceScan read decls toks).cons ⟨read tok, x.code, some arg⟩
          else (referenceScan read decls toks).cons ⟨read tok, x.code, none⟩

/-- The call gives what the scan found. -/
def Gives (i : Item) (call : ℤ × Getopts) : Prop := call.1 = i.code ∧ call.2.arg = i.arg

/-- The call gives what the scan found; the token `-:` is left open when the option string
has marks. -/
def GivesBut (decls : List OptDecl) (i : Item) (call : ℤ × Getopts) : Prop :=
  (call.1 = i.code ∨ i.token = [dash, colon] ∧ ∃ d ∈ decls, d.takesArg) ∧ call.2.arg = i.arg

/-- The call gives what the scan found, or for the token `-:` the mark it found. -/
def Yields (decls : List OptDecl) (i : Item) (call : ℤ × Getopts) : Prop :=
  call.1 = (if i.token = [dash, colon] ∧ ∃ d ∈ decls, d.takesArg then colon.code else i.code) ∧
    call.2.arg = i.arg

/-- The cursor is as far from the start as the count is from `argc`, and does not pass the
`NULL` behind the arguments. -/
def CursorKept (argv : List CStr) (opts : Getopts) : Prop :=
  opts.ac ≤ argv.length ∧ opts.av = argv.length - opts.ac

/-- The calls of `getopts_next` carry out a scan: each gives what was found, and the last one
stops where the scan does. -/
def CarriesOut (gives : Item → ℤ × Getopts → Prop) (argv : List CStr) (calls : ℕ)
    (opts : Getopts) (scan : Scan) : Prop :=
  ∃ log last, getoptsAll argv calls opts = some (log ++ [(-1, last)]) ∧
    List.Forall₂ gives scan.items log ∧
    (∀ call ∈ log ++ [(-1, last)], CursorKept argv call.2) ∧
    argv.drop last.av = scan.left ∧ last.fail = scan.missing

/-- For all tokens but `-:` the call gives what the scan found. -/
theorem yields_of_ne {decls : List OptDecl} {i : Item} {call : ℤ × Getopts}
    (hi : i.token ≠ [dash, colon]) (h : Gives i call) : Yields decls i call := by
  rw [Yields, if_neg fun hcolon => hi hcolon.1]
  exact h

theorem Yields.givesBut {decls : List OptDecl} {i : Item} {call : ℤ × Getopts}
    (h : Yields decls i call) : GivesBut decls i call := by
  obtain ⟨hcode, harg⟩ := h
  split at hcode
  · next hcolon => exact ⟨.inr hcolon, harg⟩
  · exact ⟨.inl hcode, harg⟩

/-- What the calls give may be said more loosely. -/
theorem CarriesOut.weaken {gives gives' : Item → ℤ × Getopts → Prop} {argv : List CStr}
    {calls : ℕ} {opts : Getopts} {scan : Scan} (h : CarriesOut gives argv calls opts scan)
    (hgives : ∀ i call, gives i call → gives' i call) :
    CarriesOut gives' argv calls opts scan := by
  obtain ⟨log, last, hall, hitems, hrest⟩ := h
  exact ⟨log, last, hall, hitems.imp hgives, hrest⟩

/-! ### One call -/

/-- The options stand in front of these tokens. -/
structure Getopts.At (opts : Getopts) (argv : List CStr) (decls : List OptDecl)
    (toks : List CStr) : Prop where
  vector : ∃ front, argv = front ++ toks ∧ opts.av = front.length
  count : opts.ac = toks.length
  letters : opts.ostr = optString decls
  noFail : opts.fail = false

/-- The options after some tokens have been passed. -/
def Getopts.pass (opts : Getopts) (arg : Option CStr) (n : ℕ) : Getopts :=
  { opts with arg := arg, av := opts.av + n, ac := opts.ac - n }

section Call

variable {argv : List CStr} {decls : List OptDecl} {opts : Getopts} {tok : CStr}
  {toks : List CStr}

/-- The cursor and the count are in step. -/
theorem Getopts.At.cursor (h : opts.At argv decls toks) : CursorKept argv opts := by
  obtain ⟨front, rfl, hav⟩ := h.vector
  rw [CursorKept, h.count, hav, List.length_append]
  omega

/-- What the cursor has in front. -/
theorem Getopts.At.rest (h : opts.At argv decls toks) : argv.drop opts.av = toks := by
  obtain ⟨front, rfl, hav⟩ := h.vector
  rw [hav, List.drop_left]

/-- A token is passed. -/
theorem Getopts.At.pass (h : opts.At argv decls (tok :: toks)) (arg : Option CStr) :
    (opts.pass arg 1).At argv decls toks := by
  obtain ⟨front, rfl, hav⟩ := h.vector
  refine ⟨⟨front ++ [tok], by simp, ?_⟩, ?_, h.letters, h.noFail⟩
  · simp [Getopts.pass, hav]
  · simp [Getopts.pass, h.count]

/-- A token and its argument are passed. -/
theorem Getopts.At.pass_two {arg : CStr} (h : opts.At argv decls (tok :: arg :: toks)) :
    (opts.pass (some arg) 2).At argv decls toks := by
  obtain ⟨front, rfl, hav⟩ := h.vector
  refine ⟨⟨front ++ [tok, arg], by simp, ?_⟩, ?_, h.letters, h.noFail⟩
  · simp [Getopts.pass, hav]
  · simp [Getopts.pass, h.count]

/-- The token the cursor points to. -/
theorem Getopts.At.here (h : opts.At argv decls (tok :: toks)) :
    argAt argv opts.av = some (some tok) := by
  obtain ⟨front, rfl, hav⟩ := h.vector
  simp [argAt, hav]

/-- What stands behind this token: the next one, or the final `NULL`. -/
theorem Getopts.At.behind (h : opts.At argv decls (tok :: toks)) :
    argAt argv (opts.av + 1) = some toks.head? := by
  obtain ⟨front, rfl, hav⟩ := h.vector
  have hle : front.length + 1 ≤ (front ++ tok :: toks).length := by simp
  rw [hav, argAt, if_pos hle, List.getElem?_append_right (Nat.le_add_right _ _)]
  simp [List.head?_eq_getElem?]

/-- With no token left, a call is the last one. -/
theorem getoptsNext_nil (h : opts.At argv decls []) :
    getoptsNext argv opts = some (-1, opts) := by
  have hac : opts.ac = 0 := h.count
  rw [getoptsNext, if_pos hac]

/-- A call in front of a token goes by its first characters. -/
theorem getoptsNext_cons (h : opts.At argv decls (tok :: toks)) :
    getoptsNext argv opts =
      match dashed (skipSpace tok) with
      | none => some (42, opts.pass (some (skipSpace tok)) 1)
      | some x =>
        if x = dash then some (-1, { opts with arg := none })
        else
          match strchr (optString decls) x with
          | [] => some (63, opts.pass none 1)
          | ch :: behind =>
            if behind.head? = some colon then
              match toks.head? with
              | none => some (-1, { opts.pass none 1 with fail := true })
              | some arg => some (ch.code, opts.pass (some arg) 2)
            else some (ch.code, opts.pass none 1) := by
  have hac : opts.ac ≠ 0 := by
    rw [h.count]
    exact Nat.succ_ne_zero _
  have hhere := h.here
  have hbehind := h.behind
  obtain ⟨fail, arg, ac, av, ostr⟩ := opts
  obtain rfl : ostr = optString decls := h.letters
  rw [getoptsNext, if_neg hac]
  simp only [hhere, Option.bind_eq_bind, Option.bind_some]
  cases dashed (skipSpace tok) with
  | none => rfl
  | some x =>
      dsimp only
      split
      · rfl
      · cases strchr (optString decls) x with
        | nil => rfl
        | cons ch behind =>
            dsimp only
            split
            · rw [nextArg, if_pos hac, hbehind]
              cases toks.head? with
              | none => rfl
              | some arg => rfl
            · rfl

end Call

/-! ### All calls -/

section Calls

variable {argv : List CStr} {decls : List OptDecl} {opts opts' : Getopts} {toks : List CStr}
  {gives : Item → ℤ × Getopts → Prop} {calls : ℕ}

/-- The last call. -/
theorem CarriesOut.stop {left : List CStr} {missing : Bool}
    (hnext : getoptsNext argv opts = some (-1, opts')) (hcursor : CursorKept argv opts')
    (hleft : argv.drop opts'.av = left) (hmissing : opts'.fail = missing) :
    CarriesOut gives argv (calls + 1) opts
      { items := [], left := left, missing := missing } := by
  refine ⟨[], opts', ?_, .nil, ?_, hleft, hmissing⟩
  · simp [getoptsAll, hnext]
  · simpa using hcursor

/-- One more call in front. -/
theorem CarriesOut.cons {c : ℤ} {i : Item} {scan : Scan}
    (hnext : getoptsNext argv opts = some (c, opts')) (hc : c ≠ -1) (hi : gives i (c, opts'))
    (hcursor : CursorKept argv opts') (h : CarriesOut gives argv calls opts' scan) :
    CarriesOut gives argv (calls + 1) opts (scan.cons i) := by
  obtain ⟨log, last, hall, hitems, hkept, hend⟩ := h
  refine ⟨(c, opts') :: log, last, ?_, .cons hi hitems, ?_, hend⟩
  · simp [getoptsAll, hnext, hc, hall]
  · intro call hcall
    rcases List.mem_cons.mp hcall with rfl | hcall
    · exact hcursor
    · exact hkept call hcall

/-- The call in front of a letter that is not declared; `-:` may find a mark. -/
theorem getoptsNext_undeclared {tok : CStr} {x : CChar} (h : opts.At argv decls (tok :: toks))
    (hd : dashed (skipSpace tok) = some x) (hx : x ≠ dash) (hnone : declared decls x = none) :
    ∃ c, getoptsNext argv opts = some (c, opts.pass none 1) ∧ c ≠ -1 ∧
      Yields decls ⟨skipSpace tok, 63, none⟩ (c, opts.pass none 1) := by
  have htok := eq_of_dashed hd
  rw [getoptsNext_cons h, hd]
  simp only [if_neg hx]
  by_cases hcolon : x = colon
  · subst hcolon
    rcases strchr_colon decls with ⟨hnil, hnot⟩ | ⟨hmarks, behind, hfound, hbehind⟩
    · rw [hnil]
      refine ⟨63, rfl, by decide, ?_, rfl⟩
      rw [if_neg fun hcolon => hcolon.2.elim fun d hd => hnot d hd.1 hd.2]
    · rw [hfound]
      simp only [if_neg hbehind]
      refine ⟨colon.code, rfl, by decide, ?_, rfl⟩
      rw [if_pos ⟨htok, hmarks⟩]
  · have hfound := strchr_optString hcolon decls
    rw [hnone] at hfound
    rw [hfound]
    exact ⟨63, rfl, by decide, yields_of_ne (by simpa [htok] using hcolon) ⟨rfl, rfl⟩⟩

/-- The call in front of a declared letter goes by whether it takes an argument. -/
theorem getoptsNext_declared {tok : CStr} {x : CChar} {d : OptDecl}
    (h : opts.At argv decls (tok :: toks)) (hd : dashed (skipSpace tok) = some x) (hx : x ≠ dash)
    (hdecl : declared decls x = some d) :
    getoptsNext argv opts =
      if d.takesArg then
        match toks.head? with
        | none => some (-1, { opts.pass none 1 with fail := true })
        | some arg => some (x.code, opts.pass (some arg) 2)
      else some (x.code, opts.pass none 1) := by
  have hcolon : x ≠ colon := letter_of_declared hdecl ▸ d.notColon
  have hfound := strchr_optString hcolon decls
  rw [hdecl] at hfound
  obtain ⟨behind, hfound, hbehind⟩ := hfound
  rw [getoptsNext_cons h, hd]
  simp only [if_neg hx, hfound, hbehind]

/-- The calls from any point of the vector on: the tokens in front are scanned. -/
theorem getoptsAll_scans (h : opts.At argv decls toks) {n : ℕ} (hn : toks.length ≤ n) :
    CarriesOut (Yields decls) argv (n + 1) opts (referenceScan skipSpace decls toks) := by
  induction toks using referenceScan.induct skipSpace decls generalizing n opts with
  | case1 => exact .stop (getoptsNext_nil h) h.cursor h.rest h.noFail
  | case2 tok toks hd ih =>
      obtain ⟨n, rfl⟩ := Nat.exists_eq_add_one.mpr (Nat.zero_lt_of_lt hn)
      have hnext := getoptsNext_cons h
      rw [hd] at hnext
      have htok : skipSpace tok ≠ [dash, colon] := fun heq => by simp [heq, dashed] at hd
      rw [referenceScan, hd]
      exact .cons hnext (by decide) (yields_of_ne htok ⟨rfl, rfl⟩) (h.pass _).cursor
        (ih (h.pass _) (Nat.le_of_succ_le_succ hn))
  | case3 tok toks hd =>
      have hnext := getoptsNext_cons h
      rw [hd] at hnext
      rw [referenceScan, hd]
      exact .stop hnext h.cursor h.rest h.noFail
  | case4 tok toks x hd hx hnone ih =>
      obtain ⟨n, rfl⟩ := Nat.exists_eq_add_one.mpr (Nat.zero_lt_of_lt hn)
      obtain ⟨c, hnext, hc, hgives⟩ := getoptsNext_undeclared h hd hx hnone
      simp only [referenceScan, hd, if_neg hx, hnone]
      exact .cons hnext hc hgives (h.pass _).cursor
        (ih (h.pass _) (Nat.le_of_succ_le_succ hn))
  | case5 tok x hd hx d hdecl harg =>
      have hnext := getoptsNext_declared h hd hx hdecl
      rw [if_pos harg] at hnext
      simp only [referenceScan, hd, if_neg hx, hdecl, if_pos harg]
      exact .stop hnext (h.pass none).cursor (h.pass none).rest rfl
  | case6 tok x hd hx d hdecl harg arg toks ih =>
      obtain ⟨n, rfl⟩ := Nat.exists_eq_add_one.mpr (Nat.zero_lt_of_lt hn)
      have hnext := getoptsNext_declared h hd hx hdecl
      rw [if_pos harg] at hnext
      have hc : x.code ≠ -1 := letter_of_declared hdecl ▸ d.code_ne
      have htok := token_ne_of_declared hd hdecl
      simp only [referenceScan, hd, if_neg hx, hdecl, if_pos harg]
      exact .cons hnext hc (yields_of_ne htok ⟨rfl, rfl⟩) h.pass_two.cursor
        (ih h.pass_two (by simp only [List.length_cons] at hn; omega))
  | case7 tok toks x hd hx d hdecl harg ih =>
      obtain ⟨n, rfl⟩ := Nat.exists_eq_add_one.mpr (Nat.zero_lt_of_lt hn)
      have hnext := getoptsNext_declared h hd hx hdecl
      rw [if_neg harg] at hnext
      have hc : x.code ≠ -1 := letter_of_declared hdecl ▸ d.code_ne
      have htok := token_ne_of_declared hd hdecl
      simp only [referenceScan, hd, if_neg hx, hdecl, if_neg harg]
      exact .cons hnext hc (yields_of_ne htok ⟨rfl, rfl⟩) (h.pass _).cursor
        (ih (h.pass _) (Nat.le_of_succ_le_succ hn))

/-- A call in front of a token is the last one, or it passes at least this token. -/
theorem getoptsNext_progress {tok : CStr} (h : opts.At argv decls (tok :: toks)) :
    ∃ c opts', getoptsNext argv opts = some (c, opts') ∧
      (c = -1 ∨ ∃ rest, opts'.At argv decls rest ∧ rest.length < (tok :: toks).length) := by
  have hone (arg : Option CStr) : ∃ rest, (opts.pass arg 1).At argv decls rest ∧
      rest.length < (tok :: toks).length :=
    ⟨toks, h.pass arg, Nat.lt_succ_self _⟩
  rw [getoptsNext_cons h]
  cases dashed (skipSpace tok) with
  | none => exact ⟨_, _, rfl, .inr (hone _)⟩
  | some x =>
      dsimp only
      split
      · exact ⟨_, _, rfl, .inl rfl⟩
      cases strchr (optString decls) x with
      | nil => exact ⟨_, _, rfl, .inr (hone _)⟩
      | cons ch behind =>
          dsimp only
          split
          · cases toks with
            | nil => exact ⟨_, _, rfl, .inl rfl⟩
            | cons arg toks =>
                refine ⟨_, _, rfl, .inr ⟨toks, h.pass_two, ?_⟩⟩
                rw [List.length_cons, List.length_cons]
                omega
          · exact ⟨_, _, rfl, .inr (hone _)⟩

/-- **Every call but the last consumes** at least one token, so the calls come to an end. -/
theorem getoptsAll_consumes (h : opts.At argv decls toks) {n : ℕ} (hn : toks.length ≤ n) :
    ∃ log last, getoptsAll argv (n + 1) opts = some (log ++ [(-1, last)]) ∧
      (opts :: log.map Prod.snd).IsChain fun o o' => o'.ac < o.ac := by
  induction n generalizing opts toks with
  | zero =>
      obtain rfl : toks = [] := List.eq_nil_of_length_eq_zero (Nat.le_zero.mp hn)
      exact ⟨[], opts, by simp [getoptsAll, getoptsNext_nil h], .singleton _⟩
  | succ n ih =>
      cases toks with
      | nil => exact ⟨[], opts, by simp [getoptsAll, getoptsNext_nil h], .singleton _⟩
      | cons tok toks =>
          obtain ⟨c, opts', hnext, hend | ⟨rest, hat, hlt⟩⟩ := getoptsNext_progress h
          · subst hend
            exact ⟨[], opts', by simp [getoptsAll, hnext], .singleton _⟩
          by_cases hc : c = -1
          · subst hc
            exact ⟨[], opts', by simp [getoptsAll, hnext], .singleton _⟩
          obtain ⟨log, last, hall, hchain⟩ := ih hat (by omega)
          refine ⟨(c, opts') :: log, last, ?_, ?_⟩
          · rw [getoptsAll, hnext]
            simp only [Option.bind_eq_bind, Option.bind_some, if_neg hc, hall]
            rfl
          · refine .cons_cons ?_ hchain
            rw [hat.count, h.count]
            exact hlt

/-- The options of `getopts_init` stand behind the name of the program. -/
theorem getoptsInit_at (prog : CStr) (args : List CStr) (decls : List OptDecl) :
    (getoptsInit (prog :: args).length (optString decls)).At (prog :: args) decls args :=
  ⟨⟨[prog], rfl, rfl⟩, rfl, rfl, rfl⟩

end Calls

/-- From `getopts_init` to the last call, `getopts_next` carries out the scan of the
arguments without the blanks in front of each, with the cursor and the count in step. -/
theorem getopts_scans (prog : CStr) (args : List CStr) (decls : List OptDecl) :
    CursorKept (prog :: args) (getoptsInit (prog :: args).length (optString decls)) ∧
      CarriesOut (GivesBut decls) (prog :: args) (prog :: args).length
        (getoptsInit (prog :: args).length (optString decls))
        (referenceScan skipSpace decls args) :=
  ⟨(getoptsInit_at prog args decls).cursor,
    (getoptsAll_scans (getoptsInit_at prog args decls) (Nat.le_refl _)).weaken
      fun _ _ h => h.givesBut⟩

/-- A token with a blank in front is an option all the same. -/
theorem getopts_skips_blanks :
    ¬ ∀ (prog : CStr) (args : List CStr) (decls : List OptDecl),
      CarriesOut Gives (prog :: args) (prog :: args).length
        (getoptsInit (prog :: args).length (optString decls)) (referenceScan id decls args) := by
  intro h
  obtain ⟨log, last, hall, hitems, -⟩ := h [] [[⟨32, by decide⟩, dash, ⟨100, by decide⟩]]
    [⟨⟨100, by decide⟩, false, by decide, by decide⟩]
  have hcodes : (getoptsAll [[], [⟨32, by decide⟩, dash, ⟨100, by decide⟩]] 2
      (getoptsInit 2 [⟨100, by decide⟩])).map (List.map Prod.fst) = some [100, -1] := by decide
  have hlog := congrArg (Option.map (List.map Prod.fst)) hall
  rw [Option.map_some, List.map_append] at hlog
  have hfirst : log.map Prod.fst = [100] := by
    have hsame := Option.some.inj (hcodes.symm.trans hlog)
    exact (List.append_inj' hsame rfl).1.symm
  cases hitems with
  | @cons i call items log hgives _ =>
      have hcode : call.1 = 42 := hgives.1
      have hsame : call.1 = 100 := (List.cons.inj hfirst).1
      rw [hcode] at hsame
      exact absurd hsame (by decide)

end Backd
