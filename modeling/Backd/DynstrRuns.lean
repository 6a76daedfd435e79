import Backd.Dynstr
import Backd.Library.Runs

/-!
# Runs of a Dynamic String

A caller constructs a dynamic string and sends it one operation after the other, within the
text it holds. Most operations keep it well formed; `dynstr_clear` does not, since it counts
no zero, and neither does `dynstr_inject` into an empty text, which moves no zero behind what
it copies. `dynstr_new(SIZE_MAX)` asks for no memory at all.

## Main results

* `dynStep_wellFormed`: on a well-formed string an operation stays inside the block, and
  leaves the string well formed exactly if it is sound.
* `dynstr_stays_wellFormed`: what a run of sound operations comes to.
-/

namespace Backd

open Splice Runs

/-! ### Construction -/

/-- The ways to construct a dynamic string. -/
inductive DynMake
  | new (n : {n : ℕ // n ≤ sizeMax})
  | fromBytes (src : {bytes : Bytes // bytes.length ≤ ptrdiffMax})
  | assign (src : SrcStr)

/-- The construction of a dynamic string. -/
def dynMake (A : Allocator) (k : ℕ) : DynMake → Option (Option Dynstr × ℕ)
  | .new n => dynstrNew A k n
  | .fromBytes src => dynstrFrom A k src
  | .assign src => dynstrAssign A k src

/-- The size asked for does not wrap to zero, or the allocator refuses. -/
def DynMake.Sound (A : Allocator) (k : ℕ) : DynMake → Prop
  | .new n => n.1 < sizeMax ∨ A.serves k dynstrHeader = false ∨ A.serves (k + 1) 0 = false
  | .fromBytes _ | .assign _ => True

section Make

variable (A : Allocator) (k : ℕ)

/-- A request that was served is no larger than an object. -/
theorem size_of_serves {A : Allocator} {k size : ℕ} (h : A.serves k size = true) :
    size ≤ ptrdiffMax := by
  simp only [Allocator.serves, Bool.and_eq_true, decide_eq_true_eq] at h
  exact h.1

/-- **`dynstr_new`** gives an empty text in a block for `n + 1` bytes, or `NULL`. -/
theorem dynstrNew_holds {n : ℕ} (hn : n < sizeMax) :
    ∃ o k', dynstrNew A k n = some (o, k') ∧ ∀ d, o = some d → d.Holds [] ∧ d.cap = n + 1 := by
  have hinit : szAdd n 1 = n + 1 := szAdd_eq hn
  rw [dynstrNew, hinit]
  by_cases hheader : A.serves k dynstrHeader
  · by_cases hserves : A.serves (k + 1) (n + 1)
    · obtain ⟨x, rest, hfresh⟩ : ∃ x rest, A.fresh (k + 1) 0 (n + 1) = x :: rest :=
        List.exists_cons_of_length_eq_add_one (A.length_fresh _ _ _)
      have hlen := A.length_fresh (k + 1) 0 (n + 1)
      rw [hfresh, List.length_cons] at hlen
      have hput : putAt (x :: rest) 0 nulByte = some (nulByte :: rest) := rfl
      simp only [hheader, hserves, hfresh, hput, Bool.not_true, Bool.false_eq_true, if_false,
        Option.bind_eq_bind, Option.bind_some]
      refine ⟨_, _, rfl, ?_⟩
      rintro d ⟨⟩
      exact ⟨⟨⟨rest, rfl⟩, rfl, hlen, size_of_serves hserves⟩, rfl⟩
    · simp only [hheader, hserves, Bool.not_true, Bool.not_false, Bool.false_eq_true, if_false,
        if_true]
      exact ⟨none, _, rfl, nofun⟩
  · simp only [hheader, Bool.not_false, if_true]
    exact ⟨none, _, rfl, nofun⟩

/-- **`dynstr_from`** gives the bytes as a text, or `NULL`. -/
theorem dynstrFrom_holds {src : Bytes} (hsrc : src.length ≤ ptrdiffMax) :
    ∃ o k', dynstrFrom A k src = some (o, k') ∧ ∀ d, o = some d → d.Holds src := by
  have hdouble := ptrdiffMax_double
  have hinit : szAdd src.length 1 = src.length + 1 := szAdd_eq (by omega)
  rw [dynstrFrom, hinit]
  by_cases hheader : A.serves k dynstrHeader
  · by_cases hserves : A.serves (k + 1) (src.length + 1)
    · have hlen := A.length_fresh (k + 1) 0 (src.length + 1)
      obtain ⟨b, c, hsplit, hb⟩ := split_room (A.fresh (k + 1) 0 (src.length + 1)) src.length
        (by omega)
      rw [hsplit, List.length_append, hb] at hlen
      obtain ⟨x, rfl⟩ := List.length_eq_one_iff.mp (Nat.add_left_cancel hlen)
      have hwrite : writeAt (b ++ [x]) 0 src = some (src ++ [x]) :=
        writeAt_append (a := []) hb.symm
      have hput : putAt (src ++ [x]) src.length nulByte = some (src ++ [nulByte]) := by
        rw [putAt, if_pos (by simp)]
        simp
      simp only [hheader, hserves, hsplit, hwrite, hput, Bool.not_true, Bool.false_eq_true,
        if_false, Option.bind_eq_bind, Option.bind_some]
      refine ⟨_, _, rfl, ?_⟩
      rintro d ⟨⟩
      exact ⟨⟨[], rfl⟩, rfl, by simp, size_of_serves hserves⟩
    · simp only [hheader, hserves, Bool.not_true, Bool.not_false, Bool.false_eq_true, if_false,
        if_true]
      exact ⟨none, _, rfl, nofun⟩
  · simp only [hheader, Bool.not_false, if_true]
    exact ⟨none, _, rfl, nofun⟩

/-- **`dynstr_assign`** gives the string as a text, or `NULL`. -/
theorem dynstrAssign_holds (src : SrcStr) :
    ∃ o k', dynstrAssign A k src = some (o, k') ∧ ∀ d, o = some d → d.Holds src.bytes := by
  have hdouble := ptrdiffMax_double
  have hobject := src.2
  have hsrc : src.bytes.length = src.1.length := List.length_map _
  obtain ⟨o, k', hnew, hholds⟩ := dynstrNew_holds A k (n := src.1.length) (by omega)
  rw [dynstrAssign, hnew]
  cases o with
  | none => exact ⟨none, k', rfl, nofun⟩
  | some d =>
      obtain ⟨h, hcap⟩ := hholds d rfl
      have hwrite : writeAt d.block 0 (src.bytes ++ [nulByte]) =
          some (src.bytes ++ [nulByte]) := by
        have hlen : (src.bytes ++ [nulByte]).length = d.block.length := by
          rw [h.cap_eq, hcap, List.length_append, hsrc, List.length_singleton]
        have := writeAt_append (a := []) (c := []) hlen
        simpa using this
      have hsize : szAdd src.1.length 1 = src.bytes.length + 1 := by
        rw [hsrc]
        exact szAdd_eq (by omega)
      simp only [hwrite, hsize, Option.bind_eq_bind, Option.bind_some]
      refine ⟨_, _, rfl, ?_⟩
      rintro d' ⟨⟩
      exact ⟨⟨[], rfl⟩, rfl, by simp [hcap, hsrc], h.object⟩

/-- A sound construction gives a well-formed string, or `NULL`. -/
theorem dynMake_sound {make : DynMake} (h : make.Sound A k) :
    ∃ o k', dynMake A k make = some (o, k') ∧ ∀ d, o = some d → d.WellFormed := by
  cases make with
  | fromBytes src =>
      obtain ⟨o, k', hmake, hholds⟩ := dynstrFrom_holds A k src.2
      exact ⟨o, k', hmake, fun d hd => wellFormed_iff.mpr ⟨_, hholds d hd⟩⟩
  | assign src =>
      obtain ⟨o, k', hmake, hholds⟩ := dynstrAssign_holds A k src
      exact ⟨o, k', hmake, fun d hd => wellFormed_iff.mpr ⟨_, hholds d hd⟩⟩
  | new n =>
      by_cases hn : n.1 < sizeMax
      · obtain ⟨o, k', hmake, hholds⟩ := dynstrNew_holds A k hn
        exact ⟨o, k', hmake, fun d hd => wellFormed_iff.mpr ⟨_, (hholds d hd).1⟩⟩
      · have hinit : szAdd n.1 1 = 0 := by
          rw [Nat.le_antisymm n.2 (Nat.le_of_not_lt hn)]
          rfl
        rw [dynMake, dynstrNew, hinit]
        by_cases hheader : A.serves k dynstrHeader
        · have hrefused : A.serves (k + 1) 0 = false := by
            simpa [DynMake.Sound, hn, hheader] using h
          simp only [hheader, hrefused, Bool.not_true, Bool.not_false, Bool.false_eq_true,
            if_false, if_true]
          exact ⟨none, _, rfl, nofun⟩
        · simp only [hheader, Bool.not_false, if_true]
          exact ⟨none, _, rfl, nofun⟩

/-- A construction that is not sound writes the zero behind a block of no bytes. -/
theorem dynMake_unsound {make : DynMake} (h : ¬ make.Sound A k) : dynMake A k make = none := by
  cases make with
  | fromBytes _ => exact absurd trivial h
  | assign _ => exact absurd trivial h
  | new n =>
      simp only [DynMake.Sound, not_or, Bool.not_eq_false] at h
      obtain ⟨hn, hheader, hserves⟩ := h
      have hinit : szAdd n.1 1 = 0 := by
        rw [Nat.le_antisymm n.2 (Nat.le_of_not_lt hn)]
        rfl
      have hput : putAt (A.fresh (k + 1) 0 0) 0 nulByte = none := rfl
      rw [dynMake, dynstrNew, hinit]
      simp [hheader, hserves, hput]

end Make

/-! ### Operations -/

/-- The operations of a caller. -/
inductive DynOp
  | append (src : SrcStr)
  | inject (src : SrcStr) (p : ℕ)
  | wipe (start stop : ℕ)
  | clear
  | adjust (n : {n : ℕ // n ≤ sizeMax})

/-- A dynamic string, and the number of allocator calls made so far. -/
structure DynSt where
  str : Dynstr
  calls : ℕ
  deriving DecidableEq, Repr

/-- One operation, and its result; `true` for those that return none. -/
def dynStep (A : Allocator) (s : DynSt) : DynOp → Option (Bool × DynSt)
  | .append src => do
    let (ok, str, calls) ← dynstrAppend A s.calls s.str src
    return (ok, ⟨str, calls⟩)
  | .inject src p => do
    let (ok, str, calls) ← dynstrInject A s.calls s.str src p
    return (ok, ⟨str, calls⟩)
  | .wipe start stop => do
    let str ← dynstrWipe s.str start stop
    return (true, ⟨str, s.calls⟩)
  | .clear => do
    let str ← dynstrClear s.str
    return (true, ⟨str, s.calls⟩)
  | .adjust n =>
    let (ok, str, calls) := dynstrAdjust A s.calls s.str n
    some (ok, ⟨str, calls⟩)

/-- The positions a caller gives lie within the text. -/
def DynOp.Within (s : DynSt) : DynOp → Prop
  | .inject _ p => p ≤ s.str.size - 1
  | .wipe start stop => start ≤ stop ∧ stop ≤ s.str.size - 1
  | .append _ | .clear | .adjust _ => True

/-- What the block holds once there is room for `n` bytes, or `none` where the allocator
refuses the room. -/
def roomFor (A : Allocator) (s : DynSt) (n : ℕ) : Option Bytes :=
  if n + 1 < s.str.cap then some s.str.block
  else if A.serves s.calls (max (2 * s.str.cap) n) then
    some (s.str.block ++ A.fresh s.calls s.str.cap (max (2 * s.str.cap) n - s.str.cap))
  else none

/-- The operation minds the final zero: it is not `dynstr_clear`, and it does not inject
anything into an empty text, unless the allocator refuses or a zero happens to stand where
the text will end. -/
def DynOp.Sound (A : Allocator) (s : DynSt) : DynOp → Prop
  | .clear => False
  | .inject src _ => s.str.size ≠ 1 ∨ src.1 = [] ∨
      ∀ block, roomFor A s (src.1.length + 1) = some block →
        block[src.1.length]? = some nulByte
  | .append _ | .wipe _ _ | .adjust _ => True

/-- A dynamic string and its callers. -/
def dynstrMachine (A : Allocator) : Machine DynSt DynOp Bool where
  Admits s op := op.Within s
  step s op := dynStep A s op

/-- The callers that keep to sound operations. -/
def soundMachine (A : Allocator) : Machine DynSt DynOp Bool where
  Admits s op := op.Within s ∧ op.Sound A s
  step s op := dynStep A s op

/-- **`dynstr_adjust`** makes room as `roomFor` says. -/
theorem roomFor_eq (A : Allocator) {s : DynSt} {text : Bytes} (h : s.str.Holds text)
    {n : ℕ} (hn : n < sizeMax) {ok : Bool} {d : Dynstr} {k : ℕ}
    (hadjust : dynstrAdjust A s.calls s.str n = (ok, d, k)) :
    roomFor A s n = if ok then some d.block else none := by
  have hobject := h.object
  have hdouble := ptrdiffMax_double
  have hmax : (if n < s.str.cap * 2 then s.str.cap * 2 else n) = max (2 * s.str.cap) n := by
    split <;> omega
  rw [dynstrAdjust, szAdd_eq (by omega), szMul_eq (by omega)] at hadjust
  rw [roomFor]
  by_cases hfits : n + 1 < s.str.cap
  · rw [if_pos hfits] at hadjust ⊢
    cases hadjust
    rfl
  · dsimp only at hadjust
    rw [if_neg hfits, hmax] at hadjust
    rw [if_neg hfits]
    by_cases hserves : A.serves s.calls (max (2 * s.str.cap) n)
    · have htake : s.str.block.take (max (2 * s.str.cap) n) = s.str.block :=
        List.take_of_length_le (by rw [h.cap_eq]; omega)
      rw [if_pos hserves, htake, h.cap_eq] at hadjust
      rw [if_pos hserves]
      cases hadjust
      rfl
    · rw [if_neg hserves] at hadjust ⊢
      cases hadjust
      rfl

/-- A step that appends. -/
theorem dynStep_append (A : Allocator) {s : DynSt} {text : Bytes} (h : s.str.Holds text)
    (src : SrcStr) :
    ∃ ok s', dynStep A s (.append src) = some (ok, s') ∧
      (ok = true → s'.str.Holds (text ++ src.bytes)) ∧ (ok = false → s'.str = s.str) := by
  obtain ⟨ok, d', k', hrun, hgrown, hsame⟩ := dynstrAppend_holds A s.calls h src
  exact ⟨ok, ⟨d', k'⟩, by simp [dynStep, hrun], hgrown, hsame⟩

/-- A step that wipes. -/
theorem dynStep_wipe (A : Allocator) {s : DynSt} {text : Bytes} (h : s.str.Holds text)
    {start stop : ℕ} (hle : start ≤ stop) (hstop : stop ≤ text.length) :
    ∃ s', dynStep A s (.wipe start stop) = some (true, s') ∧
      s'.str.Holds (text.take start ++ text.drop stop) := by
  have hfront : (text.take start).length = start := List.length_take_of_le (by omega)
  have hmiddle : (text.take start).length + ((text.drop start).take (stop - start)).length =
      stop := by
    rw [hfront, List.length_take_of_le (by rw [List.length_drop]; omega)]
    omega
  have hback : (text.drop start).drop (stop - start) = text.drop stop := by
    rw [List.drop_drop, Nat.add_sub_cancel' hle]
  rw [← List.take_append_drop start text,
    ← List.take_append_drop (stop - start) (text.drop start)] at h
  obtain ⟨d', hrun, hd'⟩ := dynstrWipe_holds h
  rw [hmiddle, hfront] at hrun
  rw [hback] at hd'
  exact ⟨⟨d', s.calls⟩, by simp [dynStep, hrun], hd'⟩

/-- A step that injects into a text, or injects nothing. -/
theorem dynStep_inject (A : Allocator) {s : DynSt} {text : Bytes} (h : s.str.Holds text)
    {src : SrcStr} {p : ℕ} (hp : p ≤ text.length) (hempty : text = [] → src.1 = []) :
    ∃ ok s', dynStep A s (.inject src p) = some (ok, s') ∧
      (ok = true → s'.str.Holds (text.take p ++ src.bytes ++ text.drop p)) ∧
      (ok = false → s'.str = s.str) := by
  have hfront : (text.take p).length = p := List.length_take_of_le hp
  rw [← List.take_append_drop p text] at h hempty
  obtain ⟨ok, d', k', hrun, hgrown, hsame⟩ := dynstrInject_holds A s.calls h src hempty
  rw [hfront] at hrun
  exact ⟨ok, ⟨d', k'⟩, by simp [dynStep, hrun], hgrown, hsame⟩

/-- A step that injects into an empty text. -/
theorem dynStep_inject_empty (A : Allocator) {s : DynSt} (h : s.str.Holds []) {src : SrcStr}
    (hsrc : src.1 ≠ []) :
    ∃ ok s', dynStep A s (.inject src 0) = some (ok, s') ∧ (ok = false → s'.str = s.str) ∧
      (s'.str.WellFormed → (DynOp.inject src 0).Sound A s) ∧
      ((DynOp.inject src 0).Sound A s → ok = true → s'.str.Holds src.bytes) := by
  have hsize := h.size_eq
  obtain ⟨ok, d₁, d', k', hadjust, hrun, hsame, hzero⟩ := dynstrInject_empty A s.calls h src
  have hsmall : src.1.length + 1 < sizeMax := by
    have hobject := src.2
    have hdouble := ptrdiffMax_double
    omega
  have hn : szAdd s.str.size src.1.length = src.1.length + 1 := by
    rw [hsize, List.length_nil, Nat.zero_add, Nat.add_comm _ 1]
    exact szAdd_eq (by omega)
  rw [hn] at hadjust
  have hroom := roomFor_eq A h hsmall hadjust
  refine ⟨ok, ⟨d', k'⟩, by simp [dynStep, hrun], hsame, ?_⟩
  cases ok with
  | true => simpa [DynOp.Sound, hsrc, hsize, hroom] using hzero rfl
  | false => exact ⟨fun _ => .inr (.inr (by simp [hroom])), nofun⟩

/-- A step that injects anywhere: its result is well formed only if it is sound, and then it
is the text with the source put in between. -/
theorem dynStep_inject_sound (A : Allocator) {s : DynSt} {text : Bytes} (h : s.str.Holds text)
    (src : SrcStr) {p : ℕ} (hp : p ≤ text.length) :
    ∃ ok s', dynStep A s (.inject src p) = some (ok, s') ∧ (ok = false → s'.str = s.str) ∧
      (s'.str.WellFormed → (DynOp.inject src p).Sound A s) ∧
      ((DynOp.inject src p).Sound A s → ok = true →
        s'.str.Holds (text.take p ++ src.bytes ++ text.drop p)) := by
  by_cases hempty : text = [] → src.1 = []
  · obtain ⟨ok, s', hstep, hgrown, hsame⟩ := dynStep_inject A h hp hempty
    refine ⟨ok, s', hstep, hsame, fun _ => ?_, fun _ => hgrown⟩
    by_cases hsrc : src.1 = []
    · exact .inr (.inl hsrc)
    · refine .inl fun hone => hsrc (hempty ?_)
      have hsize := h.size_eq
      rw [List.eq_nil_iff_length_eq_zero]
      omega
  · obtain ⟨rfl, hsrc⟩ := Classical.not_imp.mp hempty
    obtain rfl : p = 0 := Nat.le_zero.mp hp
    simpa using dynStep_inject_empty A h hsrc

/-- **One operation** on a well-formed string stays inside its block, and leaves it well
formed exactly if it is sound. -/
theorem dynStep_wellFormed (A : Allocator) {s : DynSt} (hs : s.str.WellFormed) {op : DynOp}
    (hop : op.Within s) :
    ∃ ok s', dynStep A s op = some (ok, s') ∧ (s'.str.WellFormed ↔ op.Sound A s) := by
  obtain ⟨text, h⟩ := wellFormed_iff.mp hs
  have hsize := h.size_eq
  cases op with
  | append src =>
      obtain ⟨ok, s', hstep, hgrown, hsame⟩ := dynStep_append A h src
      refine ⟨ok, s', hstep, iff_of_true ?_ trivial⟩
      cases ok with
      | true => exact wellFormed_iff.mpr ⟨_, hgrown rfl⟩
      | false => exact hsame rfl ▸ hs
  | wipe start stop =>
      obtain ⟨hle, hstop⟩ := hop
      rw [hsize, Nat.add_sub_cancel] at hstop
      obtain ⟨s', hstep, hwiped⟩ := dynStep_wipe A h hle hstop
      exact ⟨true, s', hstep, iff_of_true (wellFormed_iff.mpr ⟨_, hwiped⟩) trivial⟩
  | clear =>
      have hput : putAt s.str.block 0 nulByte = some (s.str.block.set 0 nulByte) := by
        obtain ⟨rest, hblock⟩ := h.block_eq
        rw [putAt, if_pos (by rw [hblock]; simp)]
      refine ⟨true, ⟨{ s.str with block := s.str.block.set 0 nulByte, size := 0 }, s.calls⟩,
        by simp [dynStep, dynstrClear, hput], iff_of_false ?_ (fun h => h)⟩
      intro hwell
      exact absurd hwell.size_pos (Nat.not_succ_le_zero 0)
  | adjust n =>
      obtain ⟨ok, extra, k', hrun, hsmall, -, -⟩ := dynstrAdjust_grows A s.calls h n
      refine ⟨ok, _, by simp only [dynStep, hrun]; rfl, iff_of_true ?_ trivial⟩
      exact wellFormed_iff.mpr ⟨_, h.extend extra hsmall⟩
  | inject src p =>
      have hp : p ≤ text.length := by
        have hp : p ≤ s.str.size - 1 := hop
        rwa [hsize, Nat.add_sub_cancel] at hp
      obtain ⟨ok, s', hstep, hsame, hsound, hgrown⟩ := dynStep_inject_sound A h src hp
      refine ⟨ok, s', hstep, hsound, fun hop => ?_⟩
      cases ok with
      | true => exact wellFormed_iff.mpr ⟨_, hgrown hop rfl⟩
      | false => exact hsame rfl ▸ hs

/-! ### Runs -/

/-- Sound operations keep the string well formed. -/
theorem sound_run_wellFormed {A : Allocator} {s s' : DynSt} {log : List (DynOp × Bool)}
    (h : (soundMachine A).Run s log s') (hs : s.str.WellFormed) : s'.str.WellFormed := by
  refine h.invariant (I := fun s => s.str.WellFormed) (H := fun _ => True) ?_ hs fun _ _ => trivial
  intro s op r s'' hwell _ hadmits hstep
  obtain ⟨hwithin, hsound⟩ := hadmits
  obtain ⟨_, _, hrun, hiff⟩ := dynStep_wellFormed A hwell hwithin
  cases hrun.symm.trans hstep
  exact hiff.mpr hsound

/-- One more sound operation. -/
theorem sound_step {A : Allocator} {s s' s'' : DynSt} {log : List (DynOp × Bool)} {op : DynOp}
    {ok : Bool} (h : (soundMachine A).Run s log s') (hstep : dynStep A s' op = some (ok, s''))
    (hwithin : op.Within s') (hsound : op.Sound A s') :
    (soundMachine A).Run s (log ++ [(op, ok)]) s'' :=
  h.snoc ⟨hwithin, hsound⟩ hstep

/-- **Runs of sound operations.** A construction gives a well-formed string exactly if it is
sound. From there on, as long as the operations are sound, the string is well formed, and
every operation within its text stays inside its block; what comes after an operation is
well formed exactly if it was sound. -/
theorem dynstr_stays_wellFormed (A : Allocator) (k : ℕ) (make : DynMake) :
    (make.Sound A k ↔
      ∃ o k', dynMake A k make = some (o, k') ∧ ∀ d, o = some d → d.WellFormed) ∧
    ∀ d k', dynMake A k make = some (some d, k') →
      ∀ log s, (soundMachine A).Run ⟨d, k'⟩ log s →
        s.str.WellFormed ∧ ∀ op : DynOp, op.Within s →
          ∃ ok s', dynStep A s op = some (ok, s') ∧ (s'.str.WellFormed ↔ op.Sound A s) := by
  refine ⟨⟨dynMake_sound A k, ?_⟩, ?_⟩
  · rintro ⟨o, k', hmake, -⟩
    by_contra hunsound
    rw [dynMake_unsound A k hunsound] at hmake
    exact absurd hmake nofun
  · intro d k' hd log s hrun
    have hsound : make.Sound A k := by
      by_contra hunsound
      rw [dynMake_unsound A k hunsound] at hd
      exact absurd hd nofun
    obtain ⟨_, _, hmake, hwell⟩ := dynMake_sound A k hsound
    cases hmake.symm.trans hd
    have hs := sound_run_wellFormed hrun (hwell d rfl)
    exact ⟨hs, fun op hop => dynStep_wellFormed A hs hop⟩

/-- An allocator that serves every request, with zeroes. -/
def generous : Allocator :=
  { grants := fun _ _ => true, junk := fun _ _ => 0 }

/-- The string `dynstr_new(0)` gives. -/
def emptyStr : Dynstr := { block := [0], size := 1, cap := 1 }

/-- A fresh string gets the text `/..`, a second slash, and loses it again. It is well formed
then, but no more so once it is cleared. -/
theorem dynstr_stays_wellFormed_dots :
    ∃ log s, (soundMachine generous).Run ⟨emptyStr, 2⟩ log s ∧ log.length = 3 ∧
      s.str.block = [47, 46, 46, 0, 0, 0, 0, 0] ∧ s.str.WellFormed ∧
      ∃ ok s', dynStep generous s .clear = some (ok, s') ∧ ¬ s'.str.WellFormed := by
  have happend : dynStep generous ⟨emptyStr, 2⟩ (.append ⟨[slash, dot, dot], by decide⟩) =
      some (true, ⟨{ block := [47, 46, 46, 0], size := 4, cap := 4 }, 3⟩) := by decide +kernel
  have hinject : dynStep generous ⟨{ block := [47, 46, 46, 0], size := 4, cap := 4 }, 3⟩
      (.inject ⟨[slash], by decide⟩ 1) =
      some (true, ⟨{ block := [47, 47, 46, 46, 0, 0, 0, 0], size := 5, cap := 8 }, 4⟩) := by
    decide +kernel
  have hwipe : dynStep generous
      ⟨{ block := [47, 47, 46, 46, 0, 0, 0, 0], size := 5, cap := 8 }, 4⟩ (.wipe 1 2) =
      some (true, ⟨{ block := [47, 46, 46, 0, 0, 0, 0, 0], size := 4, cap := 8 }, 4⟩) := by
    decide +kernel
  have h₁ := sound_step .nil happend trivial trivial
  have h₂ := sound_step h₁ hinject (by simp [DynOp.Within]) (by simp [DynOp.Sound])
  have hrun := sound_step h₂ hwipe (by simp [DynOp.Within]) trivial
  obtain ⟨hwell, hnext⟩ :=
    (dynstr_stays_wellFormed generous 0 (.new ⟨0, Nat.zero_le _⟩)).2 emptyStr 2 rfl _ _ hrun
  obtain ⟨ok, s, hstep, hiff⟩ := hnext .clear trivial
  exact ⟨_, _, hrun, rfl, rfl, hwell, ok, s, hstep, fun h => hiff.mp h⟩

/-- A string that was cleared counts no zero. -/
theorem dynstr_clear_uncounts :
    ¬ ∀ (A : Allocator) (k : ℕ) (make : DynMake) (d : Dynstr) (k' : ℕ),
      dynMake A k make = some (some d, k') →
        ∀ log s, (dynstrMachine A).Run ⟨d, k'⟩ log s → s.str.WellFormed := by
  intro h
  have hrun : (dynstrMachine generous).Run ⟨emptyStr, 2⟩ [(.clear, true)]
      ⟨{ block := [0], size := 0, cap := 1 }, 2⟩ :=
    Machine.Run.nil.snoc (i := DynOp.clear) trivial rfl
  have hwell := h generous 0 (.new ⟨0, Nat.zero_le _⟩) emptyStr 2 rfl _ _ hrun
  exact absurd hwell.size_pos (by decide)

end Backd
