import Backd.DynstrText

/-!
# A Dynamic String Is a Text

What a caller of `dynstr.c` has to know of a dynamic string is its text and its capacity: from
these follow the text and the answer of every operation, and when the allocator is asked for
more. This module says so as a machine on texts, which knows of no block and no bytes behind the
text, and shows that sound runs of a dynamic string are runs of that machine.

## Main results

* `dynStep_textStep`: a sound operation does to the text what the machine says.
* `dynstr_simulates_text`: so does a whole run, from the construction on, and the string a
  caller reads at `_ptr` is the text.
-/

namespace Backd

open Splice Runs

/-! ### Texts -/

/-- A text, the capacity for it, and the number of allocator calls made so far. -/
structure TextSt where
  text : Bytes
  cap : ℕ
  calls : ℕ
  deriving DecidableEq, Repr

/-- Room for `n` bytes. A capacity that grows is at least doubled; for `SIZE_MAX` bytes,
nothing is done. -/
def TextSt.reserve (A : Allocator) (t : TextSt) (n : ℕ) : Bool × TextSt :=
  if n + 1 < t.cap ∨ n = sizeMax then (true, t)
  else if A.serves t.calls (max (2 * t.cap) n) then
    (true, { t with cap := max (2 * t.cap) n, calls := t.calls + 1 })
  else (false, { t with calls := t.calls + 1 })

/-- An edit that needs room for `n` bytes. -/
def TextSt.edit (A : Allocator) (t : TextSt) (n : ℕ) (text : Bytes) : Bool × TextSt :=
  match t.reserve A n with
  | (false, t) => (false, t)
  | (true, t) => (true, { t with text := text })

/-- One operation on a text. -/
def textStep (A : Allocator) (t : TextSt) : DynOp → Bool × TextSt
  | .append src => t.edit A (t.text.length + 1 + src.1.length) (t.text ++ src.bytes)
  | .inject src p => t.edit A (t.text.length + 1 + src.1.length)
      (t.text.take p ++ src.bytes ++ t.text.drop p)
  | .wipe start stop => (true, { t with text := t.text.take start ++ t.text.drop stop })
  | .clear => (true, { t with text := [] })
  | .adjust n => t.reserve A n

/-- The positions lie within the text. -/
def DynOp.WithinText (text : Bytes) : DynOp → Prop
  | .inject _ p => p ≤ text.length
  | .wipe start stop => start ≤ stop ∧ stop ≤ text.length
  | .append _ | .clear | .adjust _ => True

/-- A text and its callers. -/
def textMachine (A : Allocator) : Machine TextSt DynOp Bool where
  Admits t op := op.WithinText t.text
  step t op := some (textStep A t op)

/-- The text a construction begins with. -/
def DynMake.text : DynMake → Bytes
  | .new _ => []
  | .fromBytes src => src.1
  | .assign src => src.bytes

/-- The capacity it asks for. -/
def DynMake.cap : DynMake → ℕ
  | .new n => n.1 + 1
  | .fromBytes src => src.1.length + 1
  | .assign src => src.1.length + 1

/-! ### One operation -/

/-- A dynamic string is this text. -/
structure DynSt.Is (s : DynSt) (t : TextSt) : Prop where
  holds : s.str.Holds t.text
  cap_eq : s.str.cap = t.cap
  calls_eq : s.calls = t.calls

section Steps

variable {A : Allocator} {s : DynSt} {t : TextSt}

/-- What is reserved leaves the text. -/
theorem TextSt.reserve_text (A : Allocator) (t : TextSt) (n : ℕ) :
    (t.reserve A n).2.text = t.text := by
  rw [TextSt.reserve]
  split
  · rfl
  · split <;> rfl

/-- `dynstr_adjust` decides as the text does. -/
theorem dynstrAdjust_eq (A : Allocator) {d : Dynstr} (hpos : 1 ≤ d.cap)
    (hobject : d.cap ≤ ptrdiffMax) (text : Bytes) (k : ℕ) {n : ℕ} (hn : n ≤ sizeMax) :
    (dynstrAdjust A k d n).1 = (TextSt.reserve A ⟨text, d.cap, k⟩ n).1 ∧
      (dynstrAdjust A k d n).2.1.cap = (TextSt.reserve A ⟨text, d.cap, k⟩ n).2.cap ∧
      (dynstrAdjust A k d n).2.2 = (TextSt.reserve A ⟨text, d.cap, k⟩ n).2.calls := by
  have hdouble := ptrdiffMax_double
  have hfits : szAdd n 1 < d.cap ↔ n + 1 < d.cap ∨ n = sizeMax := by
    rcases Nat.lt_or_eq_of_le hn with hlt | rfl
    · rw [szAdd_eq hlt]
      omega
    · have hwrap : szAdd sizeMax 1 = 0 := rfl
      rw [hwrap]
      omega
  have hmul : szMul d.cap 2 = 2 * d.cap := by
    rw [szMul_eq (by omega), Nat.mul_comm]
  have hsize : (if n < 2 * d.cap then 2 * d.cap else n) = max (2 * d.cap) n := by
    split <;> omega
  rw [dynstrAdjust, TextSt.reserve, hmul, hsize]
  by_cases hroom : szAdd n 1 < d.cap
  · rw [if_pos hroom, if_pos (hfits.mp hroom)]
    exact ⟨rfl, rfl, rfl⟩
  · rw [if_neg hroom, if_neg (mt hfits.mpr hroom)]
    by_cases hserves : A.serves k (max (2 * d.cap) n)
    · rw [if_pos hserves, if_pos hserves]
      exact ⟨rfl, rfl, rfl⟩
    · rw [if_neg hserves, if_neg hserves]
      exact ⟨rfl, rfl, rfl⟩

/-- To adjust is to reserve. -/
theorem dynstrAdjust_reserve (h : s.Is t) {n : ℕ} (hn : n ≤ sizeMax) :
    ∃ ok d k, dynstrAdjust A s.calls s.str n = (ok, d, k) ∧ ok = (t.reserve A n).1 ∧
      DynSt.Is ⟨d, k⟩ (t.reserve A n).2 := by
  obtain ⟨text, cap, calls⟩ := t
  obtain ⟨hholds, rfl, rfl⟩ := h
  obtain ⟨ok, extra, k, hadjust, hsmall, -, -⟩ := dynstrAdjust_grows A s.calls hholds n
  have hpos : 1 ≤ s.str.cap := by
    have hsize := hholds.size_eq
    have hle := hholds.size_le
    omega
  have hfields := dynstrAdjust_eq A hpos hholds.object text s.calls hn
  rw [hadjust] at hfields
  obtain ⟨hok, hcap, hcalls⟩ := hfields
  refine ⟨ok, _, k, hadjust, hok, ?_, hcap, hcalls⟩
  rw [TextSt.reserve_text]
  exact hholds.extend extra hsmall

/-- `dynstr_append` adjusts first. -/
theorem dynstrAppend_adjusts {k k' : ℕ} {d d' : Dynstr} {src : SrcStr} {ok : Bool}
    (h : dynstrAppend A k d src = some (ok, d', k')) :
    ∃ d₁, dynstrAdjust A k d (szAdd d.size src.1.length) = (ok, d₁, k') ∧ d'.cap = d₁.cap := by
  rw [dynstrAppend] at h
  split at h
  · next hadjust =>
      cases h
      exact ⟨_, hadjust, rfl⟩
  · next hadjust =>
      obtain ⟨block, -, h⟩ := Option.bind_eq_some_iff.mp h
      cases h
      exact ⟨_, hadjust, rfl⟩

/-- So does `dynstr_inject`. -/
theorem dynstrInject_adjusts {k k' p : ℕ} {d d' : Dynstr} {src : SrcStr} {ok : Bool}
    (h : dynstrInject A k d src p = some (ok, d', k')) :
    ∃ d₁, dynstrAdjust A k d (szAdd d.size src.1.length) = (ok, d₁, k') ∧ d'.cap = d₁.cap := by
  rw [dynstrInject] at h
  split at h
  · next hadjust =>
      cases h
      exact ⟨_, hadjust, rfl⟩
  · next hadjust =>
      dsimp only at h
      split at h
      · obtain ⟨moved, -, h⟩ := Option.bind_eq_some_iff.mp h
        obtain ⟨block, -, h⟩ := Option.bind_eq_some_iff.mp h
        cases h
        exact ⟨_, hadjust, rfl⟩
      · obtain ⟨moved, -, h⟩ := Option.bind_eq_some_iff.mp h
        obtain ⟨block, -, h⟩ := Option.bind_eq_some_iff.mp h
        cases h
        exact ⟨_, hadjust, rfl⟩

/-- `dynstr_wipe` keeps the block. -/
theorem dynstrWipe_cap {d d' : Dynstr} {start stop : ℕ} (h : dynstrWipe d start stop = some d') :
    d'.cap = d.cap := by
  obtain ⟨block, -, h⟩ := Option.bind_eq_some_iff.mp h
  cases h
  rfl

/-- The size an operation asks for. -/
theorem DynSt.Is.size_add (h : s.Is t) (src : SrcStr) :
    szAdd s.str.size src.1.length = t.text.length + 1 + src.1.length ∧
      t.text.length + 1 + src.1.length ≤ sizeMax := by
  have hsize := h.holds.size_eq
  have hle := h.holds.size_le
  have hobject := h.holds.object
  have hsrc := src.2
  have hdouble := ptrdiffMax_double
  rw [szAdd_eq (by omega), hsize]
  omega

/-- An operation that adjusts first, and then edits the text or has failed, is an edit. -/
theorem edit_of_adjust (h : s.Is t) (src : SrcStr) {text : Bytes} {ok : Bool} {s' : DynSt}
    {d : Dynstr}
    (hadjust : dynstrAdjust A s.calls s.str (szAdd s.str.size src.1.length) = (ok, d, s'.calls))
    (hcap : s'.str.cap = d.cap) (hedited : ok = true → s'.str.Holds text)
    (hsame : ok = false → s'.str = s.str) :
    ok = (t.edit A (t.text.length + 1 + src.1.length) text).1 ∧
      s'.Is (t.edit A (t.text.length + 1 + src.1.length) text).2 := by
  obtain ⟨hsize, hle⟩ := h.size_add src
  obtain ⟨ok', d', k', hadjust', hok, hreserved⟩ := dynstrAdjust_reserve (A := A) h hle
  rw [← hsize, hadjust] at hadjust'
  cases hadjust'
  rw [TextSt.edit]
  have htext := t.reserve_text A (t.text.length + 1 + src.1.length)
  cases hreserve : t.reserve A (t.text.length + 1 + src.1.length) with
  | mk served t' =>
      rw [hreserve] at hok hreserved htext
      obtain rfl : ok = served := hok
      cases ok with
      | true => exact ⟨rfl, hedited rfl, hcap.trans hreserved.cap_eq, hreserved.calls_eq⟩
      | false =>
          refine ⟨rfl, ?_, hcap.trans hreserved.cap_eq, hreserved.calls_eq⟩
          rw [hsame rfl, show t'.text = t.text from htext]
          exact h.holds

/-- **A sound operation** answers and does what the text does. -/
theorem dynStep_textStep (h : s.Is t) {op : DynOp} (hop : op.Within s) (hsound : op.Sound A s) :
    ∃ s', dynStep A s op = some ((textStep A t op).1, s') ∧ s'.Is (textStep A t op).2 := by
  have hsize := h.holds.size_eq
  cases op with
  | append src =>
      obtain ⟨ok, s', hstep, hedited, hsame⟩ := dynStep_append A h.holds src
      obtain ⟨⟨ok', d', k'⟩, hrun, heq⟩ := Option.bind_eq_some_iff.mp hstep
      cases heq
      obtain ⟨d, hadjust, hcap⟩ := dynstrAppend_adjusts hrun
      obtain ⟨rfl, his⟩ := @edit_of_adjust A s t h src _ _ ⟨d', k'⟩ d hadjust hcap
        hedited hsame
      exact ⟨_, hstep, his⟩
  | inject src p =>
      have hp : p ≤ t.text.length := by
        have hp : p ≤ s.str.size - 1 := hop
        rwa [hsize, Nat.add_sub_cancel] at hp
      obtain ⟨ok, s', hstep, hsame, -, hedited⟩ := dynStep_inject_sound A h.holds src hp
      obtain ⟨⟨ok', d', k'⟩, hrun, heq⟩ := Option.bind_eq_some_iff.mp hstep
      cases heq
      obtain ⟨d, hadjust, hcap⟩ := dynstrInject_adjusts hrun
      obtain ⟨rfl, his⟩ := @edit_of_adjust A s t h src _ _ ⟨d', k'⟩ d hadjust hcap
        (hedited hsound) hsame
      exact ⟨_, hstep, his⟩
  | wipe start stop =>
      obtain ⟨hle, hstop⟩ := hop
      rw [hsize, Nat.add_sub_cancel] at hstop
      obtain ⟨s', hstep, hwiped⟩ := dynStep_wipe A h.holds hle hstop
      obtain ⟨d', hrun, heq⟩ := Option.bind_eq_some_iff.mp hstep
      cases heq
      exact ⟨_, hstep, hwiped, (dynstrWipe_cap hrun).trans h.cap_eq, h.calls_eq⟩
  | clear => exact absurd hsound id
  | adjust n =>
      obtain ⟨ok, d, k, hadjust, rfl, hreserved⟩ := dynstrAdjust_reserve (A := A) h n.2
      exact ⟨⟨d, k⟩, by simp [dynStep, textStep, hadjust], hreserved⟩

/-- What is within the string is within the text. -/
theorem within_text (h : s.Is t) {op : DynOp} (hop : op.Within s) : op.WithinText t.text := by
  have hsize : s.str.size - 1 = t.text.length := by rw [h.holds.size_eq, Nat.add_sub_cancel]
  cases op with
  | append _ | clear | adjust _ => trivial
  | inject src p =>
      have hp : p ≤ s.str.size - 1 := hop
      rwa [hsize] at hp
  | wipe start stop =>
      have hp : start ≤ stop ∧ stop ≤ s.str.size - 1 := hop
      rwa [hsize] at hp

/-- What `dynstr_new` gives, when it gives a string. -/
theorem of_dynstrNew {k k' n : ℕ} {d : Dynstr} (hn : n ≤ sizeMax)
    (h : dynstrNew A k n = some (some d, k')) : d.Holds [] ∧ d.cap = n + 1 := by
  rcases Nat.lt_or_eq_of_le hn with hlt | rfl
  · obtain ⟨o, k'', hnew, hholds⟩ := dynstrNew_holds A k hlt
    cases hnew.symm.trans h
    exact hholds d rfl
  · -- the size wraps to zero, and there is no byte for the zero
    have hunsound : ∀ {o}, dynstrNew A k sizeMax = some (o, k') → o = none := by
      intro o ho
      rw [dynstrNew] at ho
      split at ho
      · cases ho
        rfl
      · split at ho
        · cases ho
          rfl
        · obtain ⟨block, hput, -⟩ := Option.bind_eq_some_iff.mp ho
          cases hput
    cases hunsound h

/-- A construction gives the text it is asked for, in a block of the size it asks for. -/
theorem dynMake_is {k k' : ℕ} {make : DynMake} {d : Dynstr}
    (h : dynMake A k make = some (some d, k')) : DynSt.Is ⟨d, k'⟩ ⟨make.text, make.cap, k'⟩ := by
  have hdouble := ptrdiffMax_double
  cases make with
  | new n =>
      obtain ⟨hholds, hcap⟩ := of_dynstrNew n.2 h
      exact ⟨hholds, hcap, rfl⟩
  | fromBytes src =>
      have hsrc := src.2
      obtain ⟨o, k'', hfrom, hholds⟩ := dynstrFrom_holds A k src.2
      cases hfrom.symm.trans h
      refine ⟨hholds d rfl, ?_, rfl⟩
      rw [dynMake, dynstrFrom] at h
      split at h
      · cases h
      · split at h
        · cases h
        · obtain ⟨block, -, h⟩ := Option.bind_eq_some_iff.mp h
          obtain ⟨block', -, h⟩ := Option.bind_eq_some_iff.mp h
          cases h
          exact szAdd_eq (by omega)
  | assign src =>
      have hsrc := src.2
      obtain ⟨o, k'', hassign, hholds⟩ := dynstrAssign_holds A k src
      cases hassign.symm.trans h
      refine ⟨hholds d rfl, ?_, rfl⟩
      obtain ⟨⟨o, k₁⟩, hnew, h⟩ := Option.bind_eq_some_iff.mp h
      cases o with
      | none => cases h
      | some d₁ =>
          obtain ⟨block, -, h⟩ := Option.bind_eq_some_iff.mp h
          cases h
          exact (of_dynstrNew (by omega) hnew).2

/-! ### What is read -/

/-- No byte of the text is zero. -/
def ZeroFree (text : Bytes) : Prop := ∀ b ∈ text, b ≠ nulByte

/-- The string at `_ptr`. -/
def Dynstr.readString (d : Dynstr) : Bytes := d.block.takeWhile (· ≠ nulByte)

/-- A caller who reads the string at `_ptr` reads the text. -/
theorem Dynstr.Holds.readString {d : Dynstr} {text : Bytes} (h : d.Holds text)
    (hfree : ZeroFree text) : d.readString = text := by
  obtain ⟨rest, hblock⟩ := h.block_eq
  rw [Dynstr.readString, hblock, List.takeWhile_append_of_pos (by simpa [ZeroFree] using hfree)]
  simp

/-- Characters are not zero. -/
theorem zeroFree_bytes (src : SrcStr) : ZeroFree src.bytes :=
  List.forall_mem_map.mpr fun c _ => c.2

/-- An edit gives the text it is for, or leaves it. -/
theorem TextSt.edit_text (A : Allocator) (t : TextSt) (n : ℕ) (text : Bytes) :
    (t.edit A n text).2.text = text ∨ (t.edit A n text).2.text = t.text := by
  have hsame := t.reserve_text A n
  rw [TextSt.edit]
  cases hreserve : t.reserve A n with
  | mk ok t' =>
      rw [hreserve] at hsame
      cases ok with
      | true => exact .inl rfl
      | false => exact .inr hsame

/-- Operations put no zeroes into the text. -/
theorem zeroFree_textStep (h : ZeroFree t.text) (op : DynOp) :
    ZeroFree (textStep A t op).2.text := by
  have hedit : ∀ n text, ZeroFree text → ZeroFree (t.edit A n text).2.text := by
    intro n text hfree
    rcases t.edit_text A n text with heq | heq
    · rwa [heq]
    · rwa [heq]
  have htake : ∀ p, ZeroFree (t.text.take p) := fun p b hb => h b (List.mem_of_mem_take hb)
  have hdrop : ∀ p, ZeroFree (t.text.drop p) := fun p b hb => h b (List.mem_of_mem_drop hb)
  cases op with
  | append src => exact hedit _ _ (List.forall_mem_append.mpr ⟨h, zeroFree_bytes src⟩)
  | inject src p =>
      exact hedit _ _ (List.forall_mem_append.mpr
        ⟨List.forall_mem_append.mpr ⟨htake p, zeroFree_bytes src⟩, hdrop p⟩)
  | wipe start stop => exact List.forall_mem_append.mpr ⟨htake start, hdrop stop⟩
  | clear => exact fun b hb => absurd hb List.not_mem_nil
  | adjust n =>
      rw [textStep, TextSt.reserve_text]
      exact h

end Steps

/-- **A dynamic string simulates its text**: a sound run from a construction is a run of the
text, with the same answers; the string is the text the run comes to, and every further sound
operation answers and does what the text does. Unless it was made from bytes with zeroes, the
string read at `_ptr` is the text, and `dynstr_len` is its length and one for the zero. -/
theorem dynstr_simulates_text (A : Allocator) {k k' : ℕ} {make : DynMake} {d : Dynstr}
    (hmake : dynMake A k make = some (some d, k')) {log : List (DynOp × Bool)} {s : DynSt}
    (hrun : (soundMachine A).Run ⟨d, k'⟩ log s) :
    ∃ t, (textMachine A).Run ⟨make.text, make.cap, k'⟩ log t ∧ s.Is t ∧
      s.str.size = t.text.length + 1 ∧ (ZeroFree make.text → s.str.readString = t.text) ∧
      ∀ op, (soundMachine A).Admits s op →
        ∃ s', dynStep A s op = some ((textStep A t op).1, s') ∧ s'.Is (textStep A t op).2 := by
  obtain ⟨t, htext, his⟩ := hrun.simulates (N := textMachine A) (R := DynSt.Is)
    (fun {s t op ok s'} his hadmits hstep => by
      obtain ⟨hwithin, hsound⟩ := hadmits
      obtain ⟨s'', hstep', his'⟩ := dynStep_textStep his hwithin hsound
      cases hstep'.symm.trans hstep
      exact ⟨_, within_text his hwithin, rfl, his'⟩) (dynMake_is hmake)
  refine ⟨t, htext, his, his.holds.size_eq, fun hfree => his.holds.readString ?_,
    fun op hadmits => dynStep_textStep his hadmits.1 hadmits.2⟩
  refine htext.invariant (I := fun t => ZeroFree t.text) (H := fun _ => True) ?_ hfree
    fun _ _ => trivial
  intro t op ok t' hfree _ _ hstep
  obtain rfl : (textStep A t op).2 = t' := congrArg Prod.snd (Option.some.inj hstep)
  exact zeroFree_textStep hfree op

/-- A character is appended to a fresh string, and read. -/
theorem dynstr_simulates_text_slash :
    ∃ t, (textMachine generous).Run ⟨[], 1, 2⟩ [(.append ⟨[slash], by decide⟩, true)] t ∧
      t.text = [47] := by
  have hrun : (soundMachine generous).Run ⟨emptyStr, 2⟩ [(.append ⟨[slash], by decide⟩, true)]
      ⟨{ block := [47, 0], size := 2, cap := 2 }, 3⟩ :=
    Machine.Run.nil.snoc (i := DynOp.append ⟨[slash], by decide⟩) ⟨trivial, trivial⟩ (by decide)
  have hmake : dynMake generous 0 (.new ⟨0, Nat.zero_le _⟩) = some (some emptyStr, 2) := rfl
  obtain ⟨t, htext, -, -, hread, -⟩ := dynstr_simulates_text generous hmake hrun
  refine ⟨t, htext, (hread fun b hb => absurd hb List.not_mem_nil).symm.trans ?_⟩
  rfl

end Backd
