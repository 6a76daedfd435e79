import Backd.DynstrRuns

/-!
# The Text of a Dynamic String

What the operations of `dynstr.c` make of the text: to append, to inject and to wipe are
`take` and `drop` on it, and to wipe what was injected gives the text back. One case is
different. The shortcut of `dynstr_inject` for an empty text moves nothing, the zero behind
the text included, so that the text ends where the block happens to hold a zero.

## Main results

* `spliceLaws_iff`: the laws hold for a text exactly if injecting into it is sound.
-/

namespace Backd

/-- The laws of a string that holds `text`, for a source and a position in the text. An
operation that fails leaves the string as it was. -/
structure SpliceLaws (A : Allocator) (s : DynSt) (text : Bytes) (src : SrcStr) (p : ℕ) :
    Prop where
  /-- To append puts the source behind the text. -/
  append : ∃ ok s', dynStep A s (.append src) = some (ok, s') ∧
    (ok = true → s'.str.Holds (text ++ src.bytes)) ∧ (ok = false → s'.str = s.str)
  /-- To inject puts the source in between. -/
  inject : ∃ ok s', dynStep A s (.inject src p) = some (ok, s') ∧
    (ok = true → s'.str.Holds (text.take p ++ src.bytes ++ text.drop p)) ∧
    (ok = false → s'.str = s.str)
  /-- To wipe takes a range out. -/
  wipe : ∀ start stop, start ≤ stop → stop ≤ text.length →
    ∃ s', dynStep A s (.wipe start stop) = some (true, s') ∧
      s'.str.Holds (text.take start ++ text.drop stop)
  /-- To wipe what was injected restores the text. -/
  restore : ∀ s', dynStep A s (.inject src p) = some (true, s') →
    ∃ s'', dynStep A s' (.wipe p (p + src.1.length)) = some (true, s'') ∧ s''.str.Holds text

/-- What was put in between is taken out again. -/
theorem wipe_injected {text src : Bytes} {p : ℕ} (hp : p ≤ text.length) :
    (text.take p ++ src ++ text.drop p).take p ++
      (text.take p ++ src ++ text.drop p).drop (p + src.length) = text := by
  have hfront : (text.take p).length = p := List.length_take_of_le hp
  have hmiddle : (text.take p ++ src).length = p + src.length := by
    rw [List.length_append, hfront]
  have hkept : (text.take p ++ src ++ text.drop p).take p = text.take p := by
    rw [List.append_assoc]
    exact List.take_left' hfront
  have hbehind : (text.take p ++ src ++ text.drop p).drop (p + src.length) = text.drop p :=
    List.drop_left' hmiddle
  rw [hkept, hbehind, List.take_append_drop]

/-- A step that wipes what was injected. -/
theorem dynStep_wipe_injected (A : Allocator) {s : DynSt} {text : Bytes} {src : SrcStr} {p : ℕ}
    (hp : p ≤ text.length) (h : s.str.Holds (text.take p ++ src.bytes ++ text.drop p)) :
    ∃ s', dynStep A s (.wipe p (p + src.1.length)) = some (true, s') ∧ s'.str.Holds text := by
  have hsrc : src.bytes.length = src.1.length := List.length_map _
  have hstop : p + src.1.length ≤ (text.take p ++ src.bytes ++ text.drop p).length := by
    rw [List.length_append, List.length_append, List.length_take_of_le hp, hsrc]
    exact Nat.le_add_right _ _
  obtain ⟨s', hstep, hwiped⟩ := dynStep_wipe A h (Nat.le_add_right _ _) hstop
  rw [← hsrc, wipe_injected hp] at hwiped
  exact ⟨s', hstep, hwiped⟩

/-- **The laws of a text**: on a well-formed string they hold, for a source and a position,
exactly if to inject the source is sound: the text is not empty, or the source is, or the
allocator refuses the room, or a zero happens to stand where the text will end. -/
theorem spliceLaws_iff (A : Allocator) (s : DynSt) (text : Bytes) (h : s.str.Holds text)
    (src : SrcStr) (p : ℕ) (hp : p ≤ text.length) :
    SpliceLaws A s text src p ↔ (DynOp.inject src p).Sound A s := by
  obtain ⟨ok, s', hstep, hsame, hsound, hgrown⟩ := dynStep_inject_sound A h src hp
  constructor
  · intro hlaws
    obtain ⟨ok', s'', hstep', hholds, hkept⟩ := hlaws.inject
    obtain ⟨rfl, rfl⟩ := Prod.mk.inj (Option.some.inj (hstep.symm.trans hstep'))
    refine hsound ?_
    cases ok with
    | true => exact wellFormed_iff.mpr ⟨_, hholds rfl⟩
    | false => exact hkept rfl ▸ wellFormed_iff.mpr ⟨text, h⟩
  · intro hop
    constructor
    · exact dynStep_append A h src
    · exact ⟨ok, s', hstep, hgrown hop, hsame⟩
    · intro start stop hle hstop
      exact dynStep_wipe A h hle hstop
    · intro s'' hstep'
      obtain ⟨rfl, rfl⟩ := Prod.mk.inj (Option.some.inj (hstep.symm.trans hstep'))
      exact dynStep_wipe_injected A hp (hgrown hop rfl)

/-- An allocator that serves every request, with bytes other than zero. -/
def unclean : Allocator :=
  { grants := fun _ _ => true, junk := fun _ _ => 1 }

/-- A string of one character in a block with a byte to spare. -/
def oneChar : Dynstr := { block := [47, 0, 1], size := 2, cap := 3 }

theorem oneChar_holds : oneChar.Holds [47] := ⟨⟨[1], rfl⟩, rfl, rfl, by decide⟩

/-- The laws hold for a text of one character. -/
theorem spliceLaws_oneChar :
    SpliceLaws unclean ⟨oneChar, 0⟩ [47] ⟨[slash], by decide⟩ 1 :=
  (spliceLaws_iff unclean ⟨oneChar, 0⟩ [47] oneChar_holds ⟨[slash], by decide⟩ 1
    (by decide)).mpr (.inl (by decide))

/-- The text `dynstr_new(0)` gives is empty, and a character that is injected has no zero
behind it. -/
theorem inject_into_empty :
    ¬ SpliceLaws unclean ⟨emptyStr, 2⟩ [] ⟨[slash], by decide⟩ 0 := by
  intro h
  obtain ⟨ok, s', hstep, hholds, -⟩ := h.inject
  have hrun : dynStep unclean ⟨emptyStr, 2⟩ (.inject ⟨[slash], by decide⟩ 0) =
      some (true, ⟨{ block := [47, 1], size := 2, cap := 2 }, 3⟩) := by
    decide
  obtain ⟨rfl, rfl⟩ := Prod.mk.inj (Option.some.inj (hrun.symm.trans hstep))
  obtain ⟨rest, hblock⟩ := (hholds rfl).block_eq
  cases hblock

end Backd
