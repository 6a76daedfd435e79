import Mathlib.Data.List.Induction
import Backd.FsTarget

/-!
# The Path Buffer

The observer keeps the path of the target it is at in one static buffer,
`__cur_path`, of `MAX_PATH_SIZE` characters. `set_current_wd` puts a name behind what the
buffer holds, `unset_current_wd` takes it off again.

A cell of the buffer is `none` for the zero character. The functions write cell by cell,
as the source does, and stop with `none` where they would read or write outside the
buffer. The counter of the loop in `unset_current_wd` is a `size_t`, and the loop ends
when it has wrapped.

## Main results

* `setCurrentWd_shows`: the buffer shows the old path joined with the name, when that
  fits; `fits_of_setCurrentWd`: otherwise the function writes outside the buffer.
* `unsetCurrentWd_shows`: the buffer shows what it did before the name was put there.
-/

namespace Backd

/-- `MAX_PATH_SIZE`. -/
def maxPathSize : ℕ := 1024

/-- `__cur_path`. -/
structure PathBuf where
  cells : List (Option CChar)
  length_eq : cells.length = maxPathSize
  deriving DecidableEq

/-- The buffer the service starts with. -/
def PathBuf.empty : PathBuf :=
  { cells := List.replicate maxPathSize none, length_eq := List.length_replicate }

/-- The string at the start of some memory; `none` when no zero ends it. -/
def readStr : List (Option CChar) → Option CStr
  | [] => none
  | none :: _ => some []
  | some c :: cells => (readStr cells).map (c :: ·)

/-- The string `path()` points to. -/
def PathBuf.path (b : PathBuf) : Option CStr := readStr b.cells

/-- `strlen(path())`. -/
def PathBuf.strlen (b : PathBuf) : Option ℕ := b.path.map List.length

/-- `path()[i] = c`. -/
def PathBuf.put (b : PathBuf) (i : ℕ) (c : Option CChar) : Option PathBuf :=
  if i < maxPathSize then some ⟨b.cells.set i c, by simp [b.length_eq]⟩ else none

/-- `while (*name) *ptr++ = *name++;`: the buffer and `ptr` after the loop. -/
def PathBuf.putName (b : PathBuf) (ptr : ℕ) : CStr → Option (PathBuf × ℕ)
  | [] => some (b, ptr)
  | c :: name => do
    let b ← b.put ptr (some c)
    b.putName (ptr + 1) name

/-- `if (len_cur_path) *ptr++ = '/';`: the buffer and `ptr` afterwards. -/
def PathBuf.putSlash (b : PathBuf) (lenCurPath : ℕ) : Option (PathBuf × ℕ) :=
  if lenCurPath ≠ 0 then (b.put lenCurPath (some slash)).map fun b => (b, lenCurPath + 1)
  else some (b, lenCurPath)

/-- `set_current_wd`. -/
def setCurrentWd (name : CStr) (b : PathBuf) : Option PathBuf := do
  let lenCurPath ← b.strlen
  let (b, ptr) ← b.putSlash lenCurPath
  let (b, ptr) ← b.putName ptr name
  b.put ptr none

/-- `while (len_name-- + 1) *--ptr = '\0';`. -/
def unsetLoop (lenName : ℕ) : ℕ → PathBuf → Option PathBuf
  | 0, b => if szAdd lenName 1 = 0 then some b else none
  | ptr + 1, b =>
    if szAdd lenName 1 = 0 then some b
    else do
      let b ← b.put ptr none
      unsetLoop (szSub lenName 1) ptr b

/-- `unset_current_wd`. -/
def unsetCurrentWd (name : CStr) (b : PathBuf) : Option PathBuf := do
  let lenName := name.length
  let lenCurPath ← b.strlen
  if lenCurPath = lenName then b.put 0 none
  else unsetLoop lenName lenCurPath b

/-! ### What the buffer shows -/

/-- The service starts without a path. -/
@[simp] theorem PathBuf.path_empty : PathBuf.empty.path = some [] := rfl

/-- Memory that begins with a string. -/
theorem readStr_eq_some_iff {cells : List (Option CChar)} {s : CStr} :
    readStr cells = some s ↔ ∃ rest, cells = s.map some ++ none :: rest := by
  induction cells generalizing s with
  | nil => simp [readStr]
  | cons x cells ih =>
      cases x with
      | none =>
          constructor
          · intro h
            cases h
            exact ⟨cells, rfl⟩
          · rintro ⟨rest, h⟩
            cases s with
            | nil => rfl
            | cons c s => simp at h
      | some c =>
          simp only [readStr, Option.map_eq_some_iff]
          constructor
          · rintro ⟨t, ht, rfl⟩
            obtain ⟨rest, rfl⟩ := ih.mp ht
            exact ⟨rest, rfl⟩
          · rintro ⟨rest, h⟩
            cases s with
            | nil => simp at h
            | cons d s =>
                obtain ⟨rfl, rfl⟩ : c = d ∧ cells = s.map some ++ none :: rest := by
                  simpa using h
                exact ⟨s, ih.mpr ⟨rest, rfl⟩, rfl⟩

/-- The path with a name behind it: a slash in between, unless there is no path yet. -/
def join (s name : CStr) : CStr :=
  if s = [] then name else s ++ slash :: name

/-- The longest string the buffer can hold. -/
def Fits (s : CStr) : Prop := s.length < maxPathSize

instance (s : CStr) : Decidable (Fits s) := inferInstanceAs (Decidable (_ < _))

/-- Writing a cell inside the buffer. -/
theorem PathBuf.put_cells {b : PathBuf} {front rest : List (Option CChar)}
    {x : Option CChar} (h : b.cells = front ++ x :: rest) (c : Option CChar) :
    ∃ b', b.put front.length c = some b' ∧ b'.cells = front ++ c :: rest := by
  have hlen : front.length < maxPathSize := by
    rw [← b.length_eq, h]
    simp
  refine ⟨_, if_pos hlen, ?_⟩
  simp [h]

/-- Writing a name over as many cells. -/
theorem PathBuf.putName_cells {b : PathBuf} {front old rest : List (Option CChar)}
    {name : CStr} (h : b.cells = front ++ (old ++ rest)) (hlen : old.length = name.length) :
    ∃ b', b.putName front.length name = some (b', front.length + name.length) ∧
      b'.cells = front ++ (name.map some ++ rest) := by
  induction name generalizing b front old with
  | nil =>
      obtain rfl := List.eq_nil_of_length_eq_zero hlen
      exact ⟨b, rfl, h⟩
  | cons c name ih =>
      obtain ⟨x, old, rfl⟩ := List.exists_cons_of_length_eq_add_one hlen
      obtain ⟨b₁, hput, hcells⟩ := b.put_cells h (some c)
      have hnext : b₁.cells = (front ++ [some c]) ++ (old ++ rest) := by
        rw [hcells]
        simp
      obtain ⟨b₂, hname, hcells₂⟩ := ih hnext (by simpa using hlen)
      refine ⟨b₂, ?_, by rw [hcells₂]; simp⟩
      rw [List.length_append, List.length_singleton] at hname
      simp only [putName, hput, Option.bind_eq_bind, Option.bind_some, hname, List.length_cons,
        Nat.add_assoc, Nat.add_comm 1]

/-- A cell is always left for what is behind the string. -/
theorem exists_split {b : PathBuf} {front rest : List (Option CChar)} {n : ℕ}
    (h : b.cells = front ++ rest) (hfit : front.length + n < maxPathSize) :
    ∃ old x rest', rest = old ++ x :: rest' ∧ old.length = n := by
  have hlen : front.length + rest.length = maxPathSize := by
    rw [← b.length_eq, h, List.length_append]
  obtain ⟨x, rest', hdrop⟩ : ∃ x rest', rest.drop n = x :: rest' := by
    apply List.exists_cons_of_ne_nil
    intro hnil
    have := List.drop_eq_nil_iff.mp hnil
    omega
  refine ⟨rest.take n, x, rest', ?_, by rw [List.length_take]; omega⟩
  rw [← hdrop, List.take_append_drop]

/-- Putting a name and its zero behind a string. -/
theorem putName_shows {b : PathBuf} {s name : CStr} {rest : List (Option CChar)}
    (h : b.cells = s.map some ++ rest) (hfit : Fits (s ++ name)) :
    ∃ b₁ b₂, b.putName s.length name = some (b₁, s.length + name.length) ∧
      b₁.put (s.length + name.length) none = some b₂ ∧ b₂.path = some (s ++ name) := by
  have hfit' : (s.map some).length + name.length < maxPathSize := by
    simpa [Fits] using hfit
  obtain ⟨old, x, rest, rfl, hlen⟩ := exists_split h hfit'
  obtain ⟨b₁, hname, hcells₁⟩ := b.putName_cells h hlen
  have hsplit : b₁.cells = (s ++ name).map some ++ x :: rest := by
    rw [hcells₁, List.map_append, List.append_assoc]
  obtain ⟨b₂, hput, hcells₂⟩ := b₁.put_cells hsplit none
  simp only [List.length_map, List.length_append] at hname hput
  exact ⟨b₁, b₂, hname, hput, readStr_eq_some_iff.mpr ⟨rest, hcells₂⟩⟩

/-- **`set_current_wd`** joins the name to the path. -/
theorem setCurrentWd_shows {b : PathBuf} {s name : CStr} (h : b.path = some s)
    (hfit : Fits (join s name)) :
    ∃ b', setCurrentWd name b = some b' ∧ b'.path = some (join s name) := by
  obtain ⟨rest, hcells⟩ := readStr_eq_some_iff.mp h
  have hlen : b.strlen = some s.length := by simp [PathBuf.strlen, h]
  by_cases hs : s = []
  · subst hs
    rw [join, if_pos rfl] at hfit ⊢
    obtain ⟨b₁, b₂, hname, hput, hshow⟩ := putName_shows (s := []) hcells hfit
    refine ⟨b₂, ?_, hshow⟩
    simp only [List.length_nil, Nat.zero_add] at hlen hname hput
    simp [setCurrentWd, PathBuf.putSlash, hlen, hname, hput]
  · rw [join, if_neg hs] at hfit ⊢
    obtain ⟨b₀, hslash, hcells₀⟩ := b.put_cells hcells (some slash)
    have hnext : b₀.cells = (s ++ [slash]).map some ++ rest := by
      rw [hcells₀]
      simp
    obtain ⟨b₁, b₂, hname, hput, hshow⟩ :=
      putName_shows hnext (by simpa using hfit : Fits ((s ++ [slash]) ++ name))
    refine ⟨b₂, ?_, by simpa using hshow⟩
    simp only [List.length_append, List.length_singleton, List.length_map] at hname hput hslash
    simp [setCurrentWd, PathBuf.putSlash, hlen, hs, hslash, hname, hput]

/-- A write that succeeds was inside the buffer. -/
theorem PathBuf.lt_of_put {b b' : PathBuf} {i : ℕ} {c : Option CChar}
    (h : b.put i c = some b') : i < maxPathSize := by
  unfold put at h
  split at h
  · assumption
  · cases h

/-- The pointer moves by the length of the name. -/
theorem PathBuf.putName_ptr {b b' : PathBuf} {ptr ptr' : ℕ} {name : CStr}
    (h : b.putName ptr name = some (b', ptr')) : ptr' = ptr + name.length := by
  induction name generalizing b ptr with
  | nil =>
      cases h
      rfl
  | cons c name ih =>
      obtain ⟨b₁, -, h⟩ := Option.bind_eq_some_iff.mp h
      rw [ih h, List.length_cons]
      omega

/-- When `set_current_wd` stays inside the buffer, the joined path fits. -/
theorem fits_of_setCurrentWd {b b' : PathBuf} {s name : CStr} (h : b.path = some s)
    (hset : setCurrentWd name b = some b') : Fits (join s name) := by
  have hlen : b.strlen = some s.length := by simp [PathBuf.strlen, h]
  obtain ⟨n, hn, hset⟩ := Option.bind_eq_some_iff.mp hset
  obtain rfl : s.length = n := Option.some.inj (hlen.symm.trans hn)
  obtain ⟨⟨b₁, ptr₁⟩, hslash, hset⟩ := Option.bind_eq_some_iff.mp hset
  obtain ⟨⟨b₂, ptr₂⟩, hname, hput⟩ := Option.bind_eq_some_iff.mp hset
  have hlt := PathBuf.lt_of_put hput
  have hptr := PathBuf.putName_ptr hname
  by_cases hs : s = []
  · subst hs
    obtain ⟨-, rfl⟩ : b = b₁ ∧ 0 = ptr₁ := by simpa [PathBuf.putSlash] using hslash
    rw [Fits, join, if_pos rfl]
    omega
  · have hptr₁ : ptr₁ = s.length + 1 := by
      rw [PathBuf.putSlash, if_pos (by simpa using hs)] at hslash
      obtain ⟨b₀, -, heq⟩ := Option.map_eq_some_iff.mp hslash
      exact (congrArg Prod.snd heq).symm
    rw [Fits, join, if_neg hs, List.length_append, List.length_cons]
    omega

/-- The loop of `unset_current_wd` clears one cell more than its counter says, the last of
them once the counter is at zero. -/
theorem unsetLoop_clears {b : PathBuf} {front : List (Option CChar)} {name : CStr}
    {x : Option CChar} {rest : List (Option CChar)}
    (h : b.cells = front ++ x :: (name.map some ++ rest)) :
    ∃ b' rest', unsetLoop name.length (front.length + 1 + name.length) b = some b' ∧
      b'.cells = front ++ none :: rest' := by
  have hsmall : name.length + 1 ≤ sizeMax := by
    have := b.length_eq
    simp only [h, List.length_append, List.length_cons, List.length_map, maxPathSize] at this
    simp only [sizeMax]
    omega
  have hne : ¬ szAdd name.length 1 = 0 := by rw [szAdd_eq hsmall]; omega
  induction name using List.reverseRecOn generalizing b rest with
  | nil =>
      obtain ⟨b₁, hput, hcells⟩ := b.put_cells h none
      refine ⟨b₁, rest, ?_, hcells⟩
      have hwrap : szAdd (szSub 0 1) 1 = 0 := by decide
      have hstop : unsetLoop (szSub 0 1) front.length b₁ = some b₁ := by
        cases front.length with
        | zero => simp [unsetLoop, hwrap]
        | succ n => simp [unsetLoop, hwrap]
      simp only [List.length_nil] at hne
      simp [unsetLoop, hne, hput, hstop]
  | append_singleton name c ih =>
      have hcut : b.cells = (front ++ x :: name.map some) ++ some c :: rest := by
        rw [h]
        simp
      obtain ⟨b₁, hput, hcells⟩ := b.put_cells hcut none
      have hnext : b₁.cells = front ++ x :: (name.map some ++ none :: rest) := by
        rw [hcells]
        simp
      simp only [List.length_append, List.length_singleton] at hsmall hne
      have hsmall' : name.length + 1 ≤ sizeMax := by omega
      obtain ⟨b₂, rest', hloop, hcells₂⟩ :=
        ih hnext hsmall' (by rw [szAdd_eq hsmall']; omega)
      refine ⟨b₂, rest', ?_, hcells₂⟩
      have hpos : front.length + 1 + (name ++ [c]).length
          = (front.length + 1 + name.length) + 1 := by simp; omega
      have hptr : (front ++ x :: name.map some).length = front.length + 1 + name.length := by
        simp; omega
      have hcount : szSub (name.length + 1) 1 = name.length := by
        rw [szSub_eq (by omega) hsmall']
        omega
      rw [hptr] at hput
      rw [hpos, unsetLoop]
      simp [hne, hput, hcount, hloop]

/-- **`unset_current_wd`** undoes `set_current_wd`. -/
theorem unsetCurrentWd_shows {b : PathBuf} {s name : CStr}
    (h : b.path = some (join s name)) :
    ∃ b', unsetCurrentWd name b = some b' ∧ b'.path = some s := by
  obtain ⟨rest, hcells⟩ := readStr_eq_some_iff.mp h
  have hlen : b.strlen = some (join s name).length := by simp [PathBuf.strlen, h]
  by_cases hs : s = []
  · -- only the name is there, so the lengths agree and the first cell is cleared
    subst hs
    rw [join, if_pos rfl] at hlen hcells
    obtain ⟨x, rest', hcons⟩ : ∃ x rest', b.cells = x :: rest' := by
      apply List.exists_cons_of_ne_nil
      rw [hcells]
      simp
    have hfront : b.cells = [] ++ x :: rest' := hcons
    obtain ⟨b₁, hput, hcells₁⟩ := b.put_cells hfront none
    refine ⟨b₁, ?_, readStr_eq_some_iff.mpr ⟨rest', hcells₁⟩⟩
    simpa [unsetCurrentWd, hlen] using hput
  · rw [join, if_neg hs] at hlen hcells
    have hsplit : b.cells = s.map some ++ some slash :: (name.map some ++ none :: rest) := by
      rw [hcells]
      simp
    obtain ⟨b₁, rest', hloop, hcells₁⟩ := unsetLoop_clears hsplit
    refine ⟨b₁, ?_, readStr_eq_some_iff.mpr ⟨rest', hcells₁⟩⟩
    have hptr : (s ++ slash :: name).length = (s.map some).length + 1 + name.length := by
      simp; omega
    have hdiffer : ¬ (s ++ slash :: name).length = name.length := by simp; omega
    simp only [unsetCurrentWd, hlen, Option.bind_eq_bind, Option.bind_some, if_neg hdiffer]
    rw [hptr, hloop]

end Backd
