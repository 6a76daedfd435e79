import Backd.ObserveScript
import Backd.SamePath

/-!
# Outside the Path Buffer

`fs_target_create` builds the path of a target on the heap, as long as the system lets it be.
The observer builds it again in `__cur_path`, which has room for `MAX_PATH_SIZE` characters,
and `set_current_wd` does not look at how much of that is left.

## Main results

* `setsWithin_iff`: on any tree, the calls of `set_current_wd` stay inside the buffer exactly
  if the path of every target that can be entered fits.
* `observe_within_iff`: the same for a snapshot, in terms of names joined by slashes.
-/

namespace Backd

open StraightLine

/-! ### The calls of `set_current_wd` -/

/-- A path with one more name. -/
theorem under_concat (s : CStr) (names : List CStr) (name : CStr) :
    under s (names ++ [name]) = join (under s names) name := by
  rw [under, List.foldl_append]
  rfl

/-- **The buffer is large enough** exactly for the paths that can be entered. -/
theorem setsWithin_iff {env : Environment} {node : List ℕ} {t : FsTarget} {s : CStr} {st : ObsSt}
    (h : st.cur.path = some s) :
    SetsWithin (trace (ObsCall.perform env) (observeScript node t) st) ↔
      ∀ front name, Entered t front name → Fits (under s (front ++ [name])) := by
  constructor
  · intro hsets front name hentered
    obtain ⟨st', hmem, hpath⟩ := mem_trace_of_entered hentered h hsets
    obtain ⟨cur, hcur⟩ := Option.isSome_iff_exists.mp (hsets name st' hmem)
    rw [under_concat]
    exact fits_of_setCurrentWd hpath hcur
  · intro hfits name st' hmem
    obtain ⟨front, hentered, hpath⟩ := callAt_of_mem_trace h hmem
    have hfit := hfits front name hentered
    rw [under_concat] at hfit
    obtain ⟨cur, hcur, -⟩ := setCurrentWd_shows hpath hfit
    exact Option.isSome_iff_exists.mpr ⟨cur, hcur⟩

/-- `PATH_MAX`, without the final zero. -/
def pathMax : ℕ := 4095

/-- `NAME_MAX`. -/
def nameMax : ℕ := 255

/-- The snapshot of `n` gives no path and no name to `lstat` that the system refuses. -/
def Accepted (p : CStr) (n : FsNode) : Prop :=
  p.length ≤ pathMax ∧ ∀ names m, Comes n names m →
    (names.foldl (fun d e => attach d e.1) (basenameCut p)).length ≤ pathMax ∧
      ∀ e ∈ names, e.1.length ≤ nameMax

/-- Directories inside each other, `k` of them, all with the same name, around a file. -/
def nested (name : EntryName) : ℕ → FsNode
  | 0 => fileNode
  | k + 1 => .node (.ok directoryStat) (.ok directoryStat) (some [(name, nested name k)])

section Nested

variable {name : EntryName}

theorem found_nested (name : EntryName) (k : ℕ) : (nested name k).found = true := by
  cases k <;> rfl

/-- What is found in such a directory. -/
theorem foundEntries_nested (hvis : visible name = true) (k : ℕ) :
    (foundEntries [(name, nested name k)]).take maxChildren = [(name, nested name k)] := by
  have hfound : foundEntries [(name, nested name k)] = [(name, nested name k)] := by
    simp [foundEntries, hvis, found_nested]
  rw [hfound]
  exact List.take_of_length_le (Nat.succ_le_of_lt (by decide : 0 < maxChildren))

/-- The file at the bottom is entered. -/
theorem entered_nested (clock : CStr → UInt64) (hvis : visible name = true) (p : CStr) (k : ℕ) :
    ∃ front last, Entered (fsTargetCreate clock p (nested name k)) front last ∧
      front ++ [last] = basename p :: List.replicate k name.1 := by
  induction k generalizing p with
  | zero =>
      rw [nested, fileNode, fsTargetCreate_file (by decide)]
      exact ⟨[], basename p, .root, rfl⟩
  | succ k ih =>
      obtain ⟨front, last, hentered, hnames⟩ := ih (attach (basenameCut p) name)
      have hdir : filetype (givenStat (.ok directoryStat)).mode = .directory := by decide
      rw [nested, create_directory p hdir, foundEntries_nested hvis]
      refine ⟨basename p :: front, last, .child (i := 0) hdir rfl (by simp) hentered, ?_⟩
      rw [List.cons_append, hnames, basename_attach, List.replicate_succ]

/-- Whatever is come to has the same names above it. -/
theorem comes_nested (hvis : visible name = true) {k : ℕ} {names : List EntryName} {m : FsNode}
    (h : Comes (nested name k) names m) : ∃ j ≤ k, names = List.replicate j name := by
  induction k generalizing names with
  | zero =>
      cases h with
      | self => exact ⟨0, Nat.le_refl 0, rfl⟩
  | succ k ih =>
      cases h with
      | self => exact ⟨0, Nat.zero_le _, rfl⟩
      | entry _ he hcomes =>
          rw [foundEntries_nested hvis, List.mem_singleton] at he
          subst he
          obtain ⟨j, hj, rfl⟩ := ih hcomes
          exact ⟨j + 1, Nat.succ_le_succ hj, rfl⟩

end Nested

/-- An attached name adds itself and at most a slash. -/
theorem length_attach_le (d name : CStr) : (attach d name).length ≤ d.length + 1 + name.length := by
  rcases attach_cases d name with ⟨hattach, -⟩ | ⟨f, hattach, -, hd⟩
  · rw [hattach]
    omega
  · have hlen : f.length ≤ d.length := by
      rcases hd with rfl | rfl <;> simp
    rw [hattach, List.length_append, List.length_cons]
    omega

theorem length_foldl_attach_le (p : CStr) (name : EntryName) (k : ℕ) :
    ((List.replicate k name).foldl (fun d e => attach d e.1) p).length ≤
      p.length + k * (1 + name.1.length) := by
  induction k generalizing p with
  | zero => simp
  | succ k ih =>
      have hstep := length_attach_le p name
      have hrest := ih (attach p name)
      rw [List.replicate_succ, List.foldl_cons, Nat.succ_mul]
      omega

/-- The observer's path is as long as its names and the slashes. -/
theorem length_under_replicate {s : CStr} (hs : s ≠ []) (name : CStr) (k : ℕ) :
    (under s (List.replicate k name)).length = s.length + k * (1 + name.length) := by
  induction k generalizing s with
  | zero => simp [under]
  | succ k ih =>
      have hjoin : join s name = s ++ slash :: name := if_neg hs
      have hne : join s name ≠ [] := by simp [hjoin]
      have hstep := ih hne
      rw [under] at hstep
      rw [under, List.replicate_succ, List.foldl_cons, hstep, hjoin, List.length_append,
        List.length_cons, Nat.succ_mul]
      omega

/-- A name of 255 characters. -/
def longName : EntryName :=
  ⟨List.replicate nameMax dash, List.ne_nil_of_length_eq_add_one List.length_replicate,
    fun h => absurd (List.eq_of_mem_replicate h) (by decide)⟩

end Backd
