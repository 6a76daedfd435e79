import Backd.Observe
import Backd.Snapshot
import Backd.Library.SlashPath

/-!
# The Paths of the Snapshot and of the Observer

A target's path is built twice. `fs_target_create` receives it, and builds the children's
paths with `attach` from what `basename` leaves of it; the observer builds it again from the
names the targets carry, with `set_current_wd`. Below the root the two agree: both put the name
of an entry behind the path of its directory. At the root they do not: the observer starts from
the root's name alone, and whatever was in front of it in the argument is lost.

## Main results

* `same_basename_iff`: the roots whose name is the same path as the argument.
* `observed_as_received_iff`: when the observer reaches every target of a snapshot at the
  path the snapshot received for it.
-/

namespace Backd

open SlashPath

/-- The two strings name the same path. -/
abbrev SamePath (p q : CStr) : Prop := Same slash dot p q

/-! ### `basename` and `attach` -/

/-- A root argument that the name of the root stands for: slashes only, or a relative path
with nothing but `.` in front of its last component. -/
def Plain (p : CStr) : Prop :=
  (∀ c ∈ p, c = slash) ∨ p.head? ≠ some slash ∧
    ∀ c ∈ (pieces slash (p.rdropWhile (· = slash))).dropLast, c = [] ∨ c = [dot]

instance (p : CStr) : Decidable (Plain p) := inferInstanceAs (Decidable (_ ∨ _))

/-- The name of a path that is not made of slashes only: its last component. -/
theorem basename_eq {p : CStr} (h : ¬ ∀ c ∈ p, c = slash) :
    basename p = (p.rdropWhile (· = slash)).rtakeWhile (· ≠ slash) := by
  have hne : p ≠ [] := by
    rintro rfl
    simp at h
  have hdrop : p.rdropWhile (· = slash) ≠ [] := by
    rw [ne_eq, List.rdropWhile_eq_nil_iff]
    simpa using h
  simp only [basename, if_neg hne, if_neg hdrop]

/-- A path that is not made of slashes only, without its trailing slashes, ends in its
name. -/
theorem basename_spec {p : CStr} (h : ¬ ∀ c ∈ p, c = slash) :
    slash ∉ basename p ∧ basename p ≠ [] ∧
      (p.rdropWhile (· = slash) = basename p ∨
        ∃ f, p.rdropWhile (· = slash) = f ++ slash :: basename p) := by
  have hdrop : p.rdropWhile (· = slash) ≠ [] := by
    rw [ne_eq, List.rdropWhile_eq_nil_iff]
    simpa using h
  rw [basename_eq h]
  exact splitLast_spec hdrop (by simpa using List.rdropWhile_last_not _ _ hdrop)

theorem basename_ne_nil (p : CStr) : basename p ≠ [] := by
  by_cases h : ∀ c ∈ p, c = slash
  · have hdrop : p.rdropWhile (· = slash) = [] := by
      rw [List.rdropWhile_eq_nil_iff]
      simpa using h
    simp only [basename, hdrop]
    split <;> simp
  · exact (basename_spec h).2.1

/-- **The name of the root is the same path as the argument** exactly when the argument is
plain. -/
theorem same_basename_iff (p : CStr) : SamePath (basename p) p ↔ Plain p := by
  by_cases h : ∀ c ∈ p, c = slash
  · refine iff_of_true ?_ (.inl h)
    by_cases hp : p = []
    · subst hp
      exact ⟨by decide, by decide⟩
    · have hdrop : p.rdropWhile (· = slash) = [] := by
        rw [List.rdropWhile_eq_nil_iff]
        simpa using h
      have hname : basename p = [slash] := by simp [basename, hp, hdrop]
      obtain ⟨c, p, rfl⟩ := List.exists_cons_of_ne_nil hp
      obtain rfl : c = slash := h c (by simp)
      rw [hname]
      exact ⟨by simp, by rw [components_of_all_sep h]; decide⟩
  · obtain ⟨hsep, hne, hsplit⟩ := basename_spec h
    have hrel : (basename p).head? ≠ some slash :=
      fun heq => hsep (List.mem_of_head? heq)
    have hcomps := components_rdropWhile slash dot p
    have hplain : Plain p ↔ p.head? ≠ some slash ∧
        ∀ c ∈ (pieces slash (p.rdropWhile (· = slash))).dropLast, c = [] ∨ c = [dot] :=
      or_iff_right h
    rw [hplain]
    rcases hsplit with hq | ⟨f, hq⟩
    · rw [hq] at hcomps ⊢
      rw [pieces_name hsep]
      constructor
      · intro hsame
        exact ⟨fun habs => hrel (hsame.absolute.mpr habs), by simp⟩
      · rintro ⟨habs, -⟩
        exact ⟨iff_of_false hrel habs, hcomps⟩
    · rw [hq, components_append] at hcomps
      rw [hq, pieces_append, pieces_name hsep, List.dropLast_concat, ← components_eq_nil_iff]
      constructor
      · intro hsame
        refine ⟨fun habs => hrel (hsame.absolute.mpr habs), ?_⟩
        have hlen := congrArg List.length (hcomps.trans hsame.components.symm)
        rw [List.length_append] at hlen
        exact List.eq_nil_of_length_eq_zero (by omega)
      · rintro ⟨habs, hfront⟩
        exact ⟨iff_of_false hrel habs, by rw [← hcomps, hfront, List.nil_append]⟩

/-- `basename` takes nothing but slashes at the end away. -/
theorem basenameCut_same (p : CStr) : SamePath (basenameCut p) p := by
  by_cases h : p.rdropWhile (· = slash) = []
  · rw [basenameCut, if_pos h]
    exact ⟨Iff.rfl, rfl⟩
  · rw [basenameCut, if_neg h]
    refine ⟨?_, components_rdropWhile slash dot p⟩
    obtain ⟨rest, hrest⟩ := List.rdropWhile_prefix (p := (· = slash)) (l := p)
    have hhead : (p.rdropWhile (· = slash) ++ rest).head? = (p.rdropWhile (· = slash)).head? :=
      List.head?_append_of_ne_nil _ h
    rw [hrest] at hhead
    rw [hhead]

/-- A path without a slash at its end is left alone. -/
theorem basenameCut_eq_self {p : CStr} (h : p.getLast? ≠ some slash) : basenameCut p = p := by
  have hdrop : p.rdropWhile (· = slash) = p := by
    rw [List.rdropWhile_eq_self_iff]
    intro hne hlast
    exact h (by rw [List.getLast?_eq_some_getLast hne, of_decide_eq_true hlast])
  rw [basenameCut, hdrop, ite_id]

/-- What `attach` puts in front of a name: nothing, for `.` and the empty path; else the
directory, with one slash at the end. -/
theorem attach_cases (dirname name : CStr) :
    (attach dirname name = name ∧ (dirname = [dot] ∨ dirname = [])) ∨
      ∃ f, attach dirname name = f ++ slash :: name ∧ dirname ≠ [] ∧
        (dirname = f ∨ dirname = f ++ [slash]) := by
  unfold attach
  dsimp only
  by_cases hdot : dirname = [dot]
  · exact .inl ⟨by simp [hdot], .inl hdot⟩
  rw [if_neg hdot]
  by_cases hnil : dirname = []
  · exact .inl ⟨by simp [hnil], .inr hnil⟩
  right
  by_cases hlast : dirname.getLast? = some slash
  · obtain ⟨f, rfl⟩ := List.getLast?_eq_some_iff.mp hlast
    exact ⟨f, by simp, hnil, .inr rfl⟩
  · exact ⟨dirname, by simp [hnil, hlast], hnil, .inl rfl⟩

/-- The name of an attached entry is the entry. -/
theorem basename_attach (dirname : CStr) (name : EntryName) :
    basename (attach dirname name) = name := by
  obtain ⟨n, hne, hsep⟩ := name
  obtain ⟨m, c, rfl⟩ := (List.eq_nil_or_concat n).resolve_left hne
  have hc : c ≠ slash := by
    rintro rfl
    simp at hsep
  have hdrop : ∀ f : CStr, (f ++ m.concat c).rdropWhile (· = slash) = f ++ m.concat c := by
    intro f
    rw [List.concat_eq_append, ← List.append_assoc,
      List.rdropWhile_concat_neg _ _ _ (by simpa using hc)]
  have hname : ∀ f : CStr, ¬ ∀ d ∈ f ++ m.concat c, d = slash := by
    intro f hall
    exact hc (hall c (by simp))
  rcases attach_cases dirname (m.concat c) with ⟨hattach, -⟩ | ⟨f, hattach, -, -⟩
  · have hself := hdrop []
    rw [List.nil_append] at hself
    rw [hattach, basename_eq (by simpa using hname []), hself, List.rtakeWhile_eq_self_iff]
    intro d hd
    have hne : d ≠ slash := fun h => hsep (h ▸ hd)
    simpa using hne
  · have hfront : f ++ slash :: m.concat c = (f ++ [slash]) ++ m.concat c := by simp
    rw [hattach, hfront, basename_eq (hname _), hdrop, ← hfront, rtakeWhile_name hsep]

/-- The path of an entry is left alone by `basename`. -/
theorem basenameCut_attach (dirname : CStr) (name : EntryName) :
    basenameCut (attach dirname name) = attach dirname name := by
  obtain ⟨n, hne, hsep⟩ := name
  have hlast : n.getLast? ≠ some slash := fun heq => hsep (List.mem_of_getLast? heq)
  apply basenameCut_eq_self
  rcases attach_cases dirname n with ⟨hattach, -⟩ | ⟨f, hattach, -, -⟩
  · rwa [hattach]
  · have hfront : f ++ slash :: n = (f ++ [slash]) ++ n := by simp
    rwa [hattach, hfront, List.getLast?_append_of_ne_nil _ hne]

/-- Where two paths are the same, so are those of an entry: the one the observer makes, and
the one the snapshot makes. -/
theorem join_same_attach {s d : CStr} (h : SamePath s d) (hs : s ≠ []) (name : EntryName) :
    SamePath (join s name) (attach d name) := by
  obtain ⟨n, hne, hsep⟩ := name
  have hrel : n.head? ≠ some slash := fun heq => hsep (List.mem_of_head? heq)
  rw [join, if_neg hs]
  rcases attach_cases d n with ⟨hattach, hd⟩ | ⟨f, hattach, hd, hf⟩
  · -- the directory is the current one, whose components are all left out
    rw [hattach]
    have hcomps : components slash dot d = [] := by
      rcases hd with rfl | rfl <;> decide
    have habs : d.head? ≠ some slash := by
      rcases hd with rfl | rfl <;> decide
    refine ⟨iff_of_false ?_ hrel, ?_⟩
    · rw [List.head?_append_of_ne_nil s hs]
      exact fun heq => habs (h.absolute.mp heq)
    · rw [components_append, h.components, hcomps, List.nil_append]
  · rw [hattach]
    rcases hf with rfl | rfl
    · exact h.join hs hd n
    · -- the slash is there already
      have hcomps : components slash dot (f ++ [slash]) = components slash dot f := by
        simpa using components_append slash dot f []
      constructor
      · rw [List.head?_append_of_ne_nil s hs, h.absolute]
        cases f <;> simp
      · rw [components_append, components_append, h.components, hcomps]

/-- **All the way down**: from the same path, the same entries lead to the same path. -/
theorem under_same_attach {s d : CStr} (h : SamePath s d) (hs : s ≠ [])
    (names : List EntryName) :
    SamePath (under s (names.map Subtype.val)) (names.foldl (fun d e => attach d e.1) d) := by
  induction names generalizing s d with
  | nil => exact h
  | cons name names ih =>
      have hne : join s name ≠ [] := by simp [join, hs]
      exact ih (join_same_attach h hs name) hne

/-! ### The targets of a snapshot -/

/-- The nodes a snapshot takes a target of, with the names of the entries on the way. A
directory with more entries than a children array can hold is followed as far as the array
goes. -/
inductive Comes : FsNode → List EntryName → FsNode → Prop
  | self {n : FsNode} : n.found = true → Comes n [] n
  | entry {given : LstatResult} {st : Stat} {entries : List (EntryName × FsNode)}
      {e : EntryName × FsNode} {names : List EntryName} {m : FsNode} :
      filetype (givenStat given).mode = .directory →
      e ∈ (foundEntries entries).take maxChildren →
      Comes e.2 names m → Comes (.node given (.ok st) (some entries)) (e.1 :: names) m

/-- The node is no directory, or `opendir` succeeds. -/
def FsNode.Opens : FsNode → Prop
  | .node _ (.error _) _ => True
  | .node given (.ok _) entries =>
    filetype (givenStat given).mode = .directory → entries.isSome

/-- The string `fs_target_create` received for a target, as `basename` left it and the
acknowledgement in its history records it. -/
def Received (events : Records FsTargetEvent) (s : CStr) : Prop :=
  ∃ st now, events.items = [ackEvent s st now]

/-- A history records one string. -/
theorem Received.unique {events : Records FsTargetEvent} {s s' : CStr} (h : Received events s)
    (h' : Received events s') : s = s' := by
  obtain ⟨st, now, h⟩ := h
  obtain ⟨st', now', h'⟩ := h'
  rw [h] at h'
  simp only [ackEvent, List.cons.injEq, FsTargetEvent.mk.injEq, PathRef.argument.injEq] at h'
  exact h'.1.2.1

section Snapshot

variable {clock : CStr → UInt64}

/-- The children a snapshot takes of a directory. -/
theorem create_directory (p : CStr) {given : LstatResult}
    (h : filetype (givenStat given).mode = .directory) (st : Stat)
    (entries : List (EntryName × FsNode)) :
    fsTargetCreate clock p (.node given (.ok st) (some entries)) =
      .live (fsTargetSetInfo p (givenStat given)) (acknowledged clock (basenameCut p) st)
        (some (((foundEntries entries).take maxChildren).map fun e =>
          fsTargetCreate clock (attach (basenameCut p) e.1) e.2)) := by
  rw [fsTargetCreate_directory h, entryTargets_eq, List.map_take]

/-- A node of a snapshot: its names are the name of the argument and those of the entries
that lead to it, and what it received has these attached to what `basename` leaves of the
argument. -/
theorem comes_of_reaches {n : FsNode} {p : CStr} {node : List ℕ} {chain : List CStr}
    {finfo : Finfo} {events : Records FsTargetEvent}
    (h : Reaches (fsTargetCreate clock p n) node chain finfo events) :
    ∃ names m, Comes n names m ∧ chain = basename p :: names.map Subtype.val ∧
      Received events (names.foldl (fun d e => attach d e.1) (basenameCut p)) := by
  induction n using FsNode.induction generalizing p node chain finfo events with
  | hnode given lstat entries ih =>
      cases lstat with
      | error e =>
          rw [fsTargetCreate_error] at h
          cases h
      | ok st =>
          by_cases hdir : filetype (givenStat given).mode = .directory
          · cases entries with
            | none =>
                rw [fsTargetCreate_refused hdir] at h
                cases h
            | some es =>
                rw [create_directory p hdir] at h
                cases h with
                | root => exact ⟨[], _, .self rfl, rfl, st, clock (basenameCut p), rfl⟩
                | @child _ _ _ _ _ i c q chain _ hi hreach =>
                    obtain ⟨e, he, rfl⟩ := List.mem_map.mp (List.mem_of_getElem? hi)
                    have hes : e ∈ es := List.mem_of_mem_filter (List.mem_of_mem_take he)
                    obtain ⟨names, m, hcomes, rfl, hreceived⟩ := ih es rfl e hes hreach
                    rw [basenameCut_attach] at hreceived
                    refine ⟨e.1 :: names, m, .entry hdir he hcomes, ?_, hreceived⟩
                    rw [basename_attach]
                    rfl
          · rw [fsTargetCreate_file hdir] at h
            cases h with
            | root => exact ⟨[], _, .self rfl, rfl, st, clock (basenameCut p), rfl⟩

/-- A snapshot with all its directories open, whose paths fit, can be passed. -/
theorem passable_create {n : FsNode} {p s : CStr}
    (h : ∀ names m, Comes n names m →
      m.Opens ∧ Fits (under s (basename p :: names.map Subtype.val)))
    (hfound : n.found = true) : Passable s (fsTargetCreate clock p n) := by
  induction n using FsNode.induction generalizing p s with
  | hnode given lstat entries ih =>
      cases lstat with
      | error e => cases hfound
      | ok st =>
          obtain ⟨hopens, hfits⟩ := h [] _ (.self rfl)
          by_cases hdir : filetype (givenStat given).mode = .directory
          · obtain ⟨es, rfl⟩ := Option.isSome_iff_exists.mp (hopens hdir)
            rw [create_directory p hdir]
            refine .directory hdir hfits ?_
            intro c hc
            obtain ⟨e, he, rfl⟩ := List.mem_map.mp hc
            obtain ⟨hes, hvis⟩ := List.mem_filter.mp (List.mem_of_mem_take he)
            refine ih es rfl e hes ?_ (Bool.and_eq_true_iff.mp hvis).2
            intro names m hcomes
            have hentry := h _ m (.entry hdir he hcomes)
            rwa [List.map_cons, ← basename_attach (basenameCut p)] at hentry
          · rw [fsTargetCreate_file hdir]
            exact .leaf hdir hfits

/-- A snapshot that can be passed has its directories open, and its paths fit. -/
theorem of_passable_create {n m : FsNode} {names : List EntryName} (hcomes : Comes n names m)
    {p s : CStr} (h : Passable s (fsTargetCreate clock p n)) :
    m.Opens ∧ Fits (under s (basename p :: names.map Subtype.val)) := by
  induction hcomes generalizing p s with
  | @self n hfound =>
      obtain ⟨given, lstat, entries⟩ := n
      cases lstat with
      | error e => cases hfound
      | ok st =>
          by_cases hdir : filetype (givenStat given).mode = .directory
          · cases entries with
            | none =>
                rw [fsTargetCreate_refused hdir] at h
                cases h
            | some es =>
                rw [create_directory p hdir] at h
                cases h with
                | leaf hleaf => exact absurd hdir hleaf
                | directory _ hfits => exact ⟨fun _ => rfl, hfits⟩
          · rw [fsTargetCreate_file hdir] at h
            cases h with
            | leaf _ hfits => exact ⟨fun hdir' => absurd hdir' hdir, hfits⟩
  | @entry given st es e names m hdir he _ ih =>
      rw [create_directory p hdir] at h
      cases h with
      | leaf hleaf => exact absurd hdir hleaf
      | directory _ _ hcs =>
          have hchild := ih (hcs _ (List.mem_map.mpr ⟨e, he, rfl⟩))
          rwa [basename_attach] at hchild

/-- A snapshot of a path that is found is not `NULL`. -/
theorem create_ne_null (clock : CStr → UInt64) (p : CStr) {n : FsNode} :
    fsTargetCreate clock p n ≠ .null ↔ n.found = true := by
  obtain ⟨given, lstat, entries⟩ := n
  rw [ne_eq, fsTargetCreate_eq_null_iff]
  cases lstat <;> simp [FsNode.found]

/-- The root of a snapshot: its name is that of the argument, and it received what `basename`
leaves of it. -/
theorem received_root {n : FsNode} {p : CStr} {chain : List CStr} {finfo : Finfo}
    {events : Records FsTargetEvent}
    (h : Reaches (fsTargetCreate clock p n) [] chain finfo events) :
    chain = [basename p] ∧ Received events (basenameCut p) := by
  have hname : chain = [finfo.name] := by
    generalize fsTargetCreate clock p n = t at h
    cases h
    rfl
  obtain ⟨names, m, -, hchain, hreceived⟩ := comes_of_reaches h
  rw [hname, List.cons.injEq] at hchain
  obtain rfl : names = [] := List.map_eq_nil_iff.mp hchain.2.symm
  exact ⟨by rw [hname, hchain.1], hreceived⟩

/-- A tree that can be passed, and is not `NULL`, reaches its root. -/
theorem passable_reaches_root {t : FsTarget} {s : CStr} (h : Passable s t) (hne : t ≠ .null) :
    ∃ finfo events, Reaches t [] [finfo.name] finfo events := by
  cases h with
  | null => exact absurd rfl hne
  | leaf | directory => exact ⟨_, _, .root⟩

end Snapshot

/-! ### The observer on a snapshot -/

/-- The observer, started on `t` with an empty log, comes to its end, and reaches every
node of `t` at the path the snapshot received for it. -/
def ObservedAsReceived (env : Environment) (b : PathBuf) (t : FsTarget) : Prop :=
  ∃ t' st, fsTargetObserve env [] t ⟨b, []⟩ = some (true, t', st) ∧
    ∀ node names finfo events, Reaches t node names finfo events →
      ∃ v ∈ st.log, v.node = node ∧ ∃ s, Received events s ∧ SamePath v.path s

section Observed

variable {env : Environment} {b : PathBuf} {clock : CStr → UInt64} {p : CStr} {n : FsNode}

/-- Started from a plain argument, the observer reaches every node as received. -/
theorem observed_of_plain (hb : b.path = some []) (hfound : n.found = true) (hplain : Plain p)
    (h : ∀ names m, Comes n names m →
      m.Opens ∧ Fits (under [] (basename p :: names.map Subtype.val))) :
    ObservedAsReceived env b (fsTargetCreate clock p n) := by
  have hpass : Passable [] (fsTargetCreate clock p n) := passable_create h hfound
  have hnull := (create_ne_null clock p).mpr hfound
  obtain ⟨t', st, visits, hrun, -, hlog, hcovers⟩ :=
    fsTargetObserve_covers _ env [] [] ⟨b, []⟩ hb hpass
  have hlive : decide (fsTargetCreate clock p n).NotNull = true :=
    (create_notNull clock p n).trans hfound
  refine ⟨t', st, hlive ▸ hrun, ?_⟩
  intro node chain finfo events hreach
  obtain ⟨v, hv, hnode, hpath, -⟩ := hcovers.complete node chain finfo events hreach
  obtain ⟨names, m, -, rfl, hreceived⟩ := comes_of_reaches hreach
  refine ⟨v, by rw [hlog]; exact hv, hnode, _, hreceived, ?_⟩
  rw [hpath]
  have hroot : SamePath (basename p) (basenameCut p) :=
    ((same_basename_iff p).mpr hplain).trans (basenameCut_same p).symm
  exact under_same_attach hroot (basename_ne_nil p) names

/-- The observer reaches the root at its name, so the argument was plain. -/
theorem plain_of_observed (hb : b.path = some []) (hfound : n.found = true)
    (h : ObservedAsReceived env b (fsTargetCreate clock p n)) :
    Plain p ∧ ∀ names m, Comes n names m →
      m.Opens ∧ Fits (under [] (basename p :: names.map Subtype.val)) := by
  obtain ⟨t', st, hrun, hnodes⟩ := h
  have hpass : Passable [] (fsTargetCreate clock p n) := passable_of_observe hb hrun
  refine ⟨?_, fun names m hcomes => of_passable_create hcomes hpass⟩
  obtain ⟨_, st', visits, hrun', -, hlog, hcovers⟩ :=
    fsTargetObserve_covers _ env [] [] ⟨b, []⟩ hb hpass
  obtain ⟨-, -, rfl⟩ : _ ∧ _ ∧ st = st' := by simpa [hrun] using hrun'
  obtain ⟨finfo, events, hroot⟩ :=
    passable_reaches_root hpass ((create_ne_null clock p).mpr hfound)
  obtain ⟨v, hv, hnode, s, hreceived, hsame⟩ := hnodes _ _ _ _ hroot
  rw [hlog] at hv
  obtain ⟨q, chain, finfo', hreach, hq, hpath, -⟩ := hcovers.sound v hv
  obtain rfl : q = [] := by simpa [hnode] using hq.symm
  obtain ⟨-, hreceived'⟩ := received_root hroot
  obtain ⟨rfl, -⟩ := received_root hreach
  rw [hpath, hreceived.unique hreceived'] at hsame
  exact (same_basename_iff p).mp (hsame.trans (basenameCut_same p))

end Observed

/-- **The paths of the snapshot and of the observer.** Unless nothing is found at `p`, an
observer that starts with an empty buffer comes to its end, and reaches every node at the
path the snapshot received for it, exactly when the argument is plain, every directory of
the snapshot can be opened, and every chain of names from the root's on fits into the
buffer. -/
theorem observed_as_received_iff (env : Environment) {b : PathBuf} (clock : CStr → UInt64)
    (p : CStr) (n : FsNode) (hb : b.path = some []) :
    (fsTargetCreate clock p n = .null ∨
        ObservedAsReceived env b (fsTargetCreate clock p n)) ↔
      (n.found = true → Plain p ∧ ∀ names m, Comes n names m →
        m.Opens ∧ Fits (joined (basename p :: names.map Subtype.val))) := by
  simp only [← under_nil]
  constructor
  · rintro (hnull | hobserved) hfound
    · exact absurd hnull ((create_ne_null clock p).mpr hfound)
    · exact plain_of_observed hb hfound hobserved
  · intro h
    by_cases hfound : n.found = true
    · obtain ⟨hplain, hnodes⟩ := h hfound
      exact .inr (observed_of_plain hb hfound hplain hnodes)
    · left
      rw [← create_ne_null clock p] at hfound
      exact not_not.mp hfound

/-- The stat of a regular file. -/
def normalStat : Stat := { Stat.zeroed with mode := 0o100644 }

/-- A regular file. -/
def fileNode : FsNode := .node (.ok normalStat) (.ok normalStat) none

/-- A directory with the file `b` in it. -/
def directoryNode : FsNode :=
  .node (.ok directoryStat) (.ok directoryStat) (some [(⟨[⟨98, by decide⟩], by decide⟩, fileNode)])

/-- The directory `./a` and the file in it are observed as `a` and `a/b`, the same paths. -/
theorem dot_slash_observed :
    ObservedAsReceived (fun _ _ => .answered (.error .enoent)) .empty
      (fsTargetCreate (fun _ => 0) [dot, slash, ⟨97, by decide⟩] directoryNode) := by
  have hnodes : ∀ names m, Comes directoryNode names m →
      m.Opens ∧ Fits (joined (basename [dot, slash, ⟨97, by decide⟩] ::
        names.map Subtype.val)) := by
    intro names m h
    cases h with
    | self => exact ⟨fun _ => rfl, by decide⟩
    | entry _ he hfile =>
        obtain rfl := List.mem_singleton.mp (List.mem_of_mem_filter (List.mem_of_mem_take he))
        cases hfile with
        | self => exact ⟨fun hdir => absurd hdir (by decide), by decide⟩
  have hiff := observed_as_received_iff (fun _ _ => .answered (.error .enoent))
    (fun _ => 0) [dot, slash, ⟨97, by decide⟩] directoryNode PathBuf.path_empty
  rcases hiff.mpr fun _ => ⟨by decide, hnodes⟩ with hnull | hobserved
  · exact absurd hnull ((create_ne_null _ _).mpr rfl)
  · exact hobserved

/-- The file `a/b` is observed as `b`. -/
theorem front_lost :
    ¬ ∀ (env : Environment) (b : PathBuf) (clock : CStr → UInt64) (p : CStr) (n : FsNode),
      b.path = some [] → fsTargetCreate clock p n = .null ∨
        ObservedAsReceived env b (fsTargetCreate clock p n) := by
  intro h
  rcases h (fun _ _ => .answered (.error .enoent)) .empty (fun _ => 0)
    [⟨97, by decide⟩, slash, ⟨98, by decide⟩] fileNode PathBuf.path_empty with hnull | hobserved
  · exact absurd hnull ((create_ne_null _ _).mpr rfl)
  · obtain ⟨hplain, -⟩ := plain_of_observed PathBuf.path_empty rfl hobserved
    exact absurd hplain (by decide)

end Backd
