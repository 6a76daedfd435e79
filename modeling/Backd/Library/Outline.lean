import Backd.Library.TreeAddress
import Mathlib.Tactic.Common

/-!
# Outlines

An outline shows a labelled tree, a line a node in pre-order, with an indentation that tells how
deep the node is. The addresses of the nodes are not written down; they can be read off the
depths, since each node is the first child of the one in front of it, or the next sibling of
that node or of one of its ancestors.

## Main results

* `nextAddress_last`: in pre-order, an address is determined by the one in front of it and its
  depth.
* `readOutline_writeOutline`: a tree is read back from its outline.
-/

namespace Outline

open TreeAddress

variable {α β : Type*}

/-! ### Addresses and depths -/

/-- The address at a depth that comes behind `p`: a first child, or a next sibling. -/
def nextAddress : List ℕ → ℕ → List ℕ
  | _, 0 => []
  | [], _ + 1 => [0]
  | i :: _, 1 => [i + 1]
  | i :: p, depth + 2 => i :: nextAddress p (depth + 1)

@[simp] theorem nextAddress_zero (p : List ℕ) : nextAddress p 0 = [] := by
  cases p <;> rfl

/-- The first child of a node. -/
theorem nextAddress_child (r : List ℕ) : nextAddress r (r.length + 1) = r ++ [0] := by
  induction r with
  | nil => rfl
  | cons i r ih => rw [List.length_cons, nextAddress, ih, List.cons_append]

/-- The next sibling of a node, behind everything below it. -/
theorem nextAddress_sibling (r : List ℕ) (k : ℕ) (s : List ℕ) :
    nextAddress (r ++ k :: s) (r.length + 1) = r ++ [k + 1] := by
  induction r with
  | nil => rfl
  | cons i r ih => rw [List.cons_append, List.length_cons, nextAddress, ih, List.cons_append]

/-- What is between two addresses below a node is below it too, and between them there. -/
theorem exists_append_of_between {r p s t : List ℕ} (hle : ¬ p < r ++ s) (hlt : p < r ++ t) :
    ∃ q, p = r ++ q ∧ ¬ q < s ∧ q < t := by
  induction r generalizing p with
  | nil => exact ⟨p, rfl, hle, hlt⟩
  | cons j r ih =>
      rw [List.cons_append] at hle hlt
      cases p with
      | nil => exact absurd (List.nil_lt_cons j _) hle
      | cons i p =>
          rw [List.cons_lt_cons_iff] at hle hlt
          rcases hlt with hlt | ⟨rfl, hlt⟩
          · exact absurd (.inl hlt) hle
          · obtain ⟨q, rfl, hq⟩ := ih (fun h => hle (.inr ⟨rfl, h⟩)) hlt
            exact ⟨q, rfl, hq⟩

/-- Nothing is between a node and its first child. -/
theorem eq_of_lt_child {r p : List ℕ} (hle : ¬ p < r) (hlt : p < r ++ [0]) : p = r := by
  rw [← List.append_nil r] at hle
  obtain ⟨q, rfl, -, hq⟩ := exists_append_of_between hle hlt
  cases q with
  | nil => exact List.append_nil r
  | cons i q => simp [List.cons_lt_cons_iff] at hq

/-- What is between a node and its next sibling is below the node. -/
theorem below_of_lt_sibling {r p : List ℕ} {k : ℕ} (hle : ¬ p < r ++ [k])
    (hlt : p < r ++ [k + 1]) : ∃ s, p = r ++ k :: s := by
  obtain ⟨q, rfl, hge, hq⟩ := exists_append_of_between hle hlt
  cases q with
  | nil => exact absurd (List.nil_lt_cons k []) hge
  | cons i s =>
      simp only [List.cons_lt_cons_iff, List.not_lt_nil, and_false, or_false] at hge hq
      obtain rfl : i = k := by omega
      exact ⟨s, rfl⟩

/-! ### Trees in pre-order -/

/-- The nodes make up a tree: with a node there is its parent, and its earlier siblings. -/
structure IsTree (P : List ℕ × β → Prop) : Prop where
  parent : ∀ r k b, P (r ++ [k], b) → ∃ b', P (r, b')
  sibling : ∀ r k b, P (r ++ [k + 1], b) → ∃ b', P (r ++ [k], b')

theorem IsTree.map {γ : Type*} {P : List ℕ × β → Prop} (h : IsTree P) (f : β → γ) :
    IsTree (fun x : List ℕ × γ => ∃ b, P (x.1, b) ∧ f b = x.2) where
  parent := by
    rintro r k _ ⟨b, hb, rfl⟩
    obtain ⟨b', hparent⟩ := h.parent r k b hb
    exact ⟨_, b', hparent, rfl⟩
  sibling := by
    rintro r k _ ⟨b, hb, rfl⟩
    obtain ⟨b', hsibling⟩ := h.sibling r k b hb
    exact ⟨_, b', hsibling, rfl⟩

variable {P : List ℕ × β → Prop} {front behind : List (List ℕ × β)} {x : List ℕ × β}

/-- The address of the last node of a list. -/
def lastAddress (l : List (List ℕ × β)) : List ℕ := (l.map Prod.fst).getLastD []

theorem lastAddress_concat (l : List (List ℕ × β)) (x : List ℕ × β) :
    lastAddress (l ++ [x]) = x.1 := by
  rw [lastAddress, List.map_append, List.map_singleton, List.getLastD_concat]

/-- The node that is last in front of `x` is between `x` and any node before `x`. -/
theorem lastAddress_between (h : PreOrdered P (front ++ x :: behind)) {q : List ℕ} {b : β}
    (hq : P (q, b)) (hlt : q < x.1) : ¬ lastAddress front < q ∧ lastAddress front < x.1 := by
  obtain ⟨hfront, hx, hcross⟩ := List.pairwise_append.mp h.order
  rw [List.pairwise_cons] at hx
  have hmem : (q, b) ∈ front := by
    rcases List.mem_append.mp ((h.mem_iff _).mpr hq) with hmem | hmem
    · exact hmem
    · rcases List.mem_cons.mp hmem with rfl | hmem
      · exact absurd hlt (List.lt_irrefl q)
      · exact absurd (hx.1 _ hmem) (List.lt_asymm hlt)
  obtain ⟨init, z, rfl⟩ := (List.eq_nil_or_concat front).resolve_left (List.ne_nil_of_mem hmem)
  rw [List.concat_eq_append] at hfront hmem hcross ⊢
  rw [lastAddress_concat]
  refine ⟨?_, hcross z (by simp) x List.mem_cons_self⟩
  rcases List.mem_append.mp hmem with hmem | hmem
  · have hbefore := (List.pairwise_append.mp hfront).2.2 _ hmem z (List.mem_singleton_self z)
    exact List.lt_asymm hbefore
  · rw [← List.mem_singleton.mp hmem]
    exact List.lt_irrefl q

/-- **In pre-order**, an address is determined by the one in front of it and its depth. -/
theorem nextAddress_last (h : PreOrdered P (front ++ x :: behind)) (htree : IsTree P) :
    nextAddress (lastAddress front) x.1.length = x.1 := by
  have hx : P x := (h.mem_iff x).mp (by simp)
  obtain ⟨p, b⟩ := x
  rcases List.eq_nil_or_concat p with rfl | ⟨r, k, rfl⟩
  · exact nextAddress_zero _
  rw [List.concat_eq_append] at h hx ⊢
  rw [List.length_append, List.length_singleton]
  cases k with
  | zero =>
      obtain ⟨b', hparent⟩ := htree.parent r 0 b hx
      obtain ⟨hle, hlt⟩ := lastAddress_between h hparent (lt_append_cons r 0 [])
      rw [eq_of_lt_child hle hlt, nextAddress_child]
  | succ k =>
      obtain ⟨b', hsibling⟩ := htree.sibling r k b hx
      obtain ⟨hle, hlt⟩ :=
        lastAddress_between h hsibling (append_cons_lt r (Nat.lt_succ_self k) [] [])
      obtain ⟨s, hs⟩ := below_of_lt_sibling hle hlt
      rw [hs, nextAddress_sibling]

/-- The addresses of lines that tell their depths, behind a line with the address `prev`. -/
def readAddresses (prev : List ℕ) : List (ℕ × β) → List (List ℕ × β)
  | [] => []
  | (depth, b) :: lines =>
    (nextAddress prev depth, b) :: readAddresses (nextAddress prev depth) lines

/-- The addresses of a tree in pre-order are read off their depths. -/
theorem readAddresses_depths (htree : IsTree P) {l : List (List ℕ × β)}
    (h : PreOrdered P (front ++ l)) :
    readAddresses (lastAddress front) (l.map fun x => (x.1.length, x.2)) = l := by
  induction l generalizing front with
  | nil => rfl
  | cons x l ih =>
      have hx := nextAddress_last h htree
      rw [List.append_cons] at h
      have hrest := ih h
      rw [lastAddress_concat] at hrest
      rw [List.map_cons, readAddresses, hx, hrest]

/-! ### Lines -/

/-- How an outline is laid out: what ends a line, what indents it, and how far a level. -/
structure Layout (α : Type*) where
  mark : α
  blank : α
  unit : ℕ
  mark_ne : mark ≠ blank
  unit_pos : 0 < unit

variable [DecidableEq α]

/-- The lines of a text. -/
def Layout.lines (L : Layout α) : List α → List (List α)
  | [] => []
  | c :: text =>
    if c = L.mark then [] :: L.lines text
    else
      match L.lines text with
      | [] => [[c]]
      | line :: rest => (c :: line) :: rest

variable (L : Layout α)

theorem Layout.lines_append {line : List α} (h : L.mark ∉ line) (text : List α) :
    L.lines (line ++ L.mark :: text) = line :: L.lines text := by
  induction line with
  | nil => rw [List.nil_append, Layout.lines, if_pos rfl]
  | cons c line ih =>
      rw [List.mem_cons, not_or] at h
      rw [List.cons_append, Layout.lines, if_neg (Ne.symm h.1), ih h.2]

/-- The lines of a text that was put together from lines. -/
theorem Layout.lines_flatMap (f : β → List α) {xs : List β} (h : ∀ x ∈ xs, L.mark ∉ f x) :
    L.lines (xs.flatMap fun x => f x ++ [L.mark]) = xs.map f := by
  induction xs with
  | nil => rfl
  | cons x xs ih =>
      rw [List.forall_mem_cons] at h
      rw [List.flatMap_cons, List.append_assoc, List.singleton_append, L.lines_append h.1,
        ih h.2, List.map_cons]

/-- A label that can be told from its indentation, on a line of its own. -/
structure Layout.Plain (label : List α) : Prop where
  mark_notMem : L.mark ∉ label
  blanks_lt : (label.takeWhile (· = L.blank)).length < L.unit

/-- A label, indented. -/
def Layout.indented (depth : ℕ) (label : List α) : List α :=
  List.replicate (L.unit * depth) L.blank ++ label

/-- The depth and the label of a line. -/
def Layout.readLine (line : List α) : ℕ × List α :=
  let depth := (line.takeWhile (· = L.blank)).length / L.unit
  (depth, line.drop (L.unit * depth))

/-- What was indented is read back. -/
theorem Layout.readLine_indented {label : List α} (h : L.Plain label) (depth : ℕ) :
    L.readLine (L.indented depth label) = (depth, label) := by
  have hblanks : ((L.indented depth label).takeWhile (· = L.blank)).length =
      L.unit * depth + (label.takeWhile (· = L.blank)).length := by
    rw [Layout.indented, List.takeWhile_append_of_pos (by simp), List.length_append,
      List.length_replicate]
  have hdepth : ((L.indented depth label).takeWhile (· = L.blank)).length / L.unit = depth := by
    rw [hblanks, Nat.mul_add_div L.unit_pos, Nat.div_eq_of_lt h.blanks_lt, Nat.add_zero]
  simp only [Layout.readLine, hdepth, Prod.mk.injEq, true_and]
  rw [Layout.indented, List.drop_left' List.length_replicate]

/-! ### Outlines -/

/-- The outline of a list of labelled nodes. -/
def Layout.writeOutline (l : List (List ℕ × List α)) : List α :=
  l.flatMap fun x => L.indented x.1.length x.2 ++ [L.mark]

/-- The labelled nodes an outline shows. -/
def Layout.readOutline (text : List α) : List (List ℕ × List α) :=
  readAddresses [] ((L.lines text).map L.readLine)

/-- **A tree is read back from its outline**, if its labels are plain. -/
theorem Layout.readOutline_writeOutline {P : List ℕ × List α → Prop}
    {l : List (List ℕ × List α)} (h : PreOrdered P l) (htree : IsTree P)
    (hplain : ∀ x ∈ l, L.Plain x.2) : L.readOutline (L.writeOutline l) = l := by
  have hmark : ∀ x ∈ l, L.mark ∉ L.indented x.1.length x.2 := by
    intro x hx hmem
    rcases List.mem_append.mp hmem with hmem | hmem
    · exact L.mark_ne (List.eq_of_mem_replicate hmem)
    · exact (hplain x hx).mark_notMem hmem
  have hlines : (l.map fun x => L.readLine (L.indented x.1.length x.2)) =
      l.map fun x => (x.1.length, x.2) :=
    List.map_congr_left fun x hx => L.readLine_indented (hplain x hx) _
  have hread : readAddresses [] (l.map fun x => (x.1.length, x.2)) = l :=
    @readAddresses_depths _ _ [] htree l h
  rw [Layout.readOutline, Layout.writeOutline,
    L.lines_flatMap (fun x : List ℕ × List α => L.indented x.1.length x.2) hmark,
    List.map_map, Function.comp_def, hlines, hread]

end Outline
