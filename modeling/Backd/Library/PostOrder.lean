import Mathlib.Data.List.Sort

/-!
# Post-Order of Tree Addresses

A node of an ordered tree is addressed by the child indices on the way to it from the
root. `Before p q` says that a post-order traversal comes to `p` first: a node comes after
everything below it, and siblings come in the order of their indices.

## Main results

* `before_append_left`: the order below a node is the order of the tree.
* `nodup_of_pairwise_before`: a list that is in post-order visits no node twice.
* `eq_of_pairwise_before`: a list that is in post-order is determined by what is in it.
-/

namespace PostOrder

/-- `p` comes before `q` in post-order. -/
def Before : List ℕ → List ℕ → Prop
  | [], _ => False
  | _ :: _, [] => True
  | i :: p, j :: q => i < j ∨ i = j ∧ Before p q

@[simp] theorem not_nil_before (q : List ℕ) : ¬ Before [] q := id

@[simp] theorem before_nil (i : ℕ) (p : List ℕ) : Before (i :: p) [] := trivial

@[simp] theorem before_cons {i j : ℕ} {p q : List ℕ} :
    Before (i :: p) (j :: q) ↔ i < j ∨ i = j ∧ Before p q := Iff.rfl

theorem before_irrefl (p : List ℕ) : ¬ Before p p := by
  induction p with
  | nil => exact id
  | cons i p ih =>
      rintro (h | ⟨-, h⟩)
      · exact Nat.lt_irrefl i h
      · exact ih h

/-- The order below a node is the order of the tree. -/
@[simp] theorem before_append_left {r p q : List ℕ} :
    Before (r ++ p) (r ++ q) ↔ Before p q := by
  induction r with
  | nil => rfl
  | cons i r ih => simp [ih]

/-- Everything below a node comes before it. -/
theorem before_ancestor (r : List ℕ) (i : ℕ) (p : List ℕ) : Before (r ++ i :: p) r := by
  simpa using before_append_left (r := r) (p := i :: p) (q := [])

/-- Everything below an earlier sibling comes first. -/
theorem before_of_lt {i j : ℕ} (r p q : List ℕ) (h : i < j) :
    Before (r ++ i :: p) (r ++ j :: q) := by
  simp [h]

/-- Of two nodes, one comes first. -/
theorem before_asymm {p q : List ℕ} (h : Before p q) : ¬ Before q p := by
  induction p generalizing q with
  | nil => exact absurd h (not_nil_before q)
  | cons i p ih =>
      cases q with
      | nil => exact not_nil_before _
      | cons j q =>
          rw [before_cons] at h ⊢
          rintro (hlt | ⟨rfl, hback⟩)
          · omega
          · exact ih (h.resolve_left (Nat.lt_irrefl _)).2 hback

/-- A list in post-order visits no node twice. -/
theorem nodup_of_pairwise_before {l : List (List ℕ)} (h : l.Pairwise Before) : l.Nodup := by
  refine h.imp ?_
  rintro p _ hbefore rfl
  exact before_irrefl p hbefore

/-- A list in post-order is determined by what is in it. -/
theorem eq_of_pairwise_before {α : Type*} {node : α → List ℕ} {l l' : List α}
    (h : l.Pairwise fun a b => Before (node a) (node b))
    (h' : l'.Pairwise fun a b => Before (node a) (node b)) (hmem : ∀ a, a ∈ l ↔ a ∈ l') :
    l = l' := by
  have : Std.Irrefl fun a b : α => Before (node a) (node b) :=
    ⟨fun a => before_irrefl (node a)⟩
  have : Std.Antisymm fun a b : α => Before (node a) (node b) :=
    ⟨fun _ _ hab hba => absurd hba (before_asymm hab)⟩
  exact h.eq_of_mem_iff h' hmem

end PostOrder
