import Mathlib.Data.List.Sort

/-!
# Pre-Order of Tree Addresses

A node of an ordered tree is addressed by the child indices on the way to it from the root.
Addresses are in pre-order when they are in the lexicographic order of lists: a node comes
before everything below it, and siblings come in the order of their indices.

`At` and `From` move what holds of the nodes of a subtree to its place in the tree;
`PreOrdered` says that a list has the nodes that belong to it, each once, in pre-order.

## Main results

* `PreOrdered.unique`: there is one such list at most.
* `PreOrdered.from_cons`, `PreOrdered.root_cons`: the list of a tree from those of its
  subtrees.
-/

namespace TreeAddress

variable {α β : Type*}

/-! ### The order -/

/-- A node comes before everything below it. -/
theorem lt_append_cons (r : List ℕ) (i : ℕ) (p : List ℕ) : r < r ++ i :: p := by
  have h : r ++ [] < r ++ i :: p := List.append_left_lt (List.nil_lt_cons i p)
  rwa [List.append_nil] at h

/-- Everything below an earlier sibling comes first. -/
theorem append_cons_lt (r : List ℕ) {i j : ℕ} (h : i < j) (p q : List ℕ) :
    r ++ i :: p < r ++ j :: q :=
  List.append_left_lt (List.cons_lt_cons_iff.mpr (.inl h))

/-! ### Places -/

/-- What holds of a node of a subtree, at the place of that subtree. -/
def At (node : List ℕ) (P : List ℕ × β → Prop) (x : List ℕ × β) : Prop :=
  ∃ p, x.1 = node ++ p ∧ P (p, x.2)

/-- What holds of a node of one of the subtrees below `node`, the first of them with index
`i`. -/
def From (node : List ℕ) (i : ℕ) (P : α → List ℕ × β → Prop) (children : List α)
    (x : List ℕ × β) : Prop :=
  ∃ j c p, x.1 = node ++ (i + j) :: p ∧ children[j]? = some c ∧ P c (p, x.2)

variable {P Q : List ℕ × β → Prop} {node : List ℕ}

theorem at_nil (x : List ℕ × β) : At [] P x ↔ P x := by
  constructor
  · rintro ⟨p, hp, h⟩
    rwa [← List.nil_append p, ← hp] at h
  · intro h
    exact ⟨x.1, rfl, h⟩

theorem not_from_nil {i : ℕ} {R : α → List ℕ × β → Prop} (x : List ℕ × β) :
    ¬ From node i R [] x := by
  rintro ⟨j, c, p, -, hc, -⟩
  simp at hc

/-- The first subtree, then its later siblings. -/
theorem from_cons {i : ℕ} {R : α → List ℕ × β → Prop} {c : α} {children : List α}
    {x : List ℕ × β} :
    At (node ++ [i]) (R c) x ∨ From node (i + 1) R children x ↔
      From node i R (c :: children) x := by
  constructor
  · rintro (⟨p, hp, h⟩ | ⟨j, d, p, hp, hd, h⟩)
    · exact ⟨0, c, p, by simpa using hp, rfl, h⟩
    · exact ⟨j + 1, d, p, by rw [hp]; congr 2; omega, hd, h⟩
  · rintro ⟨j, d, p, hp, hd, h⟩
    cases j with
    | zero =>
        obtain rfl : c = d := by simpa using hd
        exact .inl ⟨p, by simpa using hp, h⟩
    | succ j => exact .inr ⟨j, d, p, by rw [hp]; congr 2; omega, hd, h⟩

/-! ### Lists in pre-order -/

/-- The list has exactly these nodes, each once, in pre-order. -/
structure PreOrdered (P : List ℕ × β → Prop) (l : List (List ℕ × β)) : Prop where
  order : l.Pairwise fun x y => x.1 < y.1
  mem_iff : ∀ x, x ∈ l ↔ P x

theorem PreOrdered.congr {l : List (List ℕ × β)} (h : PreOrdered P l) (hiff : ∀ x, P x ↔ Q x) :
    PreOrdered Q l :=
  ⟨h.order, fun x => (h.mem_iff x).trans (hiff x)⟩

theorem preOrdered_nil (h : ∀ x, ¬ P x) : PreOrdered P [] :=
  ⟨.nil, fun x => iff_of_false List.not_mem_nil (h x)⟩

/-- The order settles the list. -/
theorem PreOrdered.unique {l l' : List (List ℕ × β)} (h : PreOrdered P l)
    (h' : PreOrdered P l') : l = l' := by
  have hirrefl : Std.Irrefl fun x y : List ℕ × β => x.1 < y.1 :=
    ⟨fun x => List.lt_irrefl x.1⟩
  have hanti : Std.Antisymm fun x y : List ℕ × β => x.1 < y.1 :=
    ⟨fun x y hxy hyx => absurd hyx (List.lt_asymm hxy)⟩
  exact h.order.eq_of_mem_iff h'.order fun x => (h.mem_iff x).trans (h'.mem_iff x).symm

/-- The nodes with other labels. -/
theorem PreOrdered.map {γ : Type*} {l : List (List ℕ × β)} (h : PreOrdered P l) (f : β → γ) :
    PreOrdered (fun x => ∃ b, P (x.1, b) ∧ f b = x.2) (l.map fun x => (x.1, f x.2)) := by
  refine ⟨List.pairwise_map.mpr h.order, fun x => ?_⟩
  rw [List.mem_map]
  constructor
  · rintro ⟨y, hy, rfl⟩
    exact ⟨y.2, (h.mem_iff y).mp hy, rfl⟩
  · rintro ⟨b, hb, hx⟩
    exact ⟨(x.1, b), (h.mem_iff _).mpr hb, Prod.ext rfl hx⟩

/-- The nodes of the first subtree come before those of its later siblings. -/
theorem PreOrdered.from_cons {i : ℕ} {R : α → List ℕ × β → Prop} {c : α} {children : List α}
    {here behind : List (List ℕ × β)} (hhere : PreOrdered (At (node ++ [i]) (R c)) here)
    (hbehind : PreOrdered (From node (i + 1) R children) behind) :
    PreOrdered (From node i R (c :: children)) (here ++ behind) := by
  refine ⟨List.pairwise_append.mpr ⟨hhere.order, hbehind.order, ?_⟩, fun x => ?_⟩
  · intro x hx y hy
    obtain ⟨p, hp, -⟩ := (hhere.mem_iff x).mp hx
    obtain ⟨j, d, q, hq, -, -⟩ := (hbehind.mem_iff y).mp hy
    rw [hp, hq, List.append_assoc]
    exact append_cons_lt node (by omega) p q
  · rw [List.mem_append, hhere.mem_iff, hbehind.mem_iff, TreeAddress.from_cons]

/-- The root comes before its subtrees. -/
theorem PreOrdered.root_cons {i : ℕ} {R : α → List ℕ × β → Prop} {children : List α}
    {below : List (List ℕ × β)} (hbelow : PreOrdered (From node i R children) below) (b : β) :
    PreOrdered (fun x => x = (node, b) ∨ From node i R children x) ((node, b) :: below) := by
  refine ⟨List.pairwise_cons.mpr ⟨?_, hbelow.order⟩, fun x => ?_⟩
  · intro x hx
    obtain ⟨j, c, p, hp, -, -⟩ := (hbelow.mem_iff x).mp hx
    rw [hp]
    exact lt_append_cons node (i + j) p
  · rw [List.mem_cons, hbelow.mem_iff]

end TreeAddress
