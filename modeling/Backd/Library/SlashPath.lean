import Mathlib.Data.List.DropRight
import Mathlib.Tactic.Common

/-!
# Paths up to Spelling

A path is a string over an alphabet with a separator `sep` and a character `here`, whose
one-letter component stands for the place one is at. Two paths are the same (`Same`) when
both or none of them begin with the separator, and when their components agree, the empty
ones and the `here` ones left out. Repeated and trailing separators make no difference
then.

## Main results

* `components_append`: the components of two paths joined by a separator.
* `Same.join`: joined to the same name, the same paths stay the same.
* `splitLast_spec`: a path that does not end in a separator is its last component, or
  something joined with it.
-/

namespace SlashPath

variable {α : Type*} [DecidableEq α] {sep here : α} {p q r n : List α}

/-- What stands between the separators of a path. -/
def pieces (sep : α) (p : List α) : List (List α) := p.splitOn sep

/-- The components of a path, without the empty ones and the `here` ones. -/
def components (sep here : α) (p : List α) : List (List α) :=
  (pieces sep p).filter fun c => c ≠ [] ∧ c ≠ [here]

/-- Two spellings of one path. -/
structure Same (sep here : α) (p q : List α) : Prop where
  absolute : p.head? = some sep ↔ q.head? = some sep
  components : components sep here p = SlashPath.components sep here q

theorem Same.symm (h : Same sep here p q) : Same sep here q p :=
  ⟨h.absolute.symm, h.components.symm⟩

theorem Same.trans (h : Same sep here p q) (h' : Same sep here q r) : Same sep here p r :=
  ⟨h.absolute.trans h'.absolute, h.components.trans h'.components⟩

@[simp] theorem components_nil : components sep here [] = [] := rfl

/-- The pieces of two paths joined by a separator. -/
theorem pieces_append (p q : List α) :
    pieces sep (p ++ sep :: q) = pieces sep p ++ pieces sep q :=
  List.splitOn_append_cons_self p q

/-- A name is in one piece. -/
theorem pieces_name (hsep : sep ∉ n) : pieces sep n = [n] :=
  List.splitOn_eq_singleton hsep

/-- The components of two paths joined by a separator. -/
theorem components_append (sep here : α) (p q : List α) :
    components sep here (p ++ sep :: q) = components sep here p ++ components sep here q := by
  simp only [components, pieces_append, List.filter_append]

/-- Components that are all left out. -/
theorem components_eq_nil_iff :
    components sep here p = [] ↔ ∀ c ∈ pieces sep p, c = [] ∨ c = [here] := by
  simp only [components, List.filter_eq_nil_iff, decide_eq_true_eq, not_and_or, ne_eq, not_not]

/-- A path of separators has no components. -/
theorem components_of_all_sep (h : ∀ c ∈ p, c = sep) : components sep here p = [] := by
  induction p with
  | nil => rfl
  | cons c p ih =>
      simp only [List.mem_cons, forall_eq_or_imp] at h
      obtain ⟨rfl, h⟩ := h
      have hcons := components_append c here [] p
      simpa [ih h] using hcons

/-- Trailing separators add no components. -/
theorem components_rdropWhile (sep here : α) (p : List α) :
    components sep here (p.rdropWhile (· = sep)) = components sep here p := by
  induction p using List.reverseRecOn with
  | nil => rfl
  | append_singleton p c ih =>
      by_cases hc : c = sep
      · subst hc
        rw [List.rdropWhile_concat_pos _ _ _ (by simp), ih]
        simpa using (components_append c here p []).symm
      · rw [List.rdropWhile_concat_neg _ _ _ (by simpa using hc)]

/-- Joined to the same name, the same paths stay the same. -/
theorem Same.join (h : Same sep here p q) (hp : p ≠ []) (hq : q ≠ []) (n : List α) :
    Same sep here (p ++ sep :: n) (q ++ sep :: n) := by
  constructor
  · rw [List.head?_append_of_ne_nil p hp, List.head?_append_of_ne_nil q hq]
    exact h.absolute
  · rw [components_append, components_append, h.components]

/-- **The last component** of a path that does not end in a separator: the path is that
component, or something joined with it. -/
theorem splitLast_spec (hq : q ≠ []) (hlast : q.getLast hq ≠ sep) :
    sep ∉ q.rtakeWhile (· ≠ sep) ∧ q.rtakeWhile (· ≠ sep) ≠ [] ∧
      (q = q.rtakeWhile (· ≠ sep) ∨ ∃ f, q = f ++ sep :: q.rtakeWhile (· ≠ sep)) := by
  have hsplit := List.rdropWhile_append_rtakeWhile (p := fun c => decide (c ≠ sep)) (l := q)
  refine ⟨fun hmem => by simpa using List.mem_rtakeWhile_imp hmem, ?_, ?_⟩
  · intro hnil
    exact (List.rtakeWhile_eq_nil_iff.mp hnil) hq (by simpa using hlast)
  · by_cases hfront : q.rdropWhile (fun c => decide (c ≠ sep)) = []
    · left
      rw [hfront, List.nil_append] at hsplit
      exact hsplit.symm
    · right
      have hsep := List.rdropWhile_last_not _ _ hfront
      have hconcat := List.dropLast_append_getLast hfront
      have hlast' : (q.rdropWhile fun c => decide (c ≠ sep)).getLast hfront = sep := by
        simpa using hsep
      refine ⟨(q.rdropWhile fun c => decide (c ≠ sep)).dropLast, ?_⟩
      calc q = (q.rdropWhile fun c => decide (c ≠ sep)) ++
              q.rtakeWhile fun c => decide (c ≠ sep) := hsplit.symm
        _ = _ := by rw [← hconcat, hlast', List.append_assoc, List.dropLast_concat]; rfl

/-- The last component of a path that ends in a name. -/
theorem rtakeWhile_name (hsep : sep ∉ n) (p : List α) :
    (p ++ sep :: n).rtakeWhile (· ≠ sep) = n := by
  have hall : ∀ c ∈ n.reverse, decide (c ≠ sep) = true := by
    intro c hc
    have hne : c ≠ sep := fun h => hsep (h ▸ List.mem_reverse.mp hc)
    simpa using hne
  rw [List.rtakeWhile, List.reverse_append, List.reverse_cons, List.append_assoc,
    List.takeWhile_append_of_pos hall]
  simp

end SlashPath
