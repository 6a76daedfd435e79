import Mathlib.Data.Option.Basic

/-!
# Computations That May Not End

A computation with a limit on its loops is an `Option`: `none` when a loop has not come to
its end within the limit. `EndsIff ok enough m P` says that `m` comes to its end exactly if
`ok` holds, as soon as the limit is `enough`; that it does not for any limit when `ok`
fails; and that what it ends with satisfies `P`.

## Main results

* `EndsIff.bind`: one computation after the other ends if both do.
* `EndsIff.map`, `EndsIff.ret`: what comes to its end in any case.
* `EndsIff.exists_iff`: a computation that does not always end does for some limit exactly
  if its condition holds.
-/

namespace Endings

variable {α β : Type*}

/-- `m` ends exactly if `ok` holds, given a limit that is `enough`, and then satisfies
`P`. -/
structure EndsIff (ok enough : Prop) (m : Option α) (P : α → Prop) : Prop where
  stuck : ¬ ok → m = none
  ends : ok → enough → m.isSome
  post : ∀ {a}, m = some a → P a

variable {ok ok' enough : Prop} {m : Option α} {P : α → Prop} {Q : β → Prop}

/-- What is there already. -/
theorem EndsIff.ret {a : α} (h : P a) : EndsIff True enough (some a) P where
  stuck hok := absurd trivial hok
  ends _ _ := rfl
  post ha := Option.some.inj ha ▸ h

/-- The same condition in other words. -/
theorem EndsIff.congr (h : EndsIff ok enough m P) (hok : ok ↔ ok') : EndsIff ok' enough m P where
  stuck hn := h.stuck (mt hok.mp hn)
  ends hok' := h.ends (hok.mpr hok')
  post := h.post

/-- One computation after the other. -/
theorem EndsIff.bind {f : α → Option β} (h : EndsIff ok enough m P)
    (hf : ∀ a, P a → EndsIff ok' enough (f a) Q) : EndsIff (ok ∧ ok') enough (m.bind f) Q where
  stuck hn := by
    cases hm : m with
    | none => rfl
    | some a =>
        have hok : ok := by
          by_contra hno
          rw [h.stuck hno] at hm
          cases hm
        exact (hf a (h.post hm)).stuck fun hok' => hn ⟨hok, hok'⟩
  ends hoks henough := by
    obtain ⟨a, hm⟩ := Option.isSome_iff_exists.mp (h.ends hoks.1 henough)
    rw [hm, Option.bind_some]
    exact (hf a (h.post hm)).ends hoks.2 henough
  post hb := by
    obtain ⟨a, hm, hfa⟩ := Option.bind_eq_some_iff.mp hb
    exact (hf a (h.post hm)).post hfa

/-- A function of the result. -/
theorem EndsIff.map {f : α → β} (h : EndsIff ok enough m P) (hf : ∀ a, P a → Q (f a)) :
    EndsIff ok enough (m.map f) Q where
  stuck hn := by rw [h.stuck hn, Option.map_none]
  ends hok henough := by
    rw [Option.isSome_map]
    exact h.ends hok henough
  post hb := by
    obtain ⟨a, hm, rfl⟩ := Option.map_eq_some_iff.mp hb
    exact hf a (h.post hm)

/-- A computation ends within some limit exactly if its condition holds, when some limit is
enough for it. -/
theorem EndsIff.exists_iff {ι : Type*} {limit : ι → Prop} {run : ι → Option α}
    (h : ∀ i, EndsIff ok (limit i) (run i) P) (hlimit : ∃ i, limit i) :
    (∃ i a, run i = some a) ↔ ok := by
  constructor
  · rintro ⟨i, a, ha⟩
    by_contra hno
    rw [(h i).stuck hno] at ha
    cases ha
  · intro hok
    obtain ⟨i, hi⟩ := hlimit
    exact ⟨i, Option.isSome_iff_exists.mp ((h i).ends hok hi)⟩

end Endings
