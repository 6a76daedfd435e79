import Backd.ArrayOps

/-!
# Arrays of Records

The daemon keeps the history of a target and the children of a directory in arrays of
`array.c`: created with `array_create`, filled with `array_push`, read in place. Seen
from there an array is a list of records with the capacity of its buffer. The capacity
decides which requests the allocator gets to see, and which pushes are refused without
asking it.
-/

namespace Backd

variable {α : Type}

/-- An array as its user sees it: the records, and the size of the buffer in bytes. -/
structure Records (α : Type) where
  items : List α
  cap : ℕ
  deriving DecidableEq, Repr

/-- `array_create(eltSize, n, NULL)`, when both requests are granted. -/
def Records.create (eltSize n : ℕ) : Records α :=
  let n := if n = 0 then arrayInitialSize else n
  { items := [], cap := sizeAlign (szMul eltSize n) }

/-- `array_push`. The allocator's answer is a function of the size it is asked for. -/
def Records.push (eltSize : ℕ) (grants : ℕ → Bool) (self : Records α) (e : α) :
    Bool × Records α :=
  match growth self.cap false (eltSize * (self.items.length + 1)) with
  | .fits => (true, { self with items := self.items ++ [e] })
  | .refuse => (false, self)
  | .realloc newSize =>
    if grants newSize then (true, { items := self.items ++ [e], cap := newSize })
    else (false, self)

/-- A push appends the record, or changes nothing. -/
theorem Records.push_cases (eltSize : ℕ) (grants : ℕ → Bool) (self : Records α) (e : α) :
    (∃ cap, self.push eltSize grants e = (true, ⟨self.items ++ [e], cap⟩)) ∨
      self.push eltSize grants e = (false, self) := by
  unfold push
  split
  · exact .inl ⟨_, rfl⟩
  · exact .inr rfl
  · split
    · exact .inl ⟨_, rfl⟩
    · exact .inr rfl

end Backd
