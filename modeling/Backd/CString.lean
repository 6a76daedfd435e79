import Mathlib.Data.Int.Notation
import Mathlib.Tactic.Common

/-!
# C Strings

A C string is a list of bytes none of which is zero (`CChar`), so every list of `CChar` is
a C string, and a pointer into it is one of its suffixes.

`char` is signed, as everywhere in the daemon, so the `int` a character becomes is negative
from 128 on. The character classes are those of the locale C.
-/

namespace Backd

/-- A character of a C string. -/
abbrev CChar := {c : UInt8 // c ≠ 0}

/-- A C string, without its final zero. -/
abbrev CStr := List CChar

/-- The bytes of a C string. -/
def CStr.bytes (s : CStr) : List UInt8 := s.map Subtype.val

/-- The character `/`. -/
def slash : CChar := ⟨47, by decide⟩

/-- The character `.`. -/
def dot : CChar := ⟨46, by decide⟩

/-- The character `-`. -/
def dash : CChar := ⟨45, by decide⟩

/-- The character `:`. -/
def colon : CChar := ⟨58, by decide⟩

/-- The character `c`. -/
def letterC : CChar := ⟨99, by decide⟩

/-- The character `d`. -/
def letterD : CChar := ⟨100, by decide⟩

/-- The character `h`. -/
def letterH : CChar := ⟨104, by decide⟩

/-- The character `s`. -/
def letterS : CChar := ⟨115, by decide⟩

/-- The character `v`. -/
def letterV : CChar := ⟨118, by decide⟩

/-- The character `x`. -/
def letterX : CChar := ⟨120, by decide⟩

/-- A `char` as an `int`. -/
def CChar.code (c : CChar) : ℤ := c.1.toInt8.toInt

/-- `isspace`. -/
def isspace (c : CChar) : Bool := decide (9 ≤ c.1 ∧ c.1 ≤ 13 ∨ c.1 = 32)

/-- `isdigit`. -/
def isdigit (c : CChar) : Bool := decide (48 ≤ c.1 ∧ c.1 ≤ 57)

/-- `while (isspace(*ptr)) ++ptr;`. -/
def skipSpace (ptr : CStr) : CStr := ptr.dropWhile isspace

/-- `strchr`: the rest of the string from the first such character on, empty for
`NULL`. -/
def strchr (s : CStr) (c : CChar) : CStr := s.dropWhile (· ≠ c)

end Backd
