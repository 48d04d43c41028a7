/-! # Spaces and blanks

Words of a rule end at any character with the Unicode property White_Space, but only four of these
characters are blanks, which may stand between two words.
-/

namespace DocRules.Text

/-- A blank is a space, a tab, a carriage return or a line feed. -/
def isBlank (c : Char) : Bool :=
  c == ' ' || c == '\t' || c == '\r' || c == '\n'

/-- The characters with the Unicode property White_Space. -/
def isSpace (c : Char) : Bool :=
  (0x09 ≤ c.toNat && c.toNat ≤ 0x0d) || c.toNat == 0x20 || c.toNat == 0x85 || c.toNat == 0xa0
    || c.toNat == 0x1680 || (0x2000 ≤ c.toNat && c.toNat ≤ 0x200a) || c.toNat == 0x2028
    || c.toNat == 0x2029 || c.toNat == 0x202f || c.toNat == 0x205f || c.toNat == 0x3000

theorem isSpace_of_isBlank {c : Char} (blank : isBlank c = true) : isSpace c = true := by
  simp only [isBlank, Bool.or_eq_true, beq_iff_eq] at blank
  rcases blank with ((rfl | rfl) | rfl) | rfl <;> decide

theorem not_isBlank_of_not_isSpace {c : Char} (black : isSpace c = false) : isBlank c = false := by
  cases blank : isBlank c with
  | false => rfl
  | true =>
    rw [isSpace_of_isBlank blank] at black
    contradiction

end DocRules.Text
