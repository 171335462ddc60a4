/-!
# Blank characters

Blanks mean nothing anywhere in a text, not even inside a numeral: they are dropped before it is
read.  A character is blank when it has the Unicode property White_Space.
-/

namespace InfixArithmetic

/-- The code points with the property White_Space, as inclusive ranges. -/
def blankRanges : List (Nat × Nat) :=
  [(0x9, 0xd), (0x20, 0x20), (0x85, 0x85), (0xa0, 0xa0), (0x1680, 0x1680), (0x2000, 0x200a),
    (0x2028, 0x2029), (0x202f, 0x202f), (0x205f, 0x205f), (0x3000, 0x3000)]

def isBlank (char : Char) : Bool :=
  blankRanges.any fun (first, last) => first ≤ char.toNat && char.toNat ≤ last

/-- The characters of a text that are read, in order. -/
def visible (text : String) : List Char :=
  text.toList.filter fun char => !isBlank char

theorem isBlank_eq_false_of_mem_visible {text : String} {char : Char} (h : char ∈ visible text) :
    isBlank char = false := by
  simpa using (List.mem_filter.1 h).2

/-- Where no character is blank, all of them are read. -/
theorem visible_ofList_eq_self {chars : List Char} (h : ∀ char ∈ chars, isBlank char = false) :
    visible (String.ofList chars) = chars := by
  rw [visible, String.toList_ofList, List.filter_eq_self]
  intro char hchar
  rw [h char hchar]
  rfl

theorem visible_append (first second : String) :
    visible (first ++ second) = visible first ++ visible second := by
  simp [visible]

end InfixArithmetic
