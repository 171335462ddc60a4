import InfixArithmetic.Scan

/-!
# Cursors

A cursor stands in front of one token of a text, or behind the last one.  Every operation but
`Cursor.reset` moves it forward, and none moves it past the end; `Cursor.remaining` is what it has
not passed.
-/

namespace InfixArithmetic

structure Cursor where
  tokens : Array Token
  position : Nat := 0
  deriving DecidableEq, Repr

namespace Cursor

def ofText (text : String) : Except ScanError Cursor := do
  let tokens ← tokenize text
  return { tokens := tokens.toArray }

/-! ## Views -/

def remaining (cursor : Cursor) : List Token :=
  cursor.tokens.toList.drop cursor.position

def left (cursor : Cursor) : Nat :=
  cursor.tokens.size - cursor.position

/-- The least and the greatest number of tokens that may follow, which are the same. -/
def leftBounds (cursor : Cursor) : Nat × Nat :=
  (cursor.left, cursor.left)

def peek? (cursor : Cursor) : Option Token :=
  cursor.tokens[cursor.position]?

/-- The token in front; behind the last token the text goes on with end tokens. -/
def peek (cursor : Cursor) : Token :=
  cursor.peek?.getD .eol

@[simp] theorem length_remaining (cursor : Cursor) : cursor.remaining.length = cursor.left := by
  simp [remaining, left]

theorem head?_remaining (cursor : Cursor) : cursor.remaining.head? = cursor.peek? := by
  simp [remaining, peek?]

/-! ## Moves -/

def skip (cursor : Cursor) (count : Nat) : Cursor :=
  { cursor with position := cursor.position + min count cursor.left }

def advance (cursor : Cursor) : Cursor :=
  cursor.skip 1

def reset (cursor : Cursor) : Cursor :=
  { cursor with position := 0 }

/-- The next token, passed, unless there is none. -/
def next (cursor : Cursor) : Option Token × Cursor :=
  (cursor.peek?, cursor.advance)

/-- The next token, passed; behind the last one an end token, and no move. -/
def pull (cursor : Cursor) : Token × Cursor :=
  (cursor.peek, cursor.advance)

def nth (cursor : Cursor) (count : Nat) : Option Token × Cursor :=
  (cursor.skip count).next

def take (cursor : Cursor) (count : Nat) : List Token × Cursor :=
  (cursor.remaining.take count, cursor.skip count)

def drain (cursor : Cursor) : List Token × Cursor :=
  cursor.take cursor.left

theorem remaining_skip (cursor : Cursor) (count : Nat) :
    (cursor.skip count).remaining = cursor.remaining.drop count := by
  simp only [remaining, skip, List.drop_drop]
  by_cases h : count ≤ cursor.left
  · rw [Nat.min_eq_left h]
  · simp only [left] at h ⊢
    rw [List.drop_eq_nil_of_le (by simp; omega), List.drop_eq_nil_of_le (by simp; omega)]

@[simp] theorem left_skip (cursor : Cursor) (count : Nat) :
    (cursor.skip count).left = cursor.left - count := by
  simp only [left, skip]
  omega

theorem remaining_advance (cursor : Cursor) : cursor.advance.remaining = cursor.remaining.tail := by
  simp [advance, remaining_skip]

theorem left_advance_le (cursor : Cursor) : cursor.advance.left ≤ cursor.left := by
  simp [advance]

/-- Passing a token that is no end token leaves fewer tokens. -/
theorem left_advance_lt {cursor : Cursor} (h : cursor.peek ≠ .eol) :
    cursor.advance.left < cursor.left := by
  have hposition : cursor.position < cursor.tokens.size := by
    apply Decidable.byContradiction
    intro hend
    exact h (by simp [peek, peek?, Array.getElem?_eq_none (Nat.le_of_not_lt hend)])
  simp only [left, advance, skip]
  omega

end Cursor

end InfixArithmetic
