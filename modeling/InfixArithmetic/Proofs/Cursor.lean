import InfixArithmetic.Proofs.Scan.Tiling
import InfixArithmetic.Proofs.Session.History
import Mathlib.Data.List.ReduceOption

/-!
# What a cursor has pulled

All moves of a cursor but `Cursor.reset` come down to calls of `Cursor.next`: they pass the tokens
that those calls yield and stay behind the last token once they get there.  Main statement:
`moves_account_for_tokens`, whatever moves were made, the tokens pulled since the last reset are
those in front of the position, and those left are the others.
-/

namespace InfixArithmetic

namespace Cursor

/-! ## Calls of `next` -/

/-- What so many calls of `next` answer one after another, and where they leave the cursor. -/
def nexts (cursor : Cursor) : Nat → List (Option Token) × Cursor
  | 0 => ([], cursor)
  | count + 1 =>
      let later := cursor.next.2.nexts count
      (cursor.next.1 :: later.1, later.2)

theorem skip_succ (cursor : Cursor) (count : Nat) :
    cursor.skip (count + 1) = cursor.next.2.skip count := by
  rw [next, advance, skip_skip, Nat.add_comm]

theorem nexts_snd (cursor : Cursor) (count : Nat) : (cursor.nexts count).2 = cursor.skip count := by
  induction count generalizing cursor with
  | zero => rfl
  | succ count ih => rw [nexts, ih, skip_succ]

theorem remaining_eq_toList_append (cursor : Cursor) :
    cursor.remaining = cursor.next.1.toList ++ cursor.next.2.remaining := by
  rw [next, remaining_advance, ← head?_remaining]
  cases cursor.remaining <;> rfl

/-- The calls yield the tokens in front, and nothing any more when these run out. -/
theorem reduceOption_nexts (cursor : Cursor) (count : Nat) :
    (cursor.nexts count).1.reduceOption = cursor.remaining.take count := by
  induction count generalizing cursor with
  | zero => rfl
  | succ count ih =>
      have hrest := ih cursor.next.2
      have hremaining := cursor.remaining_eq_toList_append
      rw [nexts]
      cases hnext : cursor.next.1 with
      | none =>
          have hempty : cursor.remaining = [] := by
            rw [← List.head?_eq_none_iff, head?_remaining]
            exact hnext
          have hrest_empty : cursor.next.2.remaining = [] := by
            simpa [hnext, hempty] using hremaining.symm
          simp [hempty, hrest_empty, hrest]
      | some token =>
          rw [hnext] at hremaining
          simp [hremaining, hrest]

theorem take_eq_nexts (cursor : Cursor) (count : Nat) :
    cursor.take count = ((cursor.nexts count).1.reduceOption, (cursor.nexts count).2) := by
  rw [reduceOption_nexts, nexts_snd, take]

theorem nexts_succ_eq_nth (cursor : Cursor) (count : Nat) :
    cursor.nexts (count + 1) =
      ((cursor.nexts count).1 ++ [(cursor.nth count).1], (cursor.nth count).2) := by
  induction count generalizing cursor with
  | zero => rfl
  | succ count ih =>
      have hnth : cursor.nth (count + 1) = cursor.next.2.nth count := by
        rw [nth, nth, skip_succ]
      rw [nexts, ih, hnth]
      rfl

theorem take_add (cursor : Cursor) (count more : Nat) :
    cursor.take (count + more) =
      ((cursor.take count).1 ++ ((cursor.take count).2.take more).1,
        ((cursor.take count).2.take more).2) := by
  rw [take, take, take, remaining_skip, skip_skip, List.take_add]

/-! ## One move -/

/-- The tokens that a move pulls, with those it goes over; an end token that it answers behind the
last token is none of them. -/
def pulled (cursor : Cursor) : Move → List Token
  | .pull => if cursor.left = 0 then [] else [cursor.pull.1]
  | .next => cursor.next.1.toList
  | .nth count => (cursor.nexts (count + 1)).1.reduceOption
  | .take count => (cursor.take count).1
  | .drain => cursor.drain.1
  | .reset => []

theorem toList_next_fst (cursor : Cursor) : cursor.next.1.toList = cursor.remaining.take 1 := by
  rw [next, ← head?_remaining]
  cases cursor.remaining <;> rfl

theorem pulled_pull (cursor : Cursor) : cursor.pulled .pull = cursor.remaining.take 1 := by
  rw [pulled, pull, peek, ← head?_remaining, ← length_remaining]
  cases cursor.remaining <;> rfl

/-- A move that does not start over passes what it pulls. -/
theorem exists_move_eq_skip (cursor : Cursor) {move : Move} (h : move ≠ .reset) :
    ∃ count, cursor.move move = cursor.skip count ∧
      cursor.pulled move = cursor.remaining.take count := by
  cases move with
  | pull => exact ⟨1, rfl, cursor.pulled_pull⟩
  | next => exact ⟨1, rfl, cursor.toList_next_fst⟩
  | nth count =>
      refine ⟨count + 1, ?_, cursor.reduceOption_nexts (count + 1)⟩
      rw [move, nth, next, advance, skip_skip]
  | take count => exact ⟨count, rfl, rfl⟩
  | drain => exact ⟨cursor.left, rfl, rfl⟩
  | reset => contradiction

/-! ## Behind the last token -/

/-- The move answers fewer tokens than it asks for, or asks for all that are left. -/
def RunsOut (cursor : Cursor) : Move → Prop
  | .pull | .next => cursor.next.1 = none
  | .nth count => (cursor.nth count).1 = none
  | .take count => (cursor.take count).1.length < count
  | .drain => True
  | .reset => False

theorem next_fst_eq_none_iff {cursor : Cursor} : cursor.next.1 = none ↔ cursor.left = 0 := by
  rw [next, ← head?_remaining, List.head?_eq_none_iff, ← length_remaining,
    List.length_eq_zero_iff]

theorem RunsOut.left_eq_zero {cursor : Cursor} {move : Move} (h : cursor.RunsOut move) :
    (cursor.move move).left = 0 := by
  cases move with
  | pull | next =>
      have hleft := next_fst_eq_none_iff.1 h
      rw [← Nat.le_zero, ← hleft]
      exact cursor.left_advance_le
  | nth count =>
      have hleft := next_fst_eq_none_iff.1 h
      rw [← Nat.le_zero, ← hleft]
      exact (cursor.skip count).left_advance_le
  | take count =>
      have hlength : min count cursor.left < count := by
        simpa only [RunsOut, take, List.length_take, length_remaining] using h
      have hleft := cursor.left_skip count
      simp only [Cursor.move, take]
      omega
  | drain => exact (cursor.left_skip cursor.left).trans (Nat.sub_self _)
  | reset => contradiction

theorem moveAll_of_left_eq_zero {cursor : Cursor} (hleft : cursor.left = 0) {moves : List Move}
    (hmoves : .reset ∉ moves) : cursor.moveAll moves = cursor := by
  induction moves with
  | nil => rfl
  | cons first moves ih =>
      have hfirst : first ≠ .reset := fun hreset => hmoves (hreset ▸ List.mem_cons_self)
      have hrest : .reset ∉ moves := fun hmem => hmoves (List.mem_cons_of_mem first hmem)
      obtain ⟨count, hmove, -⟩ := cursor.exists_move_eq_skip hfirst
      rw [moveAll, List.foldl_cons, hmove, skip_of_left_eq_zero hleft]
      exact ih hrest

/-! ## Any moves -/

/-- The tokens pulled since the last reset; those of `before` were pulled already. -/
def pulledSinceReset (cursor : Cursor) (before : List Token) : List Move → List Token
  | [] => before
  | first :: moves =>
      (cursor.move first).pulledSinceReset
        (if first = .reset then [] else before ++ cursor.pulled first) moves

/-- The position is no further than behind the last token, and all tokens in front of it are those
that were pulled. -/
structure Accounts (cursor : Cursor) (pulled : List Token) : Prop where
  position_le : cursor.position ≤ cursor.tokens.size
  pulled_eq : pulled = cursor.tokens.toList.take cursor.position

namespace Accounts

variable {cursor : Cursor} {before : List Token}

theorem reset (cursor : Cursor) : cursor.reset.Accounts [] :=
  ⟨Nat.zero_le _, rfl⟩

theorem skip (h : cursor.Accounts before) (count : Nat) :
    (cursor.skip count).Accounts (before ++ cursor.remaining.take count) := by
  have hposition := h.position_le
  refine ⟨?_, ?_⟩
  · simp only [Cursor.skip, left]
    omega
  · have hcount : cursor.remaining.take count = cursor.remaining.take (min count cursor.left) := by
      rw [← length_remaining, List.take_eq_take_min]
    simp only [Cursor.skip]
    rw [h.pulled_eq, hcount, List.take_add]
    rfl

theorem move (h : cursor.Accounts before) (move : Move) :
    (cursor.move move).Accounts (if move = .reset then [] else before ++ cursor.pulled move) := by
  split
  · rename_i hreset
    subst hreset
    exact reset cursor
  · rename_i hreset
    obtain ⟨count, hmove, hpulled⟩ := cursor.exists_move_eq_skip hreset
    rw [hmove, hpulled]
    exact h.skip count

theorem moveAll (h : cursor.Accounts before) (moves : List Move) :
    (cursor.moveAll moves).Accounts (cursor.pulledSinceReset before moves) := by
  induction moves generalizing cursor before with
  | nil => exact h
  | cons first moves ih => exact ih (h.move first)

end Accounts

theorem position_of_ofText {text : String} {cursor : Cursor} (h : ofText text = .ok cursor) :
    cursor.position = 0 := by
  unfold ofText at h
  cases htokens : tokenize text with
  | error error =>
      rw [htokens] at h
      contradiction
  | ok tokens =>
      rw [htokens] at h
      rw [← Except.ok.inj h]

theorem accounts_of_ofText {text : String} {cursor : Cursor} (h : ofText text = .ok cursor) :
    cursor.Accounts [] := by
  have hposition := position_of_ofText h
  exact ⟨by rw [hposition]; exact Nat.zero_le _, by rw [hposition]; rfl⟩

end Cursor

theorem moves_account_for_tokens {text : String} {cursor : Cursor}
    (h : Cursor.ofText text = .ok cursor) (moves : List Move) :
    let reached := cursor.moveAll moves
    reached.tokens = cursor.tokens ∧
    reached.position ≤ reached.tokens.size ∧
    reached.remaining = reached.tokens.toList.drop reached.position ∧
    reached.leftBounds = (reached.remaining.length, reached.remaining.length) ∧
    cursor.pulledSinceReset [] moves = reached.tokens.toList.take reached.position ∧
    reached.pull = (reached.next.1.getD .eol, reached.next.2) ∧
    (∀ move, reached.RunsOut move →
      (reached.move move).position = reached.tokens.size ∧
      ∀ later, .reset ∉ later → (reached.move move).moveAll later = reached.move move) ∧
    (∀ count, reached.nexts (count + 1) =
      ((reached.nexts count).1 ++ [(reached.nth count).1], (reached.nth count).2)) ∧
    (∀ count, reached.take count =
      ((reached.nexts count).1.reduceOption, (reached.nexts count).2)) ∧
    ∀ count more, reached.take (count + more) =
      ((reached.take count).1 ++ ((reached.take count).2.take more).1,
        ((reached.take count).2.take more).2) := by
  intro reached
  have haccounts := (Cursor.accounts_of_ofText h).moveAll moves
  refine ⟨cursor.tokens_moveAll moves, haccounts.position_le, rfl, ?_, haccounts.pulled_eq, rfl, ?_,
    reached.nexts_succ_eq_nth, reached.take_eq_nexts, reached.take_add⟩
  · rw [Cursor.leftBounds, Cursor.length_remaining]
  · intro move hout
    have hleft := hout.left_eq_zero
    refine ⟨?_, fun later => Cursor.moveAll_of_left_eq_zero hleft⟩
    have hposition : (reached.move move).position ≤ (reached.move move).tokens.size :=
      (haccounts.move move).position_le
    rw [Cursor.left, reached.tokens_move move] at hleft
    rw [reached.tokens_move move] at hposition
    omega

/-- The end token that `pull` answers behind the last token of `1 + 2` is not pulled, and after the
reset all tokens are there again. -/
theorem moves_account_for_sum :
    let one : Numeral := ⟨[1], [], List.cons_ne_nil _ _⟩
    let two : Numeral := ⟨[2], [], List.cons_ne_nil _ _⟩
    let cursor : Cursor :=
      { tokens := #[.number one.value, .operator .add, .number two.value, .eol] }
    Cursor.ofText "1 + 2" = .ok cursor ∧
      cursor.pulledSinceReset [] [.next, .nth 7, .pull] =
        [.number one.value, .operator .add, .number two.value, .eol] ∧
      cursor.pulledSinceReset [] [.next, .nth 7, .pull, .reset, .take 2, .nth 0] =
        [.number one.value, .operator .add, .number two.value] := by
  intro one two cursor
  have htiles : Tiles [.numeral one, .operator .add, .numeral two] (visible "1 + 2") :=
    ⟨by decide, by simp [Separated, Lexeme.isNumeral]⟩
  have hcursor : Cursor.ofText "1 + 2" = .ok cursor := by
    rw [Cursor.ofText, tokenize_eq_ok_of_tiles htiles]
    rfl
  obtain ⟨-, -, -, -, hpulled, -⟩ := moves_account_for_tokens hcursor [.next, .nth 7, .pull]
  obtain ⟨-, -, -, -, hpulled', -⟩ :=
    moves_account_for_tokens hcursor [.next, .nth 7, .pull, .reset, .take 2, .nth 0]
  exact ⟨hcursor, hpulled, hpulled'⟩

end InfixArithmetic
