import InfixArithmetic.Session

/-!
# Passing tokens

Whatever a session is asked for, it passes some of the tokens in front of it and changes nothing
else.  `Session.Passes` relates a session, the tokens it passes and the session behind them; such
steps compose by appending their tokens.
-/

namespace InfixArithmetic

theorem Cursor.skip_skip (cursor : Cursor) (first second : Nat) :
    (cursor.skip first).skip second = cursor.skip (first + second) := by
  have hleft := cursor.left_skip first
  simp only [skip, left] at hleft ⊢
  congr 1
  omega

theorem Cursor.skip_of_left_eq_zero {cursor : Cursor} (h : cursor.left = 0) (count : Nat) :
    cursor.skip count = cursor := by
  simp [skip, h]

namespace Session

/-! ## The session of a text -/

theorem ofText_eq_ok_of_tokenize {text : String} {tokens : List Token}
    (h : tokenize text = .ok tokens) (options : Options) :
    ofText text options = .ok { tokens := tokens.toArray, options } := by
  have hcursor : Cursor.ofText text = .ok { tokens := tokens.toArray } := by
    rw [Cursor.ofText, h]
    rfl
  rw [ofText, hcursor]
  simp [ofCursor, Cursor.remaining]

theorem ofText_eq_error_of_tokenize {text : String} {error : ScanError}
    (h : tokenize text = .error error) (options : Options) :
    ofText text options = .error (.scan error) := by
  have hcursor : Cursor.ofText text = .error error := by
    rw [Cursor.ofText, h]
    rfl
  rw [ofText, hcursor]

/-! ## Skipping -/

def skip (session : Session) (count : Nat) : Session :=
  { session with toCursor := session.toCursor.skip count }

theorem skip_skip (session : Session) (first second : Nat) :
    (session.skip first).skip second = session.skip (first + second) := by
  simp [skip, Cursor.skip_skip]

@[simp] theorem skip_zero (session : Session) : session.skip 0 = session := by
  simp [skip, Cursor.skip]

@[simp] theorem skip_depth (session : Session) (count : Nat) :
    (session.skip count).depth = session.depth := rfl

@[simp] theorem skip_options (session : Session) (count : Nat) :
    (session.skip count).options = session.options := rfl

@[simp] theorem enter_options (session : Session) : session.enter.options = session.options := rfl

theorem advance_eq_skip (session : Session) : session.advance = session.skip 1 := rfl

theorem enter_skip (session : Session) (count : Nat) :
    session.enter.skip count = (session.skip count).enter := rfl

@[simp] theorem leave_enter (session : Session) : session.enter.leave = session := by
  simp [enter, leave]

/-! ## Room for groups -/

/-- How deep groups may still be nested. -/
def room (session : Session) : Nat :=
  session.options.maxDepth.toNat - session.depth.toNat

theorem room_of_depth_eq_zero {session : Session} (h : session.depth = 0) :
    session.room = session.options.maxDepth.toNat := by
  rw [room, h]
  rfl

theorem room_pos_iff {session : Session} :
    0 < session.room ↔ session.depth < session.options.maxDepth := by
  rw [room, UInt64.lt_iff_toNat_lt]
  omega

theorem toNat_depth_enter {session : Session} (h : session.depth < session.options.maxDepth) :
    session.enter.depth.toNat = session.depth.toNat + 1 := by
  have hlt := UInt64.lt_iff_toNat_lt.1 h
  have hmax := session.options.maxDepth.toNat_lt
  simp only [enter, UInt64.toNat_add, UInt64.toNat_one]
  omega

theorem room_enter {session : Session} (h : session.depth < session.options.maxDepth) :
    session.room = session.enter.room + 1 := by
  have hlt := UInt64.lt_iff_toNat_lt.1 h
  rw [room, room, toNat_depth_enter h, enter_options]
  omega

/-! ## The token in front -/

theorem peek_eq_head?_remaining (session : Session) :
    session.peek = session.remaining.head?.getD .eol := by
  rw [Cursor.head?_remaining]
  rfl

theorem remaining_eq_cons {session : Session} (h : session.peek ≠ .eol) :
    session.remaining = session.peek :: session.advance.remaining := by
  have hadvance : session.advance.remaining = session.remaining.tail :=
    session.toCursor.remaining_advance
  rw [hadvance, peek_eq_head?_remaining]
  rw [peek_eq_head?_remaining] at h
  cases hremaining : session.remaining with
  | nil => simp [hremaining] at h
  | cons token rest => rfl

theorem peek_eq_of_remaining_eq_cons {session : Session} {token : Token} {rest : List Token}
    (h : session.remaining = token :: rest) : session.peek = token := by
  rw [peek_eq_head?_remaining, h]
  rfl

theorem remaining_skip (session : Session) (count : Nat) :
    (session.skip count).remaining = session.remaining.drop count :=
  session.toCursor.remaining_skip count

/-! ## Passing -/

structure Passes (start : Session) (passed : List Token) (stop : Session) : Prop where
  remaining_eq : start.remaining = passed ++ stop.remaining
  stop_eq : stop = start.skip passed.length

namespace Passes

variable {start stop next : Session} {passed more : List Token}

theorem nil (session : Session) : session.Passes [] session :=
  ⟨rfl, by simp⟩

theorem append (first : start.Passes passed stop) (second : stop.Passes more next) :
    start.Passes (passed ++ more) next where
  remaining_eq := by rw [first.remaining_eq, second.remaining_eq, List.append_assoc]
  stop_eq := by rw [second.stop_eq, first.stop_eq, skip_skip, List.length_append]

theorem advance {session : Session} (h : session.peek ≠ .eol) :
    session.Passes [session.peek] session.advance :=
  ⟨remaining_eq_cons h, advance_eq_skip session⟩

theorem advance_of_peek_eq {token : Token} (h : start.peek = token) (htoken : token ≠ .eol) :
    start.Passes [token] start.advance := by
  subst h
  exact advance htoken

theorem enter (h : start.Passes passed stop) : start.enter.Passes passed stop.enter where
  remaining_eq := h.remaining_eq
  stop_eq := by rw [h.stop_eq, enter_skip]

theorem leave (h : start.enter.Passes passed stop) : start.Passes passed stop.leave where
  remaining_eq := h.remaining_eq
  stop_eq := by rw [h.stop_eq, enter_skip, leave_enter]

theorem eq_of_nil (h : start.Passes [] stop) : stop = start := by
  rw [h.stop_eq, List.length_nil, skip_zero]

theorem skip (start : Session) (count : Nat) :
    start.Passes (start.remaining.take count) (start.skip count) where
  remaining_eq := by rw [remaining_skip, List.take_append_drop]
  stop_eq := by simp [Session.skip, Cursor.skip]

/-- Tokens in front of a session can be passed. -/
theorem of_remaining_eq {rest : List Token} (h : start.remaining = passed ++ rest) :
    start.Passes passed (start.skip passed.length) where
  remaining_eq := by rw [remaining_skip, h, List.drop_left]
  stop_eq := rfl

theorem exists_of_append (h : start.Passes (passed ++ more) next) :
    ∃ stop, start.Passes passed stop ∧ stop.Passes more next := by
  have hremaining := h.remaining_eq
  rw [List.append_assoc] at hremaining
  have hpassed := of_remaining_eq hremaining
  refine ⟨_, hpassed, ?_, ?_⟩
  · have hboth := hpassed.remaining_eq.symm.trans hremaining
    exact List.append_cancel_left hboth
  · rw [skip_skip, ← List.length_append]
    exact h.stop_eq

theorem of_cons {token : Token} (h : start.Passes (token :: more) next) :
    start.peek = token ∧ start.advance.Passes more next := by
  have hsplit : start.Passes ([token] ++ more) next := h
  obtain ⟨stop, hfirst, hrest⟩ := hsplit.exists_of_append
  obtain rfl : stop = start.advance := hfirst.stop_eq
  exact ⟨peek_eq_of_remaining_eq_cons hfirst.remaining_eq, hrest⟩

theorem of_singleton {token : Token} (h : start.Passes [token] stop) :
    start.peek = token ∧ stop = start.advance := by
  obtain ⟨hpeek, hrest⟩ := h.of_cons
  exact ⟨hpeek, hrest.eq_of_nil⟩

theorem tokens_eq (h : start.Passes passed stop) : stop.tokens = start.tokens := by
  rw [h.stop_eq]
  rfl

theorem depth_eq (h : start.Passes passed stop) : stop.depth = start.depth := by
  rw [h.stop_eq, skip_depth]

theorem options_eq (h : start.Passes passed stop) : stop.options = start.options := by
  rw [h.stop_eq, skip_options]

theorem room_eq (h : start.Passes passed stop) : stop.room = start.room := by
  rw [room, room, h.depth_eq, h.options_eq]

theorem length_le_left (h : start.Passes passed stop) : passed.length ≤ start.left := by
  rw [← start.toCursor.length_remaining, h.remaining_eq]
  simp

theorem position_eq (h : start.Passes passed stop) :
    stop.position = start.position + passed.length := by
  rw [h.stop_eq]
  simp only [Session.skip, Cursor.skip, Nat.min_eq_left h.length_le_left]

theorem eq_extract (h : start.Passes passed stop) :
    passed = (start.tokens.extract start.position stop.position).toList := by
  rw [Array.toList_extract, List.extract_eq_take_drop, h.position_eq, Nat.add_sub_cancel_left]
  change passed = start.remaining.take passed.length
  rw [h.remaining_eq, List.take_left]

end Passes

end Session

end InfixArithmetic
