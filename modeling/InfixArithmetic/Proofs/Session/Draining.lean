import InfixArithmetic.Proofs.Session.History
import InfixArithmetic.Proofs.Session.Points

/-!
# Draining a session

A request passes at least one token while any is left, whether it gives a value or an error: the
token with which an expression would have to begin is passed even if it cannot begin one.  Main
statement: `requests_drain_session`, as many requests as there are tokens pass all of them, and
behind the last one every request fails and leaves the session as it is.
-/

namespace InfixArithmetic

open Operator (loosest)

namespace Session

variable {session : Session}

/-! ## The tokens that requests pass -/

/-- The tokens between the positions in front of and behind a request. -/
def chunk (session : Session) (request : Request) : List Token :=
  (session.tokens.extract session.position (session.serve request).session.position).toList

def chunks (session : Session) : List Request → List (List Token)
  | [] => []
  | request :: requests =>
      session.chunk request :: (session.serve request).session.chunks requests

theorem passes_chunk (hdepth : session.depth = 0) (request : Request) :
    session.Passes (session.chunk request) (session.serve request).session := by
  obtain ⟨passed, -, hserve⟩ := exists_serve_session_eq hdepth request
  have hpasses := Passes.skip session passed
  rw [← hserve] at hpasses
  rw [chunk, ← hpasses.eq_extract]
  exact hpasses

theorem passes_chunks (hdepth : session.depth = 0) (requests : List Request) :
    session.Passes (session.chunks requests).flatten (session.serveAll requests) := by
  induction requests generalizing session with
  | nil => exact .nil session
  | cons request requests ih =>
      have hfirst := passes_chunk hdepth request
      exact hfirst.append (ih (hfirst.depth_eq.trans hdepth))

/-- The token in front is passed whether or not it is a number. -/
theorem passes_number (hremaining : session.remaining ≠ []) :
    session.Passes [session.peek] session.number.session := by
  have hpasses := Passes.skip session 1
  have htake : session.remaining.take 1 = [session.peek] := by
    rw [peek_eq_head?_remaining]
    cases hcons : session.remaining with
    | nil => exact absurd hcons hremaining
    | cons token rest => rfl
  rw [htake] at hpasses
  rwa [number_eq]

/-! ## The tokens that are left -/

theorem remaining_eq_nil_iff : session.remaining = [] ↔ session.left = 0 := by
  rw [← List.length_eq_zero_iff, Cursor.length_remaining]

theorem left_serve_le (hdepth : session.depth = 0) (request : Request) :
    (session.serve request).session.left ≤ session.left - 1 := by
  obtain ⟨passed, hpos, hserve⟩ := exists_serve_session_eq hdepth request
  have hskip : (session.skip passed).left = session.left - passed :=
    session.toCursor.left_skip passed
  rw [hserve, hskip]
  omega

theorem left_serveAll_le (hdepth : session.depth = 0) (requests : List Request) :
    (session.serveAll requests).left ≤ session.left - requests.length := by
  induction requests generalizing session with
  | nil => exact Nat.le_refl _
  | cons request requests ih =>
      have hfirst := left_serve_le hdepth request
      have hrest := ih ((passes_chunk hdepth request).depth_eq.trans hdepth)
      rw [serveAll, List.length_cons]
      omega

theorem chunk_ne_nil (hdepth : session.depth = 0) (hremaining : session.remaining ≠ [])
    (request : Request) : session.chunk request ≠ [] := by
  intro hnil
  have hpasses := passes_chunk hdepth request
  rw [hnil] at hpasses
  have hleft := left_serve_le hdepth request
  rw [hpasses.eq_of_nil] at hleft
  rw [Ne, remaining_eq_nil_iff] at hremaining
  omega

/-! ## Behind the last token -/

theorem skip_eq_self (h : session.remaining = []) (count : Nat) : session.skip count = session := by
  rw [skip, Cursor.skip_of_left_eq_zero (remaining_eq_nil_iff.1 h)]

theorem evaluate_of_remaining_eq_nil (hdepth : session.depth = 0) (h : session.remaining = []) :
    session.evaluate = .error (.unexpectedToken .eol) session := by
  have hreading : session.reading = ⟨.error (.unexpectedToken .eol), 1, []⟩ := by
    rw [reading, h]
    rfl
  rw [session.evaluate_eq_reading hdepth, hreading, skip_eq_self h]
  rfl

theorem number_of_remaining_eq_nil (h : session.remaining = []) :
    session.number = .error (.expectedNumber .eol) session := by
  have hpeek : session.peek = .eol := by
    rw [peek_eq_head?_remaining, h]
    rfl
  rw [number_eq, hpeek, skip_eq_self h]
  rfl

theorem serveAll_of_remaining_eq_nil (hdepth : session.depth = 0) (h : session.remaining = [])
    (requests : List Request) : session.serveAll requests = session := by
  obtain ⟨passed, hpassed⟩ := exists_serveAll_eq hdepth requests
  rw [hpassed, skip_eq_self h]

end Session

/-! ## Draining -/

/-- This holds behind any requests, also behind none.  The steps of an evaluation lead one way, so
that an answer they reach is where it ends. -/
theorem requests_drain_session {session : Session} (hdepth : session.depth = 0)
    (requests : List Request) :
    let reached := session.serveAll requests
    (Point.start (.expression loosest) reached).Reaches (Point.stop reached.evaluate) ∧
    (Point.stop reached.evaluate).step? = none ∧
    (reached.remaining ≠ [] →
      (∃ passed, passed ≠ [] ∧ reached.Passes passed reached.evaluate.session) ∧
      reached.Passes [reached.peek] reached.number.session) ∧
    session.Passes (session.chunks requests).flatten reached ∧
    (session.left ≤ requests.length → reached.remaining = []) ∧
    (reached.remaining = [] →
      (session.chunks requests).flatten = session.remaining ∧
      reached.evaluate = .error (.unexpectedToken .eol) reached ∧
      reached.number = .error (.expectedNumber .eol) reached ∧
      ∀ later, reached.serveAll later = reached) := by
  intro reached
  have hpasses : session.Passes (session.chunks requests).flatten reached :=
    Session.passes_chunks hdepth requests
  have hreached : reached.depth = 0 := hpasses.depth_eq.trans hdepth
  refine ⟨Point.start_reaches_stop _ _, Point.step?_stop _, fun hremaining => ⟨?_, ?_⟩, hpasses,
    fun hle => ?_, fun hnil => ⟨?_, ?_, ?_, ?_⟩⟩
  · exact ⟨_, Session.chunk_ne_nil hreached hremaining .evaluate,
      Session.passes_chunk hreached .evaluate⟩
  · exact Session.passes_number hremaining
  · have hleft : reached.left ≤ session.left - requests.length :=
      Session.left_serveAll_le hdepth requests
    rw [Session.remaining_eq_nil_iff]
    omega
  · rw [hpasses.remaining_eq, hnil, List.append_nil]
  · exact Session.evaluate_of_remaining_eq_nil hreached hnil
  · exact Session.number_of_remaining_eq_nil hnil
  · exact Session.serveAll_of_remaining_eq_nil hreached hnil

/-- The group that opens `(1 2)` is not closed in front of `2`, which is left for the next request. -/
theorem requests_drain_unclosed_group :
    let session : Session :=
      { tokens := #[.delimiter .left, .number 1, .number 2, .delimiter .right, .eol] }
    let requests : List Request := [.evaluate, .number, .evaluate, .number, .evaluate]
    let drained := session.serveAll requests
    session.depth = 0 ∧
      session.evaluate = .error .mismatchedParentheses (session.skip 2) ∧
      drained.remaining = [] ∧
      (session.chunks requests).flatten = session.tokens.toList ∧
      drained.evaluate = .error (.unexpectedToken .eol) drained ∧
      drained.number = .error (.expectedNumber .eol) drained := by
  intro session requests drained
  have hdepth : session.depth = 0 := rfl
  obtain ⟨-, -, -, -, hdrained, hend⟩ := requests_drain_session hdepth requests
  have hremaining : drained.remaining = [] := hdrained (by decide)
  obtain ⟨hflatten, hevaluate, hnumber, -⟩ := hend hremaining
  exact ⟨hdepth, session.evaluate_eq_reading hdepth, hremaining, hflatten, hevaluate, hnumber⟩

end InfixArithmetic
