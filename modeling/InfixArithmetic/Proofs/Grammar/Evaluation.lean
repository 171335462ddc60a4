import InfixArithmetic.Proofs.Grammar.Place
import InfixArithmetic.Proofs.Session.Passing
import InfixArithmetic.Proofs.Session.Rules

/-!
# Evaluation follows the grammar

No routine builds a tree, but each value comes with one: `Derivation.Explains` ties a derivation to
the tokens that were passed, to the value and to the folds on the way.  Conversely the routines find
a derivation wherever there is one whose groups are not nested too deep.  Main statement:
`evaluate_ok_iff_derivation`, evaluating is deriving, and there is one derivation at most.
-/

namespace InfixArithmetic

open Operator (loosest tightest)

/-! ## Every value has a derivation -/

structure Derivation.Explains {category : Category} (tree : Derivation category)
    (start : Session) (value : Float) (stop : Session) (folds : List Fold) : Prop where
  passes : start.Passes tree.tokens stop
  nesting_le : tree.nesting ≤ start.room
  value_eq : tree.value = value
  folds_eq : tree.folds = folds

namespace Derivation.Explains

variable {category : Category} {start stop next : Session} {value rhs : Float}
  {folds more : List Fold}

theorem single (hcategory : category ≠ .factor) {only : Derivation category.operand}
    (h : only.Explains start value stop folds) :
    (Derivation.single hcategory only).Explains start value stop folds :=
  ⟨h.passes, h.nesting_le, h.value_eq, h.folds_eq⟩

theorem binary {lhs : Derivation category} {operand : Derivation category.operand} {op : Operator}
    (hop : op ∈ category.operators) (hpeek : stop.peek = .operator op)
    (first : lhs.Explains start value stop folds)
    (second : operand.Explains stop.advance rhs next more) :
    (Derivation.binary lhs op hop operand).Explains start (op.apply value rhs) next
      (folds ++ more ++ [⟨value, op, rhs⟩]) := by
  have hpass := Session.Passes.advance_of_peek_eq hpeek (by simp)
  refine ⟨first.passes.append (hpass.append second.passes), ?_, ?_, ?_⟩
  · have hsecond := second.nesting_le
    rw [hpass.room_eq, first.passes.room_eq] at hsecond
    exact Nat.max_le.2 ⟨first.nesting_le, hsecond⟩
  · simp only [Derivation.value, first.value_eq, second.value_eq]
  · simp only [Derivation.folds, first.folds_eq, second.folds_eq, first.value_eq, second.value_eq]

theorem number (h : start.peek = .number value) :
    (Derivation.number value).Explains start value start.advance [] :=
  ⟨Session.Passes.advance_of_peek_eq h (by simp), Nat.zero_le _, rfl, rfl⟩

theorem group {body : Derivation .expression} (hopen : start.peek = .delimiter .left)
    (hdepth : start.advance.depth < start.advance.options.maxDepth)
    (hclose : stop.peek = .delimiter .right)
    (h : body.Explains start.advance.enter value stop folds) :
    (Derivation.group body).Explains start value stop.leave.advance folds := by
  have hfirst := Session.Passes.advance_of_peek_eq hopen (by simp)
  have hlast : stop.leave.Passes [.delimiter .right] stop.leave.advance :=
    Session.Passes.advance_of_peek_eq hclose (by simp)
  refine ⟨?_, ?_, h.value_eq, h.folds_eq⟩
  · exact (hfirst.append h.passes.leave).append hlast
  · rw [← hfirst.room_eq, Session.room_enter hdepth]
    exact Nat.add_le_add_right h.nesting_le 1

end Derivation.Explains

/-- The derivation behind a value of a routine; that of a chain goes on from the derivation of what
came before, and that of a group starts at its opening parenthesis. -/
def Routine.Explains : Routine → Session → Float → Session → List Fold → Prop
  | expression level, start, value, stop, folds => ∀ category : Category, category ≠ .factor →
      category.level = level → ∃ tree : Derivation category, tree.Explains start value stop folds
  | operand level, start, value, stop, folds => ∀ category : Category, category ≠ .factor →
      category.level = level →
      ∃ tree : Derivation category.operand, tree.Explains start value stop folds
  | chain level lhs, session, value, stop, folds => ∀ (category : Category)
      (first : Derivation category) (start : Session) (before : List Fold),
      category.level = level → first.Explains start lhs session before →
      ∃ tree : Derivation category, tree.Explains start value stop (before ++ folds)
  | primary, start, value, stop, folds =>
      ∃ tree : Derivation .factor, tree.Explains start value stop folds
  | group, session, value, stop, folds => ∀ start : Session, start.peek = .delimiter .left →
      start.advance = session → ∃ tree : Derivation .factor, tree.Explains start value stop folds

theorem Answers.explains {routine : Routine} {session : Session} {evaluation : Evaluation}
    (h : Answers routine session evaluation) {value : Float} (hok : evaluation.outcome = .ok value) :
    routine.Explains session value evaluation.session evaluation.folds := by
  induction h generalizing value with
  | expression _ _ ihOperand ihChain =>
      intro category hfactor hlevel
      obtain ⟨operand, hoperand⟩ := ihOperand rfl category hfactor hlevel
      exact ihChain hok category _ _ _ hlevel (hoperand.single hfactor)
  | stop _ =>
      intro category first start folds _ hfirst
      cases hok
      exact ⟨first, by simpa using hfirst⟩
  | @fold level lhs session op rhs rest folds outcome stop more hop _ _ ihOperand ihChain =>
      intro category first start before hlevel hfirst
      obtain ⟨hpeek, hop⟩ := Session.operatorAt?_eq_some_iff.1 hop
      have hmem : op ∈ category.operators := Category.mem_operators_iff.2 (hop.trans hlevel.symm)
      have hfactor := Category.ne_factor_of_mem_operators hmem
      obtain ⟨operand, hoperand⟩ := ihOperand rfl category hfactor hlevel
      obtain ⟨tree, htree⟩ := ihChain hok category _ _ _ hlevel
        (hfirst.binary hmem hpeek hoperand)
      exact ⟨tree, by simpa using htree⟩
  | tighter hlt _ ih =>
      intro category hfactor hlevel
      subst hlevel
      exact ih hok category.operand (Category.operand_ne_factor hlt) (Category.level_operand hfactor)
  | tightest hle _ ih =>
      intro category hfactor hlevel
      subst hlevel
      obtain rfl := Category.eq_term hfactor hle
      exact ih hok
  | number hpeek =>
      cases hok
      exact ⟨_, .number hpeek⟩
  | @opening session _ hpeek _ ih => exact ih hok session hpeek rfl
  | closed hdepth hclose _ ih =>
      intro start hopen hstart
      subst hstart
      cases hok
      obtain ⟨body, hbody⟩ := ih rfl .expression (by decide) rfl
      exact ⟨_, hbody.group hopen hdepth hclose⟩
  | expressionError | foldError | unexpected | tooDeep | unclosed | groupError => contradiction

/-! ## Every derivation that fits is found -/

def Category.routine : Category → Routine
  | factor => .primary
  | category => .expression category.level

theorem Answers.of_operand {category : Category} (hfactor : category ≠ .factor) {session : Session}
    {evaluation : Evaluation} (h : Answers category.operand.routine session evaluation) :
    Answers (.operand category.level) session evaluation := by
  cases category with
  | expression => exact .tighter (by decide) h
  | term => exact .tightest (Nat.le_refl _) h
  | factor => contradiction

/-- The tree between two sessions is read as a factor, or as what its chain starts with. -/
structure Derivation.IsRead {category : Category} (tree : Derivation category)
    (start stop : Session) : Prop where
  primary : category = .factor → Answers .primary start ⟨.ok tree.value, stop, tree.folds⟩
  chain : category ≠ .factor → ∀ {outcome last more},
    Answers (.chain category.level tree.value) stop ⟨outcome, last, more⟩ →
    Answers (.expression category.level) start ⟨outcome, last, tree.folds ++ more⟩

namespace Derivation

variable {category : Category} {start stop : Session}

theorem IsRead.routine {tree : Derivation category} (h : tree.IsRead start stop)
    (hfollow : stop.LooserThan category.level) :
    Answers category.routine start ⟨.ok tree.value, stop, tree.folds⟩ := by
  by_cases hfactor : category = .factor
  · subst hfactor
    exact h.primary rfl
  · have hread := h.chain hfactor (.stop hfollow.operatorAt?_eq_none)
    rw [List.append_nil] at hread
    cases category with
    | expression | term => exact hread
    | factor => contradiction

theorem IsRead.operand (hfactor : category ≠ .factor) {tree : Derivation category.operand}
    (h : tree.IsRead start stop) (hfollow : stop.LooserThan (category.level + 1)) :
    Answers (.operand category.level) start ⟨.ok tree.value, stop, tree.folds⟩ := by
  rw [← Category.level_operand hfactor] at hfollow
  exact .of_operand hfactor (h.routine hfollow)

theorem IsRead.single (hfactor : category ≠ .factor) {only : Derivation category.operand}
    (h : only.IsRead start stop) (hfollow : stop.LooserThan (category.level + 1)) :
    (single hfactor only).IsRead start stop := by
  refine ⟨fun h => absurd h hfactor, fun _ {outcome last more} hchain => ?_⟩
  exact .expression (h.operand hfactor hfollow) hchain

theorem IsRead.binary {lhs : Derivation category} {op : Operator} (hop : op ∈ category.operators)
    {rhs : Derivation category.operand} {mid : Session} (hlhs : lhs.IsRead start mid)
    (hpeek : mid.peek = .operator op) (hrhs : rhs.IsRead mid.advance stop)
    (hfollow : stop.LooserThan (category.level + 1)) :
    (binary lhs op hop rhs).IsRead start stop := by
  have hfactor := Category.ne_factor_of_mem_operators hop
  have hlevel := Category.mem_operators_iff.1 hop
  refine ⟨fun h => absurd h hfactor, fun _ {outcome last more} hchain => ?_⟩
  have hfold := Answers.fold (Session.operatorAt?_eq_some_iff.2 ⟨hpeek, hlevel⟩)
    (hrhs.operand hfactor hfollow) hchain
  simpa [folds] using hlhs.chain hfactor hfold

theorem IsRead.group {body : Derivation .expression} {mid : Session}
    (hopen : start.peek = .delimiter .left)
    (hdepth : start.advance.depth < start.advance.options.maxDepth)
    (hbody : body.IsRead start.advance.enter mid.enter) (hclose : mid.peek = .delimiter .right) :
    (group body).IsRead start mid.advance := by
  have hclosing : mid.enter.peek = .delimiter .right := hclose
  have hfollow : ∀ op, mid.enter.peek ≠ .operator op := by simp [hclosing]
  have hgroup := Answers.closed hdepth hclosing
    (hbody.routine (Session.looserThan_of_ne_operator hfollow))
  rw [Session.leave_enter] at hgroup
  exact ⟨fun _ => .opening hopen hgroup, fun h => absurd rfl h⟩

/-- The condition on what follows keeps a tighter operator from taking the last operand away. -/
theorem isRead (tree : Derivation category) (hpasses : start.Passes tree.tokens stop)
    (hnesting : tree.nesting ≤ start.room) (hfollow : stop.LooserThan (category.level + 1)) :
    tree.IsRead start stop := by
  induction tree generalizing start stop with
  | @single category hfactor only ih =>
      have hlevel := Nat.succ_le_succ category.level_le_level_operand
      exact (ih hpasses hnesting (hfollow.of_le hlevel)).single hfactor hfollow
  | @binary category lhs op hop rhs ihLhs ihRhs =>
      have hop' := Category.mem_operators_iff.1 hop
      have hlevel := Nat.succ_le_succ category.level_le_level_operand
      obtain ⟨mid, hlhs, hrest⟩ := hpasses.exists_of_append
      obtain ⟨hpeek, hrhs⟩ := hrest.of_cons
      have hadvance := Session.Passes.advance_of_peek_eq hpeek (by simp)
      obtain ⟨hlhsNesting, hrhsNesting⟩ := Nat.max_le.1 hnesting
      have hlhsRead : lhs.IsRead start mid := by
        apply ihLhs hlhs hlhsNesting
        intro op' hpeek'
        obtain rfl : op = op' := by simpa [hpeek] using hpeek'
        omega
      have hrhsRead : rhs.IsRead mid.advance stop := by
        apply ihRhs hrhs ?_ (hfollow.of_le hlevel)
        rwa [hadvance.room_eq, hlhs.room_eq]
      exact hlhsRead.binary hop hpeek hrhsRead hfollow
  | number value =>
      obtain ⟨hpeek, rfl⟩ := hpasses.of_singleton
      exact ⟨fun _ => .number hpeek, fun h => absurd rfl h⟩
  | group body ih =>
      obtain ⟨mid, hopened, hclosed⟩ := hpasses.exists_of_append
      obtain ⟨hopen, hbody⟩ := hopened.of_cons
      obtain ⟨hclose, rfl⟩ := hclosed.of_singleton
      have hroom : start.advance.room = start.room :=
        (Session.Passes.advance_of_peek_eq hopen (by simp)).room_eq
      have hdepth : start.advance.depth < start.advance.options.maxDepth := by
        rw [← Session.room_pos_iff, hroom]
        exact Nat.lt_of_lt_of_le (Nat.succ_pos _) hnesting
      have hbodyNesting : body.nesting ≤ start.advance.enter.room := by
        have hroomEnter := Session.room_enter hdepth
        simp only [nesting] at hnesting
        omega
      have hfollow' : ∀ op, mid.enter.peek ≠ .operator op := by
        intro op hpeek
        rw [show mid.enter.peek = .delimiter .right from hclose] at hpeek
        contradiction
      have hbodyRead := ih hbody.enter hbodyNesting (Session.looserThan_of_ne_operator hfollow')
      exact hbodyRead.group hopen hdepth hclose

end Derivation

/-! ## Evaluating is deriving -/

namespace Session

variable {session last : Session} {value : Float}

theorem evaluate_eq_of_passes {tree : Derivation .expression}
    (hpasses : session.Passes tree.tokens last) (hnesting : tree.nesting ≤ session.room)
    (hfollow : ∀ op, last.peek ≠ .operator op) :
    session.evaluate = ⟨.ok tree.value, last, tree.folds⟩ := by
  have hread := tree.isRead hpasses hnesting (looserThan_of_ne_operator hfollow)
  exact (hread.routine (looserThan_of_ne_operator hfollow)).run_eq

theorem exists_explains_of_evaluate (h : session.evaluate.outcome = .ok value) :
    ∃ tree : Derivation .expression,
      tree.Explains session value session.evaluate.session session.evaluate.folds :=
  (answers_run (.expression loosest) session).explains h .expression (by decide) rfl

theorem peek_evaluate_ne_operator (h : session.evaluate.outcome = .ok value) (op : Operator) :
    session.evaluate.session.peek ≠ .operator op :=
  (answers_run (.expression loosest) session).peek_ne_operator h op

end Session

/-- The tree derives the tokens from the cursor up to a position, and no operator follows them. -/
structure Derivation.Spans (tree : Derivation .expression) (cursor : Cursor) (stop : Nat) :
    Prop where
  stop_le : stop ≤ cursor.tokens.size
  tokens_eq : tree.tokens = (cursor.tokens.extract cursor.position stop).toList
  follow : ∀ op, cursor.tokens[stop]?.getD .eol ≠ .operator op

theorem Derivation.Spans.passes {tree : Derivation .expression} {session : Session} {stop : Nat}
    (h : tree.Spans session.toCursor stop) :
    ∃ last, session.Passes tree.tokens last ∧ last.position = stop ∧
      ∀ op, last.peek ≠ .operator op := by
  have hstop := h.stop_le
  have hpos := List.length_pos_iff.2 tree.tokens_ne_nil
  have hlength : tree.tokens.length = stop - session.position := by
    rw [h.tokens_eq, Array.length_toList, Array.size_extract]
    omega
  have htake : tree.tokens = session.remaining.take tree.tokens.length := by
    rw [hlength, h.tokens_eq, Array.toList_extract, List.extract_eq_take_drop]
    rfl
  have hpasses := Session.Passes.skip session tree.tokens.length
  rw [← htake] at hpasses
  have hposition : (session.skip tree.tokens.length).position = stop := by
    rw [hpasses.position_eq]
    omega
  refine ⟨_, hpasses, hposition, ?_⟩
  intro op hpeek
  apply h.follow op
  rw [← hposition]
  exact hpeek

theorem Session.Passes.spans {tree : Derivation .expression} {session last : Session}
    (h : session.Passes tree.tokens last) (hfollow : ∀ op, last.peek ≠ .operator op) :
    tree.Spans session.toCursor last.position := by
  have hpos := List.length_pos_iff.2 tree.tokens_ne_nil
  have hlength := h.length_le_left
  have hposition := h.position_eq
  refine ⟨?_, h.eq_extract, ?_⟩
  · simp only [Cursor.left] at hlength
    omega
  · intro op hop
    apply hfollow op
    rw [← h.tokens_eq] at hop
    exact hop

theorem evaluate_ok_iff_derivation (session : Session) (hdepth : session.depth = 0) :
    (∀ value stop,
      session.evaluate.outcome = .ok value ∧ session.evaluate.session.position = stop ↔
        ∃ tree : Derivation .expression, tree.Spans session.toCursor stop ∧
          tree.nesting ≤ session.options.maxDepth.toNat ∧ tree.value = value) ∧
    ∀ (first second : Derivation .expression) (stop stop' : Nat),
      first.Spans session.toCursor stop → second.Spans session.toCursor stop' →
        stop = stop' ∧ first = second := by
  have hroom := Session.room_of_depth_eq_zero hdepth
  refine ⟨fun value stop => ⟨?_, ?_⟩, ?_⟩
  · rintro ⟨hok, rfl⟩
    obtain ⟨tree, htree⟩ := Session.exists_explains_of_evaluate hok
    have hspans := htree.passes.spans (Session.peek_evaluate_ne_operator hok)
    exact ⟨tree, hspans, hroom ▸ htree.nesting_le, htree.value_eq⟩
  · rintro ⟨tree, hspans, hnesting, rfl⟩
    obtain ⟨last, hpasses, rfl, hfollow⟩ := hspans.passes
    rw [Session.evaluate_eq_of_passes hpasses (hroom ▸ hnesting) hfollow]
    exact ⟨rfl, rfl⟩
  · intro first second stop stop' hfirst hsecond
    obtain ⟨last, hpasses, rfl, hfollow⟩ := hfirst.passes
    obtain ⟨last', hpasses', rfl, hfollow'⟩ := hsecond.passes
    have hremaining := hpasses.remaining_eq.symm.trans hpasses'.remaining_eq
    simp only [Session.peek_eq_head?_remaining] at hfollow hfollow'
    obtain rfl := Derivation.eq_of_tokens_append_eq hremaining hfollow hfollow'
    exact ⟨hpasses.position_eq.trans hpasses'.position_eq.symm, rfl⟩

/-- The tree of `(first + second) * third`. -/
def Derivation.scaledSum (first second third : Float) : Derivation .expression :=
  .single (by decide) (.binary (.single (by decide) (.group (.binary
    (.single (by decide) (.single (by decide) (.number first))) .add (by decide)
    (.single (by decide) (.number second))))) .mul (by decide) (.number third))

theorem evaluate_ok_scaledSum :
    let session : Session :=
      { tokens := #[.number 9, .operator .mul, .delimiter .left, .number 2, .operator .add,
          .number 3, .delimiter .right, .operator .mul, .number 4, .delimiter .right, .eol]
        position := 2
        options := { maxDepth := 1 } }
    session.depth = 0 ∧ session.evaluate.outcome = .ok ((2 + 3) * 4) ∧
      session.evaluate.session.position = 9 :=
  ⟨rfl, ((evaluate_ok_iff_derivation _ rfl).1 _ _).2
    ⟨.scaledSum 2 3 4, ⟨by decide, rfl, by simp⟩, by decide, rfl⟩⟩

end InfixArithmetic
