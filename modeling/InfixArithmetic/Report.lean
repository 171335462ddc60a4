import InfixArithmetic.Session.Evaluate

/-!
# Reports

The value of a whole text, and the log of how it was found.
-/

namespace InfixArithmetic

structure Report where
  outcome : Except EvalError Float
  log : List Record

/-- The records of a scan: its tokens if they are asked for, and a summary if it went through. -/
def Scan.records (scan : Scan) (text : List Char) (debug : Bool) : List Record :=
  (if debug then scan.lexemeTokens.mapIdx Record.scanned else []) ++
    match scan.offending? with
    | none => [.summary scan.tokens.length (String.ofList text)]
    | some _ => []

def report (text : String) (options : Options) : Report :=
  let scanned := (Scan.ofText text).records (visible text) options.debug
  match Session.ofText text options with
  | .error error => ⟨.error error, scanned⟩
  | .ok session =>
      let evaluation := session.evaluate
      ⟨evaluation.outcome, scanned ++ evaluation.folds.map Record.fold⟩

/-- The value of the expression that opens a text, under the default options. -/
def evaluate (text : String) : Except EvalError Float := do
  let session ← Session.ofText text {}
  session.evaluate.outcome

end InfixArithmetic
