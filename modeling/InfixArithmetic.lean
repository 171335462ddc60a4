import InfixArithmetic.Report
import InfixArithmetic.Proofs.Session.Passing
import InfixArithmetic.Proofs.Session.Rules
import InfixArithmetic.Proofs.Grammar
import InfixArithmetic.Proofs.Grammar.Place
import InfixArithmetic.Proofs.Grammar.Evaluation
import InfixArithmetic.Proofs.Grammar.ViablePrefix
import InfixArithmetic.Proofs.Grammar.Nesting
import InfixArithmetic.Proofs.Scan.Tiling
import InfixArithmetic.Proofs.Rendering
import InfixArithmetic.Proofs.Scan.Offending
import InfixArithmetic.Proofs.OperatorStack
import InfixArithmetic.Proofs.OperatorStack.Simulation
import InfixArithmetic.Proofs.Session.History
import InfixArithmetic.Proofs.Grammar.Openings
import InfixArithmetic.Proofs.OperatorStack.Limit
import InfixArithmetic.Proofs.Scan.Joining
import InfixArithmetic.Proofs.EndMarker
import InfixArithmetic.Proofs.Session.Shape
import InfixArithmetic.Proofs.Log
import InfixArithmetic.Proofs.Float.Unsigned
import InfixArithmetic.Proofs.Float.ReadBack
import InfixArithmetic.Proofs.Scan.Alphabet
import InfixArithmetic.Proofs.Scan.Printing
import InfixArithmetic.Proofs.Cursor
import InfixArithmetic.Proofs.OperatorStack.Groups
import InfixArithmetic.Proofs.Session.Points
import InfixArithmetic.Proofs.Session.Draining
import InfixArithmetic.Proofs.Session.Layers
