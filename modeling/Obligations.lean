import Obligations.Text.Quoted
import Obligations.Text.Utf8
import Obligations.Expr.Eval
import Obligations.Implementation.Order
import Obligations.Program.Printer
import Obligations.Condition.Generation
import Obligations.Oracle.Session
import Obligations.Oracle.Bounded
import Obligations.Solver.Script
import Obligations.Solver.Response
import Obligations.Summary.Constants
import Obligations.Summary.Predicates
import Obligations.Inference.Fixpoint
import Obligations.Settings.Options
import Obligations.Proofs.Expr.Connectives
import Obligations.Proofs.Implementation.Path
import Obligations.Proofs.Condition.Inline
import Obligations.Proofs.Condition.BlockVariables
import Obligations.Proofs.Expr.Interpretation
import Obligations.Proofs.Expr.Standard
import Obligations.Proofs.Cmd.Run
import Obligations.Proofs.NameMap
import Obligations.Proofs.Call.Expansion
import Obligations.Proofs.Call.Contract
import Obligations.Proofs.Call.Scope
import Obligations.Proofs.Name
import Obligations.Proofs.Passive.Simulation
import Obligations.Proofs.Passive.Versions
import Obligations.Proofs.Passive.Assignment
import Obligations.Proofs.Passive.Command
import Obligations.Proofs.Implementation.Outline
import Obligations.Proofs.Passive.Join
import Obligations.Proofs.Passive.Liveness
import Obligations.Proofs.Passive.Body
import Obligations.Proofs.Passive.Failure
import Obligations.Proofs.Expr.Substitution
import Obligations.Proofs.Summary.Admission
import Obligations.Proofs.Summary.Constants
import Obligations.Proofs.Summary.Predicates
import Obligations.Proofs.Summary.Weakening
import Obligations.Proofs.Expr.Typing
import Obligations.Proofs.Oracle.Enumeration
import Obligations.Proofs.Oracle.Table
import Obligations.Proofs.Oracle.Exhaustion
import Obligations.Proofs.Vocabulary.Basic
import Obligations.Proofs.Vocabulary.Preparation
import Obligations.Proofs.Expr.Functions
import Obligations.Proofs.Implementation.Transfer
import Obligations.Proofs.Condition.Functions
import Obligations.Proofs.Inference.Sites
import Obligations.Proofs.Inference.History
import Obligations.Proofs.Inference.Fixpoint
import Obligations.Proofs.Implementation.Edges
import Obligations.Proofs.Passive.Step
import Obligations.Proofs.Passive.Trace
import Obligations.Proofs.Passive.SingleAssignment
import Obligations.Proofs.Condition.BlockNames
import Obligations.Proofs.Condition.ErrorTrace
import Obligations.Proofs.Inference.Rounds
import Obligations.Proofs.Inference.Termination
import Obligations.Proofs.Implementation.Consistency
import Obligations.Proofs.Implementation.Trail
import Obligations.Proofs.Contract.Splice
import Obligations.Proofs.Contract.Threading
import Obligations.Proofs.Passive.Pruning
import Obligations.Proofs.Implementation.Normal
import Obligations.Proofs.Passive.Discipline
import Obligations.Proofs.Expr.Refinement
import Obligations.Proofs.Passive.NormalForm
import Obligations.Proofs.Summary.Rendering
import Obligations.Proofs.Cmd.Renaming
import Obligations.Proofs.Passive.Renaming
import Obligations.Proofs.Condition.Turning
import Obligations.Proofs.Inference.Meaning
import Obligations.Proofs.Inference.Strongest
import Obligations.Proofs.Inference.Heights
import Obligations.Proofs.Inference.Schedule
import Obligations.Proofs.Call.Numbering
import Obligations.Proofs.Passive.FreshNames
import Obligations.Proofs.Inference.Coherence
import Obligations.Proofs.Inference.Projection
import Obligations.Proofs.Solver.Reading
import Obligations.Proofs.Solver.Writing
import Obligations.Proofs.Solver.Term
import Obligations.Proofs.Solver.Script
import Obligations.Proofs.Solver.Response
import Obligations.Proofs.Solver.Theories
import Obligations.Proofs.Typing.Signature
import Obligations.Proofs.Typing.Program
import Obligations.Proofs.Typing.Call
import Obligations.Proofs.Typing.Preparation
import Obligations.Proofs.Typing.Versions
import Obligations.Proofs.Typing.Passive
import Obligations.Proofs.Typing.Condition
import Obligations.Proofs.Implementation.Editing
import Obligations.Proofs.Implementation.LeastOrder
import Obligations.Proofs.Summary.HittingSets
import Obligations.Proofs.Summary.Guards
import Obligations.Proofs.Condition.Labels
import Obligations.Proofs.Implementation.Normalization
import Obligations.Proofs.Expr.Image
import Obligations.Proofs.Summary.Exactness
import Obligations.Proofs.Cmd.Correspondence
import Obligations.Proofs.Contract.Renaming
import Obligations.Proofs.Implementation.Cycles
import Obligations.Proofs.Implementation.Idempotence
import Obligations.Proofs.Summary.Bottom
import Obligations.Proofs.Solver.Language
import Obligations.Proofs.Text.Ty
import Obligations.Proofs.Text.Expr
import Obligations.Proofs.Inference.EndState
import Obligations.Proofs.Passive.LiveStates
