import EmbeddedLisp.Error
import EmbeddedLisp.Evaluation
import EmbeddedLisp.Evaluation.Event
import EmbeddedLisp.Evaluation.Form
import EmbeddedLisp.Evaluation.Machine
import EmbeddedLisp.Expression
import EmbeddedLisp.Host
import EmbeddedLisp.Host.Sample
import EmbeddedLisp.Interpreter
import EmbeddedLisp.Interpreter.Options
import EmbeddedLisp.Interpreter.Session
import EmbeddedLisp.Kind
import EmbeddedLisp.Number
import EmbeddedLisp.Number.Binary64
import EmbeddedLisp.Number.Binary64.Scaling
import EmbeddedLisp.Number.Decimal
import EmbeddedLisp.Number.Decimal.Notation
import EmbeddedLisp.Number.Fixnum
import EmbeddedLisp.Number.Magnitude
import EmbeddedLisp.Procedure.Arithmetic
import EmbeddedLisp.Procedure.Arity
import EmbeddedLisp.Procedure.Builtin
import EmbeddedLisp.Procedure.Comparison
import EmbeddedLisp.Procedure.Keyword
import EmbeddedLisp.Procedure.Library
import EmbeddedLisp.Procedure.Operands
import EmbeddedLisp.Procedure.Operation
import EmbeddedLisp.Procedure.Registry
import EmbeddedLisp.Proofs.Evaluation.Application
import EmbeddedLisp.Proofs.Evaluation.Coupling
import EmbeddedLisp.Proofs.Evaluation.Course
import EmbeddedLisp.Proofs.Evaluation.Culprit
import EmbeddedLisp.Proofs.Evaluation.Demand
import EmbeddedLisp.Proofs.Evaluation.Depth
import EmbeddedLisp.Proofs.Evaluation.DerivedForms
import EmbeddedLisp.Proofs.Evaluation.Diagonal
import EmbeddedLisp.Proofs.Evaluation.Discipline
import EmbeddedLisp.Proofs.Evaluation.Failures
import EmbeddedLisp.Proofs.Evaluation.Footprint
import EmbeddedLisp.Proofs.Evaluation.Irrelevance
import EmbeddedLisp.Proofs.Evaluation.Levels
import EmbeddedLisp.Proofs.Evaluation.LocalBindings
import EmbeddedLisp.Proofs.Evaluation.Locality
import EmbeddedLisp.Proofs.Evaluation.Lockstep
import EmbeddedLisp.Proofs.Evaluation.Numbering
import EmbeddedLisp.Proofs.Evaluation.Origin
import EmbeddedLisp.Proofs.Evaluation.Provenance
import EmbeddedLisp.Proofs.Evaluation.Quotation
import EmbeddedLisp.Proofs.Evaluation.Renumbering
import EmbeddedLisp.Proofs.Evaluation.Scoping
import EmbeddedLisp.Proofs.Evaluation.Settled
import EmbeddedLisp.Proofs.Evaluation.Unfolding
import EmbeddedLisp.Proofs.Expression.Parts
import EmbeddedLisp.Proofs.Expression.Texts
import EmbeddedLisp.Proofs.Interpreter.Client
import EmbeddedLisp.Proofs.Interpreter.Identity
import EmbeddedLisp.Proofs.Interpreter.Isolation
import EmbeddedLisp.Proofs.Interpreter.Parameters
import EmbeddedLisp.Proofs.Interpreter.Pieces
import EmbeddedLisp.Proofs.Interpreter.Program
import EmbeddedLisp.Proofs.Interpreter.Routines
import EmbeddedLisp.Proofs.Interpreter.Shadowing
import EmbeddedLisp.Proofs.Number.Nearest
import EmbeddedLisp.Proofs.Number.Notation
import EmbeddedLisp.Proofs.Number.Numeral
import EmbeddedLisp.Proofs.Number.Order
import EmbeddedLisp.Proofs.Number.Rounding
import EmbeddedLisp.Proofs.Number.Scaling
import EmbeddedLisp.Proofs.Procedure.Acceptance
import EmbeddedLisp.Proofs.Procedure.Alike
import EmbeddedLisp.Proofs.Procedure.Exactness
import EmbeddedLisp.Proofs.Procedure.Extrema
import EmbeddedLisp.Proofs.Procedure.Operators
import EmbeddedLisp.Proofs.Procedure.Parametricity
import EmbeddedLisp.Proofs.Procedure.PowersOfTwo
import EmbeddedLisp.Proofs.Procedure.Rounds
import EmbeddedLisp.Proofs.Procedure.Wording
import EmbeddedLisp.Proofs.Reader.Calls
import EmbeddedLisp.Proofs.Reader.Classification
import EmbeddedLisp.Proofs.Reader.Comments
import EmbeddedLisp.Proofs.Reader.Continuation
import EmbeddedLisp.Proofs.Reader.Derivation
import EmbeddedLisp.Proofs.Reader.Descent
import EmbeddedLisp.Proofs.Reader.Diagnosis
import EmbeddedLisp.Proofs.Reader.Faithful
import EmbeddedLisp.Proofs.Reader.Layout
import EmbeddedLisp.Proofs.Reader.Prolongation
import EmbeddedLisp.Proofs.Reader.RoundTrip
import EmbeddedLisp.Proofs.Reader.Snippet
import EmbeddedLisp.Proofs.Reader.Tokenization
import EmbeddedLisp.Proofs.Reader.Word
import EmbeddedLisp.Proofs.Scope.Contents
import EmbeddedLisp.Proofs.Scope.Correspondence
import EmbeddedLisp.Proofs.Scope.Growth
import EmbeddedLisp.Proofs.Scope.Listing
import EmbeddedLisp.Proofs.Scope.Ownership
import EmbeddedLisp.Proofs.Scope.Renumbering
import EmbeddedLisp.Proofs.Scope.Walks
import EmbeddedLisp.Proofs.Text.ByteOrder
import EmbeddedLisp.Proofs.Value.Equality
import EmbeddedLisp.Reader
import EmbeddedLisp.Reader.Atom
import EmbeddedLisp.Reader.Combinators
import EmbeddedLisp.Reader.SyntaxError
import EmbeddedLisp.Reader.Token
import EmbeddedLisp.Scope.Bindings
import EmbeddedLisp.Scope.Store
import EmbeddedLisp.Text.Blank
import EmbeddedLisp.Text.Occurrence
import EmbeddedLisp.Text.Printable
import EmbeddedLisp.Text.Quoted
import EmbeddedLisp.Value
