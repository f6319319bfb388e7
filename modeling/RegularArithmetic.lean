import RegularArithmetic.Alphabet
import RegularArithmetic.Alphabets
import RegularArithmetic.Automaton.Basic
import RegularArithmetic.Automaton.Boolean
import RegularArithmetic.Automaton.Exploration
import RegularArithmetic.Automaton.Projection
import RegularArithmetic.Automaton.Reduction
import RegularArithmetic.Automaton.Search
import RegularArithmetic.Automaton.ZeroPadding
import RegularArithmetic.Binary
import RegularArithmetic.Diagram.Calls
import RegularArithmetic.Diagram.Choice
import RegularArithmetic.Diagram.Edge
import RegularArithmetic.Diagram.Paths
import RegularArithmetic.Diagram.Store
import RegularArithmetic.Diagram.Substitution
import RegularArithmetic.Diagram.Text
import RegularArithmetic.Expression.Basic
import RegularArithmetic.Expression.Connectives
import RegularArithmetic.Expression.Domain
import RegularArithmetic.Expression.Outline
import RegularArithmetic.Expression.Simplification
import RegularArithmetic.Expression.Substitution
import RegularArithmetic.Expression.Text
import RegularArithmetic.Failure
import RegularArithmetic.Interchange.Document
import RegularArithmetic.Interchange.Drawing
import RegularArithmetic.Interchange.Label
import RegularArithmetic.Interchange.Reader
import RegularArithmetic.Interchange.Writer
import RegularArithmetic.NumberSet
import RegularArithmetic.Program.Arithmetic
import RegularArithmetic.Program.Basic
import RegularArithmetic.Program.Definition
import RegularArithmetic.Program.Engine
import RegularArithmetic.Program.Evaluation
import RegularArithmetic.Program.Inference
import RegularArithmetic.Registry
import RegularArithmetic.Session.Definition
import RegularArithmetic.Session.Files
import RegularArithmetic.Session.Report
import RegularArithmetic.Session.Run
import RegularArithmetic.Store.DirectMapped
import RegularArithmetic.Store.Interner
import RegularArithmetic.Store.Pairing
import RegularArithmetic.Store.Sorting
import RegularArithmetic.Text.Blank
import RegularArithmetic.Text.Hidden
import RegularArithmetic.Text.Printable
import RegularArithmetic.Text.Quoted
import RegularArithmetic.Truth
import RegularArithmetic.Typing.Dispatch
import RegularArithmetic.Typing.Restrictions
import RegularArithmetic.Typing.Settling
import RegularArithmetic.Typing.Unification
import RegularArithmetic.Proofs.Computation
import RegularArithmetic.Proofs.Diagram.Value
import RegularArithmetic.Proofs.Diagram.Canonicity
import RegularArithmetic.Proofs.Diagram.Choice
import RegularArithmetic.Proofs.Alphabet
import RegularArithmetic.Proofs.Automaton.Boolean
import RegularArithmetic.Proofs.Automaton.Construction
import RegularArithmetic.Proofs.Automaton.Numbers
import RegularArithmetic.Proofs.Binary
import RegularArithmetic.Proofs.Meaning.Denotation
import RegularArithmetic.Proofs.Meaning.Exact
import RegularArithmetic.Proofs.Program.Arithmetic
import RegularArithmetic.Proofs.Program.Evaluation
import RegularArithmetic.Proofs.Session.Plain
import RegularArithmetic.Proofs.Diagram.Agreement
import RegularArithmetic.Proofs.Diagram.Recomputation
import RegularArithmetic.Proofs.Diagram.Requests
import RegularArithmetic.Proofs.Automaton.Answers
import RegularArithmetic.Proofs.Automaton.Quantification
import RegularArithmetic.Proofs.Automaton.Reduction
import RegularArithmetic.Proofs.Session.Padding
import RegularArithmetic.Proofs.Interchange.Names
import RegularArithmetic.Proofs.Interchange.Rereading
import RegularArithmetic.Proofs.Interchange.Roundtrip
import RegularArithmetic.Proofs.Program.Undisturbed
import RegularArithmetic.Proofs.Session.Budget
import RegularArithmetic.Proofs.Session.Memory
import RegularArithmetic.Proofs.Session.Importing
import RegularArithmetic.Proofs.Program.Circularity
import RegularArithmetic.Proofs.Diagram.Calls
import RegularArithmetic.Proofs.Diagram.Connectives
import RegularArithmetic.Proofs.Diagram.Rewriting
import RegularArithmetic.Proofs.Diagram.Covering
import RegularArithmetic.Proofs.Diagram.Literals
import RegularArithmetic.Proofs.Automaton.Subsets
import RegularArithmetic.Proofs.Automaton.Infinite
import RegularArithmetic.Proofs.Automaton.Renaming
import RegularArithmetic.Proofs.Session.Witness
import RegularArithmetic.Proofs.Session.Footprint
import RegularArithmetic.Proofs.Binary.Letters
import RegularArithmetic.Proofs.Session.Ranges
import RegularArithmetic.Proofs.Session.Multiples
import RegularArithmetic.Proofs.Session.Constants
import RegularArithmetic.Proofs.Typing.Unification
import RegularArithmetic.Proofs.Typing.Declarations
import RegularArithmetic.Proofs.Program.Repetition
import RegularArithmetic.Proofs.Typing.Patterns
import RegularArithmetic.Proofs.Program.Aliases
import RegularArithmetic.Proofs.Program.RestrictedBody
import RegularArithmetic.Proofs.Expression.Parts
import RegularArithmetic.Proofs.Expression.Simplification
import RegularArithmetic.Proofs.Expression.Sorts
import RegularArithmetic.Proofs.Expression.Renaming
import RegularArithmetic.Proofs.Typing.Restrictions
import RegularArithmetic.Proofs.Automaton.Saturation
import RegularArithmetic.Proofs.Store.Numbering
import RegularArithmetic.Proofs.Store.Eviction
import RegularArithmetic.Proofs.Store.Pairing
import RegularArithmetic.Proofs.Registry
