import PegCompiler.Source.Location
import PegCompiler.Diagnostic
import PegCompiler.Text.Case
import PegCompiler.Text.Lowercase
import PegCompiler.Text.Blank
import PegCompiler.Types.Ty
import PegCompiler.Target.Fault
import PegCompiler.Target.StringLiteral
import PegCompiler.Target.Names
import PegCompiler.Target.Imports
import PegCompiler.Target.Doc
import PegCompiler.Target.Stmt
import PegCompiler.Lowering.Locals
import PegCompiler.Lowering.Interner
import PegCompiler.Lowering.ConstantPool
import PegCompiler.Lowering.UserCode
import PegCompiler.Decimal.Binary64
import PegCompiler.Json.Basic
import PegCompiler.Json.Numeral
import PegCompiler.Json.Parser
import PegCompiler.Json.Printer
import PegCompiler.Grammar.Expr
import PegCompiler.Grammar.Basic
import PegCompiler.Grammar.Decode
import PegCompiler.Types.Table
import PegCompiler.Types.Infer
import PegCompiler.Lowering.Error
import PegCompiler.Lowering.Instr
import PegCompiler.Lowering.Scope
import PegCompiler.Lowering.Rule
import PegCompiler.Options
import PegCompiler.Target.ParserClass
import PegCompiler.Compile
import PegCompiler.Diagnostic.Render
import PegCompiler.Toml.Basic
import PegCompiler.Toml.Parser
import PegCompiler.Command.Arguments
import PegCompiler.Command
import PegCompiler.Main
import PegCompiler.Proofs.Grammar.Induction
import PegCompiler.Proofs.Lowering.Outcome
import PegCompiler.Proofs.Lowering.Balance
import PegCompiler.Proofs.Semantics.Execution
import PegCompiler.Proofs.Lowering.Effects
import PegCompiler.Proofs.Lowering.Growth
import PegCompiler.Proofs.Lowering.Labels
import PegCompiler.Proofs.Lowering.Preservation
import PegCompiler.Proofs.Lowering.Registration
import PegCompiler.Proofs.Lowering.Scoping
import PegCompiler.Proofs.Grammar.Numbering
import PegCompiler.Proofs.Grammar.Scoping
import PegCompiler.Proofs.Lowering.References
import PegCompiler.Proofs.Semantics.Typing
import PegCompiler.Proofs.Types.Fixpoint
import PegCompiler.Proofs.Types.Soundness
import PegCompiler.Proofs.Target.Definitions
import PegCompiler.Proofs.Grammar.Flow
import PegCompiler.Proofs.Types.Passes
import PegCompiler.Proofs.Types.Phases
import PegCompiler.Proofs.Types.Equations
import PegCompiler.Proofs.Types.Convergence
import PegCompiler.Proofs.Target.Literals
import PegCompiler.Proofs.Types.Reporting
import PegCompiler.Proofs.Lowering.Lockstep
import PegCompiler.Proofs.Lowering.Order
import PegCompiler.Proofs.Grammar.Layout
import PegCompiler.Proofs.Grammar.Validity
import PegCompiler.Proofs.Json.Reading
import PegCompiler.Proofs.Grammar.Decoding
import PegCompiler.Proofs.Types.Divergence
import PegCompiler.Proofs.Lowering.Refusal
import PegCompiler.Proofs.Target.Classes
import PegCompiler.Proofs.Target.Initializers
import PegCompiler.Proofs.Lowering.Sharing
import PegCompiler.Proofs.Semantics.Accesses
import PegCompiler.Proofs.Lowering.Framing
import PegCompiler.Proofs.Semantics.Assignment
import PegCompiler.Proofs.Lowering.Assignment
import PegCompiler.Proofs.Target.Starts
import PegCompiler.Proofs.Target.Members
import PegCompiler.Proofs.Target.Fields
import PegCompiler.Proofs.Target.Aliases
import PegCompiler.Proofs.Types.Seeding
import PegCompiler.Proofs.Types.Visits
import PegCompiler.Proofs.Types.Acyclic
import PegCompiler.Proofs.Semantics.Silence
import PegCompiler.Proofs.Lowering.Containment
import PegCompiler.Proofs.Lowering.Consultation
import PegCompiler.Proofs.Types.Resolution
import PegCompiler.Proofs.Lowering.Interning
import PegCompiler.Proofs.Lowering.Hoisting
import PegCompiler.Proofs.Target.Printing
import PegCompiler.Proofs.Target.Boxing
import PegCompiler.Proofs.Grammar.Traversal
import PegCompiler.Proofs.Target.Rendering
import PegCompiler.Proofs.Lowering.Bookkeeping
