import StackC.Assembly.Basic
import StackC.Assembly.Code
import StackC.Assembly.Printer
import StackC.CType.Basic
import StackC.CType.Equality
import StackC.CType.Table
import StackC.Compile
import StackC.Diagnostic.Basic
import StackC.Diagnostic.Fault
import StackC.Emission.Basic
import StackC.Emission.Code
import StackC.Emission.Program
import StackC.Frame
import StackC.Grammar.Basic
import StackC.Grammar.Expression
import StackC.Grammar.Function
import StackC.Grammar.Operand
import StackC.Grammar.Statement
import StackC.Grammar.TypeName
import StackC.Grammar.Unit
import StackC.Grammar.Variable
import StackC.Initializer.Basic
import StackC.Initializer.Data
import StackC.Initializer.Stores
import StackC.Main
import StackC.Program.Basic
import StackC.Program.Node
import StackC.Proofs.Acceptance
import StackC.Proofs.Assembly.Output
import StackC.Proofs.Assembly.Text
import StackC.Proofs.AssignmentValue
import StackC.Proofs.Chains
import StackC.Proofs.Compatibility
import StackC.Proofs.DataSection
import StackC.Proofs.Diagnosis
import StackC.Proofs.Diagnostic
import StackC.Proofs.EffectFreedom
import StackC.Proofs.Emission.Depth
import StackC.Proofs.Emission.Enclosed
import StackC.Proofs.Emission.Functions
import StackC.Proofs.Emission.Generator
import StackC.Proofs.Emission.Labels
import StackC.Proofs.Emission.Operands
import StackC.Proofs.Emission.Shape
import StackC.Proofs.Emission.Success
import StackC.Proofs.Emission.Total
import StackC.Proofs.ExpressionSemantics
import StackC.Proofs.FrameLayout
import StackC.Proofs.FunctionSemantics
import StackC.Proofs.Grammar.Attempts
import StackC.Proofs.Grammar.Contract
import StackC.Proofs.Grammar.Expressions
import StackC.Proofs.Grammar.Logic
import StackC.Proofs.Grammar.Neighborhood
import StackC.Proofs.Grammar.Outcomes
import StackC.Proofs.Grammar.Positions
import StackC.Proofs.Grammar.Programs
import StackC.Proofs.Grammar.Reading
import StackC.Proofs.Grammar.Relocation
import StackC.Proofs.Grammar.Singles
import StackC.Proofs.Grammar.Statements
import StackC.Proofs.Grammar.Symbols
import StackC.Proofs.Grammar.Tracing
import StackC.Proofs.Grammar.Types
import StackC.Proofs.Grammar.Valid
import StackC.Proofs.Initializer.Agreement
import StackC.Proofs.Initializer.Leaves
import StackC.Proofs.Initializer.Length
import StackC.Proofs.Initializer.Targets
import StackC.Proofs.Lexing
import StackC.Proofs.Lists
import StackC.Proofs.Machine.Arithmetic
import StackC.Proofs.Machine.Bytes
import StackC.Proofs.Machine.Memory
import StackC.Proofs.Machine.Run
import StackC.Proofs.ObjectSize
import StackC.Proofs.ParsingProgress
import StackC.Proofs.PointerArithmetic
import StackC.Proofs.Printing.Levels
import StackC.Proofs.Printing.Parts
import StackC.Proofs.Printing.RoundTrip
import StackC.Proofs.Printing.Surface
import StackC.Proofs.Program.Declarations
import StackC.Proofs.Program.Frame
import StackC.Proofs.Program.Layout
import StackC.Proofs.Program.Places
import StackC.Proofs.Program.Shape
import StackC.Proofs.Program.Valid
import StackC.Proofs.Respacing
import StackC.Proofs.Restoration
import StackC.Proofs.ScopeNesting
import StackC.Proofs.Semantics.Interpreter
import StackC.Proofs.Simulation.Control
import StackC.Proofs.Simulation.Fragments
import StackC.Proofs.Simulation.Frames
import StackC.Proofs.Simulation.Logic
import StackC.Proofs.Simulation.Stack
import StackC.Proofs.Simulation.Trees
import StackC.Proofs.Source.Places
import StackC.Proofs.StackChecks
import StackC.Proofs.StackDiscipline
import StackC.Proofs.StepOperators
import StackC.Proofs.StringLiterals
import StackC.Proofs.StructLayout
import StackC.Proofs.SymbolResolution
import StackC.Proofs.Token.Gaps
import StackC.Proofs.Token.Words
import StackC.Proofs.Typing.Effects
import StackC.Proofs.Typing.Elaborated
import StackC.Proofs.Typing.Parts
import StackC.Proofs.Typing.Places
import StackC.Proofs.Typing.Positions
import StackC.Proofs.Typing.Typed
import StackC.Proofs.WellScoped
import StackC.Proofs.WellTyped
import StackC.Scope
import StackC.Source.Location
import StackC.Source.Report
import StackC.Token.Basic
import StackC.Token.Lexeme
import StackC.Token.Scanner
import StackC.Typing.Arithmetic
import StackC.Typing.Elaboration
