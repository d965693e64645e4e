import MicroJava.Arithmetic
import MicroJava.Assembly.Buffer
import MicroJava.Assembly.Operand
import MicroJava.BigEndian
import MicroJava.Command.Arguments
import MicroJava.Command.Directory
import MicroJava.Command.Path
import MicroJava.Command.Session
import MicroJava.Comparison
import MicroJava.Compilation
import MicroJava.Compile.Declaration
import MicroJava.Compile.Expression
import MicroJava.Compile.Pass
import MicroJava.Compile.Problem
import MicroJava.Compile.Statement
import MicroJava.Instruction
import MicroJava.Instruction.Decoding
import MicroJava.Instruction.Encoding
import MicroJava.Instruction.Listing
import MicroJava.Machine.Basic
import MicroJava.Machine.Fault
import MicroJava.Machine.Heap
import MicroJava.Machine.Numeral
import MicroJava.Machine.Run
import MicroJava.Main
import MicroJava.Names.Entity
import MicroJava.Names.Table
import MicroJava.ObjectFile
import MicroJava.ObjectFile.Format
import MicroJava.ObjectFile.Varint
import MicroJava.Report
import MicroJava.Source.Lexing
import MicroJava.Source.Token
import MicroJava.Source.Upcoming
import MicroJava.Text.Blank
import MicroJava.Text.Decimal
import MicroJava.Tree.Basic
import MicroJava.Tree.Reading
import MicroJava.Ty
import MicroJava.Proofs.Assembly.History
import MicroJava.Proofs.Assembly.Writing
import MicroJava.Proofs.Compile.Absorption
import MicroJava.Proofs.Compile.Absorption.Declarations
import MicroJava.Proofs.Compile.Absorption.Expressions
import MicroJava.Proofs.Compile.Absorption.Statements
import MicroJava.Proofs.Compile.Bounds
import MicroJava.Proofs.Compile.Declarations
import MicroJava.Proofs.Compile.Emitted
import MicroJava.Proofs.Compile.Expressions
import MicroJava.Proofs.Compile.Faultless
import MicroJava.Proofs.Compile.Growth
import MicroJava.Proofs.Compile.Handles
import MicroJava.Proofs.Compile.Lockstep
import MicroJava.Proofs.Compile.Misspelling
import MicroJava.Proofs.Compile.Outline
import MicroJava.Proofs.Compile.Places
import MicroJava.Proofs.Compile.Preservation
import MicroJava.Proofs.Compile.Renaming
import MicroJava.Proofs.Compile.Reports
import MicroJava.Proofs.Compile.Spelling
import MicroJava.Proofs.Compile.Statements
import MicroJava.Proofs.Compile.Syntax
import MicroJava.Proofs.Compile.TwoPass
import MicroJava.Proofs.Instruction.Listing
import MicroJava.Proofs.Instruction.Partition
import MicroJava.Proofs.Instruction.RoundTrip
import MicroJava.Proofs.Instruction.Text
import MicroJava.Proofs.Machine.Confinement
import MicroJava.Proofs.Machine.Elements
import MicroJava.Proofs.Machine.Numeral
import MicroJava.Proofs.Machine.Overflow
import MicroJava.Proofs.Machine.Path
import MicroJava.Proofs.Machine.Situation
import MicroJava.Proofs.Machine.StepLimit
import MicroJava.Proofs.Machine.Unlimited
import MicroJava.Proofs.Machine.Widening
import MicroJava.Proofs.Names.Agreement
import MicroJava.Proofs.Names.Fading
import MicroJava.Proofs.Names.Handles
import MicroJava.Proofs.Names.Known
import MicroJava.Proofs.Names.Renaming
import MicroJava.Proofs.Names.ScopeStack
import MicroJava.Proofs.Names.Slots
import MicroJava.Proofs.ObjectFile.Damage
import MicroJava.Proofs.ObjectFile.Storage
import MicroJava.Proofs.Report.Throttle
import MicroJava.Proofs.Resolved.Evaluation
import MicroJava.Proofs.Resolved.ExpressionCode
import MicroJava.Proofs.Resolved.Generation
import MicroJava.Proofs.Resolved.Instructions
import MicroJava.Proofs.Resolved.Outcome
import MicroJava.Proofs.Resolved.ProgramCode
import MicroJava.Proofs.Resolved.Representation
import MicroJava.Proofs.Resolved.Resolution
import MicroJava.Proofs.Resolved.Safety
import MicroJava.Proofs.Resolved.Shape
import MicroJava.Proofs.Resolved.Simulation
import MicroJava.Proofs.Resolved.Sizes
import MicroJava.Proofs.Resolved.Soundness
import MicroJava.Proofs.Resolved.StatementCode
import MicroJava.Proofs.Resolved.Tree
import MicroJava.Proofs.Resolved.Typing
import MicroJava.Proofs.Resolved.Words
import MicroJava.Proofs.Resolved.WorldTyping
import MicroJava.Proofs.Source.Lines
import MicroJava.Proofs.Source.Literals
import MicroJava.Proofs.Source.Positions
import MicroJava.Proofs.Source.Tiling
import MicroJava.Proofs.Source.Tokens
import MicroJava.Proofs.Source.Wording
import MicroJava.Proofs.Text.Decimal
import MicroJava.Proofs.Tree.Derivation
import MicroJava.Proofs.Tree.Grammar
import MicroJava.Proofs.Tree.Outline
import MicroJava.Proofs.Tree.Progress
import MicroJava.Proofs.Tree.Recognition
import MicroJava.Proofs.Tree.Renaming
import MicroJava.Proofs.Tree.Shape
import MicroJava.Proofs.Tree.Uniform
import MicroJava.Proofs.Tree.Written
import MicroJava.Proofs.Ty.Agreement
