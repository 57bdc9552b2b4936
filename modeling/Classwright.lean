import Classwright.Assembly.Listing
import Classwright.Bytecode.BigEndian
import Classwright.Bytecode.Instruction
import Classwright.Bytecode.Opcode
import Classwright.Check.Analysis
import Classwright.Check.Assignment
import Classwright.Check.Resolution
import Classwright.Check.Values
import Classwright.ClassFile.Basic
import Classwright.ClassFile.Dump
import Classwright.ClassFile.Reader
import Classwright.ClassFile.Verify
import Classwright.ClassFile.Writer
import Classwright.Command.Basic
import Classwright.Command.Compile
import Classwright.Command.Dump
import Classwright.Command.Flag
import Classwright.Command.Run
import Classwright.CompileError
import Classwright.Compiler
import Classwright.Declaration
import Classwright.Emit.ClassFile
import Classwright.Emit.Code
import Classwright.Emit.Error
import Classwright.Emit.Pool
import Classwright.Files.Basic
import Classwright.Files.Compile
import Classwright.Files.Path
import Classwright.Limits
import Classwright.Machine.Basic
import Classwright.Machine.Error
import Classwright.Machine.Interpreter
import Classwright.Machine.Link
import Classwright.Machine.Run
import Classwright.Main
import Classwright.Operator
import Classwright.Parser.Expression
import Classwright.Parser.Program
import Classwright.Parser.Statement
import Classwright.Parser.Step
import Classwright.Program.Basic
import Classwright.Program.Graph
import Classwright.Program.Printer
import Classwright.Proofs.Program.Tables
import Classwright.Proofs.Source.Tokens
import Classwright.Source.Character
import Classwright.Source.Position
import Classwright.Source.Scanner
import Classwright.Source.Token
import Classwright.Text.Basic
import Classwright.Text.Blank
import Classwright.Text.Decimal
import Classwright.Text.Modified
import Classwright.Text.Number
import Classwright.Text.Printable
import Classwright.Text.Quoted
import Classwright.Text.Utf8
import Classwright.Tree.Constant
import Classwright.Tree.Flow
import Classwright.Tree.Node
import Classwright.Tree.Printer
import Classwright.Proofs.Bytecode.Codec
import Classwright.Proofs.Bytecode.Flow
import Classwright.Proofs.Check.Checked
import Classwright.Proofs.ClassFile.Access
import Classwright.Proofs.ClassFile.Verified
import Classwright.Proofs.Emit.Simulation
import Classwright.Proofs.Emit.Written
import Classwright.Proofs.Machine.Compiled
import Classwright.Proofs.Positions.Checks
import Classwright.Proofs.Printer.Lexemes
import Classwright.Proofs.Printer.Reading
import Classwright.Proofs.Printer.Inverse
import Classwright.Proofs.ClassFile.ByteLayout
import Classwright.Proofs.Emit.Slots
import Classwright.Proofs.Bytecode.Marks
import Classwright.Proofs.ClassFile.Accepted
import Classwright.Proofs.Emit.Assigned
import Classwright.Proofs.Machine.Control
import Classwright.Proofs.Machine.Enclosed
import Classwright.Proofs.Machine.Filling
import Classwright.Proofs.Machine.FreshSlots
import Classwright.Proofs.Machine.VerifiedRuns
import Classwright.Proofs.Machine.VerifiedSlots
import Classwright.Proofs.Assembly.Assembled
import Classwright.Proofs.Assembly.Relisted
import Classwright.Proofs.Parser.Accepted
import Classwright.Proofs.Emit.Limits
import Classwright.Proofs.Emit.References
import Classwright.Proofs.Emit.Room
import Classwright.Proofs.Positions.Parsing
import Classwright.Proofs.Positions.Compilation
import Classwright.Proofs.Files.Path
import Classwright.Proofs.Files.Compilation
import Classwright.Proofs.Files.LongName
import Classwright.Proofs.Emit.Crowded
import Classwright.Proofs.Machine.Lifetime
import Classwright.Proofs.Machine.Limits
import Classwright.Proofs.Machine.Constants
import Classwright.Proofs.Relabelling.Locals
import Classwright.Proofs.Emit.Sharing
import Classwright.Proofs.Program.Scopes
import Classwright.Proofs.Check.Scoping
import Classwright.Proofs.Tree.Constants
import Classwright.Proofs.Machine.Arithmetic
import Classwright.Proofs.Source.Splitting
import Classwright.Proofs.Source.Rescanned
import Classwright.Proofs.Source.Incremental
import Classwright.Proofs.Parser.Truncated
import Classwright.Proofs.ClassFile.Prefixes
import Classwright.Proofs.Check.Reachability
import Classwright.Proofs.Positions.Pointing
import Classwright.Proofs.Bytecode.Inverse
import Classwright.Proofs.Emit.Counts
import Classwright.Proofs.Assembly.Continued
import Classwright.Proofs.Printer.Constants
import Classwright.Proofs.Parser.Climbing
import Classwright.Proofs.Emit.Completion
