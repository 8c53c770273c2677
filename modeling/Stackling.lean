import Stackling.Arith
import Stackling.AsmUnit
import Stackling.AsmUnit.Draft
import Stackling.Assembly.Reader
import Stackling.Build
import Stackling.Bytes
import Stackling.Command
import Stackling.Command.Compiler
import Stackling.Command.Flags
import Stackling.Command.Runner
import Stackling.Files
import Stackling.Files.Tree
import Stackling.Input
import Stackling.Instruction
import Stackling.Instruction.Fields
import Stackling.Log
import Stackling.Machine
import Stackling.Machine.Scan
import Stackling.Machine.State
import Stackling.Machine.Value
import Stackling.Main
import Stackling.Module
import Stackling.Module.Assemble
import Stackling.Module.Decode
import Stackling.Module.Encode
import Stackling.Module.Listing
import Stackling.Module.StackDepth
import Stackling.Opcode
import Stackling.Output
import Stackling.Path
import Stackling.Program
import Stackling.Program.Chain
import Stackling.Program.Code
import Stackling.Program.Parser
import Stackling.Proofs.Assemble
import Stackling.Proofs.Assembly.Loading
import Stackling.Proofs.Assembly.RoundTrip
import Stackling.Proofs.Assembly.Stable
import Stackling.Proofs.Build
import Stackling.Proofs.Command.Arguments
import Stackling.Proofs.Command.Artifact
import Stackling.Proofs.Direct
import Stackling.Proofs.Files
import Stackling.Proofs.Lexer
import Stackling.Proofs.Lexer.Layout
import Stackling.Proofs.Lexer.Lossless
import Stackling.Proofs.Lexer.Reading
import Stackling.Proofs.Lexer.Spelling
import Stackling.Proofs.Linking
import Stackling.Proofs.Machine.Budget
import Stackling.Proofs.Machine.Kind
import Stackling.Proofs.Machine.Loaded
import Stackling.Proofs.Machine.Safety
import Stackling.Proofs.Marked
import Stackling.Proofs.Module.Loadable
import Stackling.Proofs.Module.Partial
import Stackling.Proofs.Module.RoundTrip
import Stackling.Proofs.Module.Spelling
import Stackling.Proofs.Program.Chain
import Stackling.Proofs.Program.Correct
import Stackling.Proofs.Program.Depth
import Stackling.Proofs.Program.Emits
import Stackling.Proofs.Program.Expected
import Stackling.Proofs.Program.FirstError
import Stackling.Proofs.Program.Folding
import Stackling.Proofs.Program.Grammar
import Stackling.Proofs.Program.Handles
import Stackling.Proofs.Program.Jumps
import Stackling.Proofs.Program.Labels
import Stackling.Proofs.Program.Parsing
import Stackling.Proofs.Program.Pieces
import Stackling.Proofs.Program.Readable
import Stackling.Proofs.Program.Scope
import Stackling.Proofs.Program.Semantics
import Stackling.Proofs.Program.Simulation
import Stackling.Proofs.Program.Slots
import Stackling.Proofs.SoundUnit
import Stackling.Proofs.StackDepth
import Stackling.Proofs.StackDepth.Exact
import Stackling.Proofs.Text.Blank
import Stackling.Proofs.Text.Decimal
import Stackling.Proofs.Text.Lines
import Stackling.Proofs.Text.Quoted
import Stackling.Relation
import Stackling.Settings
import Stackling.Settings.Overlay
import Stackling.SymbolTable
import Stackling.SymbolTable.Listing
import Stackling.Table
import Stackling.Text.Base64
import Stackling.Text.Blank
import Stackling.Text.Columns
import Stackling.Text.Decimal
import Stackling.Text.LetterCase
import Stackling.Text.Numeral
import Stackling.Text.Printable
import Stackling.Text.Quoted
import Stackling.Text.Style
import Stackling.Text.Template
import Stackling.Text.Utf8
import Stackling.Text.Wrap
import Stackling.Token
import Stackling.Token.Lexer
import Stackling.Yaml.Lexer
import Stackling.Yaml.Lexer.Next
import Stackling.Yaml.Lexer.Property
import Stackling.Yaml.Lexer.Scalar
import Stackling.Yaml.Node
import Stackling.Yaml.Node.Reader
import Stackling.Yaml.Problem
import Stackling.Yaml.Scalar
import Stackling.Yaml.Source
import Stackling.Yaml.Timestamp
import Stackling.Yaml.Token
import Stackling.Proofs.Assemble.Pool
import Stackling.Proofs.Machine.Reading
import Stackling.Proofs.Module.Sizes
import Stackling.Proofs.Sink
import Stackling.Proofs.Assembly.Comments
import Stackling.Proofs.Assembly.Words
import Stackling.Proofs.Machine.Ports
import Stackling.Proofs.Machine.Printing
import Stackling.Proofs.Machine.ReadBack
