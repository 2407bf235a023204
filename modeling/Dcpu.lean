import Dcpu.Assembly
import Dcpu.Breach
import Dcpu.Code
import Dcpu.Code.Evaluate
import Dcpu.Command
import Dcpu.Command.Arguments
import Dcpu.Command.Assemble
import Dcpu.Command.Run
import Dcpu.Diagnostic
import Dcpu.Dialect
import Dcpu.Dialect.Document
import Dcpu.Encoder
import Dcpu.FileTree
import Dcpu.Host
import Dcpu.Image
import Dcpu.Image.Format
import Dcpu.Layout
import Dcpu.Layout.Operand
import Dcpu.Layout.Operation
import Dcpu.Listing
import Dcpu.Listing.Notes
import Dcpu.Machine
import Dcpu.Machine.Load
import Dcpu.Machine.Operation
import Dcpu.Machine.Step
import Dcpu.Main
import Dcpu.Memory
import Dcpu.Numeral
import Dcpu.Path
import Dcpu.Position
import Dcpu.Program
import Dcpu.Proofs.AcceptedLine
import Dcpu.Proofs.AcceptedTokens
import Dcpu.Proofs.AliasChain
import Dcpu.Proofs.AsciiText
import Dcpu.Proofs.AssembleStatements
import Dcpu.Proofs.BasicFrame
import Dcpu.Proofs.DataRows
import Dcpu.Proofs.DecodeOperand
import Dcpu.Proofs.DecodedText
import Dcpu.Proofs.EncodeArgument
import Dcpu.Proofs.EncodeBody
import Dcpu.Proofs.EncodeInStep
import Dcpu.Proofs.EncodeValue
import Dcpu.Proofs.EncodeWithin
import Dcpu.Proofs.ExactPositions
import Dcpu.Proofs.ExtendedDialect
import Dcpu.Proofs.ExtendedStatement
import Dcpu.Proofs.ExtendedTokens
import Dcpu.Proofs.FinishProgram
import Dcpu.Proofs.FoldInstruction
import Dcpu.Proofs.FoldLiteral
import Dcpu.Proofs.Follows
import Dcpu.Proofs.Grammar
import Dcpu.Proofs.HandlerReturn
import Dcpu.Proofs.ImageBytes
import Dcpu.Proofs.InstructionWord
import Dcpu.Proofs.InterruptOrder
import Dcpu.Proofs.LaidTokens
import Dcpu.Proofs.LastingLabels
import Dcpu.Proofs.LengthMarkers
import Dcpu.Proofs.LexPieces
import Dcpu.Proofs.LineElements
import Dcpu.Proofs.LinePieces
import Dcpu.Proofs.ListingLabels
import Dcpu.Proofs.ListingLines
import Dcpu.Proofs.ListingPartition
import Dcpu.Proofs.LocalNames
import Dcpu.Proofs.LongDifference
import Dcpu.Proofs.LongSum
import Dcpu.Proofs.MapPositions
import Dcpu.Proofs.MovedFixes
import Dcpu.Proofs.NoBreach
import Dcpu.Proofs.NumeralSyntax
import Dcpu.Proofs.OperandCode
import Dcpu.Proofs.OutputFiles
import Dcpu.Proofs.ParseLine
import Dcpu.Proofs.ParseOperand
import Dcpu.Proofs.PathExtension
import Dcpu.Proofs.PlacedEncoding
import Dcpu.Proofs.PlacedFailures
import Dcpu.Proofs.PlacedStatement
import Dcpu.Proofs.Placement
import Dcpu.Proofs.ProgramSound
import Dcpu.Proofs.ReadBack
import Dcpu.Proofs.ReadElsewhere
import Dcpu.Proofs.ReadInstruction
import Dcpu.Proofs.ReadStatement
import Dcpu.Proofs.ReadTokens
import Dcpu.Proofs.ReadWithin
import Dcpu.Proofs.ReadWritten
import Dcpu.Proofs.Reassemble
import Dcpu.Proofs.RenameStatement
import Dcpu.Proofs.ResolveOperands
import Dcpu.Proofs.RippleSteps
import Dcpu.Proofs.RippleWords
import Dcpu.Proofs.SkipLoop
import Dcpu.Proofs.SourceLines
import Dcpu.Proofs.SourceParts
import Dcpu.Proofs.SpelledStatement
import Dcpu.Proofs.SpelledTokens
import Dcpu.Proofs.SpelledWords
import Dcpu.Proofs.StackEffect
import Dcpu.Proofs.StackOperand
import Dcpu.Proofs.StatementParts
import Dcpu.Proofs.StepFailure
import Dcpu.Proofs.SymbolDefinition
import Dcpu.Proofs.SymbolHistory
import Dcpu.Proofs.SymbolList
import Dcpu.Proofs.SymbolTable
import Dcpu.Proofs.SymbolTypes
import Dcpu.Proofs.SymbolValue
import Dcpu.Proofs.TokenRanges
import Dcpu.Proofs.WellFormed
import Dcpu.Proofs.WideResult
import Dcpu.Proofs.WriteInStep
import Dcpu.Proofs.WriteStatement
import Dcpu.Proofs.Writer
import Dcpu.Proofs.WrittenLiteral
import Dcpu.Proofs.WrittenNumber
import Dcpu.Proofs.WrittenStatement
import Dcpu.Register
import Dcpu.Report
import Dcpu.Source
import Dcpu.Statement
import Dcpu.Statement.Parser
import Dcpu.Symbol
import Dcpu.Symbol.Export
import Dcpu.SymbolTable
import Dcpu.Table
import Dcpu.Text
import Dcpu.Text.Blank
import Dcpu.Text.Digits
import Dcpu.Text.Escaped
import Dcpu.Text.Lower
import Dcpu.Text.Quoted
import Dcpu.Text.Units
import Dcpu.Text.Utf8
import Dcpu.Token
import Dcpu.Token.Lexer
import Dcpu.Word
import Dcpu.Yaml
import Dcpu.Yaml.Characters
import Dcpu.Yaml.Parser
import Dcpu.Yaml.Scalar
import Dcpu.Yaml.ScalarText
import Dcpu.Yaml.Scanner
import Dcpu.Yaml.Token
