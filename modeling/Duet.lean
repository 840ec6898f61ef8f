import Duet.Arithmetic
import Duet.Bytecode.Assembler
import Duet.Bytecode.Code
import Duet.Bytecode.Compile
import Duet.Bytecode.Listing
import Duet.Bytecode.Opcode
import Duet.Command.Arguments
import Duet.Command.Run
import Duet.Diagnostic.Basic
import Duet.Diagnostic.Catalogue
import Duet.Diagnostic.Json
import Duet.Diagnostic.Terminal
import Duet.Evaluator.Eval
import Duet.Evaluator.Value
import Duet.Execution
import Duet.Failure
import Duet.Files.Basic
import Duet.Files.Inclusion
import Duet.Machine.Basic
import Duet.Machine.Raw
import Duet.Machine.Step
import Duet.Main
import Duet.Proofs.AcceptedPrograms
import Duet.Proofs.AlikeTrees
import Duet.Proofs.AppendedStatements
import Duet.Proofs.BareTrees
import Duet.Proofs.CallProtocol
import Duet.Proofs.CommentStripping
import Duet.Proofs.CompilerSessions
import Duet.Proofs.ConcreteSyntax
import Duet.Proofs.ConstantPool
import Duet.Proofs.Decoding
import Duet.Proofs.DefinedNames
import Duet.Proofs.DiagnosticPlaces
import Duet.Proofs.EarliestErrors
import Duet.Proofs.Emission
import Duet.Proofs.EmittedTrees
import Duet.Proofs.EngineAgreement
import Duet.Proofs.ErrorRecovery
import Duet.Proofs.ErrorSpans
import Duet.Proofs.GlobalReads
import Duet.Proofs.GrammarExactness
import Duet.Proofs.InclusionDepth
import Duet.Proofs.InclusionGraph
import Duet.Proofs.InstructionBuffers
import Duet.Proofs.InstructionRules
import Duet.Proofs.JsonDiagnostics
import Duet.Proofs.JsonTexts
import Duet.Proofs.JsonWriting
import Duet.Proofs.LexerParts
import Duet.Proofs.LinearReading
import Duet.Proofs.Listings
import Duet.Proofs.LoneExpressions
import Duet.Proofs.LongestMatch
import Duet.Proofs.MachineRuns
import Duet.Proofs.MachineSafety
import Duet.Proofs.Misreadings
import Duet.Proofs.ParameterRenaming
import Duet.Proofs.ParserDerivations
import Duet.Proofs.PrintNormalForm
import Duet.Proofs.PrintRoundTrip
import Duet.Proofs.PrintedForm
import Duet.Proofs.ProgramPoints
import Duet.Proofs.RawRuns
import Duet.Proofs.RunInvariants
import Duet.Proofs.ScopeLevels
import Duet.Proofs.Simulation
import Duet.Proofs.SourcePositions
import Duet.Proofs.SpacedTokens
import Duet.Proofs.SpanNesting
import Duet.Proofs.SpanSlices
import Duet.Proofs.Spelling
import Duet.Proofs.StackHeights
import Duet.Proofs.StatementRuns
import Duet.Proofs.StatementSeams
import Duet.Proofs.StaticScoping
import Duet.Proofs.StrippedLines
import Duet.Proofs.StrippingExactness
import Duet.Proofs.TextPositions
import Duet.Proofs.WellFormedBlocks
import Duet.Scope
import Duet.Text.Comment
import Duet.Text.Json
import Duet.Text.Lines
import Duet.Text.Span
import Duet.Text.Word
import Duet.Token.Basic
import Duet.Token.Lexer
import Duet.Tree.Basic
import Duet.Tree.ExprParser
import Duet.Tree.Json
import Duet.Tree.ParseError
import Duet.Tree.Parser
import Duet.Tree.Printer
