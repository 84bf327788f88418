import LimeLang.Code.Check
import LimeLang.Code.Instr
import LimeLang.Code.Operand
import LimeLang.Code.Printf
import LimeLang.Code.Run
import LimeLang.Code.Text
import LimeLang.Code.Type
import LimeLang.Code.Value
import LimeLang.Command
import LimeLang.Command.Options
import LimeLang.Compile
import LimeLang.Compile.Emit
import LimeLang.Compile.Session
import LimeLang.Compile.Statement
import LimeLang.Compile.Value
import LimeLang.Edition
import LimeLang.Files
import LimeLang.Main
import LimeLang.Number.Arithmetic
import LimeLang.Number.Binary
import LimeLang.Number.Layout
import LimeLang.Number.Shortest
import LimeLang.Proofs.Acceptance
import LimeLang.Proofs.AppendOnly
import LimeLang.Proofs.ArithmeticCode
import LimeLang.Proofs.ArithmeticEditions
import LimeLang.Proofs.AssemblyView
import LimeLang.Proofs.Availability
import LimeLang.Proofs.CodePairing
import LimeLang.Proofs.CompleteTrees
import LimeLang.Proofs.CompoundAssignment
import LimeLang.Proofs.ControlFlow
import LimeLang.Proofs.DocumentTexts
import LimeLang.Proofs.DocumentTrees
import LimeLang.Proofs.ExactDecimal
import LimeLang.Proofs.ExpressionGrammar
import LimeLang.Proofs.ExpressionTypes
import LimeLang.Proofs.Formulas
import LimeLang.Proofs.FreshNames
import LimeLang.Proofs.Generation
import LimeLang.Proofs.GlobalScope
import LimeLang.Proofs.Growth
import LimeLang.Proofs.GuardedLoops
import LimeLang.Proofs.ImportDepth
import LimeLang.Proofs.ImportOrder
import LimeLang.Proofs.Importing
import LimeLang.Proofs.Inlining
import LimeLang.Proofs.IntegerPrograms
import LimeLang.Proofs.LayoutIndependence
import LimeLang.Proofs.LexemeClass
import LimeLang.Proofs.LexicalScope
import LimeLang.Proofs.LineNumbers
import LimeLang.Proofs.LoopForms
import LimeLang.Proofs.LoopJumps
import LimeLang.Proofs.Machine
import LimeLang.Proofs.MinimalPrinting
import LimeLang.Proofs.NameTracking
import LimeLang.Proofs.OperandFlow
import LimeLang.Proofs.PairedRuns
import LimeLang.Proofs.PairedSessions
import LimeLang.Proofs.PairedStatements
import LimeLang.Proofs.PendingBlocks
import LimeLang.Proofs.PrecedenceClimbing
import LimeLang.Proofs.Preservation
import LimeLang.Proofs.PrintfFormats
import LimeLang.Proofs.Printing
import LimeLang.Proofs.ReachableSessions
import LimeLang.Proofs.ReadTrees
import LimeLang.Proofs.ReadingFuel
import LimeLang.Proofs.Respelling
import LimeLang.Proofs.RoundTrip
import LimeLang.Proofs.RoutineEndings
import LimeLang.Proofs.ScopeFrames
import LimeLang.Proofs.ScopeHistory
import LimeLang.Proofs.ScopedPrograms
import LimeLang.Proofs.SessionInvariant
import LimeLang.Proofs.ShortestDecimals
import LimeLang.Proofs.Simulation
import LimeLang.Proofs.SlangSynonyms
import LimeLang.Proofs.SourceAccounting
import LimeLang.Proofs.Spelling
import LimeLang.Proofs.StatementLowering
import LimeLang.Proofs.StatementParts
import LimeLang.Proofs.SteppingSyntax
import LimeLang.Proofs.Steps
import LimeLang.Proofs.StringConstants
import LimeLang.Proofs.Tokenization
import LimeLang.Proofs.Totality
import LimeLang.Proofs.Translation
import LimeLang.Proofs.TreeRecovery
import LimeLang.Proofs.ValueInversion
import LimeLang.Proofs.ValueLowering
import LimeLang.Proofs.WrittenForms
import LimeLang.Scope
import LimeLang.Scope.Named
import LimeLang.Scope.Shared
import LimeLang.Text.Classes
import LimeLang.Text.Quoted
import LimeLang.Token
import LimeLang.Token.Scan
import LimeLang.Tree
import LimeLang.Tree.Descent
import LimeLang.Tree.Document
import LimeLang.Tree.Imports
import LimeLang.Tree.Loops
import LimeLang.Tree.Parse
