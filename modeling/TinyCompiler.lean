import TinyCompiler.Text.Integer
import TinyCompiler.Text.Layout
import TinyCompiler.Text.Position
import TinyCompiler.Text.Quoted
import TinyCompiler.Token
import TinyCompiler.Token.Scanner
import TinyCompiler.Diagnostic
import TinyCompiler.Operator
import TinyCompiler.Phrase
import TinyCompiler.Tree.Node
import TinyCompiler.Tree.Fault
import TinyCompiler.Tree.Basic
import TinyCompiler.Tree.Unfold
import TinyCompiler.Tree.Listing
import TinyCompiler.Parser.Tables
import TinyCompiler.Parser.State
import TinyCompiler.Parser.Rules
import TinyCompiler.SymbolTable
import TinyCompiler.Analysis
import TinyCompiler.Instruction
import TinyCompiler.Generator.Basic
import TinyCompiler.Generator.Lowering
import TinyCompiler.Machine
import TinyCompiler.Compilation
import TinyCompiler.CommandLine.Arguments
import TinyCompiler.CommandLine.FilePath
import TinyCompiler.CommandLine.Folder
import TinyCompiler.CommandLine.Trace
import TinyCompiler.CommandLine.Session
import TinyCompiler.Main
import TinyCompiler.Proofs.Actions
import TinyCompiler.Proofs.TreeInvariant
import TinyCompiler.Proofs.TreeUnfolding
import TinyCompiler.Proofs.TreeAcyclicity
import TinyCompiler.Proofs.PhraseNotes
import TinyCompiler.Proofs.TreeRenaming
import TinyCompiler.Proofs.AnnotatedTree
import TinyCompiler.Proofs.SymbolTableLaws
import TinyCompiler.Proofs.CodeLayout
import TinyCompiler.Proofs.LoweringFaults
import TinyCompiler.Proofs.EmittingActions
import TinyCompiler.Proofs.LoweringLayout
import TinyCompiler.Proofs.WalkBounds
import TinyCompiler.Proofs.AnalyzedGeneration
import TinyCompiler.Proofs.CodeLocations
import TinyCompiler.Proofs.GeneratedCodeSafety
import TinyCompiler.Proofs.ReferenceInterpreter
import TinyCompiler.Proofs.MachineExecution
import TinyCompiler.Proofs.ExpressionExecution
import TinyCompiler.Proofs.CompilerCorrectness
import TinyCompiler.Proofs.Grammar
import TinyCompiler.Proofs.GrammarUniqueness
import TinyCompiler.Proofs.TreeLayout
import TinyCompiler.Proofs.ParserSteps
import TinyCompiler.Proofs.ParserCompleteness
import TinyCompiler.Proofs.ParserSoundness
import TinyCompiler.Proofs.ParserLocality
import TinyCompiler.Proofs.ParserCorrectness
import TinyCompiler.Proofs.FirstOffendingToken
import TinyCompiler.Proofs.ParsedTrees
import TinyCompiler.Proofs.CompiledPrograms
import TinyCompiler.Proofs.DataArea
import TinyCompiler.Proofs.TypeSystem
import TinyCompiler.Proofs.TypeChecking
import TinyCompiler.Proofs.LexicalGrammar
import TinyCompiler.Proofs.JumpStructure
import TinyCompiler.Proofs.VisitOrder
import TinyCompiler.Proofs.SiblingSequences
import TinyCompiler.Proofs.TreeOperations
import TinyCompiler.Proofs.ArenaInvariant
import TinyCompiler.Proofs.TreeCycles
import TinyCompiler.Proofs.Occurrences
import TinyCompiler.Proofs.RenamedParsing
import TinyCompiler.Proofs.LayoutIndependence
import TinyCompiler.Proofs.SessionOutcome
import TinyCompiler.Proofs.SymbolTableCalls
import TinyCompiler.Proofs.GeneratorCalls
import TinyCompiler.Proofs.EmissionOrder
import TinyCompiler.Proofs.AnalysisPass
import TinyCompiler.Proofs.MachineResources
import TinyCompiler.Proofs.MachineHistory
import TinyCompiler.Proofs.LoopFreePrograms
import TinyCompiler.Proofs.RenderedColumns
import TinyCompiler.Proofs.JoinedSequences
import TinyCompiler.Proofs.ProgramListing
import TinyCompiler.Proofs.TokenLayouts
import TinyCompiler.Proofs.ConstructTokens
import TinyCompiler.Proofs.ReportedLines
import TinyCompiler.Proofs.SymbolTableListing
import TinyCompiler.Proofs.ParserProgress
import TinyCompiler.Proofs.TreeListing
import TinyCompiler.Proofs.FolderWrites
import TinyCompiler.Proofs.SourcePreservation
import TinyCompiler.Proofs.ExpressionFrames
import TinyCompiler.Proofs.ReadingPosition
