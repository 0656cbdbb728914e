import Tsvm.FailState
import Tsvm.Codec
import Tsvm.Bytecode
import Tsvm.BytecodeEncoding
import Tsvm.BytecodeRoundTrip
import Tsvm.BytecodeVerifier
import Tsvm.BytecodeVerifierFacts
import Tsvm.Diagnostics
import Tsvm.Heap
import Tsvm.Interop
import Tsvm.Interpreter
import Tsvm.InterpreterSteps
import Tsvm.RuntimeFailures
import Tsvm.VerifiedReferences
import Tsvm.VerifiedOperands
import Tsvm.VerifiedControlFlow
import Tsvm.VerifiedValues
import Tsvm.Ast
import Tsvm.Ir
import Tsvm.Lowering
import Tsvm.Compilation
import Tsvm.Lexing
import Tsvm.Parsing
import Tsvm.Semantic
import Tsvm.Pipeline
import Tsvm.LoweringCode
import Tsvm.LoweringBlocks
import Tsvm.CompiledCode
import Tsvm.CompiledValues
import Tsvm.SourceChecks
import Tsvm.LoweredChecks
import Tsvm.CompiledOperands
import Tsvm.CompiledSlots
import Tsvm.CompilerAcceptance
import Tsvm.BytecodeCanonical
import Tsvm.HeapOperations
import Tsvm.StaleHandles
import Tsvm.HeapCollection
import Tsvm.RunInvariants
import Tsvm.HandleIntegrity
import Tsvm.Materialization
import Tsvm.ObjectGraphs
import Tsvm.PreparationCache
import Tsvm.Modules
import Tsvm.ModuleOrder
import Tsvm.SemanticOrders
import Tsvm.HostHistories
import Tsvm.ScriptLoader
import Tsvm.CApi
import Tsvm.SessionRuns
import Tsvm.ParserRuns
import Tsvm.TypeGrammar
import Tsvm.ExpressionGrammar
import Tsvm.StatementGrammar
import Tsvm.Relocation
import Tsvm.LexerRuns
import Tsvm.TokenSlices
import Tsvm.SourceSlices
import Tsvm.GrammarEnds
import Tsvm.Parentheses
import Tsvm.ModuleCycles
import Tsvm.ModuleLinks
import Tsvm.AnalyzerSteps
import Tsvm.TopLevelFunctions
import Tsvm.Scoping
import Tsvm.CheckedNames
import Tsvm.ShadowedCalls
import Tsvm.FieldOrders
import Tsvm.CheckTraces
import Tsvm.DeterministicResults
import Tsvm.Printing
import Tsvm.PrintedExpressions
import Tsvm.PrintedStatements
import Tsvm.PrintedLoops
import Tsvm.PrintedPrograms
import Tsvm.Variables
import Tsvm.FunctionSlots
import Tsvm.VariableReads
import Tsvm.PointInvariants
import Tsvm.StoreTypings
import Tsvm.CodeTypes
import Tsvm.LoweredTypes
import Tsvm.TypedSteps
import Tsvm.TypedRuns
import Tsvm.TypeTags
import Tsvm.ExactCollection
import Tsvm.Subtyping
import Tsvm.RelocatedChecks
import Tsvm.DeclarationOrders
import Tsvm.ExpressionRuns
import Tsvm.ActivationPoints
import Tsvm.OperatorMeaning
import Tsvm.CompoundAssignments
import Tsvm.EagerOperands
import Tsvm.LocalDecoders
import Tsvm.ReservedSpace
import Tsvm.BytecodeReads
import Tsvm.InteropCopies
import Tsvm.InterningOrder
import Tsvm.CodeTables
import Tsvm.CodeReadings
import Tsvm.PathResolution
import Tsvm.DomFetch
import Tsvm.SameOrigin
import Tsvm.TextSearch
import Tsvm.ScriptDocuments
import Tsvm.JsonTexts
import Tsvm.JsonEnvelope
import Tsvm.SourceTiles
import Tsvm.MeasuredRecursion
import Tsvm.ParserProgress
import Tsvm.ParserTermination
import Tsvm.HeapBookkeeping
import Tsvm.ArrayDisplay
import Tsvm.ErrorNodes
import Tsvm.EntryOrders
import Tsvm.BlockGraphs
import Tsvm.BlockVisits
import Tsvm.StatementSpans
import Tsvm.StatementSlices
import Tsvm.TreeSizes
import Tsvm.StatementSequences
import Tsvm.BundledPrograms
import Tsvm.AbruptCompletions
import Tsvm.SourceMeaning
import Tsvm.EnvironmentRuns
import Tsvm.StatementRuns
import Tsvm.MeaningPreservation
import Tsvm.Budgets
import Tsvm.OwnedBoxes
import Tsvm.CallGraphs
import Tsvm.AbiSessions
import Tsvm.HostReach
import Tsvm.LinkedPrograms
import Tsvm.ModuleReach
import Tsvm.Outlines
import Tsvm.SpanNesting
import Tsvm.RelocatedLowering
import Tsvm.Layouts
