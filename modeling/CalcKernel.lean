import CalcKernel.Lib.Assoc
import CalcKernel.Lib.CInteger
import CalcKernel.Lib.Codec
import CalcKernel.Lib.FlowGraph
import CalcKernel.Lib.Laminar
import CalcKernel.Lib.Trace
import CalcKernel.Lib.Components
import CalcKernel.Lib.Corners
import CalcKernel.Lib.Machine
import CalcKernel.Lib.Search
import CalcKernel.Lib.SortedMap
import CalcKernel.Ir.Mir
import CalcKernel.Ir.Effects
import CalcKernel.Ir.EffectSolver
import CalcKernel.Ir.EffectFixpoint
import CalcKernel.Kir.Model
import CalcKernel.Kir.Value
import CalcKernel.Kir.Semantics
import CalcKernel.Kir.Activation
import CalcKernel.Kir.Definitions
import CalcKernel.Kir.Builder
import CalcKernel.Kir.BuilderSsa
import CalcKernel.Kir.Provenance
import CalcKernel.Kir.BuilderOrigins
import CalcKernel.Kir.PlaceRegions
import CalcKernel.Kir.MemoryValidation
import CalcKernel.Kir.Typing
import CalcKernel.Kir.Dominance
import CalcKernel.Kir.ValueValidation
import CalcKernel.Kir.Availability
import CalcKernel.Kir.Evaluation
import CalcKernel.Optimizer.Facts
import CalcKernel.Optimizer.Audit
import CalcKernel.Optimizer.Transaction
import CalcKernel.Optimizer.TransactionRuns
import CalcKernel.Optimizer.BudgetConservation
import CalcKernel.Optimizer.ScalarDomain
import CalcKernel.Optimizer.ScalarTransfer
import CalcKernel.Optimizer.Forwarding
import CalcKernel.Optimizer.ForwardingSound
import CalcKernel.Optimizer.ProofSteps
import CalcKernel.Optimizer.StrictBound
import CalcKernel.Optimizer.InductionSteps
import CalcKernel.Optimizer.Regions
import CalcKernel.Optimizer.Alias
import CalcKernel.Optimizer.MemorySsa
import CalcKernel.Optimizer.MemoryThreading
import CalcKernel.Optimizer.MemoryRevalidation
import CalcKernel.Optimizer.MemoryHistory
import CalcKernel.Optimizer.MemoryFaithful
import CalcKernel.Backend.C.Syntax
import CalcKernel.Lib.CLayout
import CalcKernel.Lib.ArgumentPassing
import CalcKernel.Backend.Native.Abi
import CalcKernel.Backend.Native.Thunk
import CalcKernel.Backend.Native.Classification
import CalcKernel.Backend.Native.SystemV
import CalcKernel.Backend.Wasm.Control
import CalcKernel.Backend.Wasm.Structured
import CalcKernel.Backend.Wasm.Scopes
import CalcKernel.Backend.Wasm.StructuredRuns
import CalcKernel.Backend.Wasm.StructuredNest
import CalcKernel.Backend.Wasm.Reachable
import CalcKernel.Backend.Wasm.Loops
import CalcKernel.Backend.Wasm.Forest
import CalcKernel.Backend.Wasm.TopologicalOrder
import CalcKernel.Backend.Wasm.Regions
import CalcKernel.Backend.Wasm.Completeness
import CalcKernel.Backend.Wasm.PlanFaithful
import CalcKernel.Backend.Wasm.Layout
import CalcKernel.Profile.Identity
import CalcKernel.Profile.IdentityCodec
import CalcKernel.Profile.Format
import CalcKernel.Profile.Codec
import CalcKernel.Profile.Cost
import CalcKernel.Profile.OuterCodec
import CalcKernel.Profile.RoundTrip
import CalcKernel.Profile.Sizes
import CalcKernel.Profile.Merge
import CalcKernel.Profile.MergeTotals
import CalcKernel.Profile.MergeOrder
import CalcKernel.Profile.Transfer
import CalcKernel.Profile.TransferExact
import CalcKernel.Lib.Patch
import CalcKernel.Profile.Generation
import CalcKernel.Profile.PatchMap
import CalcKernel.Profile.PatchExact
import CalcKernel.Lib.Loop
import CalcKernel.Lib.StateLogic
import CalcKernel.Frontend.Token
import CalcKernel.Frontend.Lexer
import CalcKernel.Frontend.LexerText
import CalcKernel.Frontend.Ast
import CalcKernel.Frontend.Parser
import CalcKernel.Frontend.ParserProgress
import CalcKernel.Frontend.Termination
import CalcKernel.Frontend.Grammar
import CalcKernel.Frontend.ParserRules
import CalcKernel.Frontend.ParserComplete
import CalcKernel.Frontend.ParserSound
import CalcKernel.Frontend.ExpressionRoundTrip
import CalcKernel.Kir.Operands
import CalcKernel.Optimizer.PhiPrune
import CalcKernel.Optimizer.ContractFacts
import CalcKernel.Optimizer.ContractScopes
import CalcKernel.Optimizer.ContractRetention
import CalcKernel.Optimizer.ContractTruth
import CalcKernel.Optimizer.ContractRecords
import CalcKernel.Lib.LinearMemory
import CalcKernel.Lib.WasmStack
import CalcKernel.Backend.Wasm.Words
import CalcKernel.Backend.Wasm.WordRuns
import CalcKernel.Backend.Wasm.Bulk
import CalcKernel.Backend.Wasm.BulkShape
import CalcKernel.Backend.Wasm.BulkRuns
import CalcKernel.Backend.Wasm.BulkBodies
import CalcKernel.Backend.Wasm.BulkGuard
import CalcKernel.Backend.Wasm.BulkReplacement
import CalcKernel.Lib.CSpans
import CalcKernel.Backend.Native.Coercion
import CalcKernel.Backend.Native.CoercionShapes
import CalcKernel.Backend.Native.CoercionSound
import CalcKernel.Optimizer.Evidence
import CalcKernel.Optimizer.EvidenceIncremental
import CalcKernel.Lib.Names
import CalcKernel.Backend.C.Names
import CalcKernel.Backend.C.NamesSound
import CalcKernel.Backend.C.NamesApart
import CalcKernel.Lib.EraseAt
import CalcKernel.Kir.PlainValues
import CalcKernel.Kir.PathDominance
import CalcKernel.Optimizer.ScalarRefinement
import CalcKernel.Optimizer.ForwardingLeaves
import CalcKernel.Lib.Substitution
import CalcKernel.Lib.Text
import CalcKernel.Lib.LineFeed
import CalcKernel.Lib.Utf8
import CalcKernel.Backend.Wasm.FinalBuilt
import CalcKernel.Optimizer.Rewrite
import CalcKernel.Cli.CacheEntry
import CalcKernel.Cli.CacheBundle
import CalcKernel.Cli.CacheKey
import CalcKernel.Optimizer.InductionSimplify
import CalcKernel.Optimizer.InductionEqual
import CalcKernel.Optimizer.InductionRewrite
import CalcKernel.Optimizer.InductionRuns
import CalcKernel.Optimizer.InductionValid
import CalcKernel.Optimizer.InductionSound
import CalcKernel.Lib.Stutter
import CalcKernel.Kir.DominanceCache
import CalcKernel.Kir.Dropping
import CalcKernel.Kir.Rewiring
import CalcKernel.Lib.DepthFirst
import CalcKernel.Lib.Rounds
import CalcKernel.Lib.StrongComponents
import CalcKernel.Optimizer.CfgCanonicalize
import CalcKernel.Optimizer.CfgRemovals
import CalcKernel.Optimizer.CfgRuns
import CalcKernel.Optimizer.DeadCodeRuns
import CalcKernel.Optimizer.IrreducibleBlocks
import CalcKernel.Optimizer.NaturalLoopsExact
