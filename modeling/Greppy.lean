import Greppy.AdaptiveBatches
import Greppy.ArgvRouting
import Greppy.AtomicSnapshot
import Greppy.AtomicSteps
import Greppy.BackgroundJob
import Greppy.BatchedForward
import Greppy.Bisect
import Greppy.BreadthFirst
import Greppy.BriefOutput
import Greppy.BudgetSearch
import Greppy.ByteBits
import Greppy.ByteRegisters
import Greppy.ByteSlices
import Greppy.CacheGc
import Greppy.CacheManifest
import Greppy.CallCycles
import Greppy.CallHierarchy
import Greppy.CallTraversals
import Greppy.CamelNormal
import Greppy.CamelSplit
import Greppy.CellWrites
import Greppy.CheckedTables
import Greppy.ChunkWrites
import Greppy.Chunks
import Greppy.CoChange
import Greppy.Consumes
import Greppy.ContentMirror
import Greppy.Coverage
import Greppy.Crash
import Greppy.DaemonFrame
import Greppy.Decoding
import Greppy.DefinitionAt
import Greppy.DefinitionCover
import Greppy.DefinitionSpan
import Greppy.DiffImpact
import Greppy.DiffLines
import Greppy.Discover
import Greppy.DiversifiedQuery
import Greppy.EdgeEnds
import Greppy.EdgeLinks
import Greppy.EdgeLocality
import Greppy.EdgePhase
import Greppy.EdgeResolve
import Greppy.EdgeSettled
import Greppy.EdgeSpine
import Greppy.EditDistance
import Greppy.EmbedQuery
import Greppy.EmbeddingAccount
import Greppy.EmbeddingChunks
import Greppy.EmbeddingIndex
import Greppy.EmbeddingStamp
import Greppy.ExceptMap
import Greppy.ExpandPack
import Greppy.ExpandRuns
import Greppy.ExpandTtl
import Greppy.Extraction
import Greppy.FileDiff
import Greppy.FileTables
import Greppy.Fingerprint
import Greppy.Float32Integers
import Greppy.FreshStamp
import Greppy.FtsMirror
import Greppy.Gguf
import Greppy.GgufLayout
import Greppy.GraphEdges
import Greppy.GraphIndex
import Greppy.GraphSearch
import Greppy.GraphStore
import Greppy.GraphWrites
import Greppy.GroupBest
import Greppy.GuardedRun
import Greppy.HeadRef
import Greppy.IdleExit
import Greppy.IncrementalUpdate
import Greppy.IndexConverge
import Greppy.IndexEffect
import Greppy.IndexFresh
import Greppy.IndexRename
import Greppy.IndexStore
import Greppy.Indexer
import Greppy.InferenceDaemon
import Greppy.Inventory
import Greppy.JobSpawn
import Greppy.Json
import Greppy.KQuants
import Greppy.KeyedTable
import Greppy.Ledger
import Greppy.LexedLines
import Greppy.LiteralSearch
import Greppy.LocalUpdates
import Greppy.Migrate
import Greppy.MostConnected
import Greppy.MultiAnchor
import Greppy.NavTotals
import Greppy.Neighbourhoods
import Greppy.Netstring
import Greppy.Outcome
import Greppy.OutcomeState
import Greppy.PackedBlocks
import Greppy.ParallelExtract
import Greppy.PathQuery
import Greppy.PerGroup
import Greppy.PollLoop
import Greppy.PreparedRows
import Greppy.ProviderStates
import Greppy.PythonCalls
import Greppy.PythonImports
import Greppy.QualifiedLookup
import Greppy.QuantLayout
import Greppy.QuantPacking
import Greppy.QuantRows
import Greppy.QueryCache
import Greppy.Ranking
import Greppy.RawEdges
import Greppy.Reachable
import Greppy.References
import Greppy.RelatedSymbols
import Greppy.Resolver
import Greppy.RowMachines
import Greppy.RowMirror
import Greppy.RustExtract
import Greppy.RustNames
import Greppy.RustReceivers
import Greppy.RustSources
import Greppy.RustStr
import Greppy.RustUseTrees
import Greppy.ScalarDots
import Greppy.ScopeDrift
import Greppy.ScopeKey
import Greppy.ScriptExtract
import Greppy.ScriptSources
import Greppy.SemanticQuery
import Greppy.SemanticScore
import Greppy.SnapshotRun
import Greppy.SourceClips
import Greppy.SourceMerge
import Greppy.SpecExtract
import Greppy.SpeculativeDecode
import Greppy.SqlLike
import Greppy.StoreFiles
import Greppy.Structural
import Greppy.SymbolQueries
import Greppy.SymbolResolution
import Greppy.SyntaxTree
import Greppy.SystemClock
import Greppy.TextLines
import Greppy.TextSplits
import Greppy.TiledMatmul
import Greppy.TokenSimilarity
import Greppy.TraversalLaws
import Greppy.TreeWalks
import Greppy.TriageOutput
import Greppy.UniqueChoice
import Greppy.Usize
import Greppy.Utf8
import Greppy.Utf8Prefix
import Greppy.VectorHits
import Greppy.VectorReuse
import Greppy.VectorSearch
import Greppy.VnniDots
import Greppy.VnniKernels
import Greppy.VnniRows
import Greppy.WaterMark
import Greppy.WorkspaceGeneration
import Greppy.WriteOnce
