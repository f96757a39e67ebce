import Travsr.Retrieval.PcstAnswer
import Travsr.Retrieval.PprNoninterference
import Travsr.Store.OwnershipFrame
import Travsr.Store.BatchSplit
import Travsr.Store.Idempotence
import Travsr.Store.FailedFlush
import Travsr.Store.Provenance
import Travsr.Store.OccurrenceOrphans
import Travsr.Store.Convergence
import Travsr.Guard.SessionPruning
import Travsr.Mcp.Redaction
import Travsr.Mcp.ArgPaths
import Travsr.Daemon.QueryCache
import Travsr.Daemon.PhaseBSched
import Travsr.Daemon.PhaseBCompletions
import Travsr.Store.MatchExpr
import Travsr.Store.BulkRoute
import Travsr.PluginHost.BuildRoots
import Travsr.PluginHost.ParseCacheQueue
import Travsr.PluginHost.StderrRing
import Travsr.Daemon.UnifyPacked
import Travsr.Daemon.LexicalLane
import Travsr.Daemon.InheritedCalls
import Travsr.Daemon.TreeReindexRuns
import Travsr.Retrieval.KCorePeeling
import Travsr.Retrieval.PprContraction
import Travsr.Mcp.Confidence
import Travsr.Retrieval.KnapsackContract
import Travsr.Store.Diversify
import Travsr.Guard.ShellSync
import Travsr.Guard.Denial
import Travsr.Core.Segments
import Travsr.Store.SnapSearch
import Travsr.Store.FuzzyCorrect
import Travsr.Indexer.ScipGrammar
import Travsr.Indexer.ModuleTree
import Travsr.Indexer.StripExact
import Travsr.Indexer.LsifJoin
import Travsr.Mcp.RerankBreaker
import Travsr.PluginHost.SidecarVersion
import Travsr.Ipc.Transport
import Travsr.Mcp.GraphCallers
import Travsr.Mcp.BlastNearest
import Travsr.Analysis.Tsconfig
import Travsr.Analysis.Snippet
import Travsr.Analysis.MarkdownAnchors
import Travsr.Analysis.MarkdownCommonMark
import Travsr.Daemon.LogTail
import Travsr.PluginHost.HookWorker
import Travsr.Store.Migration
