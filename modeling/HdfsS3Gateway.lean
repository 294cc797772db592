import HdfsS3Gateway.Library.Interleaving
import HdfsS3Gateway.Library.History
import HdfsS3Gateway.Library.SortedSearch
import HdfsS3Gateway.Library.Lru
import HdfsS3Gateway.Core.PrefixStart
import HdfsS3Gateway.Core.Range
import HdfsS3Gateway.Core.Metadata
import HdfsS3Gateway.Core.Cache
import HdfsS3Gateway.Core.Pagination
import HdfsS3Gateway.S3.SortedListing
import HdfsS3Gateway.S3.Caches
import HdfsS3Gateway.S3.Error
import HdfsS3Gateway.S3.Gateway
import HdfsS3Gateway.S3.GetObject
import HdfsS3Gateway.S3.Containment
import HdfsS3Gateway.S3.World
import HdfsS3Gateway.S3.Backpressure
import HdfsS3Gateway.S3.Transparency
import HdfsS3Gateway.S3.Staleness
import HdfsS3Gateway.S3.Validity
import HdfsS3Gateway.S3.Versions
import HdfsS3Gateway.S3.BlockMaps
import HdfsS3Gateway.Core.Resolution
import HdfsS3Gateway.Core.Settings
import HdfsS3Gateway.Library.BestFirst
import HdfsS3Gateway.S3.Frontier
import HdfsS3Gateway.Core.KeyRoundTrip
import HdfsS3Gateway.S3.KeyRoundTrip
import HdfsS3Gateway.S3.Validators
import HdfsS3Gateway.Core.Outputs
import HdfsS3Gateway.Core.SlashPages
import HdfsS3Gateway.S3.Namespace
import HdfsS3Gateway.S3.Walk
import HdfsS3Gateway.S3.WalkPages
import HdfsS3Gateway.S3.FlatPages
import HdfsS3Gateway.S3.FlatExact
import HdfsS3Gateway.S3.TreeOutputs
import HdfsS3Gateway.Library.Utf8
import HdfsS3Gateway.S3.ListPages
import HdfsS3Gateway.S3.Tiling
import HdfsS3Gateway.S3.RecursiveWalk
import HdfsS3Gateway.S3.FailedReads
import HdfsS3Gateway.S3.Preconditions
import HdfsS3Gateway.Library.WeightedLru
import HdfsS3Gateway.Core.CacheRuns
import HdfsS3Gateway.Core.Tokens
import HdfsS3Gateway.Library.Notify
import HdfsS3Gateway.Python.Lifecycle
import HdfsS3Gateway.Core.Load
import HdfsS3Gateway.S3.MarkerBounds
import HdfsS3Gateway.S3.Comparators
import HdfsS3Gateway.S3.Etags
import HdfsS3Gateway.Library.Transcript
import HdfsS3Gateway.S3.EngineRuns
import HdfsS3Gateway.S3.ChangingWalk
import HdfsS3Gateway.S3.ChangingPages
import HdfsS3Gateway.S3.ChangingListings
import HdfsS3Gateway.S3.ChangingOutputs
import HdfsS3Gateway.S3.ChangingRequests
import HdfsS3Gateway.S3.ChangingTiling
import HdfsS3Gateway.S3.OwnCommands
import HdfsS3Gateway.S3.UpstreamErrors
import HdfsS3Gateway.S3.ObjectStore
import HdfsS3Gateway.S3.StoredTree
import HdfsS3Gateway.S3.StoreRefinement
import HdfsS3Gateway.Library.Lockstep
import HdfsS3Gateway.S3.ErrorTexts
import HdfsS3Gateway.S3.DepthFirst
import HdfsS3Gateway.S3.Operations
import HdfsS3Gateway.S3.RequestIds
import HdfsS3Gateway.Library.WeakSimulation
import HdfsS3Gateway.S3.OperationRuns
import HdfsS3Gateway.S3.MemoryBounds
import HdfsS3Gateway.Library.Lines
import HdfsS3Gateway.Python.LogBridge
