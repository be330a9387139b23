import SourceChunks.BatchRunner
import SourceChunks.BatchRunner.Crew
import SourceChunks.Binary64
import SourceChunks.Binary64.Shortest
import SourceChunks.Bytes
import SourceChunks.Bytes.Line
import SourceChunks.Bytes.Order
import SourceChunks.Bytes.Utf8
import SourceChunks.Calendar
import SourceChunks.Chunk
import SourceChunks.Chunk.Block
import SourceChunks.Chunk.Document
import SourceChunks.Chunk.Parser
import SourceChunks.ChunkDiff
import SourceChunks.ChunkDiff.Apply
import SourceChunks.ChunkDiff.Compute
import SourceChunks.ChunkDiff.Move
import SourceChunks.Dict
import SourceChunks.DiskCache
import SourceChunks.DiskCache.Entry
import SourceChunks.DiskCache.Exchange
import SourceChunks.DiskCache.Record
import SourceChunks.EditScript
import SourceChunks.EditScript.Region
import SourceChunks.EditScript.Search
import SourceChunks.Failure
import SourceChunks.FileTree
import SourceChunks.FileTree.Access
import SourceChunks.FileTree.Edit
import SourceChunks.FileTree.Scan
import SourceChunks.Glob
import SourceChunks.IgnoreList
import SourceChunks.Instant
import SourceChunks.JobQueue
import SourceChunks.Json
import SourceChunks.Json.Field
import SourceChunks.Json.Parser
import SourceChunks.Json.Printer
import SourceChunks.Language
import SourceChunks.MemoryCache
import SourceChunks.MemoryCache.Lru
import SourceChunks.Monitor
import SourceChunks.Path
import SourceChunks.Pipeline
import SourceChunks.Pool
import SourceChunks.Pool.Custody
import SourceChunks.Pool.Resource
import SourceChunks.Proofs.Binary64.Rounding
import SourceChunks.Proofs.Binary64.Shortest
import SourceChunks.Proofs.Bytes.Decimal
import SourceChunks.Proofs.Bytes.Marks
import SourceChunks.Proofs.Bytes.Utf8
import SourceChunks.Proofs.Calendar
import SourceChunks.Proofs.Chunk.Blocks
import SourceChunks.Proofs.Chunk.Cutting
import SourceChunks.Proofs.Chunk.Document
import SourceChunks.Proofs.Chunk.Fate
import SourceChunks.Proofs.Chunk.Identity
import SourceChunks.Proofs.Chunk.Naming
import SourceChunks.Proofs.Chunk.Partition
import SourceChunks.Proofs.Chunk.Position
import SourceChunks.Proofs.ChunkDiff.Application
import SourceChunks.Proofs.ChunkDiff.Matching
import SourceChunks.Proofs.ChunkDiff.Partition
import SourceChunks.Proofs.ChunkDiff.Selection
import SourceChunks.Proofs.Dict
import SourceChunks.Proofs.DiskCache.Corruption
import SourceChunks.Proofs.DiskCache.Entry
import SourceChunks.Proofs.DiskCache.Exchange
import SourceChunks.Proofs.DiskCache.FailedStores
import SourceChunks.Proofs.DiskCache.Gate
import SourceChunks.Proofs.DiskCache.Histories
import SourceChunks.Proofs.DiskCache.Layout
import SourceChunks.Proofs.DiskCache.Operations
import SourceChunks.Proofs.DiskCache.Refinement
import SourceChunks.Proofs.DiskCache.Rejection
import SourceChunks.Proofs.DiskCache.Shape
import SourceChunks.Proofs.DiskCache.Soundness
import SourceChunks.Proofs.DiskCache.Transfer
import SourceChunks.Proofs.DiskCache.WellFormed
import SourceChunks.Proofs.DiskCache.Writing
import SourceChunks.Proofs.EditScript.Minimality
import SourceChunks.Proofs.EditScript.Reach
import SourceChunks.Proofs.EditScript.Regions
import SourceChunks.Proofs.EditScript.Script
import SourceChunks.Proofs.EditScript.Search
import SourceChunks.Proofs.EditScript.Steps
import SourceChunks.Proofs.EditScript.Subsequence
import SourceChunks.Proofs.FileTree.Entries
import SourceChunks.Proofs.FileTree.Folder
import SourceChunks.Proofs.FileTree.Neighbours
import SourceChunks.Proofs.FileTree.Places
import SourceChunks.Proofs.Glob
import SourceChunks.Proofs.Instant
import SourceChunks.Proofs.Json.Double
import SourceChunks.Proofs.Json.Field
import SourceChunks.Proofs.Json.RoundTrip
import SourceChunks.Proofs.Json.Tokens
import SourceChunks.Proofs.Json.WellFormed
import SourceChunks.Proofs.Json.Writable
import SourceChunks.Proofs.MemoryCache
import SourceChunks.Proofs.MemoryCache.Files
import SourceChunks.Proofs.MemoryCache.Histories
import SourceChunks.Proofs.MemoryCache.Inclusion
import SourceChunks.Proofs.MemoryCache.Lru
import SourceChunks.Proofs.Path
import SourceChunks.Proofs.Pipeline.Caches
import SourceChunks.Proofs.Pipeline.Calls
import SourceChunks.Proofs.Pipeline.Coherence
import SourceChunks.Proofs.Pipeline.Failures
import SourceChunks.Proofs.Pipeline.Histories
import SourceChunks.Proofs.Pipeline.Languages
import SourceChunks.Proofs.Pipeline.Patching
import SourceChunks.Proofs.Pipeline.Processing
import SourceChunks.Proofs.Pipeline.Session
import SourceChunks.Proofs.Pipeline.Transparency
import SourceChunks.Proofs.SearchIndex
import SourceChunks.Proofs.Sha256.Digest
import SourceChunks.Proofs.Sha256.Streaming
import SourceChunks.Scalar
import SourceChunks.SearchIndex
import SourceChunks.Settings
import SourceChunks.Sha256.Compression
import SourceChunks.Sha256.Hasher
import SourceChunks.Similarity
import SourceChunks.Proofs.History
import SourceChunks.Proofs.MemoryCache.Lifetimes
import SourceChunks.Proofs.MemoryCache.Levels
import SourceChunks.Proofs.MemoryCache.Accounting
import SourceChunks.Proofs.MemoryCache.Linked
import SourceChunks.Proofs.JobQueue
import SourceChunks.Proofs.MemoryCache.Recency
import SourceChunks.Proofs.JobQueue.Histories
import SourceChunks.Proofs.BatchRunner.Batch
import SourceChunks.Proofs.BatchRunner.Crew
import SourceChunks.Proofs.BatchRunner.Directory
import SourceChunks.Proofs.BatchRunner.File
import SourceChunks.Proofs.JobQueue.Order
import SourceChunks.Proofs.Monitor
import SourceChunks.Proofs.Pool
import SourceChunks.Proofs.Pool.Conservation
import SourceChunks.Proofs.Pool.Custody
import SourceChunks.Proofs.Pool.Leases
import SourceChunks.Proofs.Pool.Operations
import SourceChunks.Proofs.Pool.Parsers
import SourceChunks.Proofs.Termination
import SourceChunks.Proofs.Similarity.Edits
import SourceChunks.Proofs.Similarity.Rows
import SourceChunks.Proofs.Similarity
import SourceChunks.Proofs.ChunkDiff.Scoring
import SourceChunks.Proofs.ChunkDiff.Greedy
import SourceChunks.Proofs.Bytes.Lines
import SourceChunks.Proofs.Chunk.Locality
import SourceChunks.Proofs.Chunk.Rechunking
import SourceChunks.Proofs.ChunkDiff.Merging
import SourceChunks.Proofs.EditScript.Coverage
import SourceChunks.Proofs.JobQueue.Drawing
import SourceChunks.Proofs.JobQueue.Priority
import SourceChunks.Proofs.JobQueue.Requeueing
import SourceChunks.Regex
import SourceChunks.Glob.Expression
import SourceChunks.Proofs.Regex
import SourceChunks.Proofs.Glob.Expression
import SourceChunks.BatchRunner.SharedBatch
import SourceChunks.Proofs.BatchRunner.Cancellation
import SourceChunks.Proofs.Scalar
import SourceChunks.Proofs.SearchIndex.Cost
import SourceChunks.Proofs.Monitor.Histories
import SourceChunks.Proofs.Monitor.Records
import SourceChunks.Proofs.Monitor.Summaries
import SourceChunks.Proofs.Monitor.Session
import SourceChunks.FileTree.Iterator
import SourceChunks.Proofs.FileTree.Scan
import SourceChunks.Proofs.EditScript.Phases
import SourceChunks.Proofs.Sha256.Standard
import SourceChunks.Proofs.Sha256.Constants
import SourceChunks.Proofs.Sha256.Compression
import SourceChunks.Proofs.Sha256.Message
