import GeneralSearch.Lib.Alignment
import GeneralSearch.Lib.Bytes
import GeneralSearch.Lib.Decoder
import GeneralSearch.Lib.Exec
import GeneralSearch.Lib.File
import GeneralSearch.Lib.Format
import GeneralSearch.Lib.Greedy
import GeneralSearch.Lib.Quorum
import GeneralSearch.Lib.Selection
import GeneralSearch.Lib.Utf8
import GeneralSearch.Storage.Snapshot
import GeneralSearch.Bitmap.PersistentBlockTree
import GeneralSearch.Bitmap.ImmutableBitmap
import GeneralSearch.Bitmap.Denotation
import GeneralSearch.Bitmap.Operations
import GeneralSearch.Bitmap.Results
import GeneralSearch.Bitmap.Runs
import GeneralSearch.Index.AvlDictionary
import GeneralSearch.Index.AvlMap
import GeneralSearch.Index.Equality
import GeneralSearch.Index.OverlayMap
import GeneralSearch.Index.ValueIndex
import GeneralSearch.Engine.Batch
import GeneralSearch.Engine.IndexBuild
import GeneralSearch.Engine.IndexContents
import GeneralSearch.Durable.Acceptance
import GeneralSearch.Durable.Crash
import GeneralSearch.Durable.Recovery
import GeneralSearch.Durable.Retention
import GeneralSearch.Durable.Units
import GeneralSearch.Durable.Writer
import GeneralSearch.Query.Candidates
import GeneralSearch.Query.Planner
import GeneralSearch.Query.Query
import GeneralSearch.Query.Maintenance
import GeneralSearch.Ranked.Coverage
import GeneralSearch.Ranked.Distance
import GeneralSearch.Ranked.Executor
import GeneralSearch.Ranked.Fuzzy
import GeneralSearch.Ranked.Input
import GeneralSearch.Ranked.PhrasePositionAccess
import GeneralSearch.Ranked.PhraseSlop
import GeneralSearch.Ranked.Plan
import GeneralSearch.Ranked.Trie
import GeneralSearch.Ranked.TrieMembership
import GeneralSearch.Ranked.TextIndexBuilder
import GeneralSearch.Ranked.Maintenance
import GeneralSearch.Ranked.PostingTree
import GeneralSearch.Ranked.Registry
import GeneralSearch.Analysis.SimpleAnalyzer
import GeneralSearch.Highlight.Agreement
import GeneralSearch.Highlight.Assembler
import GeneralSearch.Highlight.Evidence
import GeneralSearch.Derived.Agreement
import GeneralSearch.Derived.Format
import GeneralSearch.Derived.Inspector
import GeneralSearch.Derived.Loader
import GeneralSearch.Derived.Payload
import GeneralSearch.Replica.Format
import GeneralSearch.Replica.Generation
import GeneralSearch.Replica.Image
import GeneralSearch.Replica.Install
import GeneralSearch.Replica.Json
import GeneralSearch.Replica.JsonRoundTrip
import GeneralSearch.Replica.Records
import GeneralSearch.Replica.RoundTrips
import GeneralSearch.Replica.Snapshot
import GeneralSearch.Replica.Wire
import GeneralSearch.Replication.Records
import GeneralSearch.Replication.Store
import GeneralSearch.Replication.Ledger
import GeneralSearch.Replication.Reopen
import GeneralSearch.Replication.Protocol
import GeneralSearch.Replication.World
import GeneralSearch.Replication.Steps
import GeneralSearch.Replication.Integrity
import GeneralSearch.Replication.Handlers
import GeneralSearch.Replication.Proposals
import GeneralSearch.Replication.Messages
import GeneralSearch.Replication.Answers
import GeneralSearch.Replication.Group
import GeneralSearch.Replication.Agreement
import GeneralSearch.Replication.Leadership
import GeneralSearch.Replication.Epochs
import GeneralSearch.Replication.ReadQueue
import GeneralSearch.Replication.ReadOwnership
import GeneralSearch.Replication.Transfer
import GeneralSearch.Replication.TransferRuns
import GeneralSearch.Replica.Application
import GeneralSearch.Replica.ApplicationRuns
import GeneralSearch.Lib.Crc32c
import GeneralSearch.Durable.Wal
import GeneralSearch.Durable.WalFrames
import GeneralSearch.Durable.WalTail
import GeneralSearch.Durable.WalScan
import GeneralSearch.Durable.WalDamage
import GeneralSearch.Durable.WalOpen
import GeneralSearch.Durable.Generations
import GeneralSearch.Durable.GenerationRuns
import GeneralSearch.Durable.Checkpoint
import GeneralSearch.Durable.CheckpointFormat
import GeneralSearch.Durable.CheckpointContent
import GeneralSearch.Durable.Opening
