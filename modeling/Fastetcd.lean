import Fastetcd.Data.BigEndian
import Fastetcd.Data.Bincode
import Fastetcd.Data.Checked
import Fastetcd.Data.Merge
import Fastetcd.Data.Patch
import Fastetcd.Data.ReaderCut
import Fastetcd.Data.StreamCodec
import Fastetcd.Data.Table
import Fastetcd.Data.Timeline
import Fastetcd.Data.WriteAt
import Fastetcd.Data.Writer
import Fastetcd.Laws.Mvcc.Answers
import Fastetcd.Laws.Mvcc.CachedReads
import Fastetcd.Laws.Mvcc.Commit
import Fastetcd.Laws.Mvcc.Compaction
import Fastetcd.Laws.Mvcc.Content
import Fastetcd.Laws.Mvcc.Guarantees
import Fastetcd.Laws.Mvcc.KeyIndex
import Fastetcd.Laws.Mvcc.LeaseGuarantees
import Fastetcd.Laws.Mvcc.Leases
import Fastetcd.Laws.Mvcc.ListWatch
import Fastetcd.Laws.Mvcc.Moves
import Fastetcd.Laws.Mvcc.Mutations
import Fastetcd.Laws.Mvcc.Overlay
import Fastetcd.Laws.Mvcc.OverlayReads
import Fastetcd.Laws.Mvcc.PrevKv
import Fastetcd.Laws.Mvcc.ReadHistory
import Fastetcd.Laws.Mvcc.ReadViews
import Fastetcd.Laws.Mvcc.Reference
import Fastetcd.Laws.Mvcc.Replay
import Fastetcd.Laws.Mvcc.Requests
import Fastetcd.Laws.Mvcc.Runs
import Fastetcd.Laws.Mvcc.SharedCommit
import Fastetcd.Laws.Mvcc.SideCommits
import Fastetcd.Laws.Mvcc.Told
import Fastetcd.Laws.Mvcc.Transactions
import Fastetcd.Laws.Mvcc.Trimming
import Fastetcd.Laws.Mvcc.WatchHistory
import Fastetcd.Laws.Raft.AuthIntegrity
import Fastetcd.Laws.Raft.BoundedClock
import Fastetcd.Laws.Raft.Convergence
import Fastetcd.Laws.Raft.DurableMark
import Fastetcd.Laws.Raft.LeaseDates
import Fastetcd.Laws.Raft.Lessor
import Fastetcd.Laws.Raft.Position
import Fastetcd.Laws.Raft.Precheck
import Fastetcd.Laws.Raft.ProposalLog
import Fastetcd.Laws.Raft.Proposer
import Fastetcd.Laws.Raft.PurgePoint
import Fastetcd.Laws.Raft.ReadIndex
import Fastetcd.Laws.Raft.Replaying
import Fastetcd.Laws.Raft.Replica
import Fastetcd.Laws.Raft.Snapshot
import Fastetcd.Laws.Raft.SnapshotData
import Fastetcd.Laws.Raft.SnapshotStream
import Fastetcd.Laws.Raft.Tokens
import Fastetcd.Laws.Raft.Turns
import Fastetcd.Laws.Raft.TwoSides
import Fastetcd.Laws.Raft.WalLogStore
import Fastetcd.Laws.Server.Authz
import Fastetcd.Laws.Server.Backup
import Fastetcd.Laws.Server.Cluster
import Fastetcd.Laws.Server.Fragments
import Fastetcd.Laws.Server.HashKv
import Fastetcd.Laws.Server.LeaseTimeToLive
import Fastetcd.Laws.Server.RangeOptions
import Fastetcd.Laws.Server.Recovery
import Fastetcd.Laws.Server.Space
import Fastetcd.Laws.Server.WatchIds
import Fastetcd.Laws.Server.WatchReplay
import Fastetcd.Laws.Server.WatchSteps
import Fastetcd.Laws.Storage.Flushing
import Fastetcd.Laws.Storage.Overlay
import Fastetcd.Laws.Storage.PowerLoss
import Fastetcd.Laws.Storage.RaftLog
import Fastetcd.Laws.Storage.RaftWal
import Fastetcd.Laws.Storage.RaftWalFormat
import Fastetcd.Laws.Storage.Rewrite
import Fastetcd.Laws.Storage.Snapshot
import Fastetcd.Mvcc.Apply
import Fastetcd.Mvcc.Auth
import Fastetcd.Mvcc.CachedReads
import Fastetcd.Mvcc.Engine
import Fastetcd.Mvcc.History
import Fastetcd.Mvcc.Lease
import Fastetcd.Mvcc.Maintenance
import Fastetcd.Mvcc.ReadViews
import Fastetcd.Mvcc.Record
import Fastetcd.Mvcc.Reference
import Fastetcd.Mvcc.Replay
import Fastetcd.Mvcc.Request
import Fastetcd.Mvcc.Revision
import Fastetcd.Mvcc.Run
import Fastetcd.Mvcc.Store
import Fastetcd.Raft.BoundedClock
import Fastetcd.Raft.Cluster
import Fastetcd.Raft.Durability
import Fastetcd.Raft.Lessor
import Fastetcd.Raft.Precheck
import Fastetcd.Raft.ProposalLog
import Fastetcd.Raft.Proposer
import Fastetcd.Raft.PurgePoint
import Fastetcd.Raft.ReadIndex
import Fastetcd.Raft.Snapshot
import Fastetcd.Raft.SnapshotData
import Fastetcd.Raft.SnapshotStream
import Fastetcd.Raft.StateMachine
import Fastetcd.Raft.Tokens
import Fastetcd.Raft.WalLogStore
import Fastetcd.Server.Authz
import Fastetcd.Server.Backup
import Fastetcd.Server.Cluster
import Fastetcd.Server.Fragments
import Fastetcd.Server.HashKv
import Fastetcd.Server.LeaseTimeToLive
import Fastetcd.Server.Recovery
import Fastetcd.Server.Requests
import Fastetcd.Server.Space
import Fastetcd.Server.Watch
import Fastetcd.Storage.Flushing
import Fastetcd.Storage.KvStore
import Fastetcd.Storage.PowerLoss
import Fastetcd.Storage.RaftLog
import Fastetcd.Storage.RaftWal
import Fastetcd.Storage.Rewrite
import Fastetcd.Storage.WriteBehind
