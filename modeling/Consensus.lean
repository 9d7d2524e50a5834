import Consensus.Basic
import Consensus.Cluster.Basic
import Consensus.Cluster.Client
import Consensus.Cluster.Clock
import Consensus.Cluster.Delivery
import Consensus.Cluster.EventLoop
import Consensus.Cluster.Handle
import Consensus.Cluster.Lifecycle
import Consensus.Cluster.Network
import Consensus.Cluster.Replicators
import Consensus.Codec.Message
import Consensus.Codec.Stored
import Consensus.CommandLine.Arguments
import Consensus.CommandLine.Local
import Consensus.CommandLine.Report
import Consensus.Entry
import Consensus.Error
import Consensus.Gateway
import Consensus.Journal
import Consensus.Json.Basic
import Consensus.Json.Grammar
import Consensus.Json.Printer
import Consensus.Json.Record
import Consensus.Json.Scalar
import Consensus.Log
import Consensus.Main
import Consensus.Membership
import Consensus.Message.Basic
import Consensus.Message.Description
import Consensus.Node.Basic
import Consensus.Node.Commit
import Consensus.Node.Effect
import Consensus.Node.Election
import Consensus.Node.Recovery
import Consensus.Node.Replication
import Consensus.Node.Requests
import Consensus.Node.Step
import Consensus.NodeSet
import Consensus.Progress
import Consensus.Proofs.Backing
import Consensus.Proofs.Chronicle
import Consensus.Proofs.Codec
import Consensus.Proofs.Commands
import Consensus.Proofs.Compaction
import Consensus.Proofs.Convergence
import Consensus.Proofs.Counting
import Consensus.Proofs.Disk
import Consensus.Proofs.Ensures
import Consensus.Proofs.Entries
import Consensus.Proofs.Failing
import Consensus.Proofs.Files
import Consensus.Proofs.Gapless
import Consensus.Proofs.Journal
import Consensus.Proofs.JournalLog
import Consensus.Proofs.Json.Legible
import Consensus.Proofs.Json.Prefix
import Consensus.Proofs.Json.Record
import Consensus.Proofs.Json.Recovery
import Consensus.Proofs.Json.RoundTrip
import Consensus.Proofs.Json.Scalar
import Consensus.Proofs.Ledger.Basic
import Consensus.Proofs.Ledger.Completeness
import Consensus.Proofs.Ledger.Steps
import Consensus.Proofs.Log
import Consensus.Proofs.LogAgreement
import Consensus.Proofs.LogView
import Consensus.Proofs.Majority
import Consensus.Proofs.Membership
import Consensus.Proofs.Merging
import Consensus.Proofs.Messages
import Consensus.Proofs.Mirrored
import Consensus.Proofs.Node.Answering
import Consensus.Proofs.Node.Applying
import Consensus.Proofs.Node.Aside
import Consensus.Proofs.Node.Attending
import Consensus.Proofs.Node.Bounding
import Consensus.Proofs.Node.Breaking
import Consensus.Proofs.Node.Committing
import Consensus.Proofs.Node.Confirming
import Consensus.Proofs.Node.Course
import Consensus.Proofs.Node.Deeds
import Consensus.Proofs.Node.Deposing
import Consensus.Proofs.Node.Dispatching
import Consensus.Proofs.Node.Dues
import Consensus.Proofs.Node.Electing
import Consensus.Proofs.Node.Enlisting
import Consensus.Proofs.Node.Feeding
import Consensus.Proofs.Node.Fitness
import Consensus.Proofs.Node.Following
import Consensus.Proofs.Node.Fresh
import Consensus.Proofs.Node.Giving
import Consensus.Proofs.Node.Handling
import Consensus.Proofs.Node.Heeding
import Consensus.Proofs.Node.Idle
import Consensus.Proofs.Node.InWords
import Consensus.Proofs.Node.Installing
import Consensus.Proofs.Node.Keeping
import Consensus.Proofs.Node.Leading
import Consensus.Proofs.Node.Level
import Consensus.Proofs.Node.Offices
import Consensus.Proofs.Node.Peering
import Consensus.Proofs.Node.Pledging
import Consensus.Proofs.Node.Preempting
import Consensus.Proofs.Node.Proposing
import Consensus.Proofs.Node.Recovering
import Consensus.Proofs.Node.Redirecting
import Consensus.Proofs.Node.Refusing
import Consensus.Proofs.Node.Replicating
import Consensus.Proofs.Node.Resuming
import Consensus.Proofs.Node.Room
import Consensus.Proofs.Node.Seating
import Consensus.Proofs.Node.Serving
import Consensus.Proofs.Node.Sole
import Consensus.Proofs.Node.Solitary
import Consensus.Proofs.Node.Standing
import Consensus.Proofs.Node.Tracing
import Consensus.Proofs.Node.Tracks
import Consensus.Proofs.Node.Unfailing
import Consensus.Proofs.Node.Waiting
import Consensus.Proofs.Node.Words
import Consensus.Proofs.Recorder
import Consensus.Proofs.Redelivery
import Consensus.Proofs.Reopening
import Consensus.Proofs.Replay
import Consensus.Proofs.Retention
import Consensus.Proofs.SoundLog
import Consensus.Proofs.Storage
import Consensus.Proofs.Stores
import Consensus.Proofs.Table
import Consensus.Proofs.Tearing
import Consensus.Proofs.Text.Utf8
import Consensus.Proofs.Words
import Consensus.Proofs.World.Account
import Consensus.Proofs.World.Agreement
import Consensus.Proofs.World.Applied
import Consensus.Proofs.World.Approval
import Consensus.Proofs.World.Backing
import Consensus.Proofs.World.Basic
import Consensus.Proofs.World.Consistency
import Consensus.Proofs.World.Constitution
import Consensus.Proofs.World.Deposition
import Consensus.Proofs.World.Election
import Consensus.Proofs.World.Forgetting
import Consensus.Proofs.World.Life
import Consensus.Proofs.World.Matching
import Consensus.Proofs.World.Recovery
import Consensus.Proofs.World.Relay
import Consensus.Proofs.World.Script
import Consensus.Proofs.World.Service
import Consensus.Proofs.World.Solitude
import Consensus.Proofs.World.Submission
import Consensus.Proofs.World.Tenure
import Consensus.Proofs.WriteThrough
import Consensus.Quorum
import Consensus.Recorder
import Consensus.Replica
import Consensus.Settings
import Consensus.Standing
import Consensus.Storage
import Consensus.Storage.Directory
import Consensus.Storage.FileTree
import Consensus.Storage.Memory
import Consensus.Table
import Consensus.Text.Blank
import Consensus.Text.GraphemeExtend
import Consensus.Text.Quoted
import Consensus.Text.Unprintable
import Consensus.Text.Utf8
import Consensus.Timer
