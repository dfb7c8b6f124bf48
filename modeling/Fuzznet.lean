import Fuzznet.Wire.Bytes
import Fuzznet.Lib.Table
import Fuzznet.Lib.Rounds
import Fuzznet.Chain.Basic
import Fuzznet.Chain.Store
import Fuzznet.Chain.Judge
import Fuzznet.Chain.Epochs
import Fuzznet.Chain.RootPass
import Fuzznet.Chain.Admins
import Fuzznet.Chain.OrderFree
import Fuzznet.Chain.Manifest
import Fuzznet.Chain.Verify
import Fuzznet.Chain.Admit
import Fuzznet.Chain.Commute
import Fuzznet.Chain.Reorder
import Fuzznet.Chain.Latch
import Fuzznet.Chain.Generation
import Fuzznet.Chain.Deficit
import Fuzznet.Admit.Receive
import Fuzznet.Chain.Gate
import Fuzznet.Chain.Overflow
import Fuzznet.Frame.Freshness
import Fuzznet.Chain.RootLog
import Fuzznet.Chain.RootRule
import Fuzznet.Chain.ChainStore
import Fuzznet.Lib.LastRow
import Fuzznet.Record.Journal
import Fuzznet.Record.OneChain
import Fuzznet.Chunk.Reassembly
import Fuzznet.Chunk.Slot
import Fuzznet.Chunk.Table
import Fuzznet.Chunk.Split
import Fuzznet.Chunk.RoundTrip
import Fuzznet.Wire.Seal
import Fuzznet.Admit.Sequence
import Fuzznet.Chunk.Erasure
import Fuzznet.Record.Exchange
import Fuzznet.Record.PullBound
import Fuzznet.Record.Pull
import Fuzznet.Session.Derive
import Fuzznet.Session.Ratchet
import Fuzznet.Session.Establish
import Fuzznet.Record.Push
import Fuzznet.Lib.Disk
import Fuzznet.Notes.Store
import Fuzznet.Lib.Latest
import Fuzznet.Notes.Converge
import Fuzznet.Notes.Purge
import Fuzznet.Node.Buckets
import Fuzznet.Node.BucketsOnce
import Fuzznet.Node.Pushes
import Fuzznet.Wire.Build
import Fuzznet.Wire.Relay
import Fuzznet.Record.Answer
import Fuzznet.Record.HonestPull
import Fuzznet.State.Cells
import Fuzznet.State.SetOfRecords
import Fuzznet.Lib.Text
import Fuzznet.Lib.Pieces
import Fuzznet.Log.Trailer
import Fuzznet.Log.Zstd
import Fuzznet.Log.Pack
import Fuzznet.Log.PackVerify
import Fuzznet.Lib.SortBy
import Fuzznet.Lib.Fields
import Fuzznet.Log.LineTime
import Fuzznet.Lib.SplitTree
import Fuzznet.Blob.Tree
import Fuzznet.Blob.Proof
import Fuzznet.Blob.Span
import Fuzznet.Blob.Levels
import Fuzznet.State.Setting
import Fuzznet.Node.Settings
import Fuzznet.Node.Parked
import Fuzznet.Node.SettingsConverge
import Fuzznet.Node.SettingsRevoked
import Fuzznet.Lib.DeadEnds
import Fuzznet.Node.Grants
import Fuzznet.Lib.Chains
import Fuzznet.Persist.Ops
import Fuzznet.Persist.Cache
import Fuzznet.Persist.CacheRight
import Fuzznet.Persist.Delta
import Fuzznet.Persist.DeltaView
import Fuzznet.Persist.DeltaRuns
import Fuzznet.Lib.Reader
import Fuzznet.Lib.Forks
import Fuzznet.Groups.Act
import Fuzznet.Groups.Apply
import Fuzznet.Groups.Steps
import Fuzznet.Groups.Tables
import Fuzznet.Groups.Logs
import Fuzznet.Groups.Takeover
import Fuzznet.Groups.Backfill
import Fuzznet.Groups.Codec
import Fuzznet.Groups.Offer
import Fuzznet.Groups.OfferLog
import Fuzznet.Groups.Rollback
import Fuzznet.Groups.Replays
import Fuzznet.Groups.Converge
import Fuzznet.Groups.LastPlace
import Fuzznet.Lib.Bitmap
import Fuzznet.Spool.Store
import Fuzznet.Spool.Sound
import Fuzznet.Lib.Slots
import Fuzznet.Spool.Plan
import Fuzznet.Spool.Message
import Fuzznet.Spool.Transfer
import Fuzznet.Lib.Follow
import Fuzznet.Lib.Firsts
import Fuzznet.Chain.Rotation
import Fuzznet.Chain.Succession
import Fuzznet.Chain.Delegate
import Fuzznet.Chain.Issue
import Fuzznet.Chunk.Repeat
import Fuzznet.Catalog.Holders
import Fuzznet.Catalog.Sweep
import Fuzznet.Catalog.Purge
import Fuzznet.Facet.Model
import Fuzznet.Facet.Codec
import Fuzznet.Facet.Decode
import Fuzznet.Facet.OneEncoding
import Fuzznet.Lib.Lasting
import Fuzznet.Node.OpJournal
import Fuzznet.Node.OpWays
import Fuzznet.Node.OpRemove
import Fuzznet.Chunk.SplitWords
import Fuzznet.Chunk.Want
import Fuzznet.Record.Sync
import Fuzznet.Record.Stands
import Fuzznet.Node.Fetch
import Fuzznet.Lib.Reach
import Fuzznet.Tree.Basic
import Fuzznet.Notes.View
import Fuzznet.Lib.Search
import Fuzznet.Notes.ShareReach
import Fuzznet.Notes.Author
import Fuzznet.Log.Words
import Fuzznet.Log.Entry
import Fuzznet.Log.Canonical
import Fuzznet.Lib.Round
import Fuzznet.Lib.Newest
import Fuzznet.Log.Ring
import Fuzznet.Log.RecordLog
import Fuzznet.Log.RecordLogGet
import Fuzznet.Lib.Civil
import Fuzznet.Log.Calendar
import Fuzznet.Log.Capture
import Fuzznet.Log.Classic
import Fuzznet.Log.ClassicLine
import Fuzznet.Log.ClassicRead
import Fuzznet.Node.ChainWalk
import Fuzznet.State.SettingIssue
import Fuzznet.Node.SettingsAgree
import Fuzznet.Node.SettingsWrite
import Fuzznet.Node.SettingsForget
import Fuzznet.Log.PackSteps
import Fuzznet.Catalog.Shard
import Fuzznet.Spool.Spans
