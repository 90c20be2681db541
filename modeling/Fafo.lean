import Fafo.Api
import Fafo.Store
import Fafo.Objlog
import Fafo.Outcome
import Fafo.Tasks
import Fafo.History
import Fafo.LogSpecs
import Fafo.TaskSpecs
import Fafo.AppendOnly
import Fafo.DurableRead
import Fafo.Claims
import Fafo.Protosim
import Fafo.Library.Ledger
import Fafo.ProtosimSafety
import Fafo.ProtosimWords
import Fafo.Boot
import Fafo.BootIds
import Fafo.Apply
import Fafo.Library.Lists
import Fafo.Statements
import Fafo.ApplyAtomic
import Fafo.Library.Runs
import Fafo.Ownership
import Fafo.OneSpend
import Fafo.Clock
import Fafo.LockAge
import Fafo.CommitGate
import Fafo.Takeover
import Fafo.Incarnations
import Fafo.LeaseHolders
import Fafo.Routing
import Fafo.Submission
import Fafo.Wills
import Fafo.WillKept
import Fafo.WillRetired
import Fafo.Ephemeral
import Fafo.Legacy
import Fafo.LegacyRecovery
import Fafo.LegacySurvival
import Fafo.Library.Forests
import Fafo.Boats
import Fafo.Components
import Fafo.CutWords
import Fafo.Cutting
import Fafo.Bookkeeping
import Fafo.Acquire
import Fafo.Waiting
import Fafo.Locking
import Fafo.Launching
import Fafo.BoatsKept
import Fafo.Exclusive
import Fafo.Awake
import Fafo.Waking
import Fafo.Sleepless
import Fafo.Polls
import Fafo.Reverts
import Fafo.Grounded
import Fafo.Handling
import Fafo.DurablePolls
import Fafo.Hearing
import Fafo.Gapless
import Fafo.Soundness
import Fafo.Deadlock
import Fafo.Barrier
import Fafo.Snapshots
import Fafo.SnapshotsKept
import Fafo.Library.Solo
import Fafo.Quiescent
import Fafo.FoldFaults
import Fafo.Rollback
import Fafo.Compaction
import Fafo.RacingFold
import Fafo.EdgeRouting
import Fafo.Sessions
import Fafo.Fleet
import Fafo.FleetShares
import Fafo.RoutingHints
import Fafo.HintsKept
import Fafo.Voyages
import Fafo.Rollers
import Fafo.RollerSpecs
import Fafo.RollersHarmless
import Fafo.Deltas
import Fafo.ShipLanding
import Fafo.DeltaShips
import Fafo.Images
import Fafo.Reconstruction
import Fafo.Counted
import Fafo.DeltaChains
import Fafo.DeltaWire
import Fafo.EntryWire
import Fafo.DiskGovernor
import Fafo.LedgerWords
import Fafo.FilesKept
import Fafo.Activation
import Fafo.Listing
import Fafo.FetchRace
import Fafo.Closings
import Fafo.ScanFloor
import Fafo.Library.Words
import Fafo.LeaseBlocks
import Fafo.Connected
import Fafo.RangedReads
import Fafo.HexText
import Fafo.Library.Possibilities
import Fafo.FsStore
import Fafo.PointOps
import Fafo.FsLayout
import Fafo.KeyTexts
import Fafo.FsStoreAtomic
import Fafo.Library.Watching
import Fafo.FsListing
import Fafo.R2Store
import Fafo.R2Creates
import Fafo.R2Listing
import Fafo.Signing
import Fafo.Dates
import Fafo.MemStore
import Fafo.Confinement
import Fafo.Tokens
import Fafo.LeaseTexts
import Fafo.ClusterBoot
import Fafo.WillSpaced
import Fafo.Discipline
import Fafo.Serial
import Fafo.Client
import Fafo.ClaimedRanges
