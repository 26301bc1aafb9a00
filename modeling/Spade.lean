import Spade.Block.Agreement
import Spade.Block.Delivery
import Spade.Block.Libraries
import Spade.Block.MapRange
import Spade.Block.ReduceOrder
import Spade.Block.ScalarItems
import Spade.Block.Scanning
import Spade.Block.Types
import Spade.Cache.Copying
import Spade.Cache.Key
import Spade.Cache.Store
import Spade.Cli.Copying
import Spade.Cli.Install
import Spade.Cli.Installs
import Spade.Cli.Language
import Spade.Cli.Latest
import Spade.Cli.Laying
import Spade.Cli.Registry
import Spade.Cli.Served
import Spade.Core.Accepted
import Spade.Core.Acyclic
import Spade.Core.Ambiguity
import Spade.Core.Barrier
import Spade.Core.BoxPool
import Spade.Core.Calls
import Spade.Core.Completion
import Spade.Core.ContentHash
import Spade.Core.Contexts
import Spade.Core.Dependencies
import Spade.Core.Drain
import Spade.Core.Ends
import Spade.Core.FanOut
import Spade.Core.Formed
import Spade.Core.Graph
import Spade.Core.Grounded
import Spade.Core.HashText
import Spade.Core.Held
import Spade.Core.Idle
import Spade.Core.InOrder
import Spade.Core.Indexing
import Spade.Core.InvocationParsers
import Spade.Core.InvocationText
import Spade.Core.Locked
import Spade.Core.Lockfile
import Spade.Core.MultiTenant
import Spade.Core.Once
import Spade.Core.Partition
import Spade.Core.Reachable
import Spade.Core.Reaching
import Spade.Core.Rehydrate
import Spade.Core.Replay
import Spade.Core.Resolution
import Spade.Core.Resolve
import Spade.Core.Rewritten
import Spade.Core.RoundRobin
import Spade.Core.Samples
import Spade.Core.Scheduler
import Spade.Core.SchedulerSteps
import Spade.Core.Sequential
import Spade.Core.Settling
import Spade.Core.ShellQuote
import Spade.Core.ShortCodes
import Spade.Core.Snapshot
import Spade.Core.Sorting
import Spade.Core.Sparing
import Spade.Core.Split
import Spade.Core.Stamped
import Spade.Core.Stranded
import Spade.Core.Substitution
import Spade.Core.Trace
import Spade.Core.Turns
import Spade.Core.Types
import Spade.Core.Update
import Spade.Core.Uuid
import Spade.Core.Valid
import Spade.Core.Validate
import Spade.Core.Walks
import Spade.Data.Area
import Spade.Data.Backend
import Spade.Data.Confined
import Spade.Data.Download
import Spade.Data.Flattened
import Spade.Data.GeoJson
import Spade.Data.Glob
import Spade.Data.Periods
import Spade.Data.Receipts
import Spade.Data.Types
import Spade.Data.Upload
import Spade.Data.Uri
import Spade.Data.Walk
import Spade.Lib.BoundedPaths
import Spade.Lib.Boxes
import Spade.Lib.Colouring
import Spade.Lib.DepthFirst
import Spade.Lib.FileSystem
import Spade.Lib.FirstFit
import Spade.Lib.Following
import Spade.Lib.ForcedPairs
import Spade.Lib.GoMap
import Spade.Lib.GrayPath
import Spade.Lib.Greedy
import Spade.Lib.IdleSteps
import Spade.Lib.Interning
import Spade.Lib.Kahn
import Spade.Lib.KeyedRows
import Spade.Lib.Located
import Spade.Lib.Making
import Spade.Lib.Numerals
import Spade.Lib.Occurrences
import Spade.Lib.Records
import Spade.Lib.Runs
import Spade.Lib.Shell
import Spade.Lib.Strides
import Spade.Lib.Successors
import Spade.Lib.Table
import Spade.Lib.Trees
import Spade.Lib.Url
import Spade.Lib.UrlPath
import Spade.Lib.Utf16
import Spade.Lib.Wildcard
import Spade.Lib.Words
import Spade.Lib.WorkQueue
import Spade.Lib.Writes
import Spade.Runner.Arguments
import Spade.Runner.Directory
import Spade.Runner.Gather
import Spade.Runner.Inputs
import Spade.Runner.Job
import Spade.Runner.Links
import Spade.Runner.Loop
import Spade.Runner.MapReduce
import Spade.Runner.Planned
import Spade.Runner.Redelivery
import Spade.Runner.RoundTrip
import Spade.Runner.Wire
import Spade.Server.Barrier
import Spade.Server.Callbacks
import Spade.Server.Completion
import Spade.Server.Crash
import Spade.Server.Custody
import Spade.Server.Durable
import Spade.Server.DurableSteps
import Spade.Server.Engine
import Spade.Server.Faults
import Spade.Server.FirstResult
import Spade.Server.Halt
import Spade.Server.Handoff
import Spade.Server.Hiding
import Spade.Server.Identity
import Spade.Server.Isolation
import Spade.Server.Outbox
import Spade.Server.PgStore
import Spade.Server.Records
import Spade.Server.Recovery
import Spade.Server.Refinement
import Spade.Server.Retry
import Spade.Server.Revival
import Spade.Server.Rows
import Spade.Server.RunsTable
import Spade.Server.Samples
import Spade.Server.Separate
import Spade.Server.StatusRace
import Spade.Server.Steps
import Spade.Server.Store
import Spade.Server.Submission
import Spade.Server.Sweep
import Spade.Server.Terminal
import Spade.Server.Tracking
import Spade.Server.Views
import Spade.Server.World
import Spade.Server.Writers
import Spade.Server.Zombie
import Spade.Web.Bindings
import Spade.Web.Candidates
import Spade.Web.Confirm
import Spade.Web.Cycle
import Spade.Web.EntryNames
import Spade.Web.Flow
import Spade.Web.Kept
import Spade.Web.MapAgreement
import Spade.Web.MapContext
import Spade.Web.Pairs
import Spade.Web.PortOrder
import Spade.Web.Quiet
import Spade.Web.Regrouped
import Spade.Web.Reopen
import Spade.Web.Reopened
import Spade.Web.RunAccess
import Spade.Web.ShortCodes
import Spade.Web.Submit
import Spade.Web.Validate
import Spade.Web.Wiring
