import FireRedis.Base.Commute
import FireRedis.Base.Counted
import FireRedis.Base.Decimal
import FireRedis.Base.Exposition
import FireRedis.Base.Files
import FireRedis.Base.FiniteMaps
import FireRedis.Base.Float64
import FireRedis.Base.Format
import FireRedis.Base.HttpMessage
import FireRedis.Base.Incremental
import FireRedis.Base.Linearizable
import FireRedis.Base.Maps
import FireRedis.Base.Pool
import FireRedis.Base.Program
import FireRedis.Base.Reader
import FireRedis.Base.Runs
import FireRedis.Base.Simulation
import FireRedis.Base.Tally
import FireRedis.Base.Text
import FireRedis.Base.Truncated
import FireRedis.Base.Utf8
import FireRedis.Base.Windows
import FireRedis.Base.Words
import FireRedis.Commands.Atomic
import FireRedis.Commands.Capabilities
import FireRedis.Commands.Deque
import FireRedis.Commands.Execute
import FireRedis.Commands.Expiry
import FireRedis.Commands.Independent
import FireRedis.Commands.Instants
import FireRedis.Commands.KeyArgs
import FireRedis.Commands.Names
import FireRedis.Commands.Parse
import FireRedis.Commands.Replies
import FireRedis.Commands.ScoreMap
import FireRedis.Commands.SetGrammar
import FireRedis.Commands.Transparent
import FireRedis.Commands.Variadic
import FireRedis.Commands.Writes
import FireRedis.Concurrency.AtOnce
import FireRedis.Concurrency.Counters
import FireRedis.Concurrency.Dirty
import FireRedis.Concurrency.Durability
import FireRedis.Concurrency.Eviction
import FireRedis.Concurrency.Lists
import FireRedis.Concurrency.LogOrder
import FireRedis.Concurrency.Machine
import FireRedis.Concurrency.Orphan
import FireRedis.Concurrency.SetNx
import FireRedis.Concurrency.Shutdown
import FireRedis.Concurrency.Snapshots
import FireRedis.Http
import FireRedis.Http.Page
import FireRedis.Http.Routes
import FireRedis.Keyspace.Abstraction
import FireRedis.Keyspace.Autosave
import FireRedis.Keyspace.Clients
import FireRedis.Keyspace.Collections
import FireRedis.Keyspace.Crashes
import FireRedis.Keyspace.Journal
import FireRedis.Keyspace.Machine
import FireRedis.Keyspace.Runs
import FireRedis.Keyspace.SortedSets
import FireRedis.Keyspace.Strings
import FireRedis.Metrics
import FireRedis.Metrics.Counts
import FireRedis.Metrics.Exported
import FireRedis.Metrics.Histogram
import FireRedis.Metrics.Sessions
import FireRedis.Metrics.Totals
import FireRedis.Persistence.Aof
import FireRedis.Persistence.Deletions
import FireRedis.Persistence.Faithful
import FireRedis.Persistence.Indexes
import FireRedis.Persistence.Lapsed
import FireRedis.Persistence.Leftover
import FireRedis.Persistence.Logged
import FireRedis.Persistence.Manager
import FireRedis.Persistence.Mirror
import FireRedis.Persistence.Overflow
import FireRedis.Persistence.Pipeline
import FireRedis.Persistence.Queries
import FireRedis.Persistence.Rdb
import FireRedis.Persistence.Reachable
import FireRedis.Persistence.Rebuild
import FireRedis.Persistence.Records
import FireRedis.Persistence.Reload
import FireRedis.Persistence.Reopen
import FireRedis.Persistence.Replay
import FireRedis.Persistence.Restart
import FireRedis.Persistence.Rewrite
import FireRedis.Persistence.SetPop
import FireRedis.Persistence.Snapshot
import FireRedis.Persistence.Torn
import FireRedis.Persistence.Traps
import FireRedis.Persistence.Truncated
import FireRedis.Resp.Checked
import FireRedis.Resp.Parse
import FireRedis.Resp.RoundTrip
import FireRedis.Resp.Stable
import FireRedis.Resp.Traps
import FireRedis.Resp.Value
import FireRedis.Server
import FireRedis.Server.Apart
import FireRedis.Server.Frames
import FireRedis.Server.KeyNames
import FireRedis.Server.Requests
import FireRedis.Store.Access
import FireRedis.Store.Collections
import FireRedis.Store.Equivalence
import FireRedis.Store.Fill
import FireRedis.Store.Keeps
import FireRedis.Store.Keyspace
import FireRedis.Store.Listings
import FireRedis.Store.Live
import FireRedis.Store.Pops
import FireRedis.Store.Ranges
import FireRedis.Store.SortedSets
import FireRedis.Store.State
import FireRedis.Store.Ticking
import FireRedis.Store.Values
import FireRedis.Store.Whole
