import FireRedis.Server

/-!
# Runtime metrics (metrics.rs)

The counters are atomic: each recorder adds to a few of them, modulo 2^64. A
`Recording` is one call of a recorder, and a run of the server is a list of them
in the order they took place. `snapshot` reads every counter.
-/

namespace FireRedis
open Std

/-- Bucket boundaries for command-latency histograms, in microseconds. -/
def latencyBucketsUs : Vector UInt64 8 := #v[10, 50, 100, 500, 1000, 5000, 10000, 50000]

structure MetricsSnapshot where
  totalCommands : UInt64
  errorCommands : UInt64
  totalConnections : UInt64
  activeConnections : Int64
  evictedKeys : UInt64
  rdbSaves : UInt64
  aofWrites : UInt64
  aofRewrites : UInt64
  totalNetInputBytes : UInt64
  totalNetOutputBytes : UInt64
  expiredKeys : UInt64
  totalKeys : Int64
  keyspaceHits : UInt64
  keyspaceMisses : UInt64
  uptimeSeconds : UInt64
  commandCounts : List (Str × UInt64)
  totalLatencyUs : UInt64
  latencyCount : UInt64
  latencyBuckets : List (UInt64 × UInt64)

-- The start time is left out: the uptime is an argument of `snapshot`.
structure Metrics where
  totalCommands : UInt64
  errorCommands : UInt64
  totalConnections : UInt64
  activeConnections : Int64
  evictedKeys : UInt64
  rdbSaves : UInt64
  aofWrites : UInt64
  aofRewrites : UInt64
  totalNetInputBytes : UInt64
  totalNetOutputBytes : UInt64
  expiredKeys : UInt64
  totalKeys : Int64
  keyspaceHits : UInt64
  keyspaceMisses : UInt64
  commandCounts : ExtTreeMap Str UInt64
  totalLatencyUs : UInt64
  latencyCount : UInt64
  latencyBuckets : Vector UInt64 8

/-- The order in which `DashMap::iter` yields the counted names. -/
structure CountOrder where
  counts : ExtTreeMap Str UInt64 → List (Str × UInt64)
  counts_perm : ∀ C, (counts C).Perm C.toList

def CountOrder.sorted : CountOrder := ⟨ExtTreeMap.toList, fun _ => .refl _⟩

namespace Metrics

def new : Metrics where
  totalCommands := 0
  errorCommands := 0
  totalConnections := 0
  activeConnections := 0
  evictedKeys := 0
  rdbSaves := 0
  aofWrites := 0
  aofRewrites := 0
  totalNetInputBytes := 0
  totalNetOutputBytes := 0
  expiredKeys := 0
  totalKeys := 0
  keyspaceHits := 0
  keyspaceMisses := 0
  commandCounts := ∅
  totalLatencyUs := 0
  latencyCount := 0
  latencyBuckets := Vector.replicate 8 0

variable (m : Metrics)

/-! ### Recorders -/

def recordCommandNamed (cmdName : Str) : Metrics :=
  { m with
    totalCommands := m.totalCommands + 1
    commandCounts := m.commandCounts.alter cmdName fun count => some (count.getD 0 + 1) }

def recordError : Metrics := { m with errorCommands := m.errorCommands + 1 }

def recordConnectionOpened : Metrics :=
  { m with
    totalConnections := m.totalConnections + 1
    activeConnections := m.activeConnections + 1 }

def recordConnectionClosed : Metrics :=
  { m with activeConnections := m.activeConnections - 1 }

def recordEvicted (count : UInt64) : Metrics :=
  if 0 < count then { m with evictedKeys := m.evictedKeys + count } else m

def recordRdbSave : Metrics := { m with rdbSaves := m.rdbSaves + 1 }

def recordNetOutput (bytes : UInt64) : Metrics :=
  { m with totalNetOutputBytes := m.totalNetOutputBytes + bytes }

def setTotalKeys (count : Int64) : Metrics := { m with totalKeys := count }

def recordKeyspaceHit : Metrics := { m with keyspaceHits := m.keyspaceHits + 1 }

def recordKeyspaceMiss : Metrics := { m with keyspaceMisses := m.keyspaceMisses + 1 }

/-- The bucket a latency is recorded into: the first whose threshold it does not
exceed. -/
def bucketOf (elapsedUs : UInt64) : Option (Fin 8) :=
  Fin.find? fun i => elapsedUs ≤ latencyBucketsUs.get i

def recordLatency (elapsedUs : UInt64) : Metrics :=
  { m with
    totalLatencyUs := m.totalLatencyUs + elapsedUs
    latencyCount := m.latencyCount + 1
    latencyBuckets :=
      match bucketOf elapsedUs with
      | some i => m.latencyBuckets.set i (m.latencyBuckets.get i + 1)
      | none => m.latencyBuckets }

/-! ### What the server records (server.rs) -/

def trackKeyspaceMetrics (response : Value) : Metrics :=
  match response with
  | .bulkString (some _) => m.recordKeyspaceHit
  | .bulkString none => m.recordKeyspaceMiss
  | .array (some items) => if items.isEmpty then m.recordKeyspaceMiss else m.recordKeyspaceHit
  | .null => m.recordKeyspaceMiss
  | _ => m

mutual

def estimateValueSize : Value → ℕ
  | .simpleString s => s.bytes.length
  | .error s => s.bytes.length
  | .integer _ => 8
  | .bulkString (some b) => b.length
  | .bulkString none => 0
  | .null => 0
  | .array (some items) => estimateSizes items
  | .array none => 0

def estimateSizes : List Value → ℕ
  | [] => 0
  | item :: items => estimateValueSize item + estimateSizes items

end

/-- `handle_connection` counts the name of a request before it executes it. -/
def received (frame : Value) : Metrics :=
  match frame with
  | .array (some (arg :: args)) => m.recordCommandNamed (commandName (arg :: args))
  | _ => m

/-- What `handle_connection` records about a reply, the latency apart. -/
def answered (response : Value) : Metrics :=
  let m := m.trackKeyspaceMetrics response
  let m := m.recordNetOutput (UInt64.ofNat (estimateValueSize response))
  match response with
  | .error _ => m.recordError
  | _ => m

end Metrics

/-- One call of a recorder; a request is given by its frame. -/
inductive Recording where
  | connectionOpened
  | connectionClosed
  | received (frame : Value)
  | latency (elapsedUs : UInt64)
  | answered (response : Value)
  | evicted (count : UInt64)
  | rdbSave
  | totalKeys (count : Int64)

namespace Metrics

def record (m : Metrics) : Recording → Metrics
  | .connectionOpened => m.recordConnectionOpened
  | .connectionClosed => m.recordConnectionClosed
  | .received frame => m.received frame
  | .latency elapsedUs => m.recordLatency elapsedUs
  | .answered response => m.answered response
  | .evicted count => m.recordEvicted count
  | .rdbSave => m.recordRdbSave
  | .totalKeys count => m.setTotalKeys count

/-- The counters after a run of the server. -/
def run (recordings : List Recording) : Metrics := recordings.foldl record new

/-! ### Snapshot -/

def snapshot (m : Metrics) (ord : CountOrder) (uptimeSeconds : UInt64) : MetricsSnapshot where
  totalCommands := m.totalCommands
  errorCommands := m.errorCommands
  totalConnections := m.totalConnections
  activeConnections := m.activeConnections
  evictedKeys := m.evictedKeys
  rdbSaves := m.rdbSaves
  aofWrites := m.aofWrites
  aofRewrites := m.aofRewrites
  totalNetInputBytes := m.totalNetInputBytes
  totalNetOutputBytes := m.totalNetOutputBytes
  expiredKeys := m.expiredKeys
  totalKeys := m.totalKeys
  keyspaceHits := m.keyspaceHits
  keyspaceMisses := m.keyspaceMisses
  uptimeSeconds := uptimeSeconds
  -- A stable sort, descending by count.
  commandCounts := (ord.counts m.commandCounts).mergeSort fun a b => decide (b.2 ≤ a.2)
  totalLatencyUs := m.totalLatencyUs
  latencyCount := m.latencyCount
  latencyBuckets := latencyBucketsUs.toList.zip m.latencyBuckets.toList

end Metrics

end FireRedis
