import FireRedis.Base.Exposition
import FireRedis.Metrics

/-!
# The metrics page (http.rs)

`handle_metrics` writes a snapshot as one family of three lines for each counter,
one for each counted command name, and the latency histogram. The names are what
clients sent, so a line of a command's family may itself hold line feeds.
-/

namespace FireRedis.Http
open Str Decimal Exposition

/-! ### Responses -/

def ok : Bytes := utf8 "HTTP/1.1 200 OK\r\n"

def contentLen (n : ℕ) : Bytes := utf8 "Content-Length: " ++ decimal n ++ utf8 "\r\n"

def responseHeaders (contentType : Bytes) : Bytes :=
  utf8 "Content-Type: " ++ contentType ++ utf8 "\r\nConnection: close\r\n\r\n"

def okResponse (contentType body : Bytes) : Bytes :=
  ok ++ contentLen body.length ++ responseHeaders contentType ++ body

/-- What follows the first blank line of a response. -/
def responseBody : Bytes → Bytes
  | [] => []
  | b :: rest => if (crlf ++ crlf).isPrefixOf (b :: rest) then rest.drop 3 else responseBody rest

/-! ### The text -/

/-- The help, the type and the sample of one series. -/
def family (name help kind value : Bytes) : Bytes :=
  unlines [utf8 "# HELP " ++ name ++ 0x20 :: help, utf8 "# TYPE " ++ name ++ 0x20 :: kind,
    name ++ 0x20 :: value]

def counters (s : MetricsSnapshot) : List (String × String × String × Bytes) :=
  [("fire_redis_total_commands", "Total number of commands processed", "counter",
      displayU64 s.totalCommands),
    ("fire_redis_error_commands", "Number of errored commands", "counter",
      displayU64 s.errorCommands),
    ("fire_redis_connections_received", "Total connections received", "counter",
      displayU64 s.totalConnections),
    ("fire_redis_active_connections", "Currently active connections", "gauge",
      displayI64 s.activeConnections),
    ("fire_redis_total_keys", "Total keys in database", "gauge", displayI64 s.totalKeys),
    ("fire_redis_evicted_keys", "Keys evicted due to expiration", "counter",
      displayU64 s.evictedKeys),
    ("fire_redis_expired_keys", "Keys expired", "counter", displayU64 s.expiredKeys),
    ("fire_redis_keyspace_hits", "Keyspace hits", "counter", displayU64 s.keyspaceHits),
    ("fire_redis_keyspace_misses", "Keyspace misses", "counter", displayU64 s.keyspaceMisses),
    ("fire_redis_net_input_bytes", "Total network input bytes", "counter",
      displayU64 s.totalNetInputBytes),
    ("fire_redis_net_output_bytes", "Total network output bytes", "counter",
      displayU64 s.totalNetOutputBytes),
    ("fire_redis_rdb_saves", "RDB saves", "counter", displayU64 s.rdbSaves),
    ("fire_redis_aof_writes", "AOF writes", "counter", displayU64 s.aofWrites),
    ("fire_redis_aof_rewrites", "AOF rewrites", "counter", displayU64 s.aofRewrites),
    ("fire_redis_uptime_seconds", "Server uptime", "counter", displayU64 s.uptimeSeconds)]

def toLower (b : UInt8) : UInt8 := if 0x41 ≤ b && b ≤ 0x5A then b + 0x20 else b

def toAsciiLowercase (bs : Bytes) : Bytes := bs.map toLower

-- The replacement of a dot, a byte that no other character holds.
def safeByte (b : UInt8) : UInt8 := if toLower b = 0x2E then 0x5F else toLower b

def safeName (cmd : Bytes) : Bytes := cmd.map safeByte

def commandSeries : Bytes := utf8 "fire_redis_cmd_"

def commandFamily (cmd : Str) (count : UInt64) : Bytes :=
  family (commandSeries ++ safeName cmd.bytes) (utf8 "Command count for " ++ cmd.bytes)
    (utf8 "counter") (displayU64 count)

def bucketSeries (le : Bytes) : Bytes :=
  utf8 "fire_redis_latency_us_bucket\x7ble=\"" ++ le ++ utf8 "\"\x7d"

def histogram (s : MetricsSnapshot) : Bytes :=
  unlines ([utf8 "# HELP fire_redis_latency_us Command latency histogram buckets",
      utf8 "# TYPE fire_redis_latency_us histogram"] ++
    (s.latencyBuckets.map fun b => bucketSeries (displayU64 b.1) ++ 0x20 :: displayU64 b.2) ++
    [bucketSeries (utf8 "+Inf") ++ 0x20 :: displayU64 s.latencyCount,
      utf8 "fire_redis_latency_us_count" ++ 0x20 :: displayU64 s.latencyCount,
      utf8 "fire_redis_latency_us_sum" ++ 0x20 :: displayU64 s.totalLatencyUs])

def metricsText (s : MetricsSnapshot) : Bytes :=
  ((counters s).flatMap fun c => family (utf8 c.1) (utf8 c.2.1) (utf8 c.2.2.1) c.2.2.2) ++
    (s.commandCounts.flatMap fun c => commandFamily c.1 c.2) ++ histogram s

def handleMetrics (m : Metrics) (ord : CountOrder) (uptimeSeconds : UInt64) : Bytes :=
  okResponse (utf8 "text/plain; version=0.0.4") (metricsText (m.snapshot ord uptimeSeconds))

end FireRedis.Http
