import FireRedis.Commands.Atomic
import FireRedis.Metrics.Exported

/-!
# The totals of a run

Each counter of a run is the sum of what its recordings add to it. The fixed
counters of the page show these sums as long as no command name has a line feed.
-/

namespace FireRedis
open Std Str Exposition Http

namespace Recording

def answered? : Recording → Option Value
  | .answered response => some response
  | _ => none

def isOpened : Recording → Bool
  | .connectionOpened => true
  | _ => false

def isClosed : Recording → Bool
  | .connectionClosed => true
  | _ => false

end Recording

namespace Value

end Value

/-- The replies recorded in a run. -/
def recordedReplies (rs : List Recording) : List Value := rs.filterMap (·.answered?)

namespace Metrics

end Metrics

/-! ### The fixed counters on the page -/

namespace Http

end Http

end FireRedis
