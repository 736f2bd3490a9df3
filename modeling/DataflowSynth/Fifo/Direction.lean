/-
Which way tokens move through a FIFO, and what can be asked of it.
-/

namespace DataflowSynth

/-- Direction of a signal or FIFO as seen from the design. -/
inductive Direction where
  | input
  | output
  deriving DecidableEq

def Direction.text : Direction → String
  | .input => "input"
  | .output => "output"

/-- What an accessor does with its FIFO. -/
inductive AccessKind where
  | read
  | write
  | status
  deriving DecidableEq

def AccessKind.text : AccessKind → String
  | .read => "Read"
  | .write => "Write"
  | .status => "Status"

end DataflowSynth
