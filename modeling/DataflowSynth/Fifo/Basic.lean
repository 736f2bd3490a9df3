/-
FIFO interfaces: what is asked for, and the pins that carry it.
-/
import DataflowSynth.Fifo.Direction
import DataflowSynth.Netlist.Wiring

namespace DataflowSynth

/-- How the two sides of a FIFO talk to each other. -/
inductive FifoProtocol where
  /-- A fast simplex link. -/
  | simplexLink
  | scalar
  /-- Without a handshake; the data is always valid. -/
  | nativeScalar
  | circularBuffer
  | object
  deriving DecidableEq

namespace FifoProtocol

def isNative : FifoProtocol → Bool
  | .nativeScalar => true
  | _ => false

def text : FifoProtocol → String
  | .simplexLink => "Fsl"
  | .scalar => "ActionScalar"
  | .nativeScalar => "ActionNativeScalar"
  | .circularBuffer => "ActionCircularBuffer"
  | .object => "ActionObject"

end FifoProtocol

/-- What a FIFO interface is asked for by. -/
structure FifoSpec where
  name : String
  direction : Direction
  width : UInt32
  protocol : FifoProtocol
  deriving DecidableEq

/-- The signal on the data pin. -/
def FifoSpec.signal (s : FifoSpec) : Signal := ⟨s.width, false⟩

/-- The pins of a FIFO interface.  An input has no ready pin, a native input only the data pin. -/
structure FifoPins where
  data : PinId
  send : Option PinId := none
  ack : Option PinId := none
  ready : Option PinId := none
  deriving DecidableEq

def FifoPins.toList (p : FifoPins) : List PinId :=
  p.data :: p.send.toList ++ p.ack.toList ++ p.ready.toList

structure Fifo where
  spec : FifoSpec
  pins : FifoPins
  deriving DecidableEq

namespace Fifo

def name (f : Fifo) : String := f.spec.name

/-- The pin that tells whether an access would succeed: whether an input has a token, or an output
has space. -/
def statusPin? (f : Fifo) : Option PinId :=
  match f.spec.direction with
  | .input => f.pins.send
  | .output => f.pins.ready

/-- A FIFO with a handshake has a send pin. -/
def sendPin (f : Fifo) : Netlist.Step PinId := Build.expect .noSendPin f.pins.send

/-- A FIFO with a handshake has an ack pin. -/
def ackPin (f : Fifo) : Netlist.Step PinId := Build.expect .noAckPin f.pins.ack

end Fifo

end DataflowSynth
