/-
Why a job cannot be done.

An `Error` is an answer to the user: the actor, the settings or the request are at fault, and the
work done so far stands.  An `Abort` is the end of the job: a rule of the netlist was broken by
whoever built it.  Both are causes; the wording is in `message` alone.
-/
import DataflowSynth.Fifo.Direction
import DataflowSynth.Handle
import DataflowSynth.Json.Basic

namespace DataflowSynth

/-- A name between the marks that messages put around names. -/
def quote (name : String) : String := "`" ++ name ++ "'"

/-! ### Errors -/

/-- What is wrong with an actor. -/
inductive ActorDefect where
  | duplicatePort (port actor : String)
  | emptyBuffer (port : String)
  | duplicateAction (action : String)
  | unknownInput (action port : String)
  | unknownOutput (action port : String)
  | unknownProcedure (action procedure : String)
  | guardNotBool (guard action : String)
  | duplicateState (state : String)
  | unknownInitial (state : String)
  | unknownState (action state : String)
  | unknownAction (source target action : String)
  /-- The actor declares the procedure that lowering makes. -/
  | reservedName (actor : String)
  deriving DecidableEq

def ActorDefect.message : ActorDefect → String
  | .duplicatePort port actor => s!"port {quote port} is declared twice in {quote actor}"
  | .emptyBuffer port => s!"circular buffer of port {quote port} has no capacity"
  | .duplicateAction action => s!"action {quote action} is declared twice"
  | .unknownInput action port => s!"action {quote action} reads unknown input port {quote port}"
  | .unknownOutput action port =>
    s!"action {quote action} writes unknown output port {quote port}"
  | .unknownProcedure action procedure =>
    s!"action {quote action} refers to unknown procedure {quote procedure}"
  | .guardNotBool guard action =>
    s!"guard {quote guard} of action {quote action} does not return bool"
  | .duplicateState state => s!"state {quote state} is declared twice in the FSM"
  | .unknownInitial state => s!"initial state {quote state} is not a state of the FSM"
  | .unknownState action state =>
    s!"transition on {quote action} names unknown state {quote state}"
  | .unknownAction source target action =>
    s!"transition {source} -> {target} names unknown action {quote action}"
  | .reservedName actor => s!"`scheduler' is reserved but declared by {quote actor}"

/-- A conflict between things the user asked for. -/
inductive Conflict where
  | clockIsReset
  | noClock (spec : String)
  | fifoWidth (fifo : String) (before after : UInt32)
  | memoryIdsExhausted
  | memoryIdReserved
  | memoryIdInUse (id : UInt32)
  deriving DecidableEq

def Conflict.message : Conflict → String
  | .clockIsReset => "Can't have clock and reset share a pin name"
  | .noClock spec => s!"Clock domain {quote spec} does not name a clock"
  | .fifoWidth fifo before after =>
    s!"Attempt to redefine fifo interface {fifo} width from {before.toNat} to {after.toNat}"
  | .memoryIdsExhausted => "Too many memory objects"
  | .memoryIdReserved => "Memory id 0 is reserved"
  | .memoryIdInUse id => s!"Memory id {id.toNat} is already in use"

/-- Something that is deliberately not done. -/
inductive Unsupported where
  | cloneDesign (component : String)
  | clonePhysicalRead (component : String)
  | nativeStatus (fifo : String)
  | objectFifo (port : String)
  | partOfPointer (memory : UInt32)
  | objectState (var : String)
  | nestedLoop
  deriving DecidableEq

def Unsupported.message : Unsupported → String
  | .cloneDesign component => s!"cloning design {quote component}"
  | .clonePhysicalRead component =>
    s!"cloning memory read {quote component} after its physical implementation was built"
  | .nativeStatus fifo => s!"port status of native fifo {quote fifo}"
  | .objectFifo port => s!"Object fifos not yet supported (port {quote port})"
  | .partOfPointer memory => s!"removing part of a pointer into memory {memory.toNat}"
  | .objectState var => s!"object state variable {quote var}"
  | .nestedLoop => "nested loops in a dispatch round"

/-- Why bytes `min` to `max` cannot be taken out of a value of `size` bytes. -/
inductive RangeDefect where
  | outOfBounds (min max size : Nat)
  | interior (min max size : Nat)
  deriving DecidableEq

def RangeDefect.message : RangeDefect → String
  | .outOfBounds min max size => s!"range [{min}-{max}] out of bounds, legal range [0-{size - 1}]"
  | .interior min max size => s!"range [{min}-{max}] is inside a {size} byte value"

/-- Anything else that cannot be done as asked. -/
inductive Refusal where
  | wrongAccess (access : AccessKind) (direction : Direction) (fifo : String)
  | notMemoryRead (component : String)
  | combinationalCycle (components : List String)
  | passRegistered (pass : String)
  | aliasRegistered (name : String)
  | unknownPass (name : String)
  | noFifo (port : String)
  | noDispatchLoop (procedure : String)
  | noGuardResult (guard : String)
  | noPortStatus (port : String)
  | unassigned (var : String)
  | noInput
  /-- A text was not taken by the destination it was sent to. -/
  | unsent (reason : String)
  deriving DecidableEq

def Refusal.message : Refusal → String
  | .wrongAccess access direction fifo =>
    s!"cannot build a {access.text} access on {direction.text} fifo {quote fifo}"
  | .notMemoryRead component => s!"{quote component} is not a memory read"
  | .combinationalCycle components =>
    "Found combinational cycle through: " ++ ", ".intercalate components
  | .passRegistered pass => "Pass with name '" ++ pass ++ "' is already registered."
  | .aliasRegistered name => "Alias with name '" ++ name ++ "' already registered."
  | .unknownPass name =>
    s!"Unknown pass: {name}. Run forge with --list-passes to view registered passes."
  | .noFifo port => s!"no fifo interface for port {quote port}"
  | .noDispatchLoop procedure => s!"{quote procedure} has no dispatch loop"
  | .noGuardResult guard => s!"no result given for guard {quote guard}"
  | .noPortStatus port => s!"no status given for port {quote port}"
  | .unassigned var => s!"{quote var} is read before it is assigned"
  | .noInput => "No input actor given"
  | .unsent reason => reason

inductive Error where
  | malformed (d : ActorDefect)
  | fatal (c : Conflict)
  | unsupported (u : Unsupported)
  | nonRemovable (r : RangeDefect)
  | refused (r : Refusal)
  /-- A file, or the directory of a file, does not exist. -/
  | missingFile
  /-- The text of an actor cannot be read. -/
  | document (f : Json.Fault)
  deriving DecidableEq

def Error.message : Error → String
  | .malformed d => "Malformed actor: " ++ d.message
  | .fatal c => c.message
  | .unsupported u => "Unsupported: " ++ u.message
  | .nonRemovable r => "Non-removable range: " ++ r.message
  | .refused r => r.message
  | .missingFile => "No such file or directory (os error 2)"
  | .document f =>
    match f.category with
    | .eof => "the document ends too early"
    | .syntactic => "the document is not JSON"
    | .data => "the document does not describe an actor"

/-! ### Aborts -/

/-- A rule that the builder of a netlist has to keep, and that was broken. -/
inductive Abort where
  | outOfBounds
  | handlesExhausted (kind : HandleKind)
  | duplicateExit (tag component : String)
  | noDoneExit (component : String)
  | notAModule (component : String)
  | alreadyOwned (component owner : String)
  | fixedStructure (kind component : String)
  | strayFeedback (component module : String)
  | strayBus (bus : BusId)
  | strayPort (port : PortId)
  | strayExit (exit : ExitId)
  | noClockBus
  | noResetBus
  | noInBufBus
  | noOutBuf
  | noOutBufPort
  | noDesignBus
  | feedbackNotCopied
  | bodyNotCopied
  | noSendPin
  | noAckPin
  | unknownAlias (name : String)
  | notAFlag (value : String)
  | notAStream (value : String)
  /-- A module stands, through others, inside itself. -/
  | endlessOwnership
  | notPrinted (reason : String)
  deriving DecidableEq

def Abort.message : Abort → String
  | .outOfBounds => "index out of bounds"
  | .handlesExhausted kind => s!"handle space exhausted for {kind.label}"
  | .duplicateExit tag component => s!"duplicate exit {quote tag} on {quote component}"
  | .noDoneExit component => s!"{quote component} has no done exit"
  | .notAModule component => s!"{quote component} is not a module"
  | .alreadyOwned component owner => s!"{quote component} is already owned by {quote owner}"
  | .fixedStructure kind component =>
    s!"cannot replace components of {kind} module {quote component}"
  | .strayFeedback component module =>
    s!"feedback point {quote component} is not a child of {quote module}"
  | .strayBus bus => s!"bus {bus.text} is outside the cloned graph"
  | .strayPort port => s!"port {port.text} is outside the cloned graph"
  | .strayExit exit => s!"exit {exit.text} is outside the cloned graph"
  | .noClockBus => "InBuf without clock bus"
  | .noResetBus => "InBuf without reset bus"
  | .noInBufBus => "module data port without InBuf bus"
  | .noOutBuf => "module exit without OutBuf"
  | .noOutBufPort => "module exit bus without OutBuf port"
  | .noDesignBus => "design port without InBuf bus"
  | .feedbackNotCopied => "feedback point was not copied"
  | .bodyNotCopied => "task body was not copied"
  | .noSendPin => "handshake fifo without send pin"
  | .noAckPin => "handshake fifo without ack pin"
  | .unknownAlias name => s!"No pass or alias named: {name}"
  | .notAFlag value => s!"option holds {value}, not a bool"
  | .notAStream value => s!"option holds {value}, not a stream"
  | .endlessOwnership => "a module is inside itself"
  | .notPrinted reason => s!"failed printing to stdout: {reason}"

/-- How a job ends without a result. -/
inductive Failure where
  | error (e : Error)
  | abort (a : Abort)
  deriving DecidableEq

end DataflowSynth
