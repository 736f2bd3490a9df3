/-
Modules: components with an interior.

Around the children of a module stand one InBuf and, for every exit, one OutBuf.  A component is
child of one module at most.
-/
import DataflowSynth.Netlist.Wiring

namespace DataflowSynth.Netlist

/-- The interior of a module. -/
def interior (m : ComponentId) : Step Interior := do
  let c ← component m
  Build.expect (.notAModule c.name) c.interior

def changeInterior (m : ComponentId) (f : Interior → Interior) : Step Unit := do
  let _ ← interior m
  changeComponent m fun c => { c with interior := c.interior.map f }

def inBuf (m : ComponentId) : Step ComponentId := return (← interior m).inBuf

/-! ### Making modules -/

/-- The InBuf of a new module: its done repeats the go of the module, and it has a clock and a
reset bus. -/
def makeInBuf (m : ComponentId) : Step Unit := do
  let owner ← component m
  let inBuf ← newComponent .inBuf (owner.name ++ "_inbuf") 0
  changeComponent inBuf fun b => { b with owner := some m }
  let x ← makeExit inBuf 0 .done
  pair owner.go (← exit x).done
  pair owner.clock (← makeControlBus x .clock)
  pair owner.reset (← makeControlBus x .reset)
  changeComponent inBuf fun b => { b with producesDone := owner.consumesGo }
  changeComponent m fun c => { c with interior := some { inBuf } }

/-- A module with its InBuf and `data` data ports. -/
def newModule (kind : ModuleKind) (stem : String) (data : Nat) : Step ComponentId := do
  let m ← newComponent (.module kind) stem 0
  makeInBuf m
  (numberedNames "din" data).forM fun name => discard (makeDataPort m name)
  return m

/-! ### The boundary -/

/-- The bus inside a module that repeats one of its control signals. -/
def controlBus? (m : ComponentId) (control : Control) : Step (Option BusId) := do
  let x ← exit (← mainExit (← inBuf m))
  x.control.findM? fun b => return (← bus b).role = control.role

def clockBus (m : ComponentId) : Step BusId := do
  Build.expect .noClockBus (← controlBus? m .clock)

def resetBus (m : ComponentId) : Step BusId := do
  Build.expect .noResetBus (← controlBus? m .reset)

/-- The bus inside a module that repeats its go. -/
def goBus (m : ComponentId) : Step BusId := do doneBus (← inBuf m)

/-- The bus inside a module that repeats one of its data ports. -/
def dataBus (m : ComponentId) (index : Nat) : Step BusId := do
  Build.expect .noInBufBus (← port (← dataPort m index)).peer

/-- The OutBufs of a module, one for every exit. -/
def outBufs (m : ComponentId) : Step (List ComponentId) := do
  let exits ← (← component m).exits.values.mapM exit
  return exits.filterMap Exit.peer

/-- The OutBuf of the exit that the module has by default. -/
def mainOutBuf (m : ComponentId) : Step ComponentId := do
  Build.expect .noOutBuf (← exit (← mainExit m)).peer

/-! ### Children -/

def children (m : ComponentId) : Step (List ComponentId) := return (← interior m).children

def contains (m c : ComponentId) : Step Bool := return (← children m).contains c

def isFeedbackPoint (m c : ComponentId) : Step Bool := return (← interior m).feedback.contains c

/-- Whether a module stands in no other. -/
def isOpaque (m : ComponentId) : Step Bool := return (← component m).owner.isNone

/-- Makes a component a child of a module.  It must not be in another one. -/
def addComponent (m c : ComponentId) : Step Unit := do
  let x ← component c
  match x.owner with
  | some owner =>
    if owner ≠ m then Build.abort (.alreadyOwned x.name (← component owner).name)
  | none =>
    changeComponent c fun y => { y with owner := some m }
    changeInterior m fun i => { i with children := i.children ++ [c] }

def addComponents (m : ComponentId) (cs : List ComponentId) : Step Unit :=
  cs.forM (addComponent m)

/-- Drops the entries of an OutBuf that some exit of `c` drives. -/
def dropEntries (outBuf c : ComponentId) : Step Unit := do
  let kept ← (← component outBuf).entries.filterM fun e => do
    match (← entry e).drivingExit with
    | none => return true
    | some x => return (← exit x).owner ≠ c
  changeComponent outBuf fun b => { b with entries := kept }

/-- Takes a child out of a module, with its connections and the entries that it drove.  Tells
whether it was a child. -/
def removeComponent (m c : ComponentId) : Step Bool := do
  if (← children m).contains c then
    changeInterior m fun i =>
      { i with children := i.children.erase c, feedback := i.feedback.erase c }
    (← outBufs m).forM fun b => dropEntries b c
    disconnect c
    changeComponent c fun x => { x with owner := none }
    return true
  else return false

/-- Whether the children of a module may be exchanged; accessors are built as a whole. -/
def ModuleKind.isOpen : ModuleKind → Bool
  | .block | .design | .task _ => true
  | .fifoRead | .fifoWrite | .actionPortStatus | .memoryReadPhysical => false

/-- Puts `new` in the place of the child `old`.  Tells whether `old` was a child. -/
def replaceComponent (m old new : ComponentId) : Step Bool := do
  let c ← component m
  match c.kind.module? with
  | none => Build.abort (.notAModule c.name)
  | some kind => if !kind.isOpen then Build.abort (.fixedStructure kind.text c.name)
  if ← removeComponent m old then
    addComponent m new
    changeComponent m fun c =>
      match c.kind with
      | .module (.task body) =>
        if body = old then { c with kind := .module (.task new) } else c
      | _ => c
    return true
  else return false

/-! ### Exits of modules -/

/-- The exits of components, gathered by tag in the order in which the tags are met. -/
def exitsByTag (cs : List ComponentId) : Step (OrderedMap ExitTag (List ExitId)) :=
  cs.foldlM (fun byTag c => do
    (← component c).exits.values.foldlM (fun byTag x => do
      return byTag.alter (← exit x).tag fun xs => xs.getD [] ++ [x]) byTag) ∅

/-- Whether an OutBuf has an entry that `x` drives. -/
def hasEntry (outBuf : ComponentId) (x : ExitId) : Step Bool := do
  (← component outBuf).entries.anyM fun e => return (← entry e).drivingExit = some x

/-- Lets an exit inside a module lead to one of its OutBufs. -/
def enterOutBuf (outBuf : ComponentId) (clock reset : BusId) (x : ExitId) : Step Unit := do
  if !(← hasEntry outBuf x) then
    let e ← makeEntry outBuf (some x)
    let done := (← exit x).done
    let b ← component outBuf
    addDependency e b.clock ⟨.clock, clock⟩
    addDependency e b.reset ⟨.reset, reset⟩
    addDependency e b.go ⟨.control, done⟩

/-- Gives a module one exit for every tag of an exit of the components, and lets every such exit
lead there.  Doing so again changes nothing. -/
def mergeExits (m : ComponentId) (cs : List ComponentId) : Step Unit := do
  let byTag ← exitsByTag cs
  let clock ← clockBus m
  let reset ← resetBus m
  byTag.entries.forM fun (tag, exits) => do
    let x ← match (← component m).exits.find? tag with
      | some x => pure x
      | none => makeExit m 0 tag
    let outBuf ← Build.expect .noOutBuf (← exit x).peer
    exits.forM (enterOutBuf outBuf clock reset)
    let name := (← component m).name
    Build.log .trace .modules s!"merged {tag.text} exits into {quote name}"

/-! ### Feedback and flags -/

/-- Inserts into a list in ascending order, once. -/
def insertAscending (c : ComponentId) : List ComponentId → List ComponentId
  | [] => [c]
  | d :: ds =>
    if c.index < d.index then c :: d :: ds
    else if c = d then d :: ds
    else d :: insertAscending c ds

/-- Marks a child whose outputs close a loop on purpose. -/
def addFeedbackPoint (m c : ComponentId) : Step Unit := do
  let x ← component c
  if x.owner ≠ some m then Build.abort (.strayFeedback x.name (← component m).name)
  changeInterior m fun i => { i with feedback := insertAscending c i.feedback }

def setConsumesClock (c : ComponentId) (on : Bool) : Step Unit :=
  changeComponent c fun x => { x with consumesClock := on }

def setConsumesReset (c : ComponentId) (on : Bool) : Step Unit :=
  changeComponent c fun x => { x with consumesReset := on }

/-- The InBuf of a module that waits for go has a done of its own. -/
def setConsumesGo (c : ComponentId) (on : Bool) : Step Unit := do
  changeComponent c fun x => { x with consumesGo := on }
  match (← component c).interior with
  | none => pure ()
  | some interior => changeComponent interior.inBuf fun b => { b with producesDone := on }

/-- The OutBufs of a module that tells when it is done wait for go. -/
def setProducesDone (c : ComponentId) (on : Bool) : Step Unit := do
  changeComponent c fun x => { x with producesDone := on }
  if (← component c).isModule then
    (← outBufs c).forM fun outBuf => changeComponent outBuf fun b => { b with consumesGo := on }

end DataflowSynth.Netlist
