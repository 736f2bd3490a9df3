/-
Copies of components and all they own.

A copy of a module has copies of its buffers and its children, all of them new, and is wired inside
as the module is.  The copy itself stands in no module and none of its own ports is driven.
-/
import DataflowSynth.Netlist.Module

namespace DataflowSynth.Netlist

/-- What became of everything that was copied. -/
structure Correspondence where
  /-- The components, in the order in which they were copied. -/
  components : OrderedMap ComponentId ComponentId := ∅
  ports : Std.HashMap PortId PortId := ∅
  buses : Std.HashMap BusId BusId := ∅
  exits : Std.HashMap ExitId ExitId := ∅
  entries : Std.HashMap EntryId EntryId := ∅

namespace Correspondence

def port (m : Correspondence) (p : PortId) : Step PortId :=
  Build.expect (.strayPort p) m.ports[p]?

def bus (m : Correspondence) (b : BusId) : Step BusId :=
  Build.expect (.strayBus b) m.buses[b]?

def exit (m : Correspondence) (x : ExitId) : Step ExitId :=
  Build.expect (.strayExit x) m.exits[x]?

end Correspondence

/-! ### What can be copied -/

/-- Refuses designs and memory reads that are already carried out, at any depth.  `depth` bounds the
nesting of modules. -/
def checkCopyable : (depth : Nat) → ComponentId → Step Unit
  | 0, _ => Build.abort .endlessOwnership
  | depth + 1, c => do
    let x ← component c
    match x.kind with
    | .module .design => Build.fail (.unsupported (.cloneDesign x.name))
    | .memoryRead _ (some _) => Build.fail (.unsupported (.clonePhysicalRead x.name))
    | .module _ => (← children c).forM (checkCopyable depth)
    | _ => pure ()

/-! ### Copying one component -/

def mapPort (map : Correspondence) (p q : PortId) : Step Correspondence := do
  let x ← port p
  changePort q fun y => { y with name := x.name, signal := x.signal, sideband := x.sideband }
  return { map with ports := map.ports.insert p q }

def mapBus (map : Correspondence) (b c : BusId) : Step Correspondence := do
  let x ← bus b
  changeBus c fun y => { y with name := x.name, signal := x.signal, sideband := x.sideband }
  return { map with buses := map.buses.insert b c }

def mapExit (map : Correspondence) (x y : ExitId) : Step Correspondence := do
  let buses := (← exit x).buses.zip (← exit y).buses
  buses.foldlM (fun map (b, c) => mapBus map b c) { map with exits := map.exits.insert x y }

/-- Records that `copy` is the copy of `c`, and hands on the names, signals and sideband marks of
its terminals. -/
def mapComponent (map : Correspondence) (c copy : ComponentId) : Step Correspondence := do
  let ports := (← component c).ports.zip (← component copy).ports
  let map ← ports.foldlM (fun map (p, q) => mapPort map p q)
    { map with components := map.components.put c copy }
  let exits := (← component c).exits.values.zip (← component copy).exits.values
  exits.foldlM (fun map (x, y) => mapExit map x y) map

/-- A new component of the kind of `x`, called like it. -/
def newLike (x : Component) : Step ComponentId :=
  match x.kind with
  | .module kind => newModule kind x.name 0
  | kind => newComponent kind x.name 0

/-- Gives a new component ports like those of `x`. -/
def copyPorts (x : Component) (copy : ComponentId) : Step Unit := do
  if x.this.isSome then discard (makeThisPort copy)
  x.dataPorts.forM fun p => do discard (makeDataPort copy (← port p).name)

def copyFlags (x : Component) (copy : ComponentId) : Step Unit := do
  setConsumesClock copy x.consumesClock
  setConsumesReset copy x.consumesReset
  setConsumesGo copy x.consumesGo
  setProducesDone copy x.producesDone
  changeComponent copy fun y => { y with doneSynchronous := x.doneSynchronous }

/-- A new component of the kind of `c` with ports and flags like those of `c`. -/
def copyShell (c : ComponentId) : Step ComponentId := do
  let x ← component c
  let copy ← newLike x
  copyPorts x copy
  copyFlags x copy
  return copy

/-- Gives the copy an exit like `x`. -/
def copyExit (copy : ComponentId) (x : ExitId) : Step Unit := do
  let e ← exit x
  let y ← makeExit copy e.data.length e.tag
  changeExit y fun e' => { e' with latency := e.latency }

/-- The OutBuf of the copy of an exit. -/
def copiedOutBuf? (map : Correspondence) (x : ExitId) : Step (Option ComponentId) := do
  match map.exits[x]? with
  | none => return none
  | some y => return (← exit y).peer

/-- Maps the OutBuf of an exit of a module to that of its copy. -/
def mapOutBuf (map : Correspondence) (x : ExitId) : Step Correspondence := do
  let copied ← copiedOutBuf? map x
  match (← exit x).peer, copied with
  | some b, some c => mapComponent map b c
  | _, _ => pure map

/-- Lets the copy of a task call the copy of its body. -/
def copyBody (map : Correspondence) (kind : ComponentKind) (copy : ComponentId) : Step Unit := do
  match kind with
  | .module (.task body) =>
    let body ← Build.expect .bodyNotCopied (map.components.find? body)
    changeComponent copy fun y => { y with kind := .module (.task body) }
  | _ => pure ()

/-- Maps the boundary of a module, and marks in the copy what is marked in the module. -/
def copyMarks (map : Correspondence) (c copy : ComponentId) : Step Correspondence := do
  let x ← component c
  let map ← mapComponent map (← inBuf c) (← inBuf copy)
  let map ← x.exits.values.foldlM mapOutBuf map
  (← interior c).feedback.forM fun point => do
    addFeedbackPoint copy (← Build.expect .feedbackNotCopied (map.components.find? point))
  copyBody map x.kind copy
  return map

/-- Copies a component and what it owns, without the connections. -/
def copyTree : (depth : Nat) → ComponentId → Correspondence → Step (ComponentId × Correspondence)
  | 0, _, _ => Build.abort .endlessOwnership
  | depth + 1, c, map => do
    let x ← component c
    let copy ← copyShell c
    let children := (x.interior.map Interior.children).getD []
    let map ← children.foldlM (fun map child => do
      let (child, map) ← copyTree depth child map
      addComponent copy child
      return map) map
    x.exits.values.forM (copyExit copy)
    let map ← mapComponent map c copy
    if x.isModule then return (copy, ← copyMarks map c copy) else return (copy, map)

/-! ### Connections inside the copy -/

/-- The copy of the exit that an entry is driven by. -/
def copiedExit? (map : Correspondence) : Option ExitId → Step (Option ExitId)
  | none => return none
  | some x => return some (← map.exit x)

/-- Gives the copy an entry like `e`. -/
def copyEntry (map : Correspondence) (copy : ComponentId) (e : EntryId) :
    Step Correspondence := do
  let x ← entry e
  let copied ← makeEntry copy (← copiedExit? map x.drivingExit)
  x.toList.forM fun (p, d) => do
    addDependency copied (← map.port p) ⟨d.kind, ← map.bus d.bus⟩
  return { map with entries := map.entries.insert e copied }

/-- Connects the copy of a port as the port is connected. -/
def copyConnection (map : Correspondence) (p : PortId) : Step Unit := do
  match (← port p).bus with
  | none => pure ()
  | some b => setBus (← map.port p) (some (← map.bus b))

/-- Repeats the entries and the connections of everything strictly inside `root`. -/
def copyConnections (root : ComponentId) (map : Correspondence) : Step Correspondence := do
  let inside := map.components.entries.filter fun (c, _) => c ≠ root
  let map ← inside.foldlM (fun map (c, copy) => do
    (← component c).entries.foldlM (fun map e => copyEntry map copy e) map) map
  inside.forM fun (c, _) => do (← component c).ports.forM (copyConnection map)
  return map

/-- Copies a component and all it owns.  At the end `adjust` may change the copy, for the sake of
references that only the caller knows about. -/
def cloneWith (c : ComponentId) (adjust : ComponentId → Correspondence → Step Unit) :
    Step (ComponentId × Correspondence) := do
  let depth ← Build.look (·.components.size)
  checkCopyable depth c
  let (copy, map) ← copyTree depth c {}
  let map ← copyConnections c map
  let source := (← component c).name
  let target := (← component copy).name
  let count := map.components.size
  Build.log .debug .cloning s!"cloned {quote source} into {quote target} ({count} components)"
  adjust copy map
  return (copy, map)

def clone (c : ComponentId) : Step (ComponentId × Correspondence) :=
  cloneWith c fun _ _ => pure ()

end DataflowSynth.Netlist
