/-
Listings: everything that a netlist holds, one component a line.

The printer shows how components are connected; a listing shows all there is, with the numbers of
ports, buses, exits and entries, so that two netlists can be compared line by line.
-/
import DataflowSynth.Netlist.Basic

namespace DataflowSynth.Netlist

/-- A text, or a dash for nothing. -/
def orDash (s : Option String) : String := s.getD "-"

/-- A handle, or a dash for none. -/
def handleOrDash {k : HandleKind} (h : Option (Handle k)) : String := orDash (h.map Handle.text)

def PortRole.text : PortRole → String
  | .clock => "Clock"
  | .reset => "Reset"
  | .go => "Go"
  | .this => "This"
  | .data => "Data"

def BusRole.text : BusRole → String
  | .done => "Done"
  | .data => "Data"
  | .clock => "Clock"
  | .reset => "Reset"
  | .this => "This"

def DependencyKind.text : DependencyKind → String
  | .clock => "Clock"
  | .reset => "Reset"
  | .control => "Control"
  | .data => "Data"

/-- A mark for what is outside the data flow. -/
def sidebandMark (sideband : Bool) : String := if sideband then "!" else ""

/-- A port with its driver and its peer. -/
def Port.listing (p : PortId) (x : Port) : String :=
  p.text ++ ":" ++ x.name ++ ":" ++ x.role.text ++ ":" ++ orDash (x.signal.map Signal.text) ++
    "<" ++ handleOrDash x.bus ++ "~" ++ handleOrDash x.peer ++ sidebandMark x.sideband

/-- A bus with the ports it drives and its peer. -/
def Bus.listing (b : BusId) (x : Bus) : String :=
  b.text ++ ":" ++ x.name ++ ":" ++ x.role.text ++ ":" ++ orDash (x.signal.map Signal.text) ++
    ">" ++ "+".intercalate (x.ports.map Handle.text) ++ "~" ++ handleOrDash x.peer ++
    sidebandMark x.sideband

def Dependency.text (d : Dependency) : String := d.kind.text ++ ":" ++ d.bus.text

/-- An entry with the exit that drives it and its dependencies. -/
def Entry.listing (e : EntryId) (x : Entry) : String :=
  e.text ++ "@" ++ handleOrDash x.drivingExit ++ "\x7b" ++
    ",".intercalate (x.toList.map fun (p, d) => p.text ++ "=" ++ d.text) ++ "\x7d"

/-- The listings of things in an arena; one that is not there is left out. -/
def listAll {k : HandleKind} {α : Type} (a : Arena k α) (f : Handle k → α → String)
    (hs : List (Handle k)) : List String :=
  hs.filterMap fun h => (a.get? h).map (f h)

/-- An exit with its OutBuf and its buses. -/
def exitListing (n : Netlist) (x : ExitId) (e : Exit) : String :=
  x.text ++ ":" ++ e.tag.text ++ "#" ++ e.latency.text ++ "^" ++ handleOrDash e.peer ++
    "(" ++ " ".intercalate (listAll n.buses Bus.listing e.buses) ++ ")"

/-- The marks of a component. -/
def Component.flags (c : Component) : String :=
  let flag (on : Bool) (mark : String) : String := if on then mark else ""
  flag c.consumesClock "C" ++ flag c.consumesReset "R" ++ flag c.consumesGo "G" ++
    flag c.producesDone "D" ++ flag c.doneSynchronous "S"

def idList (cs : List ComponentId) : String :=
  "[" ++ ",".intercalate (cs.map Handle.text) ++ "]"

/-- What other component the kind of a component refers to. -/
def ComponentKind.reference : ComponentKind → String
  | .memoryRead _ (some m) => " physical=" ++ m.text
  | .module (.task body) => " body=" ++ body.text
  | _ => ""

def Interior.listing (i : Interior) : String :=
  " in=" ++ i.inBuf.text ++ " children=" ++ idList i.children ++ " feedback=" ++ idList i.feedback

/-- A component with everything that belongs to it. -/
def componentListing (n : Netlist) (c : ComponentId) (x : Component) : String :=
  c.text ++ " " ++ x.name ++ " " ++ x.kind.text ++ " owner=" ++ handleOrDash x.owner ++
    " flags=" ++ x.flags ++
    " ports=[" ++ ", ".intercalate (listAll n.ports Port.listing x.ports) ++ "]" ++
    " exits=[" ++ ", ".intercalate (listAll n.exits (exitListing n) x.exits.values) ++ "]" ++
    " entries=[" ++ ", ".intercalate (listAll n.entries Entry.listing x.entries) ++ "]" ++
    x.kind.reference ++ (x.interior.map Interior.listing).getD ""

def listing (n : Netlist) : List String :=
  n.components.toList.map fun (c, x) => componentListing n c x

end DataflowSynth.Netlist
