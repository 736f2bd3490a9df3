/-
JSON documents, as far as their text makes sense.

A document is read from its start, and the first thing wrong with it decides how it is refused:
a field of the wrong type that stands before a missing bracket is reported, not the bracket.
So the reader of texts does not fail.  It gives the value as far as the text goes and marks the
place where it stops making sense with a `Cut`; what is wrong there shows only if reading the
value gets that far.  The value of a proper document has no cut.
-/
import DataflowSynth.Json.Number

namespace DataflowSynth

namespace Json

/-- What can be wrong with a document. -/
inductive Fault where
  /-- The text ends too early. -/
  | unfinished
  /-- The text is not JSON. -/
  | malformed
  /-- A list or an object stands too deep inside others. -/
  | tooDeep
  /-- No double can hold a number. -/
  | outOfRange
  /-- A string has an escape for half of a surrogate pair. -/
  | unpaired
  /-- The text is JSON, and the value is not of the right shape. -/
  | misshapen
  deriving DecidableEq

/-- The three ways in which a document is refused. -/
inductive Category where
  | eof
  | syntactic
  | data
  deriving DecidableEq

def Fault.category : Fault → Category
  | .unfinished => .eof
  | .malformed | .tooDeep | .outOfRange | .unpaired => .syntactic
  | .misshapen => .data

/-- The place where a text stops making sense.  Reading a value looks closer than skipping it,
so the two may find different faults. -/
structure Cut where
  read : Fault
  skip : Fault
  deriving DecidableEq

/-- A cut at which reading and skipping find the same fault. -/
def Cut.of (f : Fault) : Cut := ⟨f, f⟩

end Json

/-- A JSON value.  A string with half of a surrogate pair in it has no content: it can be skipped
but not read. -/
inductive Json where
  | null
  | bool (b : Bool)
  | num (n : Number)
  | str (content : Option String)
  | arr (items : List Json) (rest : Option Json.Cut)
  | obj (members : List (Option String × Json)) (rest : Option Json.Cut)
  | cut (c : Json.Cut)

namespace Json

instance : Inhabited Json := ⟨.null⟩

/-! ### Writing values down -/

def string (s : String) : Json := .str (some s)

def ofNat (n : Nat) : Json := .num (.ofNat n)

def ofInt (i : Int) : Json := .num (.ofInt i)

def list (items : List Json) : Json := .arr items none

/-- An object with the given members. -/
def record (members : List (String × Json)) : Json :=
  .obj (members.map fun (k, j) => (some k, j)) none

def ofOption {α : Type} (f : α → Json) : Option α → Json
  | some x => f x
  | none => .null

/-! ### Looking at values -/

def string? : Json → Option String
  | .str s => s
  | _ => none

def bool? : Json → Option Bool
  | .bool b => some b
  | _ => none

def uint32? : Json → Option UInt32
  | .num n => n.toUInt32?
  | _ => none

def int64? : Json → Option Int64
  | .num n => n.toInt64?
  | _ => none

def index? : Json → Option Nat
  | .num n => n.toIndex?
  | _ => none

def items? : Json → Option (List Json)
  | .arr items none => some items
  | _ => none

/-- The first member called `key`. -/
def member? (key : String) : Json → Option Json
  | .obj members _ => (members.find? fun m => m.1 = some key).map Prod.snd
  | _ => none

/-- The values of the members, in order. -/
def fields : Json → List Json
  | .obj members _ => members.map Prod.snd
  | _ => []

/-- How many lists and objects stand inside each other. -/
def depth : Json → Nat
  | .arr items _ => depthList items + 1
  | .obj members _ => depthMembers members + 1
  | _ => 0
where
  depthList : List Json → Nat
    | [] => 0
    | j :: js => max (depth j) (depthList js)
  depthMembers : List (Option String × Json) → Nat
    | [] => 0
    | (_, j) :: ms => max (depth j) (depthMembers ms)

end Json

end DataflowSynth
