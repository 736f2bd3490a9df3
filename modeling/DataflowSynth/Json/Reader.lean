/-
Reading a JSON text.

The tokens are read one after the other, with a stack of the lists and objects that are still
open.  At a token that cannot stand where it stands, everything open is closed with a cut.
-/
import DataflowSynth.Json.Token

namespace DataflowSynth.Json

/-- Members of an object, as read. -/
abbrev Members := List (Option String × Json)

/-- A list or object in which a value is being read, with what stands before that value, last
first. -/
inductive Frame where
  | list (before : List Json)
  | member (before : Members) (key : Option String)

/-- How far a text has been read.  Lists of items and members have the last one first. -/
inductive Progress where
  /-- A value has to follow. -/
  | value (stack : List Frame)
  /-- A value has to follow, or the end of the list that was just opened. -/
  | firstItem (stack : List Frame)
  /-- A key has to follow, or the end of the object if it was just opened. -/
  | nextKey (first : Bool) (before : Members) (stack : List Frame)
  /-- The colon behind a key has to follow. -/
  | nextColon (before : Members) (key : Option String) (stack : List Frame)
  /-- A comma or the end of the list has to follow. -/
  | inList (items : List Json) (stack : List Frame)
  /-- A comma or the end of the object has to follow. -/
  | inObject (members : Members) (stack : List Frame)
  /-- The value of the document has been read; nothing should follow. -/
  | complete (root : Json) (trailing : Bool)
  /-- The text has stopped making sense. -/
  | stopped (root : Json)

/-- A text read as a document: its value, and whether something stands behind it. -/
structure Document where
  root : Json
  trailing : Bool

/-- The value of a document whose text is cut off at `c`, from the value at that place and what
it stands in. -/
def enclose (c : Cut) : Json → List Frame → Json
  | j, [] => j
  | j, .list before :: stack => enclose c (.arr (j :: before).reverse (some c)) stack
  | j, .member before key :: stack => enclose c (.obj ((key, j) :: before).reverse (some c)) stack

namespace Progress

/-- A value has been read. -/
def settle (j : Json) : List Frame → Progress
  | [] => .complete j false
  | .list before :: stack => .inList (j :: before) stack
  | .member before key :: stack => .inObject ((key, j) :: before) stack

/-- Stops where a value is due. -/
def stop (c : Cut) (stack : List Frame) : Progress := .stopped (enclose c (.cut c) stack)

/-- Stops inside a list. -/
def stopList (c : Cut) (items : List Json) (stack : List Frame) : Progress :=
  .stopped (enclose c (.arr items.reverse (some c)) stack)

/-- Stops inside an object. -/
def stopObject (c : Cut) (members : Members) (stack : List Frame) : Progress :=
  .stopped (enclose c (.obj members.reverse (some c)) stack)

/-- A token where a value is due. -/
def begin (stack : List Frame) : Token → Progress
  | .openList => .firstItem stack
  | .openObject => .nextKey true [] stack
  | .word j => settle j stack
  | .text content => settle (.str content) stack
  | .badWord c | .badText c => stop c stack
  | _ => stop (.of .malformed) stack

def step : Progress → Token → Progress
  | .value stack, t => begin stack t
  | .firstItem stack, .closeList => settle (.arr [] none) stack
  | .firstItem stack, t => begin (.list [] :: stack) t
  | .nextKey true before stack, .closeObject => settle (.obj before.reverse none) stack
  | .nextKey _ before stack, .text content => .nextColon before content stack
  | .nextKey _ before stack, .badText c => stopObject c before stack
  | .nextKey _ before stack, _ => stopObject (.of .malformed) before stack
  | .nextColon before key stack, .colon => .value (.member before key :: stack)
  | .nextColon before key stack, _ => stop (.of .malformed) (.member before key :: stack)
  | .inList items stack, .comma => .value (.list items :: stack)
  | .inList items stack, .closeList => settle (.arr items.reverse none) stack
  | .inList items stack, _ => stopList (.of .malformed) items stack
  | .inObject members stack, .comma => .nextKey false members stack
  | .inObject members stack, .closeObject => settle (.obj members.reverse none) stack
  | .inObject members stack, _ => stopObject (.of .malformed) members stack
  | .complete root _, _ => .complete root true
  | .stopped root, _ => .stopped root

/-- The end of the text. -/
def finish : Progress → Document
  | .value stack => ⟨enclose (.of .unfinished) (.cut (.of .unfinished)) stack, false⟩
  | .firstItem stack => ⟨enclose (.of .unfinished) (.arr [] (some (.of .unfinished))) stack, false⟩
  | .nextKey _ before stack =>
    ⟨enclose (.of .unfinished) (.obj before.reverse (some (.of .unfinished))) stack, false⟩
  | .nextColon before key stack =>
    ⟨enclose (.of .unfinished) (.cut (.of .unfinished)) (.member before key :: stack), false⟩
  | .inList items stack =>
    ⟨enclose (.of .unfinished) (.arr items.reverse (some (.of .unfinished))) stack, false⟩
  | .inObject members stack =>
    ⟨enclose (.of .unfinished) (.obj members.reverse (some (.of .unfinished))) stack, false⟩
  | .complete root trailing => ⟨root, trailing⟩
  | .stopped root => ⟨root, false⟩

end Progress

/-- Reads a text, as far as it makes sense. -/
def read (s : String) : Document :=
  ((tokens s.toList).foldl Progress.step (.value [])).finish

end DataflowSynth.Json
