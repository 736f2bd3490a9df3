/-
Shapes of JSON documents, and how a document is brought into shape.

A schema says for every form of object which members it has.  A document may present a form in
several ways: members in any order, members that the form does not know, a list with the values
of the members in place of the object, members left out.  `conform` turns all of them into one:
the object with exactly its members, in the order of the schema.  What a document means is then
read off its conforming value, so it cannot depend on the presentation.

Values that carry their tag among their members are read in two steps, because the tag may come
last: first the whole value is held, then it is taken apart.  Holding a value looks at all of it,
also at members that are not known, and what has been held is known to be proper JSON.
-/
import DataflowSynth.Json.Reader

namespace DataflowSynth.Json

/-- A single value in a document.  `φ` names the forms of objects. -/
inductive Item (φ : Type) where
  | text
  /-- A natural number of 32 bits. -/
  | word32
  /-- An integer of 64 bits. -/
  | int64
  | flag
  | form (f : φ)

/-- What should stand at a place in a document. -/
inductive Slot (φ : Type) where
  | one (i : Item φ)
  /-- A value or `null`. -/
  | optional (i : Item φ)
  | list (i : Item φ)

/-- The single value that may stand in a slot. -/
def Slot.item? {φ : Type} : Slot φ → Option (Item φ)
  | .one i | .optional i => some i
  | .list _ => none

/-- A member of an object. -/
structure Field (φ : Type) where
  name : String
  slot : Slot φ
  /-- The value of the member if it is left out; without one it has to be there. -/
  absent : Option Json := none

/-- The members that make up a form. -/
inductive Layout (φ : Type) where
  | record (fields : List (Field φ))
  /-- One of several records; the member `tag` says which. -/
  | tagged (tag : String) (variants : List (String × List (Field φ)))
  /-- An object with one member, whose name says what its value is. -/
  | choice (variants : List (String × Slot φ))
  /-- One of several words. -/
  | word (names : List String)

abbrev Schema (φ : Type) := φ → Layout φ

/-- How many lists and objects may stand inside each other. -/
def maxDepth : Nat := 127

/-- Whether a value is read straight from the text, at some depth, or has been held. -/
inductive Mode where
  | direct (depth : Nat)
  | held

/-- The mode inside a list or object. -/
def Mode.enter : Mode → Except Fault Mode
  | .direct depth => if depth < maxDepth then .ok (.direct (depth + 1)) else .error .tooDeep
  | .held => .ok .held

/-- Too many values in a list that stands for an object: in the text this is a missing bracket. -/
def Mode.surplus : Mode → Fault
  | .direct _ => .malformed
  | .held => .misshapen

/-- What is wrong with a value that should have been of another kind. -/
def mismatch : Json → Fault
  | .cut c => c.read
  | .str none => .unpaired
  | .num n => if n.inRange then .misshapen else .outOfRange
  | _ => .misshapen

/-- The end of a list or object of which `rest` is missing. -/
def endRead : Option Cut → Except Fault Unit
  | none => .ok ()
  | some c => .error c.read

def endSkip : Option Cut → Except Fault Unit
  | none => .ok ()
  | some c => .error c.skip

/-- Passes over a value. -/
def skip : Json → Except Fault Unit
  | .arr items rest => do
    skipList items
    endSkip rest
  | .obj members rest => do
    skipMembers members
    endSkip rest
  | .cut c => .error c.skip
  | _ => .ok ()
where
  skipList : List Json → Except Fault Unit
    | [] => .ok ()
    | j :: js => do
      skip j
      skipList js
  skipMembers : List (Option String × Json) → Except Fault Unit
    | [] => .ok ()
    | (_, j) :: ms => do
      skip j
      skipMembers ms

/-- Holds a value that stands at the given depth. -/
def hold (depth : Nat) : Json → Except Fault Unit
  | .arr items rest => do
    if depth < maxDepth then
      holdList (depth + 1) items
      endRead rest
    else .error .tooDeep
  | .obj members rest => do
    if depth < maxDepth then
      holdMembers (depth + 1) members
      endRead rest
    else .error .tooDeep
  | .cut c => .error c.read
  | .str none => .error .unpaired
  | .num n => if n.inRange then .ok () else .error .outOfRange
  | _ => .ok ()
where
  holdList (depth : Nat) : List Json → Except Fault Unit
    | [] => .ok ()
    | j :: js => do
      hold depth j
      holdList depth js
  holdMembers (depth : Nat) : List (Option String × Json) → Except Fault Unit
    | [] => .ok ()
    | (none, _) :: _ => .error .unpaired
    | (some _, j) :: ms => do
      hold depth j
      holdMembers depth ms

variable {φ : Type}

/-! ### Tags -/

/-- Checks a tag in the text: it has to be the name of a variant. -/
def checkTag (variants : List (String × List (Field φ))) : Json → Except Fault Unit
  | .str (some s) => if variants.any (·.1 = s) then .ok () else .error .misshapen
  | j => .error j.mismatch

/-- Holds the members of a tagged object in the text.  `seen` tells whether the tag has come. -/
def holdTagged (depth : Nat) (tag : String) (variants : List (String × List (Field φ))) :
    (seen : Bool) → List (Option String × Json) → Option Cut → Except Fault Unit
  | seen, [], rest => do
    endRead rest
    if seen then .ok () else .error .misshapen
  | _, (none, _) :: _, _ => .error .unpaired
  | seen, (some k, j) :: ms, rest =>
    if k = tag then do
      if seen then .error .misshapen else checkTag variants j
      holdTagged depth tag variants true ms rest
    else do
      hold depth j
      holdTagged depth tag variants seen ms rest

/-- The variant that a tag names.  In a value that has been held, its number will do. -/
def variant? (m : Mode) (variants : List (String × List (Field φ))) (tag : Json) :
    Option (String × List (Field φ)) :=
  match tag, m with
  | .str (some s), _ => variants.find? (·.1 = s)
  | .num n, .held => n.toIndex?.bind fun i => variants[i]?
  | _, _ => none

/-- The variant of an object: it has to have one tag. -/
def variantOf? (m : Mode) (tag : String) (variants : List (String × List (Field φ)))
    (members : List (Option String × Json)) : Option (String × List (Field φ)) :=
  match members.filter fun e => e.1 = some tag with
  | [(_, j)] => variant? m variants j
  | _ => none

/-! ### Bringing a value into shape -/

/-- The value of a member that is not there. -/
def Field.default (f : Field φ) : Except Fault (String × Json) :=
  match f.absent with
  | some j => .ok (f.name, j)
  | none => .error .misshapen

/-- All members of a record, from those that were found. -/
def assemble (fields : List (Field φ)) (found : List (String × Json)) :
    Except Fault (List (String × Json)) :=
  fields.mapM fun f =>
    match found.lookup f.name with
    | some j => .ok (f.name, j)
    | none => f.default

/-- A word of a list, alone or as the only key of an object with nothing in it. -/
def wordOf? (names : List String) : Json → Option String
  | .str (some s) => if s ∈ names then some s else none
  | .obj [(some k, .null)] none => if k ∈ names then some k else none
  | .obj [(some k, .obj [] none)] none => if k ∈ names then some k else none
  | _ => none

/-- A string where a slot is. -/
def conformText (schema : Schema φ) (slot : Slot φ) (s : String) : Except Fault Json :=
  match slot.item? with
  | some .text => .ok (string s)
  | some (.form f) =>
    match schema f with
    | .word names => if s ∈ names then .ok (string s) else .error .misshapen
    | _ => .error .misshapen
  | _ => .error .misshapen

/-- A number where a slot is. -/
def conformNumber (slot : Slot φ) (n : Number) : Except Fault Json :=
  match slot.item? with
  | some .word32 => if n.toUInt32?.isSome then .ok (.num n) else .error (mismatch (.num n))
  | some .int64 => if n.toInt64?.isSome then .ok (.num n) else .error (mismatch (.num n))
  | _ => .error (mismatch (.num n))

mutual

/-- The value in the shape that `slot` asks for, or what is wrong with it. -/
def conform (schema : Schema φ) (m : Mode) (slot : Slot φ) : Json → Except Fault Json
  | .null =>
    match slot with
    | .optional _ => .ok .null
    | _ => .error .misshapen
  | .bool b =>
    match slot.item? with
    | some .flag => .ok (.bool b)
    | _ => .error .misshapen
  | .num n => conformNumber slot n
  | .str none => .error .unpaired
  | .str (some s) => conformText schema slot s
  | .cut c => .error c.read
  | .arr items rest =>
    match slot with
    | .list i => do
      let inner ← m.enter
      let items ← conformItems schema inner i items
      endRead rest
      return list items
    | .one (.form f) | .optional (.form f) =>
      match schema f with
      | .record fields => do
        let inner ← m.enter
        record <$> conformValues schema inner fields rest items
      | .tagged tag variants =>
        match items with
        | [] => do
          let _ ← m.enter
          endRead rest
          .error .misshapen
        | j :: items => do
          let _ ← m.enter
          match m with
          | .direct depth =>
            checkTag variants j
            hold.holdList (depth + 1) items
            endRead rest
          | .held => pure ()
          match variant? m variants j with
          | none => .error .misshapen
          | some (name, fields) =>
            let values ← conformValues schema .held fields none items
            return record ((tag, string name) :: values)
      | _ => .error .misshapen
    | _ => .error .misshapen
  | .obj members rest =>
    match slot with
    | .one (.form f) | .optional (.form f) =>
      match schema f with
      | .record fields => do
        let inner ← m.enter
        let found ← conformMembers schema inner fields [] members
        endRead rest
        record <$> assemble fields found
      | .tagged tag variants => do
        let _ ← m.enter
        match m with
        | .direct depth => holdTagged (depth + 1) tag variants false members rest
        | .held => pure ()
        match variantOf? m tag variants members with
        | none => .error .misshapen
        | some (name, fields) =>
          let found ← conformMembers schema .held fields [] members
          let values ← assemble fields found
          return record ((tag, string name) :: values)
      | .choice variants =>
        match members, rest with
        | [(some k, j)], none =>
          match variants.lookup k with
          | some slot => do return record [(k, ← conform schema .held slot j)]
          | none => .error .misshapen
        | _, _ => .error .misshapen
      | .word names =>
        match wordOf? names (.obj members rest) with
        | some s => .ok (string s)
        | none => .error .misshapen
    | _ => .error .misshapen

/-- The values of a list. -/
def conformItems (schema : Schema φ) (m : Mode) (i : Item φ) : List Json → Except Fault (List Json)
  | [] => .ok []
  | j :: js => do
    let j ← conform schema m (.one i) j
    let js ← conformItems schema m i js
    return j :: js

/-- The known members of an object, in the order of the text; the others are passed over. -/
def conformMembers (schema : Schema φ) (m : Mode) (fields : List (Field φ)) (seen : List String) :
    List (Option String × Json) → Except Fault (List (String × Json))
  | [] => .ok []
  | (none, _) :: _ => .error .unpaired
  | (some k, j) :: ms =>
    match fields.find? (·.name = k) with
    | none => do
      skip j
      conformMembers schema m fields seen ms
    | some f =>
      if k ∈ seen then .error .misshapen
      else do
        let j ← conform schema m f.slot j
        let found ← conformMembers schema m fields (k :: seen) ms
        return (k, j) :: found

/-- The values of a list that stands for an object: one for every member, in order; the last
members may be left out. -/
def conformValues (schema : Schema φ) (m : Mode) (fields : List (Field φ)) (rest : Option Cut) :
    List Json → Except Fault (List (String × Json))
  | [] => do
    endRead rest
    fields.mapM Field.default
  | j :: js =>
    match fields with
    | [] => .error m.surplus
    | f :: fields => do
      let j ← conform schema m f.slot j
      let values ← conformValues schema m fields rest js
      return (f.name, j) :: values

end

/-- A document brought into the shape of a form.  Nothing may stand behind its value. -/
def Document.conform (schema : Schema φ) (f : φ) (d : Document) : Except Fault Json := do
  let j ← Json.conform schema (.direct 0) (.one (.form f)) d.root
  if d.trailing then .error .malformed else .ok j

end DataflowSynth.Json
