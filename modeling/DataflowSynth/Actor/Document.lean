/-
Actors and procedures as JSON documents.

The schema lists the members of every form; reading a document brings it into the shape of the
schema and then reads the values off, in order.  Writing leaves out what is optional and not
there.
-/
import DataflowSynth.Actor.Basic
import DataflowSynth.Json.Schema
import DataflowSynth.Json.Writer

namespace DataflowSynth

namespace Actor

/-- The forms of a document. -/
inductive Form where
  | actor
  | port
  | buffer
  | variable
  | type
  | tokenCount
  | action
  | fsm
  | transition
  | procedure
  | block
  | instruction
  | expr
  | binary
  | operator

namespace Form

open Json

private def required (name : String) (slot : Slot Form) : Json.Field Form := ⟨name, slot, none⟩

private def text (name : String) : Json.Field Form := required name (.one .text)

private def formed (name : String) (f : Form) : Json.Field Form := required name (.one (.form f))

/-- A list that is empty if it is left out. -/
private def listed (name : String) (f : Form) : Json.Field Form :=
  ⟨name, .list (.form f), some (list [])⟩

/-- A value that is absent if it is left out. -/
private def maybe (name : String) (i : Item Form) : Json.Field Form :=
  ⟨name, .optional i, some .null⟩

def operators : List String :=
  ["logic_and", "logic_or", "eq", "ne", "ge", "gt", "le", "lt", "plus", "minus"]

/-- The members of every form. -/
def schema : Schema Form
  | .actor => .record [text "name", listed "inputs" .port, listed "outputs" .port,
      listed "state_vars" .variable, listed "procedures" .procedure, listed "actions" .action,
      maybe "fsm" (.form .fsm)]
  | .port => .record [text "name", formed "ty" .type, maybe "buffer" (.form .buffer)]
  | .buffer => .record [required "size" (.one .word32)]
  | .variable => .record [text "name", formed "ty" .type, maybe "initial" .int64]
  | .type => .tagged "kind" [("bool", []), ("int", [required "size" (.one .word32)]),
      ("uint", [required "size" (.one .word32)]), ("void", []), ("object", [text "name"])]
  | .tokenCount => .record [text "port", required "tokens" (.one .word32)]
  | .action => .record [text "name", listed "input_pattern" .tokenCount,
      listed "output_pattern" .tokenCount, listed "peek_pattern" .tokenCount, text "body",
      text "scheduler", ⟨"fill_buffer", .one .flag, some (.bool false)⟩, maybe "task" .text]
  | .fsm => .record [text "initial", required "states" (.list .text),
      required "transitions" (.list (.form .transition))]
  | .transition => .record [text "source", text "target", text "action"]
  | .procedure => .record [text "name",
      ⟨"return_type", .one (.form .type), some (record [("kind", string "void")])⟩,
      listed "locals" .variable, listed "blocks" .block]
  | .block => .tagged "kind" [("basic", [required "instructions" (.list (.form .instruction))]),
      ("if", [formed "cond" .expr, required "then_blocks" (.list (.form .block)),
        listed "else_blocks" .block]),
      ("while", [formed "cond" .expr, required "body" (.list (.form .block))]),
      ("mutex", [required "blocks" (.list (.form .block))])]
  | .instruction => .tagged "op" [("assign", [text "target", formed "value" .expr]),
      ("load", [text "target", text "source"]), ("store", [text "target", formed "value" .expr]),
      ("call", [maybe "target" .text, text "procedure"]),
      ("port_status", [text "target", text "port"]), ("return", [maybe "value" (.form .expr)])]
  | .expr => .choice [("bool", .one .flag), ("int", .one .int64), ("var", .one .text),
      ("binary", .one (.form .binary)), ("not", .one (.form .expr))]
  | .binary => .record [formed "op" .operator, formed "lhs" .expr, formed "rhs" .expr]
  | .operator => .word operators

end Form

end Actor

/-! ### Reading values off a document in shape -/

namespace Json

/-- The value of an optional member. -/
def optional? {α : Type} (f : Json → Option α) : Json → Option (Option α)
  | .null => some none
  | j => (f j).map some

/-- The values of a list. -/
def list? {α : Type} (f : Json → Option α) (j : Json) : Option (List α) :=
  j.items?.bind (·.mapM f)

end Json

def DataType.ofJson? (j : Json) : Option DataType :=
  match j.fields with
  | [tag] =>
    match tag.string? with
    | some "bool" => some .bool
    | some "void" => some .void
    | _ => none
  | [tag, value] =>
    match tag.string? with
    | some "int" => value.uint32?.map .int
    | some "uint" => value.uint32?.map .uint
    | some "object" => value.string?.map .object
    | _ => none
  | _ => none

def Variable.ofJson? (j : Json) : Option Variable :=
  match j.fields with
  | [name, type, initial] => do
    return { name := ← name.string?, type := ← DataType.ofJson? type,
             initial := ← initial.optional? Json.int64? }
  | _ => none

def BinaryOp.ofText? : String → Option BinaryOp
  | "logic_and" => some .logicAnd
  | "logic_or" => some .logicOr
  | "eq" => some .eq
  | "ne" => some .ne
  | "ge" => some .ge
  | "gt" => some .gt
  | "le" => some .le
  | "lt" => some .lt
  | "plus" => some .plus
  | "minus" => some .minus
  | _ => none

def Expr.ofJson? : Json → Option Expr
  | .obj [(some "bool", j)] none => j.bool?.map .bool
  | .obj [(some "int", j)] none => j.int64?.map .int
  | .obj [(some "var", j)] none => j.string?.map .var
  | .obj [(some "not", j)] none => (Expr.ofJson? j).map .not
  | .obj [(some "binary", .obj [(some "op", op), (some "lhs", lhs), (some "rhs", rhs)] none)] none =>
    do return .binary (← op.string?.bind BinaryOp.ofText?) (← Expr.ofJson? lhs) (← Expr.ofJson? rhs)
  | _ => none

def Instruction.ofJson? (j : Json) : Option Instruction :=
  match j.fields with
  | [op, value] =>
    match op.string? with
    | some "return" => (value.optional? Expr.ofJson?).map .ret
    | _ => none
  | [op, a, b] =>
    match op.string? with
    | some "assign" => do return .assign (← a.string?) (← Expr.ofJson? b)
    | some "load" => do return .load (← a.string?) (← b.string?)
    | some "store" => do return .store (← a.string?) (← Expr.ofJson? b)
    | some "call" => do return .call (← a.optional? Json.string?) (← b.string?)
    | some "port_status" => do return .portStatus (← a.string?) (← b.string?)
    | _ => none
  | _ => none

/-- A block; its lists of blocks are read with it. -/
def Block.ofJson? : Json → Option Block
  | .obj [(_, .str (some "basic")), (_, j)] none => (j.list? Instruction.ofJson?).map .basic
  | .obj [(_, .str (some "if")), (_, cond), (_, .arr ts none), (_, .arr es none)] none => do
    return .branch (← Expr.ofJson? cond) (← ofJsonList? ts) (← ofJsonList? es)
  | .obj [(_, .str (some "while")), (_, cond), (_, .arr bs none)] none => do
    return .loop (← Expr.ofJson? cond) (← ofJsonList? bs)
  | .obj [(_, .str (some "mutex")), (_, .arr bs none)] none => do
    return .mutex (← ofJsonList? bs)
  | _ => none
where
  ofJsonList? : List Json → Option (List Block)
    | [] => some []
    | j :: js => do return (← Block.ofJson? j) :: (← ofJsonList? js)

def Procedure.ofJson? (j : Json) : Option Procedure :=
  match j.fields with
  | [name, returnType, locals, blocks] => do
    return { name := ← name.string?, returnType := ← DataType.ofJson? returnType,
             locals := ← locals.list? Variable.ofJson?, blocks := ← blocks.list? Block.ofJson? }
  | _ => none

namespace Actor

def Port.ofJson? (j : Json) : Option Port :=
  match j.fields with
  | [name, type, buffer] => do
    return { name := ← name.string?, type := ← DataType.ofJson? type,
             buffer := ← buffer.optional? capacity? }
  | _ => none
where
  capacity? (j : Json) : Option UInt32 :=
    match j.fields with
    | [size] => size.uint32?
    | _ => none

def TokenCount.ofJson? (j : Json) : Option TokenCount :=
  match j.fields with
  | [port, tokens] => do return ⟨← port.string?, ← tokens.uint32?⟩
  | _ => none

def Action.ofJson? (j : Json) : Option Action :=
  match j.fields with
  | [name, inputs, outputs, peeks, body, guard, fillBuffer, task] => do
    return { name := ← name.string?, inputs := ← inputs.list? TokenCount.ofJson?,
             outputs := ← outputs.list? TokenCount.ofJson?,
             peeks := ← peeks.list? TokenCount.ofJson?, body := ← body.string?,
             guard := ← guard.string?, fillBuffer := ← fillBuffer.bool?,
             task := ← task.optional? Json.string? }
  | _ => none

def Transition.ofJson? (j : Json) : Option Transition :=
  match j.fields with
  | [source, target, action] => do
    return ⟨← source.string?, ← target.string?, ← action.string?⟩
  | _ => none

def Fsm.ofJson? (j : Json) : Option Fsm :=
  match j.fields with
  | [initial, states, transitions] => do
    return ⟨← initial.string?, ← states.list? Json.string?,
      ← transitions.list? Transition.ofJson?⟩
  | _ => none

def ofJson? (j : Json) : Option Actor :=
  match j.fields with
  | [name, inputs, outputs, stateVars, procedures, actions, fsm] => do
    return { name := ← name.string?, inputs := ← inputs.list? Port.ofJson?,
             outputs := ← outputs.list? Port.ofJson?,
             stateVars := ← stateVars.list? Variable.ofJson?,
             procedures := ← procedures.list? Procedure.ofJson?,
             actions := ← actions.list? Action.ofJson?, fsm := ← fsm.optional? Fsm.ofJson? }
  | _ => none

/-! ### Loading -/

/-- The actor that a document describes. -/
def ofDocument (d : Json.Document) : Except Json.Fault Actor := do
  let j ← d.conform Form.schema .actor
  match ofJson? j with
  | some a => .ok a
  | none => .error .misshapen

/-- The actor that a text describes. -/
def load (src : String) : Except Json.Fault Actor := ofDocument (Json.read src)

end Actor

namespace Procedure

/-- The procedure that a document describes. -/
def ofDocument (d : Json.Document) : Except Json.Fault Procedure := do
  let j ← d.conform Actor.Form.schema .procedure
  match ofJson? j with
  | some p => .ok p
  | none => .error .misshapen

def load (src : String) : Except Json.Fault Procedure := ofDocument (Json.read src)

end Procedure

/-! ### Writing -/

namespace Json

/-- A member that is left out if its value is absent. -/
def ifSome {α : Type} (name : String) (f : α → Json) : Option α → List (String × Json)
  | some x => [(name, f x)]
  | none => []

def ofWord (n : UInt32) : Json := ofNat n.toNat

def ofInt64 (i : Int64) : Json := ofInt i.toInt

end Json

open Json

def DataType.toJson : DataType → Json
  | .bool => record [("kind", string "bool")]
  | .int size => record [("kind", string "int"), ("size", ofWord size)]
  | .uint size => record [("kind", string "uint"), ("size", ofWord size)]
  | .void => record [("kind", string "void")]
  | .object name => record [("kind", string "object"), ("name", string name)]

def Variable.toJson (v : Variable) : Json :=
  record ([("name", string v.name), ("ty", v.type.toJson)] ++ ifSome "initial" ofInt64 v.initial)

def BinaryOp.name : BinaryOp → String
  | .logicAnd => "logic_and"
  | .logicOr => "logic_or"
  | .eq => "eq"
  | .ne => "ne"
  | .ge => "ge"
  | .gt => "gt"
  | .le => "le"
  | .lt => "lt"
  | .plus => "plus"
  | .minus => "minus"

def Expr.toJson : Expr → Json
  | .bool b => record [("bool", .bool b)]
  | .int i => record [("int", ofInt64 i)]
  | .var name => record [("var", string name)]
  | .binary op lhs rhs =>
    record [("binary",
      record [("op", string op.name), ("lhs", lhs.toJson), ("rhs", rhs.toJson)])]
  | .not e => record [("not", e.toJson)]

def Instruction.toJson : Instruction → Json
  | .assign target value =>
    record [("op", string "assign"), ("target", string target), ("value", value.toJson)]
  | .load target source =>
    record [("op", string "load"), ("target", string target), ("source", string source)]
  | .store target value =>
    record [("op", string "store"), ("target", string target), ("value", value.toJson)]
  | .call target procedure =>
    record ([("op", string "call")] ++ ifSome "target" string target ++
      [("procedure", string procedure)])
  | .portStatus target port =>
    record [("op", string "port_status"), ("target", string target), ("port", string port)]
  | .ret value => record ([("op", string "return")] ++ ifSome "value" Expr.toJson value)

def Block.toJson : Block → Json
  | .basic instructions =>
    record [("kind", string "basic"), ("instructions", list (instructions.map Instruction.toJson))]
  | .branch cond ts es =>
    record [("kind", string "if"), ("cond", cond.toJson), ("then_blocks", list (toJsonList ts)),
      ("else_blocks", list (toJsonList es))]
  | .loop cond body =>
    record [("kind", string "while"), ("cond", cond.toJson), ("body", list (toJsonList body))]
  | .mutex blocks => record [("kind", string "mutex"), ("blocks", list (toJsonList blocks))]
where
  toJsonList : List Block → List Json
    | [] => []
    | b :: bs => Block.toJson b :: toJsonList bs

def Procedure.toJson (p : Procedure) : Json :=
  record [("name", string p.name), ("return_type", p.returnType.toJson),
    ("locals", list (p.locals.map Variable.toJson)), ("blocks", list (p.blocks.map Block.toJson))]

namespace Actor

def Port.toJson (p : Port) : Json :=
  record ([("name", string p.name), ("ty", p.type.toJson)] ++
    ifSome "buffer" (fun size => record [("size", ofWord size)]) p.buffer)

def TokenCount.toJson (e : TokenCount) : Json :=
  record [("port", string e.port), ("tokens", ofWord e.tokens)]

def Pattern.toJson (p : Pattern) : Json := list (p.map TokenCount.toJson)

def Action.toJson (a : Action) : Json :=
  record ([("name", string a.name), ("input_pattern", Pattern.toJson a.inputs),
    ("output_pattern", Pattern.toJson a.outputs), ("peek_pattern", Pattern.toJson a.peeks),
    ("body", string a.body), ("scheduler", string a.guard), ("fill_buffer", .bool a.fillBuffer)] ++
    ifSome "task" string a.task)

def Transition.toJson (t : Transition) : Json :=
  record [("source", string t.source), ("target", string t.target), ("action", string t.action)]

def Fsm.toJson (f : Fsm) : Json :=
  record [("initial", string f.initial), ("states", list (f.states.map string)),
    ("transitions", list (f.transitions.map Transition.toJson))]

def toJson (a : Actor) : Json :=
  record ([("name", string a.name), ("inputs", list (a.inputs.map Port.toJson)),
    ("outputs", list (a.outputs.map Port.toJson)),
    ("state_vars", list (a.stateVars.map Variable.toJson)),
    ("procedures", list (a.procedures.map Procedure.toJson)),
    ("actions", list (a.actions.map Action.toJson))] ++ ifSome "fsm" Fsm.toJson a.fsm)

end Actor

end DataflowSynth
