/-
The language of procedures.

Guards and bodies of actions, and the scheduler that is made from them, are procedures: lists of
blocks over locals of the procedure and state variables of the actor.
-/

namespace DataflowSynth

/-- Types of ports, variables and procedure results. -/
inductive DataType where
  | bool
  | int (size : UInt32)
  | uint (size : UInt32)
  | void
  /-- A structured value that is passed by reference. -/
  | object (name : String)
  deriving DecidableEq

namespace DataType

instance : Inhabited DataType := ⟨.void⟩

/-- Bits of a value of the type.  Objects and void have no scalar width. -/
def width : DataType → UInt32
  | .bool => 1
  | .int size | .uint size => size
  | .void | .object _ => 0

def isSigned : DataType → Bool
  | .int _ => true
  | _ => false

def isObject : DataType → Bool
  | .object _ => true
  | _ => false

end DataType

/-- A local of a procedure or a state variable of an actor. -/
structure Variable where
  name : String
  type : DataType
  initial : Option Int64 := none
  deriving DecidableEq

inductive BinaryOp where
  | logicAnd
  | logicOr
  | eq
  | ne
  | ge
  | gt
  | le
  | lt
  | plus
  | minus
  deriving DecidableEq

inductive Expr where
  | bool (b : Bool)
  | int (i : Int64)
  | var (name : String)
  | binary (op : BinaryOp) (lhs rhs : Expr)
  | not (e : Expr)
  deriving DecidableEq

namespace Expr

instance : Inhabited Expr := ⟨.bool false⟩

def and (lhs rhs : Expr) : Expr := .binary .logicAnd lhs rhs

/-- The conjunction of expressions, nested to the left; there is none of nothing. -/
def all? : List Expr → Option Expr
  | [] => none
  | e :: es => some (es.foldl Expr.and e)

end Expr

inductive Instruction where
  /-- Sets a local. -/
  | assign (target : String) (value : Expr)
  /-- Reads a state variable into a local. -/
  | load (target source : String)
  /-- Writes a state variable. -/
  | store (target : String) (value : Expr)
  /-- Calls a procedure, and keeps its result if there is a target. -/
  | call (target : Option String) (procedure : String)
  /-- Samples a port: whether an input has a token, or an output has space. -/
  | portStatus (target port : String)
  | ret (value : Option Expr)
  deriving DecidableEq

inductive Block where
  | basic (instructions : List Instruction)
  | branch (cond : Expr) (thenBlocks elseBlocks : List Block)
  | loop (cond : Expr) (body : List Block)
  /-- Blocks of which at most one does anything. -/
  | mutex (blocks : List Block)

instance : Inhabited Block := ⟨.basic []⟩

structure Procedure where
  name : String
  returnType : DataType := .void
  locals : List Variable := []
  blocks : List Block := []

namespace Procedure

def local? (p : Procedure) (name : String) : Option Variable :=
  p.locals.find? (·.name = name)

end Procedure

end DataflowSynth
