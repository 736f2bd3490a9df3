/-
Procedures as text.

A procedure is written line by line; a block stands two columns further in than what it belongs
to, and an empty `else` is left out.
-/
import DataflowSynth.Procedure.Basic
import DataflowSynth.Text.Lines

namespace DataflowSynth

def DataType.text : DataType → String
  | .bool => "bool"
  | .int size => s!"int({size.toNat})"
  | .uint size => s!"uint({size.toNat})"
  | .void => "void"
  | .object name => name

def BinaryOp.symbol : BinaryOp → String
  | .logicAnd => "&&"
  | .logicOr => "||"
  | .eq => "=="
  | .ne => "!="
  | .ge => ">="
  | .gt => ">"
  | .le => "<="
  | .lt => "<"
  | .plus => "+"
  | .minus => "-"

def Expr.text : Expr → String
  | .bool true => "true"
  | .bool false => "false"
  | .int i => toString i.toInt
  | .var name => name
  | .binary op lhs rhs => "(" ++ lhs.text ++ " " ++ op.symbol ++ " " ++ rhs.text ++ ")"
  | .not e => "!" ++ e.text

def Instruction.text : Instruction → String
  | .assign target value => target ++ " = " ++ value.text ++ ";"
  | .load target source => target ++ " = load " ++ source ++ ";"
  | .store target value => "store " ++ target ++ " = " ++ value.text ++ ";"
  | .call (some target) procedure => target ++ " = call " ++ procedure ++ "();"
  | .call none procedure => "call " ++ procedure ++ "();"
  | .portStatus target port => target ++ " = status " ++ port ++ ";"
  | .ret (some value) => "return " ++ value.text ++ ";"
  | .ret none => "return;"

/-- The lines of a block. -/
def Block.lines (level : Nat) : Block → List String
  | .basic instructions => instructions.map fun i => indented level i.text
  | .branch cond thenBlocks elseBlocks =>
    indented level ("if " ++ cond.text ++ " \x7b") ::
      linesList (level + 2) thenBlocks ++
      (if elseBlocks.isEmpty then []
        else indented level "\x7d else \x7b" :: linesList (level + 2) elseBlocks) ++
      [indented level "\x7d"]
  | .loop cond body =>
    indented level ("while " ++ cond.text ++ " \x7b") ::
      linesList (level + 2) body ++ [indented level "\x7d"]
  | .mutex blocks =>
    indented level "mutex \x7b" :: linesList (level + 2) blocks ++ [indented level "\x7d"]
where
  linesList (level : Nat) : List Block → List String
    | [] => []
    | b :: bs => Block.lines level b ++ linesList level bs

def Variable.declaration (v : Variable) : String := v.name ++ ": " ++ v.type.text

def Procedure.lines (p : Procedure) : List String :=
  ("procedure " ++ p.name ++ "(): " ++ p.returnType.text ++ " \x7b") ::
    (if p.locals.isEmpty then []
      else ["  locals " ++ ", ".intercalate (p.locals.map Variable.declaration) ++ ";"]) ++
    Block.lines.linesList 2 p.blocks ++ ["\x7d"]

def Procedure.text (p : Procedure) : String := unlines p.lines

end DataflowSynth
