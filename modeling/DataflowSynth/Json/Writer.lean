/-
Writing JSON: on one line, or spread over lines with the keys of every object in order.
-/
import DataflowSynth.Json.Basic

namespace DataflowSynth.Json

/-- The digit of a number below sixteen. -/
def hexChar (n : Nat) : Char := if n < 10 then Char.ofNat (n + 48) else Char.ofNat (n + 87)

/-- A character inside a string.  The quote, the backslash and the control characters are
escaped. -/
def escape (c : Char) : List Char :=
  if c = '"' then ['\\', '"']
  else if c = '\\' then ['\\', '\\']
  else if c = '\x08' then ['\\', 'b']
  else if c = '\x0c' then ['\\', 'f']
  else if c = '\n' then ['\\', 'n']
  else if c = '\r' then ['\\', 'r']
  else if c = '\t' then ['\\', 't']
  else if c.toNat < 0x20 then ['\\', 'u', '0', '0', hexChar (c.toNat / 16), hexChar (c.toNat % 16)]
  else [c]

def quoted (s : String) : List Char := '"' :: s.toList.flatMap escape ++ ['"']

/-- Pieces with commas between them. -/
def commas : List (List Char) → List Char
  | [] => []
  | [p] => p
  | p :: ps => p ++ ',' :: commas ps

/-- The value on one line. -/
def chars : Json → List Char
  | .null => ['n', 'u', 'l', 'l']
  | .bool true => ['t', 'r', 'u', 'e']
  | .bool false => ['f', 'a', 'l', 's', 'e']
  | .num n => n.text.toList
  | .str s => quoted (s.getD "")
  | .arr items _ => '[' :: commas (charsList items) ++ [']']
  | .obj members _ => '\x7b' :: commas (charsMembers members) ++ ['\x7d']
  | .cut _ => []
where
  charsList : List Json → List (List Char)
    | [] => []
    | j :: js => chars j :: charsList js
  charsMembers : List (Option String × Json) → List (List Char)
    | [] => []
    | (k, j) :: ms => (quoted (k.getD "") ++ ':' :: chars j) :: charsMembers ms

def compact (j : Json) : String := String.ofList (chars j)

/-! ### Spread over lines -/

def indent (n : Nat) : List Char := List.replicate n ' '

/-- Pieces on lines of their own between brackets, two columns further in; without pieces the
brackets stand together. -/
def spread (left right : Char) (level : Nat) (pieces : List (List Char)) : List Char :=
  if pieces.isEmpty then [left, right]
  else
    left :: commas (pieces.map fun p => '\n' :: indent (level + 2) ++ p) ++
      '\n' :: indent level ++ [right]

/-- Members in the order of their keys. -/
def sortMembers (pieces : List (String × List Char)) : List (List Char) :=
  (pieces.mergeSort fun a b => a.1 ≤ b.1).map Prod.snd

/-- The value over several lines, the first of which is already indented. -/
def lines (level : Nat) : Json → List Char
  | .arr items _ => spread '[' ']' level (linesList level items)
  | .obj members _ => spread '\x7b' '\x7d' level (sortMembers (linesMembers level members))
  | j => chars j
where
  linesList (level : Nat) : List Json → List (List Char)
    | [] => []
    | j :: js => lines (level + 2) j :: linesList level js
  linesMembers (level : Nat) : List (Option String × Json) → List (String × List Char)
    | [] => []
    | (k, j) :: ms =>
      (k.getD "", quoted (k.getD "") ++ ':' :: ' ' :: lines (level + 2) j) :: linesMembers level ms

def pretty (j : Json) : String := String.ofList (lines 0 j)

end DataflowSynth.Json
