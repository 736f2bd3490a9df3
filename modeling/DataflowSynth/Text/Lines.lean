/-
Texts made of lines.
-/

namespace DataflowSynth

/-- A line that starts in column `level`. -/
def indented (level : Nat) (s : String) : String := "".pushn ' ' level ++ s

/-- Lines, each with its end. -/
def unlines (lines : List String) : String := String.join (lines.map (· ++ "\n"))

end DataflowSynth
