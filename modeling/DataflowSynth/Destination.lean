/-
Where a text can be sent: nowhere, to one of the two standard streams, or to a file.
-/

namespace DataflowSynth

/-- A place that takes text. -/
inductive Destination where
  | null
  | stdout
  | stderr
  | file (path : String)
  deriving DecidableEq

namespace Destination

/-- `-` and `<out>` are the standard output, `<err>` the standard error output, `<null>` nowhere;
any other text but the empty one is the path of a file. -/
def ofText? (s : String) : Option Destination :=
  if s = "-" ∨ s = "<out>" then some .stdout
  else if s = "<err>" then some .stderr
  else if s = "<null>" then some .null
  else if s = "" then none
  else some (.file s)

def text : Destination → String
  | .null => "<null>"
  | .stdout => "-"
  | .stderr => "<err>"
  | .file path => path

/-- The destination, unless text sent there is lost. -/
def unlessNull : Destination → Option Destination
  | .null => none
  | d => some d

/-- A destination that is not a file called like one of the others is read back from its text. -/
theorem ofText?_text_of_not_file {d : Destination} (h : ∀ p, d ≠ .file p) :
    ofText? d.text = some d := by
  cases d with
  | null => decide
  | stdout => decide
  | stderr => decide
  | file p => exact absurd rfl (h p)

end Destination

end DataflowSynth
