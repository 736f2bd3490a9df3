/-
Contents of memories as JSON.
-/
import DataflowSynth.Json.Basic
import DataflowSynth.Memory.LogicalValue

namespace DataflowSynth.LogicalValue

open Json

/-- A value as an object with one member, which tells what kind of value it is. -/
def toJson : LogicalValue → Json
  | .scalar bytes => Json.record [("scalar", list (bytes.map fun b => ofNat b.toNat))]
  | .record values => Json.record [("record", list (toJsonList values))]
  | .pointer target bytes =>
    Json.record [("pointer", list [ofNat target.toNat, ofNat bytes])]
where
  toJsonList : List LogicalValue → List Json
    | [] => []
    | v :: vs => toJson v :: toJsonList vs

end DataflowSynth.LogicalValue
