/-
An actor does not depend on how its document is presented.

The order of the members of an object, where a tag stands among them, and members that are not known
make no difference.  How deep a document is does not matter for that, but what a member that is not
known may hold depends on where it is added.  In an object without a tag that is read from the text, the
value is passed over, so it may be anything.  An object with a tag is held as a whole until its tag is
known, and there a string with half of a surrogate pair, which is no text, is not taken.
-/
import Mathlib
import DataflowSynth.Proofs.Actor.RoundTrip
import DataflowSynth.Proofs.Json.Presentation

namespace DataflowSynth

open Json

/-- A document that loads as an actor loads as the same actor after its objects have been put in
another order and have been given members that are not theirs. -/
theorem load_of_edits {src src' : String} {a : Actor} (hload : Actor.load src = .ok a)
    (hedits : Relation.ReflTransGen (Edit Actor.Form.schema (.read 0) (.one (.form .actor)))
      (read src).root (read src').root)
    (halone : (read src').trailing = false) : Actor.load src' = .ok a := by
  simp only [Actor.load, Actor.ofDocument, Document.conform] at hload ⊢
  obtain ⟨v, hconforms, hreads⟩ := bind_eq_ok.1 hload
  obtain ⟨w, hroot, hrest⟩ := bind_eq_ok.1 hconforms
  have hsame : w = v := by
    split at hrest
    · cases hrest
    · exact Except.ok.inj hrest
  subst hsame
  have hroot' : conform Actor.Form.schema (.direct 0) (.one (.form .actor)) (read src').root = .ok w :=
    conform_of_edits hedits hroot
  refine bind_eq_ok.2 ⟨w, bind_eq_ok.2 ⟨w, hroot', ?_⟩, hreads⟩
  rw [halone]
  rfl

/-- An actor with a port. -/
def dial : Actor where
  name := "dial"
  inputs := [⟨"in", .bool, none⟩]

/-- A text for `dial`, with a note in front and the members of its port as they are given. -/
def dialText (note port : String) : String :=
  "\x7b" ++ note ++ "\"inputs\":[\x7b" ++ port ++ "\x7d],\"name\":\"dial\"\x7d"

/-- What such a text reads as. -/
def dialRoot (note port : List (String × Json)) : Json :=
  record (note ++ [("inputs", list [record port]), ("name", string "dial")])

/-- The port of `dial` may be presented in another way. -/
theorem edit_port {port port' : List (String × Json)}
    (h : Edit Actor.Form.schema (.read 2) (.one (.form .port)) (record port) (record port')) :
    Edit Actor.Form.schema (.read 0) (.one (.form .actor)) (dialRoot [] port) (dialRoot [] port') :=
  .member rfl rfl rfl (by decide) (.item [] h)

/-- The members of the port trade places, its type is given a unit, and the actor a note that is not
even text. -/
theorem load_of_edits_dial :
    Actor.load (dialText "\"note\":\"\\ud800\","
      "\"name\":\"in\",\"ty\":\x7b\"unit\":[8],\"kind\":\"bool\"\x7d") = .ok dial := by
  let type := [("kind", string "bool")]
  let measured := ("unit", list [ofWord 8]) :: type
  have hload : Actor.load (dialText "" "\"ty\":\x7b\"kind\":\"bool\"\x7d,\"name\":\"in\"") = .ok dial := by
    cbv
  have hplain : (read (dialText "" "\"ty\":\x7b\"kind\":\"bool\"\x7d,\"name\":\"in\"")).root =
      dialRoot [] [("ty", record type), ("name", string "in")] := by
    cbv
  have hedited : read (dialText "\"note\":\"\\ud800\","
      "\"name\":\"in\",\"ty\":\x7b\"unit\":[8],\"kind\":\"bool\"\x7d") =
      ⟨dialRoot [("note", .str none)] [("name", string "in"), ("ty", record measured)], false⟩ := by
    cbv
  have hunit : Edit Actor.Form.schema (.read 0) (.one (.form .actor))
      (dialRoot [] [("ty", record type), ("name", string "in")])
      (dialRoot [] [("ty", record measured), ("name", string "in")]) := by
    refine edit_port (.member rfl rfl rfl (by decide) (.add rfl rfl (by decide) (by decide) ⟨?_, ?_⟩))
    · exact whole_list (by simp)
    · decide
  have hswap : Edit Actor.Form.schema (.read 0) (.one (.form .actor))
      (dialRoot [] [("ty", record measured), ("name", string "in")])
      (dialRoot [] [("name", string "in"), ("ty", record measured)]) :=
    edit_port (.order rfl rfl (.swap ..))
  have hnote : Edit Actor.Form.schema (.read 0) (.one (.form .actor))
      (dialRoot [] [("name", string "in"), ("ty", record measured)])
      (dialRoot [("note", .str none)] [("name", string "in"), ("ty", record measured)]) :=
    .add rfl rfl (by decide) (by decide) (.str none)
  refine load_of_edits hload ?_ (by rw [hedited])
  rw [hplain, hedited]
  exact .tail (.tail (.single hunit) hswap) hnote

/-- The same note is refused where the tag of an object is looked for. -/
theorem refuses_note_in_type :
    Actor.load (dialText "" "\"ty\":\x7b\"kind\":\"bool\"\x7d,\"name\":\"in\"") = .ok dial ∧
      Actor.load (dialText "" "\"ty\":\x7b\"note\":\"\\ud800\",\"kind\":\"bool\"\x7d,\"name\":\"in\"") =
        .error .unpaired := by
  constructor
  · cbv
  · cbv

end DataflowSynth
