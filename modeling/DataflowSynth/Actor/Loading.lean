/-
Loading an actor as a step of a job.
-/
import DataflowSynth.Actor.Document
import DataflowSynth.Build

namespace DataflowSynth.Actor

/-- Loads the actor that a document describes. -/
def receive {σ : Type} (d : Json.Document) : Build σ Actor := do
  let actor ← Build.ofExcept ((ofDocument d).mapError .document)
  Build.log .debug .loading s!"loaded actor {quote actor.name}"
  return actor

end DataflowSynth.Actor
