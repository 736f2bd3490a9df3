/-
Steps of a job.

A step works on a state of type `σ`, may add to the journal and may fail.  A failure does not undo
what was done before it.
-/
import DataflowSynth.Error
import DataflowSynth.Journal

namespace DataflowSynth

/-- A state with what has been said while it was built. -/
structure Traced (σ : Type) where
  state : σ
  journal : Journal := #[]

/-- A step on a state of type `σ` with a result of type `α`. -/
def Build (σ α : Type) : Type := EStateM Failure (Traced σ) α

namespace Build

variable {σ τ α : Type}

instance : Monad (Build σ) := inferInstanceAs (Monad (EStateM Failure (Traced σ)))

instance : LawfulMonad (Build σ) := inferInstanceAs (LawfulMonad (EStateM Failure (Traced σ)))

instance : Inhabited (Build σ α) := ⟨fun s => .error (.abort .outOfBounds) s⟩

/-- Looks at the state. -/
def look (f : σ → α) : Build σ α := fun s => .ok (f s.state) s

/-- What has been said so far. -/
def said : Build σ Journal := fun s => .ok s.journal s

/-- Changes the state. -/
def change (f : σ → σ) : Build σ Unit := fun s => .ok () { s with state := f s.state }

/-- Adds to the journal. -/
def note (e : Event) : Build σ Unit := fun s => .ok () { s with journal := s.journal.push e }

def log (level : Level) (source : Source) (message : String) : Build σ Unit :=
  note (.record ⟨level, source, message⟩)

def fail (e : Error) : Build σ α := fun s => .error (.error e) s

def abort (a : Abort) : Build σ α := fun s => .error (.abort a) s

/-- The value that has to be there. -/
def expect (a : Abort) : Option α → Build σ α
  | some x => pure x
  | none => abort a

def ofExcept : Except Error α → Build σ α
  | .ok x => pure x
  | .error e => fail e

/-- A step on a part of the state. -/
def within (get : σ → τ) (put : τ → σ → σ) (x : Build τ α) : Build σ α := fun s =>
  match x ⟨get s.state, s.journal⟩ with
  | .ok a t => .ok a ⟨put t.state s.state, t.journal⟩
  | .error e t => .error e ⟨put t.state s.state, t.journal⟩

/-- The outcome of a step, with the state after it. -/
def run (x : Build σ α) (s : Traced σ) : Except Failure α × Traced σ :=
  match x s with
  | .ok a s => (.ok a, s)
  | .error e s => (.error e, s)

/-! ### How steps act -/

@[simp] theorem pure_apply (a : α) (s : Traced σ) : (pure a : Build σ α) s = .ok a s := rfl

theorem bind_apply {β : Type} (x : Build σ α) (f : α → Build σ β) (s : Traced σ) :
    (x >>= f) s =
      match x s with
      | .ok a s => f a s
      | .error e s => .error e s := by
  show EStateM.bind x f s = _
  unfold EStateM.bind
  cases x s <;> rfl

@[simp] theorem look_apply (f : σ → α) (s : Traced σ) : look f s = .ok (f s.state) s := rfl

@[simp] theorem change_apply (f : σ → σ) (s : Traced σ) :
    change f s = .ok () { s with state := f s.state } := rfl

@[simp] theorem fail_apply (e : Error) (s : Traced σ) :
    (fail e : Build σ α) s = .error (.error e) s := rfl

@[simp] theorem abort_apply (a : Abort) (s : Traced σ) :
    (abort a : Build σ α) s = .error (.abort a) s := rfl

end Build

end DataflowSynth
