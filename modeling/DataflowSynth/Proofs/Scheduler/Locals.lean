/-
Generated names do not meet.

A scheduler keeps everything in variables whose names are made from those of actions, ports and
states, and two names that coincide would let one check overwrite another.  Names of different
families start, or end, differently, and inside a family the name can be read back.  The exception is
the flag of a port check: it is made from an action and a port with `_` between them, so two actions
may share one.  That is harmless, because such a flag is read only in the check that has just set it.
-/
import DataflowSynth.Scheduler.Lowering

namespace DataflowSynth.Scheduler

open Actor

/-- `v` is a flag for the port in the checks of the action. -/
def PortFlag (a : Action) (port v : String) : Prop :=
  v = "portTokenAvailability_" ++ a.name ++ "_" ++ port ∨
    v = "portSpaceAvailability_" ++ a.name ++ "_" ++ port ∨ v = statusFlag a port

/-- The port can be read back from a flag of a given action. -/
theorem PortFlag.port_inj {a : Action} {p q v : String} (hp : PortFlag a p v)
    (hq : PortFlag a q v) : p = q := by
  rcases hp with hp | hp | hp <;> rcases hq with hq | hq | hq <;>
    have hchars := congrArg String.toList (hp.symm.trans hq) <;>
    simp [statusFlag] at hchars <;> exact String.toList_injective hchars

/-- The locals that the two checks of an action set. -/
inductive CheckLocal (a : Action) : String → Prop
  | port {p v : String} (h : PortFlag a p v) : CheckLocal a v
  | allTokens : CheckLocal a ("tokenAvailability_" ++ a.name)
  | allSpace : CheckLocal a ("spaceAvailability_" ++ a.name)
  | guard : CheckLocal a ("return_" ++ a.guard)
  | go : CheckLocal a (goFlag a)
  | fire : CheckLocal a (fireFlag a)

theorem PortFlag.ne_goFlag {a b : Action} {p v : String} (h : PortFlag a p v) : v ≠ goFlag b := by
  intro heq
  have hchars := congrArg String.toList heq
  rcases h with rfl | rfl | rfl <;> simp [statusFlag, goFlag] at hchars

theorem PortFlag.ne_fireFlag {a b : Action} {p v : String} (h : PortFlag a p v) :
    v ≠ fireFlag b := by
  intro heq
  have hchars := congrArg String.toList heq
  rcases h with rfl | rfl | rfl <;> simp [statusFlag, fireFlag] at hchars

namespace CheckLocal

variable {a b : Action} {v : String}

theorem ne_stateLocal (h : CheckLocal a v) (state : String) : v ≠ stateLocal state := by
  intro heq
  have hchars := congrArg String.toList heq
  rcases h with ⟨rfl | rfl | rfl⟩ | _ | _ | _ | _ | _ <;>
    simp [stateLocal, statusFlag, goFlag, fireFlag] at hchars

theorem ne_tmpCount (h : CheckLocal a v) (port : String) :
    v ≠ (BufferVars.ofPort port).tmpCount := by
  intro heq
  have hchars := congrArg String.toList heq
  rcases h with ⟨rfl | rfl | rfl⟩ | _ | _ | _ | _ | _ <;>
    simp [BufferVars.ofPort, statusFlag, goFlag, fireFlag] at hchars

/-- Only the checks of an action set whether it is due. -/
theorem name_eq_of_goFlag (h : CheckLocal a v) (hv : v = goFlag b) : b.name = a.name := by
  have hchars := congrArg String.toList hv
  cases h with
  | port h => exact absurd hv h.ne_goFlag
  | go => simpa [goFlag] using hv.symm
  | _ => simp [goFlag, fireFlag] at hchars

/-- Only the checks of an action set whether it can fire. -/
theorem name_eq_of_fireFlag (h : CheckLocal a v) (hv : v = fireFlag b) : b.name = a.name := by
  have hchars := congrArg String.toList hv
  cases h with
  | port h => exact absurd hv h.ne_fireFlag
  | fire => simpa [fireFlag] using hv.symm
  | _ => simp [goFlag, fireFlag] at hchars

end CheckLocal

/-! ### Locals that are loaded -/

theorem stateLocal_inj {s t : String} : stateLocal s = stateLocal t ↔ s = t := by
  simp [stateLocal]

theorem tmpCount_inj {p q : String} :
    (BufferVars.ofPort p).tmpCount = (BufferVars.ofPort q).tmpCount ↔ p = q := by
  simp [BufferVars.ofPort]

theorem tmpStart_inj {p q : String} :
    (BufferVars.ofPort p).tmpStart = (BufferVars.ofPort q).tmpStart ↔ p = q := by
  simp [BufferVars.ofPort]

theorem stateLocal_ne_tmpCount (s p : String) : stateLocal s ≠ (BufferVars.ofPort p).tmpCount := by
  intro heq
  have hchars := congrArg String.toList heq
  simp [stateLocal, BufferVars.ofPort] at hchars

theorem stateLocal_ne_tmpStart (s p : String) : stateLocal s ≠ (BufferVars.ofPort p).tmpStart := by
  intro heq
  have hchars := congrArg String.toList heq
  simp [stateLocal, BufferVars.ofPort] at hchars

theorem tmpCount_ne_tmpStart (p q : String) :
    (BufferVars.ofPort p).tmpCount ≠ (BufferVars.ofPort q).tmpStart := by
  intro heq
  have hchars := congrArg (fun s => s.toList.reverse) heq
  simp [BufferVars.ofPort] at hchars

/-! ### State variables -/

theorem stateVar_inj {s t : String} : Fsm.stateVar s = Fsm.stateVar t ↔ s = t := by
  simp [Fsm.stateVar]

theorem stateVar_ne_count (s p : String) : Fsm.stateVar s ≠ (BufferVars.ofPort p).count := by
  intro heq
  have hchars := congrArg String.toList heq
  simp [Fsm.stateVar, BufferVars.ofPort] at hchars

theorem stateVar_ne_start (s p : String) : Fsm.stateVar s ≠ (BufferVars.ofPort p).start := by
  intro heq
  have hchars := congrArg String.toList heq
  simp [Fsm.stateVar, BufferVars.ofPort] at hchars

theorem stateVar_ne_requestSize (s p : String) :
    Fsm.stateVar s ≠ (BufferVars.ofPort p).requestSize := by
  intro heq
  have hchars := congrArg String.toList heq
  simp [Fsm.stateVar, BufferVars.ofPort] at hchars

theorem count_ne_start (p q : String) :
    (BufferVars.ofPort p).count ≠ (BufferVars.ofPort q).start := by
  intro heq
  have hchars := congrArg (fun s => s.toList.reverse) heq
  simp [BufferVars.ofPort] at hchars

theorem count_ne_requestSize (p q : String) :
    (BufferVars.ofPort p).count ≠ (BufferVars.ofPort q).requestSize := by
  intro heq
  have hchars := congrArg (fun s => s.toList.reverse) heq
  simp [BufferVars.ofPort] at hchars

end DataflowSynth.Scheduler
