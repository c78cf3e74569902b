import Dlutos.Foundation.Transition
import Mathlib.Data.List.Nodup

/-!
# The scheduler

`dlutos_runtime/src/scheduler.rs`, `task.rs`, `task/task_state.rs` and `ready_queue.rs`: the loops
`Runtime::enter` of the CPUs `κ`, the tasks `τ`, and the agents `ω` that spawn and wake tasks.
Every update of a task's state word and every operation of a ready queue is one step.
-/

namespace Dlutos

open ExceptLoop Transition Function

inductive TaskState where
  | blocked
  | ready
  | running
  | readyRunning
  | dead
  deriving DecidableEq

def TaskState.isRunning : TaskState → Bool
  | .running | .readyRunning => true
  | _ => false

inductive CpuPc (τ : Type) where
  /-- about to lock its ready queue -/
  | top
  /-- about to take `CURRENT_TASK` -/
  | locked
  /-- `remove_and_enqueue_current`: about to update the state -/
  | settle (t : τ)
  /-- about to put the task back -/
  | requeue (t : τ)
  /-- about to get the next task -/
  | fetch
  /-- about to mark it as running -/
  | switch (t : τ)
  /-- about to set `CURRENT_TASK`, to unlock the queue and to borrow the executor -/
  | setCurrent (t : τ)
  | poll (t : τ)
  /-- the future has completed: about to mark the task as dead -/
  | finish (t : τ)
  /-- about to clear `CURRENT_TASK` -/
  | clear (t : τ)
  deriving DecidableEq

def CpuPc.holdsLock {τ : Type} : CpuPc τ → Bool
  | .locked | .settle _ | .requeue _ | .fetch | .switch _ | .setCurrent _ => true
  | _ => false

inductive WakerPc (τ : Type) where
  | idle
  /-- `spawn`: has made the task and is about to wake it -/
  | spawning (t : τ)
  /-- `wake_by_ref`: has made the task ready and is about to put it into its queue -/
  | put (t : τ)
  deriving DecidableEq

inductive Life where
  | unborn
  /-- made, and not woken by `spawn` yet -/
  | created
  | live
  | completed
  deriving DecidableEq

inductive SchedPanic where
  | wakingDead
  /-- "Current task should be at least in RUNNING state", in `remove_and_enqueue_current` -/
  | currentNotRunning
  /-- "Next task should be in READY state" -/
  | nextNotReady
  | alreadyBorrowed
  /-- "Current task should be at least in RUNNING state", in `enter` -/
  | finishedNotRunning
  deriving DecidableEq

structure Sched (κ τ ω : Type) where
  state : τ → TaskState := fun _ => .blocked
  cpu : τ → κ
  queue : κ → List τ := fun _ => []
  current : κ → Option τ := fun _ => none
  borrowed : τ → Bool := fun _ => false
  cpuPc : κ → CpuPc τ := fun _ => .top
  wakerPc : ω → WakerPc τ := fun _ => .idle
  life : τ → Life := fun _ => .unborn
  /-- The task was woken, and no poll has started since. -/
  due : τ → Bool := fun _ => false

/-- What may happen next. -/
inductive SchedOp (κ τ ω : Type) where
  | spawn (k : ω) (t : τ) (c : κ)
  | wake (k : ω) (t : τ)
  | agent (k : ω)
  | cpu (c : κ)
  | polled (c : κ) (ready : Bool)

namespace Sched

variable {κ τ ω : Type} [DecidableEq κ] [DecidableEq τ] [DecidableEq ω]

def setState (s : Sched κ τ ω) (t : τ) (state : TaskState) : Sched κ τ ω :=
  { s with state := update s.state t state }

def setQueue (s : Sched κ τ ω) (c : κ) (queue : List τ) : Sched κ τ ω :=
  { s with queue := update s.queue c queue }

/-- Write `CURRENT_TASK`. -/
def setCurrent (s : Sched κ τ ω) (c : κ) (current : Option τ) : Sched κ τ ω :=
  { s with current := update s.current c current }

def goto (s : Sched κ τ ω) (c : κ) (pc : CpuPc τ) : Sched κ τ ω :=
  { s with cpuPc := update s.cpuPc c pc }

def agentGoto (s : Sched κ τ ω) (k : ω) (pc : WakerPc τ) : Sched κ τ ω :=
  { s with wakerPc := update s.wakerPc k pc }

def wakeByRef (s : Sched κ τ ω) (k : ω) (t : τ) : Except SchedPanic (Sched κ τ ω) :=
  let woken := { s with due := update s.due t true }
  match s.state t with
  | .blocked => .ok ((woken.setState t .ready).agentGoto k (.put t))
  | .running => .ok ((woken.setState t .readyRunning).agentGoto k .idle)
  | .ready | .readyRunning => .ok (woken.agentGoto k .idle)
  | .dead => .error .wakingDead

/-- `spawn` up to its call of `wake_by_ref`. -/
def spawn (s : Sched κ τ ω) (k : ω) (t : τ) (c : κ) : Sched κ τ ω :=
  { s with cpu := update s.cpu t c
           state := update s.state t .blocked
           life := update s.life t .created }.agentGoto k (.spawning t)

def agentStep (s : Sched κ τ ω) (k : ω) : WakerPc τ → Except SchedPanic (Sched κ τ ω)
  | .idle => .ok s
  | .spawning t => { s with life := update s.life t .live }.wakeByRef k t
  | .put t => .ok ((s.setQueue (s.cpu t) (s.queue (s.cpu t) ++ [t])).agentGoto k .idle)

def cpuStep (s : Sched κ τ ω) (c : κ) : CpuPc τ → Except SchedPanic (Sched κ τ ω)
  | .top => .ok (s.goto c .locked)
  | .locked =>
    match s.current c with
    | none => .ok (s.goto c .fetch)
    | some t => .ok ((s.setCurrent c none).goto c (.settle t))
  | .settle t =>
    match s.state t with
    | .readyRunning => .ok ((s.setState t .ready).goto c (.requeue t))
    | .running => .ok ((s.setState t .blocked).goto c .fetch)
    | _ => .error .currentNotRunning
  | .requeue t => .ok ((s.setQueue c (s.queue c ++ [t])).goto c .fetch)
  | .fetch =>
    match s.queue c with
    | [] => .ok (s.goto c .top)
    | t :: rest => .ok ((s.setQueue c rest).goto c (.switch t))
  | .switch t => do
    assertOr (s.state t = .ready) .nextNotReady
    pure (({ s with due := update s.due t false }.setState t .running).goto c
      (.setCurrent t))
  | .setCurrent t => do
    assertOr (s.borrowed t = false) .alreadyBorrowed
    pure (({ s with borrowed := update s.borrowed t true }.setCurrent c (some t)).goto c
      (.poll t))
  | .poll _ => .ok s
  | .finish t => do
    assertOr ((s.state t).isRunning = true) .finishedNotRunning
    pure ((s.setState t .dead).goto c (.clear t))
  | .clear _ => .ok ((s.setCurrent c none).goto c .top)

def polled (s : Sched κ τ ω) (c : κ) (t : τ) (ready : Bool) : Sched κ τ ω :=
  let s := { s with borrowed := update s.borrowed t false }
  if ready then { s with life := update s.life t .completed }.goto c (.finish t)
  else s.goto c .top

def run (s : Sched κ τ ω) : SchedOp κ τ ω → Except SchedPanic (Sched κ τ ω)
  | .spawn k t c => .ok (s.spawn k t c)
  | .wake k t => s.wakeByRef k t
  | .agent k => s.agentStep k (s.wakerPc k)
  | .cpu c => s.cpuStep c (s.cpuPc c)
  | .polled c ready =>
    match s.cpuPc c with
    | .poll t => .ok (s.polled c t ready)
    | _ => .ok s

/-- When the operations are possible, but for the condition under which tasks may be woken. -/
def Enabled (s : Sched κ τ ω) : SchedOp κ τ ω → Prop
  | .spawn k t _ => s.wakerPc k = .idle ∧ s.life t = .unborn
  | .wake k _ => s.wakerPc k = .idle
  | .agent k =>
    match s.wakerPc k with
    | .idle => False
    | .spawning _ => True
    | .put t => (s.cpuPc (s.cpu t)).holdsLock = false
  | .cpu c => ∀ t, s.cpuPc c ≠ .poll t
  | .polled c _ => ∃ t, s.cpuPc c = .poll t

/-- Tasks are woken after they have been spawned and before their future has completed. -/
def WakesLive (s : Sched κ τ ω) : SchedOp κ τ ω → Prop
  | .wake _ t => s.life t = .live
  | _ => True

end Sched

def runtime (κ τ ω : Type) [DecidableEq κ] [DecidableEq τ] [DecidableEq ω]
    (cond : Sched κ τ ω → SchedOp κ τ ω → Prop) :
    System (Sched κ τ ω) (SchedOp κ τ ω) SchedPanic where
  init s := ∃ cpu, s = { cpu := cpu }
  allowed s op := s.Enabled op ∧ cond s op
  run := Sched.run

end Dlutos
