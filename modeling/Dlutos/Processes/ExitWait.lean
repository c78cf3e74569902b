import Dlutos.Processes.WaitQueue

/-!
# Exiting and being waited for

`ProcessList::do_exit` and `remove_process` in `kernel/task/process_list.rs`, the end of
`Process::wait` in `process.rs`, and `MMList::replace` in `mem/mm_list.rs`, for processes with any
number of threads.

Pids are never used twice.  `teardowns`, `queued` and `consumed` count how often a process was torn
down, and how often an exit status of it was queued and taken.  Left out are groups and sessions,
files, terminals and futexes, and which signal an exit raises.
-/

namespace Dlutos.Processes

open ExceptLoop Transition Function

inductive ExitPc where
  | unborn
  | running
  | exiting (code : WaitType) (group : Bool)
  /-- in `wait`, with an exit status, about to lock the process list -/
  | reaping (object : WaitObject)
  | ended
  deriving DecidableEq

/-- The thread still runs code of its process or of the kernel. -/
def ExitPc.active : ExitPc → Bool
  | .running | .exiting _ _ | .reaping _ => true
  | .unborn | .ended => false

inductive ExitPanic where
  | initExited
  /-- `UserPointerMut::new(clear_ctid).unwrap()` -/
  | badPointer
  /-- `inner.borrow()` of an `MMList` that has been taken away -/
  | missingMm
  | missingSession
  | missingPgroup
  | missingParent
  | processNotFound
  /-- `add_child` finds the child -/
  | childPresent
  /-- `wait` does not find the child -/
  | childMissing
  /-- `child.upgrade().unwrap()` -/
  | childGone
  /-- `add_thread` finds the thread -/
  | threadPresent
  /-- `upgrade().unwrap()` of a thread in `raise` -/
  | threadGone
  deriving DecidableEq

structure ProcessTree where
  process : ℕ → ℕ := fun _ => 0
  dead : ℕ → Bool := fun _ => false
  clearCtid : ℕ → Option ℕ := fun _ => none
  robustList : ℕ → Option ℕ := fun _ => none
  pc : ℕ → ExitPc := fun _ => .unborn
  listed : ℕ → Bool := fun _ => false
  parent : ℕ → Option ℕ := fun _ => none
  session : ℕ → Option ℕ := fun _ => none
  pgroup : ℕ → Option ℕ := fun _ => none
  mm : ℕ → Bool := fun _ => false
  children : ℕ → List ℕ := fun _ => []
  threads : ℕ → List ℕ := fun _ => []
  waitProcs : ℕ → List WaitObject := fun _ => []
  teardowns : ℕ → ℕ := fun _ => 0
  queued : ℕ → ℕ := fun _ => 0
  consumed : ℕ → ℕ := fun _ => 0

/-- The process has ended with this code. -/
def WaitType.final : WaitType → Bool
  | .exited _ | .signaled _ => true
  | .stopped _ | .continued => false

def WaitObject.exitOf (object : WaitObject) (pid : ℕ) : Bool :=
  !object.alive && object.pid == pid

/-- `CheckedUserPointer::new` accepts the address. -/
def userPointer (addr len : ℕ) : Bool := addr != 0 && decide (addr + len ≤ 0x7fffffffffff)

def initPid : ℕ := 1

namespace ProcessTree

def goto (s : ProcessTree) (t : ℕ) (pc : ExitPc) : ProcessTree :=
  { s with pc := update s.pc t pc }

/-! ### New threads and processes -/

def clone (s : ProcessTree) (t tid : ℕ) (clearCtid : Option ℕ) :
    Except ExitPanic ProcessTree := do
  let p := s.process t
  assertOr (tid ∉ s.threads p) .threadPresent
  pure { s with process := update s.process tid p
                clearCtid := update s.clearCtid tid clearCtid
                pc := update s.pc tid .running
                listed := update s.listed tid true
                threads := update s.threads p (tid :: s.threads p) }

/-- `do_clone` without `CLONE_THREAD`. -/
def fork (s : ProcessTree) (t pid : ℕ) (clearCtid : Option ℕ) : Except ExitPanic ProcessTree := do
  let p := s.process t
  assertOr (s.pgroup p ≠ none) .missingPgroup
  assertOr (s.session p ≠ none) .missingSession
  assertOr (s.mm p = true) .missingMm
  assertOr (pid ∉ s.children p) .childPresent
  pure { s with process := update s.process pid pid
                clearCtid := update s.clearCtid pid clearCtid
                pc := update s.pc pid .running
                listed := update s.listed pid true
                parent := update s.parent pid (some p)
                session := update s.session pid (s.session p)
                pgroup := update s.pgroup pid (s.pgroup p)
                mm := update s.mm pid true
                threads := update s.threads pid [pid]
                children := update s.children p (pid :: s.children p) }

/-! ### Exit -/

/-- The write to `clear_child_tid`; without `MMList` the page fault in the kernel panics. -/
def writeClearCtid (s : ProcessTree) (tid : ℕ) : Except ExitPanic Unit :=
  match s.clearCtid tid with
  | none => pure ()
  | some addr => do
    assertOr (userPointer addr 4 = true) .badPointer
    assertOr (s.mm (s.process tid) = true) .missingMm

def readRobustList (s : ProcessTree) (tid : ℕ) : Except ExitPanic Unit :=
  match s.robustList tid with
  | none => pure ()
  | some addr => assertOr (userPointer addr 24 = true → s.mm (s.process tid) = true) .missingMm

/-- The part of `do_exit` for one thread that ends. -/
def release (s : ProcessTree) (tid : ℕ) : Except ExitPanic ProcessTree :=
  if s.listed tid then do
    s.writeClearCtid tid
    s.readRobustList tid
    pure { s with dead := update s.dead tid true }
  else pure s

def adopt (s : ProcessTree) (child : ℕ) : Except ExitPanic ProcessTree := do
  assertOr (s.listed child = true) .childGone
  assertOr (child ∉ s.children initPid) .childPresent
  pure { s with parent := update s.parent child (some initPid)
                children := update s.children initPid (child :: s.children initPid) }

def raise (s : ProcessTree) (p : ℕ) : Except ExitPanic Unit :=
  match s.threads p with
  | [] => pure ()
  | tid :: _ => assertOr (s.listed tid = true) .threadGone

def push (s : ProcessTree) (p : ℕ) (objects : List WaitObject) : ProcessTree :=
  { s with waitProcs := update s.waitProcs p (s.waitProcs p ++ objects) }

def drain (s : ProcessTree) (p : ℕ) : Except ExitPanic ProcessTree := do
  if (s.waitProcs p).any fun object => !object.alive then s.raise initPid
  pure ({ s with waitProcs := update s.waitProcs p [] }.push initPid
    ((s.waitProcs p).filter fun object => !object.alive))

def orphan (s : ProcessTree) (p : ℕ) : Except ExitPanic ProcessTree := do
  let s ← (s.children p).foldlM adopt s
  { s with children := update s.children p [] }.drain p

def recordExit (s : ProcessTree) (p q : ℕ) (code : WaitType) : ProcessTree :=
  { s.push q [{ pid := p, code := code }] with
    teardowns := update s.teardowns p (s.teardowns p + 1)
    queued := update s.queued p (s.queued p + 1) }

/-- Tell the parent of a process; `signals` says that it gets a signal. -/
def notifyParent (s : ProcessTree) (p : ℕ) (code : WaitType) (signals : Bool) :
    Except ExitPanic ProcessTree :=
  match s.parent p with
  | none => .error .missingParent
  | some q => do
    if signals then s.raise q
    pure (s.recordExit p q code)

def teardown (s : ProcessTree) (p : ℕ) (code : WaitType) (signals : Bool) :
    Except ExitPanic ProcessTree := do
  assertOr (s.session p ≠ none) .missingSession
  assertOr (s.mm p = true) .missingMm
  let s ← { s with mm := update s.mm p false }.orphan p
  s.notifyParent p code signals

/-- The threads leave the maps; the first thread of the process stays in the list. -/
def removeThreads (s : ProcessTree) (p : ℕ) (tids : List ℕ) : ProcessTree :=
  { s with threads := update s.threads p ((s.threads p).filter fun t => t ∉ tids)
           listed := fun t => s.listed t && !(decide (t ∈ tids) && t != p) }

def exitingTids (s : ProcessTree) (t : ℕ) (group : Bool) : List ℕ :=
  if group then s.threads (s.process t) else [t]

def endProcess (s : ProcessTree) (p : ℕ) (code : WaitType) (group signals : Bool) :
    Except ExitPanic ProcessTree :=
  if group = true ∨ (s.threads p).length = 1 then s.teardown p code signals else .ok s

def doExit (s : ProcessTree) (t : ℕ) (code : WaitType) (group signals : Bool) :
    Except ExitPanic ProcessTree := do
  assertOr (s.process t ≠ initPid) .initExited
  let s₁ ← (s.exitingTids t group).foldlM release s
  let s₂ ← s₁.endProcess (s.process t) code group signals
  pure ((s₂.removeThreads (s.process t) (s.exitingTids t group)).goto t .ended)

/-! ### Waiting -/

def removeProcess (s : ProcessTree) (pid : ℕ) : Except ExitPanic ProcessTree := do
  assertOr (s.listed pid = true) .processNotFound
  let p := s.process pid
  assertOr (s.session p ≠ none) .missingSession
  assertOr (s.pgroup p ≠ none) .missingPgroup
  assertOr (s.parent p ≠ none) .missingParent
  pure { s with listed := update s.listed pid false
                session := update s.session p none
                pgroup := update s.pgroup p none
                parent := update s.parent p none }

def reap (s : ProcessTree) (t : ℕ) (object : WaitObject) : Except ExitPanic ProcessTree := do
  let p := s.process t
  let s ← s.removeProcess object.pid
  assertOr (object.pid ∈ s.children p) .childMissing
  pure ({ s with children := update s.children p ((s.children p).erase object.pid) }.goto t
    .running)

def take (s : ProcessTree) (t : ℕ) (object : WaitObject) : ProcessTree :=
  let p := s.process t
  let s := { s with waitProcs := update s.waitProcs p ((s.waitProcs p).erase object) }
  if object.alive then s
  else { s with consumed := update s.consumed object.pid (s.consumed object.pid + 1) }.goto
    t (.reaping object)

/-- A child reports a stop or a continuation. -/
def report (s : ProcessTree) (p : ℕ) (code : WaitType) : ProcessTree :=
  match s.parent p with
  | none => s
  | some q => s.push q [{ pid := p, code := code }]

end ProcessTree

/-- What may happen next. -/
inductive TreeOp where
  | clone (t tid : ℕ) (clearCtid : Option ℕ)
  | fork (t pid : ℕ) (clearCtid : Option ℕ)
  | setTidAddress (t addr : ℕ)
  | setRobustList (t addr : ℕ)
  /-- The thread calls `exit` or `exit_group`, or a signal kills it. -/
  | exit (t : ℕ) (code : WaitType) (group : Bool)
  /-- A thread that is about to exit gets the lock. -/
  | doExit (t : ℕ) (signals : Bool)
  | wait (t : ℕ) (object : WaitObject)
  /-- A thread with an exit status gets the lock. -/
  | reap (t : ℕ)
  /-- The process of the thread has stopped or continued. -/
  | report (t : ℕ) (code : WaitType)
  /-- The thread sees that it is dead. -/
  | finish (t : ℕ)

def TreeOp.thread : TreeOp → ℕ
  | .clone t _ _ | .fork t _ _ | .setTidAddress t _ | .setRobustList t _ | .exit t _ _
  | .doExit t _ | .wait t _ | .reap t | .report t _ | .finish t => t

namespace ProcessTree

def run (s : ProcessTree) : TreeOp → Except ExitPanic ProcessTree
  | .clone t tid clearCtid => s.clone t tid clearCtid
  | .fork t pid clearCtid => s.fork t pid clearCtid
  | .setTidAddress t addr =>
    .ok { s with clearCtid := update s.clearCtid t (some addr) }
  | .setRobustList t addr =>
    .ok { s with robustList := update s.robustList t (some addr) }
  | .exit t code group => .ok (s.goto t (.exiting code group))
  | .doExit t signals =>
    match s.pc t with
    | .exiting code group => s.doExit t code group signals
    | _ => .ok s
  | .wait t object => .ok (s.take t object)
  | .reap t =>
    match s.pc t with
    | .reaping object => s.reap t object
    | _ => .ok s
  | .report t code => .ok (s.report (s.process t) code)
  | .finish t => .ok (s.goto t .ended)

def Enabled (s : ProcessTree) : TreeOp → Prop
  | .clone t tid _ | .fork t tid _ => s.pc t = .running ∧ s.pc tid = .unborn
  | .setTidAddress t _ | .setRobustList t _ => s.pc t = .running
  | .exit t code _ => s.pc t = .running ∧ code.final = true
  | .doExit t _ => ∃ code group, s.pc t = .exiting code group
  | .wait t object => s.pc t = .running ∧ object ∈ s.waitProcs (s.process t)
  | .reap t => ∃ object, s.pc t = .reaping object
  | .report t code => s.pc t = .running ∧ code.final = false
  | .finish t => s.pc t = .running ∧ s.dead t = true

/-- The machine after the start of init. -/
def boot : ProcessTree where
  process := update (fun _ => 0) initPid initPid
  pc := update (fun _ => .unborn) initPid .running
  listed := update (fun _ => false) initPid true
  session := update (fun _ => none) initPid (some initPid)
  pgroup := update (fun _ => none) initPid (some initPid)
  mm := update (fun _ => false) initPid true
  threads := update (fun _ => []) initPid [initPid]

end ProcessTree

def processTree (cond : ProcessTree → TreeOp → Prop) :
    System ProcessTree TreeOp ExitPanic where
  init s := s = .boot
  allowed s op := s.Enabled op ∧ cond s op
  run := ProcessTree.run

end Dlutos.Processes
