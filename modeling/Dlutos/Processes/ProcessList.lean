import Dlutos.Foundation.SortedMap
import Dlutos.Foundation.Transition

/-!
# Processes, process groups and sessions

`src/kernel/task/process.rs`, `process_group.rs`, `session.rs` and `process_list.rs`, with the fork
of `clone.rs`.  Objects behind an `Arc` are named by references; a group or a session object is
alive while a process points to it or a drop that was handed to `call_rcu` has not run, and a `Weak`
can be upgraded exactly then.  Every system call runs under the lock of the process list, so it is
one step; the deferred drops run at any time between two steps.
-/

namespace Dlutos.Processes

structure Process where
  pid : ℕ
  parent : Option ℕ := none
  pgroup : Option ℕ := none
  session : Option ℕ := none
  children : SortedMap ℕ ℕ := .empty
  waitProcs : List ℕ := []
  exited : Bool := false

structure ProcessGroup where
  pgid : ℕ
  session : ℕ
  processes : SortedMap ℕ ℕ

structure Session where
  sid : ℕ
  groups : SortedMap ℕ ℕ := .empty

/-- A drop that was handed to `call_rcu`. -/
inductive Deferred where
  | session (σ : ℕ)
  | pgroup (g : ℕ)
  deriving DecidableEq

inductive ProcPanic where
  | addMember
  | removeMember
  | sessionAddMember
  | sessionRemoveMember
  /-- `session.upgrade().unwrap()` -/
  | sessionGone
  /-- `unwrap` of the pointer to the group or to the session -/
  | noPointer
  | addChild
  | removeChild
  | noParent
  | processNotFound
  | initExited
  deriving DecidableEq

/-- The errors of the system calls. -/
inductive Errno where
  | EPERM
  | ESRCH
  | EINVAL
  deriving DecidableEq

structure ProcessList where
  nextPid : ℕ := 1
  proc : ℕ → Process := fun _ => { pid := 0 }
  procCount : ℕ := 0
  group : ℕ → ProcessGroup := fun _ => { pgid := 0, session := 0, processes := .empty }
  groupCount : ℕ := 0
  sess : ℕ → Session := fun _ => { sid := 0 }
  sessionCount : ℕ := 0
  init : ℕ := 0
  threads : SortedMap ℕ ℕ := .empty
  pgroups : SortedMap ℕ ℕ := .empty
  sessions : SortedMap ℕ ℕ := .empty
  deferred : List Deferred := []

namespace ProcessList

def setProc (s : ProcessList) (r : ℕ) (p : Process) : ProcessList :=
  { s with proc := Function.update s.proc r p }

def setGroup (s : ProcessList) (g : ℕ) (x : ProcessGroup) : ProcessList :=
  { s with group := Function.update s.group g x }

def setSess (s : ProcessList) (σ : ℕ) (x : Session) : ProcessList :=
  { s with sess := Function.update s.sess σ x }

/-- The group object has not been dropped. -/
def PgroupAlive (s : ProcessList) (g : ℕ) : Prop :=
  (∃ r < s.procCount, (s.proc r).pgroup = some g) ∨ .pgroup g ∈ s.deferred

/-- The session object has not been dropped. -/
def SessionAlive (s : ProcessList) (σ : ℕ) : Prop :=
  (∃ r < s.procCount, (s.proc r).session = some σ) ∨ .session σ ∈ s.deferred

instance (s : ProcessList) (g : ℕ) : Decidable (s.PgroupAlive g) :=
  inferInstanceAs (Decidable (_ ∨ _))

instance (s : ProcessList) (σ : ℕ) : Decidable (s.SessionAlive σ) :=
  inferInstanceAs (Decidable (_ ∨ _))

def tryFindPgroup (s : ProcessList) (pgid : ℕ) : Option ℕ :=
  (s.pgroups.get pgid).filter fun g => s.PgroupAlive g

def tryFindSession (s : ProcessList) (sid : ℕ) : Option ℕ :=
  (s.sessions.get sid).filter fun σ => s.SessionAlive σ

/-! ### Groups and sessions -/

def addMember (s : ProcessList) (g r : ℕ) : Except ProcPanic ProcessList :=
  let x := s.group g
  if (x.processes.get (s.proc r).pid).isSome then .error .addMember
  else .ok (s.setGroup g { x with processes := x.processes.insert (s.proc r).pid r })

def sessionAddMember (s : ProcessList) (σ g : ℕ) : Except ProcPanic ProcessList :=
  let x := s.sess σ
  if (x.groups.get (s.group g).pgid).isSome then .error .sessionAddMember
  else .ok (s.setSess σ { x with groups := x.groups.insert (s.group g).pgid g })

def sessionRemoveMember (s : ProcessList) (σ pgid : ℕ) : Except ProcPanic ProcessList :=
  let x := s.sess σ
  if (x.groups.get pgid).isSome then
    .ok (s.setSess σ { x with groups := x.groups.erase pgid })
  else .error .sessionRemoveMember

def removeMember (s : ProcessList) (g pid : ℕ) : Except ProcPanic ProcessList :=
  let x := s.group g
  if (x.processes.get pid).isSome then
    let processes := x.processes.erase pid
    let s' := s.setGroup g { x with processes }
    if processes.entries.isEmpty then
      if s'.SessionAlive x.session then s'.sessionRemoveMember x.session x.pgid
      else .error .sessionGone
    else .ok s'
  else .error .removeMember

def newSession (s : ProcessList) (leader : ℕ) : ℕ × ProcessList :=
  let sid := (s.proc leader).pid
  (s.sessionCount,
    { s.setSess s.sessionCount { sid } with
      sessionCount := s.sessionCount + 1
      sessions := s.sessions.insert sid s.sessionCount })

def buildPgroup (s : ProcessList) (leader session : ℕ) : Except ProcPanic (ℕ × ProcessList) := do
  let pgid := (s.proc leader).pid
  let s' : ProcessList :=
    { s.setGroup s.groupCount { pgid, session, processes := SortedMap.empty.insert pgid leader } with
      groupCount := s.groupCount + 1
      pgroups := s.pgroups.insert pgid s.groupCount }
  let s'' ← s'.sessionAddMember session s.groupCount
  return (s.groupCount, s'')

/-! ### Processes -/

def addChild (s : ProcessList) (parent child : ℕ) : Except ProcPanic ProcessList :=
  let p := s.proc parent
  if (p.children.get (s.proc child).pid).isSome then .error .addChild
  else .ok (s.setProc parent { p with children := p.children.insert (s.proc child).pid child })

def allocPid (s : ProcessList) (skipped : ℕ) : ℕ := (s.nextPid + skipped) % 2 ^ 32

def buildMember (s : ProcessList) (child : ℕ) (pgroup : Option ℕ) (session : ℕ) :
    Except ProcPanic (ℕ × ProcessList) :=
  match pgroup with
  | some g => return (g, ← s.addMember g child)
  | none => s.buildPgroup child session

def buildSession (s : ProcessList) (child : ℕ) : Option ℕ → ℕ × ProcessList
  | some σ => (σ, s)
  | none => s.newSession child

def newProcess (s : ProcessList) (pid : ℕ) : ProcessList :=
  { s.setProc s.procCount { pid } with
    procCount := s.procCount + 1
    nextPid := (pid + 1) % 2 ^ 32
    threads := s.threads.insert pid s.procCount }

def build (s : ProcessList) (pid : ℕ) (parent pgroup session : Option ℕ) :
    Except ProcPanic ProcessList := do
  let c := s.procCount
  let (σ, s₂) := (s.newProcess pid).buildSession c session
  let (g, s₃) ← s₂.buildMember c pgroup σ
  let s₄ ← match parent with
    | some q => s₃.addChild q c
    | none => pure s₃
  return s₄.setProc c { s₄.proc c with parent, pgroup := some g, session := some σ }

/-- `do_clone` without `CLONE_THREAD`. -/
def fork (s : ProcessList) (r skipped : ℕ) : Except ProcPanic ProcessList :=
  match (s.proc r).pgroup, (s.proc r).session with
  | some g, some σ => s.build (s.allocPid skipped) (some r) (some g) (some σ)
  | _, _ => .error .noPointer

/-- The init process, which `src/lib.rs` builds without a group and a session. -/
def boot : Except ProcPanic ProcessList :=
  ({} : ProcessList).build (({} : ProcessList).allocPid 0) none none none

def setsid (s : ProcessList) (r : ℕ) : Except ProcPanic (Except Errno ℕ × ProcessList) :=
  let p := s.proc r
  if (s.tryFindSession p.pid).isSome then .ok (.error .EPERM, s)
  else do
    let (σ, s₁) := s.newSession r
    let (g, s₂) ← s₁.buildPgroup r σ
    match p.session, p.pgroup with
    | some oldSession, some oldPgroup =>
      -- the locals keep the old objects alive, so the pointers can be swapped last
      let s₃ ← s₂.removeMember oldPgroup p.pid
      return (.ok p.pid,
        { s₃.setProc r { s₃.proc r with session := some σ, pgroup := some g } with
          deferred := s₃.deferred ++ [.session oldSession, .pgroup oldPgroup] })
    | _, _ => .error .noPointer

/-- The end of `Process::do_setpgid`. -/
def leavePgroup (s : ProcessList) (r old new : ℕ) : Except ProcPanic ProcessList := do
  let s' ← s.removeMember old (s.proc r).pid
  return { s'.setProc r { s'.proc r with pgroup := some new } with
    deferred := s'.deferred ++ [.pgroup old] }

def doSetpgid (s : ProcessList) (r pgid : ℕ) :
    Except ProcPanic (Except Errno Unit × ProcessList) :=
  let p := s.proc r
  match p.session, p.pgroup with
  | some session, some pgroup =>
    if (s.sess session).sid = p.pid then .ok (.error .EPERM, s)
    else
      match s.tryFindPgroup pgid with
      | some new =>
        if ¬ s.SessionAlive (s.group new).session then .error .sessionGone
        else if (s.sess (s.group new).session).sid ≠ (s.sess session).sid then
          .ok (.error .EPERM, s)
        else if (s.group new).pgid = (s.group pgroup).pgid then .ok (.ok (), s)
        else do
          let s₁ ← s.addMember new r
          let s₂ ← s₁.leavePgroup r pgroup new
          return (.ok (), s₂)
      | none =>
        if pgid ≠ p.pid then .ok (.error .EPERM, s)
        else do
          let (new, s₁) ← s.buildPgroup r session
          let s₂ ← s₁.leavePgroup r pgroup new
          return (.ok (), s₂)
  | _, _ => .error .noPointer

def setpgid (s : ProcessList) (r pid pgid : ℕ) :
    Except ProcPanic (Except Errno Unit × ProcessList) :=
  if pid = (s.proc r).pid then s.doSetpgid r pgid
  else
    match (s.proc r).children.get pid with
    | none => .ok (.error .ESRCH, s)
    | some child =>
      match (s.proc child).session, (s.proc r).session with
      | some σ, some σ' =>
        if (s.sess σ).sid ≠ (s.sess σ').sid then .ok (.error .EPERM, s)
        else s.doSetpgid child pgid
      | _, _ => .error .noPointer

/-- The system call `setpgid`: 0 stands for the caller and for the process. -/
def sysSetpgid (s : ProcessList) (r pid : ℕ) (pgid : ℤ) :
    Except ProcPanic (Except Errno Unit × ProcessList) :=
  let pid := if pid = 0 then (s.proc r).pid else pid
  if pgid = 0 then s.setpgid r pid pid
  else if 0 < pgid then s.setpgid r pid pgid.toNat
  else .ok (.error .EINVAL, s)

def adopt (s : ProcessList) (child : ℕ) : Except ProcPanic ProcessList :=
  (s.setProc child { s.proc child with parent := some s.init }).addChild s.init child

def exit (s : ProcessList) (r : ℕ) : Except ProcPanic ProcessList :=
  let p := s.proc r
  if p.pid = 1 then .error .initExited
  else do
    let s₁ ← (p.children.entries.map Prod.snd).foldlM adopt s
    let s₂ := s₁.setProc r { s₁.proc r with children := .empty, waitProcs := [], exited := true }
    let init := s₂.proc s.init
    let s₃ := s₂.setProc s.init { init with waitProcs := init.waitProcs ++ p.waitProcs }
    match p.parent with
    | none => .error .noParent
    | some q => return s₃.setProc q { s₃.proc q with waitProcs := (s₃.proc q).waitProcs ++ [p.pid] }

/-- `self.pgroups.remove` when nobody else holds the group. -/
def forgetPgroup (s : ProcessList) (g : ℕ) : ProcessList :=
  if s.PgroupAlive g then s else { s with pgroups := s.pgroups.erase (s.group g).pgid }

/-- `self.sessions.remove` when nobody else holds the session. -/
def forgetSession (s : ProcessList) (σ : ℕ) : ProcessList :=
  if s.SessionAlive σ then s else { s with sessions := s.sessions.erase (s.sess σ).sid }

def removeProcess (s : ProcessList) (pid : ℕ) : Except ProcPanic ProcessList :=
  match s.threads.get pid with
  | none => .error .processNotFound
  | some r =>
    match (s.proc r).session, (s.proc r).pgroup, (s.proc r).parent with
    | some σ, some g, some _ => do
      -- the locals keep the group and the session alive, so the pointers can be cleared last
      let s₁ ← s.removeMember g pid
      let s₂ : ProcessList :=
        { s₁.setProc r { s₁.proc r with session := none, pgroup := none, parent := none } with
          threads := s₁.threads.erase pid }
      return (s₂.forgetPgroup g).forgetSession σ
    | _, _, none => .error .noParent
    | _, _, _ => .error .noPointer

/-- `Process::wait` when it takes entry `i` of the wait list; without such an entry it changes
nothing. -/
def wait (s : ProcessList) (r i : ℕ) : Except ProcPanic ProcessList :=
  let p := s.proc r
  match p.waitProcs[i]? with
  | none => .ok s
  | some pid => do
    let s₁ ← (s.setProc r { p with waitProcs := p.waitProcs.eraseIdx i }).removeProcess pid
    let p₁ := s₁.proc r
    if (p₁.children.get pid).isSome then
      return s₁.setProc r { p₁ with children := p₁.children.erase pid }
    else .error .removeChild

def runRcu (s : ProcessList) (i : ℕ) : ProcessList :=
  { s with deferred := s.deferred.eraseIdx i }

/-! ### Runs -/

/-- The system calls and the deferred drops. -/
inductive Op where
  | fork (r skipped : ℕ)
  | setsid (r : ℕ)
  | setpgid (r pid : ℕ) (pgid : ℤ)
  | exit (r : ℕ)
  | wait (r i : ℕ)
  | runRcu (i : ℕ)

def run (s : ProcessList) : Op → Except ProcPanic ProcessList
  | .fork r skipped => s.fork r skipped
  | .setsid r => return (← s.setsid r).2
  | .setpgid r pid pgid => return (← s.sysSetpgid r pid pgid).2
  | .exit r => s.exit r
  | .wait r i => s.wait r i
  | .runRcu i => .ok (s.runRcu i)

def Live (s : ProcessList) (r : ℕ) : Prop :=
  r < s.procCount ∧ s.threads.get (s.proc r).pid = some r

/-- The process can make system calls. -/
def Running (s : ProcessList) (r : ℕ) : Prop := s.Live r ∧ (s.proc r).exited = false

/-- System calls are made by running processes; deferred drops run at any time. -/
def Op.Callable (s : ProcessList) : Op → Prop
  | .fork r _ | .setsid r | .setpgid r _ _ | .exit r | .wait r _ => s.Running r
  | .runRcu _ => True

def processMachine : Transition.System ProcessList Op ProcPanic where
  init := fun s => boot = .ok s
  allowed := fun s op => op.Callable s
  run := run

end ProcessList

end Dlutos.Processes
