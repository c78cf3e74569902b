import Dlutos.Foundation.Transition

/-!
# Waiting for children

`Process::wait` and the `WaitList` of one process in `kernel/task/process.rs`, with
`sync/condvar.rs`: threads of the process that wait, and threads of its children that report a stop,
a continuation or an exit.  The lock of the process list is held over several steps, by those that
exit for writing, by the others for reading.

`Entry::wait` unlocks `wait_procs` before `CondVar::wait` puts the handle on the list.  All that
keeps a notification from getting lost in between is the lock of the process list.
-/

namespace Dlutos.Processes

open Transition Function

inductive WaitType where
  | exited (status : ℕ)
  | signaled (signal : ℕ)
  | stopped (signal : ℕ)
  | continued
  deriving DecidableEq

structure WaitObject where
  pid : ℕ
  code : WaitType
  deriving DecidableEq

def WaitObject.alive (object : WaitObject) : Bool :=
  match object.code with
  | .stopped _ | .continued => true
  | .exited _ | .signaled _ => false

inductive WaitId where
  | any
  | pid (pid : ℕ)
  | pgid (pgid : ℕ)
  deriving DecidableEq

structure WaitCall where
  waitId : WaitId
  noBlock : Bool := false
  traceStop : Bool := false
  traceContinue : Bool := false
  deriving DecidableEq

inductive WaitResult where
  | found (object : WaitObject)
  | nothing
  | noChild
  deriving DecidableEq

inductive WaitPc where
  | idle
  /-- `entry` and `relock`: waits for the lock of the process list -/
  | lock (call : WaitCall)
  | locked (call : WaitCall)
  /-- has unlocked `wait_procs`, and is about to put its handle on the list -/
  | unlocked (call : WaitCall)
  /-- is about to unlock the process list -/
  | joined (call : WaitCall) (notified : Bool)
  | parked (call : WaitCall) (notified : Bool)
  /-- has found an exited child, and waits for the lock of the process list -/
  | reap (object : WaitObject)
  | returned (result : WaitResult)
  /-- `notify`: waits for the lock of the process list, to write to it if the child exits -/
  | notify (objects : List WaitObject) (exits : Bool)
  /-- has it, and is about to lock `wait_procs` -/
  | notifying (objects : List WaitObject) (exits : Bool)
  /-- is about to unlock the process list -/
  | notified (exits : Bool)
  deriving DecidableEq

def WaitPc.reads : WaitPc → Bool
  | .locked _ | .unlocked _ | .joined _ _ => true
  | .notifying _ exits | .notified exits => !exits
  | _ => false

def WaitPc.writes : WaitPc → Bool
  | .notifying _ exits | .notified exits => exits
  | _ => false

structure WaitQueue (τ : Type) where
  waitProcs : List WaitObject := []
  children : List ℕ
  /-- The process groups of the processes that `try_find_process` finds. -/
  pgroup : ℕ → Option ℕ
  pc : τ → WaitPc := fun _ => .idle

/-- What may happen next. -/
inductive WaitOp (τ : Type) where
  | wait (t : τ) (call : WaitCall)
  /-- A thread of a child reports that the child stops or continues. -/
  | report (t : τ) (object : WaitObject)
  | exit (t : τ) (objects : List WaitObject)
  /-- A signal wakes a thread that waits. -/
  | interrupt (t : τ)
  | step (t : τ)

/-- The filters of `Entry::get`. -/
def wanted (pgroup : ℕ → Option ℕ) (call : WaitCall) (item : WaitObject) : Bool :=
  (match item.code with
    | .stopped _ => call.traceStop
    | .continued => call.traceContinue
    | .exited _ | .signaled _ => true) &&
  match call.waitId with
  | .any => true
  | .pid pid => item.pid = pid
  | .pgid pgid => pgroup item.pid = some pgid

/-- The handles on the condition variable are notified. -/
def WaitPc.notifyAll : WaitPc → WaitPc
  | .joined call _ => .joined call true
  | .parked call _ => .parked call true
  | pc => pc

namespace WaitQueue

variable {τ : Type} [DecidableEq τ]

def goto (s : WaitQueue τ) (t : τ) (pc : WaitPc) : WaitQueue τ :=
  { s with pc := update s.pc t pc }

def entry (s : WaitQueue τ) (t : τ) (call : WaitCall) : WaitQueue τ :=
  match s.waitProcs.find? (wanted s.pgroup call) with
  | some object =>
    { s with waitProcs := s.waitProcs.eraseP (wanted s.pgroup call) }.goto t
      (if object.alive then .returned (.found object) else .reap object)
  | none =>
    if s.children = [] then s.goto t (.returned .noChild)
    else if call.noBlock then s.goto t (.returned .nothing)
    else s.goto t (.unlocked call)

def notify (s : WaitQueue τ) (objects : List WaitObject) : WaitQueue τ :=
  { s with waitProcs := s.waitProcs ++ objects, pc := fun t => (s.pc t).notifyAll }

def reap (s : WaitQueue τ) (object : WaitObject) : WaitQueue τ :=
  { s with children := s.children.erase object.pid,
           pgroup := update s.pgroup object.pid none }

/-- The next step of a thread. -/
def advance (s : WaitQueue τ) (t : τ) : WaitPc → WaitQueue τ
  | .lock call => s.goto t (.locked call)
  | .locked call => s.entry t call
  | .unlocked call => s.goto t (.joined call false)
  | .joined call notified => s.goto t (.parked call notified)
  | .parked call _ => s.goto t (.lock call)
  | .reap object => (s.reap object).goto t (.returned (.found object))
  | .notify objects exits => s.goto t (.notifying objects exits)
  | .notifying objects exits => (s.notify objects).goto t (.notified exits)
  | .notified _ => s.goto t .idle
  | .idle | .returned _ => s

def run (s : WaitQueue τ) : WaitOp τ → WaitQueue τ
  | .wait t call => s.goto t (.lock call)
  | .report t object => s.goto t (.notify [object] false)
  | .exit t objects => s.goto t (.notify objects true)
  | .interrupt t => s.goto t (s.pc t).notifyAll
  | .step t => s.advance t (s.pc t)

/-- The process list can be locked for reading. -/
def Readable (s : WaitQueue τ) : Prop := ∀ t, (s.pc t).writes = false

/-- The process list can be locked for writing. -/
def Writable (s : WaitQueue τ) : Prop := s.Readable ∧ ∀ t, (s.pc t).reads = false

/-- When a thread can go on. -/
def Ready (s : WaitQueue τ) (t : τ) : Prop :=
  match s.pc t with
  | .lock _ | .notify _ false => s.Readable
  | .reap _ | .notify _ true => s.Writable
  | .parked _ notified => notified = true
  | .idle | .returned _ => False
  | _ => True

/-- The thread makes no call. -/
def Resting (s : WaitQueue τ) (t : τ) : Prop := s.pc t = .idle ∨ ∃ result, s.pc t = .returned result

def Enabled (s : WaitQueue τ) : WaitOp τ → Prop
  | .wait t _ => s.Resting t
  | .report t object => s.Resting t ∧ object.alive = true
  | .exit t objects => s.Resting t ∧ ∀ object ∈ objects, object.alive = false
  | .interrupt _ => True
  | .step t => s.Ready t

/-- No report while a thread that wants to hear of it is about to put its handle on the list. -/
def Prompt (s : WaitQueue τ) : WaitOp τ → Prop
  | .step t => ∀ objects, s.pc t = .notifying objects false → ∀ u call, s.pc u = .unlocked call →
      ∀ object ∈ objects, wanted s.pgroup call object = false
  | _ => True

/-- A thread is parked without notification while the queue holds an object for it. -/
def Missed (s : WaitQueue τ) : Prop :=
  ∃ t call, s.pc t = .parked call false ∧ ∃ object ∈ s.waitProcs, wanted s.pgroup call object = true

end WaitQueue

def waitQueues (τ : Type) [DecidableEq τ] (cond : WaitQueue τ → WaitOp τ → Prop) :
    System (WaitQueue τ) (WaitOp τ) Empty where
  init s := ∃ children pgroup, s = { children := children, pgroup := pgroup }
  allowed s op := s.Enabled op ∧ cond s op
  run s op := .ok (s.run op)

/-! ### No event is missed -/

/-- The call of a thread that has looked at the queue and has not been notified since. -/
def WaitPc.awaits : WaitPc → Option WaitCall
  | .unlocked call | .joined call false | .parked call false => some call
  | _ => none

theorem WaitPc.unlocked_of_awaits_notifyAll {pc : WaitPc} {call : WaitCall}
    (h : pc.notifyAll.awaits = some call) : pc = .unlocked call := by
  cases pc <;> simp_all [WaitPc.notifyAll, WaitPc.awaits]

theorem WaitPc.not_reads_of_writes (pc : WaitPc) (h : pc.writes = true) : pc.reads = false := by
  cases pc <;> simp_all [WaitPc.writes, WaitPc.reads]

/-- The lock of the process list excludes writers, and what a thread awaits is not in the queue. -/
structure WaitQueueInv {τ : Type} (s : WaitQueue τ) : Prop where
  excludes : ∀ t u, (s.pc t).writes = true → (s.pc u).reads = false ∧ ((s.pc u).writes = true → u = t)
  awaited : ∀ t call, (s.pc t).awaits = some call →
    ∀ object ∈ s.waitProcs, wanted s.pgroup call object = false

namespace WaitQueueInv

variable {τ : Type} {s : WaitQueue τ}

theorem init (children : List ℕ) (pgroup : ℕ → Option ℕ) :
    WaitQueueInv ({ children := children, pgroup := pgroup } : WaitQueue τ) :=
  ⟨nofun, nofun⟩

theorem shrink (hi : WaitQueueInv s) {waitProcs : List WaitObject} {children : List ℕ}
    {pgroup : ℕ → Option ℕ} (hsub : waitProcs ⊆ s.waitProcs)
    (hwanted : ∀ call object, wanted s.pgroup call object = false →
      wanted pgroup call object = false) :
    WaitQueueInv { s with waitProcs := waitProcs, children := children, pgroup := pgroup } :=
  ⟨hi.excludes, fun t call hcall object hobject =>
    hwanted call object (hi.awaited t call hcall object (hsub hobject))⟩

theorem notify (hi : WaitQueueInv s) {objects : List WaitObject}
    (hprompt : ∀ u call, s.pc u = .unlocked call →
      ∀ object ∈ objects, wanted s.pgroup call object = false) : WaitQueueInv (s.notify objects) := by
  have hreads : ∀ u, ((s.pc u).notifyAll).reads = (s.pc u).reads := fun u => by
    cases s.pc u <;> rfl
  have hwrites : ∀ u, ((s.pc u).notifyAll).writes = (s.pc u).writes := fun u => by
    cases s.pc u <;> rfl
  refine ⟨fun t u ht => ?_, fun t call hcall object hobject => ?_⟩
  · simp only [WaitQueue.notify, hreads, hwrites] at ht ⊢
    exact hi.excludes t u ht
  · have ht : s.pc t = .unlocked call := WaitPc.unlocked_of_awaits_notifyAll hcall
    rcases List.mem_append.mp hobject with hold | hnew
    · exact hi.awaited t call (by rw [ht]; rfl) object hold
    · exact hprompt t call ht object hnew

theorem reap (hi : WaitQueueInv s) (object : WaitObject) : WaitQueueInv (s.reap object) := by
  refine hi.shrink (List.Subset.refl _) fun call item hitem => ?_
  unfold wanted at hitem ⊢
  cases hid : call.waitId with
  | pgid pgid =>
    simp only [hid, Bool.and_eq_false_iff] at hitem ⊢
    refine hitem.imp_right fun hne => ?_
    by_cases hpid : item.pid = object.pid
    · simp [hpid]
    · simpa [update_of_ne hpid] using hne
  | _ => simpa only [hid] using hitem

variable [DecidableEq τ]

theorem goto (hi : WaitQueueInv s) {t : τ} {pc : WaitPc}
    (hread : pc.reads = true → (s.pc t).reads = true ∨ s.Readable)
    (hwrite : pc.writes = true → (s.pc t).writes = true ∨ s.Writable)
    (hawait : ∀ call, pc.awaits = some call →
      ∀ object ∈ s.waitProcs, wanted s.pgroup call object = false) : WaitQueueInv (s.goto t pc) := by
  have hboth := pc.not_reads_of_writes
  unfold WaitQueue.Writable WaitQueue.Readable at *
  cases hi
  constructor <;> simp only [WaitQueue.goto] <;> grind [update_apply]

theorem goto_plain (hi : WaitQueueInv s) {t : τ} {pc : WaitPc} (hread : pc.reads = false)
    (hwrite : pc.writes = false) (hawait : pc.awaits = none) : WaitQueueInv (s.goto t pc) :=
  hi.goto (fun h => absurd h (by rw [hread]; nofun)) (fun h => absurd h (by rw [hwrite]; nofun))
    (fun call h => absurd h (by rw [hawait]; nofun))

theorem entry (hi : WaitQueueInv s) {t : τ} {call : WaitCall} (ht : s.pc t = .locked call) :
    WaitQueueInv (s.entry t call) := by
  unfold WaitQueue.entry
  cases hfind : s.waitProcs.find? (wanted s.pgroup call) with
  | some object =>
    have hi' : WaitQueueInv { s with waitProcs := s.waitProcs.eraseP (wanted s.pgroup call) } :=
      hi.shrink List.eraseP_subset (fun _ _ => id)
    simp only
    split <;> exact hi'.goto_plain rfl rfl rfl
  | none =>
    simp only
    split_ifs
    · exact hi.goto_plain rfl rfl rfl
    · exact hi.goto_plain rfl rfl rfl
    · refine hi.goto (fun _ => Or.inl (by rw [ht]; rfl)) nofun fun call' hcall object hobject => ?_
      obtain rfl : call = call' := Option.some.inj hcall
      exact eq_false_of_ne_true (List.find?_eq_none.mp hfind object hobject)

theorem run (hi : WaitQueueInv s) {op : WaitOp τ} (he : s.Enabled op) (hc : s.Prompt op) :
    WaitQueueInv (s.run op) := by
  cases op with
  | wait t call => exact hi.goto_plain rfl rfl rfl
  | report t object => exact hi.goto_plain rfl rfl rfl
  | exit t objects => exact hi.goto_plain rfl rfl rfl
  | interrupt t =>
    refine hi.goto (fun h => Or.inl ?_) (fun h => Or.inl ?_) fun call hcall => ?_
    · rw [← h]
      cases s.pc t <;> rfl
    · rw [← h]
      cases s.pc t <;> rfl
    · have ht := WaitPc.unlocked_of_awaits_notifyAll hcall
      exact hi.awaited t call (by rw [ht]; rfl)
  | step t =>
    have hr : s.Ready t := he
    unfold WaitQueue.Ready at hr
    rw [WaitQueue.run]
    cases ht : s.pc t with
    | idle => simp only [ht] at hr
    | returned result => simp only [ht] at hr
    | lock call =>
      simp only [ht] at hr
      exact hi.goto (fun _ => Or.inr hr) nofun nofun
    | locked call => exact hi.entry ht
    | unlocked call =>
      refine hi.goto (fun _ => Or.inl (by rw [ht]; rfl)) nofun fun call' hcall => ?_
      exact hi.awaited t call' (by rw [ht]; exact hcall)
    | joined call notified =>
      refine hi.goto nofun nofun fun call' hcall => hi.awaited t call' ?_
      rw [ht]
      cases notified with
      | false => exact hcall
      | true => cases hcall
    | parked call notified => exact hi.goto_plain rfl rfl rfl
    | reap object => exact (hi.reap object).goto_plain rfl rfl rfl
    | notify objects exits =>
      cases exits with
      | false =>
        simp only [ht] at hr
        exact hi.goto (fun _ => Or.inr hr) nofun nofun
      | true =>
        simp only [ht] at hr
        exact hi.goto nofun (fun _ => Or.inr hr) nofun
    | notifying objects exits =>
      have hn : WaitQueueInv (s.notify objects) := by
        refine hi.notify fun u call hu => ?_
        cases exits with
        | false => exact hc objects ht u call hu
        | true =>
          -- a thread that exits has locked out all threads that are about to wait
          have hread := (hi.excludes t u (by rw [ht]; rfl)).1
          rw [hu] at hread
          cases hread
      have hpc : (s.notify objects).pc t = .notifying objects exits := by
        simp only [WaitQueue.notify, ht, WaitPc.notifyAll]
      exact hn.goto (fun h => Or.inl (by rw [hpc]; exact h)) (fun h => Or.inl (by rw [hpc]; exact h))
        nofun
    | notified exits => exact hi.goto_plain rfl rfl rfl

end WaitQueueInv

variable {τ : Type} [DecidableEq τ]

/-- If no stop or continuation is reported while a thread that wants to hear of it joins the list,
no event is missed. -/
theorem noMissedEvent_of_reachable {s : WaitQueue τ}
    (hs : (waitQueues τ WaitQueue.Prompt).Reachable s) : ¬ s.Missed := by
  have hi : WaitQueueInv s := by
    refine Transition.Reachable.invariant ?_ (fun s t hi hst => ?_) hs
    · rintro s ⟨children, pgroup, rfl⟩
      exact WaitQueueInv.init children pgroup
    · obtain ⟨op, ⟨he, hc⟩, hrun⟩ := hst
      obtain rfl : s.run op = t := Except.ok.inj hrun
      exact hi.run he hc
  rintro ⟨t, call, ht, object, hobject, hwanted⟩
  rw [hi.awaited t call (by rw [ht]; rfl) object hobject] at hwanted
  cases hwanted

def oneChild : WaitQueue ℕ := { children := [7], pgroup := fun pid => if pid = 7 then some 7 else none }

/-- A thread that is parked while the queue holds a stop it does not want to hear of. -/
theorem noMissedEvent_parked : ∃ s : WaitQueue ℕ,
    s.pc 0 = .parked { waitId := .pgid 7 } false ∧ s.waitProcs = [⟨7, .stopped 19⟩] ∧
      ¬ s.Missed := by
  have h0 : (waitQueues ℕ WaitQueue.Prompt).Reachable oneChild := .of_init ⟨_, _, rfl⟩
  have h2 := h0.after [.report 1 ⟨7, .stopped 19⟩, .step 1]
    ⟨⟨⟨Or.inl rfl, rfl⟩, trivial⟩, ⟨?_, nofun⟩, trivial⟩
  · have h3 := h2.next (.step 1) ⟨trivial, ?_⟩
    · have h6 := h3.after [.step 1, .wait 0 { waitId := .pgid 7 }, .step 0]
        ⟨⟨trivial, nofun⟩, ⟨Or.inl rfl, trivial⟩, ⟨?_, nofun⟩, trivial⟩
      · have h9 := h6.after [.step 0, .step 0, .step 0]
          ⟨⟨trivial, nofun⟩, ⟨trivial, nofun⟩, ⟨trivial, nofun⟩, trivial⟩
        exact ⟨_, rfl, rfl, noMissedEvent_of_reachable h9⟩
      · intro t
        match t with
        | 0 => rfl
        | 1 => rfl
        | _ + 2 => rfl
    · intro objects hobjects u call hu
      match u with
      | 0 => cases hu
      | 1 => cases hu
      | _ + 2 => cases hu
  · intro t
    match t with
    | 0 => rfl
    | 1 => rfl
    | _ + 2 => rfl

/-- The child stops while the thread that waits for this has unlocked `wait_procs` and is not on the
list yet. -/
theorem event_missed : ∃ s : WaitQueue ℕ, (waitQueues ℕ fun _ _ => True).Reachable s ∧
    s.Missed ∧ ∀ t, t ≠ 0 → s.pc t = .idle := by
  have h0 : (waitQueues ℕ fun _ _ => True).Reachable oneChild := .of_init ⟨_, _, rfl⟩
  have h2 := h0.after [.wait 0 { waitId := .any, traceStop := true }, .step 0]
    ⟨⟨Or.inl rfl, trivial⟩, ⟨?_, trivial⟩, trivial⟩
  · have h5 := h2.after [.step 0, .report 1 ⟨7, .stopped 19⟩, .step 1]
      ⟨⟨trivial, trivial⟩, ⟨⟨Or.inl rfl, rfl⟩, trivial⟩, ⟨?_, trivial⟩, trivial⟩
    · have h9 := h5.after [.step 1, .step 0, .step 0, .step 1]
        ⟨⟨trivial, trivial⟩, ⟨trivial, trivial⟩, ⟨trivial, trivial⟩, ⟨trivial, trivial⟩, trivial⟩
      refine ⟨_, h9, ⟨0, _, rfl, _, List.mem_singleton_self _, rfl⟩, fun t ht => ?_⟩
      match t with
      | 0 => exact absurd rfl ht
      | 1 => rfl
      | _ + 2 => rfl
    · intro t
      match t with
      | 0 => rfl
      | 1 => rfl
      | _ + 2 => rfl
  · intro t
    match t with
    | 0 => rfl
    | _ + 1 => rfl

/-! ### What a call selects -/

/-- The kinds of events a call asks for. -/
def WaitCall.Asks (call : WaitCall) : WaitType → Prop
  | .stopped _ => call.traceStop = true
  | .continued => call.traceContinue = true
  | .exited _ | .signaled _ => True

/-- A child, running or not yet reaped, that the id is meant for. -/
def WaitQueue.Matches (s : WaitQueue τ) (waitId : WaitId) (pid : ℕ) : Prop :=
  pid ∈ s.children ∧ match waitId with
    | .any => True
    | .pid pid' => pid = pid'
    | .pgid pgid => s.pgroup pid = some pgid

/-- An event in the queue that the call can return. -/
def WaitQueue.Reportable (s : WaitQueue τ) (call : WaitCall) (object : WaitObject) : Prop :=
  object ∈ s.waitProcs ∧ s.Matches call.waitId object.pid ∧ call.Asks object.code

/-- How a thread that looks at the queue goes on. -/
structure WaitQueue.Selects (s : WaitQueue τ) (call : WaitCall) (pc : WaitPc) : Prop where
  noChild : pc = .returned .noChild ↔ ∀ pid, ¬ s.Matches call.waitId pid
  nothing : pc = .returned .nothing ↔ call.noBlock = true ∧ (∃ pid, s.Matches call.waitId pid) ∧
    ∀ object, ¬ s.Reportable call object
  blocks : pc = .unlocked call ↔ call.noBlock = false ∧ (∃ pid, s.Matches call.waitId pid) ∧
    ∀ object, ¬ s.Reportable call object
  found : ∀ object, pc = .returned (.found object) ∨ pc = .reap object → s.Reportable call object

omit [DecidableEq τ] in
theorem wanted_iff {s : WaitQueue τ} {call : WaitCall} {object : WaitObject}
    (hchild : object.pid ∈ s.children) :
    wanted s.pgroup call object = true ↔ s.Matches call.waitId object.pid ∧ call.Asks object.code := by
  unfold wanted WaitQueue.Matches WaitCall.Asks
  rw [Bool.and_eq_true, and_comm]
  refine and_congr ?_ ?_
  · cases call.waitId <;> simp [hchild]
  · cases object.code <;> simp

end Dlutos.Processes
