import Dlutos.Signals.SignalList

/-!
# Stopping a thread and waking it

`SignalList` of `kernel/task/signal.rs` with its two wakers.  The default action of a stop signal
tells the parent, leaves a waker in `stop_waker` and blocks the thread by
`Runtime::block_till_woken`.  Left out are the frames on the user stack, of which only the failure
to write one matters here.

`resumeRaised` records that `SIGCONT` or `SIGKILL` was raised after the last signal was taken from
the pending ones, and `killRaised` that `SIGKILL` was ever raised.
-/

namespace Dlutos.Signals

open Transition

/-! ### Raising -/

inductive SignalWaker where
  | stop
  | signal
  deriving DecidableEq

structure SignalListInner where
  mask : SigSet
  actions : Signal → SignalAction
  pending : List Signal := []
  signalWaker : Bool := false
  stopWaker : Bool := false

namespace SignalListInner

/-- `raise` does nothing for this signal. -/
def ignores (l : SignalListInner) (signal : Signal) : Bool :=
  match l.actions signal, signal.defaultAction with
  | .ignore, _ => true
  | .default, .ignore => true
  | _, _ => false

def enqueue (l : SignalListInner) (signal : Signal) : SignalListInner :=
  { l with mask := l.mask.mask (SigSet.ofSignal signal), pending := signal :: l.pending }

/-- The waker that `raise` calls. -/
def wakes (l : SignalListInner) (signal : Signal) : Option SignalWaker :=
  if l.ignores signal then none
  else if signal = Signal.SIGCONT then if l.stopWaker then some .stop else none
  else if l.signalWaker then some .signal else none

def raise (l : SignalListInner) (signal : Signal) : SignalListInner :=
  if l.ignores signal then l
  else if signal = Signal.SIGCONT then { l.enqueue signal with stopWaker := false }
  else { l.enqueue signal with signalWaker := false }

/-- `set_action`; nothing changes for the signals of `SIGNAL_NOW`. -/
def setAction (l : SignalListInner) (signal : Signal) (action : SignalAction) : SignalListInner :=
  if signal = Signal.SIGKILL ∨ signal = Signal.SIGSTOP then l
  else { l with actions := Function.update l.actions signal action }

def clearNonIgnore (l : SignalListInner) : SignalListInner :=
  { l with actions := fun signal =>
      match l.actions signal with
      | .ignore => .ignore
      | _ => .default }

variable {l : SignalListInner} {signal : Signal}

theorem raise_of_ignores (h : l.ignores signal = true) : l.raise signal = l := if_pos h

@[simp] theorem actions_raise (l : SignalListInner) (signal : Signal) :
    (l.raise signal).actions = l.actions := by
  unfold raise
  split_ifs <;> rfl

theorem pending_raise (h : l.ignores signal = false) :
    (l.raise signal).pending = signal :: l.pending := by
  rw [raise, if_neg (ne_true_of_eq_false h)]
  split_ifs <;> rfl

theorem subset_pending_raise (l : SignalListInner) (signal : Signal) :
    l.pending ⊆ (l.raise signal).pending := by
  cases h : l.ignores signal with
  | false =>
    rw [pending_raise h]
    exact List.subset_cons_self _ _
  | true =>
    rw [raise_of_ignores h]
    exact List.Subset.refl _

theorem wakes_sigcont (h : l.ignores Signal.SIGCONT = false) :
    l.wakes Signal.SIGCONT = if l.stopWaker then some .stop else none := by
  rw [wakes, if_neg (ne_true_of_eq_false h), if_pos rfl]

theorem stopWaker_raise (l : SignalListInner) (signal : Signal) :
    (l.raise signal).stopWaker = (l.stopWaker && l.wakes signal != some .stop) := by
  unfold raise wakes
  split_ifs with hignores hcont hstop hsignal <;> simp_all [enqueue]

end SignalListInner

/-! ### Handling -/

inductive HandlePc where
  /-- outside of `handle` -/
  | user
  | looping
  | popped (signal : Signal)
  | masking (mask : SigSet)
  | writing (oldMask : SigSet)
  /-- about to raise a signal because no frame could be written -/
  | failed (errno : ℕ)
  | defaulting (signal : Signal)
  /-- about to tell the parent that the thread stops -/
  | stopping
  /-- about to leave the stop waker -/
  | installing
  | blocked (woken : Bool)
  /-- about to tell the parent that the thread continues -/
  | resumed
  | killing
  | terminated
  deriving DecidableEq

inductive StopPanic where
  /-- "We should not have a waker here" -/
  | wakerPresent
  deriving DecidableEq

structure StopThread where
  list : SignalListInner
  pc : HandlePc := .user
  resumeRaised : Bool := false
  killRaised : Bool := false

namespace StopThread

def wake (s : StopThread) : Option SignalWaker → StopThread
  | some .stop => if s.pc = .blocked false then { s with pc := .blocked true } else s
  | _ => s

def raise (s : StopThread) (signal : Signal) : StopThread :=
  { s with list := s.list.raise signal
           resumeRaised := s.resumeRaised || signal == Signal.SIGCONT || signal == Signal.SIGKILL
           killRaised := s.killRaised || signal == Signal.SIGKILL }.wake (s.list.wakes signal)

theorem wake_eq (s : StopThread) (w : Option SignalWaker) :
    ∃ pc, s.wake w = { s with pc := pc } := by
  unfold wake
  split
  · split_ifs
    · exact ⟨_, rfl⟩
    · exact ⟨s.pc, rfl⟩
  · exact ⟨s.pc, rfl⟩

theorem list_raise (s : StopThread) (signal : Signal) :
    (s.raise signal).list = s.list.raise signal := by
  obtain ⟨pc, h⟩ := wake_eq _ _
  rw [raise, h]

theorem killRaised_raise {s : StopThread} (h : s.killRaised = true) (signal : Signal) :
    (s.raise signal).killRaised = true := by
  obtain ⟨pc, hwake⟩ := wake_eq _ _
  rw [raise, hwake, h]
  rfl

def pop (s : StopThread) : StopThread :=
  match MinHeap.pop id s.list.pending with
  | none => { s with pc := .user }
  | some (signal, rest) =>
    { s with list := { s.list with pending := rest }, pc := .popped signal, resumeRaised := false }

def lookup (s : StopThread) (signal : Signal) : StopThread :=
  match s.list.actions signal with
  | .simpleHandler _ _ mask _ => { s with pc := .masking mask }
  | _ => { s with pc := .defaulting signal }

def write (s : StopThread) (oldMask : SigSet) : Option ℕ → StopThread
  | none => { s with pc := .user }
  | some errno => { s with list := { s.list with mask := oldMask }, pc := .failed errno }

def takeDefault (s : StopThread) (signal : Signal) : StopThread :=
  { s with list := { s.list with mask := s.list.mask.unmask (SigSet.ofSignal signal) }
           pc := match signal.defaultAction with
             | .ignore | .cont => .looping
             | .stop => .stopping
             | .terminate => .killing }

def install (s : StopThread) : Except StopPanic StopThread :=
  if s.list.stopWaker then .error .wakerPresent
  else .ok { s with list := { s.list with stopWaker := true }, pc := .blocked false }

/-- A step of the thread, in `handle` or in the loop around it; `result` is the error of writing a
frame. -/
def advance (s : StopThread) (result : Option ℕ) : Except StopPanic StopThread :=
  match s.pc with
  | .user => .ok { s with pc := if s.list.pending.isEmpty then .user else .looping }
  | .looping => .ok s.pop
  | .popped signal => .ok (s.lookup signal)
  | .masking mask =>
    .ok { s with list := { s.list with mask := s.list.mask.mask mask }, pc := .writing s.list.mask }
  | .writing oldMask => .ok (s.write oldMask result)
  | .failed errno =>
    .ok { s.raise (if errno = EFAULT then Signal.SIGSEGV else Signal.SIGSYS) with pc := .looping }
  | .defaulting signal => .ok (s.takeDefault signal)
  | .stopping => .ok { s with pc := .installing }
  | .installing => s.install
  | .blocked true => .ok { s with pc := .resumed }
  | .resumed => .ok { s with pc := .looping }
  | .killing => .ok { s with pc := .terminated }
  | .blocked false | .terminated => .ok s

end StopThread

/-- What may happen next. -/
inductive StopOp where
  | raise (signal : Signal)
  | setAction (signal : Signal) (action : SignalAction)
  | clearNonIgnore
  /-- `rt_sigprocmask` and `rt_sigreturn` -/
  | setMask (mask : SigSet)
  | advance (result : Option ℕ)

namespace StopThread

def run (s : StopThread) : StopOp → Except StopPanic StopThread
  | .raise signal => .ok (s.raise signal)
  | .setAction signal action => .ok { s with list := s.list.setAction signal action }
  | .clearNonIgnore => .ok { s with list := s.list.clearNonIgnore }
  | .setMask mask => .ok { s with list := { s.list with mask := mask } }
  | .advance result => s.advance result

/-- When the operations are possible: the mask is changed by the thread itself. -/
def Enabled (s : StopThread) : StopOp → Prop
  | .setMask _ => s.pc = .user
  | _ => True

/-- The thread goes on alone for a number of steps. -/
def advances (s : StopThread) (results : ℕ → Option ℕ) : ℕ → Except StopPanic StopThread
  | 0 => .ok s
  | n + 1 => do
    let s ← s.advance (results 0)
    s.advances (fun i => results (i + 1)) n

end StopThread

def stopThread (cond : StopThread → StopOp → Prop) : System StopThread StopOp StopPanic where
  init s := ∃ mask actions, actions Signal.SIGKILL = .default ∧ actions Signal.SIGSTOP = .default ∧
    s = { list := { mask := mask, actions := actions } }
  allowed s op := s.Enabled op ∧ cond s op
  run := StopThread.run

end Dlutos.Signals
