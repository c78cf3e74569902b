import Dlutos.Signals.StopAction

/-!
# Interruptible waits

`CondVar<true>::wait` of `sync/condvar.rs`: the thread puts its wait object on the wait list, leaves
a function in `signal_waker` that takes the object off the list again, unlocks the guard, waits for
the handle, and clears the waker.  Each of these is a step.  A signal that is already pending when
the function is left does not end the wait, nor does `SIGCONT`, since `raise` calls the stop waker
for it.
-/

namespace Dlutos.Signals

open Transition

inductive WaitPc where
  | idle
  | enqueued
  /-- the signal waker is left -/
  | armed
  | unlocked
  /-- the wait handle has been polled and was not ready -/
  | parked
  /-- the wait handle was ready -/
  | woken
  | cleared
  deriving DecidableEq

/-- The thread is in the wait, before its end. -/
def WaitPc.waits : WaitPc → Bool
  | .enqueued | .armed | .unlocked | .parked => true
  | .idle | .woken | .cleared => false

structure WaitThread where
  list : SignalListInner
  pc : WaitPc := .idle
  onList : Bool := false
  wokenUp : Bool := false
  waker : Bool := false

namespace WaitThread

def notifyWaiter (s : WaitThread) : WaitThread :=
  if s.onList then { s with wokenUp := true, waker := false, onList := false } else s

def raise (s : WaitThread) (signal : Signal) : WaitThread :=
  let s' := { s with list := s.list.raise signal }
  match s.list.wakes signal with
  | some .signal => s'.notifyWaiter
  | _ => s'

def poll (s : WaitThread) : WaitThread :=
  if s.wokenUp then { s with pc := .woken } else { s with waker := true, pc := .parked }

def take (s : WaitThread) : WaitThread :=
  match MinHeap.pop id s.list.pending with
  | none => s
  | some (_, rest) => { s with list := { s.list with pending := rest } }

def advance (s : WaitThread) : WaitThread :=
  match s.pc with
  | .idle => { s with onList := true, wokenUp := false, waker := false, pc := .enqueued }
  | .enqueued => { s with list := { s.list with signalWaker := true }, pc := .armed }
  | .armed => { s with pc := .unlocked }
  | .unlocked | .parked => s.poll
  | .woken => { s with list := { s.list with signalWaker := false }, pc := .cleared }
  | .cleared => { s with pc := .idle }

end WaitThread

inductive InterruptOp where
  | raise (signal : Signal)
  | setAction (signal : Signal) (action : SignalAction)
  | clearNonIgnore
  | notify
  /-- The next step of a wait. -/
  | advance
  | take

namespace WaitThread

def run (s : WaitThread) : InterruptOp → WaitThread
  | .raise signal => s.raise signal
  | .setAction signal action => { s with list := s.list.setAction signal action }
  | .clearNonIgnore => { s with list := s.list.clearNonIgnore }
  | .notify => s.notifyWaiter
  | .advance => s.advance
  | .take => s.take

def Enabled (s : WaitThread) : InterruptOp → Prop
  | .take => s.pc = .idle
  | _ => True

/-- A wait starts when no signal is pending.  While the waiter has not been notified, a signal that
is not ignored is raised only if the waker is there, and it is not `SIGCONT`. -/
def Noticed (s : WaitThread) : InterruptOp → Prop
  | .advance => s.pc = .idle → s.list.pending = []
  | .raise signal => s.list.ignores signal = true ∨ s.pc.waits = false ∨ s.wokenUp = true ∨
      s.pc ≠ .enqueued ∧ signal ≠ Signal.SIGCONT
  | _ => True

/-- While the waiter has not been notified, no signal is pending, and signals will notify it. -/
def WaitInv (s : WaitThread) : Prop :=
  s.pc.waits = true → s.wokenUp = false → s.onList = true ∧ s.list.pending = [] ∧
    (s.pc ≠ .enqueued → s.list.signalWaker = true)

variable {s : WaitThread}

theorem WaitInv.notifyWaiter (hi : s.WaitInv) : s.notifyWaiter.WaitInv := by
  unfold WaitThread.notifyWaiter
  split_ifs
  · intro _ hwoken
    cases hwoken
  · exact hi

variable {signal : Signal}

theorem wakes_signal {l : SignalListInner} (hignores : l.ignores signal = false)
    (hcont : signal ≠ Signal.SIGCONT) (hwaker : l.signalWaker = true) :
    l.wakes signal = some .signal := by
  rw [SignalListInner.wakes, if_neg (ne_true_of_eq_false hignores), if_neg hcont, if_pos hwaker]

theorem raise_of_ignores (h : s.list.ignores signal = true) : s.raise signal = s := by
  rw [WaitThread.raise, SignalListInner.wakes, if_pos h, SignalListInner.raise_of_ignores h]

theorem raise_eq (s : WaitThread) (signal : Signal) :
    (s.raise signal).pc = s.pc ∧ (s.wokenUp = true → (s.raise signal).wokenUp = true) := by
  unfold WaitThread.raise
  split
  · simp only [WaitThread.notifyWaiter]
    split_ifs
    · exact ⟨rfl, fun _ => rfl⟩
    · exact ⟨rfl, id⟩
  · exact ⟨rfl, id⟩

theorem WaitInv.raise (hi : s.WaitInv) (hc : s.Noticed (.raise signal)) :
    (s.raise signal).WaitInv := by
  obtain ⟨hpc, hkept⟩ := raise_eq s signal
  by_cases hignores : s.list.ignores signal = true
  · rw [raise_of_ignores hignores]
    exact hi
  intro hwaits hwoken
  rw [hpc] at hwaits
  have hwoken0 : s.wokenUp = false := by
    cases h : s.wokenUp with
    | false => rfl
    | true => exact absurd (hkept h) (ne_true_of_eq_false hwoken)
  obtain ⟨hlist, -, hwaker⟩ := hi hwaits hwoken0
  obtain ⟨harmed, hcont⟩ : s.pc ≠ .enqueued ∧ signal ≠ Signal.SIGCONT := by
    rcases hc with h | h | h | h
    · exact absurd h hignores
    · exact absurd hwaits (ne_true_of_eq_false h)
    · exact absurd h (ne_true_of_eq_false hwoken0)
    · exact h
  -- the waker is there, and so the waiter has been notified
  have hraise : (s.raise signal).wokenUp = true := by
    rw [WaitThread.raise, wakes_signal (eq_false_of_ne_true hignores) hcont (hwaker harmed)]
    simp only [WaitThread.notifyWaiter, hlist, if_true]
  exact absurd hraise (ne_true_of_eq_false hwoken)

theorem WaitInv.advance (hi : s.WaitInv) (hc : s.Noticed .advance) : s.advance.WaitInv := by
  unfold WaitThread.advance
  cases hpc : s.pc with
  | idle => exact fun _ _ => ⟨rfl, hc hpc, fun h => absurd rfl h⟩
  | enqueued =>
    intro _ hwoken
    obtain ⟨hlist, hpending, -⟩ := hi (by rw [hpc]; rfl) hwoken
    exact ⟨hlist, hpending, fun _ => rfl⟩
  | armed =>
    intro _ hwoken
    obtain ⟨hlist, hpending, hwaker⟩ := hi (by rw [hpc]; rfl) hwoken
    exact ⟨hlist, hpending, fun _ => hwaker (by rw [hpc]; nofun)⟩
  | unlocked | parked =>
    simp only [poll]
    split_ifs with hwoken
    · exact nofun
    · obtain ⟨hlist, hpending, hwaker⟩ := hi (by rw [hpc]; rfl) (eq_false_of_ne_true hwoken)
      exact fun _ _ => ⟨hlist, hpending, fun _ => hwaker (by rw [hpc]; nofun)⟩
  | woken | cleared => exact nofun

theorem WaitInv.run (hi : s.WaitInv) (op : InterruptOp) (he : s.Enabled op) (hc : s.Noticed op) :
    (s.run op).WaitInv := by
  cases op with
  | raise signal => exact hi.raise hc
  | setAction signal action =>
    simp only [WaitThread.run, SignalListInner.setAction]
    split_ifs <;> exact hi
  | clearNonIgnore => exact hi
  | notify => exact hi.notifyWaiter
  | advance => exact hi.advance hc
  | take =>
    simp only [WaitThread.run, WaitThread.take]
    split
    · exact hi
    · intro hwaits
      rw [show s.pc = .idle from he] at hwaits
      cases hwaits

end WaitThread

def waitThread (cond : WaitThread → InterruptOp → Prop) : System WaitThread InterruptOp Empty where
  init s := ∃ mask actions pending,
    s = { list := { mask := mask, actions := actions, pending := pending } }
  allowed s op := s.Enabled op ∧ cond s op
  run s op := .ok (s.run op)

open WaitThread

/-- While all steps meet the condition, a thread that is parked without notification has no pending
signal. -/
theorem signalNoticed_of_reachable {s : WaitThread} (hs : (waitThread Noticed).Reachable s)
    (hpc : s.pc = .parked) (hwoken : s.wokenUp = false) : s.list.pending = [] := by
  have hi : s.WaitInv := by
    refine Transition.Reachable.invariant ?_ (fun s t hi hst => ?_) hs
    · rintro _ ⟨mask, actions, pending, rfl⟩
      exact nofun
    · obtain ⟨op, ⟨he, hc⟩, hrun⟩ := hst
      obtain rfl : s.run op = t := Except.ok.inj hrun
      exact hi.run op he hc
  exact (hi (by rw [hpc]; rfl) hwoken).2.1

theorem signalNoticed_again : ∃ s : WaitThread, s.pc = .parked ∧ s.list.pending = [] := by
  have h0 : (waitThread Noticed).Reachable
      { list := { mask := 0#64, actions := fun _ => .default } } := .of_init ⟨_, _, _, rfl⟩
  have h13 := h0.after [.advance, .advance, .advance, .advance, .raise Signal.SIGUSR1, .advance,
    .advance, .advance, .take, .advance, .advance, .advance, .advance]
    ⟨⟨trivial, fun _ => rfl⟩, ⟨trivial, nofun⟩, ⟨trivial, nofun⟩, ⟨trivial, nofun⟩,
     ⟨trivial, Or.inr (Or.inr (Or.inr ⟨nofun, nofun⟩))⟩, ⟨trivial, nofun⟩, ⟨trivial, nofun⟩,
     ⟨trivial, nofun⟩, ⟨rfl, trivial⟩, ⟨trivial, fun _ => rfl⟩, ⟨trivial, nofun⟩, ⟨trivial, nofun⟩,
     ⟨trivial, nofun⟩, trivial⟩
  exact ⟨_, rfl, signalNoticed_of_reachable h13 rfl rfl⟩

/-- A signal before the waker is installed, or `SIGCONT` while the thread is parked: it stays
parked. -/
theorem signalNoticed_violated :
    (∃ s : WaitThread, (waitThread fun _ _ => True).Reachable s ∧ s.pc = .parked ∧
      s.wokenUp = false ∧ s.list.pending = [Signal.SIGUSR1]) ∧
    ∃ s : WaitThread, (waitThread fun _ _ => True).Reachable s ∧ s.pc = .parked ∧
      s.wokenUp = false ∧ s.list.pending = [Signal.SIGCONT] := by
  have h0 : (waitThread fun _ _ => True).Reachable
      { list := { mask := 0#64, actions := fun _ => .default } } := .of_init ⟨_, _, _, rfl⟩
  have h1 := h0.next .advance ⟨trivial, trivial⟩
  constructor
  · have h2 := h1.next (.raise Signal.SIGUSR1) ⟨trivial, trivial⟩
    have h3 := h2.next .advance ⟨trivial, trivial⟩
    have h4 := h3.next .advance ⟨trivial, trivial⟩
    have h5 := h4.next .advance ⟨trivial, trivial⟩
    exact ⟨_, h5, rfl, rfl, rfl⟩
  · have h5 := h1.after [.advance, .advance, .advance, .raise Signal.SIGCONT]
      ⟨⟨trivial, trivial⟩, ⟨trivial, trivial⟩, ⟨trivial, trivial⟩, ⟨trivial, trivial⟩, trivial⟩
    exact ⟨_, h5, rfl, rfl, rfl⟩

end Dlutos.Signals
