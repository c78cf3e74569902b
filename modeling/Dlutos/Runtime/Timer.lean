import Dlutos.Foundation.MinHeap
import Dlutos.Foundation.Transition
import Mathlib.Algebra.Ring.Nat
import Mathlib.Data.List.Nodup

/-!
# Sleeping

`kernel/timer.rs`: `sleep` futures that are polled on any CPUs, and the timer interrupt on CPU 0.
The loads and stores of `TICKS` and `WAKEUP_TICK` are steps of their own, as are the operations on
`SLEEPERS_LIST` while its lock is held.  A future stands for its waker: to wake it means that its
task is going to poll it again.
-/

namespace Dlutos

open Transition Function

def usizeMax : ℕ := 2 ^ 64 - 1

structure Sleepers (ρ : Type) where
  wakeupTick : ℕ
  wakers : List ρ

/-- Where a future stands in its `poll`. -/
inductive SleepPc where
  | idle
  | load (wakeupTick : ℕ)
  | lock (wakeupTick : ℕ)
  /-- about to add its waker to the list -/
  | insert (wakeupTick : ℕ)
  | compare (wakeupTick : ℕ)
  | store (wakeupTick : ℕ)
  | unlock (wakeupTick : ℕ)
  | pending (wakeupTick : ℕ)
  | ready
  deriving DecidableEq

/-- The future has the list locked. -/
def SleepPc.inSection : SleepPc → Bool
  | .insert _ | .compare _ | .store _ | .unlock _ => true
  | _ => false

inductive TimerPc (ρ : Type) where
  | idle
  | load (currentTick : ℕ)
  | lock (wakeupTick : ℕ)
  /-- about to take out an entry -/
  | pop (wakeupTick : ℕ)
  | wake (wakers : List ρ) (wakeupTick : ℕ)
  | compare (wakeupTick : ℕ)
  /-- about to store `WAKEUP_TICK` -/
  | store
  | unlock
  deriving DecidableEq

/-- The interrupt has the list locked. -/
def TimerPc.inSection {ρ : Type} : TimerPc ρ → Bool
  | .pop _ | .wake _ _ | .compare _ | .store | .unlock => true
  | _ => false

/-- The futures that the interrupt is still going to wake. -/
def TimerPc.waking {ρ : Type} : TimerPc ρ → List ρ
  | .wake wakers _ => wakers
  | _ => []

structure Timer (ρ : Type) where
  ticks : ℕ := 0
  wakeupTick : ℕ := usizeMax
  sleepers : List (Sleepers ρ) := []
  pc : ρ → SleepPc := fun _ => .idle
  timer : TimerPc ρ := .idle
  /-- How many interrupts have been handled. -/
  interrupts : ℕ := 0
  wakes : ρ → ℕ := fun _ => 0
  /-- The waker was woken, and no poll has started since. -/
  wakeDue : ρ → Bool := fun _ => false

/-- What may happen next. -/
inductive TimerOp (ρ : Type) where
  /-- `sleep` is called, and the future polled for the first time. -/
  | sleep (f : ρ) (duration : ℕ)
  | poll (f : ρ)
  | drop (f : ρ)
  | future (f : ρ)
  | interrupt
  /-- The interrupt handler goes on. -/
  | timer

section Sleepers

variable {ρ : Type}

def registerSleeper (sleepers : List (Sleepers ρ)) (wakeupTick : ℕ) (waker : ρ) :
    List (Sleepers ρ) :=
  if sleepers.any fun entry => entry.wakeupTick = wakeupTick then
    sleepers.map fun entry => if entry.wakeupTick = wakeupTick then
      { entry with wakers := entry.wakers ++ [waker] } else entry
  else { wakeupTick := wakeupTick, wakers := [waker] } :: sleepers

theorem mem_wakers_registerSleeper {sleepers : List (Sleepers ρ)} {tick : ℕ} {f g : ρ}
    {e : Sleepers ρ} (he : e ∈ registerSleeper sleepers tick f) (hg : g ∈ e.wakers) :
    g = f ∨ ∃ e ∈ sleepers, g ∈ e.wakers := by
  unfold registerSleeper at he
  split_ifs at he
  · obtain ⟨e0, he0, rfl⟩ := List.mem_map.mp he
    split_ifs at hg
    · rcases List.mem_append.mp hg with hg | hg
      · exact Or.inr ⟨e0, he0, hg⟩
      · exact Or.inl (List.mem_singleton.mp hg)
    · exact Or.inr ⟨e0, he0, hg⟩
  · rcases List.mem_cons.mp he with rfl | he
    · exact Or.inl (List.mem_singleton.mp hg)
    · exact Or.inr ⟨e, he, hg⟩

end Sleepers

namespace Timer

variable {ρ : Type} [DecidableEq ρ]

def Unlocked (s : Timer ρ) : Prop := (∀ f, (s.pc f).inSection = false) ∧ s.timer.inSection = false

/-- The poll of a future moves on. -/
def goto (s : Timer ρ) (f : ρ) (pc : SleepPc) : Timer ρ :=
  { s with pc := update s.pc f pc }

def startPoll (s : Timer ρ) (f : ρ) (wakeupTick : ℕ) : Timer ρ :=
  { s with wakeDue := update s.wakeDue f false }.goto f (.load wakeupTick)

def futureStep (s : Timer ρ) (f : ρ) : SleepPc → Timer ρ
  | .load wakeupTick =>
    if wakeupTick ≤ s.ticks then s.goto f .ready else s.goto f (.lock wakeupTick)
  | .lock wakeupTick => s.goto f (.insert wakeupTick)
  | .insert wakeupTick =>
    { s with sleepers := registerSleeper s.sleepers wakeupTick f }.goto f (.compare wakeupTick)
  | .compare wakeupTick =>
    if wakeupTick < s.wakeupTick then s.goto f (.store wakeupTick)
    else s.goto f (.unlock wakeupTick)
  | .store wakeupTick => { s with wakeupTick := wakeupTick }.goto f (.unlock wakeupTick)
  | .unlock wakeupTick => s.goto f (.pending wakeupTick)
  | .idle | .pending _ | .ready => s

def finish (s : Timer ρ) : Timer ρ := { s with timer := .idle, interrupts := s.interrupts + 1 }

/-- The next step of the interrupt handler. -/
def timerStep (s : Timer ρ) : TimerPc ρ → Timer ρ
  | .idle => s
  | .load currentTick =>
    if s.wakeupTick ≤ currentTick then { s with timer := .lock s.wakeupTick } else s.finish
  | .lock wakeupTick => { s with timer := .pop wakeupTick }
  | .pop wakeupTick =>
    match MinHeap.pop Sleepers.wakeupTick s.sleepers with
    | none => { s with timer := .unlock }
    | some (entry, rest) => { s with sleepers := rest, timer := .wake entry.wakers wakeupTick }
  | .wake [] wakeupTick => { s with timer := .compare wakeupTick }
  | .wake (f :: wakers) wakeupTick =>
    { s with timer := .wake wakers wakeupTick
             wakes := update s.wakes f (s.wakes f + 1)
             wakeDue := update s.wakeDue f true }
  | .compare wakeupTick => { s with timer := if s.wakeupTick = wakeupTick then .store else .unlock }
  | .store =>
    { s with timer := .unlock
             wakeupTick := ((MinHeap.peek Sleepers.wakeupTick s.sleepers).map
               Sleepers.wakeupTick).getD usizeMax }
  | .unlock => s.finish

def run (s : Timer ρ) : TimerOp ρ → Timer ρ
  | .sleep f duration => s.startPoll f (s.ticks + duration)
  | .poll f =>
    match s.pc f with
    | .pending wakeupTick => s.startPoll f wakeupTick
    | _ => s
  | .drop f => s.goto f .idle
  | .future f => s.futureStep f (s.pc f)
  | .interrupt => { s with ticks := s.ticks + 1, timer := .load (s.ticks + 1) }
  | .timer => s.timerStep s.timer

def Enabled (s : Timer ρ) : TimerOp ρ → Prop
  | .sleep f _ => s.pc f = .idle
  | .poll f => ∃ wakeupTick, s.pc f = .pending wakeupTick
  | .drop f => s.pc f = .ready ∨ ∃ wakeupTick, s.pc f = .pending wakeupTick
  | .future f =>
    match s.pc f with
    | .idle | .pending _ | .ready => False
    | .lock _ => s.Unlocked
    | _ => True
  | .interrupt => s.timer = .idle
  | .timer =>
    match s.timer with
    | .idle => False
    | .lock _ => s.Unlocked
    | _ => True

end Timer

def timers (ρ : Type) [DecidableEq ρ] : System (Timer ρ) (TimerOp ρ) Empty where
  init s := s = {}
  allowed := Timer.Enabled
  run s op := .ok (s.run op)

end Dlutos
