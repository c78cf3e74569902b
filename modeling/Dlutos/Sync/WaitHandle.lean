import Dlutos.Foundation.Transition

/-!
# Wait handles

`dlutos_sync_rt/src/wait_list.rs`, `wait_list/wait_handle.rs` and `wait_list/wait_object.rs`: the
handles of one wait list, the waiters that own them and the notifiers.  The list lock, the waker
lock of each object and every access of `woken_up` and of the pointer `wait_list` are steps of their
own.  `wait_until_off_list` is a step that is possible once the pointer is null.  Wakers are
numbers.
-/

namespace Dlutos

open ExceptLoop

inductive HandleState where
  | init
  | onList
  | wakerSet
  | wokenUp
  deriving DecidableEq

/-- The two sides that take the waker lock. -/
inductive Side where
  | waiter
  | notifier
  deriving DecidableEq

inductive PollResult where
  | ready
  | pending
  deriving DecidableEq

inductive WaiterPc where
  | rest
  /-- `do_add_to_wait_list` in state `Init`: about to lock the list -/
  | lockList (waker : Option ℕ)
  /-- about to put the object on the list -/
  | pushBack (waker : Option ℕ)
  /-- about to save the waker, to set the state and to unlock the list -/
  | saveWaker (waker : Option ℕ)
  /-- `do_add_to_wait_list` in state `OnList`: about to read `woken_up` -/
  | check (waker : Option ℕ)
  /-- `save_waker_if_not_woken_up`: about to lock the waker -/
  | lockWaker (waker : ℕ)
  /-- about to read `woken_up` with the waker locked -/
  | recheck (waker : ℕ)
  | store (waker : ℕ)
  /-- `poll` in state `WakerSet`: about to read `woken_up` -/
  | checkSet
  /-- `wait_until_off_list` in `poll` -/
  | spin
  /-- `drop`: about to read `woken_up` -/
  | dropCheck
  /-- `wait_until_off_list` in `drop` -/
  | dropSpin
  | dropLock
  /-- about to take the object off the list and to unlock it -/
  | dropRemove
  | dropped
  deriving DecidableEq

def WaiterPc.dropping : WaiterPc → Bool
  | .dropCheck | .dropSpin | .dropLock | .dropRemove | .dropped => true
  | _ => false

structure WaitObject where
  state : HandleState := .init
  wokenUp : Bool := false
  waker : Option ℕ := none
  wakerLock : Option Side := none
  /-- The pointer `wait_list` is not null; this is what `on_list` tests. -/
  onList : Bool := true
  pc : WaiterPc := .rest
  /-- The waker that was saved last. -/
  registered : Option ℕ := none
  wakes : List ℕ := []
  notified : ℕ := 0
  /-- `woken_up` was set when the last call of `poll` started. -/
  early : Bool := false
  result : Option PollResult := none

inductive Notify where
  | one
  | all
  | waiter (h : ℕ)
  deriving DecidableEq

/-- What a notifier is about to do with an object, in `notify_waiter_unchecked`. -/
inductive Work where
  /-- `set_woken_up` -/
  | mark
  | lockWaker
  | take
  | wake (waker : Option ℕ)
  /-- take the object off the list -/
  | remove
  | clear
  deriving DecidableEq

inductive ListLock where
  | free
  | waiter (h : ℕ)
  /-- a notifier that is about to look for an object -/
  | pick (call : Notify)
  | work (call : Notify) (h : ℕ) (work : Work)
  /-- a notifier that is about to unlock the list -/
  | unlock

def ListLock.CalledFor (l : ListLock) (h : ℕ) : Prop :=
  match l with
  | .pick call | .work call _ _ => call = .waiter h
  | _ => False

structure WaitState where
  waiters : List ℕ := []
  lock : ListLock := .free
  obj : ℕ → WaitObject := fun _ => {}

/-- The ways in which a step goes wrong. -/
inductive HandlePanic where
  /-- "Invalid state." in `do_add_to_wait_list` -/
  | invalidState
  /-- "Waker already set." -/
  | wakerAlreadySet
  /-- A cursor is made from an object that is not on the list, which is undefined. -/
  | notLinked
  deriving DecidableEq

/-- What may happen next. -/
inductive HandleOp where
  | add (h : ℕ)
  | poll (h waker : ℕ)
  | drop (h : ℕ)
  | waiter (h : ℕ)
  | notify (call : Notify)
  | notifier

namespace WaitState

def set (s : WaitState) (h : ℕ) (o : WaitObject) : WaitState :=
  { s with obj := Function.update s.obj h o }

def goto (s : WaitState) (h : ℕ) (pc : WaiterPc) : WaitState := s.set h { s.obj h with pc := pc }

def add (s : WaitState) (h : ℕ) : Except HandlePanic WaitState :=
  match (s.obj h).state with
  | .init => .ok (s.goto h (.lockList none))
  | .onList => .ok (s.goto h (.check none))
  | _ => .error .invalidState

def poll (s : WaitState) (h waker : ℕ) : WaitState :=
  let o := { s.obj h with early := (s.obj h).wokenUp, result := none }
  match o.state with
  | .init => s.set h { o with pc := .lockList (some waker) }
  | .onList => s.set h { o with pc := .check (some waker) }
  | .wakerSet => s.set h { o with pc := .checkSet }
  | .wokenUp => s.set h { o with result := some .ready }

def drop (s : WaitState) (h : ℕ) : WaitState :=
  match (s.obj h).state with
  | .init | .wokenUp => s.goto h .dropped
  | .onList | .wakerSet => s.goto h .dropCheck

def saveWaker (o : WaitObject) (waker : ℕ) : Except HandlePanic WaitObject := do
  assertOr (o.waker = none) .wakerAlreadySet
  pure { o with waker := some waker, registered := some waker, state := .wakerSet, pc := .rest,
                result := some .pending }

def ownerStep (s : WaitState) (h : ℕ) (o : WaitObject) : WaiterPc → Except HandlePanic WaitState
  | .rest | .dropped => .ok s
  | .lockList waker => .ok ({ s with lock := .waiter h }.goto h (.pushBack waker))
  | .pushBack waker => .ok ({ s with waiters := s.waiters ++ [h] }.goto h (.saveWaker waker))
  | .saveWaker none =>
    .ok ({ s with lock := .free }.set h { o with state := .onList, pc := .rest })
  | .saveWaker (some waker) => do
    let o ← saveWaker o waker
    pure ({ s with lock := .free }.set h o)
  | .check none =>
    if o.wokenUp then .ok (s.set h { o with state := .wokenUp, pc := .rest })
    else .ok (s.goto h .rest)
  | .check (some waker) =>
    if o.wokenUp then .ok (s.set h { o with state := .wokenUp, pc := .spin })
    else .ok (s.goto h (.lockWaker waker))
  | .lockWaker waker =>
    .ok (s.set h { o with wakerLock := some .waiter, pc := .recheck waker })
  | .recheck waker =>
    if o.wokenUp then
      .ok (s.set h { o with wakerLock := none, state := .wokenUp, pc := .spin })
    else .ok (s.goto h (.store waker))
  | .store waker => do
    let o ← saveWaker o waker
    pure (s.set h { o with wakerLock := none })
  | .checkSet =>
    if o.wokenUp then .ok (s.goto h .spin)
    else .ok (s.set h { o with pc := .rest, result := some .pending })
  | .spin => .ok (s.set h { o with state := .wokenUp, pc := .rest, result := some .ready })
  | .dropCheck => .ok (s.goto h (if o.wokenUp then .dropSpin else .dropLock))
  | .dropSpin => .ok (s.goto h .dropped)
  | .dropLock => .ok ({ s with lock := .waiter h }.goto h .dropRemove)
  | .dropRemove =>
    if o.onList then do
      assertOr (h ∈ s.waiters) .notLinked
      pure ({ s with waiters := s.waiters.erase h, lock := .free }.goto h .dropped)
    else .ok ({ s with lock := .free }.goto h .dropped)

def advanceWaiter (s : WaitState) (h : ℕ) : Except HandlePanic WaitState :=
  s.ownerStep h (s.obj h) (s.obj h).pc

def found (s : WaitState) : Notify → Except HandlePanic (Option ℕ)
  | .one | .all => .ok s.waiters.head?
  | .waiter h =>
    if (s.obj h).onList then do
      assertOr (h ∈ s.waiters) .notLinked
      pure (some h)
    else .ok none

def notifierStep (s : WaitState) : ListLock → Except HandlePanic WaitState
  | .free | .waiter _ => .ok s
  | .pick call => do
    match ← s.found call with
    | none => pure { s with lock := .unlock }
    | some h => pure { s with lock := .work call h .mark }
  | .work call h .mark =>
    let o := s.obj h
    .ok ({ s with lock := .work call h .lockWaker }.set h
      { o with wokenUp := true, notified := o.notified + 1 })
  | .work call h .lockWaker =>
    .ok ({ s with lock := .work call h .take }.set h
      { s.obj h with wakerLock := some .notifier })
  | .work call h .take =>
    let o := s.obj h
    .ok ({ s with lock := .work call h (.wake o.waker) }.set h
      { o with waker := none, wakerLock := none })
  | .work call h (.wake waker) =>
    let o := s.obj h
    .ok ({ s with lock := .work call h .remove }.set h { o with wakes := o.wakes ++ waker.toList })
  | .work call h .remove =>
    .ok { s with waiters := s.waiters.erase h, lock := .work call h .clear }
  | .work call h .clear =>
    .ok ({ s with lock := if call = Notify.all then .pick .all else .unlock }.set h
      { s.obj h with onList := false })
  | .unlock => .ok { s with lock := .free }

def advanceNotifier (s : WaitState) : Except HandlePanic WaitState := s.notifierStep s.lock

def run (s : WaitState) : HandleOp → Except HandlePanic WaitState
  | .add h => s.add h
  | .poll h waker => .ok (s.poll h waker)
  | .drop h => .ok (s.drop h)
  | .waiter h => s.advanceWaiter h
  | .notify call => .ok { s with lock := .pick call }
  | .notifier => s.advanceNotifier

/-- Locks are taken when they are free, and spinning ends when the pointer is null. -/
def WaiterReady (s : WaitState) (h : ℕ) : Prop :=
  match (s.obj h).pc with
  | .rest | .dropped => False
  | .lockList _ | .dropLock => s.lock = .free
  | .saveWaker (some _) | .lockWaker _ => (s.obj h).wakerLock = none
  | .spin | .dropSpin => (s.obj h).onList = false
  | _ => True

def NotifierReady (s : WaitState) : Prop :=
  match s.lock with
  | .free | .waiter _ => False
  | .work _ h .lockWaker => (s.obj h).wakerLock = none
  | _ => True

/-- The function that `get_waker_function` returns is last used before the handle is dropped. -/
def Enabled (s : WaitState) : HandleOp → Prop
  | .add h | .poll h _ => (s.obj h).pc = .rest
  | .drop h => (s.obj h).pc = .rest ∧ ¬ s.lock.CalledFor h
  | .waiter h => s.WaiterReady h
  | .notify (.waiter h) => s.lock = .free ∧ (s.obj h).pc.dropping = false
  | .notify _ => s.lock = .free
  | .notifier => s.NotifierReady

end WaitState

end Dlutos
