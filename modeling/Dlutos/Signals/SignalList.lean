import Dlutos.Foundation.MinHeap
import Dlutos.Foundation.Transition
import Mathlib.Order.Fin.Basic

/-!
# The signals of a thread

`SignalList` of `kernel/task/signal.rs` with the actions of `signal_action.rs` and the sets of
`posix_types`.  One iteration of the loop in `handle` is one step; raises come in between.  A frame
is kept under its address until another frame is written over it; user code does not write to
frames.  Wakers, the messages to the parent process and the registers that the code does not name
are left out.
-/

namespace Dlutos.Signals

open Transition

/-- A signal: the raw numbers that `try_from_raw` accepts. -/
abbrev Signal := Fin 64

namespace Signal

def SIGKILL : Signal := 9
def SIGUSR1 : Signal := 10
def SIGSEGV : Signal := 11
def SIGUSR2 : Signal := 12
def SIGCHLD : Signal := 17
def SIGCONT : Signal := 18
def SIGSTOP : Signal := 19
def SIGTSTP : Signal := 20
def SIGTTIN : Signal := 21
def SIGTTOU : Signal := 22
def SIGURG : Signal := 23
def SIGWINCH : Signal := 28
def SIGSYS : Signal := 31

end Signal

inductive DefaultAction where
  | ignore
  | cont
  | stop
  | terminate
  deriving DecidableEq

/-- The patterns `SIGNAL_IGNORE` and `SIGNAL_STOP`. -/
def Signal.defaultAction (signal : Signal) : DefaultAction :=
  if signal ∈ [SIGCHLD, SIGURG, SIGWINCH] then .ignore
  else if signal = SIGCONT then .cont
  else if signal ∈ [SIGSTOP, SIGTSTP, SIGTTIN, SIGTTOU] then .stop
  else .terminate

/-! ### Sets of signals -/

abbrev SigSet := BitVec 64

namespace SigSet

/-- The position of a signal's bit: the difference `signal - 1` wraps around, and only the low bits
of a shift distance count. -/
def bit (signal : Signal) : ℕ := (signal.val + 63) % 64

def ofSignal (signal : Signal) : SigSet := 1#64 <<< bit signal

def mask (set signals : SigSet) : SigSet := set ||| signals

def unmask (set signals : SigSet) : SigSet := set &&& ~~~ signals

def includes (set : SigSet) (signal : Signal) : Bool := set &&& ofSignal signal != 0#64

variable {set : SigSet} {signal : Signal}

theorem getLsbD_ofSignal (signal : Signal) (i : ℕ) :
    (ofSignal signal).getLsbD i = decide (bit signal = i) := by
  have hlt : bit signal < 64 := Nat.mod_lt _ (by decide)
  rw [ofSignal, ← BitVec.twoPow_eq, BitVec.getLsbD_twoPow, decide_eq_true hlt, Bool.true_and]

theorem includes_eq_getLsbD (set : SigSet) (signal : Signal) :
    includes set signal = set.getLsbD (bit signal) := by
  have hne : BitVec.twoPow 64 (bit signal) ≠ 0#64 := fun h => by
    have hbit := getLsbD_ofSignal signal (bit signal)
    rw [ofSignal, ← BitVec.twoPow_eq, h] at hbit
    simp at hbit
  rw [includes, ofSignal, ← BitVec.twoPow_eq, BitVec.and_twoPow]
  cases set.getLsbD (bit signal) with
  | false => rfl
  | true => exact bne_iff_ne.mpr hne

theorem mask_of_includes (h : includes set signal = true) : mask set (ofSignal signal) = set := by
  rw [includes_eq_getLsbD] at h
  refine BitVec.eq_of_getLsbD_eq fun i _ => ?_
  rw [mask, BitVec.getLsbD_or, getLsbD_ofSignal]
  by_cases hi : bit signal = i
  · rw [← hi, h, Bool.true_or]
  · rw [decide_eq_false hi, Bool.or_false]

theorem unmask_of_not_includes (h : includes set signal = false) :
    unmask set (ofSignal signal) = set := by
  rw [includes_eq_getLsbD] at h
  refine BitVec.eq_of_getLsbD_eq fun i hi64 => ?_
  rw [unmask, BitVec.getLsbD_and, BitVec.getLsbD_not, getLsbD_ofSignal, decide_eq_true hi64,
    Bool.true_and]
  by_cases hi : bit signal = i
  · rw [← hi, h, Bool.false_and]
  · rw [decide_eq_false hi, Bool.not_false, Bool.and_true]

theorem unmask_mask (set signals : SigSet) :
    unmask (mask set signals) signals = unmask set signals := by
  refine BitVec.eq_of_getLsbD_eq fun i _ => ?_
  simp only [unmask, mask, BitVec.getLsbD_and, BitVec.getLsbD_or, BitVec.getLsbD_not]
  cases signals.getLsbD i <;> simp

end SigSet

/-! ### Handlers and their frames -/

inductive SignalAction where
  | default
  | ignore
  | simpleHandler (handler : BitVec 64) (restorer : Option (BitVec 64)) (mask : SigSet)
      (siginfo : Bool)

/-- The registers that the code reads or writes. -/
structure TrapContext where
  pc : BitVec 64
  sp : BitVec 64
  ra : BitVec 64
  a0 : BitVec 64
  a1 : BitVec 64
  a2 : BitVec 64
  userMode : Bool := true
  interruptEnabled : Bool := true

/-- What is saved on the user stack when a handler starts. -/
structure Frame (φ : Type) where
  trapCtx : TrapContext
  fpuState : φ
  oldMask : SigSet
  before : SigSet

/-- What writing a frame to the user stack gives. -/
inductive Written where
  | done
  /-- An error; `touched` says that part of the frame has been written. -/
  | failed (errno : ℕ) (touched : Bool)

structure SignalLayout where
  savedDataSize : BitVec 64
  vdsoRtSigreturn : BitVec 64

def EFAULT : ℕ := 14

/-- The address of the next frame below a stack pointer. -/
def SignalLayout.savedDataAddr (lay : SignalLayout) (sp : BitVec 64) : BitVec 64 :=
  (sp - lay.savedDataSize) &&& ~~~ 15#64

def SignalLayout.overlap (lay : SignalLayout) (addr addr' : BitVec 64) : Bool :=
  decide (addr - addr' < lay.savedDataSize) || decide (addr' - addr < lay.savedDataSize)

def TrapContext.setUserCallFrame (ctx : TrapContext) (pc sp ra : BitVec 64)
    (args : List (BitVec 64)) : TrapContext :=
  { ctx with pc := pc, sp := sp, ra := ra, a0 := args.getD 0 ctx.a0, a1 := args.getD 1 ctx.a1
             a2 := args.getD 2 ctx.a2 }

/-! ### The signal list -/

structure Pending where
  signal : Signal
  before : SigSet

/-- A signal that has been dealt with. -/
structure Completion where
  before : SigSet
  after : SigSet

inductive ThreadPc where
  | user
  | handling
  | stopped
  | killed
  deriving DecidableEq

structure SignalThread (φ : Type) where
  mask : SigSet
  actions : Signal → SignalAction
  pending : List Pending := []
  trapCtx : TrapContext
  fpuState : φ
  frames : BitVec 64 → Option (Frame φ) := fun _ => none
  pc : ThreadPc := .user
  completed : List Completion := []

namespace SignalThread

variable {φ : Type}

def enqueue (s : SignalThread φ) (signal : Signal) : SignalThread φ :=
  { s with mask := s.mask.mask (SigSet.ofSignal signal)
           pending := { signal := signal, before := s.mask } :: s.pending }

def raise (s : SignalThread φ) (signal : Signal) : SignalThread φ :=
  match s.actions signal, signal.defaultAction with
  | .ignore, _ => s
  | .default, .ignore => s
  | _, _ => s.enqueue signal

/-- A frame is written over others. -/
def clobber (lay : SignalLayout) (s : SignalThread φ) (addr : BitVec 64) : SignalThread φ :=
  { s with frames := fun addr' => if lay.overlap addr addr' then none else s.frames addr' }

def enterHandler (lay : SignalLayout) (s : SignalThread φ) (p : Pending) (oldMask : SigSet)
    (handler : BitVec 64) (restorer : Option (BitVec 64)) (siginfo : Bool) : SignalThread φ :=
  let addr := lay.savedDataAddr s.trapCtx.sp
  let frame := { trapCtx := s.trapCtx, fpuState := s.fpuState, oldMask := oldMask
                 before := p.before }
  let args := [BitVec.ofNat 64 p.signal.val, 0#64, 0#64].take (if siginfo then 3 else 1)
  { s.clobber lay addr with
    frames := Function.update (s.clobber lay addr).frames addr (some frame)
    trapCtx := s.trapCtx.setUserCallFrame handler addr (restorer.getD lay.vdsoRtSigreturn) args }

def startHandler (lay : SignalLayout) (s : SignalThread φ) (p : Pending) (handler : BitVec 64)
    (restorer : Option (BitVec 64)) (mask : SigSet) (siginfo : Bool) :
    Written → SignalThread φ
  | .done =>
    let oldMask := s.mask
    let s := { s with mask := s.mask.mask mask }
    { s.enterHandler lay p oldMask handler restorer siginfo with pc := .user }
  | .failed errno touched =>
    let s := if touched then s.clobber lay (lay.savedDataAddr s.trapCtx.sp) else s
    s.raise (if errno = EFAULT then Signal.SIGSEGV else Signal.SIGSYS)

def complete (s : SignalThread φ) (before : SigSet) : SignalThread φ :=
  { s with completed := { before := before, after := s.mask } :: s.completed }

/-- The branch of `handle` for a signal without a handler. -/
def takeDefault (s : SignalThread φ) (p : Pending) : SignalThread φ :=
  let s := { s with mask := s.mask.unmask (SigSet.ofSignal p.signal) }
  match p.signal.defaultAction with
  | .ignore | .cont => s.complete p.before
  | .stop => { s.complete p.before with pc := .stopped }
  | .terminate => { s with pc := .killed }

def consume (lay : SignalLayout) (s : SignalThread φ) (p : Pending) (w : Written) :
    SignalThread φ :=
  match s.actions p.signal with
  | .simpleHandler handler restorer mask siginfo =>
    s.startHandler lay p handler restorer mask siginfo w
  | _ => s.takeDefault p

/-- One iteration of the loop in `handle`. -/
def iterate (lay : SignalLayout) (s : SignalThread φ) (w : Written) : SignalThread φ :=
  match MinHeap.pop Pending.signal s.pending with
  | none => { s with pc := .user }
  | some (p, rest) => { s with pending := rest }.consume lay p w

/-- `restore`, for a frame that can be read, and the end of `rt_sigreturn`. -/
def restore (s : SignalThread φ) (frame : Frame φ) : SignalThread φ :=
  if frame.trapCtx.userMode && frame.trapCtx.interruptEnabled then
    { s with trapCtx := frame.trapCtx, fpuState := frame.fpuState
             mask := frame.oldMask }.complete frame.before
  else { s with trapCtx := frame.trapCtx, pc := .killed }

end SignalThread

/-- What may happen next. -/
inductive SignalOp (φ : Type) where
  | raise (signal : Signal)
  | user (trapCtx : TrapContext) (fpuState : φ)
  | handle
  /-- One iteration of its loop; `w` is what writing a frame gives. -/
  | iterate (w : Written)
  | resume
  /-- `rt_sigreturn`; `readable` says that the memory at the stack pointer can be read. -/
  | sigreturn (readable : Bool)

namespace SignalThread

variable {φ : Type}

def run (lay : SignalLayout) (s : SignalThread φ) : SignalOp φ → SignalThread φ
  | .raise signal => s.raise signal
  | .user trapCtx fpuState => { s with trapCtx := trapCtx, fpuState := fpuState }
  | .handle => { s with pc := .handling }
  | .iterate w => s.iterate lay w
  | .resume => { s with pc := .handling }
  | .sigreturn readable =>
    match readable, s.frames s.trapCtx.sp with
    | true, some frame => s.restore frame
    | _, _ => { s with pc := .killed }

/-- When the operations are possible.  User code returns only through frames that have been saved
for it. -/
def Enabled (s : SignalThread φ) : SignalOp φ → Prop
  | .raise _ => True
  | .user _ _ | .handle => s.pc = .user
  | .iterate _ => s.pc = .handling
  | .resume => s.pc = .stopped
  | .sigreturn readable => s.pc = .user ∧ (readable = true → s.frames s.trapCtx.sp ≠ none)

end SignalThread

def signals (φ : Type) (lay : SignalLayout) (cond : SignalThread φ → SignalOp φ → Prop) :
    System (SignalThread φ) (SignalOp φ) Empty where
  init s := ∃ mask actions trapCtx fpuState, s = { mask := mask, actions := actions
                                                   trapCtx := trapCtx, fpuState := fpuState }
  allowed s op := s.Enabled op ∧ cond s op
  run s op := .ok (s.run lay op)

end Dlutos.Signals
