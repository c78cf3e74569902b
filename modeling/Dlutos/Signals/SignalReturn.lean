import Dlutos.Processes.ExitOnce
import Dlutos.Signals.SignalList

/-!
# Returning from a signal handler

`SignalList::restore` in `kernel/task/signal.rs` reads a frame from the memory of the process: the
trap context, which takes the place of the old one before it is checked, the FPU state and the mask.
When one of the reads or the check fails, `rt_sigreturn` in `syscall/procops.rs` ends the thread
with `force_kill`, and `Thread::real_run` in `thread.rs` still writes the error into the new trap
context before it sees that the thread is dead.

One thread `t` is followed while all other threads of `ProcessTree` exit, clone and wait as they
like.  Additions wrap around.  `frame`, `killed`, `signalled` and `returned` record what happened.
-/

namespace Dlutos.Signals

open ExceptLoop Transition Processes Function

/-! ### Frames in user memory -/

/-- The memory of a process, with nothing where a page fault is not resolved. -/
abbrev UserMemory := BitVec 64 → Option (BitVec 8)

def readUser (mem : UserMemory) (addr : BitVec 64) (len : ℕ) : Except ℕ (List (BitVec 8)) :=
  if userPointer addr.toNat len then
    match (List.range len).mapM fun i => mem (addr + BitVec.ofNat 64 i) with
    | some bytes => .ok bytes
    | none => .error EFAULT
  else .error EFAULT

def wordAt (bytes : List (BitVec 8)) (i : ℕ) : BitVec 64 :=
  ((bytes.drop (8 * i)).take 8).foldr (fun byte word => word <<< 8 ||| byte.setWidth 64) 0#64

/-- `size_of::<TrapContext>()`: 31 registers, `sstatus`, `sepc`, `scause` and `stval`. -/
def trapContextSize : ℕ := 288

def fpuStateSize : ℕ := 264

/-- What the signal list saves and restores without looking at it. -/
structure OtherState where
  /-- The words of the trap context that are not in `TrapContext`, and `sstatus`. -/
  words : List (BitVec 64)
  f : List (BitVec 64)
  fcsr : BitVec 32

/-- The registers of a trap context; bit 8 of `sstatus` is `spp` and bit 5 is `spie`. -/
def TrapContext.ofBytes (bytes : List (BitVec 8)) : TrapContext where
  ra := wordAt bytes 1
  sp := wordAt bytes 2
  a0 := wordAt bytes 4
  a1 := wordAt bytes 5
  a2 := wordAt bytes 6
  pc := wordAt bytes 32
  userMode := !(wordAt bytes 31).getLsbD 8
  interruptEnabled := (wordAt bytes 31).getLsbD 5

def otherWords (bytes : List (BitVec 8)) : List (BitVec 64) :=
  ([0, 3] ++ List.range' 7 25 ++ [33, 34]).map (wordAt bytes)

structure UserContext where
  trapCtx : TrapContext
  other : OtherState
  mask : SigSet

def frameAt (mem : UserMemory) (sp : BitVec 64) : Option UserContext :=
  match readUser mem sp trapContextSize,
    readUser mem (sp + BitVec.ofNat 64 trapContextSize) fpuStateSize,
    readUser mem (sp + BitVec.ofNat 64 (trapContextSize + fpuStateSize)) 8 with
  | .ok ctx, .ok fpu, .ok mask =>
    some { trapCtx := .ofBytes ctx
           other := { words := otherWords ctx, f := (List.range 32).map (wordAt fpu)
                      fcsr := (wordAt fpu 32).setWidth 32 }
           mask := wordAt mask 0 }
  | _, _, _ => none

namespace SignalThread

variable {s : SignalThread OtherState}

def context (s : SignalThread OtherState) : UserContext where
  trapCtx := s.trapCtx
  other := s.fpuState
  mask := s.mask

/-- `restore`.  What was read before an error stays. -/
def restoreFrom (s : SignalThread OtherState) (mem : UserMemory) :
    Except ℕ Unit × SignalThread OtherState :=
  let sp := s.trapCtx.sp
  match readUser mem sp trapContextSize with
  | .error e => (.error e, s)
  | .ok ctx =>
    let s := { s with trapCtx := .ofBytes ctx
                      fpuState := { s.fpuState with words := otherWords ctx } }
    if !s.trapCtx.userMode || !s.trapCtx.interruptEnabled then (.error EFAULT, s) else
    match readUser mem (sp + BitVec.ofNat 64 trapContextSize) fpuStateSize with
    | .error e => (.error e, s)
    | .ok fpu =>
      let s := { s with fpuState := { s.fpuState with f := (List.range 32).map (wordAt fpu)
                                                      fcsr := (wordAt fpu 32).setWidth 32 } }
      match readUser mem (sp + BitVec.ofNat 64 (trapContextSize + fpuStateSize)) 8 with
      | .error e => (.error e, s)
      | .ok mask => (.ok (), { s with mask := wordAt mask 0 })

/-- The end of a system call that has failed: `set_user_return_value` and the next instruction. -/
def setError (s : SignalThread OtherState) (errno : ℕ) : SignalThread OtherState :=
  { s with trapCtx := { s.trapCtx with a0 := - BitVec.ofNat 64 errno, pc := s.trapCtx.pc + 4 } }

theorem restoreFrom_ok {mem : UserMemory} {s' : SignalThread OtherState}
    (h : s.restoreFrom mem = (.ok (), s')) :
    s'.trapCtx.userMode = true ∧ s'.trapCtx.interruptEnabled = true ∧ s'.pending = s.pending ∧
      frameAt mem s.trapCtx.sp = some s'.context := by
  unfold restoreFrom at h
  simp only at h
  unfold frameAt
  cases hctx : readUser mem s.trapCtx.sp trapContextSize with
  | error e => simp [hctx] at h
  | ok ctx =>
    simp only [hctx] at h
    split_ifs at h with hmode
    · simp at h
    · cases hfpu : readUser mem (s.trapCtx.sp + BitVec.ofNat 64 trapContextSize) fpuStateSize with
      | error e => simp [hfpu] at h
      | ok fpu =>
        cases hmask : readUser mem
            (s.trapCtx.sp + BitVec.ofNat 64 (trapContextSize + fpuStateSize)) 8 with
        | error e => simp [hfpu, hmask] at h
        | ok mask =>
          simp only [hfpu, hmask, Prod.mk.injEq, true_and] at h
          subst h
          rw [Bool.or_eq_true, not_or, Bool.not_eq_true', Bool.not_eq_false, Bool.not_eq_true',
            Bool.not_eq_false] at hmode
          exact ⟨hmode.1, hmode.2, rfl, rfl⟩

theorem raise_trapCtx (signal : Signal) : (s.raise signal).trapCtx = s.trapCtx := by
  unfold raise
  split <;> rfl

theorem iterate_mode (lay : SignalLayout) (w : Written) :
    (s.iterate lay w).trapCtx.userMode = s.trapCtx.userMode ∧
      (s.iterate lay w).trapCtx.interruptEnabled = s.trapCtx.interruptEnabled := by
  unfold iterate consume
  split
  · exact ⟨rfl, rfl⟩
  · split
    · cases w with
      | done => exact ⟨rfl, rfl⟩
      | failed errno touched =>
        simp only [startHandler, raise_trapCtx]
        split <;> exact ⟨rfl, rfl⟩
    · unfold takeDefault
      dsimp only
      split <;> exact ⟨rfl, rfl⟩

end SignalThread

/-! ### The loop of a thread -/

inductive Stage where
  | user
  /-- in `rt_sigreturn`, before `restore` -/
  | entered
  /-- in `force_kill`, about to lock the process list; `rt_sigreturn` then fails with `errno` -/
  | killing (errno : Option ℕ)
  | loop
  | handling
  /-- after `handle` -/
  | leaving
  | ended
  deriving DecidableEq

/-- All processes, and the thread that is followed. -/
structure Returning where
  tree : ProcessTree
  thread : SignalThread OtherState
  stage : Stage := .user
  /-- The memory and the stack pointer in the last call of `restore`. -/
  frame : UserMemory × BitVec 64 := (fun _ => none, 0#64)
  /-- The thread has come to `force_kill`. -/
  killed : Bool := false
  /-- A signal was pending when `rt_sigreturn` began, or was raised before the thread returned. -/
  signalled : Bool := false
  returned : Option UserContext := none

/-- What may happen next. -/
inductive ReturnOp where
  /-- Other threads, or other system calls of the thread. -/
  | tree (op : TreeOp)
  | raise (signal : Signal)
  | sigreturn (trapCtx : TrapContext) (other : OtherState)
  | restore (mem : UserMemory)
  | forceKill (signals : Bool)
  | test
  | iterate (w : Written)
  | resume
  /-- The second test, and `trap_return`. -/
  | leave

namespace Returning

/-- `force_kill` begins. -/
def kill (t : ℕ) (s : Returning) (thread : SignalThread OtherState) (signal : Signal)
    (errno : Option ℕ) : Except ExitPanic Returning := do
  let tree ← s.tree.run (.exit t (.signaled signal.val) false)
  pure { s with tree := tree, thread := thread, stage := .killing errno, killed := true }

/-- What the operations do.  The memory of a process without `MMList` cannot be read. -/
def run (t : ℕ) (lay : SignalLayout) (s : Returning) : ReturnOp → Except ExitPanic Returning
  | .tree op => do pure { s with tree := ← s.tree.run op }
  | .raise signal =>
    pure { s with thread := s.thread.raise signal
                  signalled := s.signalled || !(s.stage matches .user) }
  | .sigreturn trapCtx other =>
    pure { s with thread := { s.thread with trapCtx := trapCtx, fpuState := other }
                  stage := .entered, signalled := !s.thread.pending.isEmpty }
  | .restore mem => do
    let sp := s.thread.trapCtx.sp
    assertOr (userPointer sp.toNat trapContextSize = true → s.tree.mm (s.tree.process t) = true)
      .missingMm
    let s := { s with frame := (mem, sp) }
    match s.thread.restoreFrom mem with
    | (.ok (), thread) => pure { s with thread := thread, stage := .loop }
    | (.error e, thread) => s.kill t thread Signal.SIGSEGV (some e)
  | .forceKill signals => do
    let tree ← s.tree.run (.doExit t signals)
    match s.stage with
    | .killing (some e) =>
      pure { s with tree := tree, thread := s.thread.setError e, stage := .loop }
    | _ => pure { s with tree := tree, stage := .leaving }
  | .test =>
    pure (if s.tree.dead t then { s with stage := .ended }
      else if s.thread.pending.isEmpty then { s with stage := .leaving }
      else { s with thread := { s.thread with pc := .handling }, stage := .handling })
  | .iterate w =>
    let thread := s.thread.iterate lay w
    match thread.pc, MinHeap.pop Pending.signal s.thread.pending with
    | .user, _ => pure { s with thread := thread, stage := .leaving }
    | .killed, some (p, _) => s.kill t thread p.signal none
    | _, _ => pure { s with thread := thread }
  | .resume => pure { s with thread := { s.thread with pc := .handling } }
  | .leave =>
    pure (if s.tree.dead t then { s with stage := .ended }
      else { s with stage := .user, returned := some s.thread.context })

def Enabled (t : ℕ) (s : Returning) : ReturnOp → Prop
  | .tree op => s.tree.Enabled op ∧ (op.thread = t → s.stage = .user ∨ s.stage = .ended)
  | .raise _ => True
  | .sigreturn _ _ => s.stage = .user ∧ s.tree.pc t = .running
  | .restore _ => s.stage = .entered
  | .forceKill _ => ∃ errno, s.stage = .killing errno
  | .test => s.stage = .loop
  | .iterate _ => s.stage = .handling ∧ s.thread.pc = .handling
  | .resume => s.stage = .handling ∧ s.thread.pc = .stopped
  | .leave => s.stage = .leaving

/-- When the thread reads the frame its process has its `MMList`, and all threads exit in order. -/
def Orderly (t : ℕ) (s : Returning) : ReturnOp → Prop
  | .tree op => s.tree.Orderly op
  | .restore _ => userPointer s.thread.trapCtx.sp.toNat trapContextSize = true →
      s.tree.mm (s.tree.process t) = true
  | .forceKill signals => s.tree.Orderly (.doExit t signals)
  | _ => True

end Returning

/-- The thread `t` among all others as a system; `cond` restricts the operations. -/
def signalReturns (t : ℕ) (lay : SignalLayout) (cond : Returning → ReturnOp → Prop) :
    System Returning ReturnOp ExitPanic where
  init s := ∃ thread, s = { tree := .boot, thread := thread }
  allowed s op := s.Enabled t op ∧ cond s op
  run := Returning.run t lay

namespace Returning

/-! ### What holds at each stage -/

variable {t : ℕ} {lay : SignalLayout} {s : Returning}

/-- User mode is selected and interrupts are enabled; without signals the context is that of the
frame. -/
def Safe (s : Returning) (ctx : UserContext) : Prop :=
  ctx.trapCtx.userMode = true ∧ ctx.trapCtx.interruptEnabled = true ∧
    (s.signalled = false → frameAt s.frame.1 s.frame.2 = some ctx)

def AtStage (t : ℕ) (s : Returning) : Stage → Prop
  | .user => s.killed = false ∧ ∀ ctx, s.returned = some ctx → s.Safe ctx
  | .entered => s.killed = false ∧ s.tree.pc t = .running ∧
      (s.signalled = false → s.thread.pending = [])
  | .killing _ => s.killed = true ∧ ∃ code, s.tree.pc t = .exiting code false
  | .handling => s.killed = false ∧ s.tree.pc t = .running ∧ s.signalled = true ∧
      s.Safe s.thread.context
  | .loop | .leaving =>
    if s.killed = true then s.tree.dead t = true
    else s.tree.pc t = .running ∧ s.Safe s.thread.context ∧
      (s.signalled = false → s.thread.pending = [])
  | .ended => s.tree.dead t = true

structure ReturnInv (t : ℕ) (s : Returning) : Prop where
  tree : s.tree.TreeInv
  marked : s.tree.Marked
  stage : s.AtStage t s.stage

theorem AtStage.tree {tree : ProcessTree} {op : TreeOp} (hk : s.tree.Kept tree op)
    (hop : op.thread = t → s.stage = .user ∨ s.stage = .ended) (h : s.AtStage t s.stage) :
    AtStage t { s with tree := tree } s.stage := by
  have hpc : ∀ pc, s.tree.pc t = pc → pc ≠ .unborn → op.thread ≠ t → tree.pc t = pc :=
    fun pc hpc hborn hne => (hk.pc t (by rwa [hpc]) hne).trans hpc
  cases hstage : s.stage with
  | user =>
    rw [hstage] at h
    exact h
  | ended =>
    rw [hstage] at h
    exact hk.dead t h
  | entered =>
    rw [hstage] at h hop
    exact ⟨h.1, hpc _ h.2.1 nofun fun ht => by simpa using hop ht, h.2.2⟩
  | killing errno =>
    rw [hstage] at h hop
    obtain ⟨hkilled, code, ht⟩ := h
    exact ⟨hkilled, code, hpc _ ht nofun fun ht => by simpa using hop ht⟩
  | handling =>
    rw [hstage] at h hop
    exact ⟨h.1, hpc _ h.2.1 nofun fun ht => by simpa using hop ht, h.2.2⟩
  | loop | leaving =>
    rw [hstage] at h hop
    simp only [AtStage] at h ⊢
    split_ifs at h ⊢ with hkilled
    · exact hk.dead t h
    · exact ⟨hpc _ h.1 nofun fun ht => by simpa using hop ht, h.2⟩

theorem ReturnInv.kill (hi : s.ReturnInv t) (ht : s.tree.pc t = .running)
    (thread : SignalThread OtherState) (signal : Signal) (errno : Option ℕ) :
    ∃ s', s.kill t thread signal errno = .ok s' ∧ s'.ReturnInv t := by
  obtain ⟨tree, hrun, htree, hk⟩ := hi.tree.kept (.exit t (.signaled signal.val) false)
    ⟨ht, rfl⟩ trivial
  refine ⟨{ s with tree := tree, thread := thread, stage := .killing errno, killed := true },
    by rw [Returning.kill, hrun]; rfl, htree, hk.marked hi.marked, rfl, .signaled signal.val, ?_⟩
  cases hrun
  exact update_self _ _ _

theorem ReturnInv.forceKill (hi : s.ReturnInv t) {errno : Option ℕ} (hs : s.stage = .killing errno)
    {signals : Bool} (hc : s.tree.Orderly (.doExit t signals)) :
    ∃ s', s.run t lay (.forceKill signals) = .ok s' ∧ s'.ReturnInv t := by
  have hstage := hi.stage
  rw [hs] at hstage
  obtain ⟨hkilled, code, ht⟩ := hstage
  obtain ⟨tree, hrun, htree, hk⟩ := hi.tree.kept (.doExit t signals) ⟨_, _, ht⟩ hc
  obtain ⟨_, hrun', -, hexit⟩ := hi.tree.doExit ht signals hc
  cases Except.ok.inj (hrun'.symm.trans hrun)
  have hmarked := hk.marked hi.marked
  -- the thread has ended, so that it does not belong to its process
  have hpc : tree.pc t = .ended := by rw [hexit.pc, update_self]
  have hdead : tree.dead t = true := by
    refine (hmarked t (by rw [hpc]; nofun)).resolve_right fun hmem => ?_
    have hactive := (htree.roster.member _ t hmem).2.2.2.1
    rw [hpc] at hactive
    cases hactive
  simp only [run, hrun, ok_bind, hs]
  cases errno with
  | none => exact ⟨_, rfl, htree, hmarked, (if_pos hkilled).mpr hdead⟩
  | some e => exact ⟨_, rfl, htree, hmarked, (if_pos hkilled).mpr hdead⟩

theorem ReturnInv.restore (hi : s.ReturnInv t) (hs : s.stage = .entered) {mem : UserMemory}
    (hc : userPointer s.thread.trapCtx.sp.toNat trapContextSize = true →
      s.tree.mm (s.tree.process t) = true) :
    ∃ s', s.run t lay (.restore mem) = .ok s' ∧ s'.ReturnInv t := by
  have hstage := hi.stage
  rw [hs] at hstage
  obtain ⟨hkilled, ht, hquiet⟩ := hstage
  simp only [run, assertOr_true _ hc, ok_bind]
  rcases hrestore : s.thread.restoreFrom mem with ⟨e | u, thread⟩
  · have hi' : ReturnInv t { s with frame := (mem, s.thread.trapCtx.sp) } :=
      ⟨hi.tree, hi.marked, by rw [hs]; exact ⟨hkilled, ht, hquiet⟩⟩
    exact hi'.kill ht thread Signal.SIGSEGV (some e)
  · obtain ⟨huser, henabled, hpending, hframe⟩ := SignalThread.restoreFrom_ok hrestore
    refine ⟨_, rfl, hi.tree, hi.marked, (if_neg (by simp [hkilled])).mpr ⟨ht, ?_, ?_⟩⟩
    · exact ⟨huser, henabled, fun _ => hframe⟩
    · exact fun h => hpending.trans (hquiet h)

theorem ReturnInv.raise (hi : s.ReturnInv t) (signal : Signal) :
    ∃ s', s.run t lay (.raise signal) = .ok s' ∧ s'.ReturnInv t := by
  refine ⟨_, rfl, hi.tree, hi.marked, ?_⟩
  have h := hi.stage
  have hctx : s.Safe s.thread.context → Safe { s with signalled := true }
      (s.thread.raise signal).context := fun h => by
    refine ⟨?_, ?_, nofun⟩ <;> simp only [SignalThread.context, SignalThread.raise_trapCtx]
    · exact h.1
    · exact h.2.1
  cases hs : s.stage with
  | user =>
    simp only [hs, Bool.not_true, Bool.or_false] at h ⊢
    exact h
  | ended | killing errno =>
    rw [hs] at h
    exact h
  | entered =>
    rw [hs] at h
    exact ⟨h.1, h.2.1, fun hno => by simp at hno⟩
  | handling =>
    rw [hs] at h
    simp only [Bool.not_false, Bool.or_true]
    exact ⟨h.1, h.2.1, rfl, hctx h.2.2.2⟩
  | loop | leaving =>
    rw [hs] at h
    simp only [AtStage, Bool.not_false, Bool.or_true] at h ⊢
    split_ifs at h ⊢ with hkilled
    · exact h
    · exact ⟨h.1, hctx h.2.1, nofun⟩

theorem ReturnInv.run (hi : s.ReturnInv t) (op : ReturnOp) (he : s.Enabled t op)
    (hc : s.Orderly t op) : ∃ s', s.run t lay op = .ok s' ∧ s'.ReturnInv t := by
  have h := hi.stage
  cases op with
  | tree op =>
    obtain ⟨tree, hrun, htree, hk⟩ := hi.tree.kept op he.1 hc
    exact ⟨_, by rw [Returning.run, hrun]; rfl, htree, hk.marked hi.marked, h.tree hk he.2⟩
  | raise signal => exact hi.raise signal
  | sigreturn trapCtx other =>
    rw [he.1] at h
    exact ⟨_, rfl, hi.tree, hi.marked, h.1, he.2, fun hno => by simpa using hno⟩
  | restore mem => exact hi.restore he hc
  | forceKill signals =>
    obtain ⟨errno, hs⟩ := he
    exact hi.forceKill hs hc
  | test =>
    rw [show s.stage = .loop from he] at h
    refine ⟨_, rfl, ?_⟩
    simp only [AtStage] at h
    split_ifs with hdead hpending
    · exact ⟨hi.tree, hi.marked, hdead⟩
    · exact ⟨hi.tree, hi.marked, h⟩
    · split_ifs at h with hkilled
      · exact absurd h hdead
      · refine ⟨hi.tree, hi.marked, by simpa using hkilled, h.1, ?_, h.2.1⟩
        by_contra hno
        exact hpending (by rw [h.2.2 (by simpa using hno)]; rfl)
  | iterate w =>
    rw [he.1] at h
    obtain ⟨hkilled, ht, hsig, huser, henabled, -⟩ := h
    obtain ⟨hmode, hirq⟩ := SignalThread.iterate_mode (s := s.thread) lay w
    have hsafe : ∀ thread, s.thread.iterate lay w = thread → s.Safe thread.context := by
      rintro _ rfl
      exact ⟨hmode.trans huser, hirq.trans henabled, fun hno => by rw [hsig] at hno; cases hno⟩
    simp only [Returning.run]
    split
    · refine ⟨_, rfl, hi.tree, hi.marked, (if_neg (by simp [hkilled])).mpr ⟨ht, hsafe _ rfl, ?_⟩⟩
      exact fun hno => by rw [hsig] at hno; cases hno
    · exact hi.kill ht _ _ none
    · refine ⟨_, rfl, hi.tree, hi.marked, ?_⟩
      rw [he.1]
      exact ⟨hkilled, ht, hsig, hsafe _ rfl⟩
  | resume => exact ⟨_, rfl, hi.tree, hi.marked, h⟩
  | leave =>
    rw [show s.stage = .leaving from he] at h
    refine ⟨_, rfl, ?_⟩
    simp only [AtStage] at h
    split_ifs with hdead
    · exact ⟨hi.tree, hi.marked, hdead⟩
    · split_ifs at h with hkilled
      · exact absurd h hdead
      · exact ⟨hi.tree, hi.marked, by simpa using hkilled,
          fun ctx hctx => Option.some.inj hctx ▸ h.2.1⟩

/-- A thread in `force_kill` is dead as soon as it gets the lock, and what it last returned with is
safe. -/
structure ReturnSafe (t : ℕ) (s : Returning) : Prop where
  killed : s.killed = true → s.stage ≠ .user ∧
    (s.tree.dead t = true ∨ ∃ errno, s.stage = .killing errno)
  returned : s.stage = .user → ∀ ctx, s.returned = some ctx → s.Safe ctx

theorem ReturnInv.returnSafe (hi : s.ReturnInv t) : s.ReturnSafe t := by
  have h := hi.stage
  refine ⟨fun hkilled => ?_, fun hs => ?_⟩
  · cases hs : s.stage with
    | user | entered | handling =>
      rw [hs] at h
      rw [h.1] at hkilled
      cases hkilled
    | killing errno => exact ⟨nofun, Or.inr ⟨errno, rfl⟩⟩
    | ended =>
      rw [hs] at h
      exact ⟨nofun, Or.inl h⟩
    | loop | leaving =>
      rw [hs] at h
      exact ⟨nofun, Or.inl ((if_pos hkilled).mp h)⟩
  · rw [hs] at h
    exact h.2

/-- A thread in user code with this stack pointer. -/
def entry (sp : BitVec 64) : TrapContext where
  pc := 0
  sp := sp
  ra := 0
  a0 := 0
  a1 := 0
  a2 := 0

def layout : SignalLayout where
  savedDataSize := 560
  vdsoRtSigreturn := 0

def quietThread : SignalThread OtherState where
  mask := 0
  actions := fun _ => .default
  trapCtx := entry 0
  fpuState := { words := [], f := [], fcsr := 0 }

end Returning

end Dlutos.Signals
