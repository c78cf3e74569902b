import Dlutos.Signals.SignalList

/-!
# The mask while signals are handled

`raise` blocks the signal, whether it was blocked before or not.  A frame saves the mask with this
signal in it, so that the return from the handler does not undo the raise, and a default action
takes the signal out of the mask even if it was there before.
-/

namespace Dlutos.Signals

open Transition

namespace SignalThread

variable {φ : Type} {s : SignalThread φ}

/-- The signal is blocked if it has a handler.  If it has a default action that lets the thread
live, it is not blocked, and it is the only one.  Otherwise its raise does not change the mask that
others were raised with. -/
def RaisesSteady (s : SignalThread φ) (signal : Signal) : Prop :=
  match s.actions signal, signal.defaultAction with
  | .ignore, _ => True
  | .simpleHandler _ _ _ _, _ => s.mask.includes signal = true
  | .default, .ignore => True
  | .default, .terminate => s.pending = [] ∨ s.mask.includes signal = true
  | .default, _ => s.pending = [] ∧ s.mask.includes signal = false

/-- The signal that has just been taken out of the heap is consumed without a change of the mask,
unless it was the last one.  When no frame can be written, the signal that is raised for it meets
the condition of raises. -/
def ConsumesSteady (s : SignalThread φ) (p : Pending) (w : Written) : Prop :=
  match s.actions p.signal, w with
  | .simpleHandler _ _ mask _, .done => s.pending = [] ∨ s.mask.mask mask = s.mask
  | .simpleHandler _ _ _ _, .failed errno _ =>
    s.RaisesSteady (if errno = EFAULT then Signal.SIGSEGV else Signal.SIGSYS)
  | _, _ =>
    p.signal.defaultAction = .terminate ∨ s.pending = [] ∨ s.mask.includes p.signal = false

def Steady (s : SignalThread φ) : SignalOp φ → Prop
  | .raise signal => s.RaisesSteady signal
  | .iterate w => ∀ p rest, MinHeap.pop Pending.signal s.pending = some (p, rest) →
      { s with pending := rest }.ConsumesSteady p w
  | .sigreturn _ => ∀ frame, s.frames s.trapCtx.sp = some frame →
      s.pending = [] ∨ frame.oldMask = s.mask
  | _ => True

def Balanced (s : SignalThread φ) (p : Pending) : Prop :=
  match s.actions p.signal with
  | .simpleHandler _ _ _ _ => p.before = s.mask
  | _ => p.signal.defaultAction = .terminate ∨
      p.before = s.mask.unmask (SigSet.ofSignal p.signal)

/-- All frames and pending signals lead back to the right mask, and all completed signals did so. -/
structure Inv (s : SignalThread φ) : Prop where
  frames : ∀ addr frame, s.frames addr = some frame → frame.before = frame.oldMask
  pending : s.pc ≠ .killed → ∀ p ∈ s.pending, s.Balanced p
  completed : ∀ c ∈ s.completed, c.before = c.after

variable {p : Pending}

theorem Balanced.of_eq {s' : SignalThread φ} (h : s.Balanced p) (hmask : s'.mask = s.mask)
    (hactions : s'.actions = s.actions) : s'.Balanced p := by
  unfold Balanced at h ⊢
  rwa [hmask, hactions]

section

variable (hi : s.Inv)
include hi

theorem Inv.enqueue {signal : Signal}
    (hnew : (s.enqueue signal).Balanced { signal := signal, before := s.mask })
    (hold : s.pending = [] ∨ s.mask.includes signal = true) : (s.enqueue signal).Inv where
  frames := hi.frames
  completed := hi.completed
  pending hpc p hp := by
    rcases List.mem_cons.mp hp with rfl | hp
    · exact hnew
    · have hin : s.mask.includes signal = true :=
        hold.resolve_left fun hnil => List.not_mem_nil (hnil ▸ hp)
      exact (hi.pending hpc p hp).of_eq (SigSet.mask_of_includes hin) rfl

theorem Inv.raise {signal : Signal} (hc : s.RaisesSteady signal) :
    (s.raise signal).Inv := by
  unfold SignalThread.raise
  unfold RaisesSteady at hc
  cases hact : s.actions signal with
  | ignore => exact hi
  | simpleHandler handler restorer mask siginfo =>
    rw [hact] at hc
    refine hi.enqueue ?_ (Or.inr hc)
    unfold Balanced
    rw [show (s.enqueue signal).actions signal = _ from hact]
    exact (SigSet.mask_of_includes hc).symm
  | default =>
    rw [hact] at hc
    have hbalanced : (signal.defaultAction = .terminate ∨
        s.mask = (s.enqueue signal).mask.unmask (SigSet.ofSignal signal)) →
        (s.enqueue signal).Balanced { signal := signal, before := s.mask } := fun h => by
      unfold Balanced
      rwa [show (s.enqueue signal).actions signal = _ from hact]
    have hunmask : s.mask.includes signal = false →
        s.mask = (s.enqueue signal).mask.unmask (SigSet.ofSignal signal) := fun h => by
      rw [SignalThread.enqueue, SigSet.unmask_mask, SigSet.unmask_of_not_includes h]
    cases hdef : signal.defaultAction with
    | ignore => exact hi
    | terminate =>
      rw [hdef] at hc
      exact hi.enqueue (hbalanced (Or.inl hdef)) hc
    | cont =>
      rw [hdef] at hc
      exact hi.enqueue (hbalanced (Or.inr (hunmask hc.2))) (Or.inl hc.1)
    | stop =>
      rw [hdef] at hc
      exact hi.enqueue (hbalanced (Or.inr (hunmask hc.2))) (Or.inl hc.1)

theorem Inv.clobber (lay : SignalLayout) (addr : BitVec 64) :
    (s.clobber lay addr).Inv where
  frames addr' frame h := by
    have h : (if lay.overlap addr addr' then none else s.frames addr') = some frame := h
    split_ifs at h
    exact hi.frames addr' frame h
  pending hpc p hp := (hi.pending hpc p hp).of_eq rfl rfl
  completed := hi.completed

theorem Inv.enterHandler (hp : p.before = s.mask) {mask : SigSet}
    (hc : s.pending = [] ∨ s.mask.mask mask = s.mask) (lay : SignalLayout) (handler : BitVec 64)
    (restorer : Option (BitVec 64)) (siginfo : Bool) (hpc : s.pc ≠ .killed) :
    (s.startHandler lay p handler restorer mask siginfo .done).Inv where
  frames addr frame h := by
    have h : Function.update (s.clobber lay (lay.savedDataAddr s.trapCtx.sp)).frames
        (lay.savedDataAddr s.trapCtx.sp) (some _) addr = some frame := h
    by_cases haddr : addr = lay.savedDataAddr s.trapCtx.sp
    · rw [haddr, Function.update_self] at h
      obtain rfl := Option.some.inj h
      exact hp
    · rw [Function.update_of_ne haddr] at h
      exact (hi.clobber lay _).frames addr frame h
  pending _ q hq := by
    have hq : q ∈ s.pending := hq
    have hmask : s.mask.mask mask = s.mask :=
      hc.resolve_left fun hnil => List.not_mem_nil (hnil ▸ hq)
    exact (hi.pending hpc q hq).of_eq hmask rfl
  completed := hi.completed

theorem Inv.takeDefault
    (hp : p.signal.defaultAction = .terminate ∨ p.before = s.mask.unmask (SigSet.ofSignal p.signal))
    (hc : p.signal.defaultAction = .terminate ∨ s.pending = [] ∨ s.mask.includes p.signal = false)
    (hpc : s.pc ≠ .killed) : (s.takeDefault p).Inv := by
  unfold SignalThread.takeDefault
  have hlives : p.signal.defaultAction ≠ .terminate → ∀ pc,
      ({ ({ s with mask := s.mask.unmask (SigSet.ofSignal p.signal) }).complete p.before with
        pc := pc } : SignalThread φ).Inv := fun hne pc => by
    refine ⟨hi.frames, fun _ q hq => ?_, fun c hmem => ?_⟩
    · have hq : q ∈ s.pending := hq
      have hnot : s.mask.includes p.signal = false :=
        (hc.resolve_left hne).resolve_left fun hnil => List.not_mem_nil (hnil ▸ hq)
      exact (hi.pending hpc q hq).of_eq (SigSet.unmask_of_not_includes hnot) rfl
    · rcases List.mem_cons.mp hmem with rfl | hmem
      · exact hp.resolve_left hne
      · exact hi.completed c hmem
  cases hdef : p.signal.defaultAction with
  | ignore => exact hlives (by rw [hdef]; nofun) _
  | cont => exact hlives (by rw [hdef]; nofun) _
  | stop => exact hlives (by rw [hdef]; nofun) _
  | terminate => exact ⟨hi.frames, fun hne => absurd rfl hne, hi.completed⟩

theorem Inv.consume (hp : s.Balanced p) {w : Written} (hc : s.ConsumesSteady p w)
    (lay : SignalLayout) (hpc : s.pc ≠ .killed) : (s.consume lay p w).Inv := by
  unfold SignalThread.consume
  unfold Balanced at hp
  unfold ConsumesSteady at hc
  cases hact : s.actions p.signal with
  | simpleHandler handler restorer mask siginfo =>
    rw [hact] at hp hc
    cases w with
    | done => exact hi.enterHandler hp hc lay handler restorer siginfo hpc
    | failed errno touched =>
      cases touched with
      | false => exact hi.raise hc
      | true => exact (hi.clobber lay _).raise hc
  | default =>
    rw [hact] at hp hc
    exact hi.takeDefault hp hc hpc
  | ignore =>
    rw [hact] at hp hc
    exact hi.takeDefault hp hc hpc

theorem Inv.iterate {w : Written} (hc : s.Steady (.iterate w)) (lay : SignalLayout)
    (hpc : s.pc ≠ .killed) : (s.iterate lay w).Inv := by
  unfold SignalThread.iterate
  cases hpop : MinHeap.pop Pending.signal s.pending with
  | none => exact ⟨hi.frames, fun _ p hp => (hi.pending hpc p hp).of_eq rfl rfl, hi.completed⟩
  | some pr =>
    obtain ⟨p, rest⟩ := pr
    obtain ⟨hperm, -⟩ := MinHeap.pop_eq_some hpop
    have hrest : ({ s with pending := rest } : SignalThread φ).Inv :=
      ⟨hi.frames, fun _ q hq =>
        (hi.pending hpc q (hperm.mem_iff.mpr (List.mem_cons_of_mem p hq))).of_eq rfl rfl,
        hi.completed⟩
    have hp : ({ s with pending := rest } : SignalThread φ).Balanced p :=
      (hi.pending hpc p (hperm.mem_iff.mpr List.mem_cons_self)).of_eq rfl rfl
    exact hrest.consume hp (hc p rest hpop) lay hpc

theorem Inv.restore {frame : Frame φ} (hf : frame.before = frame.oldMask)
    (hc : s.pending = [] ∨ frame.oldMask = s.mask) (hpc : s.pc ≠ .killed) :
    (s.restore frame).Inv := by
  unfold SignalThread.restore
  split_ifs
  · refine ⟨hi.frames, fun _ p hp => ?_, fun c hmem => ?_⟩
    · have hp : p ∈ s.pending := hp
      have hmask : frame.oldMask = s.mask :=
        hc.resolve_left fun hnil => List.not_mem_nil (hnil ▸ hp)
      exact (hi.pending hpc p hp).of_eq hmask rfl
    · rcases List.mem_cons.mp hmem with rfl | hmem
      · exact hf
      · exact hi.completed c hmem
  · exact ⟨hi.frames, fun hne => absurd rfl hne, hi.completed⟩

theorem Inv.run {op : SignalOp φ} (he : s.Enabled op) (hc : s.Steady op)
    (lay : SignalLayout) : (s.run lay op).Inv := by
  have hpending : s.pc ≠ .killed → ∀ s' : SignalThread φ, s'.pending = s.pending →
      s'.mask = s.mask → s'.actions = s.actions → ∀ p ∈ s'.pending, s'.Balanced p :=
    fun hpc s' hpend hmask hactions p hp =>
      (hi.pending hpc p (hpend ▸ hp)).of_eq hmask hactions
  cases op with
  | raise signal => exact hi.raise hc
  | user trapCtx fpuState =>
    exact ⟨hi.frames, fun hpc => hpending hpc _ rfl rfl rfl, hi.completed⟩
  | handle =>
    have hpc : s.pc ≠ .killed := by rw [show s.pc = .user from he]; nofun
    exact ⟨hi.frames, fun _ => hpending hpc _ rfl rfl rfl, hi.completed⟩
  | iterate w =>
    have hpc : s.pc ≠ .killed := by rw [show s.pc = .handling from he]; nofun
    exact hi.iterate hc lay hpc
  | resume =>
    have hpc : s.pc ≠ .killed := by rw [show s.pc = .stopped from he]; nofun
    exact ⟨hi.frames, fun _ => hpending hpc _ rfl rfl rfl, hi.completed⟩
  | sigreturn readable =>
    have hpc : s.pc ≠ .killed := by rw [he.1]; nofun
    have hkilled : ({ s with pc := .killed } : SignalThread φ).Inv :=
      ⟨hi.frames, fun hne => absurd rfl hne, hi.completed⟩
    cases readable with
    | false => exact hkilled
    | true =>
      cases hframe : s.frames s.trapCtx.sp with
      | none => exact absurd hframe (he.2 rfl)
      | some frame =>
        simp only [SignalThread.run, hframe]
        exact hi.restore (hi.frames _ _ hframe) (hc frame hframe) hpc

end

end SignalThread

variable {φ : Type} {lay : SignalLayout}

/-- While the steps meet the condition, the mask after a handler or a default action is the one from
before the raise. -/
theorem maskRestored_of_reachable {s : SignalThread φ}
    (hs : (signals φ lay SignalThread.Steady).Reachable s) :
    ∀ c ∈ s.completed, c.before = c.after := by
  have hi : s.Inv := by
    refine Transition.Reachable.invariant ?_ (fun s t hi hst => ?_) hs
    · rintro s ⟨mask, actions, trapCtx, fpuState, rfl⟩
      exact ⟨nofun, nofun, nofun⟩
    · obtain ⟨op, ⟨he, hc⟩, hrun⟩ := hst
      obtain rfl : s.run lay op = t := Except.ok.inj hrun
      exact hi.run he hc lay
  exact hi.completed

def usrThread (mask : SigSet) : SignalThread Unit where
  mask := mask
  actions signal :=
    if signal = Signal.SIGUSR1 then .simpleHandler 0x1000#64 none 0x4#64 false
    else if signal = Signal.SIGUSR2 then .simpleHandler 0x2000#64 none 0x0#64 true
    else .default
  trapCtx := { pc := 0x100#64, sp := 0x8000#64, ra := 0#64, a0 := 0#64, a1 := 0#64, a2 := 0#64 }
  fpuState := ()

/-- The sizes of the runs below. -/
def usrLayout : SignalLayout where
  savedDataSize := 0x300#64
  vdsoRtSigreturn := 0x10000#64

theorem maskRestored_nested : ∃ s : SignalThread Unit, s.completed.length = 3 ∧
    s.mask = 0xa00#64 ∧ ∀ c ∈ s.completed, c.before = c.after := by
  have h0 : (signals Unit usrLayout SignalThread.Steady).Reachable (usrThread 0xa00#64) :=
    .of_init ⟨_, _, _, _, rfl⟩
  have h3 := h0.after [.raise Signal.SIGUSR1, .handle, .iterate .done]
    ⟨⟨trivial, rfl⟩, ⟨rfl, trivial⟩, ⟨rfl, fun p rest h => by cases h; exact Or.inl rfl⟩, trivial⟩
  -- The handler of `SIGUSR1` is interrupted.
  have h11 := h3.after [.raise Signal.SIGUSR2, .handle, .iterate .done, .sigreturn true,
    .sigreturn true, .raise Signal.SIGCONT, .handle, .iterate .done]
    ⟨⟨trivial, rfl⟩, ⟨rfl, trivial⟩, ⟨rfl, fun p rest h => by cases h; exact Or.inl rfl⟩,
     ⟨⟨rfl, fun _ => nofun⟩, fun _ _ => Or.inl rfl⟩, ⟨⟨rfl, fun _ => nofun⟩, fun _ _ => Or.inl rfl⟩,
     ⟨trivial, rfl, rfl⟩, ⟨rfl, trivial⟩,
     ⟨rfl, fun p rest h => by cases h; exact Or.inr (Or.inl rfl)⟩, trivial⟩
  exact ⟨_, rfl, rfl, maskRestored_of_reachable h11⟩

/-- A signal that was not blocked stays blocked after its handler; a blocked one is not after it has
stopped the thread. -/
theorem maskRestored_violated :
    (∃ s : SignalThread Unit, (signals Unit usrLayout fun _ _ => True).Reachable s ∧
      s.completed = [{ before := 0x0#64, after := 0x200#64 }]) ∧
    ∃ s : SignalThread Unit, (signals Unit usrLayout fun _ _ => True).Reachable s ∧
      s.completed = [{ before := 0x80000#64, after := 0x0#64 }] := by
  constructor
  · have h0 : (signals Unit usrLayout fun _ _ => True).Reachable (usrThread 0x0#64) :=
      .of_init ⟨_, _, _, _, rfl⟩
    have h1 := h0.next (.raise Signal.SIGUSR1) ⟨trivial, trivial⟩
    have h2 := h1.next .handle ⟨rfl, trivial⟩
    have h3 := h2.next (.iterate .done) ⟨rfl, trivial⟩
    have h4 := h3.next (.sigreturn true) ⟨⟨rfl, fun _ => nofun⟩, trivial⟩
    exact ⟨_, h4, rfl⟩
  · have h0 : (signals Unit usrLayout fun _ _ => True).Reachable (usrThread 0x80000#64) :=
      .of_init ⟨_, _, _, _, rfl⟩
    have h3 := h0.after [.raise Signal.SIGTSTP, .handle, .iterate .done]
      ⟨⟨trivial, trivial⟩, ⟨rfl, trivial⟩, ⟨rfl, trivial⟩, trivial⟩
    exact ⟨_, h3, rfl⟩

end Dlutos.Signals
