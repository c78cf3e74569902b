import Dlutos.Signals.StopAction
import Mathlib.Data.List.Count

/-!
# Resuming a stopped thread

`raise` wakes the thread for `SIGCONT` only, only if that signal is not ignored, and only if the
stop waker is already there.  So a thread that has taken a stop signal but not left its waker yet
misses `SIGCONT`, and `SIGKILL` never wakes a stopped thread.  In the runs without these raises a
thread that should go on does go on, and after `SIGKILL` it ends.
-/

namespace Dlutos.Signals

open Transition

/-- The signal is taken before `SIGKILL` or is this signal. -/
def Signal.upToKill (signal : Signal) : Bool := decide (signal ≤ Signal.SIGKILL)

variable {signal : Signal}

theorem Signal.defaultAction_of_upToKill (h : signal.upToKill = true) :
    signal.defaultAction = .terminate := by
  revert signal
  decide

def HandlePc.stops : HandlePc → Bool
  | .popped signal | .defaulting signal => signal.defaultAction == .stop
  | .stopping | .installing => true
  | .user | .looping | .masking _ | .writing _ | .failed _ | .blocked _ | .resumed | .killing
  | .terminated => false

/-- What a thread has in hand that is about to be killed. -/
def HandlePc.dies : HandlePc → Bool
  | .popped signal | .defaulting signal => signal == Signal.SIGKILL
  | .killing | .terminated => true
  | .user | .looping | .masking _ | .writing _ | .failed _ | .stopping | .installing | .blocked _
  | .resumed => false

/-- How many steps the thread may take before it takes the next signal or ends. -/
def HandlePc.distance : HandlePc → ℕ
  | .terminated => 0
  | .killing => 1
  | .looping => 2
  | .user | .failed _ | .resumed => 3
  | .writing _ | .defaulting _ | .blocked _ => 4
  | .masking _ => 5
  | .popped _ => 6
  | .stopping | .installing => 7

namespace StopThread

/-- Neither `SIGCONT` nor `SIGKILL` is raised while the thread has taken a stop signal and not left
its waker yet.  While it is stopped, `SIGKILL` is not raised, and `SIGCONT` only if it is not
ignored. -/
def Resumable (s : StopThread) : StopOp → Prop
  | .raise signal =>
    (signal = Signal.SIGCONT → s.pc.stops = false ∧
      (s.pc = .blocked false → s.list.ignores Signal.SIGCONT = false)) ∧
    (signal = Signal.SIGKILL → s.pc.stops = false ∧ s.pc ≠ .blocked false)
  | _ => True

structure StopInv (s : StopThread) : Prop where
  waker : s.list.stopWaker = true ↔ s.pc = .blocked false
  sigkill : s.list.actions Signal.SIGKILL = .default
  resume : s.resumeRaised = true → s.pc.stops = false ∧ s.pc ≠ .blocked false
  /-- `SIGKILL` is pending or about to be obeyed, and keeps the thread from stopping. -/
  kill : s.killRaised = true → (Signal.SIGKILL ∈ s.list.pending ∨ s.pc.dies = true) ∧
    s.pc.stops = false ∧ s.pc ≠ .blocked false

attribute [local grind →] StopInv.sigkill StopInv.resume StopInv.kill

attribute [local grind =] StopInv.waker

attribute [local grind] HandlePc.stops HandlePc.dies

variable {s : StopThread}

theorem StopInv.not_ignores (hi : s.StopInv) : s.list.ignores Signal.SIGKILL = false := by
  rw [SignalListInner.ignores, hi.sigkill]
  rfl

theorem pc_raise (h : s.pc ≠ .blocked false) (signal : Signal) : (s.raise signal).pc = s.pc := by
  unfold StopThread.raise
  cases s.list.wakes signal with
  | none => rfl
  | some w =>
    cases w with
    | signal => rfl
    | stop => rw [wake, if_neg h]

section

variable (hi : s.StopInv)
include hi

theorem StopInv.raise (hc : s.Resumable (.raise signal)) : (s.raise signal).StopInv := by
  obtain ⟨hcont, hkill⟩ := hc
  have hpending := s.list.subset_pending_raise signal
  have hsigkill : signal = Signal.SIGKILL → Signal.SIGKILL ∈ (s.list.raise signal).pending := by
    rintro rfl
    rw [SignalListInner.pending_raise hi.not_ignores]
    exact List.mem_cons_self
  have hmem : Signal.SIGKILL ∈ s.list.pending →
    Signal.SIGKILL ∈ (s.list.raise signal).pending := fun h => hpending h
  have hstop := s.list.stopWaker_raise signal
  -- a blocked thread has left its waker, so that `SIGCONT` wakes it
  have hblocked : signal = Signal.SIGCONT → s.pc = .blocked false →
      s.list.wakes signal = some .stop := by
    rintro rfl hpc
    rw [SignalListInner.wakes_sigcont ((hcont rfl).2 hpc), hi.waker.mpr hpc]
    rfl
  have hactions := s.list.actions_raise signal
  unfold StopThread.raise
  cases hwakes : s.list.wakes signal with
  | none => constructor <;> simp only [wake] <;> grind
  | some w => cases w <;> constructor <;> simp only [wake] <;> grind

theorem StopInv.pop (hpc : s.pc = .looping) : s.pop.StopInv := by
  have hwaker : s.list.stopWaker = false := by grind
  unfold StopThread.pop
  split
  case h_1 hnone =>
    have hempty := MinHeap.pop_eq_none.mp hnone
    constructor <;> grind
  case h_2 signal rest hpop =>
    -- `SIGKILL` is before all stop signals
    have hkill : s.killRaised = true → signal.defaultAction = .terminate ∧
        (Signal.SIGKILL ∈ rest ∨ signal = Signal.SIGKILL) := fun h => by
      have hmem : Signal.SIGKILL ∈ s.list.pending :=
        (hi.kill h).1.resolve_right (by rw [hpc]; nofun)
      have hrest := (MinHeap.pop_eq_some hpop).1.mem_iff.mp hmem
      exact ⟨Signal.defaultAction_of_upToKill (decide_eq_true (MinHeap.le_of_pop hpop hmem)),
        (List.mem_cons.mp hrest).symm.imp id Eq.symm⟩
    constructor <;> grind

theorem StopInv.lookup (hpc : s.pc = .popped signal) : (s.lookup signal).StopInv := by
  unfold StopThread.lookup
  split <;> constructor <;> grind

theorem StopInv.takeDefault (hpc : s.pc = .defaulting signal) : (s.takeDefault signal).StopInv := by
  have hterminate : s.killRaised = true → signal = Signal.SIGKILL →
    signal.defaultAction = .terminate := by
    rintro - rfl
    rfl
  unfold StopThread.takeDefault
  cases haction : signal.defaultAction <;> constructor <;> grind

theorem StopInv.advance (result : Option ℕ) : ∃ s', s.advance result = .ok s' ∧ s'.StopInv := by
  have hc : ∀ errno, s.Resumable (.raise (if errno = EFAULT then Signal.SIGSEGV
      else Signal.SIGSYS)) := fun errno => by
    split_ifs <;> exact ⟨nofun, nofun⟩
  unfold StopThread.advance
  cases hpc : s.pc with
  | looping => exact ⟨_, rfl, hi.pop hpc⟩
  | popped signal => exact ⟨_, rfl, hi.lookup hpc⟩
  | defaulting signal => exact ⟨_, rfl, hi.takeDefault hpc⟩
  | failed errno =>
    have hraise := hi.raise (hc errno)
    have hpc' := (pc_raise (by rw [hpc]; nofun)
      (if errno = EFAULT then Signal.SIGSEGV else Signal.SIGSYS)).trans hpc
    refine ⟨_, rfl, ?_⟩
    constructor <;> grind
  | installing =>
    have hwaker : s.list.stopWaker = false := by grind
    refine ⟨_, by simp only [install, hwaker]; rfl, ?_⟩
    constructor <;> grind
  | blocked woken =>
    cases woken with
    | false => exact ⟨_, rfl, hi⟩
    | true => refine ⟨_, rfl, ?_⟩; constructor <;> grind
  | terminated => exact ⟨_, rfl, hi⟩
  | writing oldMask =>
    refine ⟨_, rfl, ?_⟩
    cases result <;> constructor <;> simp only [write] <;> grind
  | user | masking _  | stopping | resumed | killing =>
    refine ⟨_, rfl, ?_⟩
    constructor <;> grind

theorem StopInv.run (op : StopOp) (hc : s.Resumable op) : ∃ s', s.run op = .ok s' ∧ s'.StopInv := by
  cases op with
  | raise signal => exact ⟨_, rfl, hi.raise hc⟩
  | setAction signal action =>
    refine ⟨_, rfl, ?_⟩
    unfold SignalListInner.setAction
    split_ifs with hnow
    · exact hi
    · refine ⟨hi.waker, ?_, hi.resume, hi.kill⟩
      exact (Function.update_of_ne (fun h => hnow (Or.inl h.symm)) _ _).trans hi.sigkill
  | clearNonIgnore =>
    refine ⟨_, rfl, hi.waker, ?_, hi.resume, hi.kill⟩
    simp only [SignalListInner.clearNonIgnore, hi.sigkill]
  | setMask mask => exact ⟨_, rfl, hi.waker, hi.sigkill, hi.resume, hi.kill⟩
  | advance result => exact hi.advance result

end

/-! ### After `SIGKILL` -/

/-- A bound for the steps that a thread takes after `SIGKILL`: each of the signals up to it may
start one more round. -/
def remaining (s : StopThread) : ℕ :=
  8 * s.list.pending.countP Signal.upToKill + s.pc.distance

theorem StopInv.remaining_pop (hi : s.StopInv) (hkill : s.killRaised = true)
    (hpc : s.pc = .looping) : s.pop.remaining < s.remaining := by
  have hmem : Signal.SIGKILL ∈ s.list.pending :=
    (hi.kill hkill).1.resolve_right (by rw [hpc]; nofun)
  unfold StopThread.pop
  split
  case h_1 hnone =>
    rw [MinHeap.pop_eq_none.mp hnone] at hmem
    cases hmem
  case h_2 signal rest hpop =>
    have hle : signal.upToKill = true := decide_eq_true (MinHeap.le_of_pop hpop hmem)
    have hcount := (MinHeap.pop_eq_some hpop).1.countP_eq Signal.upToKill
    rw [List.countP_cons_of_pos hle] at hcount
    simp only [remaining, hcount, hpc, HandlePc.distance]
    omega

theorem countP_raise {l : SignalListInner} (h : signal.upToKill = false) :
    (l.raise signal).pending.countP Signal.upToKill = l.pending.countP Signal.upToKill := by
  cases hignores : l.ignores signal with
  | true => rw [SignalListInner.raise_of_ignores hignores]
  | false =>
    rw [SignalListInner.pending_raise hignores]
    exact List.countP_cons_of_neg (ne_true_of_eq_false h)

theorem remaining_lt {s' : StopThread} (hdistance : s'.pc.distance < s.pc.distance)
    (hpending : s'.list.pending.countP Signal.upToKill = s.list.pending.countP Signal.upToKill) :
    s'.remaining < s.remaining := by
  unfold remaining
  omega

theorem StopInv.remaining_advance (hi : s.StopInv) (hkill : s.killRaised = true)
    (hpc : s.pc ≠ .terminated) {result : Option ℕ} {s' : StopThread}
    (h : s.advance result = .ok s') : s'.remaining < s.remaining ∧ s'.killRaised = true := by
  obtain ⟨hdies, hstops, hblocked⟩ := hi.kill hkill
  unfold StopThread.advance at h
  cases hpc' : s.pc with
  | user =>
    have hmem := hdies.resolve_right (by rw [hpc']; nofun)
    rw [hpc', if_neg (fun hempty => by rw [List.isEmpty_iff.mp hempty] at hmem; cases hmem)] at h
    cases h
    exact ⟨remaining_lt (by rw [hpc']; simp [HandlePc.distance]) rfl, hkill⟩
  | looping =>
    rw [hpc'] at h
    cases h
    refine ⟨hi.remaining_pop hkill hpc', ?_⟩
    unfold StopThread.pop
    split <;> exact hkill
  | popped signal =>
    rw [hpc'] at h
    cases h
    unfold StopThread.lookup
    split <;> exact ⟨remaining_lt (by rw [hpc']; simp [HandlePc.distance]) rfl, hkill⟩
  | writing oldMask =>
    rw [hpc'] at h
    cases h
    cases result <;> exact ⟨remaining_lt (by rw [hpc']; simp [write, HandlePc.distance]) rfl, hkill⟩
  | failed errno =>
    rw [hpc'] at h
    cases h
    refine ⟨remaining_lt (by rw [hpc']; simp [HandlePc.distance]) ?_, killRaised_raise hkill _⟩
    refine (congrArg (fun l => l.pending.countP Signal.upToKill) (list_raise s _)).trans ?_
    exact countP_raise (by split_ifs <;> rfl)
  | defaulting signal =>
    rw [hpc'] at h hstops
    cases h
    refine ⟨remaining_lt ?_ rfl, hkill⟩
    rw [hpc']
    unfold StopThread.takeDefault
    cases haction : signal.defaultAction with
    | stop => simp [HandlePc.stops, haction] at hstops
    | ignore | cont | terminate => simp [HandlePc.distance]
  | stopping | installing => rw [hpc'] at hstops; cases hstops
  | blocked woken =>
    cases woken with
    | false => exact absurd hpc' hblocked
    | true =>
      rw [hpc'] at h
      cases h
      exact ⟨remaining_lt (by rw [hpc']; simp [HandlePc.distance]) rfl, hkill⟩
  | masking mask | resumed | killing =>
    rw [hpc'] at h
    cases h
    exact ⟨remaining_lt (by rw [hpc']; simp [HandlePc.distance]) rfl, hkill⟩
  | terminated => exact absurd hpc' hpc

theorem StopInv.terminates (hi : s.StopInv) (hkill : s.killRaised = true) (results : ℕ → Option ℕ) :
    ∃ n s', s.advances results n = .ok s' ∧ s'.pc = .terminated := by
  induction hm : s.remaining using Nat.strong_induction_on generalizing s results with
  | h m ih =>
    by_cases hpc : s.pc = .terminated
    · exact ⟨0, s, rfl, hpc⟩
    · obtain ⟨s', hadvance, hi'⟩ := hi.advance (results 0)
      obtain ⟨hlt, hkill'⟩ := hi.remaining_advance hkill hpc hadvance
      obtain ⟨n, s'', hn, hend⟩ := ih _ (hm ▸ hlt) hi' hkill' (fun i => results (i + 1)) rfl
      refine ⟨n + 1, s'', ?_, hend⟩
      rw [advances, hadvance]
      exact hn

end StopThread

open StopThread

/-- While all steps meet the condition, nothing panics, the thread is not blocked after `SIGCONT` or
`SIGKILL`, and after `SIGKILL` it ends. -/
theorem stopResumed_of_reachable {s : StopThread} (hs : (stopThread Resumable).Reachable s) :
    (∀ op, s.Enabled op → s.Resumable op → ∃ s', s.run op = .ok s') ∧
    (s.resumeRaised = true → s.pc ≠ .blocked false) ∧
    (s.killRaised = true → ∀ results, ∃ n s', s.advances results n = .ok s' ∧
      s'.pc = .terminated) := by
  have h := System.Reachable.safe (M := stopThread Resumable) (P := StopInv) ?_
    (fun _ op hi h => hi.run op h.2) hs
  · exact ⟨fun op he hc => h.2 op ⟨he, hc⟩, fun hraised => (h.1.resume hraised).2, h.1.terminates⟩
  · rintro _ ⟨mask, actions, hkill, -, rfl⟩
    exact ⟨⟨nofun, nofun⟩, hkill, nofun, nofun⟩

def defaultThread : StopThread := { list := { mask := 0#64, actions := fun _ => .default } }

/-- The thread stops, `SIGCONT` wakes it, and then `SIGKILL` ends it. -/
theorem stopResumed_killed : ∃ s : StopThread, s.pc = .blocked true ∧ s.killRaised = true ∧
    ∃ n s', s.advances (fun _ => none) n = .ok s' ∧ s'.pc = .terminated := by
  have h0 : (stopThread Resumable).Reachable defaultThread := .of_init ⟨_, _, rfl, rfl, rfl⟩
  have h9 := h0.after [.raise Signal.SIGSTOP, .advance none, .advance none, .advance none,
    .advance none, .advance none, .advance none, .raise Signal.SIGCONT, .raise Signal.SIGKILL]
    ⟨⟨trivial, nofun, nofun⟩, ⟨trivial, trivial⟩, ⟨trivial, trivial⟩, ⟨trivial, trivial⟩,
     ⟨trivial, trivial⟩, ⟨trivial, trivial⟩, ⟨trivial, trivial⟩,
     ⟨trivial, fun _ => ⟨rfl, fun _ => rfl⟩, nofun⟩, ⟨trivial, nofun, fun _ => ⟨rfl, nofun⟩⟩,
     trivial⟩
  exact ⟨_, rfl, rfl, (stopResumed_of_reachable h9).2.2 rfl _⟩

/-- The thread stays blocked: `SIGCONT` came too early, or is ignored, or the thread should be
killed. -/
theorem stopResumed_violated :
    (∃ s : StopThread, (stopThread fun _ _ => True).Reachable s ∧ s.pc = .blocked false ∧
      s.resumeRaised = true ∧ Signal.SIGCONT ∈ s.list.pending) ∧
    (∃ s : StopThread, (stopThread fun _ _ => True).Reachable s ∧ s.pc = .blocked false ∧
      s.resumeRaised = true ∧ s.list.pending = []) ∧
    ∃ s : StopThread, (stopThread fun _ _ => True).Reachable s ∧ s.pc = .blocked false ∧
      s.killRaised = true ∧ ∀ n, s.advances (fun _ => none) n = .ok s := by
  have h0 : (stopThread fun _ _ => True).Reachable defaultThread := .of_init ⟨_, _, rfl, rfl, rfl⟩
  have h6 := h0.after [.raise Signal.SIGSTOP, .advance none, .advance none, .advance none,
    .advance none, .advance none]
    ⟨⟨trivial, trivial⟩, ⟨trivial, trivial⟩, ⟨trivial, trivial⟩, ⟨trivial, trivial⟩,
     ⟨trivial, trivial⟩, ⟨trivial, trivial⟩, trivial⟩
  refine ⟨?_, ?_, ?_⟩
  · have h7 := h6.next (.raise Signal.SIGCONT) ⟨trivial, trivial⟩
    have h8 := h7.next (.advance none) ⟨trivial, trivial⟩
    exact ⟨_, h8, rfl, rfl, List.mem_singleton.mpr rfl⟩
  · have h7 := h6.next (.setAction Signal.SIGCONT .ignore) ⟨trivial, trivial⟩
    have h8 := h7.next (.advance none) ⟨trivial, trivial⟩
    have h9 := h8.next (.raise Signal.SIGCONT) ⟨trivial, trivial⟩
    exact ⟨_, h9, rfl, rfl, rfl⟩
  · have h8 := h6.after [.advance none, .raise Signal.SIGKILL]
      ⟨⟨trivial, trivial⟩, ⟨trivial, trivial⟩, trivial⟩
    refine ⟨_, h8, rfl, rfl, fun n => ?_⟩
    induction n with
    | zero => rfl
    | succ n ih => exact ih

end Dlutos.Signals
