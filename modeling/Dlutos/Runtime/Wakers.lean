import Dlutos.Runtime.SchedulerProtocol
import Dlutos.Runtime.Timer

/-!
# Where wakers are kept

A task that is polled may leave clones of its waker in `SLEEPERS_LIST` (`kernel/timer.rs`), in the
slots of a socket (`net/socket/tcp.rs`), and with anybody else.  Nothing takes them back when the
task completes: the holders wake them later, and `Task::wake_by_ref` panics for a task that has
completed.
-/

namespace Dlutos

open ExceptLoop Transition Function

structure WakerStores (κ τ ω ν : Type) where
  sched : Sched κ τ ω
  ticks : ℕ := 0
  wakeupTick : ℕ := usizeMax
  sleepers : List (Sleepers τ) := []
  recvWaker : ν → Option τ := fun _ => none
  sendWaker : ν → Option τ := fun _ => none
  clones : List τ := []
  waking : ω → List τ := fun _ => []

/-- What may happen next. -/
inductive StoreOp (κ τ ω ν : Type) where
  /-- A step of the runtime other than a wake. -/
  | sched (op : SchedOp κ τ ω)
  /-- The task that is polled on the CPU polls a `sleep` future. -/
  | sleep (c : κ) (wakeupTick : ℕ)
  | register (c : κ) (n : ν) (recv send : Bool)
  | clone (c : κ)
  | forget (t : τ)
  | interrupt (k : ω)
  | event (k : ω) (n : ν) (recv : Bool)
  /-- Somebody is going to wake a clone. -/
  | take (k : ω) (t : τ)
  | wake (k : ω)

namespace WakerStores

variable {κ τ ω ν : Type} [DecidableEq κ] [DecidableEq τ] [DecidableEq ω] [DecidableEq ν]

def polls (s : WakerStores κ τ ω ν) (c : κ) : Option τ :=
  match s.sched.cpuPc c with
  | .poll t => some t
  | _ => none

/-- One poll of a `sleep` future by a task. -/
def sleep (s : WakerStores κ τ ω ν) (t : τ) (wakeupTick : ℕ) : WakerStores κ τ ω ν :=
  if wakeupTick ≤ s.ticks then s
  else { s with sleepers := registerSleeper s.sleepers wakeupTick t
                wakeupTick := min wakeupTick s.wakeupTick }

def register (s : WakerStores κ τ ω ν) (t : τ) (n : ν) (recv send : Bool) : WakerStores κ τ ω ν :=
  { s with
    recvWaker := if recv then update s.recvWaker n (some t) else s.recvWaker
    sendWaker := if send then update s.sendWaker n (some t) else s.sendWaker }

/-- `timer_interrupt`, up to the wakers of the entry that it takes out. -/
def interrupt (s : WakerStores κ τ ω ν) (k : ω) : WakerStores κ τ ω ν :=
  let s := { s with ticks := s.ticks + 1 }
  if s.wakeupTick ≤ s.ticks then
    match MinHeap.pop Sleepers.wakeupTick s.sleepers with
    | none => s
    | some (entry, rest) =>
      { s with sleepers := rest
               waking := update s.waking k entry.wakers
               wakeupTick := ((MinHeap.peek Sleepers.wakeupTick rest).map
                 Sleepers.wakeupTick).getD usizeMax }
  else s

def run (s : WakerStores κ τ ω ν) : StoreOp κ τ ω ν → Except SchedPanic (WakerStores κ τ ω ν)
  | .sched op => do
    let sched ← s.sched.run op
    pure { s with sched := sched }
  | .sleep c wakeupTick =>
    match s.polls c with
    | none => .ok s
    | some t => .ok (s.sleep t wakeupTick)
  | .register c n recv send =>
    match s.polls c with
    | none => .ok s
    | some t => .ok (s.register t n recv send)
  | .clone c =>
    match s.polls c with
    | none => .ok s
    | some t => .ok { s with clones := t :: s.clones }
  | .forget t => .ok { s with clones := s.clones.erase t }
  | .interrupt k => .ok (s.interrupt k)
  | .event k n true =>
    .ok { s with recvWaker := update s.recvWaker n none
                 waking := update s.waking k (s.recvWaker n).toList }
  | .event k n false =>
    .ok { s with sendWaker := update s.sendWaker n none
                 waking := update s.waking k (s.sendWaker n).toList }
  | .take k t =>
    .ok { s with clones := s.clones.erase t, waking := update s.waking k [t] }
  | .wake k =>
    match s.waking k with
    | [] => .ok s
    | t :: rest => do
      let sched ← s.sched.wakeByRef k t
      pure { s with sched := sched, waking := update s.waking k rest }

/-- The operation wakes a task directly. -/
def isWake : SchedOp κ τ ω → Bool
  | .wake _ _ => true
  | _ => false

def Enabled (s : WakerStores κ τ ω ν) : StoreOp κ τ ω ν → Prop
  | .sched op => s.sched.Enabled op ∧ isWake op = false
  | .sleep c _ | .register c _ _ _ | .clone c => s.polls c ≠ none
  | .forget t => t ∈ s.clones
  | .interrupt k | .event k _ _ => s.sched.wakerPc k = .idle ∧ s.waking k = []
  | .take k t => s.sched.wakerPc k = .idle ∧ s.waking k = [] ∧ t ∈ s.clones
  | .wake k => s.sched.wakerPc k = .idle ∧ s.waking k ≠ []

def Stored (s : WakerStores κ τ ω ν) (t : τ) : Prop :=
  (∃ e ∈ s.sleepers, t ∈ e.wakers) ∨ (∃ n, s.recvWaker n = some t ∨ s.sendWaker n = some t) ∨
    t ∈ s.clones ∨ ∃ k, t ∈ s.waking k

/-- The future of a task completes only when no clone of its waker is stored. -/
def Released (s : WakerStores κ τ ω ν) : StoreOp κ τ ω ν → Prop
  | .sched (.polled c true) => ∀ t, s.sched.cpuPc c = .poll t → ¬ s.Stored t
  | _ => True

end WakerStores

def wakerStores (κ τ ω ν : Type) [DecidableEq κ] [DecidableEq τ] [DecidableEq ω] [DecidableEq ν]
    (cond : WakerStores κ τ ω ν → StoreOp κ τ ω ν → Prop) :
    System (WakerStores κ τ ω ν) (StoreOp κ τ ω ν) SchedPanic where
  init s := ∃ cpu, s = { sched := { cpu := cpu } }
  allowed s op := s.Enabled op ∧ cond s op
  run := WakerStores.run

/-! ### Wakers of live tasks -/

section Sched

variable {κ τ ω : Type} {s : Sched κ τ ω} {own : τ → Option (Place κ ω)}

theorem Owned.live_of_poll (hi : Owned s own) {c : κ} {t : τ} (hc : s.cpuPc c = .poll t) :
    s.life t = .live := by
  have hown := hi.cpu c t (by rw [hc]; rfl)
  have hnot : s.life t ≠ .completed := fun hlife => by
    have h := (hi.finished c t hown).mp hlife
    rw [hc] at h
    rcases h with h | h <;> cases h
  have hallows := (hi.own_cpu c t hown).2
  rw [hc] at hallows
  cases hlife : s.life t with
  | live => rfl
  | completed => exact absurd hlife hnot
  | unborn =>
    rw [hi.unborn t (Or.inl hlife)] at hallows
    cases hallows
  | created =>
    rw [hi.unborn t (Or.inr hlife)] at hallows
    cases hallows

theorem Owned.not_ready_of_completed (hi : Owned s own) {t : τ} (ht : s.life t = .completed) :
    (∀ c, t ∉ s.queue c) ∧ ∀ k, s.wakerPc k ≠ .put t := by
  have hstate : s.state t ≠ .ready := fun hs => by
    rcases hi.completed t ht with h | h <;> rw [hs] at h <;> cases h
  exact ⟨fun c hc => hstate (hi.own_queue c t (hi.queue c t hc)).2,
    fun k hk => hstate (hi.own_agent k t (hi.agent k t hk)).2⟩

set_option linter.unusedSectionVars false

variable [DecidableEq κ] [DecidableEq τ] [DecidableEq ω]

theorem Sched.life_wakeByRef {s s' : Sched κ τ ω} {k : ω} {t : τ} (h : s.wakeByRef k t = .ok s') :
    s'.life = s.life := by
  unfold Sched.wakeByRef at h
  split at h <;> cases h <;> rfl

theorem Sched.life_cpuStep {s s' : Sched κ τ ω} {c : κ} {pc : CpuPc τ}
    (h : s.cpuStep c pc = .ok s') : s'.life = s.life := by
  cases pc with
  | locked =>
    unfold Sched.cpuStep at h
    cases hcur : s.current c <;> rw [hcur] at h <;> cases h <;> rfl
  | settle t =>
    unfold Sched.cpuStep at h
    cases hs : s.state t <;> simp only [hs] at h <;> cases h <;> rfl
  | fetch =>
    unfold Sched.cpuStep at h
    cases hq : s.queue c <;> rw [hq] at h <;> cases h <;> rfl
  | switch t =>
    obtain ⟨-, -, h⟩ := bind_eq_ok.mp h
    cases h
    rfl
  | setCurrent t =>
    obtain ⟨-, -, h⟩ := bind_eq_ok.mp h
    cases h
    rfl
  | finish t =>
    obtain ⟨-, -, h⟩ := bind_eq_ok.mp h
    cases h
    rfl
  | _ =>
    cases h
    rfl

theorem Sched.life_run {s s' : Sched κ τ ω} {op : SchedOp κ τ ω} (h : s.run op = .ok s')
    (he : s.Enabled op) {t : τ} (ht : s.life t = .live) :
    s'.life t = .live ∨ ∃ c, op = .polled c true ∧ s.cpuPc c = .poll t := by
  cases op with
  | spawn k u c =>
    cases h
    have htu : t ≠ u := by
      rintro rfl
      exact absurd (he.2.symm.trans ht) nofun
    refine Or.inl ?_
    simpa [Sched.spawn, Sched.agentGoto, update_of_ne htu] using ht
  | wake k u => exact Or.inl (by rw [Sched.life_wakeByRef h]; exact ht)
  | agent k =>
    refine Or.inl ?_
    rw [Sched.run] at h
    cases hk : s.wakerPc k with
    | spawning u =>
      rw [hk] at h
      rw [Sched.life_wakeByRef h]
      by_cases htu : t = u
      · subst htu
        exact update_self ..
      · simpa [update_of_ne htu] using ht
    | _ =>
      rw [hk] at h
      cases h
      exact ht
  | cpu c => exact Or.inl (by rw [Sched.life_cpuStep h]; exact ht)
  | polled c ready =>
    obtain ⟨u, hu⟩ := he
    simp only [Sched.run, hu] at h
    cases h
    cases ready with
    | false => exact Or.inl ht
    | true =>
      by_cases htu : t = u
      · subst htu
        exact Or.inr ⟨c, rfl, hu⟩
      · exact Or.inl (by simpa [Sched.polled, Sched.goto, update_of_ne htu] using ht)

end Sched

namespace WakerStores

variable {κ τ ω ν : Type} {s : WakerStores κ τ ω ν}

/-- The runtime keeps track of its tasks, and all wakers that are stored are those of live tasks. -/
def Inv (s : WakerStores κ τ ω ν) : Prop :=
  (∃ own, Owned s.sched own) ∧ ∀ t, s.Stored t → s.sched.life t = .live

theorem inv_init (cpu : τ → κ) : Inv ({ sched := { cpu := cpu } } : WakerStores κ τ ω ν) := by
  refine ⟨⟨_, Owned.init cpu⟩, fun t ht => ?_⟩
  rcases ht with ⟨e, he, -⟩ | ⟨n, h | h⟩ | h | ⟨k, h⟩ <;> first | cases he | cases h

theorem Inv.of_stored (hi : s.Inv) {s' : WakerStores κ τ ω ν} (hsched : s'.sched = s.sched)
    (hstored : ∀ t, s'.Stored t → s.Stored t ∨ s.sched.life t = .live) : s'.Inv := by
  refine ⟨by rw [hsched]; exact hi.1, fun t ht => ?_⟩
  rw [hsched]
  exact (hstored t ht).elim (hi.2 t) id

theorem Inv.live_of_polls (hi : s.Inv) {c : κ} {t : τ} (h : s.polls c = some t) :
    s.sched.life t = .live := by
  obtain ⟨⟨own, hown⟩, -⟩ := hi
  unfold polls at h
  split at h
  · rename_i u hu
    cases h
    exact hown.live_of_poll hu
  · cases h

set_option linter.unusedSectionVars false

variable [DecidableEq κ] [DecidableEq τ] [DecidableEq ω] [DecidableEq ν]

theorem Inv.sched (hi : s.Inv) {op : SchedOp κ τ ω} (he : s.Enabled (.sched op))
    (hc : s.Released (.sched op)) : ∃ s', s.run (.sched op) = .ok s' ∧ s'.Inv := by
  obtain ⟨⟨own, hown⟩, hlive⟩ := hi
  have hwakes : s.sched.WakesLive op := by
    cases op with
    | wake k t => exact absurd he.2 nofun
    | _ => trivial
  obtain ⟨sched, hrun, hown'⟩ := hown.run he.1 hwakes
  refine ⟨{ s with sched := sched }, by simp only [run, hrun, ok_bind]; rfl, hown', fun t ht => ?_⟩
  have ht : s.Stored t := ht
  refine (Sched.life_run hrun he.1 (hlive t ht)).resolve_right ?_
  rintro ⟨c, rfl, hpoll⟩
  exact hc t hpoll ht

theorem Inv.sleep (hi : s.Inv) {t : τ} (ht : s.sched.life t = .live) (tick : ℕ) :
    (s.sleep t tick).Inv := by
  unfold WakerStores.sleep
  split_ifs
  · exact hi
  · refine hi.of_stored rfl fun u hu => ?_
    rcases hu with ⟨e, he, hue⟩ | hu
    · rcases mem_wakers_registerSleeper he hue with rfl | hold
      · exact Or.inr ht
      · exact Or.inl (Or.inl hold)
    · exact Or.inl (Or.inr hu)

theorem Inv.register (hi : s.Inv) {t : τ} (ht : s.sched.life t = .live) (n : ν)
    (recv send : Bool) : (s.register t n recv send).Inv := by
  refine hi.of_stored rfl fun u hu => ?_
  by_cases hut : u = t
  · exact Or.inr (hut ▸ ht)
  have hslot : ∀ (slot : ν → Option τ) (b : Bool) (m : ν),
      (if b then update slot n (some t) else slot) m = some u → slot m = some u := by
    intro slot b m hm
    cases b with
    | false => exact hm
    | true =>
      by_cases hmn : m = n
      · subst hmn
        rw [if_pos rfl, update_self] at hm
        exact absurd (Option.some.inj hm).symm hut
      · rwa [if_pos rfl, update_of_ne hmn] at hm
  rcases hu with hu | ⟨m, hm | hm⟩ | hu
  · exact Or.inl (Or.inl hu)
  · exact Or.inl (Or.inr (Or.inl ⟨m, Or.inl (hslot _ _ m hm)⟩))
  · exact Or.inl (Or.inr (Or.inl ⟨m, Or.inr (hslot _ _ m hm)⟩))
  · exact Or.inl (Or.inr (Or.inr hu))

theorem Inv.waking (hi : s.Inv) {s' : WakerStores κ τ ω ν} {k : ω} {wakers : List τ}
    (hsched : s'.sched = s.sched) (hwaking : s'.waking = update s.waking k wakers)
    (hsleepers : ∀ t, (∃ e ∈ s'.sleepers, t ∈ e.wakers) → ∃ e ∈ s.sleepers, t ∈ e.wakers)
    (hslots : ∀ t n, s'.recvWaker n = some t ∨ s'.sendWaker n = some t →
      s.recvWaker n = some t ∨ s.sendWaker n = some t)
    (hclones : s'.clones ⊆ s.clones) (hwakers : ∀ t ∈ wakers, s.Stored t) : s'.Inv := by
  refine hi.of_stored hsched fun t ht => Or.inl ?_
  rcases ht with ht | ⟨n, hn⟩ | ht | ⟨j, hj⟩
  · exact Or.inl (hsleepers t ht)
  · exact Or.inr (Or.inl ⟨n, hslots t n hn⟩)
  · exact Or.inr (Or.inr (Or.inl (hclones ht)))
  · rw [hwaking] at hj
    by_cases hjk : j = k
    · subst hjk
      rw [update_self] at hj
      exact hwakers t hj
    · rw [update_of_ne hjk] at hj
      exact Or.inr (Or.inr (Or.inr ⟨j, hj⟩))

theorem Inv.interrupt (hi : s.Inv) (k : ω) : (s.interrupt k).Inv := by
  unfold WakerStores.interrupt
  simp only
  split_ifs
  · split
    · exact hi
    · rename_i e rest hpop
      obtain ⟨hperm, -⟩ := MinHeap.pop_eq_some hpop
      refine hi.waking rfl rfl (fun t ht => ?_) (fun t n hn => hn) (List.Subset.refl _)
        fun t ht => Or.inl ⟨e, hperm.mem_iff.mpr List.mem_cons_self, ht⟩
      obtain ⟨x, hx, htx⟩ := ht
      exact ⟨x, hperm.mem_iff.mpr (List.mem_cons_of_mem e hx), htx⟩
  · exact hi

theorem update_none_eq_some {slot : ν → Option τ} {n m : ν} {t : τ}
    (h : update slot n none m = some t) : slot m = some t := by
  by_cases hmn : m = n
  · subst hmn
    rw [update_self] at h
    cases h
  · rwa [update_of_ne hmn] at h

theorem Inv.event (hi : s.Inv) (k : ω) (n : ν) (recv : Bool) :
    ∃ s', s.run (.event k n recv) = .ok s' ∧ s'.Inv := by
  cases recv with
  | true =>
    refine ⟨_, rfl, hi.waking rfl rfl (fun t ht => ht) (fun t m hm => ?_) (List.Subset.refl _)
      fun t ht => Or.inr (Or.inl ⟨n, Or.inl (Option.mem_toList.mp ht)⟩)⟩
    exact hm.imp_left update_none_eq_some
  | false =>
    refine ⟨_, rfl, hi.waking rfl rfl (fun t ht => ht) (fun t m hm => ?_) (List.Subset.refl _)
      fun t ht => Or.inr (Or.inl ⟨n, Or.inr (Option.mem_toList.mp ht)⟩)⟩
    exact hm.imp_right update_none_eq_some

theorem Inv.wake (hi : s.Inv) {k : ω} (hk : s.sched.wakerPc k = .idle) {t : τ} {rest : List τ}
    (hw : s.waking k = t :: rest) : ∃ s', s.run (.wake k) = .ok s' ∧ s'.Inv := by
  obtain ⟨⟨own, hown⟩, hlive⟩ := hi
  have ht : s.sched.life t = .live :=
    hlive t (Or.inr (Or.inr (Or.inr ⟨k, hw ▸ List.mem_cons_self⟩)))
  obtain ⟨sched, hrun, hown'⟩ := hown.wakeByRef hk ht
  refine ⟨{ s with sched := sched, waking := update s.waking k rest }, ?_, hown',
    fun u hu => ?_⟩
  · simp only [run, hw, hrun, ok_bind]
    rfl
  · rw [Sched.life_wakeByRef hrun]
    refine hlive u ?_
    rcases hu with hu | hu | hu | ⟨j, hj⟩
    · exact Or.inl hu
    · exact Or.inr (Or.inl hu)
    · exact Or.inr (Or.inr (Or.inl hu))
    · have hj : u ∈ update s.waking k rest j := hj
      refine Or.inr (Or.inr (Or.inr ⟨j, ?_⟩))
      by_cases hjk : j = k
      · subst hjk
        rw [update_self] at hj
        exact hw ▸ List.mem_cons_of_mem t hj
      · rwa [update_of_ne hjk] at hj

theorem Inv.run (hi : s.Inv) (op : StoreOp κ τ ω ν) (he : s.Enabled op) (hc : s.Released op) :
    ∃ s', s.run op = .ok s' ∧ s'.Inv := by
  cases op with
  | sched op => exact hi.sched he hc
  | sleep c tick =>
    obtain ⟨t, ht⟩ := Option.ne_none_iff_exists'.mp he
    exact ⟨_, by simp only [WakerStores.run, ht], hi.sleep (hi.live_of_polls ht) tick⟩
  | register c n recv send =>
    obtain ⟨t, ht⟩ := Option.ne_none_iff_exists'.mp he
    exact ⟨_, by simp only [WakerStores.run, ht], hi.register (hi.live_of_polls ht) n recv send⟩
  | clone c =>
    obtain ⟨t, ht⟩ := Option.ne_none_iff_exists'.mp he
    refine ⟨{ s with clones := t :: s.clones }, by simp only [WakerStores.run, ht],
      hi.of_stored rfl fun u hu => ?_⟩
    rcases hu with hu | hu | hu | hu
    · exact Or.inl (Or.inl hu)
    · exact Or.inl (Or.inr (Or.inl hu))
    · rcases List.mem_cons.mp hu with rfl | hu
      · exact Or.inr (hi.live_of_polls ht)
      · exact Or.inl (Or.inr (Or.inr (Or.inl hu)))
    · exact Or.inl (Or.inr (Or.inr (Or.inr hu)))
  | forget t =>
    refine ⟨_, rfl, hi.of_stored rfl fun u hu => Or.inl ?_⟩
    exact hu.imp_right (Or.imp_right (Or.imp_left List.mem_of_mem_erase))
  | interrupt k => exact ⟨_, rfl, hi.interrupt k⟩
  | event k n recv => exact hi.event k n recv
  | take k t =>
    refine ⟨_, rfl, hi.waking rfl rfl (fun t ht => ht) (fun t m hm => hm) (List.erase_subset)
      fun u hu => ?_⟩
    rw [List.mem_singleton.mp hu]
    exact Or.inr (Or.inr (Or.inl he.2.2))
  | wake k =>
    obtain ⟨t, rest, hw⟩ := List.exists_cons_of_ne_nil he.2
    exact hi.wake he.1 hw

end WakerStores

variable {κ τ ω ν : Type} [DecidableEq κ] [DecidableEq τ] [DecidableEq ω] [DecidableEq ν]

/-- If futures complete only when no clone of their waker is stored, nothing panics, and completed
tasks are in no ready queue. -/
theorem finishedTask_of_reachable {s : WakerStores κ τ ω ν}
    (hs : (wakerStores κ τ ω ν WakerStores.Released).Reachable s) :
    (∀ t, s.sched.life t = .completed →
      (∀ c, t ∉ s.sched.queue c) ∧ ∀ k, s.sched.wakerPc k ≠ .put t) ∧
      ∀ op, s.Enabled op → s.Released op → ∃ s', s.run op = .ok s' := by
  obtain ⟨hi, hrun⟩ := System.Reachable.safe
    (M := wakerStores κ τ ω ν WakerStores.Released) (P := WakerStores.Inv) (fun s hs => by
      obtain ⟨cpu, rfl⟩ := hs
      exact WakerStores.inv_init cpu)
    (fun s op hi hop => hi.run op hop.1 hop.2) hs
  obtain ⟨own, hown⟩ := hi.1
  exact ⟨fun t ht => hown.not_ready_of_completed ht, fun op he hc => hrun op ⟨he, hc⟩⟩

theorem finishedTask_slept : ∃ s : WakerStores ℕ ℕ ℕ ℕ, s.sched.life 0 = .completed ∧
    s.sched.state 0 = .dead ∧ 0 ∉ s.sched.queue 0 := by
  have h0 : (wakerStores ℕ ℕ ℕ ℕ WakerStores.Released).Reachable
      { sched := { cpu := fun _ => 0 } } := .of_init ⟨_, rfl⟩
  have h8 := h0.after [.sched (.spawn 0 0 0), .sched (.agent 0), .sched (.agent 0), .sched (.cpu 0),
    .sched (.cpu 0), .sched (.cpu 0), .sched (.cpu 0), .sched (.cpu 0)]
    ⟨⟨⟨⟨rfl, rfl⟩, rfl⟩, trivial⟩, ⟨⟨trivial, rfl⟩, trivial⟩, ⟨⟨rfl, rfl⟩, trivial⟩,
     ⟨⟨nofun, rfl⟩, trivial⟩, ⟨⟨nofun, rfl⟩, trivial⟩, ⟨⟨nofun, rfl⟩, trivial⟩,
     ⟨⟨nofun, rfl⟩, trivial⟩, ⟨⟨nofun, rfl⟩, trivial⟩, trivial⟩
  -- The task sleeps for one tick, and the CPU finds nothing else to do.
  have h14 := h8.after [.sleep 0 1, .sched (.polled 0 false), .sched (.cpu 0), .sched (.cpu 0),
    .sched (.cpu 0), .sched (.cpu 0)]
    ⟨⟨nofun, trivial⟩, ⟨⟨⟨0, rfl⟩, rfl⟩, trivial⟩, ⟨⟨nofun, rfl⟩, trivial⟩, ⟨⟨nofun, rfl⟩, trivial⟩,
     ⟨⟨nofun, rfl⟩, trivial⟩, ⟨⟨nofun, rfl⟩, trivial⟩, trivial⟩
  -- The timer wakes it, which takes its waker out of the list, and it completes.
  have h22 := h14.after [.interrupt 1, .wake 1, .sched (.agent 1), .sched (.cpu 0), .sched (.cpu 0),
    .sched (.cpu 0), .sched (.cpu 0), .sched (.cpu 0)]
    ⟨⟨⟨rfl, rfl⟩, trivial⟩, ⟨⟨rfl, nofun⟩, trivial⟩, ⟨⟨rfl, rfl⟩, trivial⟩, ⟨⟨nofun, rfl⟩, trivial⟩,
     ⟨⟨nofun, rfl⟩, trivial⟩, ⟨⟨nofun, rfl⟩, trivial⟩, ⟨⟨nofun, rfl⟩, trivial⟩,
     ⟨⟨nofun, rfl⟩, trivial⟩, trivial⟩
  have h23 := h22.next (.sched (.polled 0 true)) ⟨⟨⟨0, rfl⟩, rfl⟩, fun t _ ht => by
    rcases ht with ⟨e, he, -⟩ | ⟨n, h | h⟩ | h | ⟨k, h⟩
    · cases he
    · cases h
    · cases h
    · cases h
    · match k, h with
      | 0, h => cases h
      | 1, h => cases h
      | _ + 2, h => cases h⟩
  have h24 := h23.next (.sched (.cpu 0)) ⟨⟨nofun, rfl⟩, trivial⟩
  exact ⟨_, rfl, rfl, ((finishedTask_of_reachable h24).1 0 rfl).1 0⟩

/-- A task completes although its waker is still in `SLEEPERS_LIST`: the timer interrupt panics. -/
theorem finishedTask_panics : ∃ s : WakerStores ℕ ℕ ℕ ℕ,
    (wakerStores ℕ ℕ ℕ ℕ fun _ _ => True).Reachable s ∧ s.sched.state 0 = .dead ∧
      s.Enabled (.wake 1) ∧ s.run (.wake 1) = .error .wakingDead := by
  have h0 : (wakerStores ℕ ℕ ℕ ℕ fun _ _ => True).Reachable { sched := { cpu := fun _ => 0 } } :=
    .of_init ⟨_, rfl⟩
  have h12 := h0.after [.sched (.spawn 0 0 0), .sched (.agent 0), .sched (.agent 0),
    .sched (.cpu 0), .sched (.cpu 0), .sched (.cpu 0), .sched (.cpu 0), .sched (.cpu 0), .sleep 0 1,
    .sched (.polled 0 true), .sched (.cpu 0), .interrupt 1]
    ⟨⟨⟨⟨rfl, rfl⟩, rfl⟩, trivial⟩, ⟨⟨trivial, rfl⟩, trivial⟩, ⟨⟨rfl, rfl⟩, trivial⟩,
     ⟨⟨nofun, rfl⟩, trivial⟩, ⟨⟨nofun, rfl⟩, trivial⟩, ⟨⟨nofun, rfl⟩, trivial⟩,
     ⟨⟨nofun, rfl⟩, trivial⟩, ⟨⟨nofun, rfl⟩, trivial⟩, ⟨nofun, trivial⟩, ⟨⟨⟨0, rfl⟩, rfl⟩, trivial⟩,
     ⟨⟨nofun, rfl⟩, trivial⟩, ⟨⟨rfl, rfl⟩, trivial⟩, trivial⟩
  exact ⟨_, h12, rfl, ⟨rfl, nofun⟩, rfl⟩

end Dlutos
