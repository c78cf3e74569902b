import Dlutos.Runtime.Scheduler

/-!
# The state protocol of tasks

A task is at no more than one place, a ready queue, an agent that is about to put it into its queue
or a CPU that has taken it from there, and its state word tells which (`Owned`).
-/

namespace Dlutos

open ExceptLoop Transition Function

/-- The task that a CPU has taken from its queue and not given back. -/
def CpuPc.task {τ : Type} (current : Option τ) : CpuPc τ → Option τ
  | .top | .locked => current
  | .fetch => none
  | .settle t | .requeue t | .switch t | .setCurrent t | .poll t | .finish t | .clear t => some t

def CpuPc.allows {τ : Type} : CpuPc τ → TaskState → Bool
  | .requeue _, state | .switch _, state => state = .ready
  | .clear _, state => state = .dead
  | _, state => state.isRunning

theorem CpuPc.not_allows_blocked {τ : Type} (pc : CpuPc τ) : pc.allows .blocked = false := by
  cases pc <;> rfl

theorem CpuPc.allows_readyRunning {τ : Type} (pc : CpuPc τ) (h : pc.allows .running = true) :
    pc.allows .readyRunning = true := by
  cases pc <;> first | rfl | cases h

inductive Place (κ ω : Type) where
  | queue (c : κ)
  | agent (k : ω)
  | cpu (c : κ)
  deriving DecidableEq

variable {κ τ ω : Type}

def Sched.At (s : Sched κ τ ω) (t : τ) : Place κ ω → Prop
  | .queue c => t ∈ s.queue c
  | .agent k => s.wakerPc k = .put t
  | .cpu c => (s.cpuPc c).task (s.current c) = some t

/-- The places of all tasks, and what their state words say about them. -/
structure Owned (s : Sched κ τ ω) (own : τ → Option (Place κ ω)) : Prop where
  nodup : ∀ c, (s.queue c).Nodup
  queue : ∀ c t, t ∈ s.queue c → own t = some (.queue c)
  own_queue : ∀ c t, own t = some (.queue c) → t ∈ s.queue c ∧ s.state t = .ready
  agent : ∀ k t, s.wakerPc k = .put t → own t = some (.agent k)
  own_agent : ∀ k t, own t = some (.agent k) → s.wakerPc k = .put t ∧ s.state t = .ready
  cpu : ∀ c t, (s.cpuPc c).task (s.current c) = some t → own t = some (.cpu c)
  own_cpu : ∀ c t, own t = some (.cpu c) → (s.cpuPc c).task (s.current c) = some t ∧
    (s.cpuPc c).allows (s.state t) = true
  placed : ∀ t, s.state t = .ready → own t ≠ none
  current : ∀ c t, s.current c = some t → s.cpuPc c = .top ∨ s.cpuPc c = .locked ∨
    s.cpuPc c = .poll t ∨ s.cpuPc c = .finish t ∨ s.cpuPc c = .clear t
  polling : ∀ c t, s.cpuPc c = .poll t → s.current c = some t
  borrowed : ∀ t, s.borrowed t = true → ∃ c, own t = some (.cpu c) ∧ s.cpuPc c = .poll t
  -- the lives of tasks
  unborn : ∀ t, s.life t = .unborn ∨ s.life t = .created → s.state t = .blocked
  spawning : ∀ k t, s.wakerPc k = .spawning t → s.life t = .created
  spawner : ∀ k k' t, s.wakerPc k = .spawning t → s.wakerPc k' = .spawning t → k = k'
  dead : ∀ t, s.state t = .dead → s.life t = .completed
  completed : ∀ t, s.life t = .completed → s.state t = .dead ∨ (s.state t).isRunning = true
  finished : ∀ c t, own t = some (.cpu c) →
    (s.life t = .completed ↔ s.cpuPc c = .finish t ∨ s.cpuPc c = .clear t)
  due : ∀ t, s.due t = true →
    s.life t = .completed ∨ s.state t = .ready ∨ s.state t = .readyRunning

namespace Owned

variable {s : Sched κ τ ω} {own : τ → Option (Place κ ω)} {c : κ} {k : ω} {t : τ}

theorem init (cpu : τ → κ) : Owned ({ cpu := cpu } : Sched κ τ ω) fun _ => none := by
  constructor <;> simp [CpuPc.task]

attribute [local grind] CpuPc.task CpuPc.allows TaskState.isRunning

attribute [local grind =] update_apply

set_option linter.unusedSectionVars false

variable [DecidableEq κ] [DecidableEq τ] [DecidableEq ω]

/-! ### Steps of a CPU -/

section

variable (hi : Owned s own)
include hi

theorem top (hc : s.cpuPc c = .top) : Owned (s.goto c .locked) own := by
  cases hi
  constructor <;> simp only [Sched.goto] <;> grind

theorem locked_none (hc : s.cpuPc c = .locked) (hcur : s.current c = none) :
    Owned (s.goto c .fetch) own := by
  cases hi
  constructor <;> simp only [Sched.goto] <;> grind

theorem locked_some (hc : s.cpuPc c = .locked) (hcur : s.current c = some t) :
    Owned ((s.setCurrent c none).goto c (.settle t)) own := by
  cases hi
  constructor <;> simp only [Sched.goto, Sched.setCurrent] <;> grind

theorem settle_ready (hc : s.cpuPc c = .settle t) (hs : s.state t = .readyRunning) :
    Owned ((s.setState t .ready).goto c (.requeue t)) own := by
  have hown := hi.cpu c t (by rw [hc]; rfl)
  cases hi
  constructor <;> simp only [Sched.goto, Sched.setState] <;> grind

theorem settle_blocked (hc : s.cpuPc c = .settle t) (hs : s.state t = .running) :
    Owned ((s.setState t .blocked).goto c .fetch) (update own t none) := by
  have hown := hi.cpu c t (by rw [hc]; rfl)
  cases hi
  constructor <;> simp only [Sched.goto, Sched.setState] <;> grind

theorem requeue (hc : s.cpuPc c = .requeue t) :
    Owned ((s.setQueue c (s.queue c ++ [t])).goto c .fetch)
      (update own t (some (.queue c))) := by
  have hown := hi.cpu c t (by rw [hc]; rfl)
  cases hi
  constructor <;> simp only [Sched.goto, Sched.setQueue] <;> grind

theorem fetch_none (hc : s.cpuPc c = .fetch) : Owned (s.goto c .top) own := by
  cases hi
  constructor <;> simp only [Sched.goto] <;> grind

theorem fetch_some (hc : s.cpuPc c = .fetch) {rest : List τ} (hq : s.queue c = t :: rest) :
    Owned ((s.setQueue c rest).goto c (.switch t)) (update own t (some (.cpu c))) := by
  have hown := hi.queue c t (hq ▸ List.mem_cons_self)
  cases hi
  constructor <;> simp only [Sched.goto, Sched.setQueue] <;> grind

theorem switch (hc : s.cpuPc c = .switch t) :
    Owned (({ s with due := update s.due t false }.setState t .running).goto c
      (.setCurrent t)) own := by
  have hown := hi.cpu c t (by rw [hc]; rfl)
  cases hi
  constructor <;> simp only [Sched.goto, Sched.setState] <;> grind

theorem startPoll (hc : s.cpuPc c = .setCurrent t) :
    Owned (({ s with borrowed := update s.borrowed t true }.setCurrent c (some t)).goto c
      (.poll t)) own := by
  have hown := hi.cpu c t (by rw [hc]; rfl)
  cases hi
  constructor <;> simp only [Sched.goto, Sched.setCurrent] <;> grind

theorem polled_ready (hc : s.cpuPc c = .poll t) :
    Owned (s.polled c t true) own := by
  have hown := hi.cpu c t (by rw [hc]; rfl)
  cases hi
  constructor <;> simp only [Sched.polled, Sched.goto, if_true] <;> grind

theorem polled_pending (hc : s.cpuPc c = .poll t) :
    Owned (s.polled c t false) own := by
  have hown := hi.cpu c t (by rw [hc]; rfl)
  cases hi
  constructor <;> simp only [Sched.polled, Sched.goto, Bool.false_eq_true, if_false] <;> grind

theorem finish (hc : s.cpuPc c = .finish t) :
    Owned ((s.setState t .dead).goto c (.clear t)) own := by
  have hown := hi.cpu c t (by rw [hc]; rfl)
  cases hi
  constructor <;> simp only [Sched.goto, Sched.setState] <;> grind

theorem clear (hc : s.cpuPc c = .clear t) :
    Owned ((s.setCurrent c none).goto c .top) (update own t none) := by
  have hown := hi.cpu c t (by rw [hc]; rfl)
  cases hi
  constructor <;> simp only [Sched.goto, Sched.setCurrent] <;> grind

/-! ### Steps of an agent -/

theorem spawn (hk : s.wakerPc k = .idle) (ht : s.life t = .unborn) (c : κ) :
    Owned (s.spawn k t c) own := by
  cases hi
  constructor <;> simp only [Sched.spawn, Sched.agentGoto] <;> grind

theorem put (hk : s.wakerPc k = .put t) :
    Owned ((s.setQueue (s.cpu t) (s.queue (s.cpu t) ++ [t])).agentGoto k .idle)
      (update own t (some (.queue (s.cpu t)))) := by
  have hown := hi.agent k t hk
  cases hi
  constructor <;> simp only [Sched.setQueue, Sched.agentGoto] <;> grind

theorem wake_blocked (hk : s.wakerPc k = .idle ∧ s.life t = .live ∨ s.wakerPc k = .spawning t)
    (hs : s.state t = .blocked) :
    Owned (({ s with life := update s.life t .live
                     due := update s.due t true }.setState t .ready).agentGoto k (.put t))
      (update own t (some (.agent k))) := by
  have hown : own t = none := by
    cases hplace : own t with
    | none => rfl
    | some p =>
      cases hi
      cases p <;> grind [CpuPc.not_allows_blocked]
  cases hi
  constructor <;> simp only [Sched.setState, Sched.agentGoto] <;> grind

theorem wake_other (hk : s.wakerPc k = .idle) (hlife : s.life t = .live)
    {state : TaskState} (hs : s.state t = .running ∧ state = .readyRunning ∨
      (s.state t = .ready ∨ s.state t = .readyRunning) ∧ state = s.state t) :
    Owned (({ s with due := update s.due t true }.setState t state).agentGoto k .idle)
      own := by
  cases hi
  constructor <;> simp only [Sched.setState, Sched.agentGoto] <;>
    grind [CpuPc.allows_readyRunning, TaskState.isRunning, update_apply]

/-! ### All steps -/

theorem wakeByRef (hk : s.wakerPc k = .idle) (ht : s.life t = .live) :
    ∃ s', s.wakeByRef k t = .ok s' ∧ ∃ own', Owned s' own' := by
  unfold Sched.wakeByRef
  have hlife : update s.life t .live = s.life := by
    rw [← ht, update_eq_self]
  cases hs : s.state t with
  | blocked =>
    have hwake := hi.wake_blocked (Or.inl ⟨hk, ht⟩) hs
    rw [hlife] at hwake
    exact ⟨_, rfl, _, hwake⟩
  | running => exact ⟨_, rfl, own, hi.wake_other hk ht (Or.inl ⟨hs, rfl⟩)⟩
  | ready =>
    have hwake := hi.wake_other hk ht (Or.inr ⟨Or.inl hs, rfl⟩)
    simp only [Sched.setState, update_eq_self] at hwake
    exact ⟨_, rfl, own, hwake⟩
  | readyRunning =>
    have hwake := hi.wake_other hk ht (Or.inr ⟨Or.inr hs, rfl⟩)
    simp only [Sched.setState, update_eq_self] at hwake
    exact ⟨_, rfl, own, hwake⟩
  | dead => exact absurd ((hi.dead t hs).symm.trans ht) nofun

theorem agentStep (hk : s.wakerPc k ≠ .idle) :
    ∃ s', s.agentStep k (s.wakerPc k) = .ok s' ∧ ∃ own', Owned s' own' := by
  cases hpc : s.wakerPc k with
  | idle => exact absurd hpc hk
  | put t => exact ⟨_, rfl, _, hi.put hpc⟩
  | spawning t =>
    have hs := hi.unborn t (Or.inr (hi.spawning k t hpc))
    refine ⟨_, ?_, _, hi.wake_blocked (Or.inr hpc) hs⟩
    simp only [Sched.agentStep, Sched.wakeByRef, hs]

theorem allows (ht : (s.cpuPc c).task (s.current c) = some t) :
    (s.cpuPc c).allows (s.state t) = true := (hi.own_cpu c t (hi.cpu c t ht)).2

theorem cpuStep (hpoll : ∀ t, s.cpuPc c ≠ .poll t) :
    ∃ s', s.cpuStep c (s.cpuPc c) = .ok s' ∧ ∃ own', Owned s' own' := by
  cases hpc : s.cpuPc c with
  | top => exact ⟨_, rfl, own, hi.top hpc⟩
  | locked =>
    unfold Sched.cpuStep
    cases hcur : s.current c with
    | none => exact ⟨_, rfl, own, hi.locked_none hpc hcur⟩
    | some t => exact ⟨_, rfl, own, hi.locked_some hpc hcur⟩
  | settle t =>
    have hallows : (s.cpuPc c).allows (s.state t) = true := hi.allows (by rw [hpc]; rfl)
    rw [hpc] at hallows
    unfold Sched.cpuStep
    cases hs : s.state t with
    | readyRunning =>
      refine ⟨_, ?_, own, hi.settle_ready hpc hs⟩
      simp only [hs]
    | running =>
      refine ⟨_, ?_, _, hi.settle_blocked hpc hs⟩
      simp only [hs]
    | _ =>
      rw [hs] at hallows
      cases hallows
  | requeue t => exact ⟨_, rfl, _, hi.requeue hpc⟩
  | fetch =>
    unfold Sched.cpuStep
    cases hq : s.queue c with
    | nil => exact ⟨_, rfl, own, hi.fetch_none hpc⟩
    | cons t rest => exact ⟨_, rfl, _, hi.fetch_some hpc hq⟩
  | switch t =>
    have hallows : (s.cpuPc c).allows (s.state t) = true := hi.allows (by rw [hpc]; rfl)
    rw [hpc, CpuPc.allows, decide_eq_true_eq] at hallows
    refine ⟨_, ?_, own, hi.switch hpc⟩
    simp only [Sched.cpuStep, assertOr_true _ hallows, ok_bind]
    rfl
  | setCurrent t =>
    have hfree : s.borrowed t = false := by
      refine eq_false_of_ne_true fun hb => ?_
      obtain ⟨c', hown, hpoll'⟩ := hi.borrowed t hb
      have hown' := hi.cpu c t (by rw [hpc]; rfl)
      rw [hown] at hown'
      cases hown'
      rw [hpc] at hpoll'
      cases hpoll'
    refine ⟨_, ?_, own, hi.startPoll hpc⟩
    simp only [Sched.cpuStep, assertOr_true _ hfree, ok_bind]
    rfl
  | poll t => exact absurd hpc (hpoll t)
  | finish t =>
    have hallows : (s.state t).isRunning = true := by
      have h : (s.cpuPc c).allows (s.state t) = true := hi.allows (by rw [hpc]; rfl)
      rw [hpc] at h
      exact h
    refine ⟨_, ?_, own, hi.finish hpc⟩
    simp only [Sched.cpuStep, assertOr_true _ hallows, ok_bind]
    rfl
  | clear t => exact ⟨_, rfl, _, hi.clear hpc⟩

theorem run {op : SchedOp κ τ ω} (he : s.Enabled op) (hc : s.WakesLive op) :
    ∃ s', s.run op = .ok s' ∧ ∃ own', Owned s' own' := by
  cases op with
  | spawn k t c => exact ⟨_, rfl, own, hi.spawn he.1 he.2 c⟩
  | wake k t => exact hi.wakeByRef he hc
  | agent k =>
    refine hi.agentStep fun hidle => ?_
    simp only [Sched.Enabled, hidle] at he
  | cpu c => exact hi.cpuStep he
  | polled c ready =>
    obtain ⟨t, ht⟩ := he
    simp only [Sched.run, ht]
    cases ready with
    | true => exact ⟨_, rfl, own, hi.polled_ready ht⟩
    | false => exact ⟨_, rfl, own, hi.polled_pending ht⟩

end

end Owned

/-- What the state word of a task promises. -/
structure TaskProtocol (s : Sched κ τ ω) : Prop where
  poll : ∀ c c' t, s.cpuPc c = .poll t → s.cpuPc c' = .poll t → c = c'
  queue : ∀ t, (∀ c, (s.queue c).Nodup) ∧ ∀ c c', t ∈ s.queue c → t ∈ s.queue c' → c = c'
  /-- A task that is ready and not running is in exactly one queue, or exactly one agent or CPU is
  about to put it into one or to run it. -/
  ready : ∀ t, s.state t = .ready → ∃! p, s.At t p ∧
    ∀ c, p = .cpu c → s.cpuPc c = .requeue t ∨ s.cpuPc c = .switch t
  due : ∀ t, s.due t = true → s.life t ≠ .completed →
    s.state t = .ready ∨ s.state t = .readyRunning

section

variable {s : Sched κ τ ω} {own : τ → Option (Place κ ω)} (hi : Owned s own)
include hi

theorem Owned.at_iff (t : τ) (p : Place κ ω) : s.At t p ↔ own t = some p := by
  cases p with
  | queue c => exact ⟨hi.queue c t, fun h => (hi.own_queue c t h).1⟩
  | agent k => exact ⟨hi.agent k t, fun h => (hi.own_agent k t h).1⟩
  | cpu c => exact ⟨hi.cpu c t, fun h => (hi.own_cpu c t h).1⟩

theorem Owned.protocol : TaskProtocol s := by
  have hunique : ∀ t p q, s.At t p → s.At t q → p = q := fun t p q hp hq =>
    Option.some.inj (((hi.at_iff t p).mp hp).symm.trans ((hi.at_iff t q).mp hq))
  refine ⟨fun c c' t hc hc' => ?_, fun t => ⟨hi.nodup, fun c c' hc hc' => ?_⟩, fun t ht => ?_,
    fun t hdue hlife => (hi.due t hdue).resolve_left hlife⟩
  · have := hunique t (.cpu c) (.cpu c') (by rw [Sched.At, hc]; rfl) (by rw [Sched.At, hc']; rfl)
    exact Place.cpu.inj this
  · exact Place.queue.inj (hunique t (.queue c) (.queue c') hc hc')
  · obtain ⟨p, hp⟩ := Option.ne_none_iff_exists'.mp (hi.placed t ht)
    refine ⟨p, ⟨(hi.at_iff t p).mpr hp, fun c hpc => ?_⟩, fun q hq => hunique t q p hq.1
      ((hi.at_iff t p).mpr hp)⟩
    subst hpc
    obtain ⟨htask, hallows⟩ := hi.own_cpu c t hp
    rw [ht] at hallows
    cases hpc : s.cpuPc c <;> rw [hpc] at htask hallows <;>
      simp_all [CpuPc.task, CpuPc.allows, TaskState.isRunning]

end

variable [DecidableEq κ] [DecidableEq τ] [DecidableEq ω]

/-- In every run without wakes of completed tasks the state words keep their promises, and nothing
panics. -/
theorem taskProtocol_of_reachable {s : Sched κ τ ω}
    (hs : (runtime κ τ ω Sched.WakesLive).Reachable s) :
    TaskProtocol s ∧ ∀ op, s.Enabled op → s.WakesLive op → ∃ s', s.run op = .ok s' := by
  obtain ⟨⟨own, hi⟩, hrun⟩ := System.Reachable.safe (M := runtime κ τ ω Sched.WakesLive)
    (P := fun s => ∃ own, Owned s own) (fun s hs => by
      obtain ⟨cpu, rfl⟩ := hs
      exact ⟨_, Owned.init cpu⟩)
    (fun s op hi hop => by
      obtain ⟨own, hi⟩ := hi
      exact hi.run hop.1 hop.2) hs
  exact ⟨hi.protocol, fun op he hc => hrun op ⟨he, hc⟩⟩

theorem taskProtocol_woken_in_poll : ∃ s : Sched ℕ ℕ ℕ,
    s.cpuPc 0 = .poll 0 ∧ s.state 0 = .readyRunning ∧ s.due 0 = true ∧ TaskProtocol s := by
  have h0 : (runtime ℕ ℕ ℕ Sched.WakesLive).Reachable { cpu := fun _ => 0 } := .of_init ⟨_, rfl⟩
  have h9 := h0.after [.spawn 0 0 0, .agent 0, .agent 0, .cpu 0, .cpu 0, .cpu 0, .cpu 0, .cpu 0,
    .wake 1 0]
    ⟨⟨⟨rfl, rfl⟩, trivial⟩, ⟨trivial, trivial⟩, ⟨rfl, trivial⟩, ⟨nofun, trivial⟩, ⟨nofun, trivial⟩,
     ⟨nofun, trivial⟩, ⟨nofun, trivial⟩, ⟨nofun, trivial⟩, ⟨rfl, rfl⟩, trivial⟩
  exact ⟨_, rfl, rfl, rfl, (taskProtocol_of_reachable h9).1⟩

/-- Between taking a task from its queue and marking it as running, a CPU leaves it ready and in no
queue. -/
theorem ready_in_no_queue : ∃ s : Sched ℕ ℕ ℕ, (runtime ℕ ℕ ℕ Sched.WakesLive).Reachable s ∧
    s.state 0 = .ready ∧ (∀ c, 0 ∉ s.queue c) ∧ (∀ k, s.wakerPc k ≠ .put 0) ∧
      ∀ c, s.cpuPc c ≠ .requeue 0 := by
  have h0 : (runtime ℕ ℕ ℕ Sched.WakesLive).Reachable { cpu := fun _ => 0 } := .of_init ⟨_, rfl⟩
  have h6 := h0.after [.spawn 0 0 0, .agent 0, .agent 0, .cpu 0, .cpu 0, .cpu 0]
    ⟨⟨⟨rfl, rfl⟩, trivial⟩, ⟨trivial, trivial⟩, ⟨rfl, trivial⟩, ⟨nofun, trivial⟩, ⟨nofun, trivial⟩,
     ⟨nofun, trivial⟩, trivial⟩
  refine ⟨_, h6, rfl, fun c => ?_, fun k => ?_, fun c => ?_⟩
  · match c with
    | 0 => exact List.not_mem_nil
    | _ + 1 => exact List.not_mem_nil
  · match k with
    | 0 => nofun
    | _ + 1 => nofun
  · match c with
    | 0 => nofun
    | _ + 1 => nofun

end Dlutos
