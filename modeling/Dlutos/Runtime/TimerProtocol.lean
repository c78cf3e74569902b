import Dlutos.Runtime.Timer
import Mathlib.Data.Set.Card
import Mathlib.Data.Set.Finite.Lattice

/-!
# No sleeper is lost

`WAKEUP_TICK` is at most the tick of every entry, but for the one that a poll has made and not
published yet (`TimerInv.low`).  So an interrupt that comes after the tick of some entry takes out
an entry, and all entries that it may take out before are for earlier ticks.
-/

namespace Dlutos

open Transition Function

/-! ### The list of sleepers -/

section Sleepers

variable {ρ : Type} {l : List (Sleepers ρ)} {e : Sleepers ρ} {tick : ℕ} {f : ρ}

theorem map_registerSleeper (l : List (Sleepers ρ)) (tick : ℕ) (f : ρ) :
    (registerSleeper l tick f).map Sleepers.wakeupTick = l.map Sleepers.wakeupTick ∨
      (∀ e ∈ l, e.wakeupTick ≠ tick) ∧
        (registerSleeper l tick f).map Sleepers.wakeupTick = tick :: l.map Sleepers.wakeupTick := by
  unfold registerSleeper
  split_ifs with hany
  · refine Or.inl ?_
    rw [List.map_map]
    refine List.map_congr_left fun e _ => ?_
    simp only [Function.comp]
    split_ifs <;> rfl
  · refine Or.inr ⟨fun e he htick => hany (List.any_eq_true.mpr ⟨e, he, by simp [htick]⟩), rfl⟩

theorem nodup_registerSleeper (h : (l.map Sleepers.wakeupTick).Nodup) :
    ((registerSleeper l tick f).map Sleepers.wakeupTick).Nodup := by
  rcases map_registerSleeper l tick f with hmap | ⟨hnew, hmap⟩
  · rwa [hmap]
  · rw [hmap]
    refine List.nodup_cons.mpr ⟨fun hmem => ?_, h⟩
    obtain ⟨e, he, htick⟩ := List.mem_map.mp hmem
    exact hnew e he htick

theorem of_mem_registerSleeper (h : e ∈ registerSleeper l tick f) :
    e ∈ l ∧ e.wakeupTick ≠ tick ∨ e.wakeupTick = tick ∧
      ((∃ e0 ∈ l, e0.wakeupTick = tick) ∨ e.wakers = [f]) := by
  unfold registerSleeper at h
  split_ifs at h with hany
  · obtain ⟨e0, he0, rfl⟩ := List.mem_map.mp h
    by_cases htick : e0.wakeupTick = tick
    · rw [if_pos htick]
      exact Or.inr ⟨htick, Or.inl ⟨e0, he0, htick⟩⟩
    · rw [if_neg htick]
      exact Or.inl ⟨he0, htick⟩
  · rcases List.mem_cons.mp h with rfl | h
    · exact Or.inr ⟨rfl, Or.inr rfl⟩
    · refine Or.inl ⟨h, fun htick => hany (List.any_eq_true.mpr ⟨e, h, by simp [htick]⟩)⟩

theorem mem_registerSleeper_self :
    ∃ e ∈ registerSleeper l tick f, e.wakeupTick = tick ∧ f ∈ e.wakers := by
  unfold registerSleeper
  split_ifs with hany
  · obtain ⟨e, he, htick⟩ := List.any_eq_true.mp hany
    simp only [decide_eq_true_eq] at htick
    refine ⟨_, List.mem_map.mpr ⟨e, he, rfl⟩, ?_⟩
    simp [htick]
  · exact ⟨_, List.mem_cons_self, rfl, List.mem_singleton_self f⟩

theorem mem_registerSleeper (he : e ∈ l) (tick : ℕ) (f : ρ) :
    ∃ e' ∈ registerSleeper l tick f, e'.wakeupTick = e.wakeupTick ∧ e.wakers ⊆ e'.wakers := by
  unfold registerSleeper
  split_ifs with hany
  · refine ⟨_, List.mem_map.mpr ⟨e, he, rfl⟩, ?_⟩
    split_ifs with htick
    · exact ⟨rfl, List.subset_append_left _ _⟩
    · exact ⟨rfl, List.Subset.refl _⟩
  · exact ⟨e, List.mem_cons_of_mem _ he, rfl, List.Subset.refl _⟩

end Sleepers

/-! ### The invariant -/

variable {ρ : Type}

def Timer.Registered (s : Timer ρ) (f : ρ) (tick : ℕ) : Prop :=
  ∃ e ∈ s.sleepers, e.wakeupTick = tick ∧ f ∈ e.wakers

/-- The future has its waker in the list, or it is going to be polled again. -/
def Timer.Covered (s : Timer ρ) (f : ρ) (tick : ℕ) : Prop :=
  s.Registered f tick ∨ f ∈ s.timer.waking ∨ s.wakeDue f = true

/-- The tick of a future that has added its waker to the list. -/
def SleepPc.waits : SleepPc → Option ℕ
  | .compare tick | .store tick | .unlock tick | .pending tick => some tick
  | _ => none

attribute [local grind] SleepPc.inSection SleepPc.waits Timer.Covered Timer.Registered

attribute [local grind =] update_apply

/-- What holds between any two steps. -/
structure TimerInv (s : Timer ρ) : Prop where
  distinct : (s.sleepers.map Sleepers.wakeupTick).Nodup
  low : ∀ e ∈ s.sleepers, s.wakeupTick ≤ e.wakeupTick ∨
    ∃ g, (s.pc g = .compare e.wakeupTick ∨ s.pc g = .store e.wakeupTick) ∧ e.wakers = [g]
  lower : ∀ f tick, s.pc f = .store tick → tick < s.wakeupTick
  exclusive : ∀ f g, (s.pc f).inSection = true → (s.pc g).inSection = true → f = g
  timer : ∀ f, (s.pc f).inSection = true → s.timer.inSection = false
  clock : ∀ currentTick, s.timer = .load currentTick → currentTick = s.ticks
  covered : ∀ f tick, (s.pc f).waits = some tick → s.Covered f tick
  finite : {f | s.pc f ≠ .idle}.Finite

namespace TimerInv

variable {s : Timer ρ} {f : ρ} {tick : ℕ}

theorem init : TimerInv ({} : Timer ρ) := by
  constructor <;> simp [SleepPc.inSection, SleepPc.waits]

theorem le_wakeupTick (hi : TimerInv s) (hout : ∀ f, (s.pc f).inSection = false) {e : Sleepers ρ}
    (he : e ∈ s.sleepers) : s.wakeupTick ≤ e.wakeupTick := by
  rcases hi.low e he with hle | ⟨g, hg, -⟩
  · exact hle
  · have hsection := hout g
    rcases hg with hg | hg <;> rw [hg] at hsection <;> cases hsection

variable [DecidableEq ρ]

theorem finite_goto (hi : TimerInv s) (f : ρ) (pc : SleepPc) :
    {g | update s.pc f pc g ≠ .idle}.Finite := by
  refine (hi.finite.insert f).subset fun g hg => ?_
  by_cases hgf : g = f
  · exact Or.inl hgf
  · exact Or.inr (by simpa [update_of_ne hgf] using hg)

/-- The steps of a poll that change nothing else. -/
theorem goto (hi : TimerInv s) (tick : ℕ) {pc : SleepPc}
    (hpc : ((s.pc f).inSection = false ∧ pc.inSection = false ∧
        ∀ tick, pc.waits = some tick → (s.pc f).waits = some tick) ∨
      (s.Unlocked ∧ pc = .insert tick) ∨
      (s.pc f = .compare tick ∧ tick < s.wakeupTick ∧ pc = .store tick) ∨
      (s.pc f = .compare tick ∧ s.wakeupTick ≤ tick ∧ pc = .unlock tick) ∨
      s.pc f = .unlock tick ∧ pc = .pending tick) : TimerInv (s.goto f pc) := by
  have hfinite := hi.finite_goto f pc
  cases hi
  unfold Timer.Unlocked at hpc
  constructor <;> simp only [Timer.goto, Timer.Covered, Timer.Registered] <;> grind

theorem store (hi : TimerInv s) (hf : s.pc f = .store tick) :
    TimerInv ({ s with wakeupTick := tick }.goto f (.unlock tick)) := by
  have hfinite := hi.finite_goto f (.unlock tick)
  have hlower := hi.lower f tick hf
  cases hi
  constructor <;> simp only [Timer.goto, Timer.Covered, Timer.Registered] <;> grind

omit [DecidableEq ρ] in
theorem registered_insert {g : ρ} {tick' : ℕ} (h : s.Registered g tick') :
    Timer.Registered { s with sleepers := registerSleeper s.sleepers tick f } g tick' := by
  obtain ⟨e, he, htick, hg⟩ := h
  obtain ⟨e', he', htick', hsub⟩ := mem_registerSleeper he tick f
  exact ⟨e', he', htick'.trans htick, hsub hg⟩

theorem insert (hi : TimerInv s) (hf : s.pc f = .insert tick) :
    TimerInv ({ s with sleepers := registerSleeper s.sleepers tick f }.goto f (.compare tick)) := by
  have hfinite := hi.finite_goto f (.compare tick)
  have hsection : (s.pc f).inSection = true := by rw [hf]; rfl
  -- the lock keeps all other futures out
  have hle : ∀ e ∈ s.sleepers, s.wakeupTick ≤ e.wakeupTick := by
    intro e he
    refine (hi.low e he).resolve_right ?_
    rintro ⟨g, hg, -⟩
    have hgf : g = f := hi.exclusive g f (by rcases hg with hg | hg <;> rw [hg] <;> rfl) hsection
    subst hgf
    rw [hf] at hg
    rcases hg with hg | hg <;> cases hg
  refine ⟨nodup_registerSleeper hi.distinct, fun e he => ?_, ?_, ?_, ?_, hi.clock, fun g t hg => ?_,
    hfinite⟩
  · rcases of_mem_registerSleeper he with ⟨he, -⟩ | ⟨htick, ⟨e0, he0, htick0⟩ | hwakers⟩
    · exact Or.inl (hle e he)
    · exact Or.inl (by rw [htick, ← htick0]; exact hle e0 he0)
    · refine Or.inr ⟨f, Or.inl ?_, hwakers⟩
      simp only [Timer.goto, update_self, htick]
  · intro g t hg
    by_cases hgf : g = f
    · subst hgf
      simp [Timer.goto] at hg
    · exact hi.lower g t (by simpa [Timer.goto, update_of_ne hgf] using hg)
  · have hexclusive := hi.exclusive
    simp only [Timer.goto]
    grind
  · have htimer := hi.timer
    simp only [Timer.goto]
    grind
  · by_cases hgf : g = f
    · subst hgf
      obtain rfl : tick = t := by simpa [Timer.goto, SleepPc.waits] using hg
      exact Or.inl mem_registerSleeper_self
    · simp only [Timer.goto, update_of_ne hgf] at hg
      exact (hi.covered g t hg).imp_left registered_insert

theorem startPoll (hi : TimerInv s) (hf : (s.pc f).inSection = false) (tick : ℕ) :
    TimerInv (s.startPoll f tick) := by
  have hfinite := hi.finite_goto f (.load tick)
  cases hi
  constructor <;>
    simp only [Timer.startPoll, Timer.goto, Timer.Covered, Timer.Registered] <;> grind

theorem futureStep (hi : TimerInv s) (he : s.Enabled (.future f)) :
    TimerInv (s.futureStep f (s.pc f)) := by
  simp only [Timer.Enabled] at he
  cases hf : s.pc f with
  | idle => simp only [hf] at he
  | pending tick => simp only [hf] at he
  | ready => simp only [hf] at he
  | load tick =>
    rw [Timer.futureStep]
    split_ifs <;> exact hi.goto tick (Or.inl ⟨by rw [hf]; rfl, rfl, nofun⟩)
  | lock tick =>
    simp only [hf] at he
    exact hi.goto tick (Or.inr (Or.inl ⟨he, rfl⟩))
  | insert tick => exact hi.insert hf
  | compare tick =>
    rw [Timer.futureStep]
    split_ifs with hlt
    · exact hi.goto tick (Or.inr (Or.inr (Or.inl ⟨hf, hlt, rfl⟩)))
    · exact hi.goto tick (Or.inr (Or.inr (Or.inr (Or.inl ⟨hf, Nat.not_lt.mp hlt, rfl⟩))))
  | store tick => exact hi.store hf
  | unlock tick => exact hi.goto tick (Or.inr (Or.inr (Or.inr (Or.inr ⟨hf, rfl⟩))))

omit [DecidableEq ρ] in
theorem setTimer (hi : TimerInv s) (pc : TimerPc ρ)
    (hsection : pc.inSection = true → s.timer.inSection = true ∨ s.Unlocked)
    (hload : ∀ currentTick, pc ≠ .load currentTick) (hwaking : s.timer.waking ⊆ pc.waking)
    (interrupts : ℕ) : TimerInv { s with timer := pc, interrupts := interrupts } := by
  unfold Timer.Unlocked at hsection
  cases hi
  constructor <;> simp only [Timer.Covered, Timer.Registered] <;>
    grind [Timer.Covered, Timer.Registered]

omit [DecidableEq ρ] in
theorem interrupt (hi : TimerInv s) (hidle : s.timer = .idle) :
    TimerInv { s with ticks := s.ticks + 1, timer := .load (s.ticks + 1) } := by
  cases hi
  constructor <;> simp only [Timer.Covered, Timer.Registered] <;>
    grind [Timer.Covered, Timer.Registered, TimerPc.inSection, TimerPc.waking]

omit [DecidableEq ρ] in
theorem pop (hi : TimerInv s) {wk : ℕ} (ht : s.timer = .pop wk) {e : Sleepers ρ}
    {rest : List (Sleepers ρ)} (hpop : MinHeap.pop Sleepers.wakeupTick s.sleepers = some (e, rest)) :
    TimerInv { s with sleepers := rest, timer := .wake e.wakers wk } := by
  obtain ⟨hperm, -⟩ := MinHeap.pop_eq_some hpop
  have hsub : ∀ x ∈ rest, x ∈ s.sleepers := fun x hx =>
    hperm.mem_iff.mpr (List.mem_cons_of_mem e hx)
  refine ⟨?_, fun x hx => hi.low x (hsub x hx), hi.lower, hi.exclusive, fun f hf => ?_, nofun,
    fun f tick hf => ?_, hi.finite⟩
  · exact (List.nodup_cons.mp ((hperm.map Sleepers.wakeupTick).nodup_iff.mp hi.distinct)).2
  · have htimer := hi.timer f hf
    rw [ht] at htimer
    cases htimer
  · rcases hi.covered f tick hf with ⟨x, hx, htick, hfx⟩ | hwaking | hdue
    · rcases List.mem_cons.mp (hperm.mem_iff.mp hx) with rfl | hx
      · exact Or.inr (Or.inl hfx)
      · exact Or.inl ⟨x, hx, htick, hfx⟩
    · rw [ht] at hwaking
      cases hwaking
    · exact Or.inr (Or.inr hdue)

theorem wake (hi : TimerInv s) {wk : ℕ} {wakers : List ρ} (ht : s.timer = .wake (f :: wakers) wk) :
    TimerInv { s with timer := .wake wakers wk
                      wakes := update s.wakes f (s.wakes f + 1)
                      wakeDue := update s.wakeDue f true } := by
  cases hi
  constructor <;> simp only [Timer.Covered, Timer.Registered] <;>
    grind [Timer.Covered, Timer.Registered, TimerPc.inSection, TimerPc.waking,
      update_apply]

omit [DecidableEq ρ] in
theorem publish (hi : TimerInv s) (ht : s.timer = .store) :
    TimerInv { s with timer := .unlock
                      wakeupTick := ((MinHeap.peek Sleepers.wakeupTick s.sleepers).map
                        Sleepers.wakeupTick).getD usizeMax } := by
  have hout : ∀ f, (s.pc f).inSection = false := fun f => eq_false_of_ne_true fun hf => by
    have htimer := hi.timer f hf
    rw [ht] at htimer
    cases htimer
  refine ⟨hi.distinct, fun e he => Or.inl ?_, fun f tick hf => ?_, hi.exclusive, fun f hf => ?_,
    nofun, fun f tick hf => ?_, hi.finite⟩
  · exact MinHeap.peek_getD_le usizeMax he
  · have hsection := hout f
    rw [hf] at hsection
    cases hsection
  · rw [hout f] at hf
    cases hf
  · rcases hi.covered f tick hf with hreg | hwaking | hdue
    · exact Or.inl hreg
    · rw [ht] at hwaking
      cases hwaking
    · exact Or.inr (Or.inr hdue)

theorem timerStep (hi : TimerInv s) (he : s.Enabled .timer) :
    TimerInv (s.timerStep s.timer) := by
  simp only [Timer.Enabled] at he
  cases ht : s.timer with
  | idle => simp only [ht] at he
  | load currentTick =>
    have hnil : s.timer.waking ⊆ [] := by rw [ht]; exact List.nil_subset _
    rw [Timer.timerStep]
    split_ifs
    · exact hi.setTimer (.lock _) nofun nofun hnil _
    · exact hi.setTimer .idle nofun nofun hnil _
  | lock wk =>
    simp only [ht] at he
    exact hi.setTimer (.pop wk) (fun _ => Or.inr he) nofun (by rw [ht]; exact List.nil_subset _) _
  | pop wk =>
    rw [Timer.timerStep]
    split
    · exact hi.setTimer .unlock (fun _ => Or.inl (by rw [ht]; rfl)) nofun
        (by rw [ht]; exact List.nil_subset _) _
    · rename_i e rest hpop
      exact hi.pop ht hpop
  | wake wakers wk =>
    cases wakers with
    | nil =>
      exact hi.setTimer (.compare wk) (fun _ => Or.inl (by rw [ht]; rfl)) nofun
        (by rw [ht]; exact List.nil_subset _) _
    | cons f wakers => exact hi.wake ht
  | compare wk =>
    refine hi.setTimer _ (fun _ => Or.inl (by rw [ht]; rfl)) ?_
      (by rw [ht]; exact List.nil_subset _) _
    split_ifs <;> nofun
  | store => exact hi.publish ht
  | unlock =>
    exact hi.setTimer .idle nofun nofun (by rw [ht]; exact List.nil_subset _) _

theorem run (hi : TimerInv s) {op : TimerOp ρ} (he : s.Enabled op) : TimerInv (s.run op) := by
  cases op with
  | sleep f duration => exact hi.startPoll (by rw [show s.pc f = .idle from he]; rfl) _
  | poll f =>
    obtain ⟨tick, hf⟩ := he
    simp only [Timer.run, hf]
    exact hi.startPoll (by rw [hf]; rfl) tick
  | drop f =>
    refine hi.goto 0 (Or.inl ⟨?_, rfl, nofun⟩)
    rcases he with hf | ⟨tick, hf⟩ <;> rw [hf] <;> rfl
  | future f => exact hi.futureStep he
  | interrupt => exact hi.interrupt he
  | timer => exact hi.timerStep he

end TimerInv

/-! ### How long a waker waits -/

/-- The polls that are going to make an entry for an earlier tick. -/
def Timer.entering (s : Timer ρ) (tick : ℕ) : Set ρ :=
  {f | ∃ t, t < tick ∧ (s.pc f = .lock t ∨ s.pc f = .insert t)}

/-- How many entries for earlier ticks there are or can still be made. -/
noncomputable def Timer.ahead (s : Timer ρ) (tick : ℕ) : ℕ :=
  (s.sleepers.filter fun e => e.wakeupTick < tick).length + (s.entering tick).ncard

/-- The interrupt has taken out its entry. -/
def TimerPc.popped : TimerPc ρ → ℕ
  | .wake _ _ | .compare _ | .store | .unlock => 1
  | _ => 0

/-- A waker whose tick has come, before it is taken out of the list: at most `bound` interrupts are
handled until then. -/
structure Timer.Waits (s : Timer ρ) (f : ρ) (tick bound : ℕ) : Prop where
  registered : s.Registered f tick
  published : s.wakeupTick ≤ tick
  due : tick ≤ s.ticks
  bound : s.interrupts + s.ahead tick + s.timer.popped ≤ bound

/-- The waker was woken after it had been woken `n` times, or it is going to be. -/
def Timer.Served (s : Timer ρ) (f : ρ) (tick n bound : ℕ) : Prop :=
  n < s.wakes f ∨ s.wakes f = n ∧
    (f ∈ s.timer.waking ∧ s.interrupts ≤ bound ∨ s.Waits f tick bound)

namespace TimerInv

variable {s : Timer ρ} {f g : ρ} {tick n bound : ℕ}

theorem entering_finite (hi : TimerInv s) (tick : ℕ) : (s.entering tick).Finite := by
  refine hi.finite.subset ?_
  rintro f ⟨t, -, hf | hf⟩ <;> rw [Set.mem_ofPred_eq, hf] <;> nofun

variable [DecidableEq ρ]

theorem ahead_goto (hi : TimerInv s) (g : ρ) (pc : SleepPc) (tick : ℕ)
    (hpc : ∀ t, t < tick → pc = .lock t ∨ pc = .insert t → s.pc g = .lock t ∨ s.pc g = .insert t) :
    (s.goto g pc).ahead tick ≤ s.ahead tick := by
  refine Nat.add_le_add_left (Set.ncard_le_ncard ?_ (hi.entering_finite tick)) _
  rintro f ⟨t, ht, hf⟩
  by_cases hfg : f = g
  · subst hfg
    simp only [Timer.goto, update_self] at hf
    exact ⟨t, ht, hpc t ht hf⟩
  · simp only [Timer.goto, update_of_ne hfg] at hf
    exact ⟨t, ht, hf⟩

omit [DecidableEq ρ] in
theorem length_filter_eq (l : List (Sleepers ρ)) (tick : ℕ) :
    (l.filter fun e => e.wakeupTick < tick).length =
      (l.map Sleepers.wakeupTick).countP fun t => t < tick := by
  rw [List.countP_map, List.countP_eq_length_filter]
  rfl

theorem ahead_insert (hi : TimerInv s) {t : ℕ} (hg : s.pc g = .insert t) (tick : ℕ) :
    Timer.ahead ({ s with sleepers := registerSleeper s.sleepers t g }.goto g (.compare t)) tick ≤
      s.ahead tick := by
  have hfinite := hi.entering_finite tick
  have hsub : Timer.entering
      ({ s with sleepers := registerSleeper s.sleepers t g }.goto g (.compare t)) tick ⊆
      s.entering tick \ {g} := by
    rintro f ⟨u, hu, hf⟩
    have hfg : f ≠ g := by
      rintro rfl
      simp [Timer.goto] at hf
    simp only [Timer.goto, update_of_ne hfg] at hf
    exact ⟨⟨u, hu, hf⟩, hfg⟩
  have hcard := Set.ncard_le_ncard hsub hfinite.sdiff
  have hle : (s.entering tick \ {g}).ncard ≤ (s.entering tick).ncard :=
    Set.ncard_le_ncard Set.sdiff_subset hfinite
  unfold Timer.ahead
  rw [length_filter_eq, length_filter_eq]
  simp only [Timer.goto] at hcard ⊢
  rcases map_registerSleeper s.sleepers t g with hmap | ⟨-, hmap⟩
  · rw [hmap]
    omega
  · rw [hmap, List.countP_cons]
    by_cases ht : t < tick
    · have hmem : g ∈ s.entering tick := ⟨t, ht, Or.inr hg⟩
      have hdiff := Set.ncard_sdiff_singleton_add_one hmem hfinite
      simp only [ht, decide_true, if_true]
      omega
    · simp only [ht, decide_false, Bool.false_eq_true, if_false]
      omega

theorem waits_futureStep (hi : TimerInv s) (hw : s.Waits f tick bound) :
    (s.futureStep g (s.pc g)).Waits f tick bound := by
  have hgoto : ∀ pc, (∀ t, t < tick → pc = .lock t ∨ pc = .insert t →
      s.pc g = .lock t ∨ s.pc g = .insert t) → (s.goto g pc).Waits f tick bound := fun pc hpc => by
    have hahead := hi.ahead_goto g pc tick hpc
    exact ⟨hw.registered, hw.published, hw.due, by
      have := hw.bound
      simp only [Timer.goto] at hahead ⊢
      omega⟩
  cases hg : s.pc g with
  | idle => exact hw
  | pending t => exact hw
  | ready => exact hw
  | load t =>
    rw [Timer.futureStep]
    split_ifs with ht
    · exact hgoto _ nofun
    · refine hgoto _ fun u hu hpc => ?_
      -- only polls for later ticks still have to wait
      have hdue := hw.due
      have : u = t := by
        rcases hpc with hpc | hpc <;> cases hpc
        rfl
      omega
  | lock t =>
    refine hgoto _ fun u hu hpc => Or.inl ?_
    rcases hpc with hpc | hpc <;> cases hpc
    exact hg
  | insert t =>
    have hahead := hi.ahead_insert hg tick
    refine ⟨registered_insert hw.registered, hw.published, hw.due, ?_⟩
    have := hw.bound
    simp only [Timer.futureStep, Timer.goto] at hahead ⊢
    omega
  | compare t =>
    rw [Timer.futureStep]
    split_ifs <;> exact hgoto _ nofun
  | store t =>
    have hlower := hi.lower g t hg
    have hstep := hgoto (.unlock t) nofun
    exact ⟨hstep.registered, le_trans (le_of_lt hlower) hw.published, hstep.due, hstep.bound⟩
  | unlock t => exact hgoto _ nofun

theorem served_pop (hi : TimerInv s) (hn : s.wakes f = n) (hw : s.Waits f tick bound) {wk : ℕ}
    (ht : s.timer = .pop wk) : (s.timerStep (.pop wk)).Served f tick n bound := by
  obtain ⟨x, hx, hxtick, hfx⟩ := hw.registered
  rw [Timer.timerStep]
  split
  · rename_i hnone
    rw [MinHeap.pop_eq_none.mp hnone] at hx
    cases hx
  · rename_i e rest hpop
    obtain ⟨hperm, -⟩ := MinHeap.pop_eq_some hpop
    have hle := MinHeap.le_of_pop hpop hx
    have hbound := hw.bound
    rw [ht] at hbound
    refine Or.inr ⟨hn, ?_⟩
    rcases List.mem_cons.mp (hperm.mem_iff.mp hx) with rfl | hx
    · refine Or.inl ⟨hfx, ?_⟩
      simp only [TimerPc.popped] at hbound
      simp only
      omega
    · have hdistinct := (hperm.map Sleepers.wakeupTick).nodup_iff.mp hi.distinct
      have hne : e.wakeupTick ≠ tick := fun heq =>
        (List.nodup_cons.mp hdistinct).1 (heq ▸ hxtick ▸ List.mem_map_of_mem hx)
      have hlt : e.wakeupTick < tick := by omega
      refine Or.inr ⟨⟨x, hx, hxtick, hfx⟩, hw.published, hw.due, ?_⟩
      have hlen := (hperm.filter fun e => e.wakeupTick < tick).length_eq
      rw [List.filter_cons_of_pos (by simpa using hlt), List.length_cons] at hlen
      simp only [Timer.ahead, Timer.entering, TimerPc.popped] at hbound hlen ⊢
      omega

theorem served_wake (hn : s.wakes f = n) (hf : f ∈ s.timer.waking) (hb : s.interrupts ≤ bound) :
    (s.timerStep s.timer).Served f tick n bound := by
  cases ht : s.timer with
  | wake wakers wk =>
    rw [ht] at hf
    cases wakers with
    | nil => cases hf
    | cons g wakers =>
      by_cases hfg : f = g
      · subst hfg
        refine Or.inl ?_
        simp only [Timer.timerStep, update_self]
        omega
      · refine Or.inr ⟨?_, Or.inl ⟨(List.mem_cons.mp hf).resolve_left hfg, hb⟩⟩
        simp only [Timer.timerStep, update_of_ne hfg, hn]
  | _ =>
    rw [ht] at hf
    cases hf

theorem served_timerStep (hi : TimerInv s) (hn : s.wakes f = n) (hw : s.Waits f tick bound) :
    (s.timerStep s.timer).Served f tick n bound := by
  have hbound := hw.bound
  -- most steps of the handler neither take out an entry nor end it
  have hkeep : ∀ pc, pc.popped = s.timer.popped →
      Timer.Served { s with timer := pc } f tick n bound := fun pc hpc =>
    Or.inr ⟨hn, Or.inr ⟨hw.registered, hw.published, hw.due, hpc ▸ hbound⟩⟩
  cases ht : s.timer with
  | idle => exact Or.inr ⟨hn, Or.inr hw⟩
  | load currentTick =>
    -- the tick of the waker has come, so that the interrupt does not return here
    have hle : s.wakeupTick ≤ currentTick := by
      rw [hi.clock currentTick ht]
      exact le_trans hw.published hw.due
    rw [Timer.timerStep, if_pos hle]
    exact hkeep _ (by rw [ht]; rfl)
  | lock wk => exact hkeep _ (by rw [ht]; rfl)
  | pop wk => exact hi.served_pop hn hw ht
  | wake wakers wk =>
    cases wakers with
    | nil => exact hkeep _ (by rw [ht]; rfl)
    | cons g wakers =>
      by_cases hfg : f = g
      · subst hfg
        refine Or.inl ?_
        simp only [Timer.timerStep, update_self]
        omega
      · rw [ht] at hbound
        refine Or.inr ⟨?_, Or.inr ⟨hw.registered, hw.published, hw.due, hbound⟩⟩
        simp only [Timer.timerStep, update_of_ne hfg, hn]
  | compare wk => exact hkeep _ (by rw [ht]; split_ifs <;> rfl)
  | store =>
    rw [ht] at hbound
    obtain ⟨x, hx, rfl, hfx⟩ := hw.registered
    exact Or.inr ⟨hn, Or.inr ⟨⟨x, hx, rfl, hfx⟩, MinHeap.peek_getD_le usizeMax hx, hw.due, hbound⟩⟩
  | unlock =>
    rw [ht] at hbound
    refine Or.inr ⟨hn, Or.inr ⟨hw.registered, hw.published, hw.due, ?_⟩⟩
    simp only [Timer.timerStep, Timer.finish, Timer.ahead, Timer.entering, TimerPc.popped] at hbound ⊢
    omega

theorem futureStep_frame (s : Timer ρ) (g : ρ) (pc : SleepPc) :
    (s.futureStep g pc).timer = s.timer ∧ (s.futureStep g pc).interrupts = s.interrupts ∧
      (s.futureStep g pc).wakes = s.wakes := by
  unfold Timer.futureStep
  split <;> try split_ifs
  all_goals exact ⟨rfl, rfl, rfl⟩

theorem timerStep_wakes_le (s : Timer ρ) (f : ρ) : s.wakes f ≤ (s.timerStep s.timer).wakes f := by
  unfold Timer.timerStep
  split
  case h_6 g wakers wk _ =>
    by_cases hfg : f = g
    · subst hfg
      simp only [update_self]
      omega
    · simp only [update_of_ne hfg, le_refl]
  all_goals try split
  all_goals exact le_refl _

omit [DecidableEq ρ] in
theorem served_of_frame {s' : Timer ρ} (hs : s.Served f tick n bound)
    (hframe : s'.timer = s.timer ∧ s'.interrupts = s.interrupts ∧ s'.wakes = s.wakes)
    (hwaits : s.Waits f tick bound → s'.Waits f tick bound) : s'.Served f tick n bound := by
  obtain ⟨htimer, hinterrupts, hwakes⟩ := hframe
  rw [Timer.Served, htimer, hinterrupts, hwakes]
  exact hs.imp_right (And.imp_right (Or.imp_right hwaits))

theorem waits_startPoll (hi : TimerInv s) (hw : s.Waits f tick bound) (g : ρ) (t : ℕ) :
    (s.startPoll g t).Waits f tick bound := by
  have hahead := hi.ahead_goto g (.load t) tick nofun
  refine ⟨hw.registered, hw.published, hw.due, ?_⟩
  have hbound := hw.bound
  simp only [Timer.startPoll, Timer.goto, Timer.ahead, Timer.entering] at hahead hbound ⊢
  omega

theorem served_run (hi : TimerInv s) {op : TimerOp ρ} (he : s.Enabled op)
    (hs : s.Served f tick n bound) : (s.run op).Served f tick n bound := by
  cases op with
  | sleep g duration => exact served_of_frame hs ⟨rfl, rfl, rfl⟩ fun hw => hi.waits_startPoll hw g _
  | poll g =>
    obtain ⟨t, hg⟩ := he
    simp only [Timer.run, hg]
    exact served_of_frame hs ⟨rfl, rfl, rfl⟩ fun hw => hi.waits_startPoll hw g t
  | drop g =>
    refine served_of_frame hs ⟨rfl, rfl, rfl⟩ fun hw => ⟨hw.registered, hw.published, hw.due, ?_⟩
    have hahead := hi.ahead_goto g .idle tick nofun
    have hbound := hw.bound
    simp only [Timer.run, Timer.goto] at hahead ⊢
    omega
  | future g =>
    exact served_of_frame hs (futureStep_frame s g (s.pc g)) hi.waits_futureStep
  | interrupt =>
    have hidle : s.timer = .idle := he
    refine hs.imp_right (And.imp_right fun h => ?_)
    rcases h with ⟨hf, -⟩ | hw
    · rw [hidle] at hf
      cases hf
    · have hbound := hw.bound
      rw [hidle] at hbound
      exact Or.inr ⟨hw.registered, hw.published, Nat.le_succ_of_le hw.due, hbound⟩
  | timer =>
    rcases hs with hs | ⟨hn, ⟨hf, hb⟩ | hw⟩
    · exact Or.inl (lt_of_lt_of_le hs (timerStep_wakes_le s f))
    · exact served_wake hn hf hb
    · exact hi.served_timerStep hn hw

end TimerInv

variable [DecidableEq ρ]

theorem timerInv_of_reachable {s : Timer ρ} (hs : (timers ρ).Reachable s) : TimerInv s := by
  refine Transition.Reachable.invariant (fun s hs => ?_) (fun s t hi hst => ?_) hs
  · rw [show s = {} from hs]
    exact TimerInv.init
  · obtain ⟨op, he, hrun⟩ := hst
    obtain rfl : s.run op = t := Except.ok.inj hrun
    exact hi.run he

theorem served_of_run {s t : Timer ρ} {f : ρ} {tick n bound : ℕ} (hi : TimerInv s)
    (hs : s.Served f tick n bound) (hrun : Relation.ReflTransGen (timers ρ).Step s t) :
    t.Served f tick n bound := by
  have hboth : TimerInv t ∧ t.Served f tick n bound := by
    induction hrun with
    | refl => exact ⟨hi, hs⟩
    | tail _ hst ih =>
      obtain ⟨op, he, hrun⟩ := hst
      cases hrun
      exact ⟨ih.1.run he, ih.1.served_run he ih.2⟩
  exact hboth.2

theorem woken_of_registered {s : Timer ρ} (hi : TimerInv s) {f : ρ} {tick : ℕ}
    (hreg : s.Registered f tick) (hcompare : s.pc f ≠ .compare tick) (hstore : s.pc f ≠ .store tick)
    (hdue : tick ≤ s.ticks) :
    ∃ n, ∀ t, Relation.ReflTransGen (timers ρ).Step s t → s.interrupts + n ≤ t.interrupts →
      s.wakes f < t.wakes f := by
  have hpublished : s.wakeupTick ≤ tick := by
    obtain ⟨e, he, rfl, hf⟩ := hreg
    refine (hi.low e he).resolve_right ?_
    rintro ⟨g, hg, hwakers⟩
    rw [hwakers, List.mem_singleton] at hf
    subst hf
    exact hg.elim hcompare hstore
  have hwaits : s.Waits f tick (s.interrupts + s.ahead tick + s.timer.popped) :=
    ⟨hreg, hpublished, hdue, le_refl _⟩
  refine ⟨s.ahead tick + s.timer.popped + 1, fun t hrun hle => ?_⟩
  rcases served_of_run hi (Or.inr ⟨rfl, Or.inr hwaits⟩) hrun with hlt | ⟨-, ⟨-, hb⟩ | hw⟩
  · exact hlt
  · omega
  · have hbound := hw.bound
    omega

/-- While no poll has the list locked, `WAKEUP_TICK` is at most the tick of every entry; once its
tick has come, every published waker is woken within finitely many interrupts; and every future that
waits has a registered waker, or is going to be polled again. -/
theorem noLostSleeper_of_reachable {s : Timer ρ} (hs : (timers ρ).Reachable s) :
    ((∀ f, (s.pc f).inSection = false) → ∀ e ∈ s.sleepers, s.wakeupTick ≤ e.wakeupTick) ∧
      (∀ f tick, s.Registered f tick → s.pc f ≠ .compare tick → s.pc f ≠ .store tick →
        tick ≤ s.ticks → ∃ n, ∀ t, Relation.ReflTransGen (timers ρ).Step s t →
          s.interrupts + n ≤ t.interrupts → s.wakes f < t.wakes f) ∧
      ∀ f tick, s.pc f = .pending tick → s.Covered f tick := by
  have hi := timerInv_of_reachable hs
  refine ⟨fun hout e he => hi.le_wakeupTick hout he, fun f tick hreg hcompare hstore hdue =>
    woken_of_registered hi hreg hcompare hstore hdue, fun f tick hf => hi.covered f tick (by rw [hf]; rfl)⟩

/-- A future whose tick comes while it waits. -/
theorem noLostSleeper_due : ∃ s : Timer ℕ, s.Registered 0 1 ∧ s.pc 0 = .pending 1 ∧ s.ticks = 1 ∧
    ∃ n, ∀ t, Relation.ReflTransGen (timers ℕ).Step s t → s.interrupts + n ≤ t.interrupts →
      s.wakes 0 < t.wakes 0 := by
  have h0 : (timers ℕ).Reachable {} := .of_init rfl
  have h3 := h0.after [.sleep 0 1, .future 0, .future 0] ⟨rfl, trivial, ⟨fun f => ?_, rfl⟩, trivial⟩
  · have h8 := h3.after [.future 0, .future 0, .future 0, .future 0, .interrupt]
      ⟨trivial, trivial, trivial, trivial, rfl, trivial⟩
    refine ⟨_, ?_, rfl, rfl, (noLostSleeper_of_reachable h8).2.1 0 1 ?_ nofun nofun le_rfl⟩
    · exact ⟨⟨1, [0]⟩, List.mem_singleton_self _, rfl, List.mem_singleton_self 0⟩
    · exact ⟨⟨1, [0]⟩, List.mem_singleton_self _, rfl, List.mem_singleton_self 0⟩
  · match f with
    | 0 => rfl
    | _ + 1 => rfl

end Dlutos
