import Dlutos.Sync.WaitHandle
import Mathlib.Data.List.Nodup

/-!
# The protocol of wait handles

What holds of one handle, `HandleInv`, depends on its object, on whether it is on the list and on
what the list lock is used for (`Stage`); every step changes this for one handle only.

* The owner that has locked the waker and found the flag unset keeps the notifier from taking the
  waker, so that a waker that is saved late is still taken (`HandleInv.storing`).
* The pointer is null exactly if a notifier has marked the object and is done with it
  (`HandleInv.onList_iff`).  This is what `wait_until_off_list` relies on.
-/

namespace Dlutos

open ExceptLoop Transition Function

inductive Stage where
  /-- the list is not locked for this handle -/
  | away
  | owner
  | notifier (work : Work)
  deriving DecidableEq

def ListLock.stage (l : ListLock) (h : ℕ) : Stage :=
  match l with
  | .waiter h' => if h' = h then .owner else .away
  | .work _ h' w => if h' = h then .notifier w else .away
  | _ => .away

/-- The object has been put on the list. -/
def WaitObject.Entered (o : WaitObject) : Prop :=
  o.state ≠ .init ∨ ∃ waker, o.pc = .saveWaker waker

attribute [local grind] WaitObject.Entered WaiterPc.dropping

structure HandleInv (o : WaitObject) (listed : Prop) (g : Stage) (called : Prop) : Prop where
  listed_iff : listed ↔ o.Entered ∧ ((o.wokenUp = false ∧ o.pc ≠ .dropped) ∨
    ∃ work, g = .notifier work ∧ work ≠ .mark ∧ work ≠ .clear)
  onList_iff : o.onList = true ↔ o.wokenUp = false ∨ ∃ work, g = .notifier work
  owner_iff : g = .owner ↔
    (∃ w, o.pc = .pushBack w ∨ o.pc = .saveWaker w) ∨ o.pc = .dropRemove
  -- the notifier
  marking : g = .notifier .mark → o.wokenUp = false
  marked : ∀ work, g = .notifier work → work ≠ .mark → o.wokenUp = true
  working : ∀ work, g = .notifier work → o.state ≠ .init ∧ o.pc ≠ .dropped
  woken : o.wokenUp = true → o.state ≠ .init
  notified : o.notified = if o.wokenUp then 1 else 0
  -- the waker
  waiter_lock : o.wakerLock = some .waiter ↔ ∃ w, o.pc = .recheck w ∨ o.pc = .store w
  notifier_lock : o.wakerLock = some .notifier ↔ g = .notifier .take
  storing : ∀ w, o.pc = .store w → o.wokenUp = false ∨ g = .notifier .lockWaker
  stored : o.wokenUp = false ∨ g = .notifier .lockWaker ∨ g = .notifier .take →
    o.waker = o.registered
  due : ∀ w, g = .notifier (.wake w) → w = o.registered
  woke : o.wokenUp = true → (∀ work, g = .notifier work → work = .remove ∨ work = .clear) →
    ∀ w, o.registered = some w → w ∈ o.wakes
  unregistered : o.state = .init ∨ o.state = .onList → o.registered = none
  registered : o.state = .wakerSet → o.registered ≠ none
  -- the owner
  entering : (∃ w, o.pc = .lockList w ∨ o.pc = .pushBack w ∨ o.pc = .saveWaker w) →
    o.state = .init
  checking : ∀ w, o.pc = .check w → o.state = .onList ∧ w ≠ none
  saving : (∃ w, o.pc = .lockWaker w ∨ o.pc = .recheck w ∨ o.pc = .store w) →
    o.state = .onList ∧ o.early = false
  checkingSet : o.pc = .checkSet → o.state = .wakerSet
  spinning : o.pc = .spin ∨ o.pc = .dropSpin → o.wokenUp = true
  spinState : o.pc = .spin → o.state = .wakerSet ∨ o.state = .wokenUp
  dropState : o.pc.dropping = true → o.pc ≠ .dropped → o.state ≠ .init ∧ o.state ≠ .wokenUp
  wokenState : o.state = .wokenUp → o.wokenUp = true ∧ (o.pc ≠ .spin → o.onList = false)
  early : o.early = true → o.wokenUp = true
  pending : o.result = some .pending → o.state = .wakerSet ∧ o.early = false
  ready : o.result = some .ready → o.state = .wokenUp
  called : called → o.state ≠ .init ∧ o.pc.dropping = false

namespace HandleInv

variable {o : WaitObject} {l c : Prop} {g : Stage}

theorem fresh : HandleInv {} False .away False := by
  constructor <;> grind

variable {pc : WaiterPc}

section

variable (hi : HandleInv o l g c)
include hi

theorem of_called {c' : Prop} (h : c' → c) : HandleInv o l g c' :=
  { hi with called := fun hc => hi.called (h hc) }

theorem of_listed {l' : Prop} (h : l' ↔ l) : HandleInv o l' g c :=
  { hi with listed_iff := h.trans hi.listed_iff }

/-! ### Calls of the owner -/

theorem add (hp : o.pc = .rest) (hs : o.state = .init) :
    HandleInv { o with pc := .lockList none } l g c := by
  cases hi
  constructor <;> grind

theorem poll (hp : o.pc = .rest)
    (hpc : o.state = .init ∧ (∃ w, pc = .lockList (some w)) ∨
      o.state = .onList ∧ (∃ w, pc = .check (some w)) ∨ o.state = .wakerSet ∧ pc = .checkSet) :
    HandleInv { o with early := o.wokenUp, result := none, pc := pc } l g c := by
  cases hi
  constructor <;> grind

theorem poll_ready (hp : o.pc = .rest) (hs : o.state = .wokenUp) :
    HandleInv { o with early := o.wokenUp, result := some .ready } l g c := by
  cases hi
  constructor <;> grind

theorem drop (hp : o.pc = .rest) (hc : ¬ c)
    (hpc : (o.state = .init ∨ o.state = .wokenUp) ∧ pc = .dropped ∨
      (o.state = .onList ∨ o.state = .wakerSet) ∧ pc = .dropCheck) :
    HandleInv { o with pc := pc } l g c := by
  cases hi
  constructor <;> grind

end

/-! ### Steps of the owner -/

variable {w : Option ℕ}

theorem lockList (hi : HandleInv o l .away c) (hp : o.pc = .lockList w) :
    HandleInv { o with pc := .pushBack w } l .owner c := by
  cases hi
  constructor <;> grind

theorem pushBack (hi : HandleInv o l .owner c) (hp : o.pc = .pushBack w) :
    HandleInv { o with pc := .saveWaker w } True .owner c := by
  cases hi
  constructor <;> grind

theorem saveNone (hi : HandleInv o l .owner c) (hp : o.pc = .saveWaker none) :
    HandleInv { o with state := .onList, pc := .rest } l .away c := by
  cases hi
  constructor <;> grind

theorem saveSome (hi : HandleInv o l .owner c) {w : ℕ} (hp : o.pc = .saveWaker (some w)) :
    HandleInv { o with waker := some w, registered := some w, state := .wakerSet, pc := .rest,
                       result := some .pending } l .away c := by
  cases hi
  constructor <;> grind

section

variable (hi : HandleInv o l g c)
include hi

theorem found (hw : o.wokenUp = true) {k : Option Side}
    (hp : (∃ w, o.pc = .check w) ∧ k = o.wakerLock ∨ (∃ w, o.pc = .recheck w) ∧ k = none) :
    HandleInv { o with wakerLock := k, state := .wokenUp, pc := .spin } l g c := by
  cases hi
  constructor <;> grind

theorem check (hw : o.wokenUp = false) {w : ℕ}
    (hp : o.pc = .check (some w)) : HandleInv { o with pc := .lockWaker w } l g c := by
  cases hi
  constructor <;> grind

theorem lockWaker (hk : o.wakerLock = none) {w : ℕ} (hp : o.pc = .lockWaker w) :
    HandleInv { o with wakerLock := some .waiter, pc := .recheck w } l g c := by
  cases hi
  constructor <;> grind

theorem recheck (hw : o.wokenUp = false) {w : ℕ}
    (hp : o.pc = .recheck w) : HandleInv { o with pc := .store w } l g c := by
  cases hi
  constructor <;> grind

theorem store {w : ℕ} (hp : o.pc = .store w) :
    HandleInv { o with waker := some w, registered := some w, state := .wakerSet, pc := .rest,
                       result := some .pending, wakerLock := none } l g c := by
  cases hi
  constructor <;> grind

theorem checkSet (hp : o.pc = .checkSet) (hw : o.wokenUp = false) :
    HandleInv { o with pc := .rest, result := some .pending } l g c := by
  cases hi
  constructor <;> grind

theorem checkSet_found (hp : o.pc = .checkSet) (hw : o.wokenUp = true) :
    HandleInv { o with pc := .spin } l g c := by
  cases hi
  constructor <;> grind

theorem spin (hp : o.pc = .spin) (hn : o.onList = false) :
    HandleInv { o with state := .wokenUp, pc := .rest, result := some .ready } l g c := by
  cases hi
  constructor <;> grind

theorem dropCheck (hp : o.pc = .dropCheck)
    (hpc : o.wokenUp = true ∧ pc = .dropSpin ∨ pc = .dropLock) :
    HandleInv { o with pc := pc } l g c := by
  cases hi
  constructor <;> grind

theorem dropSpin (hp : o.pc = .dropSpin) (hn : o.onList = false) :
    HandleInv { o with pc := .dropped } l g c := by
  cases hi
  constructor <;> grind

end

theorem dropLock (hi : HandleInv o l .away c) (hp : o.pc = .dropLock) :
    HandleInv { o with pc := .dropRemove } l .owner c := by
  cases hi
  constructor <;> grind

theorem dropRemove (hi : HandleInv o l .owner c) (hp : o.pc = .dropRemove) :
    HandleInv { o with pc := .dropped } False .away c := by
  cases hi
  constructor <;> grind

/-! ### Steps of a notifier -/

theorem pick (hi : HandleInv o l .away c) (hl : l) : HandleInv o l (.notifier .mark) c := by
  cases hi
  constructor <;> grind

theorem mark (hi : HandleInv o l (.notifier .mark) c) :
    HandleInv { o with wokenUp := true, notified := o.notified + 1 } l (.notifier .lockWaker) c := by
  cases hi
  constructor <;> grind

theorem notifier_lockWaker (hi : HandleInv o l (.notifier .lockWaker) c) (hk : o.wakerLock = none) :
    HandleInv { o with wakerLock := some .notifier } l (.notifier .take) c := by
  cases hi
  constructor <;> grind

theorem take (hi : HandleInv o l (.notifier .take) c) :
    HandleInv { o with waker := none, wakerLock := none } l (.notifier (.wake o.waker)) c := by
  cases hi
  constructor <;> grind

theorem wake (hi : HandleInv o l (.notifier (.wake w)) c) :
    HandleInv { o with wakes := o.wakes ++ w.toList } l (.notifier .remove) c := by
  cases hi
  constructor <;> grind

theorem remove (hi : HandleInv o l (.notifier .remove) c) :
    HandleInv o False (.notifier .clear) c := by
  cases hi
  constructor <;> grind

theorem clear (hi : HandleInv o l (.notifier .clear) c) :
    HandleInv { o with onList := false } l .away c := by
  cases hi
  constructor <;> grind

theorem listed_of_saving (hi : HandleInv o l g c)
    (hp : ∃ w, o.pc = .saveWaker (some w) ∨ o.pc = .store w) : l := by
  cases hi
  grind

end HandleInv

/-! ### The list and all handles -/

/-- No object is on the list twice, and each handle is in a state of the protocol. -/
structure WaitInv (s : WaitState) : Prop where
  nodup : s.waiters.Nodup
  each : ∀ h, HandleInv (s.obj h) (h ∈ s.waiters) (s.lock.stage h) (s.lock.CalledFor h)

@[simp] theorem ListLock.stage_free (x : ℕ) : ListLock.free.stage x = .away := rfl

@[simp] theorem ListLock.stage_pick (call : Notify) (x : ℕ) :
    (ListLock.pick call).stage x = .away := rfl

@[simp] theorem ListLock.stage_unlock (x : ℕ) : ListLock.unlock.stage x = .away := rfl

@[simp] theorem ListLock.stage_waiter (h : ℕ) : (ListLock.waiter h).stage h = .owner := if_pos rfl

@[simp] theorem ListLock.stage_work (call : Notify) (h : ℕ) (w : Work) :
    (ListLock.work call h w).stage h = .notifier w := if_pos rfl

theorem ListLock.stage_waiter_ne {h x : ℕ} (hx : x ≠ h) : (ListLock.waiter h).stage x = .away :=
  if_neg hx.symm

theorem ListLock.stage_work_ne (call : Notify) {h x : ℕ} (w : Work) (hx : x ≠ h) :
    (ListLock.work call h w).stage x = .away := if_neg hx.symm

namespace WaitInv

variable {s : WaitState} {h : ℕ}

variable {ws : List ℕ} {k : ListLock}

theorem revise (hi : WaitInv s) {o : WaitObject} (hn : ws.Nodup)
    (hw : ∀ x, x ≠ h → (x ∈ ws ↔ x ∈ s.waiters)) (hk : ∀ x, x ≠ h → k.stage x = s.lock.stage x)
    (hc : ∀ x, x ≠ h → k.CalledFor x → s.lock.CalledFor x)
    (ho : HandleInv o (h ∈ ws) (k.stage h) (k.CalledFor h)) :
    WaitInv { waiters := ws, lock := k, obj := update s.obj h o } := by
  refine ⟨hn, fun x => ?_⟩
  by_cases hx : x = h
  · subst hx
    simpa only [update_self] using ho
  · simp only [update_of_ne hx]
    rw [hk x hx, propext (hw x hx)]
    exact (hi.each x).of_called (hc x hx)

theorem set (hi : WaitInv s) {o : WaitObject}
    (ho : HandleInv o (h ∈ s.waiters) (s.lock.stage h) (s.lock.CalledFor h)) :
    WaitInv (s.set h o) :=
  hi.revise hi.nodup (fun _ _ => Iff.rfl) (fun _ _ => rfl) (fun _ _ => id) ho

theorem relock (hi : WaitInv s) (hn : ws.Nodup) (hw : ∀ x, x ≠ h → (x ∈ ws ↔ x ∈ s.waiters))
    (hk : ∀ x, x ≠ h → k.stage x = s.lock.stage x)
    (hc : ∀ x, x ≠ h → k.CalledFor x → s.lock.CalledFor x)
    (ho : HandleInv (s.obj h) (h ∈ ws) (k.stage h) (k.CalledFor h)) :
    WaitInv { s with waiters := ws, lock := k } := by
  have hset := hi.revise hn hw hk hc ho
  rwa [update_eq_self] at hset

theorem stage_owner (hg : s.lock.stage h = .owner) : s.lock = .waiter h := by
  cases hk : s.lock with
  | waiter x =>
    rw [hk, ListLock.stage] at hg
    split_ifs at hg with hx
    · rw [hx]
  | work call x w =>
    rw [hk, ListLock.stage] at hg
    split_ifs at hg
  | free => rw [hk] at hg; cases hg
  | pick _ => rw [hk] at hg; cases hg
  | unlock => rw [hk] at hg; cases hg

theorem init : WaitInv {} :=
  ⟨List.nodup_nil, fun _ => HandleInv.fresh.of_listed (by simp)⟩

theorem lock (hi : WaitInv s) (hfree : s.lock = .free) {o : WaitObject}
    (ho : HandleInv o (h ∈ s.waiters) .owner False) :
    WaitInv ({ s with lock := .waiter h }.set h o) := by
  refine hi.revise hi.nodup (fun _ _ => Iff.rfl) (fun x hx => ?_) (fun _ _ => False.elim) ?_
  · rw [hfree, ListLock.stage_waiter_ne hx, ListLock.stage_free]
  · rw [ListLock.stage_waiter]
    exact ho

theorem unlock (hi : WaitInv s) (hk : s.lock = .waiter h) {o : WaitObject} (hn : ws.Nodup)
    (hw : ∀ x, x ≠ h → (x ∈ ws ↔ x ∈ s.waiters)) (ho : HandleInv o (h ∈ ws) .away False) :
    WaitInv ({ s with waiters := ws, lock := .free }.set h o) := by
  refine hi.revise hn hw (fun x hx => ?_) (fun _ _ => False.elim) ho
  rw [hk, ListLock.stage_waiter_ne hx, ListLock.stage_free]

theorem unlock_same (hi : WaitInv s) (hk : s.lock = .waiter h) {o : WaitObject}
    (ho : HandleInv o (h ∈ s.waiters) .away False) :
    WaitInv ({ s with lock := .free }.set h o) :=
  hi.unlock hk hi.nodup (fun _ _ => Iff.rfl) ho

theorem owner (hi : WaitInv s)
    (hp : (∃ w, (s.obj h).pc = .pushBack w ∨ (s.obj h).pc = .saveWaker w) ∨
      (s.obj h).pc = .dropRemove) : s.lock = .waiter h :=
  stage_owner ((hi.each h).owner_iff.mpr hp)

theorem each_owner (hi : WaitInv s) (hk : s.lock = .waiter h) :
    HandleInv (s.obj h) (h ∈ s.waiters) .owner False := by
  have hv := hi.each h
  rw [hk, ListLock.stage_waiter] at hv
  exact hv.of_called False.elim

theorem each_free (hi : WaitInv s) (hk : s.lock = .free) :
    HandleInv (s.obj h) (h ∈ s.waiters) .away False := by
  have hv := hi.each h
  rw [hk] at hv
  exact hv

theorem saveWaker_eq {o : WaitObject} {l c : Prop} {g : Stage} (hv : HandleInv o l g c) {w : ℕ}
    (hp : o.pc = .saveWaker (some w) ∨ o.pc = .store w) :
    WaitState.saveWaker o w = .ok { o with waker := some w, registered := some w,
                                           state := .wakerSet, pc := .rest,
                                           result := some .pending } := by
  have hnone : o.waker = none := by
    cases hv
    grind
  simp only [WaitState.saveWaker, hnone, assertOr_true, ok_bind]
  rfl

theorem advanceWaiter (hi : WaitInv s) (hr : s.WaiterReady h) :
    ∃ t, s.advanceWaiter h = .ok t ∧ WaitInv t := by
  have hv := hi.each h
  unfold WaitState.WaiterReady at hr
  unfold WaitState.advanceWaiter
  cases hp : (s.obj h).pc with
  | rest => simp only [hp] at hr
  | dropped => simp only [hp] at hr
  | lockList w =>
    simp only [hp] at hr
    exact ⟨_, rfl, hi.lock hr ((hi.each_free hr).lockList hp)⟩
  | pushBack w =>
    have hk := hi.owner (Or.inl ⟨w, Or.inl hp⟩)
    have hv := hi.each_owner hk
    have hfresh : h ∉ s.waiters := by
      intro hmem
      obtain ⟨hentered, -⟩ := hv.listed_iff.mp hmem
      have := hv.entering ⟨w, Or.inr (Or.inl hp)⟩
      grind
    refine ⟨_, rfl, hi.revise ?_ (fun x hx => ?_) (fun _ _ => rfl) (fun _ _ => id) ?_⟩
    · exact List.nodup_append.mpr ⟨hi.nodup, List.nodup_singleton h, by grind⟩
    · simp [hx]
    · rw [hk, ListLock.stage_waiter]
      exact (hv.pushBack hp).of_listed (by simp)
  | saveWaker w =>
    have hk := hi.owner (Or.inl ⟨w, Or.inr hp⟩)
    have hv := hi.each_owner hk
    cases w with
    | none => exact ⟨_, rfl, hi.unlock_same hk (hv.saveNone hp)⟩
    | some w =>
      refine ⟨_, ?_, hi.unlock_same hk (hv.saveSome hp)⟩
      simp only [WaitState.ownerStep, saveWaker_eq hv (Or.inl hp), ok_bind]
      rfl
  | check w =>
    obtain ⟨w, rfl⟩ := Option.ne_none_iff_exists'.mp (hv.checking w hp).2
    by_cases hw : (s.obj h).wokenUp = true
    · exact ⟨_, if_pos hw, hi.set (hv.found hw (Or.inl ⟨⟨_, hp⟩, rfl⟩))⟩
    · exact ⟨_, if_neg hw, hi.set (hv.check (eq_false_of_ne_true hw) hp)⟩
  | lockWaker w =>
    simp only [hp] at hr
    exact ⟨_, rfl, hi.set (hv.lockWaker hr hp)⟩
  | recheck w =>
    by_cases hw : (s.obj h).wokenUp = true
    · exact ⟨_, if_pos hw, hi.set (hv.found hw (Or.inr ⟨⟨_, hp⟩, rfl⟩))⟩
    · exact ⟨_, if_neg hw, hi.set (hv.recheck (eq_false_of_ne_true hw) hp)⟩
  | store w =>
    refine ⟨_, ?_, hi.set (hv.store hp)⟩
    simp only [WaitState.ownerStep, saveWaker_eq hv (Or.inr hp), ok_bind]
    rfl
  | checkSet =>
    by_cases hw : (s.obj h).wokenUp = true
    · exact ⟨_, if_pos hw, hi.set (hv.checkSet_found hp hw)⟩
    · exact ⟨_, if_neg hw, hi.set (hv.checkSet hp (eq_false_of_ne_true hw))⟩
  | spin =>
    simp only [hp] at hr
    exact ⟨_, rfl, hi.set (hv.spin hp hr)⟩
  | dropCheck =>
    refine ⟨_, rfl, hi.set (hv.dropCheck hp ?_)⟩
    by_cases hw : (s.obj h).wokenUp = true
    · exact Or.inl ⟨hw, if_pos hw⟩
    · exact Or.inr (if_neg hw)
  | dropSpin =>
    simp only [hp] at hr
    exact ⟨_, rfl, hi.set (hv.dropSpin hp hr)⟩
  | dropLock =>
    simp only [hp] at hr
    exact ⟨_, rfl, hi.lock hr ((hi.each_free hr).dropLock hp)⟩
  | dropRemove =>
    have hk := hi.owner (Or.inr hp)
    have hv := hi.each_owner hk
    have hgone := hv.dropRemove hp
    by_cases hon : (s.obj h).onList = true
    · have hmem : h ∈ s.waiters := by
        cases hv
        grind
      have hstep : s.ownerStep h (s.obj h) .dropRemove =
          .ok ({ s with waiters := s.waiters.erase h, lock := .free }.goto h .dropped) := by
        simp only [WaitState.ownerStep, hon, if_true, assertOr_true _ hmem, ok_bind]
        rfl
      refine ⟨_, hstep, hi.unlock hk (hi.nodup.erase h) (fun _ => List.mem_erase_of_ne) ?_⟩
      rwa [eq_false (hi.nodup.not_mem_erase)]
    · have hmem : h ∉ s.waiters := by
        cases hv
        grind
      refine ⟨_, if_neg hon, hi.unlock_same hk ?_⟩
      rwa [eq_false hmem]

theorem work (hi : WaitInv s) {call : Notify} {w w' : Work} (hk : s.lock = .work call h w)
    {o : WaitObject} (ho : ∀ c, HandleInv (s.obj h) (h ∈ s.waiters) (.notifier w) c →
      HandleInv o (h ∈ s.waiters) (.notifier w') c) :
    WaitInv ({ s with lock := .work call h w' }.set h o) := by
  have hv := hi.each h
  rw [hk, ListLock.stage_work] at hv
  refine hi.revise hi.nodup (fun _ _ => Iff.rfl) (fun x hx => ?_) (fun x _ hc => ?_) ?_
  · rw [hk, ListLock.stage_work_ne _ _ hx, ListLock.stage_work_ne _ _ hx]
  · rw [hk]
    exact hc
  · rw [ListLock.stage_work]
    exact ho _ hv

theorem of_lock (hi : WaitInv s) (hk : ∀ x, k.stage x = s.lock.stage x)
    (hc : ∀ x, k.CalledFor x → s.lock.CalledFor x) : WaitInv { s with lock := k } := by
  refine ⟨hi.nodup, fun x => ?_⟩
  have hv := hi.each x
  rw [← hk x] at hv
  exact hv.of_called (hc x)

theorem found_eq (hi : WaitInv s) {call : Notify} (hk : s.lock = .pick call) :
    ∃ r, s.found call = .ok r ∧ ∀ h, r = some h → h ∈ s.waiters := by
  cases call with
  | one => exact ⟨_, rfl, fun _ => List.mem_of_mem_head?⟩
  | all => exact ⟨_, rfl, fun _ => List.mem_of_mem_head?⟩
  | waiter h =>
    by_cases hon : (s.obj h).onList = true
    · have hv := hi.each h
      rw [hk] at hv
      have hmem : h ∈ s.waiters := by
        have hcalled := hv.called rfl
        cases hv
        grind [WaitObject.Entered, WaiterPc.dropping, ListLock.stage_pick]
      refine ⟨some h, ?_, fun x hx => ?_⟩
      · simp only [WaitState.found, hon, if_true, assertOr_true _ hmem, ok_bind]
        rfl
      · rwa [← Option.some.inj hx]
    · exact ⟨none, if_neg hon, nofun⟩

theorem advanceNotifier (hi : WaitInv s) (hr : s.NotifierReady) :
    ∃ t, s.advanceNotifier = .ok t ∧ WaitInv t := by
  unfold WaitState.NotifierReady at hr
  unfold WaitState.advanceNotifier
  cases hk : s.lock with
  | free => simp only [hk] at hr
  | waiter _ => simp only [hk] at hr
  | unlock =>
    exact ⟨_, rfl, hi.of_lock (fun x => by rw [hk]; rfl) (fun _ => False.elim)⟩
  | pick call =>
    obtain ⟨r, hr, hmem⟩ := hi.found_eq hk
    simp only [WaitState.notifierStep, hr, ok_bind]
    cases r with
    | none => exact ⟨_, rfl, hi.of_lock (fun x => by rw [hk]; rfl) (fun _ => False.elim)⟩
    | some h =>
      have hv := hi.each h
      rw [hk] at hv
      refine ⟨_, rfl, hi.relock (h := h) hi.nodup (fun _ _ => Iff.rfl) (fun x hx => ?_)
        (fun x _ hc => ?_) ?_⟩
      · rw [hk, ListLock.stage_work_ne _ _ hx, ListLock.stage_pick]
      · rw [hk]
        exact hc
      · rw [ListLock.stage_work]
        exact hv.pick (hmem h rfl)
  | work call h w =>
    have hv := hi.each h
    rw [hk, ListLock.stage_work] at hv
    cases w with
    | mark => exact ⟨_, rfl, hi.work hk fun _ hv => hv.mark⟩
    | lockWaker =>
      simp only [hk] at hr
      exact ⟨_, rfl, hi.work hk fun _ hv => hv.notifier_lockWaker hr⟩
    | take => exact ⟨_, rfl, hi.work hk fun _ hv => hv.take⟩
    | wake waker => exact ⟨_, rfl, hi.work hk fun _ hv => hv.wake⟩
    | remove =>
      refine ⟨_, rfl, hi.relock (hi.nodup.erase h) (fun _ => List.mem_erase_of_ne) (fun x hx => ?_)
        (fun x _ hc => ?_) ?_⟩
      · rw [hk, ListLock.stage_work_ne _ _ hx, ListLock.stage_work_ne _ _ hx]
      · rw [hk]
        exact hc
      · rw [ListLock.stage_work, eq_false hi.nodup.not_mem_erase]
        exact hv.remove
    | clear =>
      refine ⟨_, rfl, ?_⟩
      by_cases hcall : call = .all
      · rw [if_pos hcall]
        refine hi.revise hi.nodup (fun _ _ => Iff.rfl) (fun x hx => ?_) (fun _ _ => nofun) ?_
        · rw [hk, ListLock.stage_work_ne _ _ hx, ListLock.stage_pick]
        · exact hv.clear.of_called nofun
      · rw [if_neg hcall]
        refine hi.revise hi.nodup (fun _ _ => Iff.rfl) (fun x hx => ?_) (fun _ _ => False.elim) ?_
        · rw [hk, ListLock.stage_work_ne _ _ hx, ListLock.stage_unlock]
        · exact hv.clear.of_called False.elim

end WaitInv

/-- A handle is put on the list at most once, and `notify_waiter` is called for it after that. -/
def WaitState.Careful (s : WaitState) : HandleOp → Prop
  | .add h => (s.obj h).state = .init
  | .notify (.waiter h) => (s.obj h).state ≠ .init
  | _ => True

section

variable {s : WaitState} (hi : WaitInv s)
include hi

theorem WaitInv.poll {h : ℕ} (hp : (s.obj h).pc = .rest) (waker : ℕ) :
    WaitInv (s.poll h waker) := by
  have hv := hi.each h
  unfold WaitState.poll
  cases hs : (s.obj h).state with
  | init =>
    simpa only [hs] using hi.set (hv.poll hp (Or.inl ⟨hs, waker, rfl⟩))
  | onList =>
    simpa only [hs] using hi.set (hv.poll hp (Or.inr (Or.inl ⟨hs, waker, rfl⟩)))
  | wakerSet =>
    simpa only [hs] using hi.set (hv.poll hp (Or.inr (Or.inr ⟨hs, rfl⟩)))
  | wokenUp =>
    simpa only [hs] using hi.set (hv.poll_ready hp hs)

theorem WaitInv.drop {h : ℕ} (hp : (s.obj h).pc = .rest) (hc : ¬ s.lock.CalledFor h) :
    WaitInv (s.drop h) := by
  have hv := hi.each h
  unfold WaitState.drop
  cases hs : (s.obj h).state with
  | init => exact hi.set (hv.drop hp hc (Or.inl ⟨Or.inl hs, rfl⟩))
  | wokenUp => exact hi.set (hv.drop hp hc (Or.inl ⟨Or.inr hs, rfl⟩))
  | onList => exact hi.set (hv.drop hp hc (Or.inr ⟨Or.inl hs, rfl⟩))
  | wakerSet => exact hi.set (hv.drop hp hc (Or.inr ⟨Or.inr hs, rfl⟩))

theorem WaitInv.notify {call : Notify} (hfree : s.lock = .free)
    (hcall : ∀ h, call = .waiter h → (s.obj h).state ≠ .init ∧ (s.obj h).pc.dropping = false) :
    WaitInv { s with lock := .pick call } := by
  refine ⟨hi.nodup, fun h => ?_⟩
  exact { hi.each_free hfree with called := fun hc => hcall h hc }

theorem WaitInv.run (op : HandleOp) (he : s.Enabled op) (hc : s.Careful op) :
    ∃ t, s.run op = .ok t ∧ WaitInv t := by
  cases op with
  | add h =>
    refine ⟨s.goto h (.lockList none), ?_, hi.set ((hi.each h).add he hc)⟩
    simp only [WaitState.run, WaitState.add, show (s.obj h).state = .init from hc]
  | poll h waker => exact ⟨_, rfl, hi.poll he waker⟩
  | drop h => exact ⟨_, rfl, hi.drop he.1 he.2⟩
  | waiter h => exact hi.advanceWaiter he
  | notifier => exact hi.advanceNotifier he
  | notify call =>
    cases call with
    | one => exact ⟨_, rfl, hi.notify he nofun⟩
    | all => exact ⟨_, rfl, hi.notify he nofun⟩
    | waiter h =>
      refine ⟨_, rfl, hi.notify he.1 fun x hx => ?_⟩
      obtain rfl : h = x := Notify.waiter.inj hx
      exact ⟨hc, he.2⟩

end

/-! ### What the protocol is for -/

def WaitState.AtWork (s : WaitState) (h : ℕ) : Prop := ∃ call work, s.lock = .work call h work

def WaitState.Due (s : WaitState) (h waker : ℕ) : Prop :=
  ∃ call, s.lock = .work call h (.wake (some waker)) ∨ (s.obj h).waker = some waker ∧
    (s.lock = .work call h .lockWaker ∨ s.lock = .work call h .take)

structure HandleProtocol (s : WaitState) (h : ℕ) : Prop where
  woken : (s.obj h).wokenUp = true →
    ∀ w, (s.obj h).registered = some w → w ∈ (s.obj h).wakes ∨ s.Due h w
  notPending : (s.obj h).early = true → (s.obj h).result ≠ some .pending
  spinning : (s.obj h).pc = .spin ∨ (s.obj h).pc = .dropSpin →
    (s.obj h).onList = false ∨ s.AtWork h ∧ s.NotifierReady
  /-- A notifier is at most kept waiting by an owner that can go on. -/
  progress : s.AtWork h → s.NotifierReady ∨ s.WaiterReady h
  /-- After `Pending`, the handle stays on the list until its waker is going to be woken. -/
  pending : (s.obj h).pc = .rest → (s.obj h).result = some .pending →
    h ∈ s.waiters ∧ (s.obj h).wokenUp = false ∨
      ∃ w, (s.obj h).registered = some w ∧ (s.Due h w ∨ w ∈ (s.obj h).wakes)
  returnsPending : ∀ t, s.WaiterReady h → s.run (.waiter h) = .ok t → (t.obj h).pc = .rest →
    (t.obj h).result = some .pending → h ∈ t.waiters
  once : (s.obj h).notified ≤ 1
  ready : (s.obj h).pc = .rest → (s.obj h).result = some .ready → h ∉ s.waiters ∧ ¬ s.AtWork h
  dropped : (s.obj h).pc = .dropped →
    h ∉ s.waiters ∧ ¬ s.AtWork h ∧ ¬ s.lock.CalledFor h

namespace WaitInv

variable {s : WaitState} {h : ℕ}

theorem atWork_iff : s.AtWork h ↔ ∃ work, s.lock.stage h = .notifier work := by
  constructor
  · rintro ⟨call, work, hk⟩
    exact ⟨work, by rw [hk, ListLock.stage_work]⟩
  · rintro ⟨work, hg⟩
    cases hk : s.lock with
    | work call x w =>
      rw [hk, ListLock.stage] at hg
      split_ifs at hg with hx
      exact ⟨call, w, by rw [hk, hx]⟩
    | waiter x =>
      rw [hk, ListLock.stage] at hg
      split_ifs at hg
    | free => rw [hk] at hg; cases hg
    | pick _ => rw [hk] at hg; cases hg
    | unlock => rw [hk] at hg; cases hg

theorem woken_or_due (hi : WaitInv s) (hw : (s.obj h).wokenUp = true) {w : ℕ}
    (hr : (s.obj h).registered = some w) : w ∈ (s.obj h).wakes ∨ s.Due h w := by
  have hv := hi.each h
  by_cases hwork : s.AtWork h
  · obtain ⟨call, work, hk⟩ := hwork
    rw [hk, ListLock.stage_work] at hv
    cases work with
    | mark => exact absurd hw (by rw [hv.marking rfl]; nofun)
    | lockWaker =>
      exact Or.inr ⟨call, Or.inr ⟨(hv.stored (Or.inr (Or.inl rfl))).trans hr, Or.inl hk⟩⟩
    | take => exact Or.inr ⟨call, Or.inr ⟨(hv.stored (Or.inr (Or.inr rfl))).trans hr, Or.inr hk⟩⟩
    | wake w' => exact Or.inr ⟨call, Or.inl (by rw [hk, hv.due w' rfl, hr])⟩
    | remove => exact Or.inl (hv.woke hw (fun _ hg => by grind) w hr)
    | clear => exact Or.inl (hv.woke hw (fun _ hg => by grind) w hr)
  · refine Or.inl (hv.woke hw (fun work hg => ?_) w hr)
    exact absurd (atWork_iff.mpr ⟨work, hg⟩) hwork

theorem notifierReady_or (hi : WaitInv s) (hwork : s.AtWork h) :
    s.NotifierReady ∨ ∃ w, (s.obj h).pc = .recheck w ∨ (s.obj h).pc = .store w := by
  obtain ⟨call, work, hk⟩ := hwork
  have hv := hi.each h
  rw [hk, ListLock.stage_work] at hv
  unfold WaitState.NotifierReady
  rw [hk]
  cases work with
  | lockWaker =>
    cases hlock : (s.obj h).wakerLock with
    | none => exact Or.inl hlock
    | some side =>
      cases side with
      | waiter => exact Or.inr (hv.waiter_lock.mp hlock)
      | notifier => exact absurd (hv.notifier_lock.mp hlock) nofun
  | _ => exact Or.inl trivial

theorem listed_of_pending (hi : WaitInv s) (hr : s.WaiterReady h) {t : WaitState}
    (ht : s.run (.waiter h) = .ok t) (hp : (t.obj h).pc = .rest)
    (hres : (t.obj h).result = some .pending) : h ∈ t.waiters := by
  have hv := hi.each h
  have hstep : s.ownerStep h (s.obj h) (s.obj h).pc = .ok t := ht
  clear ht
  cases hpc : (s.obj h).pc with
  | rest => simp only [WaitState.WaiterReady, hpc] at hr
  | saveWaker w =>
    rw [hpc] at hstep
    cases w with
    | none =>
      cases hstep
      have hs := hv.entering ⟨none, Or.inr (Or.inr hpc)⟩
      have hs' := (hv.pending (by simpa [WaitState.set] using hres)).1
      exact absurd (hs.symm.trans hs') nofun
    | some w =>
      simp only [WaitState.ownerStep, saveWaker_eq hv (Or.inl hpc), ok_bind] at hstep
      cases hstep
      exact hv.listed_of_saving ⟨w, Or.inl hpc⟩
  | store w =>
    rw [hpc] at hstep
    simp only [WaitState.ownerStep, saveWaker_eq hv (Or.inr hpc), ok_bind] at hstep
    cases hstep
    exact hv.listed_of_saving ⟨w, Or.inr hpc⟩
  | checkSet =>
    by_cases hw : (s.obj h).wokenUp = true
    · simp only [hpc, WaitState.ownerStep, if_pos hw] at hstep
      cases hstep
      simp [WaitState.goto, WaitState.set] at hp
    · simp only [hpc, WaitState.ownerStep, if_neg hw] at hstep
      cases hstep
      refine hv.listed_iff.mpr ⟨Or.inl ?_, Or.inl ⟨eq_false_of_ne_true hw, ?_⟩⟩
      · rw [hv.checkingSet hpc]
        nofun
      · rw [hpc]
        nofun
  | check w =>
    obtain ⟨w, rfl⟩ := Option.ne_none_iff_exists'.mp (hv.checking w hpc).2
    rw [hpc, WaitState.ownerStep] at hstep
    split_ifs at hstep <;> cases hstep <;> simp [WaitState.goto, WaitState.set] at hp
  | recheck w =>
    rw [hpc, WaitState.ownerStep] at hstep
    split_ifs at hstep <;> cases hstep <;> simp [WaitState.goto, WaitState.set] at hp
  | dropCheck =>
    rw [hpc, WaitState.ownerStep] at hstep
    split_ifs at hstep <;> cases hstep <;> simp [WaitState.goto, WaitState.set] at hp
  | dropRemove =>
    rw [hpc, WaitState.ownerStep] at hstep
    split_ifs at hstep
    · obtain ⟨-, -, hstep⟩ := bind_eq_ok.mp hstep
      cases hstep
      simp [WaitState.goto, WaitState.set] at hp
    · cases hstep
      simp [WaitState.goto, WaitState.set] at hp
  | _ =>
    rw [hpc] at hstep
    cases hstep
    simp [WaitState.goto, WaitState.set, hpc] at hp hres

theorem protocol (hi : WaitInv s) (h : ℕ) : HandleProtocol s h := by
  have hv := hi.each h
  refine ⟨fun hw w hr => hi.woken_or_due hw hr, fun he hres => ?_, fun hp => ?_, fun hwork => ?_,
    fun hp hres => ?_, fun t hr ht hp hres => hi.listed_of_pending hr ht hp hres, ?_,
    fun hp hres => ?_, fun hp => ?_⟩
  · rw [(hv.pending hres).2] at he
    cases he
  · by_cases hwork : s.AtWork h
    · refine Or.inr ⟨hwork, (hi.notifierReady_or hwork).resolve_right ?_⟩
      grind
    · refine Or.inl (eq_false_of_ne_true fun hon => ?_)
      rcases hv.onList_iff.mp hon with hw | hg
      · exact absurd (hv.spinning hp) (by rw [hw]; nofun)
      · exact hwork (atWork_iff.mpr hg)
  · refine (hi.notifierReady_or hwork).imp_right ?_
    rintro ⟨w, hp | hp⟩ <;> simp only [WaitState.WaiterReady, hp]
  · obtain ⟨hs, -⟩ := hv.pending hres
    cases hw : (s.obj h).wokenUp with
    | false =>
      refine Or.inl ⟨hv.listed_iff.mpr ⟨Or.inl (by rw [hs]; nofun), Or.inl ⟨hw, ?_⟩⟩, rfl⟩
      rw [hp]
      nofun
    | true =>
      obtain ⟨w, hw'⟩ := Option.ne_none_iff_exists'.mp (hv.registered hs)
      exact Or.inr ⟨w, hw', (hi.woken_or_due hw hw').symm⟩
  · rw [hv.notified]
    split <;> omega
  · have hoff := (hv.wokenState (hv.ready hres)).2 (by rw [hp]; nofun)
    have hwork : ¬ s.AtWork h := fun hwork => by
      rw [hv.onList_iff.mpr (Or.inr (atWork_iff.mp hwork))] at hoff
      cases hoff
    refine ⟨fun hmem => ?_, hwork⟩
    rcases (hv.listed_iff.mp hmem).2 with ⟨hw, -⟩ | ⟨work, hg, -⟩
    · rw [hv.onList_iff.mpr (Or.inl hw)] at hoff
      cases hoff
    · exact hwork (atWork_iff.mpr ⟨work, hg⟩)
  · have hwork : ¬ s.AtWork h := fun hwork => by
      obtain ⟨work, hg⟩ := atWork_iff.mp hwork
      exact (hv.working work hg).2 hp
    refine ⟨fun hmem => ?_, hwork, fun hc => ?_⟩
    · rcases (hv.listed_iff.mp hmem).2 with ⟨-, hne⟩ | ⟨work, hg, -⟩
      · exact hne hp
      · exact hwork (atWork_iff.mpr ⟨work, hg⟩)
    · have hdrop := (hv.called hc).2
      rw [hp] at hdrop
      cases hdrop

end WaitInv

def waitHandles (cond : WaitState → HandleOp → Prop) : System WaitState HandleOp HandlePanic where
  init s := s = {}
  allowed s op := s.Enabled op ∧ cond s op
  run := WaitState.run

/-- If `add_to_wait_list` is called once, before the first poll, and `notify_waiter` after that,
every handle keeps the protocol, and no step goes wrong. -/
theorem handleProtocol_of_reachable {s : WaitState}
    (hs : (waitHandles WaitState.Careful).Reachable s) :
    (∀ h, HandleProtocol s h) ∧
      ∀ op, s.Enabled op → s.Careful op → ∃ t, s.run op = .ok t := by
  obtain ⟨hi, hrun⟩ := System.Reachable.safe (M := waitHandles WaitState.Careful) (P := WaitInv)
    (fun s hs => hs ▸ WaitInv.init) (fun s op hi hop => hi.run op hop.1 hop.2) hs
  exact ⟨hi.protocol, fun op he hc => hrun op ⟨he, hc⟩⟩

theorem handleProtocol_late_waker : ∃ s : WaitState,
    (s.obj 0).state = .wakerSet ∧ (s.obj 0).wokenUp = true ∧
      s.lock = .work .one 0 (.wake (some 5)) ∧ ∀ h, HandleProtocol s h := by
  have h0 : (waitHandles WaitState.Careful).Reachable {} := .of_init rfl
  have h8 := h0.after [.add 0, .waiter 0, .waiter 0, .waiter 0, .poll 0 5, .waiter 0, .waiter 0,
    .waiter 0]
    ⟨⟨rfl, rfl⟩, ⟨rfl, trivial⟩, ⟨trivial, trivial⟩, ⟨trivial, trivial⟩, ⟨rfl, trivial⟩,
     ⟨trivial, trivial⟩, ⟨rfl, trivial⟩, ⟨trivial, trivial⟩, trivial⟩
  -- the owner has found the flag unset
  have h14 := h8.after [.notify .one, .notifier, .notifier, .waiter 0, .notifier, .notifier]
    ⟨⟨rfl, trivial⟩, ⟨trivial, trivial⟩, ⟨trivial, trivial⟩, ⟨trivial, trivial⟩, ⟨rfl, trivial⟩,
     ⟨trivial, trivial⟩, trivial⟩
  exact ⟨_, rfl, rfl, rfl, (handleProtocol_of_reachable h14).1⟩

/-- A second `add_to_wait_list` lets `drop` return while the notifier is at work; an early
`notify_waiter` makes a cursor from an object on no list. -/
theorem handleProtocol_violated :
    (∃ s, (waitHandles fun _ _ => True).Reachable s ∧ (s.obj 0).pc = .dropped ∧ 0 ∈ s.waiters ∧
      s.AtWork 0) ∧
    ∃ s, (waitHandles fun _ _ => True).Reachable s ∧ s.Enabled .notifier ∧
      s.run .notifier = .error .notLinked := by
  have h0 : (waitHandles fun _ _ => True).Reachable {} := .of_init rfl
  constructor
  · have h1 := h0.next (.add 0) ⟨rfl, trivial⟩
    have h10 := h1.after [.waiter 0, .waiter 0, .waiter 0, .notify .one, .notifier, .notifier,
      .add 0, .waiter 0, .drop 0]
      ⟨⟨rfl, trivial⟩, ⟨trivial, trivial⟩, ⟨trivial, trivial⟩, ⟨rfl, trivial⟩, ⟨trivial, trivial⟩,
       ⟨trivial, trivial⟩, ⟨rfl, trivial⟩, ⟨trivial, trivial⟩, ⟨⟨rfl, nofun⟩, trivial⟩, trivial⟩
    exact ⟨_, h10, rfl, List.mem_singleton_self 0, .one, .lockWaker, rfl⟩
  · have h1 := h0.next (.notify (.waiter 0)) ⟨⟨rfl, rfl⟩, trivial⟩
    exact ⟨_, h1, trivial, rfl⟩

end Dlutos
