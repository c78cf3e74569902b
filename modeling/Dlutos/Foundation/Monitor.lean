import Dlutos.Foundation.Transition

/-!
# Monitors: a mutex with condition variables

A call takes the mutex and looks at the object; it returns at once, sleeps on the condition variable
of the call, or runs its body, notifies some condition variables and returns.  The waiting lists are
kept as one flag of each sleeping thread: whether its handle was woken.

A `Contract` says what the operations guarantee.  `Contract.sound_of_reachable` is the rule for
whole runs: the invariant holds, a body runs under its precondition, and a thread sleeps without
having been woken only while its reason to sleep lasts or a notification is still to come.
-/

namespace Monitor

open Transition Function

/-- What a thread that has the mutex decides. -/
inductive Verdict (ρ : Type*) where
  | ret (r : ρ)
  | sleep
  | go

inductive Phase (ρ ν : Type*) where
  /-- waits for the mutex, at the start of the call -/
  | locking
  | entered
  | enqueuing
  /-- its handle is on the list, the mutex is still held -/
  | unlocking (woken : Bool)
  | parked (woken : Bool)
  /-- was woken, waits for the mutex -/
  | relocking
  | resumed
  /-- has decided to run the body -/
  | acting
  /-- the body is done, these condition variables are still to be notified -/
  | notifying (r : ρ) (left : List ν)
  /-- about to unlock the mutex -/
  | leaving (r : ρ)

inductive Thread (κ ρ ν : Type*) where
  | idle
  | busy (call : κ) (phase : Phase ρ ν)

section Definitions

variable {σ κ ρ χ ν τ : Type*}

/-- The thread is in the critical section. -/
def Phase.Inside : Phase ρ ν → Prop
  | .locking | .parked _ | .relocking => False
  | _ => True

def Thread.Inside : Thread κ ρ ν → Prop
  | .idle => False
  | .busy _ ph => ph.Inside

/-- The handle of the call, if it is on a list, was woken. -/
def Phase.wake : Phase ρ ν → Phase ρ ν
  | .unlocking _ => .unlocking true
  | .parked _ => .parked true
  | ph => ph

/-- The handle of the thread, if it is on a list, was woken. -/
def Thread.wake : Thread κ ρ ν → Thread κ ρ ν
  | .idle => .idle
  | .busy k ph => .busy k ph.wake

def Verdict.phase : Verdict ρ → Phase ρ ν
  | .ret r => .leaving r
  | .sleep => .enqueuing
  | .go => .acting

/-- A shared object `σ` with calls `κ` that return `ρ`; `χ` are choices that a call leaves open and
`ν` the condition variables. -/
structure Object (σ κ ρ χ ν : Type*) where
  enter : κ → σ → Verdict ρ
  /-- What it decides when it has slept; the flag says whether a signal is pending then. -/
  resume : κ → σ → Bool → Verdict ρ
  queue : κ → ν
  body : κ → χ → σ → σ × ρ
  notifies : κ → List ν
  /-- The critical section that follows in the same operation. -/
  follow : κ → ρ → Option κ

/-- The shared object, the owner of the mutex and the threads. -/
structure State (σ κ ρ ν τ : Type*) where
  shared : σ
  owner : Option τ := none
  threads : τ → Thread κ ρ ν := fun _ => .idle

/-- What the scheduler may let happen. -/
inductive Action (κ χ τ : Type*) where
  | call (t : τ) (k : κ)
  | signal (t : τ)
  | run (t : τ) (pending : Bool) (c : χ)

variable [DecidableEq ν] [DecidableEq τ] (M : Object σ κ ρ χ ν)

def State.set (s : State σ κ ρ ν τ) (t : τ) (th : Thread κ ρ ν) : State σ κ ρ ν τ :=
  { s with threads := update s.threads t th }

omit [DecidableEq ν] in
@[simp] theorem State.threads_set_self (s : State σ κ ρ ν τ) (t : τ) (th : Thread κ ρ ν) :
    (s.set t th).threads t = th := update_self _ _ _

omit [DecidableEq ν] in
theorem State.threads_set_ne (s : State σ κ ρ ν τ) {t u : τ} (h : u ≠ t) (th : Thread κ ρ ν) :
    (s.set t th).threads u = s.threads u := update_of_ne h _ _

namespace Object

/-- `notify_all` wakes every handle on the list. -/
def notifyThread (n : ν) : Thread κ ρ ν → Thread κ ρ ν
  | .idle => .idle
  | .busy k ph => if M.queue k = n then .busy k ph.wake else .busy k ph

def notifyAll (s : State σ κ ρ ν τ) (n : ν) : State σ κ ρ ν τ :=
  { s with threads := fun t => M.notifyThread n (s.threads t) }

/-- What follows when a critical section returned. -/
def after (k : κ) (r : ρ) : Thread κ ρ ν :=
  match M.follow k r with
  | some k' => .busy k' .locking
  | none => .idle

/-- The next step of a thread, if it can take one. -/
def advance (s : State σ κ ρ ν τ) (t : τ) (k : κ) (pending : Bool) (c : χ) :
    Phase ρ ν → Option (State σ κ ρ ν τ)
  | .locking =>
    if s.owner.isNone then some { s.set t (.busy k .entered) with owner := some t } else none
  | .entered => some (s.set t (.busy k (M.enter k s.shared).phase))
  | .enqueuing => some (s.set t (.busy k (.unlocking false)))
  | .unlocking w => some { s.set t (.busy k (.parked w)) with owner := none }
  | .parked w => if w then some (s.set t (.busy k .relocking)) else none
  | .relocking =>
    if s.owner.isNone then some { s.set t (.busy k .resumed) with owner := some t } else none
  | .resumed => some (s.set t (.busy k (M.resume k s.shared pending).phase))
  | .acting =>
    some { s.set t (.busy k (.notifying (M.body k c s.shared).2 (M.notifies k))) with
      shared := (M.body k c s.shared).1 }
  | .notifying r [] => some (s.set t (.busy k (.leaving r)))
  | .notifying r (n :: ns) => some ((M.notifyAll s n).set t (.busy k (.notifying r ns)))
  | .leaving r => some { s.set t (M.after k r) with owner := none }

def step (s : State σ κ ρ ν τ) : Action κ χ τ → Option (State σ κ ρ ν τ)
  | .call t k =>
    match s.threads t with
    | .idle => some (s.set t (.busy k .locking))
    | .busy _ _ => none
  | .signal t => some (s.set t (s.threads t).wake)
  | .run t pending c =>
    match s.threads t with
    | .idle => none
    | .busy k ph => M.advance s t k pending c ph

def Step (s s' : State σ κ ρ ν τ) : Prop := ∃ a, M.step s a = some s'

/-- The states of the runs that start with the shared object `x` and idle threads. -/
def Reachable (x : σ) (s : State σ κ ρ ν τ) : Prop :=
  Transition.Reachable (fun s₀ => s₀ = { shared := x }) M.Step s

/-- The state after a schedule; a thread that cannot take its step is passed over. -/
def runs (s : State σ κ ρ ν τ) (schedule : List (Action κ χ τ)) : State σ κ ρ ν τ :=
  schedule.foldl (fun s a => (M.step s a).getD s) s

def Run (s s' : State σ κ ρ ν τ) : Prop := Relation.ReflTransGen M.Step s s'

variable {M}

theorem Reachable.runs {x : σ} {s : State σ κ ρ ν τ} (hs : M.Reachable x s)
    (schedule : List (Action κ χ τ)) : M.Reachable x (M.runs s schedule) := by
  induction schedule generalizing s with
  | nil => exact hs
  | cons a schedule ih =>
    refine ih ?_
    show M.Reachable x ((M.step s a).getD s)
    cases h : M.step s a with
    | none => exact hs
    | some s' => exact Transition.Reachable.tail hs ⟨a, h⟩

theorem Reachable.start (x : σ) : M.Reachable x ({ shared := x } : State σ κ ρ ν τ) :=
  Transition.Reachable.of_init rfl

end Object

end Definitions

section Contract

variable {σ κ ρ χ ν τ : Type*}

def Verdict.Meets (go sleep : Prop) (post : ρ → Prop) : Verdict ρ → Prop
  | .ret r => post r
  | .sleep => sleep
  | .go => go

/-- An invariant of the object, the precondition of each body, the reason for which a call sleeps,
and what is known when it returns. -/
structure Contract (M : Object σ κ ρ χ ν) where
  inv : σ → Prop
  go : κ → σ → Prop
  sleep : κ → σ → Prop
  post : κ → ρ → σ → Prop
  enter_meets : ∀ k x, inv x → (M.enter k x).Meets (go k x) (sleep k x) (post k · x)
  resume_meets : ∀ k x b, inv x → (M.resume k x b).Meets (go k x) (sleep k x) (post k · x)
  body_inv : ∀ k c x, inv x → go k x → inv (M.body k c x).1
  body_post : ∀ k c x, inv x → go k x → post k (M.body k c x).2 (M.body k c x).1
  /-- A body that ends a reason to sleep is followed by a notification. -/
  body_wakes : ∀ k c x k', inv x → go k x → sleep k' x →
    sleep k' (M.body k c x).1 ∨ M.queue k' ∈ M.notifies k

variable {M : Object σ κ ρ χ ν}

/-- A notification of the condition variable is still to come. -/
def State.Owed (s : State σ κ ρ ν τ) (n : ν) : Prop :=
  ∃ u k r left, s.threads u = .busy k (.notifying r left) ∧ n ∈ left

namespace Contract

variable (C : Contract M)

/-- What is known of a call at each point; `owed` are the notifications still to come. -/
def Holds (x : σ) (owed : ν → Prop) (k : κ) : Phase ρ ν → Prop
  | .acting => C.go k x
  | .enqueuing => C.sleep k x
  | .unlocking w | .parked w => w = false → C.sleep k x ∨ owed (M.queue k)
  | .notifying r _ | .leaving r => C.post k r x
  | _ => True

structure Sound (s : State σ κ ρ ν τ) : Prop where
  inv : C.inv s.shared
  owner : ∀ t, (s.threads t).Inside → s.owner = some t
  holds : ∀ t k ph, s.threads t = .busy k ph → C.Holds s.shared s.Owed k ph

variable {C}

variable {x : σ} {owed : ν → Prop} {k : κ}

theorem Holds.mono {owed' : ν → Prop} (himp : ∀ n, owed n → owed' n)
    {ph : Phase ρ ν} (h : C.Holds x owed k ph) : C.Holds x owed' k ph := by
  cases ph with
  | unlocking w => exact fun hw => (h hw).imp_right (himp _)
  | parked w => exact fun hw => (h hw).imp_right (himp _)
  | _ => exact h

theorem holds_phase {v : Verdict ρ}
    (h : v.Meets (C.go k x) (C.sleep k x) (C.post k · x)) : C.Holds x owed k v.phase := by
  cases v <;> exact h

theorem Holds.wake {ph : Phase ρ ν} (h : C.Holds x owed k ph) : C.Holds x owed k ph.wake := by
  cases ph with
  | unlocking w => exact fun hw => (nomatch hw)
  | parked w => exact fun hw => (nomatch hw)
  | _ => exact h

end Contract

theorem Phase.inside_wake {ph : Phase ρ ν} : ph.wake.Inside ↔ ph.Inside := by
  cases ph <;> rfl

namespace Contract.Sound

variable {C : Contract M} {s : State σ κ ρ ν τ}

theorem alone (hs : C.Sound s) {t u : τ} (ht : (s.threads t).Inside) (hu : (s.threads u).Inside) :
    u = t :=
  Option.some.inj ((hs.owner u hu).symm.trans (hs.owner t ht))

theorem sleep_of_parked (hs : C.Sound s) (hquiet : ∀ t, ¬ (s.threads t).Inside)
    {t : τ} {k : κ} (ht : s.threads t = .busy k (.parked false)) : C.sleep k s.shared := by
  rcases hs.holds t k _ ht rfl with h | ⟨u, k', r, left, hu, -⟩
  · exact h
  · refine absurd ?_ (hquiet u)
    rw [hu]
    trivial

variable [DecidableEq τ]

variable {t : τ} {th : Thread κ ρ ν}

theorem owed_set (o : Option τ)
    (hfree : ∀ k r left, s.threads t = .busy k (.notifying r left) → left = []) (n : ν)
    (h : s.Owed n) : ({ s.set t th with owner := o } : State σ κ ρ ν τ).Owed n := by
  obtain ⟨u, k, r, left, hu, hn⟩ := h
  have hut : u ≠ t := by
    rintro rfl
    rw [hfree k r left hu] at hn
    exact List.not_mem_nil hn
  exact ⟨u, k, r, left, (update_of_ne hut _ _).trans hu, hn⟩

theorem move (hs : C.Sound s) {o : Option τ}
    (hfree : ∀ k r left, s.threads t = .busy k (.notifying r left) → left = [])
    (hothers : ∀ u, u ≠ t → (s.threads u).Inside → o = some u) (hself : th.Inside → o = some t)
    (hth : ∀ k ph, th = .busy k ph → C.Holds s.shared s.Owed k ph) :
    C.Sound { s.set t th with owner := o } where
  inv := hs.inv
  owner := by
    intro u hu
    by_cases hut : u = t
    · subst hut
      exact hself (by rwa [State.threads_set_self] at hu)
    · exact hothers u hut (by rwa [State.threads_set_ne s hut] at hu)
  holds := by
    intro u k ph hu
    by_cases hut : u = t
    · subst hut
      rw [State.threads_set_self] at hu
      exact (hth k ph hu).mono (owed_set o hfree)
    · rw [State.threads_set_ne s hut] at hu
      exact (hs.holds u k ph hu).mono (owed_set o hfree)

variable {k : κ} {ph ph' : Phase ρ ν}

theorem lock (hs : C.Sound s) (hfree : s.owner = none) (ht : s.threads t = .busy k ph)
    (hph : ¬ ph.Inside) (hth : C.Holds s.shared s.Owed k ph') :
    C.Sound { s.set t (.busy k ph') with owner := some t } := by
  refine hs.move ?_ ?_ (fun _ => rfl) ?_
  · intro k' r left h
    rw [ht] at h
    cases h
    exact absurd trivial hph
  · intro u _ hu
    rw [hs.owner u hu] at hfree
    cases hfree
  · rintro _ _ ⟨⟩
    exact hth

theorem inside (hs : C.Sound s) (ht : s.threads t = .busy k ph) (hph : ph.Inside)
    (hfree : ∀ r left, ph = .notifying r left → left = []) (hth : C.Holds s.shared s.Owed k ph') :
    C.Sound (s.set t (.busy k ph')) := by
  have hin : (s.threads t).Inside := by
    rw [ht]
    exact hph
  refine hs.move (o := s.owner) ?_ (fun u _ hu => hs.owner u hu) (fun _ => hs.owner t hin) ?_
  · intro k' r left h
    rw [ht] at h
    cases h
    exact hfree r left rfl
  · rintro _ _ ⟨⟩
    exact hth

theorem unlock (hs : C.Sound s) (ht : s.threads t = .busy k ph) (hph : ph.Inside)
    (hfree : ∀ r left, ph ≠ .notifying r left) (hout : ¬ th.Inside)
    (hth : ∀ k ph, th = .busy k ph → C.Holds s.shared s.Owed k ph) :
    C.Sound { s.set t th with owner := none } := by
  have hin : (s.threads t).Inside := by
    rw [ht]
    exact hph
  refine hs.move ?_ (fun u hut hu => absurd (hs.alone hin hu) hut) (fun h => absurd h hout) hth
  intro k' r left h
  rw [ht] at h
  cases h
  exact absurd rfl (hfree r left)

theorem act (hs : C.Sound s) (ht : s.threads t = .busy k .acting) (c : χ) :
    C.Sound { s.set t (.busy k (.notifying (M.body k c s.shared).2 (M.notifies k))) with
      shared := (M.body k c s.shared).1 } := by
  have hin : (s.threads t).Inside := by
    rw [ht]
    trivial
  have hgo : C.go k s.shared := hs.holds t k _ ht
  refine ⟨C.body_inv k c _ hs.inv hgo, fun u hu => ?_, fun u k' ph hu => ?_⟩
  · by_cases hut : u = t
    · subst hut
      exact hs.owner u hin
    · exact hs.owner u (by rwa [State.threads_set_ne s hut] at hu)
  · by_cases hut : u = t
    · subst hut
      rw [State.threads_set_self] at hu
      cases hu
      exact C.body_post k c _ hs.inv hgo
    · have hu' : s.threads u = .busy k' ph := by rwa [State.threads_set_ne s hut] at hu
      have hout : ¬ ph.Inside := fun h => hut (hs.alone hin (by rw [hu']; exact h))
      cases ph with
      | parked w =>
        -- only here the object may have changed under a thread that relies on it
        intro hw
        have howed : M.queue k' ∈ M.notifies k → State.Owed (σ := σ)
            { s.set t (.busy k (.notifying (M.body k c s.shared).2 (M.notifies k))) with
              shared := (M.body k c s.shared).1 } (M.queue k') :=
          fun hmem => ⟨t, k, _, _, update_self _ _ _, hmem⟩
        rcases hs.holds u k' _ hu' hw with hsleep | ⟨v, kv, r, left, hv, -⟩
        · exact (C.body_wakes k c _ k' hs.inv hgo hsleep).imp_right howed
        · have hvt : v = t := hs.alone hin (by rw [hv]; trivial)
          rw [hvt, ht] at hv
          cases hv
      | locking => trivial
      | relocking => trivial
      | _ => exact absurd trivial hout

end Contract.Sound

end Contract

section Runs

variable {σ κ ρ χ ν τ : Type*} [DecidableEq ν] [DecidableEq τ] {M : Object σ κ ρ χ ν}
  {C : Contract M} {s s' : State σ κ ρ ν τ} {n : ν}

theorem notifyThread_eq_busy {th : Thread κ ρ ν} {k : κ} {ph : Phase ρ ν}
    (h : M.notifyThread n th = .busy k ph) :
    ∃ ph0, th = .busy k ph0 ∧ ph = if M.queue k = n then ph0.wake else ph0 := by
  cases th with
  | idle => cases h
  | busy k0 ph0 =>
    by_cases hq : M.queue k0 = n
    · obtain ⟨rfl, rfl⟩ := Thread.busy.inj ((if_pos hq).symm.trans h)
      exact ⟨ph0, rfl, (if_pos hq).symm⟩
    · obtain ⟨rfl, rfl⟩ := Thread.busy.inj ((if_neg hq).symm.trans h)
      exact ⟨ph0, rfl, (if_neg hq).symm⟩

theorem inside_notifyThread {th : Thread κ ρ ν} : (M.notifyThread n th).Inside ↔ th.Inside := by
  cases th with
  | idle => rfl
  | busy k ph =>
    simp only [Object.notifyThread]
    split
    · exact Phase.inside_wake
    · rfl

namespace Contract.Sound

theorem notify (hs : C.Sound s) {t : τ} {k : κ} {r : ρ} {ns : List ν}
    (ht : s.threads t = .busy k (.notifying r (n :: ns))) :
    C.Sound ((M.notifyAll s n).set t (.busy k (.notifying r ns))) := by
  have hin : (s.threads t).Inside := by
    rw [ht]
    trivial
  -- what is still owed, apart from the notification that is made here
  have howed : ∀ m, m ≠ n → s.Owed m →
      ((M.notifyAll s n).set t (.busy k (.notifying r ns))).Owed m := by
    rintro m hm ⟨u, ku, ru, left, hu, hmem⟩
    have hut : u = t := hs.alone hin (by rw [hu]; trivial)
    rw [hut, ht] at hu
    cases hu
    exact ⟨t, k, r, ns, update_self _ _ _, (List.mem_cons.1 hmem).resolve_left hm⟩
  refine ⟨hs.inv, fun u hu => ?_, fun u k' ph hu => ?_⟩
  · by_cases hut : u = t
    · subst hut
      exact hs.owner u hin
    · rw [State.threads_set_ne _ hut] at hu
      exact hs.owner u (inside_notifyThread.1 hu)
  · by_cases hut : u = t
    · subst hut
      rw [State.threads_set_self] at hu
      cases hu
      exact hs.holds u k _ ht
    · rw [State.threads_set_ne _ hut] at hu
      obtain ⟨ph0, hph0, rfl⟩ := notifyThread_eq_busy hu
      have hold := hs.holds u k' ph0 hph0
      split
      · -- the thread sleeps on this condition variable: its handle is woken
        next hq =>
        cases ph0 with
        | unlocking w => exact fun hw => (nomatch hw)
        | parked w => exact fun hw => (nomatch hw)
        | _ => exact hold
      · next hq =>
        cases ph0 with
        | unlocking w => exact fun hw => (hold hw).imp_right (howed _ hq)
        | parked w => exact fun hw => (hold hw).imp_right (howed _ hq)
        | _ => exact hold

omit [DecidableEq ν] in
theorem signal (hs : C.Sound s) (t : τ) : C.Sound (s.set t (s.threads t).wake) := by
  have hself : ∀ {k ph}, (s.threads t).wake = .busy k ph →
      ∃ ph0, s.threads t = .busy k ph0 ∧ ph = ph0.wake := by
    intro k ph h
    cases ht : s.threads t with
    | idle =>
      rw [ht] at h
      cases h
    | busy k0 ph0 =>
      rw [ht] at h
      cases h
      exact ⟨ph0, rfl, rfl⟩
  have howed : ∀ n, s.Owed n → (s.set t (s.threads t).wake).Owed n := by
    rintro n ⟨u, k, r, left, hu, hn⟩
    refine ⟨u, k, r, left, ?_, hn⟩
    by_cases hut : u = t
    · subst hut
      rw [State.threads_set_self, hu]
      rfl
    · rw [State.threads_set_ne s hut, hu]
  refine ⟨hs.inv, fun u hu => hs.owner u ?_, fun u k ph hu => ?_⟩
  · by_cases hut : u = t
    · subst hut
      rw [State.threads_set_self] at hu
      cases ht : s.threads u with
      | idle =>
        rw [ht] at hu
        exact hu
      | busy k ph =>
        rw [ht] at hu
        exact Phase.inside_wake.1 hu
    · rwa [State.threads_set_ne s hut] at hu
  · by_cases hut : u = t
    · subst hut
      rw [State.threads_set_self] at hu
      obtain ⟨ph0, hph0, rfl⟩ := hself hu
      exact ((hs.holds u k ph0 hph0).mono howed).wake
    · rw [State.threads_set_ne s hut] at hu
      exact (hs.holds u k ph hu).mono howed

theorem advance (hs : C.Sound s) {t : τ} {k : κ} {pending : Bool} {c : χ} {ph : Phase ρ ν}
    (ht : s.threads t = .busy k ph) (h : M.advance s t k pending c ph = some s') :
    C.Sound s' := by
  cases ph with
  | locking =>
    obtain ⟨hfree, ⟨⟩⟩ := Option.ite_none_right_eq_some.1 h
    exact hs.lock (Option.isNone_iff_eq_none.1 hfree) ht id trivial
  | entered =>
    cases h
    exact hs.inside ht trivial (fun _ _ h => (nomatch h))
      (holds_phase (C.enter_meets k _ hs.inv))
  | enqueuing =>
    cases h
    exact hs.inside ht trivial (fun _ _ h => (nomatch h)) fun _ => Or.inl (hs.holds t k _ ht)
  | unlocking w =>
    cases h
    refine hs.unlock ht trivial (fun _ _ h => (nomatch h)) id ?_
    rintro _ _ ⟨⟩
    have hold := hs.holds t k _ ht
    exact hold
  | parked w =>
    obtain ⟨-, ⟨⟩⟩ := Option.ite_none_right_eq_some.1 h
    refine hs.move (o := s.owner) ?_ (fun u _ hu => hs.owner u hu) (fun h => h.elim) ?_
    · intro k' r left h
      rw [ht] at h
      cases h
    · rintro _ _ ⟨⟩
      trivial
  | relocking =>
    obtain ⟨hfree, ⟨⟩⟩ := Option.ite_none_right_eq_some.1 h
    exact hs.lock (Option.isNone_iff_eq_none.1 hfree) ht id trivial
  | resumed =>
    cases h
    exact hs.inside ht trivial (fun _ _ h => (nomatch h))
      (holds_phase (C.resume_meets k _ pending hs.inv))
  | acting =>
    cases h
    exact hs.act ht c
  | notifying r left =>
    cases left with
    | nil =>
      cases h
      have hold := hs.holds t k _ ht
      refine hs.inside ht trivial ?_ hold
      rintro _ _ ⟨⟩
      rfl
    | cons n ns =>
      cases h
      exact hs.notify ht
  | leaving r =>
    cases h
    refine hs.unlock ht trivial (fun _ _ h => (nomatch h)) ?_ ?_
    · unfold Object.after
      split <;> exact id
    · unfold Object.after
      intro k' ph' hafter
      split at hafter
      · cases hafter
        trivial
      · cases hafter

theorem step (hs : C.Sound s) (h : M.Step s s') : C.Sound s' := by
  obtain ⟨a, h⟩ := h
  cases a with
  | call t k =>
    unfold Object.step at h
    dsimp only at h
    split at h
    · next ht =>
      cases h
      refine hs.move (o := s.owner) ?_ (fun u _ hu => hs.owner u hu) (fun h => h.elim) ?_
      · intro k' r left h
        rw [ht] at h
        cases h
      · rintro _ _ ⟨⟩
        trivial
    · cases h
  | signal t =>
    cases h
    exact hs.signal t
  | run t pending c =>
    unfold Object.step at h
    dsimp only at h
    split at h
    · cases h
    · next ht => exact hs.advance ht h

end Contract.Sound

theorem Contract.sound_of_reachable (C : Contract M) {x : σ} (hx : C.inv x)
    (hs : M.Reachable x s) : C.Sound s := by
  refine Transition.Reachable.invariant ?_ (fun _ _ hs hstep => hs.step hstep) hs
  rintro _ rfl
  exact ⟨hx, fun _ h => h.elim, fun _ _ _ h => (nomatch h)⟩

theorem Contract.Sound.shared_step (hs : C.Sound s) {R : σ → σ → Prop} (hrefl : ∀ x, R x x)
    (hbody : ∀ k c x, C.inv x → C.go k x → R x (M.body k c x).1) (h : M.Step s s') :
    R s.shared s'.shared := by
  obtain ⟨a, h⟩ := h
  cases a with
  | call t k =>
    unfold Object.step at h
    dsimp only at h
    split at h
    · cases h
      exact hrefl _
    · cases h
  | signal t =>
    cases h
    exact hrefl _
  | run t pending c =>
    unfold Object.step at h
    dsimp only at h
    split at h
    · cases h
    · next k ph ht =>
      cases ph with
      | acting =>
        cases h
        exact hbody k c _ hs.inv (hs.holds t k _ ht)
      | locking =>
        obtain ⟨-, ⟨⟩⟩ := Option.ite_none_right_eq_some.1 h
        exact hrefl _
      | relocking =>
        obtain ⟨-, ⟨⟩⟩ := Option.ite_none_right_eq_some.1 h
        exact hrefl _
      | parked w =>
        obtain ⟨-, ⟨⟩⟩ := Option.ite_none_right_eq_some.1 h
        exact hrefl _
      | notifying r left =>
        cases left <;>
        · cases h
          exact hrefl _
      | _ =>
        cases h
        exact hrefl _

theorem Contract.Sound.shared_run (hs : C.Sound s) {R : σ → σ → Prop} (hrefl : ∀ x, R x x)
    (htrans : ∀ x y z, R x y → R y z → R x z)
    (hbody : ∀ k c x, C.inv x → C.go k x → R x (M.body k c x).1) (h : M.Run s s') :
    R s.shared s'.shared := by
  have hboth : C.Sound s' ∧ R s.shared s'.shared := by
    induction h with
    | refl => exact ⟨hs, hrefl _⟩
    | tail _ hstep ih =>
      exact ⟨ih.1.step hstep, htrans _ _ _ ih.2 (ih.1.shared_step hrefl hbody hstep)⟩
  exact hboth.2

end Runs

end Monitor
