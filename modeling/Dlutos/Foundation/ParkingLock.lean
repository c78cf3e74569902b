import Dlutos.Foundation.RefCount
import Dlutos.Foundation.Transition

/-!
# Locks with an atomic word and queues of parked tasks

A task that wants the lock first makes one attempt; if that fails it enters a loop: it puts a handle
on the queue of its kind of request, attempts once more and, if it fails again, parks until the
handle is notified.  A release changes the word and then notifies the queues in a fixed order: the
first one that has a waiter ends the release.  Every access of the word and every operation on a
queue is one step.
-/

set_option linter.unusedSectionVars false

namespace ParkingLock

open RefCount Transition ExceptLoop Function

inductive Attempt (ω : Type) where
  | load
  | cas (expected new : ω)

inductive Outcome (ω : Type) where
  | failed
  | next (a : Attempt ω)
  | taken (word : ω)

/-- A lock with requests of kinds `κ` and words `ω`; a release may fail with `ε`. -/
structure Lock (κ ω ε : Type) where
  free : ω
  attempt : κ → Attempt ω
  /-- The compare-exchange that follows a load, unless the word that was read refuses. -/
  follow : κ → ω → Option (Attempt ω)
  /-- The queue that makes the first attempt of a call fail if somebody waits there. -/
  yieldsTo : κ → Option κ
  /-- The new word after a release, and whether the queues are notified. -/
  release : κ → ω → Except ε (ω × Bool)
  /-- The queues that a release notifies, in order; the flag says whether all of the queue. -/
  notify : List (κ × Bool)

inductive Pc (κ ω : Type) where
  | idle
  /-- about to look at the queue `q`, in the first attempt of a call -/
  | check (k q : κ) (waits : Bool)
  /-- in the first attempt of a call; `waits` tells whether the call waits if that fails -/
  | quick (k : κ) (waits : Bool) (a : Attempt ω)
  /-- about to put a handle on the queue -/
  | enqueue (k : κ)
  | slow (k : κ) (a : Attempt ω)
  /-- the attempt failed, about to look at the handle -/
  | await (k : κ)
  | parked (k : κ)
  /-- has taken the lock and is about to take its handle off the queue -/
  | leave (k : κ)
  | holds (k : κ)
  /-- has released the lock, and is about to notify these queues -/
  | notifying (left : List (κ × Bool))

/-- The word, the queues, the handles that were notified, and the tasks. -/
structure State (κ ω τ : Type) where
  word : ω
  queue : κ → List τ := fun _ => []
  woken : τ → Bool := fun _ => false
  pc : τ → Pc κ ω := fun _ => .idle

/-- What the scheduler may let happen. -/
inductive Op (κ τ : Type) where
  | call (t : τ) (k : κ) (waits : Bool)
  | run (t : τ)
  /-- A weak compare-exchange fails. -/
  | spurious (t : τ)
  | cancel (t : τ)

section Definitions

variable {κ ω ε τ : Type} [DecidableEq κ] [DecidableEq ω] [DecidableEq τ] (L : Lock κ ω ε)

def State.goto (s : State κ ω τ) (t : τ) (p : Pc κ ω) : State κ ω τ :=
  { s with pc := update s.pc t p }

def Pc.notify : List (κ × Bool) → Pc κ ω
  | [] => .idle
  | left => .notifying left

namespace Lock

def access (k : κ) (w : ω) : Attempt ω → Outcome ω
  | .load =>
    match L.follow k w with
    | none => .failed
    | some a => .next a
  | .cas expected new => if w = expected then .taken new else .failed

def start (k : κ) (waits : Bool) : Pc κ ω :=
  match L.yieldsTo k with
  | none => .quick k waits (L.attempt k)
  | some q => .check k q waits

/-- What follows when the first attempt of a call failed. -/
def refused (k : κ) (waits : Bool) : Pc κ ω := if waits then .enqueue k else .idle

/-- Notify the first handle of a queue, or all of them. -/
def wake (s : State κ ω τ) (k : κ) (all : Bool) : State κ ω τ :=
  if all then
    { s with
      woken := fun u => s.woken u || decide (u ∈ s.queue k)
      queue := update s.queue k [] }
  else
    { s with
      woken := fun u => s.woken u || decide ((s.queue k).head? = some u)
      queue := update s.queue k (s.queue k).tail }

/-- The next step of a task. -/
def advance (s : State κ ω τ) (t : τ) : Except ε (State κ ω τ) :=
  match s.pc t with
  | .idle => .ok s
  | .check k q waits =>
    if s.queue q = [] then .ok (s.goto t (.quick k waits (L.attempt k)))
    else .ok (s.goto t (refused k waits))
  | .quick k waits a =>
    match L.access k s.word a with
    | .failed => .ok (s.goto t (refused k waits))
    | .next a => .ok (s.goto t (.quick k waits a))
    | .taken w => .ok ({ s with word := w }.goto t (.holds k))
  | .enqueue k =>
    .ok ({ s with
      queue := update s.queue k (s.queue k ++ [t])
      woken := update s.woken t false }.goto t (.slow k (L.attempt k)))
  | .slow k a =>
    match L.access k s.word a with
    | .failed => .ok (s.goto t (.await k))
    | .next a => .ok (s.goto t (.slow k a))
    | .taken w => .ok ({ s with word := w }.goto t (.leave k))
  | .await k => .ok (s.goto t (if s.woken t then .enqueue k else .parked k))
  | .parked k => .ok (s.goto t (.enqueue k))
  | .leave k =>
    .ok ({ s with queue := update s.queue k ((s.queue k).erase t) }.goto t (.holds k))
  | .holds k => do
    let (w, notifies) ← L.release k s.word
    .ok ({ s with word := w }.goto t (if notifies then .notify L.notify else .idle))
  | .notifying [] => .ok (s.goto t .idle)
  | .notifying ((k, all) :: left) =>
    if s.queue k = [] then .ok (s.goto t (.notify left))
    else .ok ((wake s k all).goto t .idle)

def run (s : State κ ω τ) : Op κ τ → Except ε (State κ ω τ)
  | .call t k waits => .ok (s.goto t (L.start k waits))
  | .run t => L.advance s t
  | .spurious t =>
    match s.pc t with
    | .slow k _ => .ok (s.goto t (.await k))
    | _ => .ok s
  | .cancel t =>
    match s.pc t with
    | .parked k =>
      .ok ({ s with queue := update s.queue k ((s.queue k).erase t) }.goto t .idle)
    | _ => .ok s

end Lock

/-- Idle tasks call, a parked task goes on once notified, and only weak compare-exchanges fail
without a reason. -/
def Enabled (s : State κ ω τ) : Op κ τ → Prop
  | .call t _ _ => s.pc t = .idle
  | .run t => s.pc t ≠ .idle ∧ ∀ k, s.pc t = .parked k → s.woken t = true
  | .spurious t => ∃ k e n, s.pc t = .slow k (.cas e n)
  | .cancel t => ∃ k, s.pc t = .parked k

def Lock.system (Allowed : Op κ τ → Prop) : System (State κ ω τ) (Op κ τ) ε where
  init s := s = { word := L.free }
  allowed s op := Enabled s op ∧ Allowed op
  run := L.run

end Definitions

variable {κ ω ε τ : Type} [DecidableEq κ] [DecidableEq ω] [DecidableEq τ] {L : Lock κ ω ε}
  {s s' : State κ ω τ} {t : τ} {op : Op κ τ}

@[simp] theorem State.goto_woken (s : State κ ω τ) (t : τ) (p : Pc κ ω) :
    (s.goto t p).woken = s.woken := rfl

@[simp] theorem State.goto_pc (s : State κ ω τ) (t : τ) (p : Pc κ ω) :
    (s.goto t p).pc = update s.pc t p := rfl

/-! ### What a step can do -/

/-- The steps that only move a task, from `p` to `p'`. -/
inductive Local (L : Lock κ ω ε) (s : State κ ω τ) (t : τ) : Pc κ ω → Pc κ ω → Prop where
  | pass {k q : κ} {waits : Bool} : Local L s t (.check k q waits) (.quick k waits (L.attempt k))
  | yield {k q : κ} {waits : Bool} : Local L s t (.check k q waits) (Lock.refused k waits)
  | quickFailed {k : κ} {waits : Bool} {a : Attempt ω} :
    Local L s t (.quick k waits a) (Lock.refused k waits)
  | quickNext {k : κ} {waits : Bool} {a : Attempt ω} : L.follow k s.word = some a →
    Local L s t (.quick k waits .load) (.quick k waits a)
  | slowFailed {k : κ} {a : Attempt ω} : L.access k s.word a = .failed →
    Local L s t (.slow k a) (.await k)
  | slowNext {k : κ} {a : Attempt ω} : L.follow k s.word = some a →
    Local L s t (.slow k .load) (.slow k a)
  | ready {k : κ} : s.woken t = true → Local L s t (.await k) (.enqueue k)
  | pending {k : κ} : Local L s t (.await k) (.parked k)
  | resume {k : κ} : s.woken t = true → Local L s t (.parked k) (.enqueue k)
  | skip {k : κ} {all : Bool} {left : List (κ × Bool)} : s.queue k = [] →
    Local L s t (.notifying ((k, all) :: left)) (.notify left)
  | finish : Local L s t (.notifying []) .idle

/-- Where a task is when a compare-exchange has given it the lock. -/
inductive Takes (k : κ) (e n : ω) : Pc κ ω → Pc κ ω → Prop where
  | quick {waits : Bool} : Takes k e n (.quick k waits (.cas e n)) (.holds k)
  | slow : Takes k e n (.slow k (.cas e n)) (.leave k)

inductive Moves (L : Lock κ ω ε) (s : State κ ω τ) : Op κ τ → State κ ω τ → Prop where
  | call {t : τ} {k : κ} {waits : Bool} : s.pc t = .idle →
    Moves L s (.call t k waits) (s.goto t (L.start k waits))
  | goto {t : τ} {p : Pc κ ω} : Local L s t (s.pc t) p → Moves L s (.run t) (s.goto t p)
  | take {t : τ} {k : κ} {n : ω} {p : Pc κ ω} : Takes k s.word n (s.pc t) p →
    Moves L s (.run t) ({ s with word := n }.goto t p)
  | enqueue {t : τ} {k : κ} : s.pc t = .enqueue k →
    Moves L s (.run t) ({ s with
      queue := update s.queue k (s.queue k ++ [t])
      woken := update s.woken t false }.goto t (.slow k (L.attempt k)))
  | leave {t : τ} {k : κ} : s.pc t = .leave k →
    Moves L s (.run t)
      ({ s with queue := update s.queue k ((s.queue k).erase t) }.goto t (.holds k))
  | release {t : τ} {k : κ} {w : ω} {notifies : Bool} : s.pc t = .holds k →
    L.release k s.word = .ok (w, notifies) →
    Moves L s (.run t) ({ s with word := w }.goto t (if notifies then .notify L.notify else .idle))
  | wake {t : τ} {k : κ} {all : Bool} {left : List (κ × Bool)} :
    s.pc t = .notifying ((k, all) :: left) → s.queue k ≠ [] →
    Moves L s (.run t) ((Lock.wake s k all).goto t .idle)
  | spurious {t : τ} {k : κ} {e n : ω} : s.pc t = .slow k (.cas e n) →
    Moves L s (.spurious t) (s.goto t (.await k))
  | cancel {t : τ} {k : κ} : s.pc t = .parked k →
    Moves L s (.cancel t)
      ({ s with queue := update s.queue k ((s.queue k).erase t) }.goto t .idle)

theorem Lock.access_cases (L : Lock κ ω ε) (k : κ) (w : ω) (a : Attempt ω) :
    L.access k w a = .failed ∨
      (a = .load ∧ ∃ a', L.follow k w = some a' ∧ L.access k w a = .next a') ∨
      ∃ n, a = .cas w n ∧ L.access k w a = .taken n := by
  unfold Lock.access
  cases a with
  | load =>
    cases hf : L.follow k w with
    | none => exact Or.inl rfl
    | some a' => exact Or.inr (Or.inl ⟨rfl, a', rfl, rfl⟩)
  | cas e n =>
    dsimp only
    split
    · rename_i he
      subst he
      exact Or.inr (Or.inr ⟨n, rfl, rfl⟩)
    · exact Or.inl rfl

theorem moves_of_advance (hparked : ∀ k, s.pc t = .parked k → s.woken t = true)
    (hidle : s.pc t ≠ .idle) (h : L.advance s t = .ok s') : Moves L s (.run t) s' := by
  unfold Lock.advance at h
  split at h
  · rename_i hpc
    exact absurd hpc hidle
  · rename_i k q waits hpc
    split at h
    · cases h
      exact .goto (by rw [hpc]; exact .pass)
    · cases h
      exact .goto (by rw [hpc]; exact .yield)
  · rename_i k waits a hpc
    obtain hacc | ⟨rfl, a', hf, hacc⟩ | ⟨n, rfl, hacc⟩ := L.access_cases k s.word a
    · rw [hacc] at h
      cases h
      exact .goto (by rw [hpc]; exact .quickFailed)
    · rw [hacc] at h
      cases h
      exact .goto (by rw [hpc]; exact .quickNext hf)
    · rw [hacc] at h
      cases h
      exact .take (by rw [hpc]; exact .quick)
  · rename_i k hpc
    cases h
    exact .enqueue hpc
  · rename_i k a hpc
    obtain hacc | ⟨rfl, a', hf, hacc⟩ | ⟨n, rfl, hacc⟩ := L.access_cases k s.word a
    · rw [hacc] at h
      cases h
      exact .goto (by rw [hpc]; exact .slowFailed hacc)
    · rw [hacc] at h
      cases h
      exact .goto (by rw [hpc]; exact .slowNext hf)
    · rw [hacc] at h
      cases h
      exact .take (by rw [hpc]; exact .slow)
  · rename_i k hpc
    cases h
    cases hw : s.woken t with
    | true => exact .goto (by rw [hpc]; exact .ready hw)
    | false => exact .goto (by rw [hpc]; exact .pending)
  · rename_i k hpc
    cases h
    exact .goto (by rw [hpc]; exact .resume (hparked k hpc))
  · rename_i k hpc
    cases h
    exact .leave hpc
  · rename_i k hpc
    obtain ⟨⟨w, notifies⟩, hrel, hrest⟩ := bind_eq_ok.mp h
    cases hrest
    exact .release hpc hrel
  · rename_i hpc
    cases h
    exact .goto (by rw [hpc]; exact .finish)
  · rename_i k all left hpc
    split at h
    · rename_i hq
      cases h
      exact .goto (by rw [hpc]; exact .skip hq)
    · rename_i hq
      cases h
      exact .wake hpc hq

theorem moves_of_run (hop : Enabled s op) (h : L.run s op = .ok s') : Moves L s op s' := by
  cases op with
  | call t k waits =>
    cases h
    exact .call hop
  | run t => exact moves_of_advance hop.2 hop.1 h
  | spurious t =>
    obtain ⟨k, e, n, hpc⟩ := hop
    simp only [Lock.run, hpc] at h
    cases h
    exact .spurious hpc
  | cancel t =>
    obtain ⟨k, hpc⟩ := hop
    simp only [Lock.run, hpc] at h
    cases h
    exact .cancel hpc

theorem of_run_eq_error {e : ε} (h : L.run s op = .error e) :
    ∃ t k, s.pc t = .holds k ∧ L.release k s.word = .error e := by
  cases op with
  | call t k waits => cases h
  | run t =>
    have h : L.advance s t = .error e := h
    unfold Lock.advance at h
    split at h
    · cases h
    · split at h <;> cases h
    · split at h <;> cases h
    · cases h
    · split at h <;> cases h
    · cases h
    · cases h
    · cases h
    · rename_i k hpc
      refine ⟨t, k, hpc, ?_⟩
      cases hrel : L.release k s.word with
      | error e' =>
        rw [hrel] at h
        cases h
        rfl
      | ok x =>
        rw [hrel] at h
        cases h
    · cases h
    · split at h <;> cases h
  | spurious t =>
    unfold Lock.run at h
    dsimp only at h
    split at h <;> cases h
  | cancel t =>
    unfold Lock.run at h
    dsimp only at h
    split at h <;> cases h

/-! ### Safety -/

def Pc.guard : Pc κ ω → Option κ
  | .leave k | .holds k => some k
  | _ => none

/-- The access of the word that a task is about to make, for a request of a kind. -/
def Pc.access : Pc κ ω → Option (κ × Attempt ω)
  | .quick k _ a | .slow k a => some (k, a)
  | _ => none

def Lock.Makes (L : Lock κ ω ε) (k : κ) (a : Attempt ω) : Prop :=
  a = L.attempt k ∨ ∃ w, L.follow k w = some a

/-- The laws of a lock whose word `w` says that `held w k` guards of kind `k` exist. -/
structure Lawful (L : Lock κ ω ε) (Valid : ω → Prop) (held : ω → κ → ℕ) : Prop where
  valid_free : Valid L.free
  held_free : ∀ k, held L.free k = 0
  cas : ∀ k e n, L.Makes k (.cas e n) → Valid e →
    Valid n ∧ held n = update (held e) k (held e k + 1)
  release : ∀ k w, Valid w → 0 < held w k → ∃ w' notifies, L.release k w = .ok (w', notifies) ∧
    Valid w' ∧ held w' = update (held w) k (held w k - 1)

/-- The word is right about the guards. -/
structure Safe (L : Lock κ ω ε) (Valid : ω → Prop) (held : ω → κ → ℕ) (s : State κ ω τ) :
    Prop where
  valid : Valid s.word
  exact : Exact (fun t => (s.pc t).guard) (fun _ => 0) (held s.word)
  accesses : ∀ t k a, (s.pc t).access = some (k, a) → L.Makes k a

variable {Valid : ω → Prop} {held : ω → κ → ℕ}

theorem guard_update (pc : τ → Pc κ ω) (t : τ) (p : Pc κ ω) :
    (fun u => (update pc t p u).guard) =
      update (fun u => (pc u).guard) t p.guard :=
  funext fun u => Function.apply_update (fun _ q => Pc.guard q) pc t p u

theorem Local.guard {p p' : Pc κ ω} (h : Local L s t p p') : p.guard = none ∧ p'.guard = none := by
  cases h with
  | @yield k q waits | @quickFailed k waits a =>
    refine ⟨rfl, ?_⟩
    unfold Lock.refused
    split
    · rfl
    · rfl
  | @skip k all left =>
    refine ⟨rfl, ?_⟩
    cases left with
    | nil => rfl
    | cons => rfl
  | _ => exact ⟨rfl, rfl⟩

theorem Local.accesses {p p' : Pc κ ω} (h : Local L s t p p')
    {k : κ} {a : Attempt ω} (hp' : p'.access = some (k, a)) : L.Makes k a := by
  cases h with
  | pass =>
    cases hp'
    exact Or.inl rfl
  | @yield k q waits | @quickFailed k waits a =>
    unfold Lock.refused at hp'
    split at hp'
    · cases hp'
    · cases hp'
  | quickNext hf | slowNext hf =>
    cases hp'
    exact Or.inr ⟨_, hf⟩
  | @skip k all left =>
    cases left with
    | nil => cases hp'
    | cons => cases hp'
  | _ => cases hp'

theorem Takes.access {k : κ} {e n : ω} {p p' : Pc κ ω} (h : Takes k e n p p') :
    p.access = some (k, .cas e n) ∧ p.guard = none ∧ p'.guard = some k ∧ p'.access = none := by
  cases h with
  | quick => exact ⟨rfl, rfl, rfl, rfl⟩
  | slow => exact ⟨rfl, rfl, rfl, rfl⟩

theorem start_access (k : κ) (waits : Bool) : (L.start k waits).guard = none ∧
    ∀ k' a, (L.start k waits).access = some (k', a) → L.Makes k' a := by
  unfold Lock.start
  split
  · refine ⟨rfl, fun k' a ha => ?_⟩
    cases ha
    exact Or.inl rfl
  · exact ⟨rfl, fun k' a ha => nomatch ha⟩

theorem Safe.move (h : Safe L Valid held s) {p : Pc κ ω} (hword : s'.word = s.word)
    (hpc : s'.pc = update s.pc t p) (hguard : p.guard = (s.pc t).guard)
    (hacc : ∀ k a, p.access = some (k, a) → L.Makes k a) : Safe L Valid held s' := by
  refine ⟨hword ▸ h.valid, ?_, fun u k a hu => ?_⟩
  · rw [hpc, hword, guard_update, hguard, update_eq_self (a := t) fun u => (s.pc u).guard]
    exact h.exact
  · rw [hpc] at hu
    by_cases hut : u = t
    · rw [hut, update_self] at hu
      exact hacc k a hu
    · rw [update_of_ne hut] at hu
      exact h.accesses u k a hu

theorem Safe.setWord (h : Safe L Valid held s) {w : ω} {p : Pc κ ω} (hvalid : Valid w)
    (hexact : Exact (update (fun u => (s.pc u).guard) t p.guard) (fun _ => 0) (held w))
    (hacc : p.access = none) : Safe L Valid held ({ s with word := w }.goto t p) := by
  refine ⟨hvalid, ?_, fun u k a hu => ?_⟩
  · rw [State.goto_pc, guard_update]
    exact hexact
  · rw [State.goto_pc] at hu
    by_cases hut : u = t
    · rw [hut, update_self, hacc] at hu
      cases hu
    · rw [update_of_ne hut] at hu
      exact h.accesses u k a hu

theorem notify_access (left : List (κ × Bool)) :
    (Pc.notify left : Pc κ ω).guard = none ∧ (Pc.notify left : Pc κ ω).access = none := by
  cases left with
  | nil => exact ⟨rfl, rfl⟩
  | cons => exact ⟨rfl, rfl⟩

theorem Safe.moves (laws : Lawful L Valid held) (h : Safe L Valid held s)
    (hmoves : Moves L s op s') : Safe L Valid held s' := by
  cases hmoves with
  | @call t k waits hpc =>
    obtain ⟨hguard, hacc⟩ := start_access (L := L) k waits
    exact h.move rfl rfl (by rw [hguard, hpc]; rfl) hacc
  | goto hlocal =>
    obtain ⟨hguard, hguard'⟩ := hlocal.guard
    exact h.move rfl rfl (hguard'.trans hguard.symm) fun k a ha => hlocal.accesses ha
  | @take t k n p htakes =>
    obtain ⟨hacc, hnone, hguard, hnext⟩ := htakes.access
    obtain ⟨hvalid, hheld⟩ := laws.cas k s.word n (h.accesses t k _ hacc) h.valid
    refine h.setWord hvalid ?_ hnext
    rw [hguard, hheld]
    exact h.exact.acquire hnone k
  | @enqueue t k hpc =>
    refine h.move (t := t) (p := .slow k (L.attempt k)) rfl rfl ?_ ?_
    · rw [hpc]
      rfl
    · intro k' a ha
      cases ha
      exact Or.inl rfl
  | @leave t k hpc =>
    refine h.move (t := t) (p := .holds k) rfl rfl ?_ fun _ _ ha => nomatch ha
    rw [hpc]
    rfl
  | @release t k w notifies hpc hrel =>
    have hguard : (s.pc t).guard = some k := by
      rw [hpc]
      rfl
    obtain ⟨w', notifies', hrel', hvalid, hheld⟩ := laws.release k s.word h.valid
      (h.exact.pos hguard)
    rw [hrel] at hrel'
    cases hrel'
    obtain ⟨hnone, hacc⟩ := notify_access (ω := ω) L.notify
    refine h.setWord hvalid ?_ ?_
    · have hnext : (if notifies then Pc.notify L.notify else .idle : Pc κ ω).guard = none := by
        split
        · exact hnone
        · rfl
      rw [hnext, hheld]
      exact h.exact.release hguard
    · split
      · exact hacc
      · rfl
  | @wake t k all left hpc hq =>
    refine h.move (t := t) (p := .idle) ?_ ?_ ?_ fun _ _ ha => nomatch ha
    · unfold Lock.wake
      split
      · rfl
      · rfl
    · unfold Lock.wake
      split
      · rfl
      · rfl
    · rw [hpc]
      rfl
  | @spurious t k e n hpc =>
    refine h.move (t := t) (p := .await k) rfl rfl ?_ fun _ _ ha => nomatch ha
    rw [hpc]
    rfl
  | @cancel t k hpc =>
    refine h.move (t := t) (p := .idle) rfl rfl ?_ fun _ _ ha => nomatch ha
    rw [hpc]
    rfl

theorem safe_init (laws : Lawful L Valid held) :
    Safe L Valid held ({ word := L.free } : State κ ω τ) := by
  refine ⟨laws.valid_free, fun k => ?_, fun t k a ha => nomatch ha⟩
  have hset : {t : τ | (Pc.idle : Pc κ ω).guard = some k} = ∅ := by
    ext t
    simp [Pc.guard]
  rw [hset, Set.encard_empty, laws.held_free]
  rfl

theorem Lawful.safe_of_reachable (laws : Lawful L Valid held) {Allowed : Op κ τ → Prop}
    (h : (L.system Allowed).Reachable s) :
    Safe L Valid held s ∧ ∀ op e, L.run s op ≠ .error e := by
  have hsafe : Safe L Valid held s := by
    refine h.invariant ?_ ?_
    · rintro s rfl
      exact safe_init laws
    · rintro s s' hs ⟨op, hop, hrun⟩
      exact hs.moves laws (moves_of_run hop.1 hrun)
  refine ⟨hsafe, fun op e hrun => ?_⟩
  obtain ⟨t, k, hpc, hrel⟩ := of_run_eq_error hrun
  obtain ⟨w', notifies, hok, -⟩ := laws.release k s.word hsafe.valid
    (hsafe.exact.pos (r := t) (by rw [hpc]; rfl))
  rw [hrel] at hok
  cases hok

end ParkingLock
