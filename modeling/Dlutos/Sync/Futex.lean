import Dlutos.Foundation.Transition
import Mathlib.Data.Set.Card

/-!
# Futexes

`kernel/task/futex.rs`: threads that call `futex_wait`, `futex_wake` and `futex_wake_process` and
store to memory, over one address space.  The section of `futex_wait` that has the bucket locked is
one step, and so is every operation of a wait list.  The thread of `futex_wait` puts itself on the
wait list after it has unlocked the bucket.
-/

namespace Dlutos

open Transition Function

structure FutexKey where
  addr : ℕ
  pid : Option ℕ
  deriving DecidableEq

def futexBucketsNum : ℕ := 100

def FutexKey.hash (key : FutexKey) : ℕ := (key.addr >>> 2) + key.pid.getD 0

def FutexKey.bucket (key : FutexKey) : ℕ := key.hash % futexBucketsNum

/-- The ways in which `futex_wait` returns. -/
inductive FutexResult where
  | woken
  | again
  /-- The address cannot be read. -/
  | fault
  deriving DecidableEq

inductive FutexPc where
  | idle
  /-- `futex_wait`: waits for the bucket lock -/
  | waitCall (key : FutexKey) (expected : ℕ)
  /-- has found the expected value and the item, and is about to put itself on the wait list -/
  | checked (key : FutexKey)
  | queued (key : FutexKey)
  | waited (result : FutexResult)
  /-- `futex_wake`: waits for the bucket lock -/
  | wakeCall (key : FutexKey) (maxWakeCount : ℕ)
  | waking (key : FutexKey) (maxWakeCount count : ℕ)
  | woke (key : FutexKey) (count : ℕ)
  /-- `futex_wake_process`: waits for the lock of the next bucket -/
  | sweepCall (pid bucket total : ℕ)
  | sweeping (pid bucket : ℕ) (left : List FutexKey) (total : ℕ)
  | swept (total : ℕ)
  deriving DecidableEq

/-- The thread makes no call. -/
def FutexPc.resting : FutexPc → Bool
  | .idle | .waited _ | .woke _ _ | .swept _ => true
  | _ => false

/-- The key for which a thread waits that has read the expected value. -/
def FutexPc.waitsFor : FutexPc → Option FutexKey
  | .checked key | .queued key => some key
  | _ => none

theorem FutexPc.waitsFor_eq_some {pc : FutexPc} {key : FutexKey} :
    pc.waitsFor = some key ↔ pc = .checked key ∨ pc = .queued key := by
  cases pc <;> simp [FutexPc.waitsFor]

/-- The memory, the futex table and all threads. -/
structure FutexState (τ : Type) where
  memory : ℕ → Option ℕ
  items : List FutexKey := []
  waitList : FutexKey → List τ := fun _ => []
  locked : ℕ → Option τ := fun _ => none
  pc : τ → FutexPc := fun _ => .idle
  before : τ → τ → Bool := fun _ _ => false

/-- What may happen next. -/
inductive FutexOp (τ : Type) where
  | store (w : τ) (addr value : ℕ)
  | wait (t : τ) (key : FutexKey) (expected : ℕ)
  | wake (w : τ) (key : FutexKey) (maxWakeCount : ℕ)
  | wakeProcess (w : τ) (pid : ℕ)
  | step (t : τ)

namespace FutexState

variable {τ : Type} [DecidableEq τ]

def goto (s : FutexState τ) (t : τ) (pc : FutexPc) : FutexState τ :=
  { s with pc := update s.pc t pc }

def lock (s : FutexState τ) (bucket : ℕ) (owner : Option τ) : FutexState τ :=
  { s with locked := update s.locked bucket owner }

def notified (s : FutexState τ) (key : FutexKey) (t : τ) (rest : List τ) : FutexState τ :=
  { s with
    waitList := update s.waitList key rest
    pc := update s.pc t (.waited .woken)
    before := fun w u => s.before w u && u ≠ t }

def notifyOne (s : FutexState τ) (key : FutexKey) : Bool × FutexState τ :=
  match s.waitList key with
  | [] => (false, s)
  | t :: rest => (true, s.notified key t rest)

def findOrInsert (s : FutexState τ) (key : FutexKey) : FutexState τ :=
  if key ∈ s.items then s else { s with items := key :: s.items }

def check (s : FutexState τ) (t : τ) (key : FutexKey) (expected : ℕ) : FutexState τ :=
  match s.memory key.addr with
  | none => s.goto t (.waited .fault)
  | some value =>
    if value ≠ expected then s.goto t (.waited .again)
    else (s.findOrInsert key).goto t (.checked key)

/-- The next step of a thread. -/
def advance (s : FutexState τ) (t : τ) : FutexPc → FutexState τ
  | .waitCall key expected => s.check t key expected
  | .checked key =>
    { s with waitList := update s.waitList key (s.waitList key ++ [t]) }.goto t
      (.queued key)
  | .wakeCall key maxWakeCount =>
    if key ∈ s.items then (s.lock key.bucket (some t)).goto t (.waking key maxWakeCount 0)
    else s.goto t (.woke key 0)
  | .waking key maxWakeCount count =>
    let (notEmpty, s) := s.notifyOne key
    if notEmpty = false ∨ count = maxWakeCount then (s.lock key.bucket none).goto t (.woke key count)
    else s.goto t (.waking key maxWakeCount (count + 1))
  | .sweepCall pid bucket total =>
    if bucket < futexBucketsNum then
      (s.lock bucket (some t)).goto t (.sweeping pid bucket
        (s.items.filter fun key => key.bucket = bucket ∧ key.pid = some pid) total)
    else s.goto t (.swept total)
  | .sweeping pid bucket [] total => (s.lock bucket none).goto t (.sweepCall pid (bucket + 1) total)
  | .sweeping pid bucket (key :: left) total =>
    let (notEmpty, s) := s.notifyOne key
    if notEmpty = false then s.goto t (.sweeping pid bucket left total)
    else s.goto t (.sweeping pid bucket (key :: left) (total + 1))
  | _ => s

/-- A store, and the threads that have read before it. -/
def store (s : FutexState τ) (w : τ) (addr value : ℕ) : FutexState τ :=
  { s with
    memory := update s.memory addr (some value)
    before := update s.before w fun t =>
      s.before w t || (s.pc t).waitsFor.any fun key => key.addr = addr }

def run (s : FutexState τ) : FutexOp τ → FutexState τ
  | .store w addr value => (s.goto w .idle).store w addr value
  | .wait t key expected => s.goto t (.waitCall key expected)
  | .wake w key maxWakeCount => s.goto w (.wakeCall key maxWakeCount)
  | .wakeProcess w pid => s.goto w (.sweepCall pid 0 0)
  | .step t => s.advance t (s.pc t)

/-- Bucket locks are taken when they are free, and a thread on a wait list stays there until it is
notified. -/
def Ready (s : FutexState τ) (t : τ) : Prop :=
  match s.pc t with
  | .waitCall key _ | .wakeCall key _ => s.locked key.bucket = none
  | .sweepCall _ bucket _ => bucket < futexBucketsNum → s.locked bucket = none
  | .checked _ | .waking _ _ _ | .sweeping _ _ _ _ => True
  | _ => False

def waiters (s : FutexState τ) (key : FutexKey) : Set τ := {t | (s.pc t).waitsFor = some key}

/-- When the operations are possible.  A call of `futex_wake` is meant for all threads that wait
when it gets the bucket lock. -/
def Enabled (s : FutexState τ) : FutexOp τ → Prop
  | .store w addr _ => (s.pc w).resting = true ∧ s.memory addr ≠ none
  | .wait t _ _ | .wake t _ _ | .wakeProcess t _ => (s.pc t).resting = true
  | .step t => s.Ready t ∧ ∀ key n, s.pc t = .wakeCall key n → (s.waiters key).encard ≤ n

/-- When `futex_wake` gets the bucket lock, all threads that wait for the key are on the wait
list. -/
def Settled (s : FutexState τ) : FutexOp τ → Prop
  | .step w => ∀ key n, s.pc w = .wakeCall key n → ∀ t, s.pc t ≠ .checked key
  | _ => True

end FutexState

def futexes (τ : Type) [DecidableEq τ] (cond : FutexState τ → FutexOp τ → Prop) :
    System (FutexState τ) (FutexOp τ) Empty where
  init s := ∃ memory, s = { memory := memory }
  allowed s op := s.Enabled op ∧ cond s op
  run s op := .ok (s.run op)

/-! ### What a wakeup needs -/

/-- The wait lists hold the queued threads, and a `futex_wake` is going to reach all that wait since
before its stores. -/
structure FutexInv {τ : Type} (s : FutexState τ) : Prop where
  nodup : ∀ key, (s.waitList key).Nodup
  queued : ∀ key t, t ∈ s.waitList key ↔ s.pc t = .queued key
  items : ∀ key t, (s.pc t).waitsFor = some key → key ∈ s.items
  before : ∀ w t, s.before w t = true → (s.pc t).waitsFor ≠ none
  waking : ∀ w key n count, s.pc w = .waking key n count → ∀ t, s.before w t = true →
    (s.pc t).waitsFor = some key → t ∈ (s.waitList key).take (n + 1 - count)
  woke : ∀ w key count, s.pc w = .woke key count → ∀ t, s.before w t = true →
    (s.pc t).waitsFor ≠ some key

attribute [local grind] FutexPc.waitsFor

attribute [local grind =] update_apply

namespace FutexInv

variable {τ : Type} {s : FutexState τ}

theorem init (memory : ℕ → Option ℕ) : FutexInv ({ memory := memory } : FutexState τ) := by
  constructor <;> simp [FutexPc.waitsFor]

theorem lock (hi : FutexInv s) (bucket : ℕ) (owner : Option τ) : FutexInv (s.lock bucket owner) :=
  { hi with }

theorem findOrInsert (hi : FutexInv s) (key : FutexKey) :
    FutexInv (s.findOrInsert key) ∧ key ∈ (s.findOrInsert key).items ∧
      (s.findOrInsert key).pc = s.pc := by
  unfold FutexState.findOrInsert
  split
  · rename_i hmem
    exact ⟨hi, hmem, rfl⟩
  · refine ⟨{ hi with items := fun k t hk => ?_ }, ?_, rfl⟩
    · exact List.mem_cons_of_mem key (hi.items k t hk)
    · exact List.mem_cons_self

theorem mem_take_append {l m : List τ} {k : ℕ} {t : τ} (h : t ∈ l.take k) : t ∈ (l ++ m).take k :=
  ((List.prefix_append l m).take k).subset h

theorem mem_take_of_cons {l : List τ} {k : ℕ} {t u : τ} (h : t ∈ (u :: l).take k) (hne : t ≠ u) :
    0 < k ∧ t ∈ l.take (k - 1) := by
  cases k with
  | zero => simp at h
  | succ k =>
    rw [List.take_succ_cons] at h
    exact ⟨k.succ_pos, List.mem_of_ne_of_mem hne h⟩

variable [DecidableEq τ]

variable {t : τ} {pc : FutexPc}

variable {key : FutexKey}

variable {w : τ}

section

variable (hi : FutexInv s)
include hi

theorem goto (ht : (s.pc t).waitsFor = none)
    (hpc : pc.waitsFor = none)
    (hwaking : ∀ key n count, pc = .waking key n count → ∀ u, s.before t u = true →
      (s.pc u).waitsFor = some key → u ∈ (s.waitList key).take (n + 1 - count))
    (hwoke : ∀ key count, pc = .woke key count → ∀ u, s.before t u = true →
      (s.pc u).waitsFor ≠ some key) : FutexInv (s.goto t pc) := by
  cases hi
  constructor <;> simp only [FutexState.goto] <;> grind

section

variable (ht : (s.pc t).waitsFor = none)
include ht

theorem goto_plain (hpc : pc.waitsFor = none) (hwaking : ∀ key n count, pc ≠ .waking key n count)
    (hwoke : ∀ key count, pc ≠ .woke key count) : FutexInv (s.goto t pc) :=
  hi.goto ht hpc (fun key n count h => absurd h (hwaking key n count))
    (fun key count h => absurd h (hwoke key count))

theorem goto_checked (hkey : key ∈ s.items) : FutexInv (s.goto t (.checked key)) := by
  have hb : ∀ w, s.before w t = false := fun w =>
    eq_false_of_ne_true fun hb => hi.before w t hb ht
  cases hi
  constructor <;> simp only [FutexState.goto] <;> grind

theorem check (key : FutexKey) (expected : ℕ) : FutexInv (s.check t key expected) := by
  unfold FutexState.check
  split
  · exact hi.goto_plain ht rfl nofun nofun
  · split
    · exact hi.goto_plain ht rfl nofun nofun
    · obtain ⟨hi', hmem, hpc⟩ := hi.findOrInsert key
      exact hi'.goto_checked (by rw [hpc, ht]) hmem

end

theorem enqueue (ht : s.pc t = .checked key) :
    FutexInv ({ s with
      waitList := update s.waitList key (s.waitList key ++ [t]) }.goto t (.queued key)) := by
  have hwaking := hi.waking
  cases hi
  constructor <;> simp only [FutexState.goto]
  case waking =>
    intro w k n count hw u hb hu
    have hwt : w ≠ t := by
      rintro rfl
      rw [update_self] at hw
      cases hw
    rw [update_of_ne hwt] at hw
    have hmem := hwaking w k n count hw u hb (by grind)
    by_cases hk : k = key
    · subst hk
      rw [update_self]
      exact mem_take_append hmem
    · rwa [update_of_ne hk]
  all_goals grind

theorem notified {rest : List τ}
    (hl : s.waitList key = t :: rest) : FutexInv (s.notified key t rest) := by
  have hwaking := hi.waking
  have hnodup : (t :: rest).Nodup := hl ▸ hi.nodup key
  have ht : s.pc t = .queued key := (hi.queued key t).mp (hl ▸ List.mem_cons_self)
  cases hi
  constructor <;> simp only [FutexState.notified]
  case waking =>
    intro w k n count hw u hb hu
    have hut : u ≠ t := by grind
    have hmem := hwaking w k n count (by grind) u (by grind)
      (by grind)
    by_cases hk : k = key
    · subst hk
      rw [hl] at hmem
      rw [update_self]
      exact List.take_subset_take_left rest (Nat.sub_le _ 1) (mem_take_of_cons hmem hut).2
    · rwa [update_of_ne hk]
  all_goals grind

theorem waking_step {n count : ℕ}
    (hw : s.pc w = .waking key n count) : FutexInv (s.advance w (.waking key n count)) := by
  cases hl : s.waitList key with
  | nil =>
    have hnotify : s.notifyOne key = (false, s) := by simp only [FutexState.notifyOne, hl]
    simp only [FutexState.advance, hnotify, true_or, if_true]
    refine (hi.lock _ _).goto (by simp only [FutexState.lock, hw, FutexPc.waitsFor]) rfl nofun ?_
    rintro _ _ ⟨⟩ u hb hu
    have hmem := hi.waking w key n count hw u hb hu
    rw [hl] at hmem
    simp at hmem
  | cons t rest =>
    have hnotify : s.notifyOne key = (true, s.notified key t rest) := by
      simp only [FutexState.notifyOne, hl]
    have hi' := hi.notified hl
    have hwt : w ≠ t := by
      rintro rfl
      have hq := (hi.queued key w).mp (hl ▸ List.mem_cons_self)
      rw [hw] at hq
      cases hq
    have hw' : ((s.notified key t rest).pc w).waitsFor = none := by
      simp only [FutexState.notified, update_of_ne hwt, hw, FutexPc.waitsFor]
    -- who is still waiting moves up by one place
    have hwindow : ∀ u, (s.notified key t rest).before w u = true →
        ((s.notified key t rest).pc u).waitsFor = some key →
        0 < n + 1 - count ∧ u ∈ rest.take (n + 1 - count - 1) := by
      intro u hb hu
      have hut : u ≠ t := by
        simp only [FutexState.notified, Bool.and_eq_true, decide_eq_true_eq] at hb
        exact hb.2
      simp only [FutexState.notified, update_of_ne hut] at hu
      simp only [FutexState.notified, Bool.and_eq_true] at hb
      have hmem := hi.waking w key n count hw u hb.1 hu
      rw [hl] at hmem
      exact mem_take_of_cons hmem hut
    simp only [FutexState.advance, hnotify, Bool.true_eq_false, false_or]
    split
    · rename_i hcount
      refine (hi'.lock _ _).goto hw' rfl nofun ?_
      rintro _ _ ⟨⟩ u hb hu
      have hmem := (hwindow u hb hu).2
      rw [show n + 1 - count - 1 = 0 by omega] at hmem
      simp at hmem
    · refine hi'.goto hw' rfl ?_ nofun
      rintro _ _ _ ⟨⟩ u hb hu
      obtain ⟨-, hmem⟩ := hwindow u hb hu
      rw [show n + 1 - (count + 1) = n + 1 - count - 1 by omega]
      simpa only [FutexState.notified, update_self] using hmem

theorem sweeping_step {pid bucket total : ℕ} {left : List FutexKey}
    (hw : s.pc w = .sweeping pid bucket left total) :
    FutexInv (s.advance w (.sweeping pid bucket left total)) := by
  have hwaits : (s.pc w).waitsFor = none := by rw [hw]; rfl
  cases left with
  | nil => exact (hi.lock _ _).goto_plain hwaits rfl nofun nofun
  | cons key left =>
    cases hl : s.waitList key with
    | nil =>
      simp only [FutexState.advance, FutexState.notifyOne, hl, if_true]
      exact hi.goto_plain hwaits rfl nofun nofun
    | cons t rest =>
      have hwt : w ≠ t := by
        rintro rfl
        have hq := (hi.queued key w).mp (hl ▸ List.mem_cons_self)
        rw [hw] at hq
        cases hq
      simp only [FutexState.advance, FutexState.notifyOne, hl, Bool.true_eq_false, if_false]
      refine (hi.notified hl).goto_plain ?_ rfl nofun nofun
      simp only [FutexState.notified, update_of_ne hwt, hwaits]

theorem wakeCall_step {n : ℕ} (hw : s.pc w = .wakeCall key n) (hn : (s.waiters key).encard ≤ n)
    (hsettled : ∀ t, s.pc t ≠ .checked key) : FutexInv (s.advance w (.wakeCall key n)) := by
  have hwaits : (s.pc w).waitsFor = none := by rw [hw]; rfl
  have hmem : ∀ u, (s.pc u).waitsFor = some key → u ∈ s.waitList key := by
    intro u hu
    rw [hi.queued]
    exact (FutexPc.waitsFor_eq_some.mp hu).resolve_left (hsettled u)
  rw [FutexState.advance]
  split
  · refine (hi.lock _ _).goto hwaits rfl ?_ nofun
    rintro _ _ _ ⟨⟩ u - hu
    have hlen : (s.waitList key).length ≤ n := by
      have hsub : {t | t ∈ s.waitList key} ⊆ s.waiters key := by
        intro t ht
        have hq := (hi.queued key t).mp ht
        exact FutexPc.waitsFor_eq_some.mpr (Or.inr hq)
      have hcard : ({t | t ∈ s.waitList key} : Set τ).encard = (s.waitList key).length := by
        rw [← List.coe_toFinset, Set.encard_coe_eq_coe_finsetCard,
          List.toFinset_card_of_nodup (hi.nodup key)]
      have := (Set.encard_le_encard hsub).trans hn
      rw [hcard] at this
      exact_mod_cast this
    have htake : (s.waitList key).take (n + 1 - 0) = s.waitList key :=
      List.take_of_length_le (by omega)
    exact htake.symm ▸ hmem u hu
  · rename_i hitem
    refine hi.goto hwaits rfl nofun ?_
    rintro _ _ ⟨⟩ u - hu
    exact hitem (hi.items key u hu)

theorem store (hw : s.pc w = .idle) (addr value : ℕ) :
    FutexInv (s.store w addr value) := by
  have hold : ∀ w', w' ≠ w → (s.store w addr value).before w' = s.before w' := fun w' hne =>
    update_of_ne hne _ _
  refine ⟨hi.nodup, hi.queued, hi.items, fun w' t hb => ?_, fun w' key n count hw' t hb => ?_,
    fun w' key count hw' t hb => ?_⟩
  · by_cases hne : w' = w
    · subst hne
      simp only [FutexState.store, update_self, Bool.or_eq_true] at hb
      rcases hb with hb | hb
      · exact hi.before w' t hb
      · intro (hnone : (s.pc t).waitsFor = none)
        rw [hnone] at hb
        cases hb
    · rw [hold w' hne] at hb
      exact hi.before w' t hb
  · have hne : w' ≠ w := by
      rintro rfl
      exact absurd (hw.symm.trans hw') nofun
    rw [hold w' hne] at hb
    exact hi.waking w' key n count hw' t hb
  · have hne : w' ≠ w := by
      rintro rfl
      exact absurd (hw.symm.trans hw') nofun
    rw [hold w' hne] at hb
    exact hi.woke w' key count hw' t hb

theorem call (ht : (s.pc t).resting = true)
    (hpc : pc.waitsFor = none) (hwaking : ∀ key n count, pc ≠ .waking key n count)
    (hwoke : ∀ key count, pc ≠ .woke key count) : FutexInv (s.goto t pc) := by
  refine hi.goto_plain ?_ hpc hwaking hwoke
  revert ht
  cases s.pc t <;> simp [FutexPc.resting, FutexPc.waitsFor]

theorem run {op : FutexOp τ} (he : s.Enabled op) (hc : s.Settled op) :
    FutexInv (s.run op) := by
  cases op with
  | store w addr value =>
    have hidle : FutexInv (s.goto w .idle) := hi.call he.1 rfl nofun nofun
    exact hidle.store (by simp [FutexState.goto]) addr value
  | wait t key expected => exact hi.call he rfl nofun nofun
  | wake w key n => exact hi.call he rfl nofun nofun
  | wakeProcess w pid => exact hi.call he rfl nofun nofun
  | step t =>
    obtain ⟨hr, hn⟩ := he
    rw [FutexState.run]
    cases ht : s.pc t with
    | waitCall key expected => exact hi.check (by rw [ht]; rfl) key expected
    | checked key => exact hi.enqueue ht
    | wakeCall key n => exact hi.wakeCall_step ht (hn key n ht) (hc key n ht)
    | waking key n count => exact hi.waking_step ht
    | sweepCall pid bucket total =>
      have hwaits : (s.pc t).waitsFor = none := by rw [ht]; rfl
      rw [FutexState.advance]
      split
      · exact (hi.lock _ _).goto_plain hwaits rfl nofun nofun
      · exact hi.goto_plain hwaits rfl nofun nofun
    | sweeping pid bucket left total => exact hi.sweeping_step ht
    | _ => simp only [FutexState.Ready, ht] at hr

end

end FutexInv

variable {τ : Type} [DecidableEq τ]

/-- If `futex_wake` finds all threads that wait for its key on the list, none that has read its
value before a store of the waking thread still waits when it returns. -/
theorem futexWake_of_reachable {s : FutexState τ}
    (hs : (futexes τ FutexState.Settled).Reachable s) {w : τ} {key : FutexKey} {count : ℕ}
    (hw : s.pc w = .woke key count) (t : τ) (ht : s.before w t = true) :
    s.pc t ≠ .checked key ∧ s.pc t ≠ .queued key := by
  have hi : FutexInv s := by
    refine Transition.Reachable.invariant ?_ (fun s t hi hst => ?_) hs
    · rintro s ⟨memory, rfl⟩
      exact FutexInv.init memory
    · obtain ⟨op, ⟨he, hc⟩, hrun⟩ := hst
      obtain rfl : s.run op = t := Except.ok.inj hrun
      exact hi.run he hc
  have hnot := hi.woke w key count hw t ht
  rw [ne_eq, FutexPc.waitsFor_eq_some, not_or] at hnot
  exact hnot

omit [DecidableEq τ] in
theorem encard_waiters_le_one {s : FutexState τ} {key : FutexKey} (t : τ)
    (h : ∀ u, u ≠ t → (s.pc u).waitsFor ≠ some key) : (s.waiters key).encard ≤ 1 :=
  Set.encard_le_one_iff.mpr fun a b ha hb =>
    (not_not.mp fun hne => h a hne ha).trans (not_not.mp fun hne => h b hne hb).symm

def zeroMemory : FutexState ℕ := { memory := fun _ => some 0 }

theorem futexWake_two_keys : ∃ s : FutexState ℕ,
    s.pc 0 = .woke ⟨16, none⟩ 1 ∧ s.pc 1 = .waited .woken ∧ s.before 0 2 = true ∧
      s.pc 2 ≠ .checked ⟨16, none⟩ ∧ s.pc 2 ≠ .queued ⟨16, none⟩ := by
  have h0 : (futexes ℕ FutexState.Settled).Reachable zeroMemory := .of_init ⟨_, rfl⟩
  have h9 := h0.after [.wait 1 ⟨16, none⟩ 0, .step 1, .step 1, .wait 2 ⟨16, some 7⟩ 0, .step 2,
    .step 2, .store 0 16 1, .wake 0 ⟨16, none⟩ 1, .step 0]
    ⟨⟨rfl, trivial⟩, ⟨⟨rfl, nofun⟩, nofun⟩, ⟨⟨trivial, nofun⟩, nofun⟩, ⟨rfl, trivial⟩,
     ⟨⟨rfl, nofun⟩, nofun⟩, ⟨⟨trivial, nofun⟩, nofun⟩, ⟨⟨rfl, nofun⟩, trivial⟩, ⟨rfl, trivial⟩,
     ⟨⟨rfl, ?_⟩, ?_⟩, trivial⟩
  · have h11 := h9.after [.step 0, .step 0]
      ⟨⟨⟨trivial, nofun⟩, nofun⟩, ⟨⟨trivial, nofun⟩, nofun⟩, trivial⟩
    exact ⟨_, rfl, rfl, rfl, futexWake_of_reachable (w := 0) h11 rfl 2 rfl⟩
  · rintro _ _ ⟨⟩
    refine encard_waiters_le_one 1 fun t ht => ?_
    match t with
    | 0 => nofun
    | 1 => exact absurd rfl ht
    | 2 => nofun
    | _ + 3 => nofun
  · rintro _ _ ⟨⟩ t
    match t with
    | 0 => nofun
    | 1 => nofun
    | 2 => nofun
    | _ + 3 => nofun

/-- A thread that has read the old value joins the list after the wake. -/
theorem futexWake_lost : ∃ s : FutexState ℕ,
    (futexes ℕ fun _ _ => True).Reachable s ∧ s.pc 0 = .woke ⟨16, none⟩ 0 ∧
      s.before 0 1 = true ∧ s.pc 1 = .queued ⟨16, none⟩ ∧ ∀ t, t ≠ 1 → (s.pc t).resting = true := by
  have h0 : (futexes ℕ fun _ _ => True).Reachable zeroMemory := .of_init ⟨_, rfl⟩
  have h5 := h0.after [.wait 1 ⟨16, none⟩ 0, .step 1, .store 0 16 1, .wake 0 ⟨16, none⟩ 1, .step 0]
    ⟨⟨rfl, trivial⟩, ⟨⟨rfl, nofun⟩, trivial⟩, ⟨⟨rfl, nofun⟩, trivial⟩, ⟨rfl, trivial⟩,
     ⟨⟨rfl, ?_⟩, trivial⟩, trivial⟩
  · have h7 := h5.after [.step 0, .step 1]
      ⟨⟨⟨trivial, nofun⟩, trivial⟩, ⟨⟨trivial, nofun⟩, trivial⟩, trivial⟩
    refine ⟨_, h7, rfl, rfl, rfl, fun t ht => ?_⟩
    match t with
    | 0 => rfl
    | 1 => exact absurd rfl ht
    | _ + 2 => rfl
  · rintro _ _ ⟨⟩
    refine encard_waiters_le_one 1 fun t ht => ?_
    match t with
    | 0 => nofun
    | 1 => exact absurd rfl ht
    | _ + 2 => nofun

/-! ### One call of `futex_wake` alone -/

namespace FutexState

/-- From `s` to `s'` the thread `w` has returned `count` from `futex_wake`, and the first `woken`
threads of the wait list have been notified. -/
structure WakeResult (s s' : FutexState τ) (w : τ) (key : FutexKey) (count woken : ℕ) : Prop where
  returned : s'.pc w = .woke key count
  list : s'.waitList = update s.waitList key ((s.waitList key).drop woken)
  threads : ∀ t ≠ w, s'.pc t = if t ∈ (s.waitList key).take woken then .waited .woken else s.pc t

theorem waking_run {w : τ} {key : FutexKey} {n : ℕ} (l : List τ) :
    ∀ (s : FutexState τ) (count : ℕ), s.waitList key = l → s.pc w = .waking key n count → w ∉ l →
      count ≤ n → ∃ k, WakeResult s ((fun s => s.run (.step w))^[k] s) w key
        (min n (count + l.length)) (n + 1 - count) := by
  induction l with
  | nil =>
    intro s count hl hw _ hle
    refine ⟨1, ?_, ?_, fun t ht => ?_⟩
    · simp [run, hw, advance, notifyOne, hl, goto, hle]
    · rw [hl, List.drop_nil, ← hl, update_eq_self]
      simp [run, hw, advance, notifyOne, hl, goto, lock]
    · simp [run, hw, advance, notifyOne, hl, goto, lock, ht]
  | cons t rest ih =>
    intro s count hl hw hmem hle
    rw [List.mem_cons, not_or] at hmem
    have hnotify : s.notifyOne key = (true, s.notified key t rest) := by simp only [notifyOne, hl]
    obtain rfl | hlt := Nat.eq_or_lt_of_le hle
    · -- the list is notified once more before the count is compared
      refine ⟨1, ?_, ?_, fun u hu => ?_⟩
      · simp [run, hw, advance, hnotify, goto]
      · simp [run, hw, advance, hnotify, goto, lock, notified, hl]
      · simp [run, hw, advance, hnotify, goto, lock, notified, hl, hu, update_apply]
    · have hstep : s.run (.step w) = (s.notified key t rest).goto w (.waking key n (count + 1)) := by
        simp [run, hw, advance, hnotify, hlt.ne]
      obtain ⟨k, hk⟩ := ih (s.run (.step w)) (count + 1) (by simp [hstep, goto, notified])
        (by simp [hstep, goto]) hmem.2 hlt
      have hsucc : n + 1 - count = (n + 1 - (count + 1)) + 1 := by omega
      refine ⟨k + 1, ?_, ?_, fun u hu => ?_⟩
      · rw [iterate_succ_apply, hk.returned, List.length_cons]
        congr 2
        omega
      · rw [iterate_succ_apply, hk.list, hstep, hsucc, hl]
        simp [goto, notified]
      · rw [iterate_succ_apply, hk.threads u hu, hstep, hsucc, hl, List.take_succ_cons]
        simp only [goto, notified, update_self, update_of_ne hu, update_apply, List.mem_cons]
        split_ifs <;> simp_all

end FutexState

/-- The threads 1 and 2 wait, and the thread 0 calls `futex_wake`. -/
def twoQueued (n : ℕ) : FutexState ℕ :=
  { zeroMemory with
    items := [⟨16, none⟩]
    waitList := update (fun _ => []) ⟨16, none⟩ [1, 2]
    pc := fun t =>
      if t = 0 then .wakeCall ⟨16, none⟩ n
      else if t ≤ 2 then .queued ⟨16, none⟩ else .idle }

end Dlutos
