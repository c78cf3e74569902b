import Dlutos.Foundation.LockWakeups

/-!
# `Mutex` and `RwLock`

`dlutos_sync_rt/src/mutex.rs` and `dlutos_sync_rt/src/rwlock.rs` as instances of `ParkingLock`; the
definitions here are the accesses of the words.  A task is one call with the guard that it returns,
so that a program that holds several guards is several tasks.  The counter of an `RwLock` is an
integer without bound: `isize` would overflow with `2 ^ 63` guards.
-/

namespace Dlutos

open ParkingLock RefCount Transition ExceptLoop Function

inductive LockPanic where
  | unlockedMutex
  /-- "erroneous counter value" in `write_unlock` or `read_unlock`. -/
  | erroneousCounter (val : ℤ)

/-! ### `Mutex` -/

/-- `MutexGuard::drop`: the new value of `locked`, and whether `notify_one` is called. -/
def mutexUnlock (locked : Bool) : Except LockPanic (Bool × Bool) := do
  assertOr (locked = true) .unlockedMutex
  pure (false, true)

/-- `Mutex`: `try_lock` and `try_lock_weak` exchange `locked`. -/
def mutex : Lock Unit Bool LockPanic where
  free := false
  attempt _ := .cas false true
  follow _ _ := some (.cas false true)
  yieldsTo _ := none
  release _ := mutexUnlock
  notify := [((), false)]

/-- The guards that the word of a mutex stands for. -/
def mutexHeld (locked : Bool) (_ : Unit) : ℕ := if locked then 1 else 0

theorem mutex_lawful : Lawful mutex (fun _ => True) mutexHeld where
  valid_free := trivial
  held_free _ := rfl
  cas k e n hmakes _ := by
    obtain ⟨rfl, rfl⟩ : e = false ∧ n = true := by
      rcases hmakes with h | ⟨_, h⟩
      · cases h
        exact ⟨rfl, rfl⟩
      · cases h
        exact ⟨rfl, rfl⟩
    exact ⟨trivial, funext fun _ => rfl⟩
  release k w _ hpos := by
    cases w with
    | false => exact absurd hpos (Nat.lt_irrefl 0)
    | true => exact ⟨false, true, rfl, trivial, funext fun _ => rfl⟩

theorem mutex_waking : Waking mutex where
  attempt _ := Or.inr ⟨true, rfl⟩
  follow _ := ⟨true, rfl⟩
  release k w notifies h := by
    cases w with
    | false => cases h
    | true =>
      cases h
      rfl
  notify _ := List.mem_singleton.mpr rfl

/-! ### `RwLock` -/

inductive Kind where
  | read
  | write
  deriving DecidableEq

def writeUnlock (counter : ℤ) : Except LockPanic (ℤ × Bool) := do
  assertOr (counter = -1) (.erroneousCounter counter)
  pure (0, true)

def readUnlock (counter : ℤ) : Except LockPanic (ℤ × Bool) :=
  if 2 ≤ counter then .ok (counter - 1, false)
  else if counter = 1 then .ok (counter - 1, true)
  else .error (.erroneousCounter counter)

def tryWrite : Attempt ℤ := .cas 0 (-1)

/-- The exchange that `try_read` and `try_read_weak` make after they have loaded the counter. -/
def tryRead (counter : ℤ) : Option (Attempt ℤ) :=
  if 0 ≤ counter then some (.cas counter (counter + 1)) else none

/-- `RwLock`; `try_read` gives up at once if a writer waits. -/
def rwLock : Lock Kind ℤ LockPanic where
  free := 0
  attempt
    | .read => .load
    | .write => tryWrite
  follow
    | .read, counter => tryRead counter
    | .write, _ => some tryWrite
  yieldsTo
    | .read => some .write
    | .write => none
  release
    | .read, counter => readUnlock counter
    | .write, counter => writeUnlock counter
  notify := [(.write, false), (.read, true)]

def rwHeld (counter : ℤ) : Kind → ℕ
  | .read => counter.toNat
  | .write => if counter = -1 then 1 else 0

theorem rwHeld_read (counter : ℤ) : rwHeld counter .read = counter.toNat := rfl

theorem rwHeld_write (counter : ℤ) : rwHeld counter .write = if counter = -1 then 1 else 0 := rfl

theorem rwLock_makes_read {e n : ℤ} (h : rwLock.Makes .read (.cas e n)) : 0 ≤ e ∧ n = e + 1 := by
  rcases h with h | ⟨w, h⟩
  · cases h
  · unfold rwLock tryRead at h
    dsimp only at h
    split at h
    · rename_i hw
      cases h
      exact ⟨hw, rfl⟩
    · cases h

theorem rwLock_makes_write {e n : ℤ} (h : rwLock.Makes .write (.cas e n)) : e = 0 ∧ n = -1 := by
  rcases h with h | ⟨w, h⟩
  · cases h
    exact ⟨rfl, rfl⟩
  · cases h
    exact ⟨rfl, rfl⟩

theorem rwLock_lawful : Lawful rwLock (fun counter => -1 ≤ counter) rwHeld where
  valid_free := by decide
  held_free k := by cases k <;> rfl
  cas k e n hmakes hvalid := by
    cases k with
    | read =>
      obtain ⟨he, rfl⟩ := rwLock_makes_read hmakes
      refine ⟨by omega, funext fun k => ?_⟩
      cases k with
      | read =>
        rw [update_self, rwHeld_read, rwHeld_read]
        omega
      | write =>
        rw [update_of_ne (by decide), rwHeld_write, rwHeld_write, if_neg (by omega),
          if_neg (by omega)]
    | write =>
      obtain ⟨rfl, rfl⟩ := rwLock_makes_write hmakes
      refine ⟨le_rfl, funext fun k => ?_⟩
      cases k <;> rfl
  release k w hvalid hpos := by
    cases k with
    | read =>
      have hw : 1 ≤ w := by
        rw [rwHeld_read] at hpos
        omega
      have hheld : rwHeld (w - 1) = update (rwHeld w) .read (rwHeld w .read - 1) := by
        funext k
        cases k with
        | read =>
          rw [update_self, rwHeld_read, rwHeld_read]
          omega
        | write =>
          rw [update_of_ne (by decide), rwHeld_write, rwHeld_write, if_neg (by omega),
            if_neg (by omega)]
      change ∃ w' notifies, readUnlock w = .ok (w', notifies) ∧ _
      unfold readUnlock
      by_cases htwo : 2 ≤ w
      · exact ⟨w - 1, false, if_pos htwo, by omega, hheld⟩
      · refine ⟨w - 1, true, ?_, by omega, hheld⟩
        rw [if_neg htwo, if_pos (by omega)]
    | write =>
      have hw : w = -1 := by
        by_contra hne
        rw [rwHeld_write, if_neg hne] at hpos
        exact absurd hpos (Nat.lt_irrefl 0)
      subst hw
      refine ⟨0, true, rfl, by decide, funext fun k => ?_⟩
      cases k <;> rfl

theorem rwLock_waking : Waking rwLock where
  attempt
    | .read => Or.inl rfl
    | .write => Or.inr ⟨-1, rfl⟩
  follow
    | .read => ⟨1, rfl⟩
    | .write => ⟨-1, rfl⟩
  release k w notifies h := by
    cases k with
    | read =>
      change readUnlock w = .ok (0, notifies) at h
      unfold readUnlock at h
      split at h
      · -- at least one reader is left
        have hzero := congrArg Prod.fst (Except.ok.inj h)
        dsimp only at hzero
        omega
      · split at h
        · exact (congrArg Prod.snd (Except.ok.inj h)).symm
        · cases h
    | write =>
      obtain ⟨_, -, hrest⟩ := bind_eq_ok.mp (show writeUnlock w = .ok (0, notifies) from h)
      exact (congrArg Prod.snd (Except.ok.inj hrest)).symm
  notify k := by cases k <;> decide

/-! ### Guards -/

variable {κ ω τ : Type}

noncomputable def guards (s : State κ ω τ) (k : κ) : ℕ∞ :=
  {t | (s.pc t).guard = some k}.encard

/-- The counter is `-1` with one write guard only, and `k` with `k` read guards only. -/
structure RwExclusion (s : State Kind ℤ τ) : Prop where
  writing : s.word = -1 ↔ guards s .write = 1 ∧ guards s .read = 0
  reading : ∀ k : ℕ, s.word = k ↔ guards s .read = k ∧ guards s .write = 0
  exclusive : ∀ t u k, (s.pc t).guard = some .write → (s.pc u).guard = some k → t = u

/-- A mutex is locked exactly when there is one guard; there are never two. -/
structure MutexExclusion (s : State Unit Bool τ) : Prop where
  locked : s.word = true ↔ guards s () = 1
  unlocked : s.word = false ↔ guards s () = 0
  exclusive : ∀ t u, (s.pc t).guard = some () → (s.pc u).guard = some () → t = u

theorem guards_eq {held : ω → κ → ℕ} {s : State κ ω τ}
    (h : Exact (fun t => (s.pc t).guard) (fun _ => 0) (held s.word)) (k : κ) :
    guards s k = held s.word k := by
  have hk := h k
  rwa [Nat.cast_zero, add_zero] at hk

theorem eq_of_guards_le_one {s : State κ ω τ} {k : κ} (h : guards s k ≤ 1) {t u : τ}
    (ht : (s.pc t).guard = some k) (hu : (s.pc u).guard = some k) : t = u :=
  Set.encard_le_one_iff.mp h t u ht hu

theorem rwExclusion_of_safe {s : State Kind ℤ τ}
    (h : Safe rwLock (fun counter => -1 ≤ counter) rwHeld s) : RwExclusion s := by
  have hread : guards s .read = s.word.toNat := guards_eq h.exact .read
  have hwrite : guards s .write = (if s.word = -1 then 1 else 0 : ℕ) := guards_eq h.exact .write
  have hvalid := h.valid
  refine ⟨?_, fun k => ?_, fun t u k ht hu => ?_⟩
  · rw [hread, hwrite]
    by_cases hword : s.word = -1
    · simp [hword]
    · simp [hword]
  · rw [hread, hwrite, Nat.cast_inj]
    by_cases hword : s.word = -1
    · simp only [hword, if_true, Nat.cast_one, one_ne_zero, and_false, iff_false]
      omega
    · simp only [hword, if_false, Nat.cast_zero, and_true]
      omega
  · have hpos : 0 < rwHeld s.word .write := h.exact.pos ht
    have hword : s.word = -1 := by
      by_contra hne
      rw [rwHeld_write, if_neg hne] at hpos
      exact absurd hpos (Nat.lt_irrefl 0)
    cases k with
    | read =>
      have hpos : 0 < rwHeld s.word .read := h.exact.pos hu
      rw [hword] at hpos
      exact absurd hpos (by decide)
    | write =>
      refine eq_of_guards_le_one ?_ ht hu
      rw [hwrite, if_pos hword]
      exact le_rfl

theorem mutexExclusion_of_safe {s : State Unit Bool τ}
    (h : Safe mutex (fun _ => True) mutexHeld s) : MutexExclusion s := by
  have hguards : guards s () = mutexHeld s.word () := guards_eq h.exact ()
  refine ⟨?_, ?_, fun t u ht hu => eq_of_guards_le_one ?_ ht hu⟩
  · rw [hguards]
    cases s.word <;> simp [mutexHeld]
  · rw [hguards]
    cases s.word <;> simp [mutexHeld]
  · rw [hguards]
    cases s.word <;> simp [mutexHeld]

variable [DecidableEq τ]

/-- In every run the words of an `RwLock` and of a `Mutex` are right about their guards, and no
release finds an erroneous value. -/
theorem exclusion_of_reachable {s : State Kind ℤ τ} {m : State Unit Bool τ}
    (hs : (rwLock.system fun _ => True).Reachable s)
    (hm : (mutex.system fun _ => True).Reachable m) :
    (RwExclusion s ∧ ∀ op e, rwLock.run s op ≠ .error e) ∧
      MutexExclusion m ∧ ∀ op e, mutex.run m op ≠ .error e := by
  obtain ⟨hsafe, hpanic⟩ := rwLock_lawful.safe_of_reachable hs
  obtain ⟨hsafe', hpanic'⟩ := mutex_lawful.safe_of_reachable hm
  exact ⟨⟨rwExclusion_of_safe hsafe, hpanic⟩, mutexExclusion_of_safe hsafe', hpanic'⟩

theorem exclusion_two_readers : ∃ (s : State Kind ℤ ℕ) (m : State Unit Bool ℕ),
    s.word = 2 ∧ (s.pc 0).guard = some .read ∧ (s.pc 1).guard = some .read ∧ m.word = true ∧
      RwExclusion s ∧ MutexExclusion m := by
  have h0 : (rwLock.system fun _ : Op Kind ℕ => True).Reachable { word := 0 } := .of_init rfl
  have h8 := h0.after [.call 0 .read true, .call 1 .read false, .run 0, .run 1, .run 0, .run 0,
    .run 1, .run 1]
    ⟨⟨rfl, trivial⟩, ⟨rfl, trivial⟩, ⟨⟨nofun, nofun⟩, trivial⟩, ⟨⟨nofun, nofun⟩, trivial⟩,
     ⟨⟨nofun, nofun⟩, trivial⟩, ⟨⟨nofun, nofun⟩, trivial⟩, ⟨⟨nofun, nofun⟩, trivial⟩,
     ⟨⟨nofun, nofun⟩, trivial⟩, trivial⟩
  have m0 : (mutex.system fun _ : Op Unit ℕ => True).Reachable { word := false } := .of_init rfl
  have m2 := m0.after [.call 0 () true, .run 0] ⟨⟨rfl, trivial⟩, ⟨⟨nofun, nofun⟩, trivial⟩, trivial⟩
  obtain ⟨⟨hs, -⟩, hm, -⟩ := exclusion_of_reachable h8 m2
  exact ⟨_, _, rfl, rfl, rfl, rfl, hs, hm⟩

/-! ### Wakeups -/

/-- Futures are never dropped before they complete. -/
def Completes (op : Op κ τ) : Prop := ∀ t, op ≠ .cancel t

/-- Moreover the weak exchanges fail only if they find another value. -/
def Reliable (op : Op κ τ) : Prop := (∀ t, op ≠ .spurious t) ∧ Completes op

/-- If weak exchanges fail only for a reason, no lock is free while tasks are parked that nobody is
going to notify. -/
theorem noLostWakeup_of_reachable {s : State Kind ℤ τ} {m : State Unit Bool τ}
    (hs : (rwLock.system Reliable).Reachable s) (hm : (mutex.system Reliable).Reachable m) :
    ¬ Lost rwLock s ∧ ¬ Lost mutex m :=
  ⟨rwLock_waking.noLost_of_reachable rwLock_lawful (fun _ hop => hop) hs,
    mutex_waking.noLost_of_reachable mutex_lawful (fun _ hop => hop) hm⟩

/-- A writer that waits for a reader, and a task that waits for the owner of a mutex. -/
theorem noLostWakeup_parked : ∃ (s : State Kind ℤ ℕ) (m : State Unit Bool ℕ),
    s.pc 1 = .parked .write ∧ s.pc 0 = .notifying [(.write, false), (.read, true)] ∧
      m.pc 1 = .parked () ∧ ¬ Lost rwLock s ∧ ¬ Lost mutex m := by
  have h0 : (rwLock.system (Reliable : Op Kind ℕ → Prop)).Reachable { word := 0 } := .of_init rfl
  have h10 := h0.after [.call 0 .read true, .run 0, .run 0, .run 0, .call 1 .write true, .run 1,
    .run 1, .run 1, .run 1, .run 0]
    ⟨⟨rfl, nofun, nofun⟩, ⟨⟨nofun, nofun⟩, nofun, nofun⟩, ⟨⟨nofun, nofun⟩, nofun, nofun⟩,
     ⟨⟨nofun, nofun⟩, nofun, nofun⟩, ⟨rfl, nofun, nofun⟩, ⟨⟨nofun, nofun⟩, nofun, nofun⟩,
     ⟨⟨nofun, nofun⟩, nofun, nofun⟩, ⟨⟨nofun, nofun⟩, nofun, nofun⟩, ⟨⟨nofun, nofun⟩, nofun, nofun⟩,
     ⟨⟨nofun, nofun⟩, nofun, nofun⟩, trivial⟩
  have m0 : (mutex.system (Reliable : Op Unit ℕ → Prop)).Reachable { word := false } := .of_init rfl
  have m7 := m0.after [.call 0 () true, .run 0, .call 1 () true, .run 1, .run 1, .run 1, .run 1]
    ⟨⟨rfl, nofun, nofun⟩, ⟨⟨nofun, nofun⟩, nofun, nofun⟩, ⟨rfl, nofun, nofun⟩,
     ⟨⟨nofun, nofun⟩, nofun, nofun⟩, ⟨⟨nofun, nofun⟩, nofun, nofun⟩, ⟨⟨nofun, nofun⟩, nofun, nofun⟩,
     ⟨⟨nofun, nofun⟩, nofun, nofun⟩, trivial⟩
  obtain ⟨hs, hm⟩ := noLostWakeup_of_reachable h10 m7
  exact ⟨_, _, rfl, rfl, rfl, hs, hm⟩

/-- A weak exchange fails for no reason after the owner has gone: the task left is parked for ever.
-/
theorem wakeup_lost : ∃ m : State Unit Bool ℕ,
    (mutex.system Completes).Reachable m ∧ Lost mutex m := by
  have m0 : (mutex.system (Completes : Op Unit ℕ → Prop)).Reachable { word := false } :=
    .of_init rfl
  have m4 := m0.after [.call 0 () true, .run 0, .call 1 () true, .run 1]
    ⟨⟨rfl, nofun⟩, ⟨⟨nofun, nofun⟩, nofun⟩, ⟨rfl, nofun⟩, ⟨⟨nofun, nofun⟩, nofun⟩, trivial⟩
  -- the owner leaves before the other task is on the wait list
  have m9 := m4.after [.run 0, .run 0, .run 1, .spurious 1, .run 1]
    ⟨⟨⟨nofun, nofun⟩, nofun⟩, ⟨⟨nofun, nofun⟩, nofun⟩, ⟨⟨nofun, nofun⟩, nofun⟩,
     ⟨⟨_, _, _, rfl⟩, nofun⟩, ⟨⟨nofun, nofun⟩, nofun⟩, trivial⟩
  refine ⟨_, m9, rfl, 1, (), rfl, rfl, fun y hy => Or.inl ?_⟩
  match y with
  | 0 => rfl
  | 1 => exact absurd rfl hy
  | _ + 2 => rfl

end Dlutos
