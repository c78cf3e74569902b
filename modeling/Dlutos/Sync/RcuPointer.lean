import Dlutos.Foundation.Transition

/-!
# Pointers that are released after a grace period

`RCUPointer` of `rcu.rs` with `RCUReadGuard`, `rcu_sync` and `call_rcu`.  `load` reads the pointer
and then takes the read side of `GLOBAL_RCU_SEM` for the guard.  A writer swaps the pointer and
hands the old reference to `call_rcu`, which takes the write side, gives it back, and then releases
the reference.  Each of these is a step.  The lock is there by its meaning only.

A reader that has read the pointer but not entered the read side yet is protected by nothing.
-/

namespace Dlutos.Sync

open Transition Function

inductive RcuReader where
  | idle
  /-- in `load`, with the value of the pointer, about to enter the read side -/
  | loaded (r : ℕ)
  /-- with an `RCUReadGuard` -/
  | reading (r : ℕ)
  deriving DecidableEq

inductive RcuRef where
  | unborn
  | stored (p : ℕ)
  /-- swapped out and given to `call_rcu` -/
  | retired
  | syncing
  | synced
  | released
  deriving DecidableEq

structure RcuState where
  pointer : ℕ → Option ℕ := fun _ => none
  reader : ℕ → RcuReader := fun _ => .idle
  ref : ℕ → RcuRef := fun _ => .unborn

/-- What may happen next. -/
inductive RcuOp where
  | load (t p : ℕ)
  /-- `RCUReadGuard::lock` -/
  | readLock (t : ℕ)
  | readUnlock (t : ℕ)
  /-- `swap`, and `call_rcu` for the old reference. -/
  | swap (p : ℕ) (new : Option ℕ)
  | writeLock (r : ℕ)
  | writeUnlock (r : ℕ)
  /-- The function given to `call_rcu` drops the reference. -/
  | release (r : ℕ)

namespace RcuState

def load (s : RcuState) (t p : ℕ) : RcuState :=
  match s.pointer p with
  | none => s
  | some r => { s with reader := update s.reader t (.loaded r) }

def readLock (s : RcuState) (t : ℕ) : RcuState :=
  match s.reader t with
  | .loaded r => { s with reader := update s.reader t (.reading r) }
  | _ => s

def retire (s : RcuState) (p : ℕ) : RcuState :=
  match s.pointer p with
  | none => s
  | some old => { s with ref := update s.ref old .retired }

/-- The new reference goes into the pointer. -/
def store (s : RcuState) (p : ℕ) : Option ℕ → RcuState
  | none => { s with pointer := update s.pointer p none }
  | some r => { s with pointer := update s.pointer p (some r)
                       ref := update s.ref r (.stored p) }

def run (s : RcuState) : RcuOp → RcuState
  | .load t p => s.load t p
  | .readLock t => s.readLock t
  | .readUnlock t => { s with reader := update s.reader t .idle }
  | .swap p new => (s.retire p).store p new
  | .writeLock r => { s with ref := update s.ref r .syncing }
  | .writeUnlock r => { s with ref := update s.ref r .synced }
  | .release r => { s with ref := update s.ref r .released }

def Enabled (s : RcuState) : RcuOp → Prop
  | .load t _ => s.reader t = .idle
  | .readLock t => (∃ r, s.reader t = .loaded r) ∧ ∀ r, s.ref r ≠ .syncing
  | .readUnlock t => ∃ r, s.reader t = .reading r
  | .swap _ new => ∀ r, new = some r → s.ref r = .unborn
  | .writeLock r => s.ref r = .retired ∧ (∀ t r', s.reader t ≠ .reading r') ∧
      ∀ r', s.ref r' ≠ .syncing
  | .writeUnlock r => s.ref r = .syncing
  | .release r => s.ref r = .synced

/-- The grace period of a reference starts when no reader has it in hand without a guard. -/
def Entered (s : RcuState) : RcuOp → Prop
  | .writeLock r => ∀ t, s.reader t ≠ .loaded r
  | _ => True

structure RcuInv (s : RcuState) : Prop where
  stored : ∀ p r, s.pointer p = some r ↔ s.ref r = .stored p
  /-- What readers have in hand is in its pointer, or its grace period has not started. -/
  loaded : ∀ t r, s.reader t = .loaded r ∨ s.reader t = .reading r →
    (∃ p, s.ref r = .stored p) ∨ s.ref r = .retired

attribute [local grind =] RcuInv.stored update_apply

attribute [local grind →] RcuInv.loaded

variable {s : RcuState}

theorem RcuInv.run (hi : s.RcuInv) (op : RcuOp) (he : s.Enabled op) (hc : s.Entered op) :
    (s.run op).RcuInv := by
  cases op with
  | load t p =>
    simp only [RcuState.run, RcuState.load]
    split
    · exact hi
    · constructor <;> grind
  | readLock t =>
    obtain ⟨⟨r, ht⟩, -⟩ := he
    simp only [RcuState.run, RcuState.readLock, ht]
    constructor <;> grind
  | readUnlock t => constructor <;> simp only [RcuState.run] <;> grind
  | swap p new =>
    have hnew : ∀ r, new = some r → s.ref r = .unborn := he
    simp only [RcuState.run, RcuState.retire]
    cases hold : s.pointer p <;> cases new <;> constructor <;> simp only [store] <;> grind
  | writeLock r =>
    obtain ⟨hr, hreading, -⟩ := he
    have hloaded : ∀ t, s.reader t ≠ .loaded r := hc
    constructor <;> simp only [RcuState.run] <;> grind
  | writeUnlock r =>
    have hr : s.ref r = .syncing := he
    constructor <;> simp only [RcuState.run] <;> grind
  | release r =>
    have hr : s.ref r = .synced := he
    constructor <;> simp only [RcuState.run] <;> grind

end RcuState

def rcuPointers (cond : RcuState → RcuOp → Prop) : System RcuState RcuOp Empty where
  init s := s = {}
  allowed s op := s.Enabled op ∧ cond s op
  run s op := .ok (s.run op)

open RcuState

/-- While all steps meet the condition, what a guard refers to has not been released. -/
theorem guardProtects_of_reachable {s : RcuState} (hs : (rcuPointers Entered).Reachable s)
    {t r : ℕ} (ht : s.reader t = .reading r) : s.ref r ≠ .released := by
  have hi : s.RcuInv := by
    refine Transition.Reachable.invariant ?_ (fun s t hi hst => ?_) hs
    · rintro _ rfl
      exact ⟨fun _ _ => ⟨nofun, nofun⟩, nofun⟩
    · obtain ⟨op, ⟨he, hc⟩, hrun⟩ := hst
      obtain rfl : s.run op = t := Except.ok.inj hrun
      exact hi.run op he hc
  intro hr
  rcases hi.loaded t r (Or.inr ht) with ⟨p, h⟩ | h
  · rw [hr] at h
    cases h
  · rw [hr] at h
    cases h

theorem guardProtects_swapped : ∃ s : RcuState, s.reader 0 = .reading 0 ∧ s.pointer 0 = some 1 ∧
    s.ref 0 ≠ .released := by
  have h0 : (rcuPointers Entered).Reachable {} := .of_init rfl
  have h4 := h0.after [.swap 0 (some 0), .load 0 0, .readLock 0, .swap 0 (some 1)]
    ⟨⟨fun _ h => by cases h; rfl, trivial⟩, ⟨rfl, trivial⟩,
     ⟨⟨⟨0, rfl⟩, fun r => by cases r <;> nofun⟩, trivial⟩, ⟨fun _ h => by cases h; rfl, trivial⟩,
     trivial⟩
  exact ⟨_, rfl, rfl, guardProtects_of_reachable (t := 0) h4 rfl⟩

/-- The grace period passes between the two steps of `load`: the guard is for a released reference.
-/
theorem guardProtects_violated : ∃ s : RcuState, (rcuPointers fun _ _ => True).Reachable s ∧
    s.reader 0 = .reading 0 ∧ s.ref 0 = .released := by
  have h0 : (rcuPointers fun _ _ => True).Reachable {} := .of_init rfl
  have h3 := h0.after [.swap 0 (some 0), .load 0 0, .swap 0 (some 1)]
    ⟨⟨fun _ h => by cases h; rfl, trivial⟩, ⟨rfl, trivial⟩, ⟨fun _ h => by cases h; rfl, trivial⟩,
     trivial⟩
  have h4 := h3.next (.writeLock 0) ⟨⟨rfl, fun t r => by cases t <;> nofun, fun r => by
    match r with
    | 0 => nofun
    | 1 => nofun
    | _ + 2 => nofun⟩, trivial⟩
  have h6 := h4.after [.writeUnlock 0, .release 0] ⟨⟨rfl, trivial⟩, ⟨rfl, trivial⟩, trivial⟩
  have h7 := h6.next (.readLock 0) ⟨⟨⟨0, rfl⟩, fun r => by
    match r with
    | 0 => nofun
    | 1 => nofun
    | _ + 2 => nofun⟩, trivial⟩
  exact ⟨_, h7, rfl, rfl⟩

end Dlutos.Sync
