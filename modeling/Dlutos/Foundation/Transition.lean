import Dlutos.Foundation.ExceptLoop
import Mathlib.Logic.Relation

/-!
# Reachable states of a transition relation

`Reachable init step s` says that some finite run leads from an initial state to `s`;
`Reachable.invariant` is the rule behind every statement about whole runs.  A `System` has
operations that the environment may call when their precondition `allowed` holds, and that return a
new state or an error.
-/

namespace Transition

open ExceptLoop

variable {σ : Type*} {init : σ → Prop} {step : σ → σ → Prop}

/-- The state `s` ends a finite run of `step` from an initial state. -/
def Reachable (init : σ → Prop) (step : σ → σ → Prop) (s : σ) : Prop :=
  ∃ s₀, init s₀ ∧ Relation.ReflTransGen step s₀ s

theorem Reachable.of_init {s : σ} (hs : init s) : Reachable init step s :=
  ⟨s, hs, Relation.ReflTransGen.refl⟩

theorem Reachable.tail {s t : σ} (hs : Reachable init step s) (hst : step s t) :
    Reachable init step t := by
  obtain ⟨s0, h0, hrun⟩ := hs
  exact ⟨s0, h0, hrun.tail hst⟩

theorem Reachable.invariant {P : σ → Prop} (h0 : ∀ s, init s → P s)
    (hstep : ∀ s t, P s → step s t → P t) {s : σ} (hs : Reachable init step s) : P s := by
  obtain ⟨s0, hinit, hrun⟩ := hs
  induction hrun with
  | refl => exact h0 s0 hinit
  | tail _ hst ih => exact hstep _ _ ih hst

/-- A system with operations `ι` on states `σ` that may fail with an error of type `ε`. -/
structure System (σ ι ε : Type*) where
  init : σ → Prop
  allowed : σ → ι → Prop
  run : σ → ι → Except ε σ

namespace System

variable {ι ε : Type*} (M : System σ ι ε)

def Step (s t : σ) : Prop := ∃ i, M.allowed s i ∧ M.run s i = .ok t

/-- The states that sequences of allowed calls lead to. -/
def Reachable (s : σ) : Prop := Transition.Reachable M.init M.Step s

/-- The state after a call, which is the old one if the call fails. -/
def next (s : σ) (i : ι) : σ :=
  match M.run s i with
  | .ok t => t
  | .error _ => s

variable {M}

theorem Reachable.of_init {s : σ} (hs : M.init s) : M.Reachable s := Transition.Reachable.of_init hs

theorem Reachable.next {s : σ} (hs : M.Reachable s) (i : ι) (hi : M.allowed s i) :
    M.Reachable (M.next s i) := by
  unfold System.next
  cases hrun : M.run s i with
  | ok t => exact Transition.Reachable.tail hs ⟨i, hi, hrun⟩
  | error _ => exact hs

/-- Each call of the list is allowed in the state that the calls before it lead to. -/
def Admits (M : System σ ι ε) : σ → List ι → Prop
  | _, [] => True
  | s, i :: calls => M.allowed s i ∧ Admits M (M.next s i) calls

theorem Reachable.after {s : σ} (hs : M.Reachable s) (calls : List ι) (h : M.Admits s calls) :
    M.Reachable (calls.foldl M.next s) := by
  induction calls generalizing s with
  | nil => exact hs
  | cons i calls ih => exact ih (hs.next i h.1) h.2

theorem Reachable.ensures {P : σ → Prop} {E : ε → Prop} (h0 : ∀ s, M.init s → P s)
    (hstep : ∀ s i, P s → M.allowed s i → Ensures E P (M.run s i)) {s : σ} (hs : M.Reachable s) :
    P s ∧ ∀ i e, M.allowed s i → M.run s i = .error e → E e := by
  have hP : P s := by
    refine hs.invariant h0 fun s t hP hst => ?_
    obtain ⟨i, hi, ht⟩ := hst
    exact (hstep s i hP hi).of_ok ht
  exact ⟨hP, fun i e hi hrun => (hstep s i hP hi).of_error hrun⟩

theorem Reachable.safe {P : σ → Prop} (h0 : ∀ s, M.init s → P s)
    (hstep : ∀ s i, P s → M.allowed s i → ∃ t, M.run s i = .ok t ∧ P t) {s : σ}
    (hs : M.Reachable s) : P s ∧ ∀ i, M.allowed s i → ∃ t, M.run s i = .ok t := by
  have hP : P s := (hs.ensures h0 fun s i hP hi => ensures_false_iff.2 (hstep s i hP hi)).1
  refine ⟨hP, fun i hi => ?_⟩
  obtain ⟨t, ht, -⟩ := hstep s i hP hi
  exact ⟨t, ht⟩

end System

end Transition
