import Dlutos.Foundation.Transition
import Mathlib.Logic.Function.Basic

/-!
# Lazy initialisation

`LazyLock::get`, called by any number of CPUs.  Every atomic operation, the two swaps of the value,
the call of the initialiser and the last look at the value are steps of their own.
-/

namespace Dlutos

open Function Transition ExceptLoop

inductive LazyState (α : Type) where
  | uninitialized
  | initializing
  | initialized (value : α)

/-- Where a CPU stands in `get`. -/
inductive LazyPc (α : Type) where
  | idle
  | load
  | compareExchange
  | swapOut
  /-- The CPU swapped `state` out and is about to call the initialiser in it. -/
  | init (state : LazyState α)
  | swapIn (value : α)
  | store
  | spin
  | getInitializedValue
  | returned (value : α)

inductive LazyPanic where
  | unreachable
  | expect

structure LazyLock (ρ α : Type) where
  value : LazyState α := .uninitialized
  state : UInt8 := 0
  pc : ρ → LazyPc α := fun _ => .idle
  /-- How often the initialiser was called. -/
  calls : ℕ := 0

inductive LazyOp (ρ α : Type) where
  | get (c : ρ)
  /-- The CPU `c` goes on; the initialiser returns `value` if this step calls it. -/
  | step (c : ρ) (value : α)

namespace LazyLock

def UNINITIALIZED : UInt8 := 0
def INITIALIZING : UInt8 := 1
def INITIALIZED : UInt8 := 2

variable {ρ α : Type} [DecidableEq ρ]

def goto (s : LazyLock ρ α) (c : ρ) (pc : LazyPc α) : LazyLock ρ α :=
  { s with pc := update s.pc c pc }

/-- Go on in `get` after the state byte was seen to be other than `UNINITIALIZED`. -/
def seen (s : LazyLock ρ α) (c : ρ) : Except LazyPanic (LazyLock ρ α) :=
  if s.state = INITIALIZING then .ok (s.goto c .spin)
  else if s.state = INITIALIZED then .ok (s.goto c .getInitializedValue)
  else .error .unreachable

def step (s : LazyLock ρ α) (c : ρ) (value : α) : LazyPc α → Except LazyPanic (LazyLock ρ α)
  | .idle | .returned _ => .ok s
  | .load => if s.state = UNINITIALIZED then .ok (s.goto c .compareExchange) else s.seen c
  | .compareExchange =>
    if s.state = UNINITIALIZED then .ok ({ s with state := INITIALIZING }.goto c .swapOut)
    else s.seen c
  | .swapOut => .ok ({ s with value := .initializing }.goto c (.init s.value))
  | .init .uninitialized => .ok ({ s with calls := s.calls + 1 }.goto c (.swapIn value))
  | .init _ => .error .unreachable
  | .swapIn value => .ok ({ s with value := .initialized value }.goto c .store)
  | .store => .ok ({ s with state := INITIALIZED }.goto c .getInitializedValue)
  | .spin => .ok (if s.state = INITIALIZED then s.goto c .getInitializedValue else s)
  | .getInitializedValue =>
    match s.value with
    | .initialized value => .ok (s.goto c (.returned value))
    | _ => .error .expect

def run (s : LazyLock ρ α) : LazyOp ρ α → Except LazyPanic (LazyLock ρ α)
  | .get c => .ok (s.goto c .load)
  | .step c value => s.step c value (s.pc c)

/-- A CPU calls `get` when it is in no call. -/
def Enabled (s : LazyLock ρ α) : LazyOp ρ α → Prop
  | .get c => s.pc c = .idle ∨ ∃ value, s.pc c = .returned value
  | .step _ _ => True

end LazyLock

def lazyLock (ρ α : Type) [DecidableEq ρ] : System (LazyLock ρ α) (LazyOp ρ α) LazyPanic where
  init s := s = {}
  allowed := LazyLock.Enabled
  run := LazyLock.run

namespace LazyLock

variable {ρ α : Type}

/-- What the CPU that initialises the value has done so far. -/
def Owns (s : LazyLock ρ α) : LazyPc α → Prop
  | .swapOut => s.value = .uninitialized ∧ s.calls = 0
  | .init state => state = .uninitialized ∧ s.calls = 0
  | .swapIn _ => s.calls = 1
  | .store => (∃ value, s.value = .initialized value) ∧ s.calls = 1
  | _ => False

/-- Where the other CPUs may be. -/
def Waits (s : LazyLock ρ α) : LazyPc α → Prop
  | .idle | .load | .compareExchange => True
  | .spin => s.state ≠ UNINITIALIZED
  | .getInitializedValue => s.state = INITIALIZED
  | .returned value => s.state = INITIALIZED ∧ s.value = .initialized value
  | _ => False

/-- The state byte says what the value is; while it is `INITIALIZING`, one CPU owns the value. -/
def Inv (s : LazyLock ρ α) : Prop :=
  s.state = UNINITIALIZED ∧ s.value = .uninitialized ∧ s.calls = 0 ∧ (∀ c, s.Waits (s.pc c)) ∨
  s.state = INITIALIZING ∧ (∃ c, s.Owns (s.pc c) ∧ ∀ c', c' ≠ c → s.Waits (s.pc c')) ∨
  s.state = INITIALIZED ∧ (∃ value, s.value = .initialized value) ∧ s.calls = 1 ∧
    ∀ c, s.Waits (s.pc c)

variable {s t : LazyLock ρ α} {c : ρ} {pc : LazyPc α}

/-- A CPU that waits nowhere owns the value. -/
theorem Inv.owner (h : s.Inv) (hpc : s.pc c = pc) (hc : ¬ s.Waits pc) :
    s.state = INITIALIZING ∧ s.Owns pc ∧ ∀ c', c' ≠ c → s.Waits (s.pc c') := by
  subst hpc
  obtain ⟨-, -, -, hw⟩ | ⟨hs, b, hb, hw⟩ | ⟨-, -, -, hw⟩ := h
  · exact absurd (hw c) hc
  · obtain rfl : c = b := by
      by_contra hne
      exact hc (hw c hne)
    exact ⟨hs, hb, hw⟩
  · exact absurd (hw c) hc

theorem Inv.waits (h : s.Inv) (hpc : s.pc c = pc) (hc : ¬ s.Owns pc) : s.Waits pc := by
  by_contra hw
  exact hc (h.owner hpc hw).2.1

/-- Before the value is there, waiting does not depend on what the owner does. -/
theorem Waits.mono (h : s.Waits pc) (hs : s.state ≠ INITIALIZED) (ht : t.state ≠ UNINITIALIZED) :
    t.Waits pc := by
  cases pc <;> simp_all [Waits]

variable [DecidableEq ρ]

/-- A step after which the CPU owns the value. -/
theorem inv_of_owns (hs : s.state ≠ INITIALIZED) (hw : ∀ c', c' ≠ c → s.Waits (s.pc c'))
    (ht : t.state = INITIALIZING) (hpc : t.pc = update s.pc c pc) (hown : t.Owns pc) : t.Inv := by
  refine Or.inr (Or.inl ⟨ht, c, ?_, fun c' hc' => ?_⟩)
  · rwa [hpc, update_self]
  · rw [hpc, update_of_ne hc']
    exact (hw c' hc').mono hs (ht ▸ by decide)

/-- A CPU that does not own the value may go to another place to wait. -/
theorem Inv.goto (h : s.Inv) (hc : ¬ s.Owns (s.pc c)) (hpc : s.Waits pc) : (s.goto c pc).Inv := by
  have hwait : ∀ c', s.Waits (s.pc c') → s.Waits (update s.pc c pc c') := by
    intro c' hc'
    rw [update_apply]
    split_ifs
    · exact hpc
    · exact hc'
  obtain ⟨hs, hv, hn, hw⟩ | ⟨hs, b, hb, hw⟩ | ⟨hs, hv, hn, hw⟩ := h
  · exact Or.inl ⟨hs, hv, hn, fun c' => hwait c' (hw c')⟩
  · have hbc : b ≠ c := by
      rintro rfl
      exact hc hb
    refine Or.inr (Or.inl ⟨hs, b, ?_, fun c' hc' => hwait c' (hw c' hc')⟩)
    change s.Owns (update s.pc c pc b)
    rwa [update_of_ne hbc]
  · exact Or.inr (Or.inr ⟨hs, hv, hn, fun c' => hwait c' (hw c')⟩)

theorem Inv.seen (h : s.Inv) (hc : ¬ s.Owns (s.pc c)) (h0 : s.state ≠ UNINITIALIZED) :
    Ensures (fun _ => False) Inv (s.seen c) := by
  unfold LazyLock.seen
  split_ifs with h1 h2
  · exact h.goto hc h0
  · exact h.goto hc h2
  · obtain ⟨hs, -⟩ | ⟨hs, -⟩ | ⟨hs, -⟩ := h
    · exact h0 hs
    · exact h1 hs
    · exact h2 hs

theorem Inv.step (h : s.Inv) (value : α) :
    Ensures (fun _ => False) Inv (s.step c value (s.pc c)) := by
  have hne : INITIALIZING ≠ INITIALIZED := by decide
  cases hpc : s.pc c with
  | idle => exact h
  | returned w => exact h
  | load =>
    have hc : ¬ s.Owns (s.pc c) := hpc ▸ id
    simp only [LazyLock.step]
    split_ifs with h0
    · exact h.goto hc trivial
    · exact h.seen hc h0
  | compareExchange =>
    have hc : ¬ s.Owns (s.pc c) := hpc ▸ id
    simp only [LazyLock.step]
    split_ifs with h0
    · obtain ⟨hs, hv, hn, hw⟩ | ⟨hs, -⟩ | ⟨hs, -⟩ := h
      · exact inv_of_owns (hs ▸ by decide) (fun c' _ => hw c') rfl rfl ⟨hv, hn⟩
      · exact absurd (hs.symm.trans h0) (by decide)
      · exact absurd (hs.symm.trans h0) (by decide)
    · exact h.seen hc h0
  | swapOut =>
    obtain ⟨hs, hown, hw⟩ := h.owner hpc id
    exact inv_of_owns (hs ▸ hne) hw hs rfl hown
  | init state =>
    obtain ⟨hs, ⟨rfl, hn⟩, hw⟩ := h.owner hpc id
    exact inv_of_owns (hs ▸ hne) hw hs rfl (congrArg (· + 1) hn)
  | swapIn w =>
    obtain ⟨hs, hown, hw⟩ := h.owner hpc id
    exact inv_of_owns (hs ▸ hne) hw hs rfl ⟨⟨w, rfl⟩, hown⟩
  | store =>
    obtain ⟨hs, hown, hw⟩ := h.owner hpc id
    refine Or.inr (Or.inr ⟨rfl, hown.1, hown.2, fun c' => ?_⟩)
    change Waits _ (update s.pc c _ c')
    rw [update_apply]
    split_ifs with hc'
    · rfl
    · exact (hw c' hc').mono (hs ▸ hne) (show INITIALIZED ≠ UNINITIALIZED by decide)
  | spin =>
    simp only [LazyLock.step]
    split_ifs with h2
    · exact h.goto (hpc ▸ id) h2
    · exact h
  | getInitializedValue =>
    have hs : s.state = INITIALIZED := h.waits hpc id
    obtain ⟨w, hw⟩ : ∃ w, s.value = .initialized w := by
      obtain ⟨h0, -⟩ | ⟨h1, -⟩ | ⟨-, hv, -⟩ := h
      · exact absurd (hs.symm.trans h0) (by decide)
      · exact absurd (hs.symm.trans h1) (by decide)
      · exact hv
    simp only [LazyLock.step, hw]
    exact h.goto (hpc ▸ id) ⟨hs, hw⟩

theorem Inv.run (h : s.Inv) (op : LazyOp ρ α) (hop : s.Enabled op) :
    Ensures (fun _ => False) Inv (s.run op) := by
  cases op with
  | step c value => exact h.step value
  | get c =>
    refine h.goto ?_ trivial
    obtain hc | ⟨w, hc⟩ := hop
    · exact hc ▸ id
    · exact hc ▸ id

/-- In every interleaving the initialiser is called at most once, every call that returned has the
value that is stored, and no step panics. -/
theorem get_once {s : LazyLock ρ α} (hs : (lazyLock ρ α).Reachable s) :
    s.calls ≤ 1 ∧ (∀ c value, s.pc c = .returned value → s.value = .initialized value) ∧
      ∀ op, s.Enabled op → ∃ t, s.run op = .ok t := by
  have h0 : ∀ s, (lazyLock ρ α).init s → s.Inv := by
    rintro s rfl
    exact Or.inl ⟨rfl, rfl, rfl, fun _ => trivial⟩
  obtain ⟨h, hok⟩ := hs.safe h0 fun s op h hop => ensures_false_iff.1 (h.run op hop)
  refine ⟨?_, fun c value hc => (h.waits hc id).2, hok⟩
  obtain ⟨-, -, hn, -⟩ | ⟨-, c, hown, -⟩ | ⟨-, -, hn, -⟩ := h
  · exact hn ▸ Nat.zero_le 1
  · cases hpc : s.pc c <;> simp_all [Owns]
  · exact Nat.le_of_eq hn

/-- The second CPU waits for the first one, which initialises the value. -/
theorem get_once_two : ∃ s : LazyLock ℕ ℕ, s.pc 0 = .returned 7 ∧ s.pc 1 = .returned 7 ∧
    s.calls ≤ 1 := by
  have h0 : (lazyLock ℕ ℕ).Reachable {} := .of_init rfl
  have h5 := h0.after [.get 0, .get 1, .step 0 7, .step 0 7, .step 1 7]
    ⟨Or.inl rfl, Or.inl rfl, trivial, trivial, trivial, trivial⟩
  have h12 := h5.after [.step 0 7, .step 0 7, .step 0 7, .step 0 7, .step 1 7, .step 0 7, .step 1 7]
    ⟨trivial, trivial, trivial, trivial, trivial, trivial, trivial, trivial⟩
  exact ⟨_, rfl, rfl, (get_once h12).1⟩

end LazyLock

end Dlutos
