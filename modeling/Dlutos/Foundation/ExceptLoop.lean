import Mathlib.Data.List.Basic

/-!
# Loops that may fail

Assertions and loops over lists in the error monad.  The rules for `List.foldlM` keep an invariant
`I done b` that relates the part of the list already visited to the state.  `Ensures` is a triple
for the error monad; `Simulates` relates two computations with states.
-/

namespace ExceptLoop

universe u v

variable {α β : Type u} {ε : Type v}

/-- Fail with `e` unless the condition holds. -/
def assertOr (c : Prop) [Decidable c] (e : ε) : Except ε Unit := if c then .ok () else .error e

@[simp] theorem assertOr_true {c : Prop} [Decidable c] (e : ε) (h : c) : assertOr c e = .ok () :=
  if_pos h

theorem of_assertOr {c : Prop} [Decidable c] {e : ε} {u : Unit} (h : assertOr c e = .ok u) : c := by
  unfold assertOr at h
  split at h
  · assumption
  · cases h

@[simp] theorem ok_bind (a : α) (f : α → Except ε β) : (Except.ok a >>= f) = f a := rfl

@[simp] theorem error_bind (e : ε) (f : α → Except ε β) : (Except.error e >>= f) = .error e := rfl

variable {b : β} {f : α → Except ε β}

theorem bind_eq_ok {x : Except ε α} : (x >>= f) = .ok b ↔ ∃ a, x = .ok a ∧ f a = .ok b := by
  cases x with
  | error e =>
    constructor
    · intro h
      cases h
    · rintro ⟨a, h, -⟩
      cases h
  | ok a =>
    constructor
    · intro h
      exact ⟨a, rfl, h⟩
    · rintro ⟨_, ha, hf⟩
      cases ha
      exact hf

/-! ### Triples -/

variable {E : ε → Prop}

/-- The computation fails only with errors in `E`, and what it returns satisfies `P`. -/
def Ensures (E : ε → Prop) (P : α → Prop) : Except ε α → Prop
  | .error e => E e
  | .ok a => P a

variable {P : α → Prop}

theorem ensures_pure {a : α} (h : P a) : Ensures E P (pure a) := h

variable {x : Except ε α}

theorem Ensures.of_ok {a : α} (h : Ensures E P x) (hx : x = .ok a) : P a := by
  rw [hx] at h
  exact h

theorem Ensures.of_error {e : ε} (h : Ensures E P x) (hx : x = .error e) : E e := by
  rw [hx] at h
  exact h

theorem ensures_of_forall (hE : ∀ e, x = .error e → E e)
    (hP : ∀ a, x = .ok a → P a) : Ensures E P x := by
  cases x with
  | error e => exact hE e rfl
  | ok a => exact hP a rfl

theorem ensures_of_ok (hP : ∀ a, x = .ok a → P a) :
    Ensures (fun _ => True) P x := ensures_of_forall (fun _ _ => trivial) hP

theorem Ensures.cases (h : Ensures E P x) : (∃ e, x = .error e ∧ E e) ∨ ∃ a, x = .ok a ∧ P a := by
  cases x with
  | error e => exact Or.inl ⟨e, rfl, h⟩
  | ok a => exact Or.inr ⟨a, rfl, h⟩

theorem Ensures.mono {Q : α → Prop} (h : Ensures E P x) (hPQ : ∀ a, P a → Q a) : Ensures E Q x := by
  cases x with
  | error e => exact h
  | ok a => exact hPQ a h

theorem Ensures.with_ok {Q : α → Prop} (h : Ensures E P x)
    (hQ : ∀ a, x = .ok a → Q a) : Ensures E (fun a => P a ∧ Q a) x := by
  cases x with
  | error e => exact h
  | ok a => exact ⟨h, hQ a rfl⟩

theorem Ensures.bind {Q : β → Prop} (h : Ensures E P x) (hf : ∀ a, P a → Ensures E Q (f a)) :
    Ensures E Q (x >>= f) := by
  cases x with
  | error e => exact h
  | ok a => exact hf a h

theorem ensures_assertOr {c : Prop} [Decidable c] {e : ε} (he : ¬ c → E e) :
    Ensures E (fun _ => c) (assertOr c e) := by
  unfold assertOr
  split
  · assumption
  · exact he (by assumption)

theorem ensures_foldlM {f : β → α → Except ε β} {I : List α → β → Prop} (l : List α)
    (hstep : ∀ done a rest b, l = done ++ a :: rest → I done b →
      Ensures E (I (done ++ [a])) (f b a))
    {b : β} (h : I [] b) : Ensures E (I l) (l.foldlM f b) := by
  have hgen : ∀ rest done b, l = done ++ rest → I done b → Ensures E (I l) (rest.foldlM f b) := by
    intro rest
    induction rest with
    | nil =>
      intro done b hl hI
      rw [List.append_nil] at hl
      exact hl ▸ hI
    | cons a rest ih =>
      intro done b hl hI
      rw [List.foldlM_cons]
      refine (hstep done a rest b hl hI).bind fun b' hI' => ?_
      exact ih (done ++ [a]) b' (by rw [hl, List.append_assoc]; rfl) hI'
  exact hgen l [] b rfl h

theorem ensures_foldlM_mem {f : β → α → Except ε β} {I : β → Prop} {l : List α}
    (hf : ∀ a ∈ l, ∀ b, I b → Ensures E I (f b a)) (h : I b) : Ensures E I (l.foldlM f b) :=
  ensures_foldlM (I := fun _ => I) l (fun done a rest b hl hI =>
    hf a (hl ▸ List.mem_append_right done List.mem_cons_self) b hI) h

theorem ensures_false_iff : Ensures (fun _ => False) P x ↔ ∃ a, x = .ok a ∧ P a := by
  cases x <;> simp [Ensures]

theorem foldlM_ok {f : β → α → Except ε β} {I : List α → β → Prop} (l : List α)
    (hstep : ∀ done a rest b, l = done ++ a :: rest → I done b →
      ∃ b', f b a = .ok b' ∧ I (done ++ [a]) b') (h : I [] b) :
    ∃ b', l.foldlM f b = .ok b' ∧ I l b' :=
  ensures_false_iff.1 (ensures_foldlM l (fun done a rest b hl hI =>
    ensures_false_iff.2 (hstep done a rest b hl hI)) h)

theorem foldlM_invariant {f : β → α → Except ε β} {I : List α → β → Prop} (l : List α) {b' : β}
    (hstep : ∀ done a rest b b', l = done ++ a :: rest → I done b → f b a = .ok b' →
      I (done ++ [a]) b') (h : I [] b) (hloop : l.foldlM f b = .ok b') : I l b' :=
  (ensures_foldlM l (fun done a rest b hl hI =>
    ensures_of_ok fun b' => hstep done a rest b b' hl hI) h).of_ok hloop

/-! ### Simulation -/

variable {σ τ ρ ρ' : Type u} {R R' : σ → τ → Prop}

/-- The computation `x` fails only with errors in `E`; if it returns, then `y` returns the same
result with a related state. -/
def Simulates (E : ε → Prop) (R : σ → τ → Prop) (x : Except ε (ρ × σ)) (y : Except ε (ρ × τ)) :
    Prop :=
  match x with
  | .error e => E e
  | .ok (r, s) => ∃ t, y = .ok (r, t) ∧ R s t

theorem Simulates.ok {s : σ} {t : τ} (r : ρ) (h : R s t) :
    Simulates E R (.ok (r, s)) (.ok (r, t)) := ⟨t, rfl, h⟩

section

variable {x : Except ε (ρ × σ)} {y : Except ε (ρ × τ)} (h : Simulates E R x y)
include h

theorem Simulates.ensures : Ensures E (fun a => ∃ t, y = .ok (a.1, t) ∧ R a.2 t) x := by
  cases x with
  | error e => exact h
  | ok a => exact h

theorem Simulates.bind {f : ρ × σ → Except ε (ρ' × σ)} {g : ρ × τ → Except ε (ρ' × τ)}
    (hfg : ∀ r s t, x = .ok (r, s) → R s t → Simulates E R' (f (r, s)) (g (r, t))) :
    Simulates E R' (x >>= f) (y >>= g) := by
  cases x with
  | error e => exact h
  | ok a =>
    obtain ⟨r, s⟩ := a
    obtain ⟨t, rfl, hR⟩ := h
    exact hfg r s t rfl hR

end

end ExceptLoop
