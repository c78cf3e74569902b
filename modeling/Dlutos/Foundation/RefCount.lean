import Mathlib.Data.Set.Card

/-!
# Reference counts

Objects `φ` with a reference count, and places `ρ` that may each hold one reference.  `Counted` says
that no object has more references than its count.  A count may be too large, never too small; this
makes it safe to write to an object whose count is one, and to reuse one whose count is zero.
-/

namespace RefCount

open Function

variable {ρ φ : Type*}

/-- No object has more references than its count. -/
def Counted (target : ρ → Option φ) (count : φ → ℕ) : Prop :=
  ∀ (p : φ) (S : Finset ρ), (∀ r ∈ S, target r = some p) → S.card ≤ count p

variable {target : ρ → Option φ} {count : φ → ℕ}

theorem Counted.exclusive (h : Counted target count) {p : φ} (hp : count p = 1) {r s : ρ}
    (hr : target r = some p) (hs : target s = some p) : r = s := by
  classical
  by_contra hne
  have hcard := h p {r, s} fun x hx => by
    rcases Finset.mem_insert.mp hx with rfl | hx
    · exact hr
    · rw [Finset.mem_singleton.mp hx]
      exact hs
  rw [Finset.card_pair hne, hp] at hcard
  omega

theorem Counted.pos (h : Counted target count) {p : φ} {r : ρ} (hr : target r = some p) :
    0 < count p := by
  have hcard := h p {r} fun x hx => by
    rw [Finset.mem_singleton.mp hx]
    exact hr
  rwa [Finset.card_singleton] at hcard

theorem Counted.mono (h : Counted target count) {count' : φ → ℕ} (hle : ∀ p, count p ≤ count' p) :
    Counted target count' :=
  fun p S hS => (h p S hS).trans (hle p)

theorem Counted.weaken (h : Counted target count) {target' : ρ → Option φ}
    (hle : ∀ r p, target' r = some p → target r = some p) : Counted target' count :=
  fun p S hS => h p S fun r hr => hle r p (hS r hr)

variable [DecidableEq ρ]

variable [DecidableEq φ]

theorem Counted.acquire (h : Counted target count) (r : ρ) (p : φ) :
    Counted (update target r (some p)) (update count p (count p + 1)) := by
  intro q S hS
  have herase : ∀ s ∈ S.erase r, target s = some q := by
    intro s hs
    obtain ⟨hne, hmem⟩ := Finset.mem_erase.mp hs
    have := hS s hmem
    rwa [update_of_ne hne] at this
  have hcard := h q _ herase
  by_cases hr : r ∈ S
  · have hq := hS r hr
    rw [update_self] at hq
    obtain rfl : p = q := Option.some.inj hq
    rw [Finset.card_erase_of_mem hr] at hcard
    rw [update_self]
    omega
  · rw [Finset.erase_eq_of_notMem hr] at hcard
    by_cases hqp : q = p
    · subst hqp
      rw [update_self]
      omega
    · rwa [update_of_ne hqp]

theorem Counted.release (h : Counted target count) {r : ρ} {p : φ} (hr : target r = some p) :
    Counted (update target r none) (update count p (count p - 1)) := by
  intro q S hS
  have hnot : r ∉ S := by
    intro hmem
    have := hS r hmem
    rw [update_self] at this
    cases this
  have hold : ∀ s ∈ S, target s = some q := by
    intro s hs
    have hne : s ≠ r := fun heq => hnot (heq ▸ hs)
    have := hS s hs
    rwa [update_of_ne hne] at this
  by_cases hqp : q = p
  · subst hqp
    have hcard := h q (insert r S) fun s hs => by
      rcases Finset.mem_insert.mp hs with rfl | hs
      · exact hr
      · exact hold s hs
    rw [Finset.card_insert_of_notMem hnot] at hcard
    rw [update_self]
    omega
  · rw [update_of_ne hqp]
    exact h q S hold

/-! ### Exact counts -/

/-- Every count is the number of places that refer to the object, plus `extra`. -/
def Exact (target : ρ → Option φ) (extra count : φ → ℕ) : Prop :=
  ∀ p, {r | target r = some p}.encard + extra p = count p

variable {extra : φ → ℕ}

omit [DecidableEq ρ] [DecidableEq φ] in
theorem Exact.two_le (h : Exact target extra count) {p : φ} {r : ρ} (hr : target r = some p)
    (hother : 0 < extra p ∨ ∃ s, s ≠ r ∧ target s = some p) : 2 ≤ count p := by
  have hle : ((2 : ℕ) : ℕ∞) ≤ count p := by
    rw [← h p]
    rcases hother with hextra | ⟨s, hne, hs⟩
    · have hone : 1 ≤ {x | target x = some p}.encard :=
        Set.one_le_encard_iff_nonempty.mpr ⟨r, hr⟩
      have hextra : (1 : ℕ∞) ≤ extra p := by exact_mod_cast hextra
      calc ((2 : ℕ) : ℕ∞) = 1 + 1 := rfl
        _ ≤ _ := add_le_add hone hextra
    · have hpair : ({s, r} : Set ρ) ⊆ {x | target x = some p} := by
        rintro x (rfl | rfl)
        · exact hs
        · exact hr
      calc ((2 : ℕ) : ℕ∞) = ({s, r} : Set ρ).encard := (Set.encard_pair hne).symm
        _ ≤ {x | target x = some p}.encard := Set.encard_le_encard hpair
        _ ≤ _ := le_self_add
  exact_mod_cast hle

omit [DecidableEq ρ] [DecidableEq φ] in
theorem Exact.pos (h : Exact target extra count) {p : φ} {r : ρ} (hr : target r = some p) :
    0 < count p := by
  have hle : ((1 : ℕ) : ℕ∞) ≤ count p := by
    rw [← h p]
    exact (Set.one_le_encard_iff_nonempty.mpr ⟨r, hr⟩).trans le_self_add
  exact_mod_cast hle

omit [DecidableEq ρ] [DecidableEq φ] in
theorem Exact.of_forall_ne (h : Exact target extra count) {p : φ}
    (hp : ∀ r, target r ≠ some p) : count p = extra p := by
  have hempty : {r | target r = some p} = ∅ := Set.eq_empty_of_forall_notMem hp
  have heq := h p
  rw [hempty, Set.encard_empty, zero_add] at heq
  exact_mod_cast heq.symm

theorem Exact.acquire (h : Exact target extra count) {r : ρ} (hr : target r = none) (p : φ) :
    Exact (update target r (some p)) extra (update count p (count p + 1)) := by
  intro q
  by_cases hqp : q = p
  · subst hqp
    have hset : {s | update target r (some q) s = some q} =
        insert r {s | target s = some q} := by
      ext s
      by_cases hs : s = r
      · subst hs
        simp
      · simp [hs]
    have hnot : r ∉ {s | target s = some q} := by
      simp [hr]
    rw [hset, Set.encard_insert_of_notMem hnot, update_self, add_right_comm, h q]
    rfl
  · have hset : {s | update target r (some p) s = some q} = {s | target s = some q} := by
      ext s
      by_cases hs : s = r
      · subst hs
        simp [hr, Ne.symm hqp]
      · simp [update_of_ne hs]
    rw [hset, update_of_ne hqp]
    exact h q

theorem Exact.release (h : Exact target extra count) {r : ρ} {p : φ} (hr : target r = some p) :
    Exact (update target r none) extra (update count p (count p - 1)) := by
  intro q
  by_cases hqp : q = p
  · subst hqp
    have hset : {s | update target r none s = some q} =
        {s | target s = some q} \ {r} := by
      ext s
      by_cases hs : s = r
      · subst hs
        simp
      · simp [hs]
    have hcard := Set.encard_sdiff_singleton_add_one (show r ∈ {s | target s = some q} from hr)
    have heq := h q
    rw [← hcard, add_right_comm] at heq
    have hpos := h.pos hr
    rw [hset, update_self]
    have hsucc : ((count q - 1 : ℕ) : ℕ∞) + 1 = count q := by
      exact_mod_cast Nat.sub_add_cancel hpos
    rw [← hsucc] at heq
    exact ENat.add_left_injective_of_ne_top ENat.one_ne_top heq
  · have hset : {s | update target r none s = some q} = {s | target s = some q} := by
      ext s
      by_cases hs : s = r
      · subst hs
        simp [hr, Ne.symm hqp]
      · simp [update_of_ne hs]
    rw [hset, update_of_ne hqp]
    exact h q

end RefCount
