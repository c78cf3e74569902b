import Mathlib.Data.List.Nodup
import Mathlib.Data.List.Perm.Basic

/-!
# Counted association lists

`Listing l k R` says that an unordered list of pairs `l` with the counter `k` represents the
relation `R`: no key occurs twice, the pairs are those of `R`, and the counter is right.
-/

/-- The list `l` with counter `k` represents the relation `R`. -/
structure Listing {α β : Type*} (l : List (α × β)) (k : ℕ) (R : α → β → Prop) : Prop where
  size : k = l.length
  nodup : (l.map Prod.fst).Nodup
  mem_iff (a : α) (b : β) : (a, b) ∈ l ↔ R a b

namespace Listing

variable {α β : Type*} {l l' r : List (α × β)} {k : ℕ} {R R' : α → β → Prop} {a a' : α} {b : β}

theorem congr (h : Listing l k R) (hR : ∀ x y, R' x y ↔ R x y) : Listing l k R' :=
  ⟨h.size, h.nodup, fun x y => (h.mem_iff x y).trans (hR x y).symm⟩

theorem insert (h : Listing l k R) (hp : l'.Perm ((a, b) :: l)) (hfree : ∀ y, ¬ R a y)
    (hR : ∀ x y, R' x y ↔ (x = a ∧ y = b) ∨ R x y) : Listing l' (k + 1) R' := by
  refine ⟨?_, ?_, fun x y => ?_⟩
  · rw [h.size, hp.length_eq, List.length_cons]
  · rw [(hp.map Prod.fst).nodup_iff, List.map_cons, List.nodup_cons]
    refine ⟨fun ha => ?_, h.nodup⟩
    obtain ⟨⟨x, y⟩, hmem, rfl⟩ := List.mem_map.mp ha
    exact hfree y ((h.mem_iff x y).mp hmem)
  · rw [hp.mem_iff, List.mem_cons, h.mem_iff, hR, Prod.mk.injEq]

theorem erase (h : Listing l k R) (hp : l.Perm ((a, b) :: l'))
    (hR : ∀ x y, R' x y ↔ R x y ∧ x ≠ a) : 0 < k ∧ Listing l' (k - 1) R' := by
  have hlen : k = l'.length + 1 := by rw [h.size, hp.length_eq, List.length_cons]
  have hnd := h.nodup
  rw [(hp.map Prod.fst).nodup_iff, List.map_cons, List.nodup_cons] at hnd
  refine ⟨by omega, by omega, hnd.2, fun x y => ?_⟩
  rw [hR, ← h.mem_iff, hp.mem_iff, List.mem_cons, Prod.mk.injEq]
  constructor
  · intro hmem
    refine ⟨Or.inr hmem, ?_⟩
    rintro rfl
    exact hnd.1 (List.mem_map.mpr ⟨_, hmem, rfl⟩)
  · rintro ⟨⟨rfl, -⟩ | hmem, hne⟩
    · exact absurd rfl hne
    · exact hmem

theorem rename (h : Listing l k R) (hp : l.Perm ((a, b) :: r)) (hp' : l'.Perm ((a', b) :: r))
    (hfree : ∀ y, ¬ R a' y) (hR : ∀ x y, R' x y ↔ (x = a' ∧ y = b) ∨ (R x y ∧ x ≠ a)) :
    Listing l' k R' := by
  obtain ⟨hpos, hrest⟩ := h.erase hp (fun x y => Iff.rfl)
  have hins := hrest.insert hp' (fun y hy => hfree y hy.1) hR
  rwa [Nat.sub_add_cancel hpos] at hins

/-! ### Operations on lists up to permutation -/

theorem perm_eraseIdx {γ : Type*} {xs : List γ} {i : ℕ} {x : γ} (hi : xs[i]? = some x) :
    xs.Perm (x :: xs.eraseIdx i) := by
  obtain ⟨hlt, rfl⟩ := List.getElem?_eq_some_iff.mp hi
  exact (List.getElem_cons_eraseIdx_perm hlt).symm

theorem perm_modify {γ : Type*} {xs : List γ} {i : ℕ} {x : γ} (f : γ → γ) (hi : xs[i]? = some x) :
    (xs.modify i f).Perm (f x :: xs.eraseIdx i) := by
  have hmod : (xs.modify i f)[i]? = some (f x) := by simp [hi]
  have herase : (xs.modify i f).eraseIdx i = xs.eraseIdx i := by
    refine List.ext_getElem? fun j => ?_
    simp only [List.getElem?_eraseIdx, List.getElem?_modify]
    by_cases hj : j < i
    · simp [hj, show i ≠ j by omega]
    · simp [hj, show i ≠ j + 1 by omega]
  rw [← herase]
  exact perm_eraseIdx hmod

theorem perm_filter [BEq α] [LawfulBEq α] [BEq β] [LawfulBEq β] (h : Listing l k R) (hab : R a b) :
    l.Perm ((a, b) :: l.filter fun e => e.2 != b || e.1 != a) := by
  have hmem : (a, b) ∈ l := (h.mem_iff a b).mpr hab
  have hfilter : (l.filter fun e => e.2 != b || e.1 != a) = l.erase (a, b) := by
    rw [(List.Nodup.of_map Prod.fst h.nodup).erase_eq_filter]
    refine List.filter_congr fun e _ => ?_
    rw [Bool.eq_iff_iff]
    simp only [Bool.or_eq_true, bne_iff_ne, ne_eq, Prod.ext_iff, not_and_or]
    exact or_comm
  rw [hfilter]
  exact List.perm_cons_erase hmem

end Listing
