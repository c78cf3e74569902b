import Mathlib.Data.List.Perm.Basic
import Mathlib.Order.Lattice

/-!
# Heaps that yield the least element

A `BinaryHeap` of `Reverse`d elements as the list of its elements, in any order: `pop` takes out an
element with the least key, and `peek` looks at it.
-/

namespace MinHeap

variable {α β : Type*} [LinearOrder β] (key : α → β)

/-- Take out an element with the least key. -/
def pop : List α → Option (α × List α)
  | [] => none
  | a :: l =>
    match pop l with
    | none => some (a, l)
    | some (b, rest) => if key a ≤ key b then some (a, l) else some (b, a :: rest)

/-- Look at the element that `pop` takes. -/
def peek (l : List α) : Option α := (pop key l).map Prod.fst

variable {key}

theorem pop_eq_none {l : List α} : pop key l = none ↔ l = [] := by
  cases l with
  | nil => simp [pop]
  | cons a l =>
    simp only [pop, reduceCtorEq, iff_false]
    split
    · nofun
    · split_ifs <;> nofun

section

variable {l : List α} {a : α} {rest : List α} (h : pop key l = some (a, rest))
include h

theorem pop_eq_some : l.Perm (a :: rest) ∧ ∀ x ∈ rest, key a ≤ key x := by
  induction l generalizing a rest with
  | nil => simp [pop] at h
  | cons b l ih =>
    rw [pop] at h
    split at h
    · rename_i hnone
      cases h
      rw [pop_eq_none.mp hnone]
      exact ⟨List.Perm.refl _, nofun⟩
    · rename_i c rest' hsome
      obtain ⟨hperm, hle⟩ := ih hsome
      split_ifs at h with hbc
      · cases h
        refine ⟨List.Perm.refl _, fun x hx => ?_⟩
        rcases List.mem_cons.mp (hperm.mem_iff.mp hx) with rfl | hx
        · exact hbc
        · exact le_trans hbc (hle x hx)
      · cases h
        refine ⟨(hperm.cons b).trans (List.Perm.swap _ _ _), fun x hx => ?_⟩
        rcases List.mem_cons.mp hx with rfl | hx
        · exact le_of_lt (not_le.mp hbc)
        · exact hle x hx

theorem le_of_pop {x : α} (hx : x ∈ l) : key a ≤ key x := by
  obtain ⟨hperm, hle⟩ := pop_eq_some h
  rcases List.mem_cons.mp (hperm.mem_iff.mp hx) with rfl | hx
  · exact le_rfl
  · exact hle x hx

end

theorem peek_getD_le {l : List α} (top : β) {x : α} (hx : x ∈ l) :
    ((peek key l).map key).getD top ≤ key x := by
  unfold peek
  cases hpop : pop key l with
  | none =>
    rw [pop_eq_none.mp hpop] at hx
    cases hx
  | some r => exact le_of_pop hpop hx

end MinHeap
