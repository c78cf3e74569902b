import Mathlib.Logic.Relation

/-!
# Trees as edge relations

A forest of nodes is given by the relation `E a b`, `b` is a child of `a`.  If every node has at
most one parent and the root has none, nothing that can be reached from the root lies on a cycle
(`not_cycle`).
-/

namespace RootedTree

open Relation

variable {α : Type*} {E E' : α → α → Prop} {M : α → Prop} {r o p x : α}

theorem not_cycle (hparent : ∀ {a b c}, E a c → E b c → a = b) (hroot : ∀ a, ¬ E a r)
    (hx : ReflTransGen E r x) : ¬ TransGen E x x := by
  induction hx with
  | refl =>
    intro hcycle
    obtain ⟨a, -, ha⟩ := TransGen.tail'_iff.mp hcycle
    exact hroot a ha
  | tail _ hbc ih =>
    intro hcycle
    -- the last edge of the cycle comes from the only parent, which is then on a cycle itself
    obtain ⟨a, hca, hac⟩ := TransGen.tail'_iff.mp hcycle
    obtain rfl := hparent hac hbc
    exact ih (TransGen.head'_iff.mpr ⟨_, hbc, hca⟩)

theorem reach_prune (hkeep : ∀ {a b}, E a b → ¬ M b → E' a b) (hleaf : ∀ {a b}, M a → ¬ E a b)
    (hx : ReflTransGen E r x) (hxm : ¬ M x) : ReflTransGen E' r x := by
  induction hx with
  | refl => exact ReflTransGen.refl
  | tail _ hbc ih => exact (ih fun hb => hleaf hb hbc).tail (hkeep hbc hxm)

theorem reach_move (hkeep : ∀ {a b}, E a b → b ≠ o → ¬ M b → E' a b) (hnew : E' p o)
    (hleaf : ∀ {a b}, M a → ¬ E a b) (hp : ReflTransGen E r p) (hpm : ¬ M p)
    (hcycle : ¬ ReflTransGen E o p) (hx : ReflTransGen E r x) (hxm : ¬ M x) :
    ReflTransGen E' r x := by
  -- a node is reached as before unless it is in the moved subtree
  have hsplit : ∀ {y}, ReflTransGen E r y → ¬ M y → ReflTransGen E' r y ∨ ReflTransGen E o y := by
    intro y hy
    induction hy with
    | refl => exact fun _ => Or.inl ReflTransGen.refl
    | @tail b c _ hbc ih =>
      intro hcm
      by_cases hco : c = o
      · exact Or.inr (hco ▸ ReflTransGen.refl)
      · refine (ih fun hb => hleaf hb hbc).imp (fun h => ?_) fun h => h.tail hbc
        exact h.tail (hkeep hbc hco hcm)
  have hro : ReflTransGen E' r o := ((hsplit hp hpm).resolve_right hcycle).tail hnew
  have hsub : ∀ {y}, ReflTransGen E o y → ¬ M y → ReflTransGen E' r y := by
    intro y hy
    induction hy with
    | refl => exact fun _ => hro
    | @tail b c _ hbc ih =>
      intro hcm
      by_cases hco : c = o
      · exact hco ▸ hro
      · exact (ih fun hb => hleaf hb hbc).tail (hkeep hbc hco hcm)
  exact (hsplit hx hxm).elim id fun h => hsub h hxm

end RootedTree
