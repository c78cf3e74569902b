import Mathlib.Data.List.Basic

/-!
# Ordered sets as sorted lists

A search tree with a three-way comparison, seen through its in-order traversal.  Elements and keys
that the comparison calls equal may be different, and an insertion that meets an equal element
changes nothing.  `Search` is what any search guarantees that only follows the comparison.
-/

namespace OrderedSet

variable {α κ : Type*}

/-- Insert an element; the flag says whether it was added. -/
def insert (cmp : α → α → Ordering) (x : α) : List α → List α × Bool
  | [] => ([x], true)
  | y :: ys =>
    match cmp x y with
    | .lt => (x :: y :: ys, true)
    | .eq => (y :: ys, false)
    | .gt => (y :: (insert cmp x ys).1, (insert cmp x ys).2)

/-- The element that a key compares equal to. -/
def get (cmp : κ → α → Ordering) (k : κ) (xs : List α) : Option α :=
  xs.find? fun x => cmp k x == .eq

/-- The elements between two keys, both ends included. -/
def range (cmp : κ → α → Ordering) (lo hi : κ) (xs : List α) : List α :=
  xs.filter fun x => cmp lo x != .gt && cmp hi x != .lt

/-- On elements related by the strict order `R` the comparison tells which is the smaller one. -/
structure Separates (cmp : α → α → Ordering) (R : α → α → Prop) : Prop where
  lt : ∀ {x y}, R x y → cmp x y = .lt
  gt : ∀ {x y}, R x y → cmp y x = .gt
  trans : ∀ {x y z}, R x y → R y z → R x z

theorem insert_spec {cmp : α → α → Ordering} {R : α → α → Prop} (hR : Separates cmp R) (x : α)
    {xs : List α} (hxs : xs.Pairwise R) (hx : ∀ y ∈ xs, R y x ∨ R x y) :
    ∃ ys, insert cmp x xs = (ys, true) ∧ ys.Pairwise R ∧ ∀ z, z ∈ ys ↔ z = x ∨ z ∈ xs := by
  induction xs with
  | nil =>
    refine ⟨[x], rfl, List.pairwise_singleton R x, fun z => ?_⟩
    rw [List.mem_singleton]
    exact ⟨Or.inl, fun h => h.elim id fun h => absurd h List.not_mem_nil⟩
  | cons y ys ih =>
    obtain ⟨hy, hys⟩ := List.pairwise_cons.mp hxs
    rcases hx y List.mem_cons_self with hyx | hxy
    · obtain ⟨zs, hins, hsorted, hmem⟩ := ih hys fun z hz => hx z (List.mem_cons_of_mem y hz)
      refine ⟨y :: zs, ?_, List.pairwise_cons.mpr ⟨fun z hz => ?_, hsorted⟩, fun z => ?_⟩
      · simp only [insert, hR.gt hyx, hins]
      · rcases (hmem z).mp hz with rfl | hz
        · exact hyx
        · exact hy z hz
      · rw [List.mem_cons, List.mem_cons, hmem z]
        exact or_left_comm
    · refine ⟨x :: y :: ys, ?_, List.pairwise_cons.mpr ⟨fun z hz => ?_, hxs⟩, fun z => List.mem_cons⟩
      · simp only [insert, hR.lt hxy]
      · rcases List.mem_cons.mp hz with rfl | hz
        · exact hxy
        · exact hR.trans hxy (hy z hz)

theorem mem_insert {cmp : α → α → Ordering} {x z : α} {xs : List α}
    (h : z ∈ (insert cmp x xs).1) : z = x ∨ z ∈ xs := by
  induction xs with
  | nil => exact Or.inl (List.mem_singleton.mp h)
  | cons y ys ih =>
    rw [insert] at h
    split at h
    · exact List.mem_cons.mp h
    · exact Or.inr h
    · rcases List.mem_cons.mp h with rfl | h
      · exact Or.inr List.mem_cons_self
      · exact (ih h).imp_right (List.mem_cons_of_mem y)

theorem mem_insert_iff {cmp : α → α → Ordering} {x z : α} {xs : List α}
    (hx : ∀ y ∈ xs, cmp x y ≠ .eq) : z ∈ (insert cmp x xs).1 ↔ z = x ∨ z ∈ xs := by
  refine ⟨mem_insert, ?_⟩
  induction xs with
  | nil => exact fun h => List.mem_singleton.mpr (h.resolve_right List.not_mem_nil)
  | cons y ys ih =>
    intro h
    have hys := ih fun y' hy' => hx y' (List.mem_cons_of_mem y hy')
    rw [insert]
    split
    · exact List.mem_cons.mpr h
    · rename_i heq
      exact absurd heq (hx y List.mem_cons_self)
    · rcases h with rfl | h
      · exact List.mem_cons_of_mem y (hys (Or.inl rfl))
      · rcases List.mem_cons.mp h with rfl | h
        · exact List.mem_cons_self
        · exact List.mem_cons_of_mem y (hys (Or.inr h))

theorem insert_last {cmp : α → α → Ordering} {R : α → α → Prop} (hR : Separates cmp R) (x : α)
    {xs : List α} (hx : ∀ y ∈ xs, R y x) : insert cmp x xs = (xs ++ [x], true) := by
  induction xs with
  | nil => rfl
  | cons y ys ih =>
    have hys := ih fun z hz => hx z (List.mem_cons_of_mem y hz)
    simp only [insert, hR.gt (hx y List.mem_cons_self), hys, List.cons_append]

theorem eq_or_related {R : α → α → Prop} {xs : List α} (hxs : xs.Pairwise R) {x y : α} (hx : x ∈ xs)
    (hy : y ∈ xs) : x = y ∨ R x y ∨ R y x := by
  induction hxs with
  | nil => exact absurd hx List.not_mem_nil
  | cons hz _ ih =>
    rcases List.mem_cons.mp hx with rfl | hx' <;> rcases List.mem_cons.mp hy with rfl | hy'
    · exact Or.inl rfl
    · exact Or.inr (Or.inl (hz y hy'))
    · exact Or.inr (Or.inr (hz x hx'))
    · exact ih hx' hy'

variable {cmp : κ → α → Ordering}

theorem range_eq_nil {lo hi : κ} {xs : List α} (h : range cmp lo hi xs = []) {x : α} (hx : x ∈ xs) :
    cmp lo x = .gt ∨ cmp hi x = .lt := by
  have := List.filter_eq_nil_iff.mp h x hx
  simp only [Bool.and_eq_true, bne_iff_ne, ne_eq, not_and_or, not_not] at this
  exact this

theorem get_eq_some {k : κ} {xs : List α} {x : α} (h : get cmp k xs = some x) :
    x ∈ xs ∧ cmp k x = .eq := by
  refine ⟨List.mem_of_find?_eq_some h, ?_⟩
  simpa using List.find?_some h

theorem get_ne_none {k : κ} {xs : List α} {x : α} (hx : x ∈ xs) (hk : cmp k x = .eq) :
    get cmp k xs ≠ none := by
  intro h
  have hnone := List.find?_eq_none.mp h x hx
  rw [hk] at hnone
  exact hnone rfl

/-! ### Sorted search -/

/-- First come the elements below the query, then those it calls equal, then those above. -/
def Monotone (query : α → Ordering) (xs : List α) : Prop :=
  xs.Pairwise fun x y => (query y = .gt → query x = .gt) ∧ (query x = .lt → query y = .lt)

/-- A sorted search: what it returns is known as far as the queries are monotone along the list. -/
structure Search (α : Type*) where
  get : (α → Ordering) → List α → Option α
  range : (α → Ordering) → (α → Ordering) → List α → List α
  get_some : ∀ {query xs x}, Monotone query xs → get query xs = some x → x ∈ xs ∧ query x = .eq
  get_none : ∀ {query xs}, Monotone query xs → get query xs = none → ∀ x ∈ xs, query x ≠ .eq
  range_eq : ∀ {lo hi xs}, Monotone lo xs → Monotone hi xs →
    range lo hi xs = xs.filter fun x => lo x != .gt && hi x != .lt

/-- The search that looks at every element. -/
def linear (α : Type*) : Search α where
  get query xs := OrderedSet.get (fun query x => query x) query xs
  range lo hi xs := OrderedSet.range (fun query x => query x) lo hi xs
  get_some _ h := get_eq_some h
  get_none _ h _ hx heq := get_ne_none hx heq h
  range_eq _ _ := rfl

end OrderedSet
