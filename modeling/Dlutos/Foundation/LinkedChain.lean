import Mathlib.Data.List.Nodup

/-!
# Chains threaded through two link functions

A doubly linked list in memory is a pair of functions `next prev : α → Option α` on addresses
together with an anchor.  `IsChain next prev h xs` says that following `next` from the anchor `h`
visits exactly the addresses `xs` and stops, and that `prev` is the inverse step.
-/

namespace LinkedChain

open Function

variable {α : Type*} {next prev next' prev' : α → Option α}

/-- The links thread the addresses `xs`, in this order, behind the anchor `h`. -/
def IsChain (next prev : α → Option α) : α → List α → Prop
  | h, [] => next h = none
  | h, x :: xs => next h = some x ∧ prev x = some h ∧ IsChain next prev x xs

variable {h : α}

theorem IsChain.next_eq_head? {xs : List α} (hc : IsChain next prev h xs) :
    next h = xs.head? := by
  cases xs with
  | nil => exact hc
  | cons x xs => exact hc.1

theorem IsChain.unique {xs ys : List α} (hx : IsChain next prev h xs)
    (hy : IsChain next prev h ys) : xs = ys := by
  induction xs generalizing h ys with
  | nil =>
    have hnone : ys.head? = none := hy.next_eq_head?.symm.trans hx
    exact (List.head?_eq_none_iff.mp hnone).symm
  | cons x xs ih =>
    cases ys with
    | nil => exact absurd (hx.1.symm.trans hy) (by simp)
    | cons y ys =>
      obtain rfl : x = y := Option.some.inj (hx.1.symm.trans hy.1)
      rw [ih hx.2.2 hy.2.2]

theorem IsChain.frame {xs : List α} (hc : IsChain next prev h xs)
    (hn : ∀ a ∈ h :: xs, next' a = next a) (hp : ∀ a ∈ xs, prev' a = prev a) :
    IsChain next' prev' h xs := by
  induction xs generalizing h with
  | nil => exact (hn h (by simp)).trans hc
  | cons x xs ih =>
    refine ⟨(hn h (by simp)).trans hc.1, (hp x (by simp)).trans hc.2.1, ih hc.2.2 ?_ ?_⟩
    · exact fun a ha => hn a (List.mem_cons_of_mem _ ha)
    · exact fun a ha => hp a (List.mem_cons_of_mem _ ha)

variable {x : α}

theorem IsChain.insert {xs : List α} (hc : IsChain next prev h xs) (hnd : xs.Nodup)
    (hnh : next' h = some x) (hnx : next' x = next h) (hpx : prev' x = some h)
    (hn : ∀ a ∈ xs, next' a = next a) (hhead : ∀ a ∈ xs, next h = some a → prev' a = some x)
    (htail : ∀ a ∈ xs, next h ≠ some a → prev' a = prev a) :
    IsChain next' prev' h (x :: xs) := by
  refine ⟨hnh, hpx, ?_⟩
  cases xs with
  | nil => exact hnx.trans hc
  | cons y ys =>
    rw [List.nodup_cons] at hnd
    refine ⟨hnx.trans hc.1, hhead y (by simp) hc.1, hc.2.2.frame hn fun a ha => ?_⟩
    refine htail a (List.mem_cons_of_mem _ ha) ?_
    rw [hc.1]
    rintro ⟨⟩
    exact hnd.1 ha

variable {l r : List α}

theorem IsChain.prev_mem (hc : IsChain next prev h (l ++ x :: r)) :
    ∃ c ∈ h :: l, prev x = some c := by
  induction l generalizing h with
  | nil => exact ⟨h, by simp, hc.2.1⟩
  | cons b l ih =>
    obtain ⟨c, hcm, hcx⟩ := ih hc.2.2
    exact ⟨c, List.mem_cons_of_mem _ hcm, hcx⟩

theorem IsChain.next_of_append (hc : IsChain next prev h (l ++ x :: r)) : next x = r.head? := by
  induction l generalizing h with
  | nil => exact hc.2.2.next_eq_head?
  | cons b l ih => exact ih hc.2.2

theorem IsChain.middle {b : α} (hc : IsChain next prev b (l ++ x :: r))
    (hh : h ∉ b :: (l ++ x :: r)) (hnd : (b :: (l ++ x :: r)).Nodup) :
    prev x ≠ some h ∧ next x ≠ some b := by
  constructor
  · obtain ⟨c, hcm, hcx⟩ := hc.prev_mem
    rw [hcx]
    rintro ⟨⟩
    exact hh (by simp only [List.mem_cons, List.mem_append] at hcm ⊢; tauto)
  · -- `b` already occurs before `x`
    rw [hc.next_of_append]
    intro hbr
    have hbr' : b ∈ r := List.mem_of_mem_head? hbr
    exact (List.nodup_cons.mp hnd).1 (by simp [hbr'])

/-- A chain in which `x` gives way to `m`, if the new links are right between the two parts. -/
theorem IsChain.splice {m : List α} (hc : IsChain next prev h (l ++ x :: r))
    (hnd : (h :: (l ++ x :: r)).Nodup)
    (hno : ∀ a ∈ h :: (l ++ r), prev x ≠ some a → next' a = next a)
    (hpo : ∀ a ∈ l ++ r, next x ≠ some a → prev' a = prev a)
    (hm : ∀ c ∈ h :: (l ++ r), prev x = some c →
      (∀ y ys, r = y :: ys → next x = some y ∧ IsChain next' prev' y ys) →
      IsChain next' prev' c (m ++ r)) : IsChain next' prev' h (l ++ (m ++ r)) := by
  induction l generalizing h with
  | nil =>
    obtain ⟨-, hpx, hxr⟩ := hc
    refine hm h (by simp) hpx ?_
    rintro y ys rfl
    simp only [List.nil_append, List.nodup_cons, List.mem_cons] at hnd
    refine ⟨hxr.1, hxr.2.2.frame (fun a ha => hno a (by simp_all) ?_) fun a ha => ?_⟩
    · rw [hpx]
      rintro ⟨⟩
      exact hnd.1 (Or.inr (List.mem_cons.mp ha))
    · refine hpo a (by simp [ha]) ?_
      rw [hxr.1]
      rintro ⟨⟩
      exact hnd.2.2.1 ha
  | cons b l ih =>
    obtain ⟨hb, hpb, hrest⟩ := hc
    rw [List.cons_append, List.nodup_cons] at hnd
    obtain ⟨hch, hbx⟩ := hrest.middle hnd.1 hnd.2
    refine ⟨(hno h (by simp) hch).trans hb, (hpo b (by simp) hbx).trans hpb, ?_⟩
    refine ih hrest hnd.2 ?_ ?_ ?_
    · exact fun a ha => hno a (List.mem_cons_of_mem _ ha)
    · exact fun a ha => hpo a (List.mem_cons_of_mem _ ha)
    · exact fun c hcm => hm c (List.mem_cons_of_mem _ hcm)

/-- The element `m`, if there is one, takes the place of `x`. -/
theorem IsChain.exchange {m : Option α} (hc : IsChain next prev h (l ++ x :: r))
    (hnd : (h :: (l ++ x :: r)).Nodup)
    (hm : ∀ y ∈ m, next' y = next x ∧ prev' y = prev x)
    (hnp : ∀ a ∈ h :: (l ++ r), prev x = some a → next' a = m.or (next x))
    (hno : ∀ a ∈ h :: (l ++ r), prev x ≠ some a → next' a = next a)
    (hpn : ∀ a ∈ l ++ r, next x = some a → prev' a = m.or (prev x))
    (hpo : ∀ a ∈ l ++ r, next x ≠ some a → prev' a = prev a) :
    IsChain next' prev' h (l ++ (m.toList ++ r)) := by
  refine hc.splice hnd hno hpo fun c hmem hcx htail => ?_
  have hnc := hnp c hmem hcx
  have hr : ∀ d, next' d = next x → m.or (prev x) = some d → IsChain next' prev' d r := by
    intro d hd hmd
    cases r with
    | nil => exact hd.trans hc.next_of_append
    | cons y ys =>
      obtain ⟨hxy, hrest⟩ := htail y ys rfl
      exact ⟨hd.trans hxy, (hpn y (by simp) hxy).trans hmd, hrest⟩
  cases m with
  | none => exact hr c hnc hcx
  | some y =>
    obtain ⟨hny, hpy⟩ := hm y rfl
    exact ⟨hnc, hpy.trans hcx, hr y hny rfl⟩

/-! ### Families of lists -/

/-- The links thread the lists `L`, which have no common elements, behind the anchors `head`. -/
structure ListFamily {H N : Type*} (head : H → α) (node : N → α) (next : α → Option α)
    (prev : H → α → Option α) (L : H → List N) : Prop where
  chain : ∀ h, IsChain next (prev h) (head h) ((L h).map node)
  nodup : ∀ h, (L h).Nodup
  disjoint : ∀ h k n, n ∈ L h → n ∈ L k → h = k
  distinct : Injective (Sum.elim head node)

namespace ListFamily

variable {H N : Type*} {head : H → α} {node : N → α} {prev p : H → α → Option α}
  {s : α → Option α} {L : H → List N} {h k : H} {n : N} {a : α}

section

variable (ht : ListFamily head node next prev L)
include ht

theorem node_injective : Injective node := fun _ _ hab => Sum.inr.inj (ht.distinct hab)

theorem head_ne_node : head h ≠ node n := fun hab =>
  Sum.inl_ne_inr (ht.distinct (hab : Sum.elim head node (.inl h) = Sum.elim head node (.inr n)))

theorem mem_map : node n ∈ (L h).map node ↔ n ∈ L h := List.mem_map_of_injective ht.node_injective

theorem nodup_places : (head h :: (L h).map node).Nodup := by
  refine List.nodup_cons.mpr ⟨fun hmem => ?_, (ht.nodup h).map ht.node_injective⟩
  obtain ⟨n, -, hn⟩ := List.mem_map.mp hmem
  exact ht.head_ne_node hn.symm

theorem place_unique (hh : a ∈ head h :: (L h).map node) (hk : a ∈ head k :: (L k).map node) :
    h = k := by
  rcases List.mem_cons.mp hh with rfl | hh
  · rcases List.mem_cons.mp hk with hk | hk
    · exact Sum.inl.inj (ht.distinct hk)
    · obtain ⟨n, -, hn⟩ := List.mem_map.mp hk
      exact absurd hn.symm ht.head_ne_node
  · obtain ⟨n, hn, rfl⟩ := List.mem_map.mp hh
    rcases List.mem_cons.mp hk with hk | hk
    · exact absurd hk.symm ht.head_ne_node
    · exact ht.disjoint h k n hn (ht.mem_map.mp hk)

theorem mem_of_next_head (ha : next (head h) = some a) : a ∈ (L h).map node :=
  List.mem_of_mem_head? ((ht.chain h).next_eq_head?.symm.trans ha)

/-- The neighbours of an element are places of its list. -/
theorem linked (hn : n ∈ L h) : (next (node n) = some a → a ∈ (L h).map node) ∧
    (prev h (node n) = some a → a ∈ head h :: (L h).map node) := by
  obtain ⟨front, back, hsplit⟩ := List.append_of_mem hn
  have hc := ht.chain h
  rw [hsplit, List.map_append, List.map_cons] at hc ⊢
  constructor
  · intro ha
    have hmem := List.mem_of_mem_head? (hc.next_of_append.symm.trans ha)
    simp only [List.mem_append, List.mem_cons]
    exact Or.inr (Or.inr hmem)
  · intro ha
    obtain ⟨c, hcm, hcx⟩ := hc.prev_mem
    obtain rfl := Option.some.inj (hcx.symm.trans ha)
    simp only [List.mem_append, List.mem_cons] at hcm ⊢
    tauto

theorem apart (hn : n ∈ L h) (hk : k ≠ h) (ha : a ∈ head k :: (L k).map node) :
    a ≠ node n ∧ prev h (node n) ≠ some a ∧ next (node n) ≠ some a := by
  refine ⟨?_, fun hp => ?_, fun hx => ?_⟩
  · rintro rfl
    exact hk (ht.place_unique ha (List.mem_cons_of_mem _ (List.mem_map_of_mem hn)))
  · exact hk (ht.place_unique ha ((ht.linked hn).2 hp))
  · exact hk (ht.place_unique ha (List.mem_cons_of_mem _ ((ht.linked hn).1 hx)))

theorem notMem_of_split {front back : List N} (hsplit : L h = front ++ n :: back) :
    n ∉ front ∧ n ∉ back := by
  have hnd := ht.nodup h
  rw [hsplit] at hnd
  simpa using (List.nodup_middle.mp hnd).notMem

variable [DecidableEq H]

/-- One list is threaded anew, and the links of the others are kept. -/
theorem relink {xs : List N} (hchain : IsChain s (p h) (head h) (xs.map node))
    (hnd : xs.Nodup) (hnew : ∀ n ∈ xs, n ∈ L h ∨ ∀ k, n ∉ L k)
    (hframe : ∀ k ≠ h, ∀ a ∈ head k :: (L k).map node,
      s a = next a ∧ p k a = prev k a) :
    ListFamily head node s p (update L h xs) := by
  have hapart : ∀ {k n}, k ≠ h → n ∈ L k → n ∉ xs := by
    intro k n hk hn hx
    obtain hnew | hnew := hnew n hx
    · exact hk (ht.disjoint k h n hn hnew)
    · exact hnew k hn
  refine ⟨fun k => ?_, fun k => ?_, fun k k' n hn hn' => ?_, ht.distinct⟩
  · obtain rfl | hk := eq_or_ne k h
    · rwa [update_self]
    · rw [update_of_ne hk]
      exact (ht.chain k).frame (fun a ha => (hframe k hk a ha).1)
        fun a ha => (hframe k hk a (List.mem_cons_of_mem _ ha)).2
  · obtain rfl | hk := eq_or_ne k h
    · rwa [update_self]
    · rw [update_of_ne hk]
      exact ht.nodup k
  · obtain rfl | hk := eq_or_ne k h
    · obtain rfl | hk' := eq_or_ne k' k
      · rfl
      · rw [update_self] at hn
        rw [update_of_ne hk'] at hn'
        exact absurd hn (hapart hk' hn')
    · rw [update_of_ne hk] at hn
      obtain rfl | hk' := eq_or_ne k' h
      · rw [update_self] at hn'
        exact absurd hn' (hapart hk hn)
      · rw [update_of_ne hk'] at hn'
        exact ht.disjoint k k' n hn hn'

theorem insert (hn : ∀ k, n ∉ L k) (hnh : s (head h) = some (node n))
    (hnn : s (node n) = next (head h)) (hpn : p h (node n) = some (head h))
    (hno : ∀ a, a ≠ node n → a ≠ head h → s a = next a)
    (hpf : ∀ a, a ≠ node n → next (head h) = some a → p h a = some (node n))
    (hpo : ∀ k a, a ≠ node n → next (head h) ≠ some a → p k a = prev k a) :
    ListFamily head node s p (update L h (n :: L h)) := by
  have hne : ∀ {k a}, a ∈ (L k).map node → a ≠ node n := by
    rintro k _ ha rfl
    exact hn k (ht.mem_map.mp ha)
  refine ht.relink ?_ (List.nodup_cons.mpr ⟨hn h, ht.nodup h⟩) (fun m hm => ?_) fun k hk a ha => ?_
  · rw [List.map_cons]
    refine (ht.chain h).insert (List.nodup_cons.mp ht.nodup_places).2 hnh hnn hpn ?_ ?_ ?_
    · refine fun a ha => hno a (hne ha) ?_
      rintro rfl
      exact (List.nodup_cons.mp ht.nodup_places).1 ha
    · exact fun a ha => hpf a (hne ha)
    · exact fun a ha => hpo h a (hne ha)
  · obtain rfl | hm := List.mem_cons.mp hm
    · exact Or.inr hn
    · exact Or.inl hm
  · have han : a ≠ node n := by
      obtain rfl | ha := List.mem_cons.mp ha
      · exact ht.head_ne_node
      · exact hne ha
    refine ⟨hno a han ?_, hpo k a han fun hx => ?_⟩
    · rintro rfl
      exact hk (ht.place_unique ha List.mem_cons_self)
    · exact hk (ht.place_unique ha (List.mem_cons_of_mem _ (ht.mem_of_next_head hx)))

/-- The element `m`, if there is one, is in no list and takes the place of `n`. -/
theorem exchange {m : Option N} {front back : List N} (hsplit : L h = front ++ n :: back)
    (hm : ∀ y ∈ m, ∀ k, y ∉ L k)
    (hmn : ∀ y ∈ m, s (node y) = next (node n) ∧ p h (node y) = prev h (node n))
    (hnp : ∀ a, a ≠ node n → prev h (node n) = some a → s a = (m.map node).or (next (node n)))
    (hno : ∀ a, a ≠ node n → a ∉ m.map node → prev h (node n) ≠ some a → s a = next a)
    (hpn : ∀ a, a ≠ node n → next (node n) = some a → p h a = (m.map node).or (prev h (node n)))
    (hpo : ∀ k a, a ≠ node n → a ∉ m.map node → next (node n) ≠ some a → p k a = prev k a) :
    ListFamily head node s p (update L h (front ++ (m.toList ++ back))) := by
  have hmem : ∀ b ∈ front ++ back, b ∈ L h := by
    intro b hb
    simp only [hsplit, List.mem_append, List.mem_cons] at hb ⊢
    tauto
  have hn : n ∈ L h := by simp [hsplit]
  have hnew : ∀ {k a}, a ∈ head k :: (L k).map node → a ∉ m.map node := by
    intro k a ha hy
    obtain ⟨y, hmy, rfl⟩ := Option.map_eq_some_iff.mp hy
    obtain ha | ha := List.mem_cons.mp ha
    · exact ht.head_ne_node ha.symm
    · exact hm y hmy k (ht.mem_map.mp ha)
  refine ht.relink ?_ ?_ (fun b hb => ?_) fun k hk a ha => ?_
  · have hchain := ht.chain h
    have hnd := ht.nodup_places (h := h)
    obtain ⟨hfront, hback⟩ := ht.notMem_of_split hsplit
    have hne : ∀ a ∈ head h :: (front.map node ++ back.map node),
        a ≠ node n ∧ a ∉ m.map node := by
      refine fun a ha => ⟨?_, hnew (k := h) ?_⟩
      · rintro rfl
        simp [List.mem_map_of_injective ht.node_injective, hfront, hback, ht.head_ne_node.symm]
          at ha
      · simp only [hsplit, List.map_append, List.map_cons, List.mem_append, List.mem_cons] at ha ⊢
        tauto
    have hlist : (m.map node).toList = m.toList.map node := by cases m <;> rfl
    rw [List.map_append, List.map_append, ← hlist]
    rw [hsplit, List.map_append, List.map_cons] at hchain hnd
    refine hchain.exchange hnd (fun y hy => ?_) ?_ ?_ ?_ ?_
    · obtain ⟨y, hmy, rfl⟩ := Option.map_eq_some_iff.mp hy
      exact hmn y hmy
    · exact fun a ha => hnp a (hne a ha).1
    · exact fun a ha => hno a (hne a ha).1 (hne a ha).2
    · exact fun a ha => hpn a (hne a (List.mem_cons_of_mem _ ha)).1
    · intro a ha
      obtain ⟨han, ham⟩ := hne a (List.mem_cons_of_mem _ ha)
      exact hpo h a han ham
  · have hnd := ht.nodup h
    rw [hsplit] at hnd
    have hrest := (List.nodup_middle.mp hnd).of_cons
    cases m with
    | none => exact hrest
    | some y =>
      exact List.nodup_middle.mpr (List.nodup_cons.mpr ⟨fun hb => hm y rfl h (hmem y hb), hrest⟩)
  · simp only [List.mem_append, Option.mem_toList] at hb
    obtain hb | hb | hb := hb
    · exact Or.inl (hmem b (List.mem_append_left _ hb))
    · exact Or.inr (hm b hb)
    · exact Or.inl (hmem b (List.mem_append_right _ hb))
  · obtain ⟨han, hp, hx⟩ := ht.apart hn hk ha
    exact ⟨hno a han (hnew ha) hp, hpo k a han (hnew ha) hx⟩

omit [DecidableEq H] in
theorem erase_eq [DecidableEq N] {front back : List N} (hsplit : L h = front ++ n :: back) :
    (L h).erase n = front ++ back := by
  rw [hsplit, List.erase_append_right _ (ht.notMem_of_split hsplit).1, List.erase_cons_head]

end

end ListFamily

/-! ### Chains of words ended by zero -/

/-- The words at the addresses `xs` hold the next address each, and zero at the end. -/
def NullChain (m : ℕ → ℕ) : List ℕ → Prop
  | [] => True
  | a :: xs => m a = xs.head?.getD 0 ∧ NullChain m xs

variable {m m' : ℕ → ℕ} {a : ℕ} {xs : List ℕ}

theorem NullChain.frame (hc : NullChain m xs) (hm : ∀ x ∈ xs, m' x = m x) : NullChain m' xs := by
  induction xs with
  | nil => trivial
  | cons x xs ih =>
    refine ⟨(hm x List.mem_cons_self).trans hc.1, ih hc.2 fun y hy => ?_⟩
    exact hm y (List.mem_cons_of_mem x hy)

theorem NullChain.push (hc : NullChain m xs) (ha : a ∉ xs) :
    NullChain (update m a (xs.head?.getD 0)) (a :: xs) := by
  refine ⟨update_self _ _ _, hc.frame fun x hx => ?_⟩
  have hne : x ≠ a := fun h => ha (h ▸ hx)
  exact update_of_ne hne _ _

end LinkedChain
