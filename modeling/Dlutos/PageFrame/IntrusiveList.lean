import Dlutos.Foundation.LinkedChain

/-!
# The intrusive list crate

`crates/intrusive_list` stores doubly linked lists in `Link` fields of the listed objects.  A
`LinkRef` names the anchor of a list, or the link field of an object; a `LinkMem` is the contents of
all links.
-/

namespace Dlutos

open LinkedChain Function

/-- The place of a link: the anchor of a list, or the link field of an object. -/
inductive LinkRef (H N : Type) where
  | head (h : H)
  | node (n : N)
  deriving DecidableEq

structure Link (α : Type) where
  prev : Option α := none
  next : Option α := none

abbrev LinkMem (H N : Type) := LinkRef H N → Link (LinkRef H N)

section Pointers

variable {H N : Type} [DecidableEq H] [DecidableEq N]

/-- Write the predecessor pointer of one link. -/
def LinkMem.setPrev (m : LinkMem H N) (a : LinkRef H N) (v : Option (LinkRef H N)) : LinkMem H N :=
  update m a { m a with prev := v }

/-- Write the successor pointer of one link. -/
def LinkMem.setNext (m : LinkMem H N) (a : LinkRef H N) (v : Option (LinkRef H N)) : LinkMem H N :=
  update m a { m a with next := v }

def Link.insert (m : LinkMem H N) (self node : LinkRef H N) : LinkMem H N :=
  let m₁ := match (m self).next with
    | some nx => m.setPrev nx (some node)
    | none => m
  let m₂ := m₁.setNext node (m₁ self).next
  let m₃ := m₂.setPrev node (some self)
  m₃.setNext self (some node)

def Link.remove (m : LinkMem H N) (self : LinkRef H N) : LinkMem H N :=
  let m₁ := match (m self).next with
    | some nx => m.setPrev nx (m self).prev
    | none => m
  let m₂ := match (m₁ self).prev with
    | some pv => m₁.setNext pv (m₁ self).next
    | none => m₁
  (m₂.setPrev self none).setNext self none

/-- The object a link is embedded in (`container_of!`); an anchor is embedded in no object. -/
def LinkRef.container : LinkRef H N → Option N
  | .head _ => none
  | .node n => some n

/-! ### The effect of the pointer writes -/

section

variable (m : LinkMem H N) (a b : LinkRef H N) (v : Option (LinkRef H N))
include m a b v

@[simp] theorem LinkMem.setPrev_next : (m.setPrev a v b).next = (m b).next := by
  unfold LinkMem.setPrev
  by_cases h : b = a <;> simp [h]

@[simp] theorem LinkMem.setNext_prev : (m.setNext a v b).prev = (m b).prev := by
  unfold LinkMem.setNext
  by_cases h : b = a <;> simp [h]

@[simp] theorem LinkMem.setPrev_prev :
    (m.setPrev a v b).prev = if b = a then v else (m b).prev := by
  unfold LinkMem.setPrev
  by_cases h : b = a <;> simp [h]

@[simp] theorem LinkMem.setNext_next :
    (m.setNext a v b).next = if b = a then v else (m b).next := by
  unfold LinkMem.setNext
  by_cases h : b = a <;> simp [h]

end

theorem Link.insert_next (m : LinkMem H N) (self node a : LinkRef H N) :
    (Link.insert m self node a).next =
      if a = self then some node else if a = node then (m self).next else (m a).next := by
  unfold Link.insert
  cases hnx : (m self).next with
  | none => simp [hnx]
  | some nx => simp [hnx]

theorem Link.insert_prev (m : LinkMem H N) (self node a : LinkRef H N) :
    (Link.insert m self node a).prev =
      if a = node then some self
      else if (m self).next = some a then some node else (m a).prev := by
  unfold Link.insert
  cases hnx : (m self).next with
  | none => simp
  | some nx =>
    by_cases ha : nx = a
    · simp [ha]
    · simp [ha, Ne.symm ha]

theorem Link.remove_next (m : LinkMem H N) {self : LinkRef H N}
    (hself : (m self).next ≠ some self) (a : LinkRef H N) :
    (Link.remove m self a).next =
      if a = self then none
      else if (m self).prev = some a then (m self).next else (m a).next := by
  unfold Link.remove
  have hcase : ∀ m1 : LinkMem H N, (∀ b, (m1 b).next = (m b).next) →
      (m1 self).prev = (m self).prev →
      ((((match (m1 self).prev with
        | some pv => m1.setNext pv (m1 self).next
        | none => m1).setPrev self none).setNext self none) a).next =
      if a = self then none
      else if (m self).prev = some a then (m self).next else (m a).next := by
    intro m1 hn hp
    rw [hp]
    cases hpv : (m self).prev with
    | none => simp [hn]
    | some pv =>
      by_cases ha : pv = a
      · simp [ha, hn]
      · simp [ha, Ne.symm ha, hn]
  cases hnx : (m self).next with
  | none => simpa [hnx] using hcase m (fun _ => rfl) rfl
  | some nx =>
    have hne : self ≠ nx := by rintro rfl; exact hself hnx
    simpa [hnx] using hcase (m.setPrev nx (m self).prev) (by simp) (by simp [hne])

theorem Link.remove_prev (m : LinkMem H N) (self a : LinkRef H N) :
    (Link.remove m self a).prev =
      if a = self then none
      else if (m self).next = some a then (m self).prev else (m a).prev := by
  unfold Link.remove
  cases hnx : (m self).next with
  | none => split <;> simp
  | some nx =>
    by_cases ha : nx = a
    · split <;> simp [ha]
    · split <;> simp [ha, Ne.symm ha]

end Pointers

/-! ### Represented families of lists -/

section Families

variable {H N : Type}

/-- The links thread the list `L h` behind every anchor `h`, and no object is on two lists. -/
structure Represents (m : LinkMem H N) (L : H → List N) : Prop where
  chain : ∀ h, IsChain (fun a => (m a).next) (fun a => (m a).prev) (.head h) ((L h).map .node)
  nodup : ∀ h, (L h).Nodup
  disjoint : ∀ h k n, n ∈ L h → n ∈ L k → h = k

theorem Represents.empty : Represents (fun _ => {} : LinkMem H N) fun _ => [] where
  chain _ := rfl
  nodup _ := List.nodup_nil
  disjoint _ _ _ h := absurd h List.not_mem_nil

variable {m : LinkMem H N} {L : H → List N}

theorem Represents.next_head (hr : Represents m L) (h : H) :
    (m (.head h)).next = (L h).head?.map .node := by
  rw [← List.head?_map]
  exact (hr.chain h).next_eq_head?

theorem Represents.unique {L' : H → List N} (hr : Represents m L) (hr' : Represents m L') :
    L = L' := by
  funext h
  have hmap := (hr.chain h).unique (hr'.chain h)
  exact List.map_injective_iff.mpr (fun a b hab => LinkRef.node.inj hab) hmap

theorem Represents.family (hr : Represents m L) :
    ListFamily LinkRef.head LinkRef.node (fun a => (m a).next) (fun _ a => (m a).prev) L where
  chain := hr.chain
  nodup := hr.nodup
  disjoint := hr.disjoint
  distinct := by rintro (a | a) (b | b) ⟨⟩ <;> rfl

variable [DecidableEq H] [DecidableEq N]

omit [DecidableEq N] in
theorem mem_update_cons {h k : H} {n a : N} :
    a ∈ update L h (n :: L h) k ↔ (k = h ∧ a = n) ∨ a ∈ L k := by
  by_cases hk : k = h
  · subst hk
    simp
  · simp [hk]

theorem Represents.mem_update_erase (hr : Represents m L) {h k : H} {n a : N} (hn : n ∈ L h) :
    a ∈ update L h ((L h).erase n) k ↔ a ∈ L k ∧ a ≠ n := by
  by_cases hk : k = h
  · subst hk
    rw [update_self, (hr.nodup k).mem_erase_iff, and_comm]
  · rw [update_of_ne hk]
    refine ⟨fun ha => ⟨ha, ?_⟩, fun ha => ha.1⟩
    rintro rfl
    exact hk (hr.disjoint k h a ha hn)

theorem Represents.insert (hr : Represents m L) {h : H} {n : N} (hn : ∀ k, n ∉ L k) :
    Represents (Link.insert m (.head h) (.node n)) (update L h (n :: L h)) := by
  have hf := hr.family.insert (h := h) (s := fun a => (Link.insert m (.head h) (.node n) a).next)
    (p := fun _ a => (Link.insert m (.head h) (.node n) a).prev) hn
    (by simp [Link.insert_next]) (by simp [Link.insert_next]) (by simp [Link.insert_prev])
    (fun a ha hh => by simp [Link.insert_next, ha, hh])
    (fun a ha hf => by simp [Link.insert_prev, ha, hf])
    fun _ a ha hf => by simp [Link.insert_prev, ha, hf]
  exact ⟨hf.chain, hf.nodup, hf.disjoint⟩

theorem Represents.remove (hr : Represents m L) {h : H} {n : N} (hn : n ∈ L h) :
    Represents (Link.remove m (.node n)) (update L h ((L h).erase n)) := by
  obtain ⟨front, back, hsplit⟩ := List.append_of_mem hn
  have hself : (m (.node n)).next ≠ some (.node n) := by
    have hc := hr.chain h
    rw [hsplit, List.map_append, List.map_cons] at hc
    rw [hc.next_of_append]
    intro hm
    have hmem := List.mem_of_mem_head? hm
    rw [List.mem_map_of_injective hr.family.node_injective] at hmem
    exact (hr.family.notMem_of_split hsplit).2 hmem
  have hf := hr.family.exchange (m := none) (s := fun a => (Link.remove m (.node n) a).next)
    (p := fun _ a => (Link.remove m (.node n) a).prev) hsplit nofun nofun
    (fun a ha hp => by simp [Link.remove_next m hself, ha, hp])
    (fun a ha _ hp => by simp [Link.remove_next m hself, ha, hp])
    (fun a ha hx => by simp [Link.remove_prev, ha, hx])
    fun _ a ha _ hx => by simp [Link.remove_prev, ha, hx]
  rw [hr.family.erase_eq hsplit]
  exact ⟨hf.chain, hf.nodup, hf.disjoint⟩

end Families

end Dlutos
