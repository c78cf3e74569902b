import Mathlib.Data.Finset.Card
import Dlutos.Foundation.LinkedChain

/-!
# Lists threaded through the nodes' own pointers

`Links` is the memory of a family of `RCUList`s that share one set of nodes: the head pointers of
all lists, and the two pointers of every node.  `insert`, `remove` and `iter` are those of the
kernel, pointer write by pointer write.  A null pointer is `none`.
-/

namespace Dlutos.Vfs

open LinkedChain Function

structure Links where
  /-- The first node of a list. -/
  head : ℕ → Option ℕ
  /-- The `prev` pointer of a node, null at the front of a list. -/
  prev : ℕ → Option ℕ
  /-- The `next` pointer of a node. -/
  next : ℕ → Option ℕ

namespace Links

def empty : Links where
  head _ := none
  prev _ := none
  next _ := none

/-- Put the node `x` in front of the list `b`. -/
def insert (l : Links) (b x : ℕ) : Links :=
  let oldHead := l.head b
  let prev := update l.prev x none
  { head := update l.head b (some x)
    prev := match oldHead with
      | some h => update prev h (some x)
      | none => prev
    next := update l.next x oldHead }

/-- Take the node `x` out of the list `b`; a node without predecessor stands for the head. -/
def remove (l : Links) (b x : ℕ) : Links :=
  let prev := l.prev x
  let next := l.next x
  { head := match prev with
      | some _ => l.head
      | none => update l.head b next
    prev := match next with
      | some n => update (update l.prev n prev) x none
      | none => update l.prev x none
    next := match prev with
      | some p => update (update l.next p next) x none
      | none => update l.next x none }

/-- Put the node `y` in the place of the node `x` of the list `b`. -/
def replace (l : Links) (b x y : ℕ) : Links :=
  let prev := l.prev x
  let next := l.next x
  { head := match prev with
      | some _ => l.head
      | none => update l.head b (some y)
    prev := match next with
      | some n => update (update (update l.prev y prev) n (some y)) x none
      | none => update (update l.prev y prev) x none
    next := match prev with
      | some p => update (update (update l.next y next) p (some y)) x none
      | none => update (update l.next y next) x none }

/-- The nodes met from the pointer `cur` on, at most `fuel` of them. -/
def iterFrom (l : Links) : ℕ → Option ℕ → List ℕ
  | 0, _ => []
  | _ + 1, none => []
  | fuel + 1, some x => x :: iterFrom l fuel (l.next x)

/-- The nodes of the list `b`, at most `fuel` of them. -/
def iter (l : Links) (fuel b : ℕ) : List ℕ := iterFrom l fuel (l.head b)

/-! ### The lists a memory represents -/

/-- A place that holds a pointer to a node: the head of a list or a node. -/
inductive Place where
  | head (b : ℕ)
  | node (x : ℕ)

def linkNext (l : Links) : Place → Option Place
  | .head b => (l.head b).map .node
  | .node x => (l.next x).map .node

def linkPrev (l : Links) (b : ℕ) : Place → Option Place
  | .head _ => none
  | .node x => some (match l.prev x with
    | some p => .node p
    | none => .head b)

variable {l : Links} {L : ℕ → List ℕ} {b x : ℕ}

/-- The memory threads the lists `L`, which share no node, and the pointers of all other nodes are
null. -/
structure Represents (l : Links) (L : ℕ → List ℕ) : Prop where
  /-- The pointers of a list thread its nodes in order. -/
  chain (b : ℕ) : IsChain l.linkNext (l.linkPrev b) (.head b) ((L b).map .node)
  /-- No list meets a node twice. -/
  nodup (b : ℕ) : (L b).Nodup
  /-- No node is in two lists. -/
  disjoint {b b' x : ℕ} (hx : x ∈ L b) (hx' : x ∈ L b') : b = b'
  /-- A node in no list has null pointers. -/
  off {x : ℕ} (hx : ∀ b, x ∉ L b) : l.prev x = none ∧ l.next x = none

private theorem node_injective : Injective Place.node := fun _ _ h => Place.node.inj h

theorem Represents.empty : Represents Links.empty fun _ => [] :=
  ⟨fun _ => rfl, fun _ => List.nodup_nil, fun h _ => absurd h List.not_mem_nil,
    fun _ => ⟨rfl, rfl⟩⟩

theorem Represents.head_eq (hl : Represents l L) (b : ℕ) : l.head b = (L b).head? := by
  have hhead : (l.head b).map Place.node = ((L b).map Place.node).head? :=
    (hl.chain b).next_eq_head?
  rw [List.head?_map] at hhead
  exact Option.map_injective node_injective hhead

theorem Represents.family (hl : Represents l L) :
    ListFamily Place.head Place.node l.linkNext l.linkPrev L where
  chain := hl.chain
  nodup := hl.nodup
  disjoint _ _ _ := hl.disjoint
  distinct := by rintro (a | a) (b | b) ⟨⟩ <;> rfl

variable {y : ℕ} {a : Place}

theorem Represents.iter_eq (hl : Represents l L) {fuel : ℕ} (hfuel : (L b).length ≤ fuel) :
    l.iter fuel b = L b := by
  -- the chain behind any place determines what is met from the pointer stored there
  have key : ∀ (xs : List ℕ) (p : Place) (cur : Option ℕ) (fuel : ℕ), xs.length ≤ fuel →
      IsChain l.linkNext (l.linkPrev b) p (xs.map .node) → l.linkNext p = cur.map .node →
      l.iterFrom fuel cur = xs := by
    intro xs
    induction xs with
    | nil =>
      intro p cur fuel _ hc hp
      have hcur : cur = none := Option.map_eq_none_iff.mp (hp.symm.trans hc)
      cases fuel <;> simp [iterFrom, hcur]
    | cons x xs ih =>
      intro p cur fuel hlen hc hp
      obtain ⟨y, hy, hyx⟩ := Option.map_eq_some_iff.mp (hp.symm.trans hc.1)
      obtain rfl := node_injective hyx
      obtain _ | fuel := fuel
      · simp at hlen
      · rw [hy, iterFrom, ih (.node y) (l.next y) fuel (by simpa using hlen) hc.2.2 rfl]
  exact key (L b) (.head b) (l.head b) fuel hfuel (hl.chain b) rfl

theorem Represents.length_le (hl : Represents l L) {n : ℕ} (hn : ∀ y ∈ L b, y < n) :
    (L b).length ≤ n := by
  have hsub : (L b).toFinset ⊆ Finset.range n := by
    intro y hy
    exact Finset.mem_range.mpr (hn y (List.mem_toFinset.mp hy))
  have hcard := Finset.card_le_card hsub
  rwa [Finset.card_range, List.toFinset_card_of_nodup (hl.nodup b)] at hcard

/-! ### Inserting and removing -/

theorem off_iff : l.prev x = none ∧ l.next x = none ↔
    l.linkPrev b (.node x) = some (.head b) ∧ l.linkNext (.node x) = none := by
  cases hp : l.prev x <;> simp [linkPrev, linkNext, hp]

theorem linkNext_insert (hx : a ≠ .node x) (hb : a ≠ .head b) :
    (l.insert b x).linkNext a = l.linkNext a := by
  cases a with
  | head c =>
    have hc : c ≠ b := fun h => hb (h ▸ rfl)
    simp [linkNext, Links.insert, hc]
  | node y =>
    have hy : y ≠ x := fun h => hx (h ▸ rfl)
    simp [linkNext, Links.insert, hy]

theorem linkPrev_insert (c : ℕ) (hx : a ≠ .node x) (hb : l.linkNext (.head b) ≠ some a) :
    (l.insert b x).linkPrev c a = l.linkPrev c a := by
  cases a with
  | head _ => rfl
  | node y =>
    have hy : y ≠ x := fun h => hx (h ▸ rfl)
    cases ho : l.head b with
    | none => simp [linkPrev, Links.insert, ho, hy]
    | some h =>
      have hyh : y ≠ h := by
        rintro rfl
        exact hb (by simp [linkNext, ho])
      simp [linkPrev, Links.insert, ho, hy, hyh]

theorem Represents.insert (hl : Represents l L) (hx : ∀ c, x ∉ L c) :
    Represents (l.insert b x) (update L b (x :: L b)) := by
  have hfirst : ∀ {a}, l.linkNext (.head b) = some a → a ≠ .node x := by
    rintro _ ha rfl
    exact hx b (hl.family.mem_map.mp (hl.family.mem_of_next_head ha))
  have hf := hl.family.insert (h := b) (s := (l.insert b x).linkNext)
    (p := (l.insert b x).linkPrev) hx (by simp [linkNext, Links.insert])
    (by simp [linkNext, Links.insert]) ?_ (fun a => linkNext_insert) ?_
    fun c a => linkPrev_insert c
  · refine ⟨hf.chain, hf.nodup, @fun b c x => hf.disjoint b c x, fun {z} hz => ?_⟩
    have hzx : Place.node z ≠ .node x := by
      rintro ⟨⟩
      simpa using hz b
    have hz' : ∀ c, z ∉ L c := by
      intro c hzc
      obtain rfl | hc := eq_or_ne c b
      · exact hz c (by simp [hzc])
      · exact hz c (by simpa [hc] using hzc)
    rw [off_iff (b := b), linkPrev_insert b hzx, linkNext_insert hzx nofun]
    · exact off_iff.mp (hl.off hz')
    · exact fun h => hz' b (hl.family.mem_map.mp (hl.family.mem_of_next_head h))
  · cases ho : l.head b with
    | none => simp [linkPrev, Links.insert, ho]
    | some h =>
      have hxh : x ≠ h := by
        rintro rfl
        exact hfirst (by simp [linkNext, ho]) rfl
      simp [linkPrev, Links.insert, ho, hxh]
  · rintro a - ha
    obtain ⟨z, hz, rfl⟩ := Option.map_eq_some_iff.mp ha
    simp [linkPrev, Links.insert, hz]

theorem Represents.unlinked (hl : Represents l L) {z : ℕ} (hx : x ∈ L b) (hz : z ∉ L b) :
    l.linkPrev b (.node x) ≠ some (.node z) ∧ l.linkNext (.node x) ≠ some (.node z) := by
  refine ⟨fun h => hz ?_, fun h => hz ?_⟩
  · simpa using (hl.family.linked hx).2 h
  · simpa using (hl.family.linked hx).1 h

/-- The node `m`, if there is one, stands in the place of the node `x` of the list `b`. -/
structure Exchanged (l l' : Links) (b x : ℕ) (m : Option ℕ) : Prop where
  old : l'.prev x = none ∧ l'.next x = none
  new : ∀ y ∈ m, l'.next y = l.next x ∧ l'.prev y = l.prev x
  next (a : Place) (ha : a ≠ .node x) :
    (l.linkPrev b (.node x) = some a → l'.linkNext a = (m.map .node).or (l.linkNext (.node x))) ∧
      (a ∉ m.map .node → l.linkPrev b (.node x) ≠ some a → l'.linkNext a = l.linkNext a)
  prev (c : ℕ) (a : Place) (ha : a ≠ .node x) :
    (l.linkNext (.node x) = some a → l'.linkPrev c a = (m.map .node).or (l.linkPrev c (.node x))) ∧
      (a ∉ m.map .node → l.linkNext (.node x) ≠ some a → l'.linkPrev c a = l.linkPrev c a)

theorem Represents.exchange {l' : Links} {m : Option ℕ} {front back : List ℕ}
    (hl : Represents l L) (hsplit : L b = front ++ x :: back) (hm : ∀ y ∈ m, ∀ c, y ∉ L c)
    (he : Exchanged l l' b x m) : Represents l' (update L b (front ++ (m.toList ++ back))) := by
  have hf := hl.family.exchange (s := l'.linkNext) (p := l'.linkPrev) hsplit hm
    (fun y hy => by simp only [linkNext, linkPrev, he.new y hy, and_self])
    (fun a ha => (he.next a ha).1) (fun a ha => (he.next a ha).2) (fun a ha => (he.prev b a ha).1)
    fun c a ha => (he.prev c a ha).2
  refine ⟨hf.chain, hf.nodup, @fun b c x => hf.disjoint b c x, fun {z} hz => ?_⟩
  obtain rfl | hzx := eq_or_ne z x
  · exact he.old
  · have hzb := hz b
    simp only [update_self, List.mem_append, Option.mem_toList, not_or] at hzb
    have hz' : ∀ c, z ∉ L c := by
      intro c hzc
      obtain rfl | hc := eq_or_ne c b
      · simp [hsplit, hzx, hzb] at hzc
      · exact hz c (by simpa [hc] using hzc)
    obtain ⟨hp, hn⟩ := hl.unlinked (x := x) (by simp [hsplit]) (hz' b)
    have hax : Place.node z ≠ .node x := fun h => hzx (node_injective h)
    have ham : Place.node z ∉ m.map .node := by simpa using hzb.2.1
    rw [off_iff (b := b), (he.prev b _ hax).2 ham hn, (he.next _ hax).2 ham hp]
    exact off_iff.mp (hl.off hz')

theorem exchanged_remove : Exchanged l (l.remove b x) b x none := by
  refine ⟨?_, nofun, fun a ha => ?_, fun c a ha => ?_⟩
  · cases hp : l.prev x <;> cases hn : l.next x <;> simp [Links.remove, hp, hn]
  · cases hp : l.prev x <;> cases a <;>
      simp only [linkPrev, linkNext, Links.remove, hp, update_apply] <;> grind
  · cases hn : l.next x <;> cases a <;>
      simp only [linkPrev, linkNext, Links.remove, hn, update_apply] <;> grind

theorem Represents.remove (hl : Represents l L) (hx : x ∈ L b) :
    Represents (l.remove b x) (update L b ((L b).erase x)) := by
  obtain ⟨front, back, hsplit⟩ := List.append_of_mem hx
  rw [hl.family.erase_eq hsplit]
  exact hl.exchange (m := none) hsplit nofun exchanged_remove

/-- The list with one node put in the place of another. -/
def substitute (x y : ℕ) (xs : List ℕ) : List ℕ := xs.map fun z => if z = x then y else z

theorem substitute_of_notMem (y : ℕ) {xs : List ℕ} (h : x ∉ xs) : substitute x y xs = xs := by
  have hsame : ∀ z ∈ xs, (if z = x then y else z) = id z := fun z hz =>
    if_neg fun he : z = x => h (he ▸ hz)
  rw [substitute, List.map_congr_left hsame, List.map_id]

theorem substitute_append (y : ℕ) {front back : List ℕ} (hfront : x ∉ front) (hback : x ∉ back) :
    substitute x y (front ++ x :: back) = front ++ y :: back := by
  have h : substitute x y (front ++ x :: back) =
      substitute x y front ++ y :: substitute x y back := by simp [substitute]
  rw [h, substitute_of_notMem y hfront, substitute_of_notMem y hback]

theorem mem_substitute {z : ℕ} {xs : List ℕ} (hx : x ∈ xs) :
    z ∈ substitute x y xs ↔ z = y ∨ z ∈ xs ∧ z ≠ x := by
  simp only [substitute, List.mem_map]
  constructor
  · rintro ⟨w, hw, rfl⟩
    split_ifs with h
    · exact Or.inl rfl
    · exact Or.inr ⟨hw, h⟩
  · rintro (rfl | ⟨hz, hne⟩)
    · exact ⟨x, hx, if_pos rfl⟩
    · exact ⟨z, hz, if_neg hne⟩

theorem exchanged_replace (hyx : y ≠ x) (hpy : l.linkPrev b (.node x) ≠ some (.node y))
    (hny : l.linkNext (.node x) ≠ some (.node y)) :
    Exchanged l (l.replace b x y) b x (some y) := by
  refine ⟨?_, ?_, fun a ha => ?_, fun c a ha => ?_⟩
  · cases hp : l.prev x <;> cases hn : l.next x <;> simp [Links.replace, hp, hn]
  · cases hp : l.prev x <;> cases hn : l.next x <;>
      simp only [linkPrev, linkNext, Links.replace, hp, hn, update_apply] at hpy hny ⊢ <;> grind
  · cases hp : l.prev x <;> cases a <;>
      simp only [linkPrev, linkNext, Links.replace, hp, update_apply] <;> grind
  · cases hn : l.next x <;> cases a <;>
      simp only [linkPrev, linkNext, Links.replace, hn, update_apply] <;> grind

theorem Represents.replace (hl : Represents l L) (hx : x ∈ L b) (hy : ∀ c, y ∉ L c) :
    Represents (l.replace b x y) (update L b (substitute x y (L b))) := by
  obtain ⟨front, back, hsplit⟩ := List.append_of_mem hx
  obtain ⟨hfront, hback⟩ := hl.family.notMem_of_split hsplit
  obtain ⟨hpy, hny⟩ := hl.unlinked hx (hy b)
  have hyx : y ≠ x := fun h => hy b (h ▸ hx)
  rw [hsplit, substitute_append y hfront hback]
  refine hl.exchange (m := some y) hsplit ?_ (exchanged_replace hyx hpy hny)
  rintro _ ⟨⟩
  exact hy

end Links

end Dlutos.Vfs
