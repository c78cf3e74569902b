import Mathlib.Data.List.Perm.Subperm
import Mathlib.Tactic.IntervalCases
import Dlutos.Slab.Cache

/-!
# The invariant of the slab allocator

`PageOk` relates a page on a list of a cache to the chain of its free slots: the header holds the
head of the chain, the words of the free slots thread it, its members are the slots that hold no
live object, and the list fits the number of objects.  Every operation changes a single page, and
`SlabInv.repage` is the rule for such a change.
-/

namespace Dlutos

open LinkedChain MachineWord

namespace Slab

open Heap SlabCache SlabAllocator

/-! ### Slots -/

def slotCount (idx : ℕ) : ℕ := PAGE_SIZE / objectSize idx

def IsSlot (idx : ℕ) (p : PFN) (a : ℕ) : Prop :=
  ∃ j < slotCount idx, a = realPagePtr p + j * objectSize idx

/-- The address `a` lies in the page `p`. -/
def InPage (p : PFN) (a : ℕ) : Prop := realPagePtr p ≤ a ∧ a < realPagePtr p + PAGE_SIZE

/-- The page lies in the direct map, below the mapping of the kernel image. -/
def InDirectMap (p : PFN) : Prop := (p + 1) * PAGE_SIZE ≤ KIMAGE_OFFSET - PHYS_MAP_VIRT

instance (p : PFN) : Decidable (InDirectMap p) := inferInstanceAs (Decidable (_ ≤ _))

theorem slotCount_mul : ∀ idx < SLAB_CACHE_COUNT, slotCount idx * objectSize idx = PAGE_SIZE := by
  decide

theorem slot_bounds : ∀ idx < SLAB_CACHE_COUNT, 2 ≤ slotCount idx ∧ 8 ≤ objectSize idx ∧
    objectSize idx % 8 = 0 := by
  decide

variable {idx : ℕ} {p q : PFN} {a b : ℕ}

theorem objectSize_pos (idx : ℕ) : 0 < objectSize idx := by
  rw [objectSize, Nat.shiftLeft_eq, one_mul]
  exact Nat.two_pow_pos _

section

variable (hidx : idx < SLAB_CACHE_COUNT) (ha : IsSlot idx p a)
include hidx ha

theorem IsSlot.bounds : realPagePtr p ≤ a ∧ a + objectSize idx ≤ realPagePtr p + PAGE_SIZE := by
  obtain ⟨j, hj, rfl⟩ := ha
  refine ⟨Nat.le_add_right _ _, ?_⟩
  have hle : (j + 1) * objectSize idx ≤ slotCount idx * objectSize idx :=
    Nat.mul_le_mul_right _ hj
  rw [slotCount_mul idx hidx, Nat.add_mul, one_mul] at hle
  omega

theorem IsSlot.inPage : InPage p a := by
  have hb := ha.bounds hidx
  have hpos := objectSize_pos idx
  exact ⟨hb.1, by omega⟩

theorem IsSlot.dvd : objectSize idx ∣ a := by
  obtain ⟨j, -, rfl⟩ := ha
  have hpage : objectSize idx ∣ PAGE_SIZE := Dvd.intro_left _ (slotCount_mul idx hidx)
  have hbase : PAGE_SIZE ∣ realPagePtr p := by
    refine Nat.dvd_add ?_ (Nat.dvd_mul_left _ _)
    decide
  exact Nat.dvd_add (hpage.trans hbase) (Nat.dvd_mul_left _ _)

end

theorem IsSlot.apart (ha : IsSlot idx p a) (hb : IsSlot idx p b) (hne : a ≠ b) :
    a + objectSize idx ≤ b ∨ b + objectSize idx ≤ a := by
  obtain ⟨i, -, rfl⟩ := ha
  obtain ⟨j, -, rfl⟩ := hb
  have hij : i ≠ j := fun h => hne (by rw [h])
  rcases Nat.lt_or_gt_of_ne hij with h | h
  · have := Nat.mul_le_mul_right (objectSize idx) (Nat.succ_le_of_lt h)
    rw [Nat.succ_eq_add_one, Nat.add_mul, one_mul] at this
    left
    omega
  · have := Nat.mul_le_mul_right (objectSize idx) (Nat.succ_le_of_lt h)
    rw [Nat.succ_eq_add_one, Nat.add_mul, one_mul] at this
    right
    omega

theorem InPage.unique {p q : ℕ} (hp : InPage p a) (hq : InPage q a) : p = q := by
  unfold InPage realPagePtr physAsPtr PAGE_SIZE at hp hq
  omega

theorem realPagePtr_add_le {p q : ℕ} (h : p < q) : realPagePtr p + PAGE_SIZE ≤ realPagePtr q := by
  unfold realPagePtr physAsPtr PAGE_SIZE
  omega

theorem inWhich_of_inPage {p : ℕ} (hmap : InDirectMap p) (ha : InPage p a) :
    inWhich a = .ok p := by
  have hbase : PHYS_MAP_VIRT ≤ a ∧ a < KIMAGE_OFFSET := by
    have hmap : (p + 1) * 4096 ≤ 0xff_0000_0000 := hmap
    unfold InPage realPagePtr physAsPtr PAGE_SIZE at ha
    unfold KIMAGE_OFFSET PHYS_MAP_VIRT at *
    omega
  have hshift : (a - PHYS_MAP_VIRT) >>> PAGE_SIZE_BITS = p := by
    rw [Nat.shiftRight_eq_div_pow]
    unfold InPage realPagePtr physAsPtr PAGE_SIZE at ha
    unfold PAGE_SIZE_BITS
    omega
  unfold inWhich physFromPtr
  rw [if_neg (Nat.not_le.mpr hbase.2), if_pos hbase.1]
  exact congrArg Except.ok hshift

theorem InPage.pos (ha : InPage p a) : 0 < a := by
  have hpos : 0 < realPagePtr p := Nat.lt_of_lt_of_le (by decide) (Nat.le_add_right PHYS_MAP_VIRT _)
  exact hpos.trans_le ha.1

def slots (idx : ℕ) (p : PFN) : List ℕ :=
  (List.range (slotCount idx)).map fun j => realPagePtr p + j * objectSize idx

theorem mem_slots : a ∈ slots idx p ↔ IsSlot idx p a := by
  simp only [slots, List.mem_map, List.mem_range, IsSlot, eq_comm]

theorem length_slots (idx : ℕ) (p : PFN) : (slots idx p).length = slotCount idx := by
  simp [slots]

theorem nodup_slots (idx : ℕ) (p : PFN) : (slots idx p).Nodup := by
  refine List.Nodup.map (fun i j h => ?_) List.nodup_range
  exact Nat.eq_of_mul_eq_mul_right (objectSize_pos idx) (Nat.add_left_cancel h)

/-! ### Pages -/

/-- The list a page with `count` objects and the free slots `free` belongs to. -/
def Fits : SlabList → ℕ → List ℕ → Prop
  | .emptyList, count, _ => count = 0
  | .partialList, count, free => count ≠ 0 ∧ free ≠ []
  | .fullList, _, free => free = []

/-- The page `p` is a page of the cache `idx` on the list `kind`, with the chain `free` of free
slots; `live` are the addresses of live objects. -/
structure PageOk (t : Heap) (live : ℕ → Prop) (idx : ℕ) (kind : SlabList) (p : PFN)
    (free : List ℕ) : Prop where
  cache : idx < SLAB_CACHE_COUNT
  mapped : InDirectMap p
  data : ∃ count, (t.array.pages p).sharedData = .slab count free.head? ∧
    count + free.length = slotCount idx ∧ Fits kind count free
  chain : NullChain t.mem free
  nodup : free.Nodup
  slots : ∀ a, a ∈ free ↔ IsSlot idx p a ∧ ¬ live a

theorem PageOk.congr {t t' : Heap} {live live' : ℕ → Prop} {kind : SlabList} {free : List ℕ}
    (h : PageOk t live idx kind p free)
    (hdata : (t'.array.pages p).sharedData = (t.array.pages p).sharedData)
    (hmem : ∀ a, InPage p a → t'.mem a = t.mem a)
    (hlive : ∀ a, InPage p a → (live' a ↔ live a)) : PageOk t' live' idx kind p free where
  cache := h.cache
  mapped := h.mapped
  data := by
    rw [hdata]
    exact h.data
  chain := h.chain.frame fun a ha => hmem a (((h.slots a).mp ha).1.inPage h.cache)
  nodup := h.nodup
  slots a := by
    rw [h.slots a]
    exact and_congr_right fun hs => not_congr (hlive a (hs.inPage h.cache)).symm

/-! ### Objects -/

structure State where
  heap : Heap
  live : List (ℕ × Layout)

/-- There is a live object at the address. -/
def State.IsLive (t : State) (a : ℕ) : Prop := a ∈ t.live.map Prod.fst

def cacheOf (layout : Layout) : ℕ := cacheIndex (nextPowerOfTwo layout.size)

def IsSlab (t : Heap) (p : PFN) : Prop := ∃ count next, (t.array.pages p).sharedData = .slab count next

theorem cacheOf_spec {layout : Layout} (h : layout.size ≤ 2048) :
    nextPowerOfTwo layout.size ≤ 2048 ∧ cacheOf layout < SLAB_CACHE_COUNT ∧
      layout.size ≤ objectSize (cacheOf layout) := by
  obtain ⟨k, hk, hle, hmin⟩ := exists_nextPowerOfTwo_eq layout.size
  have hk11 : k ≤ 11 := hmin 11 h
  have hmax : max 8 (2 ^ k) = 2 ^ max 3 k := by
    rcases le_total 3 k with h3 | h3
    · rw [max_eq_right h3]
      exact max_eq_right (Nat.pow_le_pow_right Nat.two_pos h3)
    · rw [max_eq_left h3]
      exact max_eq_left (Nat.pow_le_pow_right Nat.two_pos h3)
  have hindex : cacheOf layout = max 3 k - 3 := by
    rw [cacheOf, cacheIndex, hk, hmax, nextPowerOfTwo_two_pow, trailingZeros_two_pow (by omega)]
  refine ⟨?_, ?_, ?_⟩
  · rw [hk]
    exact Nat.pow_le_pow_right Nat.two_pos hk11
  · rw [hindex]
    unfold SLAB_CACHE_COUNT
    omega
  · rw [hindex, objectSize, Nat.sub_add_cancel (le_max_left 3 k), Nat.shiftLeft_eq, one_mul]
    exact hle.trans (Nat.pow_le_pow_right Nat.two_pos (le_max_right 3 k))

/-- The invariant of the runs, over the lists `L` that the links thread and the chains `F` of free
slots. -/
structure SlabInv (t : State) (L : ListHead → List PFN) (F : PFN → List ℕ) : Prop
    extends t.heap.array.Threads L where
  page : ∀ idx kind p, p ∈ L (.slab idx kind) → PageOk t.heap t.IsLive idx kind p (F p)
  object : ∀ b ∈ t.live, b.2.size ≤ 2048 ∧
    ∃ kind p, p ∈ L (.slab (cacheOf b.2) kind) ∧ IsSlot (cacheOf b.2) p b.1
  nodup : (t.live.map Prod.fst).Nodup
  slabs : ∀ p, IsSlab t.heap p ↔ ∃ idx kind, p ∈ L (.slab idx kind)

/-- The page `p` was put on the list `kind` of the cache `idx`; the other pages stay. -/
def Placed (L L' : ListHead → List PFN) (p : PFN) (idx : ℕ) (kind : SlabList) : Prop :=
  ∀ i k x, x ∈ L' (.slab i k) ↔
    (x = p ∧ i = idx ∧ k = kind) ∨ (x ≠ p ∧ x ∈ L (.slab i k))

theorem SlabInv.repage {t t' : State} {L L' : ListHead → List PFN} {F : PFN → List ℕ}
    (h : SlabInv t L F) {kind : SlabList} {free : List ℕ} (hthreads : t'.heap.array.Threads L')
    (hpage : PageOk t'.heap t'.IsLive idx kind p free)
    (hdata : ∀ x, x ≠ p →
      (t'.heap.array.pages x).sharedData = (t.heap.array.pages x).sharedData)
    (hmem : ∀ a, ¬ InPage p a → t'.heap.mem a = t.heap.mem a)
    (hlive : ∀ a, ¬ InPage p a → (t'.IsLive a ↔ t.IsLive a))
    (hold : ∀ i k, p ∈ L (.slab i k) → i = idx)
    (hlists : Placed L L' p idx kind)
    (hobject : ∀ b ∈ t'.live, b ∈ t.live ∨
      (b.2.size ≤ 2048 ∧ cacheOf b.2 = idx ∧ IsSlot idx p b.1))
    (hnodup : (t'.live.map Prod.fst).Nodup) : SlabInv t' L' (Function.update F p free) := by
  refine ⟨hthreads, fun i k x hx => ?_, fun b hb => ?_, hnodup, fun x => ?_⟩
  · rcases (hlists i k x).mp hx with ⟨rfl, rfl, rfl⟩ | ⟨hne, hx⟩
    · rw [Function.update_self]
      exact hpage
    · rw [Function.update_of_ne hne]
      refine (h.page i k x hx).congr (hdata x hne) (fun a ha => hmem a fun hp => hne ?_)
        fun a ha => hlive a fun hp => hne ?_
      · exact ha.unique hp
      · exact ha.unique hp
  · rcases hobject b hb with hb | ⟨hsize, hcache, hslot⟩
    · obtain ⟨hsize, k, x, hx, hslot⟩ := h.object b hb
      refine ⟨hsize, ?_⟩
      by_cases hxp : x = p
      · subst hxp
        have hi := hold _ _ hx
        exact ⟨kind, x, (hlists _ _ _).mpr (Or.inl ⟨rfl, hi, rfl⟩), hslot⟩
      · exact ⟨k, x, (hlists _ _ _).mpr (Or.inr ⟨hxp, hx⟩), hslot⟩
    · refine ⟨hsize, kind, p, (hlists _ _ _).mpr (Or.inl ⟨rfl, hcache, rfl⟩), ?_⟩
      rw [hcache]
      exact hslot
  · by_cases hxp : x = p
    · subst hxp
      obtain ⟨c, hc, -⟩ := hpage.data
      refine iff_of_true ⟨c, _, hc⟩ ⟨idx, kind, (hlists _ _ _).mpr (Or.inl ⟨rfl, rfl, rfl⟩)⟩
    · unfold IsSlab
      rw [hdata x hxp]
      refine (h.slabs x).trans (exists_congr fun i => exists_congr fun k => ?_)
      rw [hlists]
      simp [hxp]

end Slab

end Dlutos
