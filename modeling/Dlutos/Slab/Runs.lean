import Dlutos.Foundation.Transition
import Dlutos.Slab.Operations

/-!
# Runs of the slab allocator

The kernel heap as a system: its users allocate layouts of at most 2048 bytes, write into their
objects and give them back in any order.
-/

namespace Dlutos

open LinkedChain Transition

namespace Slab

open Heap SlabCache SlabAllocator

inductive Op where
  /-- `alloc`; `page` is the frame the source of pages hands out, if it is asked. -/
  | alloc (layout : Layout) (page : PFN)
  | dealloc (ptr : ℕ) (layout : Layout)
  | store (addr : ℕ) (value : ℕ)

/-- Users give back what they got and write only into their objects; the pages handed out are not in
use. -/
def Allowed (t : State) : Op → Prop
  | .alloc layout page => layout.size ≤ 2048 ∧ ¬ IsSlab t.heap page ∧ InDirectMap page ∧
    ∀ L, t.heap.array.Threads L → ∀ h, page ∉ L h
  | .dealloc ptr layout => (ptr, layout) ∈ t.live
  | .store addr _ => ∃ b ∈ t.live, b.1 ≤ addr ∧ addr < b.1 + objectSize (cacheOf b.2)

def run (t : State) : Op → Except Panic State
  | .alloc layout page =>
    match Allocator.alloc t.heap layout page with
    | .error e => .error e
    | .ok (ptr, heap) => .ok ⟨heap, (ptr, layout) :: t.live⟩
  | .dealloc ptr layout =>
    match Allocator.dealloc t.heap ptr layout with
    | .error e => .error e
    | .ok heap => .ok ⟨heap, t.live.filter fun b => b.1 ≠ ptr⟩
  | .store addr value =>
    .ok { t with heap := { t.heap with mem := Function.update t.heap.mem addr value } }

/-- Initially the caches are empty; the other lists and the memory are arbitrary. -/
def system : System State Op Panic where
  init t := t.live = [] ∧ (∀ p, ¬ IsSlab t.heap p) ∧
    ∃ L, t.heap.array.Threads L ∧ ∀ idx kind, L (.slab idx kind) = []
  allowed := Allowed
  run := run

/-- Integrity of the heap, in terms of the lists `L` that the links thread and the chains `F` of
free slots. -/
structure Integrity (t : State) (L : ListHead → List PFN) (F : PFN → List ℕ) : Prop where
  threads : t.heap.array.Threads L
  object : ∀ b ∈ t.live, b.2.size ≤ objectSize (cacheOf b.2) ∧ objectSize (cacheOf b.2) ∣ b.1 ∧
    ∃ p, IsSlab t.heap p ∧ realPagePtr p ≤ b.1 ∧
      b.1 + objectSize (cacheOf b.2) ≤ realPagePtr p + PAGE_SIZE
  disjoint : t.live.Pairwise fun b c => b.1 + objectSize (cacheOf b.2) ≤ c.1 ∨
    c.1 + objectSize (cacheOf c.2) ≤ b.1
  listed : ∀ p, IsSlab t.heap p ↔ ∃! l : ℕ × SlabList, p ∈ L (.slab l.1 l.2)
  /-- The header of a page on a list holds the head of its chain; the chain and the objects fill the
  page, and the list fits. -/
  header : ∀ idx kind, ∀ p ∈ L (.slab idx kind),
    ∃ count, (t.heap.array.pages p).sharedData = .slab count (F p).head? ∧
      count + (F p).length = PAGE_SIZE / objectSize idx ∧ Fits kind count (F p)
  chain : ∀ idx kind, ∀ p ∈ L (.slab idx kind), NullChain t.heap.mem (F p) ∧ (F p).Nodup
  free : ∀ idx kind, ∀ p ∈ L (.slab idx kind), ∀ a, a ∈ F p ↔
    (∃ j < PAGE_SIZE / objectSize idx, a = realPagePtr p + j * objectSize idx) ∧
      a ∉ t.live.map Prod.fst

section

variable {t : State} {L : ListHead → List PFN} {F : PFN → List ℕ} (h : SlabInv t L F)
include h

theorem SlabInv.objects_apart {b c : ℕ × Layout} (hb : b ∈ t.live) (hc : c ∈ t.live)
    (hne : b.1 ≠ c.1) :
    b.1 + objectSize (cacheOf b.2) ≤ c.1 ∨ c.1 + objectSize (cacheOf c.2) ≤ b.1 := by
  obtain ⟨hsb, kb, p, hp, hslotb⟩ := h.object b hb
  obtain ⟨hsc, kc, q, hq, hslotc⟩ := h.object c hc
  have hbb := hslotb.bounds (cacheOf_spec hsb).2.1
  have hbc := hslotc.bounds (cacheOf_spec hsc).2.1
  by_cases hpq : p = q
  · subst hpq
    have heq := h.repr.disjoint _ _ p hp hq
    injection heq with hi _
    rw [hi] at hslotb ⊢
    exact hslotb.apart hslotc hne
  · have hpages : realPagePtr p + PAGE_SIZE ≤ realPagePtr q ∨
        realPagePtr q + PAGE_SIZE ≤ realPagePtr p := by
      rcases Nat.lt_or_gt_of_ne hpq with hlt | hlt
      · left
        exact realPagePtr_add_le hlt
      · right
        exact realPagePtr_add_le hlt
    omega

theorem SlabInv.integrity : Integrity t L F where
  threads := h.toThreads
  object b hb := by
    obtain ⟨hsize, k, p, hp, hslot⟩ := h.object b hb
    obtain ⟨-, hidx, hfit⟩ := cacheOf_spec hsize
    exact ⟨hfit, hslot.dvd hidx, p, (h.slabs p).mpr ⟨_, k, hp⟩, hslot.bounds hidx⟩
  disjoint := by
    have hpair : t.live.Pairwise fun b c => b.1 ≠ c.1 := List.pairwise_map.mp h.nodup
    exact hpair.imp_of_mem fun hb hc hne => h.objects_apart hb hc hne
  listed p := by
    rw [h.slabs p]
    constructor
    · rintro ⟨idx, kind, hp⟩
      refine ⟨(idx, kind), hp, fun l hl => ?_⟩
      have heq := h.repr.disjoint _ _ p hl hp
      injection heq with hi hk
      exact Prod.ext hi hk
    · rintro ⟨l, hl, -⟩
      exact ⟨l.1, l.2, hl⟩
  header idx kind p hp := (h.page idx kind p hp).data
  chain idx kind p hp := ⟨(h.page idx kind p hp).chain, (h.page idx kind p hp).nodup⟩
  free idx kind p hp := (h.page idx kind p hp).slots

end

theorem inv_init (t : State) (ht : system.init t) : ∃ L F, SlabInv t L F := by
  obtain ⟨hlive, hslab, L, hthreads, hempty⟩ := ht
  refine ⟨L, fun _ => [], hthreads, fun idx kind p hp => ?_, fun b hb => ?_, ?_, fun p => ?_⟩
  · rw [hempty] at hp
    exact absurd hp List.not_mem_nil
  · rw [hlive] at hb
    exact absurd hb List.not_mem_nil
  · rw [hlive]
    exact List.nodup_nil
  · refine iff_of_false (hslab p) ?_
    rintro ⟨idx, kind, hp⟩
    rw [hempty] at hp
    exact List.not_mem_nil hp

theorem inv_step (t : State) (op : Op) (ht : ∃ L F, SlabInv t L F) (hop : Allowed t op) :
    ∃ t', run t op = .ok t' ∧ ∃ L F, SlabInv t' L F := by
  obtain ⟨L, F, h⟩ := ht
  cases op with
  | alloc layout page =>
    obtain ⟨hsize, hnew, hmap, hunlisted⟩ := hop
    obtain ⟨a, t', hrun, hinv⟩ := h.alloc hsize hnew hmap (hunlisted L h.toThreads)
    exact ⟨⟨t', (a, layout) :: t.live⟩, by rw [run, hrun], hinv⟩
  | dealloc ptr layout =>
    obtain ⟨t', hrun, hinv⟩ := h.dealloc hop
    exact ⟨⟨t', t.live.filter fun b => b.1 ≠ ptr⟩, by rw [run, hrun], hinv⟩
  | store addr value =>
    obtain ⟨b, hb, hlo, hhi⟩ := hop
    exact ⟨_, rfl, L, F, h.store hb hlo hhi value⟩

/-- In every run objects, lists and chains have their integrity after every step, and no assertion
fires. -/
theorem integrity_of_reachable_heap (t : State) (ht : system.Reachable t) :
    (∃ L F, Integrity t L F) ∧ ∀ op, Allowed t op → ∃ t', run t op = .ok t' := by
  obtain ⟨⟨L, F, hinv⟩, hsafe⟩ := System.Reachable.safe inv_init inv_step ht
  exact ⟨⟨L, F, hinv.integrity⟩, hsafe⟩

/-- The heap before the first allocation. -/
def emptyHeap : Heap := ⟨emptyArray fun _ => true, fun _ => 0⟩

/-- An object of the largest class is allocated, written to and given back. -/
theorem integrity_after_round_trip :
    ∃ t, system.Reachable t ∧ t.live = [] ∧
      (t.heap.array.links (.head (.slab 8 .emptyList))).next = some (.node 5) ∧
      (∃ L F, Integrity t L F) ∧ ∀ op, Allowed t op → ∃ t', run t op = .ok t' := by
  have hslab : ∀ p, ¬ IsSlab emptyHeap p := by
    rintro p ⟨_, _, h⟩
    cases h
  have hthreads : emptyHeap.array.Threads fun _ => [] := threads_emptyArray _
  have h0 : system.Reachable ⟨emptyHeap, []⟩ := .of_init ⟨rfl, hslab, _, hthreads, fun _ _ => rfl⟩
  have h1 := h0.next (.alloc ⟨1500, 8⟩ 5) ⟨by decide, hslab 5, by decide, fun L hL h hp => by
    rw [hL.repr.unique hthreads.repr] at hp
    exact List.not_mem_nil hp⟩
  have h3 := h1.after [.store (realPagePtr 5) 7, .dealloc (realPagePtr 5) ⟨1500, 8⟩]
    ⟨⟨(realPagePtr 5, ⟨1500, 8⟩), List.mem_cons_self, by decide, by decide⟩, List.mem_cons_self,
     trivial⟩
  exact ⟨_, h3, rfl, rfl, integrity_of_reachable_heap _ h3⟩

end Slab

end Dlutos
