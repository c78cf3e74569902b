import Dlutos.Slab.Invariant

/-!
# What the operations of the slab allocator do

Allocation takes the first free slot of a partial page, of an empty page or of a new page;
deallocation puts the slot back in front of the chain of its page.  Both may move the page to
another list.  One theorem for each of the two operations: it returns, without panic, a heap that
has the invariant of `Dlutos.Slab.Invariant` again.
-/

namespace Dlutos

open LinkedChain MachineWord Function

namespace Slab

open Heap SlabCache SlabAllocator

variable {t : Heap} {live : ℕ → Prop} {idx : ℕ} {kind : SlabList} {p : PFN} {a : ℕ}
  {rest : List ℕ} {L : ListHead → List PFN} {F : PFN → List ℕ}

/-! ### Lists -/

section

variable (hs : t.array.Threads L)
include hs

theorem placed_self (hp : p ∈ L (.slab idx kind)) : Placed L L p idx kind := by
  intro i k x
  constructor
  · intro hx
    by_cases hxp : x = p
    · subst hxp
      have heq := hs.repr.disjoint _ _ x hx hp
      injection heq with hi hk
      exact Or.inl ⟨rfl, hi, hk⟩
    · exact Or.inr ⟨hxp, hx⟩
  · rintro (⟨rfl, rfl, rfl⟩ | ⟨-, hx⟩)
    · exact hp
    · exact hx

theorem threads_moveList (hp : p ∈ L (.slab idx kind)) (dst : SlabList) :
    ∃ L', (t.moveList idx kind dst p).array.Threads L' ∧ Placed L L' p idx dst := by
  have hmem : ∀ h x, x ∈ update L (.slab idx kind) ((L (.slab idx kind)).erase p) h ↔
      x ∈ L h ∧ x ≠ p := fun h x => hs.repr.mem_update_erase hp
  refine ⟨_, (hs.listRemove hp).listInsert (.slab idx dst) fun j hj => ((hmem j p).mp hj).2 rfl,
    fun i k x => ?_⟩
  rw [mem_update_cons, hmem, ListHead.slab.injEq]
  tauto

theorem threads_insert (hp : ∀ h, p ∉ L h) (idx : ℕ) (kind : SlabList) :
    ∃ L', (t.array.listInsert (.slab idx kind) p).Threads L' ∧ Placed L L' p idx kind := by
  refine ⟨_, hs.listInsert (.slab idx kind) hp, fun i k x => ?_⟩
  rw [mem_update_cons, ListHead.slab.injEq]
  constructor
  · rintro (⟨⟨hi, hk⟩, hx⟩ | hx)
    · exact Or.inl ⟨hx, hi, hk⟩
    · exact Or.inr ⟨fun h => hp _ (h ▸ hx), hx⟩
  · rintro (⟨hx, hi, hk⟩ | ⟨-, hx⟩)
    · exact Or.inl ⟨⟨hi, hk⟩, hx⟩
    · exact Or.inr hx

theorem firstPage_of_count {h : ListHead} (hc : t.array.count h ≠ 0) :
    ∃ p, p ∈ L h ∧ t.firstPage h = .ok p := by
  rw [hs.count h] at hc
  unfold Heap.firstPage
  rw [hs.listHead h]
  cases hl : L h with
  | nil =>
    rw [hl] at hc
    exact absurd rfl hc
  | cons p l => exact ⟨p, List.mem_cons_self, rfl⟩

end

/-! ### Allocation -/

theorem PageOk.allocSlot (h : PageOk t live idx kind p (a :: rest)) :
    ∃ count, t.allocSlot p = .ok (a, t.setSlabData p (count + 1) rest.head?) ∧
      count + 1 + rest.length = slotCount idx := by
  obtain ⟨count, hdata, hcount, -⟩ := h.data
  have hnext : nonNull (t.mem a) = rest.head? := by
    rw [h.chain.1]
    cases rest with
    | nil => rfl
    | cons b rest =>
      have hb := ((h.slots b).mp (by simp)).1.inPage h.cache
      exact if_neg hb.pos.ne'
  refine ⟨count, ?_, ?_⟩
  · unfold Heap.allocSlot slabData
    rw [hdata, ← hnext]
    rfl
  · rw [List.length_cons] at hcount
    omega

variable {t' : Heap} {live' : ℕ → Prop}

theorem PageOk.alloc {count : ℕ} (h : PageOk t live idx kind p (a :: rest)) (kind' : SlabList)
    (hdata : (t'.array.pages p).sharedData = .slab count rest.head?) (hmem : t'.mem = t.mem)
    (hcount : count + rest.length = slotCount idx) (hfits : Fits kind' count rest)
    (hlive' : ∀ x, live' x ↔ x = a ∨ live x) : PageOk t' live' idx kind' p rest := by
  have hnd := List.nodup_cons.mp h.nodup
  refine ⟨h.cache, h.mapped, ⟨count, hdata, hcount, hfits⟩, by rw [hmem]; exact h.chain.2, hnd.2,
    fun x => ?_⟩
  rw [hlive', not_or]
  refine ⟨fun hx => ?_, fun hx => ?_⟩
  · obtain ⟨hslot, hfree⟩ := (h.slots x).mp (List.mem_cons_of_mem a hx)
    exact ⟨hslot, fun hxa => hnd.1 (hxa ▸ hx), hfree⟩
  · exact (List.mem_cons.mp ((h.slots x).mpr ⟨hx.1, hx.2.2⟩)).resolve_left hx.2.1

theorem PageOk.two_le_length (h : PageOk t live idx .emptyList p rest) : 2 ≤ rest.length := by
  obtain ⟨count, -, hcount, hfits⟩ := h.data
  have hzero : count = 0 := hfits
  have hslots := (slot_bounds idx h.cache).1
  omega

theorem SlabInv.cache_eq {t : State} (h : SlabInv t L F) (hp : p ∈ L (.slab idx kind)) (i : ℕ)
    (k : SlabList) (hk : p ∈ L (.slab i k)) : i = idx := by
  have heq := h.repr.disjoint _ _ p hk hp
  injection heq

theorem setSlabData_pages_of_ne (t : Heap) {x : PFN} (hx : x ≠ p) (count : ℕ) (next : Option ℕ) :
    (t.setSlabData p count next).array.pages x = t.array.pages x :=
  t.array.modify_pages_of_ne (fun r => { r with sharedData := .slab count next }) hx

theorem setSlabData_sharedData (t : Heap) (p : PFN) (count : ℕ) (next : Option ℕ) :
    ((t.setSlabData p count next).array.pages p).sharedData = .slab count next := by
  unfold setSlabData
  rw [PageArray.modify_pages_self]

theorem threads_setSlabData (hs : t.array.Threads L) (p : PFN) (count : ℕ) (next : Option ℕ) :
    (t.setSlabData p count next).array.Threads L :=
  ⟨hs.repr, hs.count⟩

variable {layout : Layout}

section

variable {t : State} (h : SlabInv t L F) (hsize : layout.size ≤ 2048)
include h hsize

/-- The first free slot of a page is handed out, whichever list the page is on afterwards. -/
theorem SlabInv.takeSlot {free : List ℕ} (hpage : PageOk t' t.IsLive (cacheOf layout) kind p free)
    (hfree : free ≠ []) (hthreads : t'.array.Threads L)
    (hdata : ∀ x, x ≠ p → (t'.array.pages x).sharedData = (t.heap.array.pages x).sharedData)
    (hmem : ∀ x, ¬ InPage p x → t'.mem x = t.heap.mem x)
    (hold : ∀ i k, p ∈ L (.slab i k) → i = cacheOf layout) :
    ∃ a rest t2, free = a :: rest ∧ t'.allocSlot p = .ok (a, t2) ∧ t2.array.Threads L ∧
      t2.isFull p = .ok rest.isEmpty ∧ ∀ {t3 : Heap} {L' : ListHead → List PFN} (kind' : SlabList),
        t3.array.Threads L' → t3.array.pages = t2.array.pages → t3.mem = t2.mem →
        (∀ count, count ≠ 0 → Fits kind' count rest) → Placed L L' p (cacheOf layout) kind' →
        ∃ L' F', SlabInv ⟨t3, (a, layout) :: t.live⟩ L' F' := by
  obtain ⟨a, rest, rfl⟩ := List.exists_cons_of_ne_nil hfree
  obtain ⟨count, hrun, hcount⟩ := hpage.allocSlot
  obtain ⟨hslot, hnew⟩ := (hpage.slots a).mp List.mem_cons_self
  refine ⟨a, rest, _, rfl, hrun, threads_setSlabData hthreads p (count + 1) rest.head?, ?_, ?_⟩
  · unfold Heap.isFull slabData
    rw [setSlabData_sharedData]
    cases rest <;> rfl
  intro t3 L' kind' hthreads' hpages hmem' hfits hlists
  have hlive : ∀ x, State.IsLive ⟨t3, (a, layout) :: t.live⟩ x ↔ x = a ∨ t.IsLive x :=
    fun x => List.mem_cons
  refine ⟨L', _, h.repage hthreads' (hpage.alloc kind' ?_ hmem' hcount
    (hfits _ (Nat.succ_ne_zero _)) hlive) (fun x hx => ?_) (fun x hx => ?_) (fun x hx => ?_) hold
    hlists (fun b hb => ?_) (List.nodup_cons.mpr ⟨hnew, h.nodup⟩)⟩
  · rw [hpages]
    exact setSlabData_sharedData _ _ _ _
  · rw [hpages, setSlabData_pages_of_ne _ hx]
    exact hdata x hx
  · rw [hmem']
    exact hmem x hx
  · rw [hlive]
    have hne : x ≠ a := fun hxa => hx (hxa ▸ hslot.inPage hpage.cache)
    exact or_iff_right hne
  · rcases List.mem_cons.mp hb with rfl | hb
    · exact Or.inr ⟨hsize, rfl, hslot⟩
    · exact Or.inl hb

theorem SlabInv.allocPartial (hc : t.heap.array.count (.slab (cacheOf layout) .partialList) ≠ 0) :
    ∃ a t', SlabCache.allocPartial t.heap (cacheOf layout) = .ok (a, t') ∧
      ∃ L' F', SlabInv ⟨t', (a, layout) :: t.live⟩ L' F' := by
  obtain ⟨p, hp, hfirst⟩ := firstPage_of_count h.toThreads hc
  have hpage := h.page _ _ p hp
  obtain ⟨count, -, -, hfits⟩ := hpage.data
  obtain ⟨a, rest, t2, -, hslot, hthreads, hfull, hout⟩ := h.takeSlot hsize hpage hfits.2
    h.toThreads (fun _ _ => rfl) (fun _ _ => rfl) (h.cache_eq hp)
  unfold SlabCache.allocPartial
  rw [hfirst]
  dsimp only
  rw [hslot]
  dsimp only
  rw [hfull]
  cases rest with
  | nil =>
    obtain ⟨L', hthreads', hlists⟩ := threads_moveList hthreads hp .fullList
    exact ⟨a, _, rfl, hout .fullList hthreads' rfl rfl (fun _ _ => rfl) hlists⟩
  | cons b rest =>
    exact ⟨a, _, rfl, hout .partialList hthreads rfl rfl
      (fun _ hcount => ⟨hcount, List.cons_ne_nil _ _⟩) (placed_self h.toThreads hp)⟩

theorem SlabInv.allocEmpty (hc : t.heap.array.count (.slab (cacheOf layout) .emptyList) ≠ 0) :
    ∃ a t', SlabCache.allocEmpty t.heap (cacheOf layout) = .ok (a, t') ∧
      ∃ L' F', SlabInv ⟨t', (a, layout) :: t.live⟩ L' F' := by
  obtain ⟨p, hp, hfirst⟩ := firstPage_of_count h.toThreads hc
  have hpage := h.page _ _ p hp
  have hlen := hpage.two_le_length
  obtain ⟨a, rest, t2, hF, hslot, hthreads, -, hout⟩ := h.takeSlot hsize hpage
    (List.ne_nil_of_length_pos (by omega)) h.toThreads (fun _ _ => rfl) (fun _ _ => rfl)
    (h.cache_eq hp)
  rw [hF, List.length_cons] at hlen
  obtain ⟨L', hthreads', hlists⟩ := threads_moveList hthreads hp .partialList
  unfold SlabCache.allocEmpty
  rw [hfirst]
  dsimp only
  rw [hslot]
  exact ⟨a, _, rfl, hout .partialList hthreads' rfl rfl
    (fun _ hcount => ⟨hcount, List.ne_nil_of_length_pos (by omega)⟩) hlists⟩

end

private theorem range_slots (size n slot : ℕ) :
    (List.range (n + 2)).map (fun j => slot + j * size) =
      slot :: (List.range (n + 1)).map fun j => slot + size + j * size := by
  rw [List.range_succ_eq_map, List.map_cons, List.map_map, zero_mul, Nat.add_zero]
  refine congrArg _ (List.map_congr_left fun j _ => ?_)
  simp only [Function.comp_apply, Nat.succ_eq_add_one]
  ring

theorem slabPageInitLoop_of_not_mem {size : ℕ} (n : ℕ) :
    ∀ {slot : ℕ} {m : ℕ → ℕ} {x : ℕ}, x ∉ (List.range (n + 1)).map (fun j => slot + j * size) →
      slabPageInitLoop size n slot m x = m x := by
  induction n with
  | zero =>
    intro slot m x hx
    have hne : x ≠ slot := by simpa using hx
    exact update_of_ne hne _ _
  | succ n ih =>
    intro slot m x hx
    rw [range_slots, List.mem_cons, not_or] at hx
    rw [slabPageInitLoop, ih hx.2, update_of_ne hx.1]

theorem nullChain_slabPageInitLoop {size : ℕ} (hsize : 0 < size) (n : ℕ) :
    ∀ {slot : ℕ} {m : ℕ → ℕ}, NullChain (slabPageInitLoop size n slot m)
      ((List.range (n + 1)).map fun j => slot + j * size) := by
  induction n with
  | zero =>
    intro slot m
    refine ⟨?_, trivial⟩
    simp [slabPageInitLoop]
  | succ n ih =>
    intro slot m
    rw [range_slots]
    refine ⟨?_, ih⟩
    rw [slabPageInitLoop, slabPageInitLoop_of_not_mem n, update_self]
    · simp [List.range_succ_eq_map]
    · intro hm
      obtain ⟨j, -, hj⟩ := List.mem_map.mp hm
      omega

theorem pageOk_init (hidx : idx < SLAB_CACHE_COUNT) (hmap : InDirectMap p)
    (hnone : ∀ x, InPage p x → ¬ live x) :
    ∃ t', t.slabPageInit p (objectSize idx) = .ok (some (realPagePtr p), t') ∧
      t'.array = t.array ∧ (∀ x, ¬ InPage p x → t'.mem x = t.mem x) ∧
      PageOk (t'.setSlabData p 0 (some (realPagePtr p))) live idx .emptyList p (slots idx p) := by
  have hb := slot_bounds idx hidx
  obtain ⟨n, hn⟩ : ∃ n, slotCount idx = n + 1 := ⟨slotCount idx - 1, by omega⟩
  have hslots : slots idx p =
      (List.range (n + 1)).map fun j => realPagePtr p + j * objectSize idx := by
    rw [slots, hn]
  have hpos : 0 < realPagePtr p := Nat.lt_of_lt_of_le (by decide) (Nat.le_add_right PHYS_MAP_VIRT _)
  have hinit : t.slabPageInit p (objectSize idx) = .ok (some (realPagePtr p),
      { t with mem := slabPageInitLoop (objectSize idx) n (realPagePtr p) t.mem }) := by
    unfold slabPageInit
    rw [if_pos hb.2.1, show PAGE_SIZE / objectSize idx = n + 1 from hn, Nat.add_sub_cancel,
      nonNull, if_neg hpos.ne']
  refine ⟨_, hinit, rfl, fun x hx => ?_, hidx, hmap, ⟨0, ?_, ?_, rfl⟩, ?_, nodup_slots idx p,
    fun x => ?_⟩
  · refine slabPageInitLoop_of_not_mem n fun hm => hx ?_
    rw [← hslots, mem_slots] at hm
    exact hm.inPage hidx
  · rw [setSlabData_sharedData, hslots, List.range_succ_eq_map]
    simp
  · rw [length_slots, Nat.zero_add]
  · rw [hslots]
    exact nullChain_slabPageInitLoop (objectSize_pos idx) n
  · rw [mem_slots]
    exact ⟨fun hs => ⟨hs, hnone x (hs.inPage hidx)⟩, fun hs => hs.1⟩

theorem SlabInv.not_live_of_not_slab {t : State} (h : SlabInv t L F) (hp : ¬ IsSlab t.heap p)
    {x : ℕ} (hx : InPage p x) : ¬ t.IsLive x := by
  intro hlive
  obtain ⟨b, hb, rfl⟩ := List.mem_map.mp hlive
  obtain ⟨hsize, k, q, hq, hslot⟩ := h.object b hb
  obtain rfl : p = q := hx.unique (hslot.inPage (cacheOf_spec hsize).2.1)
  exact hp ((h.slabs p).mpr ⟨_, k, hq⟩)

section

variable {t : State} (h : SlabInv t L F) (hsize : layout.size ≤ 2048) (hnew : ¬ IsSlab t.heap p)
  (hmap : InDirectMap p)
include h hsize hnew hmap

theorem SlabInv.allocNew (hunlisted : ∀ j, p ∉ L j) :
    ∃ a t', SlabCache.allocNew t.heap (cacheOf layout) p = .ok (a, t') ∧
      ∃ L' F', SlabInv ⟨t', (a, layout) :: t.live⟩ L' F' := by
  have hnone : ∀ x, InPage p x → ¬ t.IsLive x := fun x => h.not_live_of_not_slab hnew
  obtain ⟨t1, hinit, harray, hmem, hpage⟩ :=
    pageOk_init (t := t.heap) (cacheOf_spec hsize).2.1 hmap hnone
  have hlen := hpage.two_le_length
  obtain ⟨a, rest, t2, hF, hslot, hthreads, -, hout⟩ := h.takeSlot hsize hpage
    (List.ne_nil_of_length_pos (by omega))
    (threads_setSlabData (t := t1) (harray ▸ h.toThreads) p 0 (some (realPagePtr p)))
    (fun x hx => by rw [setSlabData_pages_of_ne t1 hx, harray]) hmem
    fun i k hk => absurd hk (hunlisted _)
  rw [hF, List.length_cons] at hlen
  obtain ⟨L', hthreads', hlists⟩ := threads_insert hthreads hunlisted (cacheOf layout) .partialList
  unfold SlabCache.allocNew
  rw [hinit]
  dsimp only
  rw [hslot]
  exact ⟨a, _, rfl, hout .partialList hthreads' rfl rfl
    (fun _ hcount => ⟨hcount, List.ne_nil_of_length_pos (by omega)⟩) hlists⟩

theorem SlabInv.alloc (hunlisted : ∀ j, p ∉ L j) :
    ∃ a t', Allocator.alloc t.heap layout p = .ok (a, t') ∧
      ∃ L' F', SlabInv ⟨t', (a, layout) :: t.live⟩ L' F' := by
  obtain ⟨hsmall, hidx, -⟩ := cacheOf_spec hsize
  unfold Allocator.alloc SlabAllocator.alloc
  rw [if_pos hsmall, show cacheIndex (nextPowerOfTwo layout.size) = cacheOf layout from rfl,
    if_pos hidx]
  unfold SlabCache.alloc
  split_ifs with hpartial hempty
  · exact h.allocPartial hsize hpartial
  · exact h.allocEmpty hsize hempty
  · exact h.allocNew hsize hnew hmap hunlisted

end

/-! ### Deallocation -/

section

variable (h : PageOk t live idx kind p rest) (hslot : IsSlot idx p a) (hlive : live a)
include h hslot hlive

theorem PageOk.exists_count : ∃ count, (t.array.pages p).sharedData = .slab (count + 1) rest.head? ∧
      count + 1 + rest.length = slotCount idx ∧ Fits kind (count + 1) rest := by
  obtain ⟨count, hdata, hcount, hfits⟩ := h.data
  have hnot : a ∉ rest := fun hm => ((h.slots a).mp hm).2 hlive
  -- the free slots and the slot of the object are different slots of the page
  have hsub : a :: rest ⊆ Slab.slots idx p := by
    intro x hx
    rw [mem_slots]
    rcases List.mem_cons.mp hx with rfl | hx
    · exact hslot
    · exact ((h.slots x).mp hx).1
  have hlen := ((List.nodup_cons.mpr ⟨hnot, h.nodup⟩).subperm hsub).length_le
  rw [List.length_cons, length_slots] at hlen
  obtain ⟨n, rfl⟩ : ∃ n, count = n + 1 := ⟨count - 1, by omega⟩
  exact ⟨n, hdata, hcount, hfits⟩

theorem PageOk.dealloc {count : ℕ} (kind' : SlabList)
    (hdata : (t'.array.pages p).sharedData = .slab count (some a))
    (hmem : t'.mem = update t.mem a (rest.head?.getD 0))
    (hcount : count + 1 + rest.length = slotCount idx) (hfits : Fits kind' count (a :: rest))
    (hlive' : ∀ x, live' x ↔ live x ∧ x ≠ a) : PageOk t' live' idx kind' p (a :: rest) := by
  have hnot : a ∉ rest := fun hm => ((h.slots a).mp hm).2 hlive
  refine ⟨h.cache, h.mapped, ⟨count, hdata, ?_, hfits⟩, by rw [hmem]; exact h.chain.push hnot,
    List.nodup_cons.mpr ⟨hnot, h.nodup⟩, fun x => ?_⟩
  · rw [List.length_cons]
    omega
  · rw [List.mem_cons, h.slots x, hlive']
    constructor
    · rintro (rfl | ⟨hs, hn⟩)
      · exact ⟨hslot, fun hc => hc.2 rfl⟩
      · exact ⟨hs, fun hc => hn hc.1⟩
    · rintro ⟨hs, hn⟩
      by_cases hx : x = a
      · exact Or.inl hx
      · exact Or.inr ⟨hs, fun hl => hn ⟨hl, hx⟩⟩

end

/-- The slot of an object is put back, whichever list the page is on before and afterwards. -/
theorem SlabInv.putSlot {t : State} (h : SlabInv t L F) {ptr : ℕ} (hlive : t.IsLive ptr)
    (hpage : PageOk t.heap t.IsLive idx kind p (F p)) (hslot : IsSlot idx p ptr)
    (hold : ∀ i k, p ∈ L (.slab i k) → i = idx) {L1 : ListHead → List PFN}
    (hthreads : t'.array.Threads L1) (hpages : t'.array.pages = t.heap.array.pages)
    (hmem : t'.mem = t.heap.mem) :
    ∃ count t2, t'.deallocSlot p ptr = .ok t2 ∧ t2.isEmpty p = .ok (count == 0) ∧
      t2.array.Threads L1 ∧ ∀ {t3 : Heap} {L' : ListHead → List PFN} (kind' : SlabList),
        t3.array.Threads L' → t3.array.pages = t2.array.pages → t3.mem = t2.mem →
        Fits kind' count (ptr :: F p) → Placed L L' p idx kind' →
        ∃ L' F', SlabInv ⟨t3, t.live.filter fun b => b.1 ≠ ptr⟩ L' F' := by
  obtain ⟨count, hdata, hcount, -⟩ := hpage.exists_count hslot hlive
  have hin := hslot.inPage hpage.cache
  have hptr : nonNull ptr = some ptr := if_neg hin.pos.ne'
  refine ⟨count, { t' with mem := update t'.mem ptr ((F p).head?.getD 0) }.setSlabData p count
    (some ptr), ?_, ?_, threads_setSlabData (t := { t' with mem := _ }) hthreads _ _ _, ?_⟩
  · unfold Heap.deallocSlot slabData
    rw [hpages, hdata, ← hptr]
  · unfold Heap.isEmpty slabData
    rw [setSlabData_sharedData]
  intro t3 L' kind' hthreads' hpages' hmem' hfits hlists
  have hlive' : ∀ x, State.IsLive ⟨t3, t.live.filter fun b => b.1 ≠ ptr⟩ x ↔
      t.IsLive x ∧ x ≠ ptr := by
    intro x
    simp only [State.IsLive, List.mem_map, List.mem_filter, decide_eq_true_iff]
    constructor
    · rintro ⟨b, ⟨hb, hne⟩, rfl⟩
      exact ⟨⟨b, hb, rfl⟩, hne⟩
    · rintro ⟨⟨b, hb, rfl⟩, hne⟩
      exact ⟨b, ⟨hb, hne⟩, rfl⟩
  have hne : ∀ x, ¬ InPage p x → x ≠ ptr := fun x hx hxp => hx (hxp ▸ hin)
  refine ⟨L', _, h.repage hthreads' (hpage.dealloc hslot hlive kind' ?_ ?_ hcount hfits hlive')
    (fun x hx => ?_) (fun x hx => ?_) (fun x hx => ?_) hold hlists
    (fun b hb => Or.inl (List.mem_filter.mp hb).1)
    (h.nodup.sublist (List.filter_sublist.map Prod.fst))⟩
  · rw [hpages']
    exact setSlabData_sharedData _ _ _ _
  · rw [hmem', ← hmem]
    rfl
  · rw [hpages', setSlabData_pages_of_ne _ hx, hpages]
  · rw [hmem', ← hmem]
    exact update_of_ne (hne x hx) _ _
  · rw [hlive']
    exact and_iff_left (hne x hx)

theorem SlabInv.dealloc {t : State} (h : SlabInv t L F) {ptr : ℕ} (hb : (ptr, layout) ∈ t.live) :
    ∃ t', Allocator.dealloc t.heap ptr layout = .ok t' ∧
      ∃ L' F', SlabInv ⟨t', t.live.filter fun b => b.1 ≠ ptr⟩ L' F' := by
  obtain ⟨hsize, kind, p, hp, hslot⟩ := h.object _ hb
  obtain ⟨hsmall, hidx, -⟩ := cacheOf_spec hsize
  have hpage := h.page _ _ p hp
  have hlive : t.IsLive ptr := List.mem_map.mpr ⟨_, hb, rfl⟩
  obtain ⟨count, hdata, -, hfits⟩ := hpage.exists_count hslot hlive
  have hwhich := inWhich_of_inPage hpage.mapped (hslot.inPage hidx)
  have hfull : t.heap.isFull p = .ok (F p).isEmpty := by
    unfold Heap.isFull slabData
    rw [hdata]
    cases F p <;> rfl
  -- after the first move the page is on the partial list
  obtain ⟨t1, L1, ht1, hthreads1, hlists1, hpages1, hmem1⟩ : ∃ t1 L1,
      (if (F p).isEmpty then t.heap.moveList (cacheOf layout) .fullList .partialList p
        else t.heap) = t1 ∧ t1.array.Threads L1 ∧ Placed L L1 p (cacheOf layout) .partialList ∧
      t1.array.pages = t.heap.array.pages ∧ t1.mem = t.heap.mem := by
    cases kind with
    | emptyList => exact absurd hfits (Nat.succ_ne_zero _)
    | partialList =>
      have hne : (F p).isEmpty = false := List.isEmpty_eq_false_iff.mpr hfits.2
      exact ⟨t.heap, L, by rw [hne]; rfl, h.toThreads, placed_self h.toThreads hp, rfl, rfl⟩
    | fullList =>
      have hnil : (F p).isEmpty = true := List.isEmpty_iff.mpr hfits
      obtain ⟨L1, hthreads1, hlists1⟩ := threads_moveList h.toThreads hp .partialList
      exact ⟨_, L1, by rw [hnil]; rfl, hthreads1, hlists1, rfl, rfl⟩
  obtain ⟨count, t2, hslotDealloc, hempty, hthreads2, hfinish⟩ :=
    h.putSlot hlive hpage hslot (h.cache_eq hp) hthreads1 hpages1 hmem1
  unfold Allocator.dealloc SlabAllocator.dealloc
  rw [if_pos hsmall, show cacheIndex (nextPowerOfTwo layout.size) = cacheOf layout from rfl,
    if_pos hidx]
  unfold SlabCache.dealloc
  rw [hwhich]
  dsimp only
  rw [hfull]
  dsimp only
  rw [ht1, hslotDealloc]
  dsimp only
  rw [hempty]
  refine ⟨_, rfl, ?_⟩
  by_cases hzero : count = 0
  · obtain ⟨L3, hthreads3, hlists3⟩ := threads_moveList hthreads2
      ((hlists1 _ _ p).mpr (Or.inl ⟨rfl, rfl, rfl⟩)) .emptyList
    rw [hzero, beq_self_eq_true, if_pos rfl]
    refine hfinish .emptyList hthreads3 rfl rfl hzero fun i k x => ?_
    rw [hlists3, hlists1]
    tauto
  · have hne : (count == 0) = false := beq_false_of_ne hzero
    rw [hne]
    exact hfinish .partialList hthreads2 rfl rfl ⟨hzero, List.cons_ne_nil _ _⟩ hlists1

/-! ### Stores of the users -/

theorem SlabInv.store {t : State} (h : SlabInv t L F) {b : ℕ × Layout} (hb : b ∈ t.live) {x : ℕ}
    (hlo : b.1 ≤ x) (hhi : x < b.1 + objectSize (cacheOf b.2)) (v : ℕ) :
    SlabInv { t with heap := { t.heap with mem := update t.heap.mem x v } } L F := by
  obtain ⟨hsize, kb, pb, hpb, hslotb⟩ := h.object b hb
  have hidx := (cacheOf_spec hsize).2.1
  have hbounds := hslotb.bounds hidx
  have hinPage : InPage pb x := ⟨hbounds.1.trans hlo, hhi.trans_le hbounds.2⟩
  refine ⟨h.toThreads, fun i k p hp => ?_, h.object, h.nodup, h.slabs⟩
  have hpage := h.page i k p hp
  refine { hpage with chain := hpage.chain.frame fun y hy => ?_ }
  obtain ⟨hslot, hfree⟩ := (hpage.slots y).mp hy
  refine update_of_ne ?_ _ _
  rintro rfl
  obtain rfl : p = pb := (hslot.inPage hpage.cache).unique hinPage
  obtain rfl := h.cache_eq hpb i k hp
  have hne : y ≠ b.1 := fun hyb => hfree (List.mem_map.mpr ⟨b, hb, hyb.symm⟩)
  rcases hslot.apart hslotb hne with hap | hap
  · have := objectSize_pos (cacheOf b.2)
    omega
  · omega

end Slab

end Dlutos
