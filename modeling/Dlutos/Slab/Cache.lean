import Dlutos.Foundation.MachineWord
import Dlutos.PageFrame.RawPage

/-!
# The slab allocator

`crates/slab_allocator`: a cache hands out objects of one size from pages that it cuts into slots.
The free slots of a page are chained through their own first words; the header of the page keeps the
first free slot and the number of objects.  Memory is a map from the addresses of words to their
contents.
-/

namespace Dlutos

open MachineWord

/-! ### The direct map -/

/-- The start of the direct map of physical memory. -/
def PHYS_MAP_VIRT : ℕ := 0xffff_ff00_0000_0000

/-- The offset of the mapping of the kernel image. -/
def KIMAGE_OFFSET : ℕ := 0xffff_ffff_0000_0000

def physAsPtr (paddr : ℕ) : ℕ := PHYS_MAP_VIRT + paddr

def physFromPtr (addr : ℕ) : Except Panic ℕ :=
  if KIMAGE_OFFSET ≤ addr then .ok (addr - KIMAGE_OFFSET)
  else if PHYS_MAP_VIRT ≤ addr then .ok (addr - PHYS_MAP_VIRT)
  else .error .notPhysical

/-! ### Slab pages -/

structure Heap where
  array : PageArray
  mem : ℕ → ℕ

namespace Heap

def realPagePtr (p : PFN) : ℕ := physAsPtr (p * PAGE_SIZE)

/-- `in_which`: the page an address belongs to. -/
def inWhich (ptr : ℕ) : Except Panic PFN :=
  match physFromPtr ptr with
  | .error e => .error e
  | .ok paddr => .ok (paddr >>> PAGE_SIZE_BITS)

/-- `slab_data`: the object count and the first free slot of a slab page. -/
def slabData (t : Heap) (p : PFN) : Except Panic (ℕ × Option ℕ) :=
  match (t.array.pages p).sharedData with
  | .slab count next => .ok (count, next)
  | _ => .error .notSlab

/-- Store the object count and the first free slot. -/
def setSlabData (t : Heap) (p : PFN) (count : ℕ) (next : Option ℕ) : Heap :=
  { t with array := t.array.modify p fun r => { r with sharedData := .slab count next } }

def nonNull (w : ℕ) : Option ℕ := if w = 0 then none else some w

def allocSlot (t : Heap) (p : PFN) : Except Panic (ℕ × Heap) :=
  match t.slabData p with
  | .error e => .error e
  | .ok (_, none) => .error .noFreeSlot
  | .ok (count, some ptr) => .ok (ptr, t.setSlabData p (count + 1) (nonNull (t.mem ptr)))

def deallocSlot (t : Heap) (p : PFN) (slot : ℕ) : Except Panic Heap :=
  match t.slabData p with
  | .error e => .error e
  | .ok (0, _) => .error .slotCountUnderflow
  | .ok (count + 1, next) =>
    .ok ({ t with mem := Function.update t.mem slot (next.getD 0) }.setSlabData p count
      (nonNull slot))

def isFull (t : Heap) (p : PFN) : Except Panic Bool :=
  match t.slabData p with
  | .error e => .error e
  | .ok (_, next) => .ok next.isNone

def isEmpty (t : Heap) (p : PFN) : Except Panic Bool :=
  match t.slabData p with
  | .error e => .error e
  | .ok (count, _) => .ok (count == 0)

/-- The loop of `slab_page_init`: chain a slot and the `n` slots behind it. -/
def slabPageInitLoop (objectSize : ℕ) : ℕ → ℕ → (ℕ → ℕ) → ℕ → ℕ
  | 0, slot, mem => Function.update mem slot 0
  | n + 1, slot, mem =>
    slabPageInitLoop objectSize n (slot + objectSize)
      (Function.update mem slot (slot + objectSize))

/-- `SlabRawPageExt::slab_page_init`.  A page has at least two slots, since no object is larger than
half a page. -/
def slabPageInit (t : Heap) (p : PFN) (objectSize : ℕ) : Except Panic (Option ℕ × Heap) :=
  if 8 ≤ objectSize then
    .ok (nonNull (realPagePtr p),
      { t with mem := slabPageInitLoop objectSize (PAGE_SIZE / objectSize - 1) (realPagePtr p) t.mem })
  else .error .objectTooSmall

def firstPage (t : Heap) (h : ListHead) : Except Panic PFN :=
  match t.array.listHead h with
  | none => .error .slabListEmpty
  | some link => PageArray.fromLink link

def moveList (t : Heap) (idx : ℕ) (src dst : SlabList) (p : PFN) : Heap :=
  { t with array := (t.array.listRemove (.slab idx src) p).listInsert (.slab idx dst) p }

end Heap

/-! ### Caches -/

namespace SlabCache

def objectSize (idx : ℕ) : ℕ := 1 <<< (idx + 3)

def allocPartial (t : Heap) (idx : ℕ) : Except Panic (ℕ × Heap) :=
  match t.firstPage (.slab idx .partialList) with
  | .error e => .error e
  | .ok p =>
    match t.allocSlot p with
    | .error e => .error e
    | .ok (ptr, t) =>
      match t.isFull p with
      | .error e => .error e
      | .ok full => .ok (ptr, if full then t.moveList idx .partialList .fullList p else t)

def allocEmpty (t : Heap) (idx : ℕ) : Except Panic (ℕ × Heap) :=
  match t.firstPage (.slab idx .emptyList) with
  | .error e => .error e
  | .ok p =>
    match t.allocSlot p with
    | .error e => .error e
    | .ok (ptr, t) => .ok (ptr, t.moveList idx .emptyList .partialList p)

def allocNew (t : Heap) (idx : ℕ) (page : PFN) : Except Panic (ℕ × Heap) :=
  match t.slabPageInit page (objectSize idx) with
  | .error e => .error e
  | .ok (first, t) =>
    match (t.setSlabData page 0 first).allocSlot page with
    | .error e => .error e
    | .ok (ptr, t) => .ok (ptr, { t with array := t.array.listInsert (.slab idx .partialList) page })

def alloc (t : Heap) (idx : ℕ) (page : PFN) : Except Panic (ℕ × Heap) :=
  if t.array.count (.slab idx .partialList) ≠ 0 then allocPartial t idx
  else if t.array.count (.slab idx .emptyList) ≠ 0 then allocEmpty t idx
  else allocNew t idx page

def dealloc (t : Heap) (idx : ℕ) (ptr : ℕ) : Except Panic Heap :=
  match Heap.inWhich ptr with
  | .error e => .error e
  | .ok p =>
    match t.isFull p with
    | .error e => .error e
    | .ok full =>
      match (if full then t.moveList idx .fullList .partialList p else t).deallocSlot p ptr with
      | .error e => .error e
      | .ok t =>
        match t.isEmpty p with
        | .error e => .error e
        | .ok empty => .ok (if empty then t.moveList idx .partialList .emptyList p else t)

end SlabCache

namespace SlabAllocator

def SLAB_CACHE_COUNT : ℕ := 9

def cacheIndex (size : ℕ) : ℕ := trailingZeros (nextPowerOfTwo (max 8 size)) - 3

def alloc (t : Heap) (size : ℕ) (page : PFN) : Except Panic (ℕ × Heap) :=
  if cacheIndex size < SLAB_CACHE_COUNT then SlabCache.alloc t (cacheIndex size) page
  else .error .indexOutOfBounds

def dealloc (t : Heap) (ptr size : ℕ) : Except Panic Heap :=
  if cacheIndex size < SLAB_CACHE_COUNT then SlabCache.dealloc t (cacheIndex size) ptr
  else .error .indexOutOfBounds

end SlabAllocator

structure Layout where
  size : ℕ
  align : ℕ

namespace Allocator

/-- `Allocator::alloc`: layouts of more than 2048 bytes get a block of their own from the source of
pages. -/
def alloc (t : Heap) (layout : Layout) (page : PFN) : Except Panic (ℕ × Heap) :=
  if nextPowerOfTwo layout.size ≤ 2048 then SlabAllocator.alloc t (nextPowerOfTwo layout.size) page
  else .ok (Heap.realPagePtr page, t)

/-- `Allocator::dealloc`: the block of a large layout goes back to the source of pages. -/
def dealloc (t : Heap) (ptr : ℕ) (layout : Layout) : Except Panic Heap :=
  if nextPowerOfTwo layout.size ≤ 2048 then SlabAllocator.dealloc t ptr (nextPowerOfTwo layout.size)
  else .ok t

end Allocator

end Dlutos
