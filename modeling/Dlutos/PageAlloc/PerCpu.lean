import Dlutos.Buddy.Zone

/-!
# The page allocator and page handles

`src/kernel/mem/page_alloc.rs` puts a cache of blocks in front of the buddy allocator for every CPU:
blocks up to `COSTLY_ORDER` come from the local list of their order, which is refilled in batches,
and go back to the list of the CPU that frees them.  `crates/dlutos_mm/src/paging/page.rs` counts
the owners of a block in its header.  The count of a free block is zero in the buddy allocator and
one on a local list.
-/

namespace Dlutos

def COSTLY_ORDER : ℕ := 3

/-- The number of pages a local list is refilled with. -/
def BATCH_SIZE : ℕ := 64

namespace PerCpuPageAlloc

def insertFreePages (s : PageArray) (cpu : ℕ) (p : PFN) (order : ℕ) : Except Panic PageArray :=
  if order ≤ COSTLY_ORDER then .ok (s.listInsert (.percpu cpu order) p)
  else .error .indexOutOfBounds

def getFreePages (s : PageArray) (cpu order : ℕ) : Except Panic (Option PFN × PageArray) :=
  if order ≤ COSTLY_ORDER then
    match s.listHead (.percpu cpu order) with
    | none => .ok (none, s)
    | some link =>
      match PageArray.fromLink link with
      | .error e => .error e
      | .ok p => .ok (some p, s.listRemove (.percpu cpu order) p)
  else .error .indexOutOfBounds

/-- The loop of `PerCpuPageAlloc::alloc_order`: move up to `n` blocks from the buddy allocator to
the local list. -/
def refill (cpu order : ℕ) : ℕ → PageArray → Except Panic PageArray
  | 0, s => .ok s
  | n + 1, s =>
    match BuddyAllocator.allocOrder s order with
    | .error e => .error e
    | .ok (none, s) => .ok s
    | .ok (some p, s) =>
      match insertFreePages (s.setLocal p) cpu p order with
      | .error e => .error e
      | .ok s => refill cpu order n s

def allocOrder (s : PageArray) (cpu order : ℕ) : Except Panic (Option PFN × PageArray) :=
  if order ≤ COSTLY_ORDER then
    match getFreePages s cpu order with
    | .error e => .error e
    | .ok (some p, s) => .ok (some p, s)
    | .ok (none, s) =>
      match refill cpu order (BATCH_SIZE >>> order) s with
      | .error e => .error e
      | .ok s => getFreePages s cpu order
  else .error .costlyOrder

def freePages (s : PageArray) (cpu : ℕ) (p : PFN) (order : ℕ) : Except Panic PageArray :=
  if (s.pages p).order ≠ order then .error .localOrder
  else if (s.pages p).refcount ≠ 0 then .error .localReferenced
  else insertFreePages (s.setRefcount p 1) cpu p order

end PerCpuPageAlloc

namespace GlobalPageAlloc

def allocOrder (s : PageArray) (cpu order : ℕ) : Except Panic (Option PFN × PageArray) :=
  if COSTLY_ORDER < order then BuddyAllocator.allocOrder s order
  else PerCpuPageAlloc.allocOrder s cpu order

def dealloc (s : PageArray) (cpu : ℕ) (p : PFN) : Except Panic PageArray :=
  if COSTLY_ORDER < (s.pages p).order then BuddyAllocator.dealloc s p
  else PerCpuPageAlloc.freePages s cpu p (s.pages p).order

def hasManagementOver (s : PageArray) (p : PFN) : Bool :=
  BuddyAllocator.hasManagementOver s p &&
    (decide (COSTLY_ORDER < (s.pages p).order) || (s.pages p).flags.cpuLocal)

end GlobalPageAlloc

namespace Page

def clone (s : PageArray) (p : PFN) : PageArray := s.setRefcount p ((s.pages p).refcount + 1)

def fromRaw (s : PageArray) (p : PFN) : Except Panic PageArray :=
  if GlobalPageAlloc.hasManagementOver s p then .ok s else .error .notManaged

/-- The first half of `Page::drop`: take one reference away, and tell whether it was the last. -/
def dropRef (s : PageArray) (p : PFN) : Except Panic (Bool × PageArray) :=
  match (s.pages p).refcount with
  | 0 => .error .refcountZero
  | n + 1 => .ok (n == 0, s.setRefcount p n)

def dropLast (s : PageArray) (cpu : ℕ) (p : PFN) : Except Panic PageArray :=
  if GlobalPageAlloc.hasManagementOver s p then GlobalPageAlloc.dealloc s cpu p
  else .error .notManaged

end Page

end Dlutos
