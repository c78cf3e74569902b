import Dlutos.Foundation.MachineWord
import Dlutos.PageFrame.RawPage

/-!
# The buddy zone

`crates/buddy_allocator`: a zone keeps, for every order below `AREAS`, a list of free blocks of
`2 ^ order` pages, represented by the header of their first page.  Loops carry the number of
iterations they have left as a structural argument.  Assertions are `Except Panic`.
-/

namespace Dlutos

open MachineWord

def MAX_ORDER : ℕ := 10

def AREAS : ℕ := MAX_ORDER + 1

/-! ### Free areas -/

namespace FreeArea

def getFreePages (s : PageArray) (order : ℕ) : Except Panic (Option PFN × PageArray) :=
  match s.listHead (.freeArea order) with
  | none => .ok (none, s)
  | some link =>
    if s.count (.freeArea order) = 0 then .error .areaCountZero
    else
      match PageArray.fromLink link with
      | .error e => .error e
      | .ok p => .ok (some p, s.listRemove (.freeArea order) p)

def addPages (s : PageArray) (order : ℕ) (p : PFN) : PageArray :=
  (s.setFree p).listInsert (.freeArea order) p

/-- `FreeArea::del_pages`. The link leaves whatever list it is on; the counter is the one of this
area. -/
def delPages (s : PageArray) (order : ℕ) (p : PFN) : Except Panic PageArray :=
  if 1 ≤ s.count (.freeArea order) ∧ (s.pages p).flags.free = true then
    .ok ((s.clearFree p).listRemove (.freeArea order) p)
  else .error .delNotFree

theorem addPages_pages_self (s : PageArray) (order : ℕ) (p : PFN) :
    (addPages s order p).pages p =
      { s.pages p with flags := { (s.pages p).flags with free := true } } := by
  unfold addPages PageArray.setFree
  rw [PageArray.listInsert_pages, PageArray.modify_pages_self]

theorem addPages_pages_of_ne (s : PageArray) (order : ℕ) {p q : PFN} (hne : q ≠ p) :
    (addPages s order p).pages q = s.pages q := by
  unfold addPages PageArray.setFree
  rw [PageArray.listInsert_pages, PageArray.modify_pages_of_ne _ _ hne]

end FreeArea

def buddyPfn (pfn : PFN) (order : ℕ) : PFN := pfn ^^^ (1 <<< order)

theorem buddyPfn_eq (pfn : PFN) (order : ℕ) : buddyPfn pfn order = pfn ^^^ 2 ^ order := by
  rw [buddyPfn, Nat.shiftLeft_eq, one_mul]

def combinedPfn (pfn buddy : PFN) : PFN := pfn &&& buddy

/-! ### The zone -/

namespace Zone

/-- The loop of `Zone::expand`: `n` orders above `target` are left, `offset` is twice the half that
is given back next. -/
def expandLoop (pfn : PFN) (target : ℕ) : ℕ → ℕ → PageArray → PageArray
  | 0, _, s => s
  | n + 1, offset, s =>
    let offset := offset >>> 1
    let split := pfn + offset
    let s := (s.setOrder split (target + n)).setBuddy split
    expandLoop pfn target n offset (FreeArea.addPages s (target + n) split)

def expand (s : PageArray) (pfn : PFN) (order target : ℕ) : PageArray :=
  expandLoop pfn target (order - target) (1 <<< order) s

def getFreePagesLoop (s : PageArray) (order : ℕ) : ℕ → ℕ → Except Panic (Option PFN × PageArray)
  | 0, _ => .ok (none, s)
  | n + 1, current =>
    match FreeArea.getFreePages s current with
    | .error e => .error e
    | .ok (none, _) => getFreePagesLoop s order n (current + 1)
    | .ok (some p, s) =>
      let s := s.setOrder p order
      let s := if order < current then expand s p current order else s
      if (s.pages p).flags.present = false then .error .pageNotPresent
      else if (s.pages p).flags.free = false then .error .pageNotFree
      else .ok (some p, s)

def getFreePages (s : PageArray) (order : ℕ) : Except Panic (Option PFN × PageArray) :=
  getFreePagesLoop s order (AREAS - order) order

def buddyCheck (s : PageArray) (p : PFN) (order : ℕ) : Except Panic Bool :=
  if (s.pages p).flags.present = false then .ok false
  else if (s.pages p).flags.free = false then .ok false
  else if (s.pages p).order ≠ order then .ok false
  else if (s.pages p).refcount ≠ 0 then .error .buddyReferenced
  else .ok true

/-- The loop of `Zone::free_pages`: join with free buddies, with `n` orders left below the
maximum. -/
def freePagesLoop : ℕ → PageArray → PFN → ℕ → Except Panic (PageArray × PFN × ℕ)
  | 0, s, pfn, order => .ok (s, pfn, order)
  | n + 1, s, pfn, order =>
    let buddy := buddyPfn pfn order
    match buddyCheck s buddy order with
    | .error e => .error e
    | .ok false => .ok (s, pfn, order)
    | .ok true =>
      match FreeArea.delPages ((s.clearBuddy pfn).clearBuddy buddy) order buddy with
      | .error e => .error e
      | .ok s =>
        let pfn := combinedPfn pfn buddy
        freePagesLoop n (s.setBuddy pfn) pfn (order + 1)

def freePages (s : PageArray) (p : PFN) : Except Panic PageArray :=
  if (s.pages p).refcount ≠ 0 then .error .freeingReferenced
  else if (s.pages p).flags.present = false then .error .freeingNotPresent
  else if (s.pages p).flags.free = true then .error .freeingFree
  else
    match freePagesLoop (AREAS - 1 - (s.pages p).order) s p (s.pages p).order with
    | .error e => .error e
    | .ok (s, pfn, order) =>
      -- the page that is freed may carry an order past the last area
      if order < AREAS then .ok (FreeArea.addPages (s.setOrder pfn order) order pfn)
      else .error .indexOutOfBounds

/-- The inner loop of `Zone::create_pages`: lower the order until the block fits. -/
def fitOrder (start last : PFN) : ℕ → Except Panic ℕ
  | 0 => if last < start + 1 <<< 0 then .error .orderUnderflow else .ok 0
  | o + 1 => if last < start + 1 <<< (o + 1) then fitOrder start last o else .ok (o + 1)

/-- The outer loop of `Zone::create_pages`, with at most `n` blocks to go. -/
def createPagesLoop (last : PFN) : ℕ → PFN → PageArray → Except Panic PageArray
  | 0, _, s => .ok s
  | n + 1, start, s =>
    if start < last then
      match fitOrder start last (min (trailingZeros start) (AREAS - 1)) with
      | .error e => .error e
      | .ok order =>
        createPagesLoop last n (start + 1 <<< order)
          (FreeArea.addPages (s.setBuddy start) order start)
    else .ok s

/-- The first frame that starts at or after an address (`PFN::from(start.ceil())`). -/
def ceilPfn (addr : ℕ) : PFN := Addr.ceil addr >>> PAGE_SIZE_BITS

/-- The frame an address lies in (`PFN::from(end.floor())`). -/
def floorPfn (addr : ℕ) : PFN := Addr.floor addr >>> PAGE_SIZE_BITS

/-- `Zone::create_pages`; the number of frames bounds the number of blocks. -/
def createPages (s : PageArray) (start last : ℕ) : Except Panic PageArray :=
  createPagesLoop (floorPfn last) (floorPfn last - ceilPfn start) (ceilPfn start) s

end Zone

/-! ### The allocator -/

namespace BuddyAllocator

def allocOrder (s : PageArray) (order : ℕ) : Except Panic (Option PFN × PageArray) :=
  match Zone.getFreePages s order with
  | .error e => .error e
  | .ok (none, s) => .ok (none, s)
  | .ok (some p, s) => .ok (some p, (s.setRefcount p ((s.pages p).refcount + 1)).clearFree p)

def dealloc (s : PageArray) (p : PFN) : Except Panic PageArray := Zone.freePages s p

def hasManagementOver (s : PageArray) (p : PFN) : Bool :=
  !(s.pages p).flags.free && (s.pages p).flags.buddy

end BuddyAllocator

end Dlutos
