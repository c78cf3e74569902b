import Dlutos.Address.Addr
import Dlutos.PageFrame.IntrusiveList

/-!
# Page headers

Every physical page has a header (`RawPage`) in the global page array: an order, a flag word, a
reference count, a link for the allocator lists and the data of its current user.  `PageArray` is
the contents of all headers together with the anchors and counters of the lists.  The flag word is
kept as one Boolean for each flag that some function tests.
-/

namespace Dlutos

open Function

/-- Physical frame numbers. -/
abbrev PFN := ℕ

structure PageFlags where
  present : Bool := false
  buddy : Bool := false
  free : Bool := false
  cpuLocal : Bool := false
  deriving DecidableEq

/-- The data a page header keeps for the current user of the page. -/
inductive PageType where
  | buddy
  | slab (allocatedCount : ℕ) (freeNext : Option ℕ)
  | pageCache (validSize : ℕ)
  deriving DecidableEq

/-- A page header, without its link. -/
structure RawPage where
  order : ℕ := 0
  flags : PageFlags := {}
  refcount : ℕ := 0
  sharedData : PageType := .buddy
  deriving DecidableEq

inductive SlabList where
  | emptyList
  | partialList
  | fullList
  deriving DecidableEq

inductive ListHead where
  | freeArea (order : ℕ)
  | percpu (cpu order : ℕ)
  /-- A list of the slab cache with the given index. -/
  | slab (idx : ℕ) (kind : SlabList)
  deriving DecidableEq

theorem ListHead.percpu_ne_freeArea (cpu o k : ℕ) :
    ListHead.percpu cpu o ≠ .freeArea k := by
  intro h
  cases h

theorem ListHead.slab_ne_freeArea (i : ℕ) (l : SlabList) (k : ℕ) :
    ListHead.slab i l ≠ .freeArea k := by
  intro h
  cases h

/-- The page array with the lists threaded through it. -/
structure PageArray where
  links : LinkMem ListHead PFN
  count : ListHead → ℕ
  pages : PFN → RawPage

inductive Panic where
  /-- In `FreeArea::get_free_pages`. -/
  | areaCountZero
  /-- In `FreeArea::del_pages`. -/
  | delNotFree
  /-- In `Zone::get_free_pages`. -/
  | pageNotPresent
  /-- In `Zone::get_free_pages`. -/
  | pageNotFree
  /-- In `Zone::free_pages`. -/
  | freeingReferenced
  | freeingNotPresent
  | freeingFree
  /-- In `Zone::buddy_check`. -/
  | buddyReferenced
  /-- An index past the end of `free_areas`. -/
  | indexOutOfBounds
  /-- In `Zone::create_pages`. -/
  | orderUnderflow
  | danglingLink
  /-- In `PerCpuPageAlloc::alloc_order`. -/
  | costlyOrder
  /-- In `PerCpuPageAlloc::free_pages`. -/
  | localOrder
  /-- In `PerCpuPageAlloc::free_pages`. -/
  | localReferenced
  /-- In `Page::from_raw_in` and `Page::drop`. -/
  | notManaged
  /-- In `Page::drop`. -/
  | refcountZero
  /-- In `ArchPhysAccess::from_ptr`. -/
  | notPhysical
  /-- In `PageType::slab_data`. -/
  | notSlab
  /-- In `alloc_slot`. -/
  | noFreeSlot
  /-- In `dealloc_slot`. -/
  | slotCountUnderflow
  /-- In `slab_page_init`. -/
  | objectTooSmall
  /-- "partial pages should not be empty" and "empty pages should not be empty" in
  `SlabCache::alloc`. -/
  | slabListEmpty
  deriving DecidableEq

namespace PageArray

def modify (s : PageArray) (p : PFN) (f : RawPage → RawPage) : PageArray :=
  { s with pages := update s.pages p (f (s.pages p)) }

def setOrder (s : PageArray) (p : PFN) (order : ℕ) : PageArray :=
  s.modify p fun r => { r with order := order }

def setBuddy (s : PageArray) (p : PFN) : PageArray :=
  s.modify p fun r => { r with flags := { r.flags with buddy := true } }

def clearBuddy (s : PageArray) (p : PFN) : PageArray :=
  s.modify p fun r => { r with flags := { r.flags with buddy := false } }

def setFree (s : PageArray) (p : PFN) : PageArray :=
  s.modify p fun r => { r with flags := { r.flags with free := true } }

def clearFree (s : PageArray) (p : PFN) : PageArray :=
  s.modify p fun r => { r with flags := { r.flags with free := false } }

def setLocal (s : PageArray) (p : PFN) : PageArray :=
  s.modify p fun r => { r with flags := { r.flags with cpuLocal := true } }

def setRefcount (s : PageArray) (p : PFN) (n : ℕ) : PageArray :=
  s.modify p fun r => { r with refcount := n }

def fromLink (l : LinkRef ListHead PFN) : Except Panic PFN :=
  match l.container with
  | some p => .ok p
  | none => .error .danglingLink

/-- `List::insert`: insert the link of `p` at the anchor and count it. -/
def listInsert (s : PageArray) (h : ListHead) (p : PFN) : PageArray :=
  { s with
    links := Link.insert s.links (.head h) (.node p)
    count := update s.count h (s.count h + 1) }

def listRemove (s : PageArray) (h : ListHead) (p : PFN) : PageArray :=
  { s with
    links := Link.remove s.links (.node p)
    count := update s.count h (s.count h - 1) }

def listHead (s : PageArray) (h : ListHead) : Option (LinkRef ListHead PFN) :=
  (s.links (.head h)).next

/-! ### Simplification lemmas -/

section Lemmas

variable (s : PageArray) (p q : PFN) (h : ListHead) (f : RawPage → RawPage)

theorem modify_pages :
    (s.modify p f).pages q = if q = p then f (s.pages p) else s.pages q := by
  unfold modify
  exact update_apply _ _ _ _

@[simp] theorem modify_pages_self : (s.modify p f).pages p = f (s.pages p) := by
  rw [modify_pages, if_pos rfl]

theorem modify_pages_of_ne {p q : PFN} (hne : q ≠ p) : (s.modify p f).pages q = s.pages q := by
  rw [modify_pages, if_neg hne]

@[simp] theorem setRefcount_self : s.setRefcount p (s.pages p).refcount = s := by
  unfold setRefcount modify
  rw [update_eq_self]

@[simp] theorem listInsert_pages : (s.listInsert h p).pages = s.pages := rfl

@[simp] theorem listRemove_pages : (s.listRemove h p).pages = s.pages := rfl

end Lemmas

/-! ### The lists of the page array -/

/-- The links of the page array thread the lists `L`, and the counters count them. -/
structure Threads (s : PageArray) (L : ListHead → List PFN) : Prop where
  repr : Represents s.links L
  count : ∀ h, s.count h = (L h).length

section Threads

variable {s : PageArray} {L : ListHead → List PFN} {h : ListHead} {p : PFN}

theorem Threads.listHead (hs : s.Threads L) (h : ListHead) :
    s.listHead h = (L h).head?.map LinkRef.node :=
  hs.repr.next_head h

theorem Threads.modify (hs : s.Threads L) (q : PFN) (f : RawPage → RawPage) :
    (s.modify q f).Threads L :=
  ⟨hs.repr, hs.count⟩

theorem Threads.listInsert (hs : s.Threads L) (h : ListHead) (hp : ∀ j, p ∉ L j) :
    (s.listInsert h p).Threads (update L h (p :: L h)) := by
  refine ⟨hs.repr.insert hp, fun j => ?_⟩
  by_cases hj : j = h
  · subst hj
    simp [PageArray.listInsert, hs.count j]
  · simp [PageArray.listInsert, hj, hs.count j]

theorem Threads.listRemove (hs : s.Threads L) (hp : p ∈ L h) :
    (s.listRemove h p).Threads (update L h ((L h).erase p)) := by
  refine ⟨hs.repr.remove hp, fun j => ?_⟩
  by_cases hj : j = h
  · subst hj
    simp [PageArray.listRemove, hs.count j, List.length_erase_of_mem hp]
  · simp [PageArray.listRemove, hj, hs.count j]

end Threads

end PageArray

def emptyArray (present : PFN → Bool) : PageArray where
  links _ := {}
  count _ := 0
  pages p := { flags := { present := present p } }

theorem threads_emptyArray (present : PFN → Bool) :
    (emptyArray present).Threads fun _ => [] :=
  ⟨Represents.empty, fun _ => rfl⟩

/-! ### Runs of the list operations -/

/-- Calls of `List::insert`, `remove` and `pop` lead to `s`, with the members `L` of the lists. -/
inductive ListRun : PageArray → (ListHead → List PFN) → Prop
  | init (present : PFN → Bool) : ListRun (emptyArray present) fun _ => []
  | insert {s L h p} (hs : ListRun s L) (hp : ∀ k, p ∉ L k) :
    ListRun (s.listInsert h p) (update L h (p :: L h))
  | remove {s L h p} (hs : ListRun s L) (hp : p ∈ L h) :
    ListRun (s.listRemove h p) (update L h ((L h).erase p))
  | pop {s L h p} (hs : ListRun s L) (hp : s.listHead h = some (.node p)) :
    ListRun (s.listRemove h p) (update L h ((L h).erase p))

theorem lists_intact {s L} (hs : ListRun s L) : s.Threads L := by
  induction hs with
  | init present => exact threads_emptyArray present
  | insert _ hp ih => exact ih.listInsert _ hp
  | remove _ hp ih => exact ih.listRemove hp
  | pop _ hp ih =>
    rw [ih.listHead] at hp
    obtain ⟨q, hq, ⟨⟩⟩ := Option.map_eq_some_iff.mp hp
    exact ih.listRemove (List.mem_of_mem_head? hq)

theorem lists_intact_pop : ∃ s L, ListRun s L ∧ s.Threads L := by
  have h1 := ListRun.insert (h := .freeArea 0) (p := 5) (.init fun _ => true) nofun
  have h2 := h1.pop (h := .freeArea 0) (p := 5) rfl
  exact ⟨_, _, h2, lists_intact h2⟩

end Dlutos
