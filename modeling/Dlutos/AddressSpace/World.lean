import Dlutos.AddressSpace.AreaSet
import Dlutos.PageFrame.RawPage

/-!
# Address spaces with their page tables

`kernel/mem/mm_list.rs`, `kernel/mem/mm_area.rs` and `kernel/mem/mm_list/page_fault.rs` as a whole:
the areas of all address spaces, their page tables, the physical frames with reference counts and
contents, and the frames that the page caches of files own.

The allocator and what the page cache reads from its backend are parameters of the calls that may
need them.  A frame that is not in use has reference count zero, and records how often it was handed
out and given back.
-/

namespace Dlutos

open Addr AddrRange ExceptLoop Function

structure PageAttribute where
  present : Bool := false
  read : Bool := false
  write : Bool := false
  execute : Bool := false
  user : Bool := false
  accessed : Bool := false
  dirty : Bool := false
  global : Bool := false
  copyOnWrite : Bool := false
  mapped : Bool := false
  deriving DecidableEq

def PageAttribute.asPageAttr (raw : PageAttribute) : Option PageAttribute :=
  if raw.present && !(raw.read || raw.write || raw.execute) then none else some raw

/-- A page-table entry; the default is the null entry. -/
structure PTE where
  pfn : PFN := 0
  attr : PageAttribute := {}
  deriving DecidableEq

abbrev PageData := ℕ → UInt8

structure PhysFrame where
  refcount : ℕ := 0
  data : PageData := fun _ => 0
  allocated : ℕ := 0
  returned : ℕ := 0

/-- The frame is handed out, with the contents that the caller fills in. -/
def PhysFrame.allocate (f : PhysFrame) (data : PageData) : PhysFrame :=
  { f with refcount := 1, data := data, allocated := f.allocated + 1 }

/-- A reference is dropped; the last one gives the frame back. -/
def PhysFrame.release (f : PhysFrame) : PhysFrame :=
  { f with
    refcount := f.refcount - 1
    returned := if f.refcount = 1 then f.returned + 1 else f.returned }

/-- All address spaces and the memory they share. -/
structure World where
  frames : PFN → PhysFrame
  emptyPage : PFN
  lists : ℕ → Option MMListLocked
  ptes : ℕ → ℕ → PTE
  caches : ℕ → ℕ → Option PFN

abbrev Pick := (PFN → PhysFrame) → Option PFN

inductive PageIo where
  | noPageCache
  /-- The page lies behind the end of the file. -/
  | behindEnd
  | fails (err : Errno)
  | page (data : PageData)

abbrev Backend := ℕ → ℕ → PageIo

/-- The page numbers that `iter_user` visits. -/
def pagesOf (r : AddrRange) : List ℕ :=
  List.range' (r.start / PAGE_SIZE) ((ceil r.stop - floor r.start) / PAGE_SIZE)

namespace World

/-! ### Frames and entries -/

def updateFrame (w : World) (p : PFN) (f : PhysFrame → PhysFrame) : World :=
  { w with frames := update w.frames p (f (w.frames p)) }

def cloneRef (w : World) (p : PFN) : World :=
  w.updateFrame p fun f => { f with refcount := f.refcount + 1 }

/-- `refcount().fetch_sub(1)`; nothing is given back to the allocator. -/
def subRef (w : World) (p : PFN) : World :=
  w.updateFrame p fun f => { f with refcount := f.refcount - 1 }

/-- What `Page::drop` does to a frame that is in use. -/
def releaseRef (w : World) (p : PFN) : World := w.updateFrame p PhysFrame.release

def dropRef (w : World) (p : PFN) : Except MMPanic World := do
  assertOr ((w.frames p).refcount ≠ 0) .refcountZero
  pure (w.releaseRef p)

def allocPage (w : World) (pick : Pick) (data : PageData) : Except MMPanic (PFN × World) :=
  match pick w.frames with
  | none => .error .outOfMemory
  | some p => .ok (p, w.updateFrame p fun f => f.allocate data)

/-- `Page::from_raw`: the null entry is not a frame of the allocator. -/
def fromRaw (p : PFN) : Except MMPanic Unit := assertOr (p ≠ 0) .notManaged

def setPte (w : World) (i v : ℕ) (pte : PTE) : World :=
  { w with ptes := update w.ptes i (update (w.ptes i) v pte) }

def setList (w : World) (i : ℕ) (l : MMListLocked) : World :=
  { w with lists := update w.lists i (some l) }

def setCache (w : World) (file index : ℕ) (p : PFN) : World :=
  { w with caches := update w.caches file (update (w.caches file) index (some p)) }

/-! ### Setting up and taking entries -/

def setAnonymous (i : ℕ) (execute : Bool) (w : World) (v : ℕ) : World :=
  (w.cloneRef w.emptyPage).setPte i v
    ⟨w.emptyPage, { present := true, read := true, user := true, copyOnWrite := true,
                    execute := execute }⟩

def setMapped (i : ℕ) (execute : Bool) (w : World) (v : ℕ) : World :=
  (w.cloneRef w.emptyPage).setPte i v
    ⟨w.emptyPage, { read := true, user := true, mapped := true, execute := execute }⟩

def ownsPage (attr : PageAttribute) : Bool := attr.present && !(attr.mapped && attr.global)

def takePage (i : ℕ) (w : World) (v : ℕ) : Except MMPanic World :=
  let pte := w.ptes i v
  let w := w.setPte i v {}
  match pte.attr.asPageAttr with
  | none => .ok w
  | some attr => do
    if ownsPage attr then do
      fromRaw pte.pfn
      w.dropRef pte.pfn
    else pure w

def takeShared (i : ℕ) (w : World) (v : ℕ) : Except MMPanic World :=
  let pte := w.ptes i v
  let w := w.setPte i v {}
  match pte.attr.asPageAttr with
  | none => .ok w
  | some attr => if ownsPage attr then .ok (w.subRef pte.pfn) else .ok w

/-! ### `mmap`, `unmap` and `protect` -/

/-- The page-table part of `mmap`. -/
def populate (w : World) (i : ℕ) (range : AddrRange) (mapping : Mapping)
    (permission : Permission) : World :=
  match mapping with
  | .anonymous => (pagesOf range).foldl (setAnonymous i permission.execute) w
  | .file _ => (pagesOf range).foldl (setMapped i permission.execute) w

def mmapFixed (w : World) (i : ℕ) (l : MMListLocked) (addr len : ℕ) (mapping : Mapping)
    (permission : Permission) (isShared : Bool) : Except MMPanic World := do
  match ← l.mmap addr len mapping permission isShared with
  | (.error _, l) => pure (w.setList i l)
  | (.ok (), l) =>
    let range ← AddrRange.new addr (addr + len)
    pure ((w.populate i range mapping permission).setList i l)

def mmapHint (w : World) (i : ℕ) (l : MMListLocked) (fuel hint len : ℕ) (mapping : Mapping)
    (permission : Permission) (isShared : Bool) : Except MMPanic World := do
  match ← l.mmapHint fuel hint len mapping permission isShared with
  | none => pure w
  | some (.error _, l) => pure (w.setList i l)
  | some (.ok addr, l) =>
    let range ← AddrRange.new addr (addr + len)
    pure ((w.populate i range mapping permission).setList i l)

def unmap (w : World) (i : ℕ) (l : MMListLocked) (start len : ℕ) : Except MMPanic World := do
  match ← l.unmap start len with
  | (.error _, l) => pure (w.setList i l)
  | (.ok taken, l) =>
    let w ← (taken.flatMap pagesOf).foldlM (takePage i) w
    pure (w.setList i l)

def protectAttr (permission : Permission) (attr : PageAttribute) : PageAttribute :=
  if !permission.read && !permission.write && !permission.execute then
    { attr with present := false, read := false, write := false, execute := false }
  else
    { attr with
      read := permission.read
      write := if attr.copyOnWrite then attr.write else permission.write
      execute := permission.execute }

/-- The treatment of one entry by `protect`. -/
def protectPte (i : ℕ) (permission : Permission) (w : World) (v : ℕ) : Except MMPanic World :=
  let pte := w.ptes i v
  match pte.attr.asPageAttr with
  | none => .error .notPageAttribute
  | some attr => .ok (w.setPte i v ⟨pte.pfn, protectAttr permission attr⟩)

def protect (w : World) (i : ℕ) (l : MMListLocked) (start len : ℕ) (permission : Permission) :
    Except MMPanic World := do
  let (_, mids, l) ← l.protect start len permission
  let w ← (mids.flatMap pagesOf).foldlM (protectPte i permission) w
  pure (w.setList i l)

/-! ### `new_cloned` and `drop` -/

def setCopyOnWrite (i j : ℕ) (w : World) (v : ℕ) : Except MMPanic World :=
  let pte := w.ptes i v
  match pte.attr.asPageAttr with
  | none => .error .notPageAttribute
  | some attr =>
    if !(attr.present || attr.mapped) then .ok w
    else do
      let attr := { attr with write := false, dirty := false, copyOnWrite := true }
      fromRaw pte.pfn
      pure (((w.cloneRef pte.pfn).setPte j v ⟨pte.pfn, { attr with accessed := false }⟩).setPte i v
        ⟨pte.pfn, attr⟩)

/-- The body of the loop of `PageTableExt::set_copied`. -/
def setCopied (i j : ℕ) (w : World) (v : ℕ) : Except MMPanic World := do
  let pte := w.ptes i v
  fromRaw pte.pfn
  pure ((w.cloneRef pte.pfn).setPte j v pte)

def cloneArea (i j : ℕ) (w : World) (area : MMArea) : Except MMPanic World :=
  if !area.isShared then (pagesOf area.range).foldlM (setCopyOnWrite i j) w
  else (pagesOf area.range).foldlM (setCopied i j) w

def newCloned (w : World) (i j : ℕ) (l : MMListLocked) : Except MMPanic World := do
  let w := { w with ptes := update w.ptes j fun _ => {} }
  let w ← l.areas.elems.foldlM (cloneArea i j) w
  pure (w.setList j l)

def dropArea (i : ℕ) (w : World) (area : MMArea) : Except MMPanic World :=
  if area.isShared then (pagesOf area.range).foldlM (takeShared i) w
  else (pagesOf area.range).foldlM (takePage i) w

/-- `MMListInner::drop`, and the end of the page table. -/
def dropList (w : World) (i : ℕ) (l : MMListLocked) : Except MMPanic World := do
  let w ← l.areas.elems.foldlM (dropArea i) w
  pure { w with lists := update w.lists i none,
                ptes := update w.ptes i fun _ => {} }

/-! ### Page faults -/

def handleCow (w : World) (pick : Pick) (area : MMArea) (pfn : PFN) (attr : PageAttribute) :
    Except MMPanic (PFN × PageAttribute × World) := do
  let attr := { attr with copyOnWrite := false, write := area.permission.write }
  fromRaw pfn
  if (w.frames pfn).refcount = 1 then pure (pfn, attr, w)
  else do
    let data := if pfn = w.emptyPage then fun _ => 0 else (w.frames pfn).data
    let (newPage, w) ← w.allocPage pick data
    let w ← w.dropRef pfn
    pure (newPage, { attr with accessed := false }, w)

def withPage (w : World) (pick : Pick) (io : PageIo) (file index : ℕ) :
    Except MMPanic (KResult (Option PFN) × World) :=
  match io, w.caches file index with
  | .noPageCache, _ => .error .noPageCache
  | .behindEnd, _ => .ok (.ok none, w)
  | _, some p => .ok (.ok (some p), w)
  | .fails err, none => do
    let (_, w) ← w.allocPage pick fun _ => 0
    pure (.error err, w)
  | .page data, none => do
    let (p, w) ← w.allocPage pick data
    pure (.ok (some p), w.setCache file index p)

def copyPage (w : World) (pick : Pick) (p : PFN) (count : ℕ) : Except MMPanic (PFN × World) :=
  w.allocPage pick fun o => if o < count then (w.frames p).data o else 0

/-- The closure of `handle_mmap`: the entry gets a page `p` of the page cache, or a copy of it. -/
def mapPage (w : World) (pick : Pick) (area : MMArea) (p : PFN) (attr : PageAttribute)
    (count : ℕ) (write : Bool) : Except MMPanic (PFN × PageAttribute × World) :=
  if !write then
    if area.isShared then
      .ok (p, if area.permission.write then { attr with write := true } else attr, w.cloneRef p)
    else do
      let (pfn, w) ←
        (if area.permission.write || count < PAGE_SIZE then w.copyPage pick p count
        else pure (p, w.cloneRef p))
      pure (pfn, if area.permission.write then { attr with copyOnWrite := true } else attr, w)
  else do
    let (pfn, w) ← (if area.isShared then pure (p, w.cloneRef p) else w.copyPage pick p count)
    pure (pfn, { attr with write := true }, w)

def handleMmap (w : World) (pick : Pick) (backend : Backend) (area : MMArea)
    (attr : PageAttribute) (offset : ℕ) (write : Bool) :
    Except MMPanic (KResult (PFN × PageAttribute) × World) :=
  match area.mapping with
  | .anonymous => .error .anonymousMapped
  | .file m => do
    assertOr (offset < m.length) .offsetOutOfRange
    let index := (m.offset + offset) / PAGE_SIZE
    match ← w.withPage pick (backend m.file index) m.file index with
    | (.error err, w) => pure (.error err, w)
    | (.ok none, w) => pure (.error .EINVAL, w)
    | (.ok (some p), w) =>
      let (pfn, attr, w) ← w.mapPage pick area p attr (min (m.length - offset) PAGE_SIZE) write
      pure (.ok (pfn, { attr with present := true, mapped := false }), w)

/-- The resolution of an entry by `MMArea::handle`: what it holds before the flags of the access are
set. -/
def resolve (w : World) (pick : Pick) (backend : Backend) (area : MMArea) (pfn : PFN)
    (attr : PageAttribute) (offset : ℕ) (write : Bool) :
    Except MMPanic (KResult (PFN × PageAttribute) × World) := do
  let (pfn, attr, w) ←
    (if attr.copyOnWrite then w.handleCow pick area pfn attr else pure (pfn, attr, w))
  if attr.mapped then w.handleMmap pick backend area attr offset write
  else pure (.ok (pfn, attr), w)

def handle (w : World) (pick : Pick) (backend : Backend) (area : MMArea) (i v offset : ℕ)
    (write : Bool) : Except MMPanic (KResult Unit × World) :=
  match (w.ptes i v).attr.asPageAttr with
  | none => .error .notPageAttribute
  | some attr => do
    match ← w.resolve pick backend area (w.ptes i v).pfn attr offset write with
    | (.error err, w) => pure (.error err, w)
    | (.ok (pfn, attr), w) =>
      pure (.ok (), w.setPte i v
        ⟨pfn, { attr with accessed := true, dirty := attr.dirty || write }⟩)

/-- The access that a fault is about: the flag set in `PageFaultErrorCode`. -/
inductive Access where
  | read
  | write
  | instructionFetch
  deriving DecidableEq

def granted (permission : Permission) : Access → Bool
  | .read => permission.read
  | .write => permission.write
  | .instructionFetch => permission.execute

/-- `handle_user_page_fault`; the result says whether the access is tried again. -/
def handleUserPageFault (w : World) (pick : Pick) (backend : Backend) (i : ℕ) (l : MMListLocked)
    (addr : ℕ) (access : Access) : Except MMPanic (Bool × World) :=
  match l.areas.overlappingAddr addr with
  | none => .ok (false, w)
  | some area =>
    if !granted area.permission access then .ok (false, w)
    else do
      let (result, w) ← w.handle pick backend area i (addr / PAGE_SIZE)
        (floor addr - area.range.start) (access = .write)
      pure (result.isOk, w)

/-- `handle_kernel_page_fault`; the result says whether the access is tried again. -/
def handleKernelPageFault (w : World) (pick : Pick) (backend : Backend) (i : ℕ)
    (l : MMListLocked) (addr : ℕ) (write : Bool) : Except MMPanic (Bool × World) :=
  match l.areas.overlappingAddr addr with
  | none => .ok (false, w)
  | some area => do
    let (result, w) ← w.handle pick backend area i (addr / PAGE_SIZE)
      (floor addr - area.range.start) write
    pure (result.isOk, w)

/-! ### Accesses of the kernel to user memory -/

/-- The slice of a page that an access from `current` to `accessEnd` covers. -/
structure Slice where
  pageStart : ℕ
  startOffset : ℕ
  endOffset : ℕ
  /-- The position of the slice in the buffer of the caller. -/
  dataOffset : ℕ

def sliceOf (current accessEnd offset v : ℕ) : Slice :=
  let pageStart := v * PAGE_SIZE
  let startOffset := if pageStart < current then current - pageStart else 0
  { pageStart := pageStart
    startOffset := startOffset
    endOffset := if pageStart + PAGE_SIZE > accessEnd then accessEnd - pageStart else PAGE_SIZE
    dataOffset := offset + (pageStart + startOffset - current) }

/-- The inner loop of `read_bytes` and `access_mut`: visit the pages until one fails. -/
def walkPages {σ : Type} (visit : σ → MMArea → Slice → Except MMPanic (KResult Unit × σ))
    (area : MMArea) (current accessEnd offset : ℕ) :
    List ℕ → σ → Except MMPanic (KResult Unit × σ)
  | [], s => .ok (.ok (), s)
  | v :: pages, s => do
    match ← visit s area (sliceOf current accessEnd offset v) with
    | (.error err, s) => pure (.error err, s)
    | (.ok (), s) => walkPages visit area current accessEnd offset pages s

/-- The loop of `read_bytes` and `access_mut` over the areas; `none` while it is still running. -/
def walk {σ : Type} (visit : σ → MMArea → Slice → Except MMPanic (KResult Unit × σ))
    (areas : Areas) : ℕ → ℕ → ℕ → ℕ → σ → Except MMPanic (Option (KResult Unit) × σ)
  | 0, _, _, _, s => .ok (none, s)
  | fuel + 1, current, remaining, offset, s =>
    if remaining = 0 then .ok (some (.ok ()), s)
    else
      match areas.overlappingAddr current with
      | none => .ok (some (.error .EFAULT), s)
      | some area => do
        let accessLen := min remaining (area.range.stop - current)
        let accessEnd := current + accessLen
        let range ← AddrRange.new current accessEnd
        match ← walkPages visit area current accessEnd offset (pagesOf range) s with
        | (.error err, s) => pure (some (.error err), s)
        | (.ok (), s) =>
          walk visit areas fuel accessEnd (remaining - accessLen) (offset + accessLen) s

def userSpan (start len : ℕ) : Bool :=
  start < USER_SPACE_MEMORY_TOP && start + len < USER_SPACE_MEMORY_TOP

def readSlice (data : PageData) (s : Slice) : PageData :=
  fun o => if s.startOffset + o < s.endOffset then data (s.startOffset + o) else 0

def writeSlice (old new : PageData) (s : Slice) : PageData :=
  fun o => if s.startOffset ≤ o ∧ o < s.endOffset then new (o - s.startOffset) else old o

def mutPage (pick : Pick) (backend : Backend) (func : ℕ → PageData → PageData) (i : ℕ) (w : World)
    (area : MMArea) (s : Slice) : Except MMPanic (KResult Unit × World) := do
  let v := s.pageStart / PAGE_SIZE
  match ← w.handle pick backend area i v (s.pageStart - area.range.start) true with
  | (.error err, w) => pure (.error err, w)
  | (.ok (), w) => do
    let pfn := (w.ptes i v).pfn
    fromRaw pfn
    pure (.ok (), w.updateFrame pfn fun f =>
      { f with data := writeSlice f.data (func s.dataOffset (readSlice f.data s)) s })

def accessMut (w : World) (pick : Pick) (backend : Backend) (func : ℕ → PageData → PageData)
    (i : ℕ) (l : MMListLocked) (fuel start len : ℕ) : Except MMPanic World :=
  if !userSpan start len then .ok w
  else do
    let (_, w) ← walk (mutPage pick backend func i) l.areas fuel start len 0 w
    pure w

def readPage (pick : Pick) (backend : Backend) (i : ℕ) (s : World × PageData) (area : MMArea)
    (slice : Slice) : Except MMPanic (KResult Unit × World × PageData) := do
  let (w, buffer) := s
  let v := slice.pageStart / PAGE_SIZE
  match ← w.handle pick backend area i v (slice.pageStart - area.range.start) false with
  | (.error err, w) => pure (.error err, w, buffer)
  | (.ok (), w) => do
    let pfn := (w.ptes i v).pfn
    fromRaw pfn
    pure (.ok (), w, fun o =>
      if slice.dataOffset ≤ o ∧ o < slice.dataOffset + (slice.endOffset - slice.startOffset) then
        readSlice (w.frames pfn).data slice (o - slice.dataOffset)
      else buffer o)

def readBytes (w : World) (pick : Pick) (backend : Backend) (i : ℕ) (l : MMListLocked)
    (fuel start len : ℕ) (buffer : PageData) : Except MMPanic (World × PageData) :=
  if !userSpan start len then .ok (w, buffer)
  else do
    let (_, s) ← walk (readPage pick backend i) l.areas fuel start len 0 (w, buffer)
    pure s

/-! ### Accesses of user programs -/

/-- The hardware lets a user program write through the entry. -/
def storable (pte : PTE) : Bool := pte.attr.present && pte.attr.write && pte.attr.user

/-- A store of a user program that the hardware lets through. -/
def store (w : World) (i addr : ℕ) (byte : UInt8) : World :=
  w.updateFrame (w.ptes i (addr / PAGE_SIZE)).pfn fun f =>
    { f with data := update f.data (addr % PAGE_SIZE) byte }

end World

end Dlutos
