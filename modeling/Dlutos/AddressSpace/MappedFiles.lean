import Dlutos.AddressSpace.AreaOperations
import Dlutos.AddressSpace.World
import Dlutos.Foundation.Transition

/-!
# Areas of files stay inside their mappings

The callers of the address-space code with the arguments they compute: `mmap`, `munmap` and
`mprotect` of `syscall/mm.rs`, shared memory, the segments of an ELF file, and `fork`.  `assigned`
is what the mapping calls assigned to the addresses: the file and the offset in it, or nothing for
anonymous memory.

The numbers of the calls are words of 64 bits.  `align_up` panics if its result does not fit; other
additions and subtractions wrap, and `AddrRange::new` refuses a range whose end has wrapped around.
-/

namespace Dlutos.MappedFiles

open Addr AddrRange ExceptLoop Transition

/-! ### Arithmetic of words -/

inductive CallPanic where
  /-- The result of `align_up` does not fit into a word. -/
  | overflow
  | mm (e : MMPanic)
  deriving DecidableEq

def fromMM {α : Type} : Except MMPanic α → Except CallPanic α
  | .error e => .error (.mm e)
  | .ok a => .ok a

def wrap (n : ℕ) : ℕ := n % 2 ^ 64

/-- The difference of two words. -/
def wrapSub (a b : ℕ) : ℕ := wrap (a + (2 ^ 64 - b))

/-- `align_up(PAGE_SIZE)`. -/
def alignUp (n : ℕ) : Except CallPanic ℕ :=
  if ceil n < 2 ^ 64 then .ok (ceil n) else .error .overflow

/-! ### Address spaces -/

structure Space where
  locked : MMListLocked := {}
  assigned : ℕ → Option (ℕ × ℕ) := fun _ => none

def assign (mapping : Mapping) (addr len : ℕ) (old : ℕ → Option (ℕ × ℕ)) (p : ℕ) :
    Option (ℕ × ℕ) :=
  if addr ≤ p ∧ p < addr + len then
    match mapping with
    | .anonymous => none
    | .file m => some (m.file, m.offset + (p - addr))
  else old p

namespace Space

def mmapFixed (x : Space) (addr len : ℕ) (mapping : Mapping) (permission : Permission)
    (isShared : Bool) : Except CallPanic (KResult Unit × Space) := do
  assertOr (addr + len < 2 ^ 64) (.mm .rangeInverted)
  match ← fromMM (x.locked.mmap addr len mapping permission isShared) with
  | (.ok (), l) => pure (.ok (), ⟨l, assign mapping addr len x.assigned⟩)
  | (.error err, l) => pure (.error err, { x with locked := l })

def mmapHint (x : Space) (fuel hint len : ℕ) (mapping : Mapping) (permission : Permission)
    (isShared : Bool) : Except CallPanic Space := do
  assertOr ((if hint = 0 then MMListLocked.randomStart else hint) + len < 2 ^ 64)
    (.mm .rangeInverted)
  match ← fromMM (x.locked.mmapHint fuel hint len mapping permission isShared) with
  | none => pure x
  | some (.ok addr, l) => pure ⟨l, assign mapping addr len x.assigned⟩
  | some (.error _, l) => pure { x with locked := l }

def unmap (x : Space) (start len : ℕ) : Except CallPanic (KResult Unit × Space) := do
  let stop := wrap (ceil (wrap (start + len)))
  assertOr (start ≤ stop) (.mm .rangeInverted)
  let (r, l) ← fromMM (x.locked.unmap start (stop - start))
  pure (r.map fun _ => (), { x with locked := l })

/-- `MMList::protect`, with a length of whole pages. -/
def protect (x : Space) (start len : ℕ) (permission : Permission) :
    Except CallPanic (KResult Unit × Space) := do
  assertOr (start + len < 2 ^ 64) (.mm .rangeInverted)
  let (r, _, l) ← fromMM (x.locked.protect start len permission)
  pure (r, { x with locked := l })

end Space

/-! ### The calls -/

/-- The arguments of `mmap`; `shmFile` is the file created for shared anonymous memory. -/
structure MmapArgs where
  fuel : ℕ
  addr : ℕ
  len : ℕ
  pgoffset : ℕ
  file : Option ℕ
  shmFile : ℕ
  isAnonymous : Bool
  isShared : Bool
  isFixed : Bool
  permission : Permission

def MmapArgs.mapping (args : MmapArgs) (len : ℕ) : Except CallPanic (Option Mapping) :=
  if args.isAnonymous then
    if args.pgoffset ≠ 0 then .ok none
    else if !args.isShared then .ok (some .anonymous)
    else do
      let m ← fromMM (FileMapping.new args.shmFile 0 len)
      pure (some (.file m))
  else
    match args.file with
    | none => .ok none
    | some file => do
      let m ← fromMM (FileMapping.new file args.pgoffset len)
      pure (some (.file m))

/-- A program header of type `Load`. -/
structure ProgramHeader where
  offset : ℕ
  fileSize : ℕ
  virtualAddr : ℕ
  memSize : ℕ
  permission : Permission

/-- A shared-memory segment; its size was rounded up to whole pages when it was created. -/
structure ShmArea where
  area : ℕ
  segsz : ℕ
  aligned : IsPageAligned segsz

namespace Space

def mapArgs (x : Space) (args : MmapArgs) (len : ℕ) (mapping : Mapping) :
    Except CallPanic Space :=
  if args.isFixed then do
    match ← x.unmap args.addr len with
    | (.error _, x) => pure x
    | (.ok (), x) =>
      let r ← x.mmapFixed args.addr len mapping args.permission args.isShared
      pure r.2
  else x.mmapHint args.fuel args.addr len mapping args.permission args.isShared

def doMmap2 (x : Space) (args : MmapArgs) : Except CallPanic Space :=
  if ¬ IsPageAligned args.addr ∨ ¬ IsPageAligned args.pgoffset ∨ args.len = 0 then pure x
  else do
    let len ← alignUp args.len
    match ← args.mapping len with
    | none => pure x
    | some mapping => x.mapArgs args len mapping

def munmap (x : Space) (addr len : ℕ) : Except CallPanic Space :=
  if ¬ IsPageAligned addr ∨ len = 0 then pure x
  else do
    let len ← alignUp len
    let r ← x.unmap addr len
    pure r.2

def mprotect (x : Space) (addr len : ℕ) (permission : Permission) : Except CallPanic Space :=
  if ¬ IsPageAligned addr ∨ len = 0 then pure x
  else do
    let len ← alignUp len
    let r ← x.protect addr len permission
    pure r.2

def shmat (x : Space) (fuel : ℕ) (segment : ShmArea) (addr : ℕ) (rnd : Bool)
    (permission : Permission) : Except CallPanic Space :=
  let mapping := Mapping.file ⟨segment.area, 0, segment.segsz, isPageAligned_zero⟩
  if addr ≠ 0 then
    if ¬ IsPageAligned addr ∧ !rnd then pure x
    else do
      let r ← x.mmapFixed (floor addr) segment.segsz mapping permission true
      pure r.2
  else x.mmapHint fuel 0 segment.segsz mapping permission true

def shmdt (x : Space) (addr size : ℕ) : Except CallPanic Space := do
  let r ← x.unmap addr size
  pure r.2

def loadFile (x : Space) (file vmapStart fileLen loadEnd : ℕ) (ph : ProgramHeader) :
    Except CallPanic (KResult Unit × Space) :=
  if fileLen ≠ 0 then do
    let m ← fromMM (FileMapping.new file (floor ph.offset) (wrapSub loadEnd vmapStart))
    x.mmapFixed vmapStart fileLen (.file m) ph.permission false
  else pure (.ok (), x)

def loadSegment (x : Space) (file base : ℕ) (ph : ProgramHeader) : Except CallPanic Space := do
  let virtualAddr := wrap (base + ph.virtualAddr)
  let vmemEnd := wrap (virtualAddr + ph.memSize)
  let loadEnd := wrap (virtualAddr + ph.fileSize)
  let vmapStart := floor virtualAddr
  let vmemLen := wrapSub (wrap (ceil vmemEnd)) vmapStart
  let fileLen := wrapSub (wrap (ceil loadEnd)) vmapStart
  match ← x.loadFile file vmapStart fileLen loadEnd ph with
  | (.error _, x) => pure x
  | (.ok (), x) =>
    if vmemLen > fileLen then do
      let r ← x.mmapFixed (wrap (vmapStart + fileLen)) (vmemLen - fileLen) .anonymous ph.permission
        false
      pure r.2
    else pure x

end Space

/-! ### Runs -/

/-- The calls on a family of address spaces; the first argument says which one is meant. -/
inductive Op where
  | new
  | newCloned (i : ℕ)
  | mmap (i : ℕ) (args : MmapArgs)
  | munmap (i addr len : ℕ)
  | mprotect (i addr len : ℕ) (permission : Permission)
  | shmat (i fuel : ℕ) (segment : ShmArea) (addr : ℕ) (rnd : Bool) (permission : Permission)
  | shmdt (i addr size : ℕ)
  | loadSegment (i file base : ℕ) (ph : ProgramHeader)

def onSpace (s : List Space) (i : ℕ) (f : Space → Except CallPanic Space) :
    Except CallPanic (List Space) :=
  match s[i]? with
  | none => .ok s
  | some x => do
    let x ← f x
    pure (s.set i x)

def run (s : List Space) : Op → Except CallPanic (List Space)
  | .new => .ok (s ++ [{}])
  | .newCloned i => .ok (s ++ s[i]?.toList)
  | .mmap i args => onSpace s i fun x => x.doMmap2 args
  | .munmap i addr len => onSpace s i fun x => x.munmap addr len
  | .mprotect i addr len permission => onSpace s i fun x => x.mprotect addr len permission
  | .shmat i fuel segment addr rnd permission =>
    onSpace s i fun x => x.shmat fuel segment addr rnd permission
  | .shmdt i addr size => onSpace s i fun x => x.shmdt addr size
  | .loadSegment i file base ph => onSpace s i fun x => x.loadSegment file base ph

/-- The address spaces as a system; initially there is none, and the calls may be made with any
arguments. -/
def system : System (List Space) Op CallPanic where
  init s := s = []
  allowed _ _ := True
  run := run

/-! ### The invariant -/

/-- The areas are as the kernel needs them, and show the addresses the bytes assigned to them. -/
structure SpaceInv (x : Space) : Prop where
  areas : AreasInv x.locked.areas
  assigned : ∀ a ∈ x.locked.areas.elems, ∀ m, a.mapping = .file m → ∀ p, a.range.Contains p →
    x.assigned p = some (m.file, m.offset + (p - a.range.start))

theorem SpaceInv.empty : SpaceInv {} :=
  ⟨AreasInv.empty, fun _ ha => absurd ha List.not_mem_nil⟩

def NotMapping (e : CallPanic) : Prop := e ≠ .mm .mappingUnaligned

/-- The triple of the calls: no assertion of `FileMapping::new` fires, and the invariant is kept. -/
abbrev Keeps : Except CallPanic Space → Prop := Ensures NotMapping SpaceInv

/-- The triple of the functions of `MMList`. -/
abbrev KeepsResult : Except CallPanic (KResult Unit × Space) → Prop :=
  Ensures NotMapping fun r => SpaceInv r.2

theorem ensures_fits {c : Prop} [Decidable c] :
    Ensures NotMapping (fun _ => c) (assertOr c (.mm .rangeInverted)) :=
  ensures_assertOr fun _ h => by cases h

theorem ensures_alignUp (n : ℕ) : Ensures NotMapping IsPageAligned (alignUp n) := by
  unfold alignUp
  split
  · exact isPageAligned_ceil n
  · intro h
    cases h

section Steps

variable {x : Space}

theorem SpaceInv.parts (h : SpaceInv x) {l : MMListLocked} (hl : AreasInv l.areas)
    (hpart : ∀ a ∈ l.areas.elems, ∃ b ∈ x.locked.areas.elems, IsPart a b) :
    SpaceInv { x with locked := l } := by
  refine ⟨hl, fun a ha m hm p hp => ?_⟩
  obtain ⟨b, hb, hpart⟩ := hpart a ha
  have hskips := hpart.mapping
  have hwithin := hpart.within
  rw [hm] at hskips
  cases hmb : b.mapping with
  | anonymous =>
    rw [hmb] at hskips
    exact hskips.elim
  | file m' =>
    rw [hmb] at hskips
    obtain ⟨hfile, hoffset, -⟩ := hskips
    unfold Within at hwithin
    unfold AddrRange.Contains at hp
    have hassigned := h.assigned b hb m' hmb p ⟨by omega, by omega⟩
    rw [show ({ x with locked := l } : Space).assigned = x.assigned from rfl, hassigned, hfile,
      hoffset]
    congr 2
    omega

variable {len : ℕ} {mapping : Mapping}

theorem SpaceInv.mapped (h : SpaceInv x) {l : MMListLocked} {addr : ℕ}
    {a : MMArea} (hl : AreasInv l.areas) (hstart : a.range.start = addr)
    (hstop : a.range.stop = addr + len) (hmapping : a.mapping = mapping)
    (hmem : ∀ b, b ∈ l.areas.elems ↔ b = a ∨ b ∈ x.locked.areas.elems)
    (hapart : ∀ b ∈ x.locked.areas.elems, b.Before a ∨ a.Before b) :
    SpaceInv ⟨l, assign mapping addr len x.assigned⟩ := by
  refine ⟨hl, fun b hb m hm p hp => ?_⟩
  unfold AddrRange.Contains at hp
  dsimp only [assign]
  obtain rfl | hold := (hmem b).mp hb
  · rw [if_pos (by omega), ← hmapping, hm, hstart]
  · have hbefore := hapart b hold
    unfold MMArea.Before AddrRange.Before at hbefore
    rw [if_neg (by omega)]
    exact h.assigned b hold m hm p hp

theorem SpaceInv.mmapFixed (h : SpaceInv x) {addr : ℕ} (permission : Permission) (isShared : Bool)
    (haddr : IsPageAligned addr) (hlen : IsPageAligned len) (hcovers : mapping.Covers len) :
    KeepsResult (x.mmapFixed addr len mapping permission isShared) := by
  unfold Space.mmapFixed
  refine ensures_fits.bind fun _ _ => ?_
  obtain hrun | ⟨a, areas, hrun, hareas, rfl, hmem, hapart⟩ :=
    h.areas.mmap permission isShared haddr hlen hcovers
  · rw [hrun]
    exact h
  · rw [hrun]
    exact h.mapped hareas rfl rfl rfl hmem hapart

theorem SpaceInv.mmapHint (h : SpaceInv x) (fuel : ℕ) {hint : ℕ}
    (permission : Permission) (isShared : Bool) (hhint : IsPageAligned hint)
    (hlen : IsPageAligned len) (hcovers : mapping.Covers len) :
    Keeps (x.mmapHint fuel hint len mapping permission isShared) := by
  unfold Space.mmapHint
  refine ensures_fits.bind fun _ _ => ?_
  obtain ⟨r, hrun, hr⟩ := mmapHint_spec h.areas fuel permission isShared hhint hlen hcovers
  rw [hrun]
  cases r with
  | none => exact h
  | some y =>
    obtain ⟨err, rfl⟩ | ⟨addr, haddr, hy, hmap⟩ := hr y rfl
    · exact h
    · obtain ⟨r, l⟩ := y
      obtain rfl : r = .ok addr := hy
      obtain herr | ⟨a, areas, hok, hareas, rfl, hmem, hapart⟩ :=
        h.areas.mmap permission isShared haddr hlen hcovers
      · cases herr.symm.trans hmap
      · cases hok.symm.trans hmap
        exact h.mapped hareas rfl rfl rfl hmem hapart

theorem SpaceInv.unmap (h : SpaceInv x) (start len : ℕ) : KeepsResult (x.unmap start len) := by
  unfold Space.unmap
  refine ensures_fits.bind fun _ _ => ?_
  by_cases hstart : IsPageAligned start
  · obtain hrun | ⟨areas, taken, hrun, hareas, hres⟩ := h.areas.unmap _ hstart
    · rw [hrun]
      exact h
    · rw [hrun]
      refine h.parts hareas fun a ha => ?_
      obtain ⟨b, hb, hpart, -⟩ := hres.part a ha
      exact ⟨b, hb, hpart⟩
  · unfold MMListLocked.unmap assertOr
    rw [if_neg (fun hfloor => hstart (floor_eq_self.mp hfloor))]
    intro h
    cases h

theorem SpaceInv.protect (h : SpaceInv x) {start : ℕ} (permission : Permission)
    (hstart : IsPageAligned start) : KeepsResult (x.protect start len permission) := by
  unfold Space.protect
  refine ensures_fits.bind fun _ _ => ?_
  by_cases hlen : len = 0
  · unfold MMListLocked.protect assertOr
    rw [if_pos (floor_eq_self.mpr hstart), ok_bind, if_neg (not_not.mpr hlen)]
    intro h
    cases h
  · obtain hrun | ⟨r, areas, mids, hrun, hareas, hres⟩ := h.areas.protect permission hstart hlen
    · rw [hrun]
      exact h
    · rw [hrun]
      refine h.parts hareas fun a ha => ?_
      obtain ⟨b, hb, hpart, -⟩ := hres.part a ha
      exact ⟨b, hb, hpart⟩

/-! ### The calls keep the invariant -/

theorem ensures_new (file : ℕ) {offset : ℕ} (length : ℕ) (h : IsPageAligned offset) :
    Ensures NotMapping (fun m => m.length = length)
      (fromMM (FileMapping.new file offset length)) := by
  unfold FileMapping.new
  rw [dif_pos h]
  rfl

theorem covers_of_length {m : FileMapping} (h : m.length = len) :
    (Mapping.file m).Covers len := by
  unfold Mapping.Covers PAGE_SIZE
  omega

theorem ensures_mapping (args : MmapArgs) (len : ℕ) (h : IsPageAligned args.pgoffset) :
    Ensures NotMapping (fun r => ∀ mapping ∈ r, mapping.Covers len) (args.mapping len) := by
  unfold MmapArgs.mapping
  split
  · split
    · intro mapping hm
      cases hm
    · split
      · intro mapping hm
        cases hm
        exact trivial
      · refine (ensures_new args.shmFile len isPageAligned_zero).bind fun m hm mapping hmem => ?_
        cases hmem
        exact covers_of_length hm
  · split
    · intro mapping hm
      cases hm
    · refine (ensures_new _ len h).bind fun m hm mapping hmem => ?_
      cases hmem
      exact covers_of_length hm

theorem SpaceInv.mapArgs (h : SpaceInv x) (args : MmapArgs)
    (haddr : IsPageAligned args.addr) (hlen : IsPageAligned len) (hcovers : mapping.Covers len) :
    Keeps (x.mapArgs args len mapping) := by
  unfold Space.mapArgs
  split
  · refine (h.unmap args.addr len).bind fun r hr => ?_
    split
    · exact hr
    · exact (SpaceInv.mmapFixed hr args.permission args.isShared haddr hlen hcovers).bind
        fun r hr => hr
  · exact h.mmapHint args.fuel args.permission args.isShared haddr hlen hcovers

theorem SpaceInv.doMmap2 (h : SpaceInv x) (args : MmapArgs) : Keeps (x.doMmap2 args) := by
  unfold Space.doMmap2
  split
  · exact h
  · rename_i hargs
    simp only [not_or, not_not] at hargs
    obtain ⟨haddr, hoffset, -⟩ := hargs
    refine (ensures_alignUp args.len).bind fun len hlen => ?_
    refine (ensures_mapping args len hoffset).bind fun r hr => ?_
    split
    · exact h
    · exact h.mapArgs args haddr hlen (hr _ rfl)

theorem SpaceInv.munmap (h : SpaceInv x) (addr len : ℕ) : Keeps (x.munmap addr len) := by
  unfold Space.munmap
  split
  · exact h
  · refine (ensures_alignUp len).bind fun len _ => ?_
    exact (h.unmap addr len).bind fun r hr => hr

theorem SpaceInv.mprotect (h : SpaceInv x) (addr len : ℕ) (permission : Permission) :
    Keeps (x.mprotect addr len permission) := by
  unfold Space.mprotect
  split
  · exact h
  · rename_i hargs
    rw [not_or, not_not] at hargs
    refine (ensures_alignUp len).bind fun len _ => ?_
    exact (h.protect permission hargs.1).bind fun r hr => hr

theorem SpaceInv.shmat (h : SpaceInv x) (fuel : ℕ) (segment : ShmArea) (addr : ℕ) (rnd : Bool)
    (permission : Permission) : Keeps (x.shmat fuel segment addr rnd permission) := by
  have hcovers : (Mapping.file
      ⟨segment.area, 0, segment.segsz, isPageAligned_zero⟩).Covers segment.segsz :=
    covers_of_length rfl
  unfold Space.shmat
  dsimp only
  split
  · split
    · exact h
    · exact (h.mmapFixed permission true (isPageAligned_floor addr) segment.aligned
        hcovers).bind fun r hr => hr
  · exact h.mmapHint fuel permission true isPageAligned_zero segment.aligned hcovers

theorem isPageAligned_wrap {n : ℕ} (h : IsPageAligned n) : IsPageAligned (wrap n) := by
  unfold IsPageAligned PAGE_SIZE at h ⊢
  unfold wrap
  omega

theorem isPageAligned_wrapSub {a b : ℕ} (ha : IsPageAligned a) (hb : IsPageAligned b) :
    IsPageAligned (wrapSub (wrap a) b) := by
  have hword : IsPageAligned (2 ^ 64) := by decide
  exact isPageAligned_wrap ((isPageAligned_wrap ha).add (hword.sub hb))

theorem covers_segment (vmapStart loadEnd : ℕ) :
    wrapSub (wrap (ceil loadEnd)) vmapStart < wrapSub loadEnd vmapStart + PAGE_SIZE := by
  have hge := le_ceil loadEnd
  have hceil := ceil_lt_add loadEnd
  unfold PAGE_SIZE at hceil ⊢
  unfold wrapSub wrap
  omega

theorem SpaceInv.loadFile (h : SpaceInv x) (file : ℕ) {vmapStart : ℕ} (loadEnd : ℕ)
    (ph : ProgramHeader) (hstart : IsPageAligned vmapStart) :
    KeepsResult
      (x.loadFile file vmapStart (wrapSub (wrap (ceil loadEnd)) vmapStart) loadEnd ph) := by
  unfold Space.loadFile
  split
  · refine (ensures_new file _ (isPageAligned_floor ph.offset)).bind fun m hm => ?_
    have hcovers : (Mapping.file m).Covers (wrapSub (wrap (ceil loadEnd)) vmapStart) := by
      change _ < m.length + PAGE_SIZE
      rw [hm]
      exact covers_segment vmapStart loadEnd
    exact h.mmapFixed ph.permission false hstart
      (isPageAligned_wrapSub (isPageAligned_ceil loadEnd) hstart) hcovers
  · exact h

theorem SpaceInv.loadSegment (h : SpaceInv x) (file base : ℕ) (ph : ProgramHeader) :
    Keeps (x.loadSegment file base ph) := by
  unfold Space.loadSegment
  have hstart := isPageAligned_floor (wrap (base + ph.virtualAddr))
  have hfile := isPageAligned_wrapSub (isPageAligned_ceil
    (wrap (wrap (base + ph.virtualAddr) + ph.fileSize))) hstart
  have hmem := isPageAligned_wrapSub (isPageAligned_ceil
    (wrap (wrap (base + ph.virtualAddr) + ph.memSize))) hstart
  refine (h.loadFile file _ ph hstart).bind fun r hr => ?_
  split
  · exact hr
  · split
    · have hcovers : ∀ len, Mapping.anonymous.Covers len := fun _ => trivial
      exact (SpaceInv.mmapFixed hr ph.permission false (isPageAligned_wrap (hstart.add hfile))
        (hmem.sub hfile) (hcovers _)).bind fun r hr => hr
    · exact hr

theorem ensures_onSpace {s : List Space} (hs : ∀ x ∈ s, SpaceInv x) (i : ℕ)
    {f : Space → Except CallPanic Space} (hf : ∀ x, SpaceInv x → Keeps (f x)) :
    Ensures NotMapping (fun t => ∀ x ∈ t, SpaceInv x) (onSpace s i f) := by
  unfold onSpace
  split
  · exact hs
  · rename_i x hx
    refine (hf x (hs x (List.mem_of_getElem? hx))).bind fun y hy z hz => ?_
    obtain hz | rfl := List.mem_or_eq_of_mem_set hz
    · exact hs z hz
    · exact hy

theorem ensures_run {s : List Space} (hs : ∀ x ∈ s, SpaceInv x) (op : Op) :
    Ensures NotMapping (fun t => ∀ x ∈ t, SpaceInv x) (run s op) := by
  cases op with
  | new =>
    intro x hx
    rcases List.mem_append.mp hx with hx | hx
    · exact hs x hx
    · rw [List.mem_singleton.mp hx]
      exact SpaceInv.empty
  | newCloned i =>
    intro x hx
    rcases List.mem_append.mp hx with hx | hx
    · exact hs x hx
    · exact hs x (List.mem_of_getElem? (Option.mem_toList.mp hx))
  | mmap i args => exact ensures_onSpace hs i fun x hx => hx.doMmap2 args
  | munmap i addr len => exact ensures_onSpace hs i fun x hx => hx.munmap addr len
  | mprotect i addr len permission =>
    exact ensures_onSpace hs i fun x hx => hx.mprotect addr len permission
  | shmat i fuel segment addr rnd permission =>
    exact ensures_onSpace hs i fun x hx => hx.shmat fuel segment addr rnd permission
  | shmdt i addr size =>
    exact ensures_onSpace hs i fun x hx => (hx.unmap addr size).bind fun r hr => hr
  | loadSegment i file base ph =>
    exact ensures_onSpace hs i fun x hx => hx.loadSegment file base ph

end Steps

/-! ### Faults -/

def InRange (e : MMPanic) : Prop := e ≠ .offsetOutOfRange

theorem ensures_allocPage (w : World) (pick : Pick) (data : PageData) :
    Ensures InRange (fun _ => True) (w.allocPage pick data) := by
  unfold World.allocPage
  split
  · intro h
    cases h
  · exact trivial

theorem ensures_withPage (w : World) (pick : Pick) (io : PageIo) (file index : ℕ) :
    Ensures InRange (fun _ => True) (w.withPage pick io file index) := by
  unfold World.withPage
  split
  · intro h
    cases h
  · exact trivial
  · exact trivial
  · exact (ensures_allocPage w pick _).bind fun _ _ => trivial
  · exact (ensures_allocPage w pick _).bind fun _ _ => trivial

theorem ensures_mapPage (w : World) (pick : Pick) (area : MMArea) (p : PFN) (attr : PageAttribute)
    (count : ℕ) (write : Bool) :
    Ensures InRange (fun _ => True) (w.mapPage pick area p attr count write) := by
  unfold World.mapPage World.copyPage
  split
  · split
    · exact trivial
    · refine Ensures.bind (P := fun _ => True) ?_ fun _ _ => trivial
      split
      · exact ensures_allocPage w pick _
      · exact trivial
  · refine Ensures.bind (P := fun _ => True) ?_ fun _ _ => trivial
    split
    · exact trivial
    · exact ensures_allocPage w pick _

theorem ensures_handleMmap (w : World) (pick : Pick) (backend : Backend) {area : MMArea}
    (attr : PageAttribute) {offset : ℕ} (write : Bool)
    (h : ∀ m, area.mapping = .file m → offset < m.length) :
    Ensures InRange (fun _ => True) (w.handleMmap pick backend area attr offset write) := by
  unfold World.handleMmap
  split
  · intro h
    cases h
  · rename_i m hm
    rw [assertOr_true _ (h m hm), ok_bind]
    refine (ensures_withPage w pick _ _ _).bind fun r _ => ?_
    split
    · exact trivial
    · exact trivial
    · exact (ensures_mapPage _ pick area _ attr _ write).bind fun _ _ => trivial

structure InsideMapping (x : Space) : Prop where
  length : ∀ a ∈ x.locked.areas.elems, ∀ m, a.mapping = .file m → a.range.len ≤ ceil m.length
  offset : ∀ a ∈ x.locked.areas.elems, ∀ m, a.mapping = .file m → ∀ p, a.range.Contains p →
    x.assigned p = some (m.file, m.offset + (p - a.range.start))
  fault : ∀ a ∈ x.locked.areas.elems, ∀ p, a.range.Contains p →
    ∀ (w : World) (pick : Pick) (backend : Backend) (attr : PageAttribute) (write : Bool),
      w.handleMmap pick backend a attr (floor p - a.range.start) write ≠ .error .offsetOutOfRange

section

variable {a : MMArea} {m : FileMapping} (ha : AreaOk a) (hm : a.mapping = .file m)
include ha hm

theorem len_le_ceil : a.range.len ≤ ceil m.length := by
  have hcovers := ha.covers
  have hlen : IsPageAligned a.range.len := ha.stop_aligned.sub ha.start_aligned
  have haligned := isPageAligned_ceil m.length
  have hge := le_ceil m.length
  rw [hm] at hcovers
  unfold Mapping.Covers at hcovers
  unfold IsPageAligned PAGE_SIZE at *
  omega

theorem offset_lt_length {p : ℕ} (hp : a.range.Contains p) :
    floor p - a.range.start < m.length := by
  have hcovers := ha.covers
  have hstart := ha.start_aligned
  have hstop := ha.stop_aligned
  have hfloor := isPageAligned_floor p
  have hle := floor_le p
  rw [hm] at hcovers
  unfold Mapping.Covers AddrRange.len at hcovers
  unfold AddrRange.Contains at hp
  unfold IsPageAligned PAGE_SIZE at *
  omega

end

theorem SpaceInv.insideMapping {x : Space} (h : SpaceInv x) : InsideMapping x where
  length a ha _ hm := len_le_ceil (h.areas.ok a ha) hm
  offset := h.assigned
  fault a ha _ hp w pick backend attr write hrun :=
    (ensures_handleMmap w pick backend attr write fun _ hm =>
      offset_lt_length (h.areas.ok a ha) hm hp).of_error hrun rfl

/-- In every run the areas of files stay inside of their mappings and show the bytes assigned to
them, no fault leaves its mapping, and no assertion of `FileMapping::new` fires. -/
theorem insideMapping_of_reachable (s : List Space) (hs : system.Reachable s) :
    (∀ x ∈ s, InsideMapping x) ∧ ∀ op, run s op ≠ .error (.mm .mappingUnaligned) := by
  obtain ⟨hinv, herror⟩ := System.Reachable.ensures (M := system)
    (P := fun s => ∀ x ∈ s, SpaceInv x) (E := NotMapping)
    (fun s hinit x hx => by rw [show s = [] from hinit] at hx; cases hx)
    (fun s op hs _ => ensures_run hs op) hs
  exact ⟨fun x hx => (hinv x hx).insideMapping, fun op hrun => herror op _ trivial hrun rfl⟩

/-- A segment with an unaligned length loses its middle page and is cloned. -/
theorem insideMapping_after_cut : ∃ s, system.Reachable s ∧
    (s.map fun x => x.locked.areas.elems.map fun a => (a.range.start, a.range.stop)) =
      [[(0x10000, 0x11000), (0x12000, 0x13000), (0x13000, 0x16000)],
        [(0x10000, 0x11000), (0x12000, 0x13000), (0x13000, 0x16000)]] ∧
    (∀ x ∈ s, x.assigned 0x12000 = some (7, 0x6000)) ∧
    (∀ x ∈ s, InsideMapping x) ∧ ∀ op, run s op ≠ .error (.mm .mappingUnaligned) := by
  have h0 : system.Reachable [] := .of_init rfl
  have h4 := h0.after [.new,
    .loadSegment 0 7 0x10000 ⟨0x4123, 0x2345, 0x123, 0x5000, ⟨true, false, false⟩⟩,
    .munmap 0 0x11000 0x1000, .newCloned 0]
    ⟨trivial, trivial, trivial, trivial, trivial⟩
  refine ⟨_, h4, rfl, fun x hx => ?_, insideMapping_of_reachable _ h4⟩
  rcases List.mem_append.mp hx with hx | hx
  · rw [List.mem_singleton.mp hx]
    rfl
  · rw [List.mem_singleton.mp hx]
    rfl

end Dlutos.MappedFiles
