import Dlutos.AddressSpace.AreaInvariant
import Dlutos.AddressSpace.World
import Dlutos.FileCache.Backends
import Dlutos.FileCache.Content
import Dlutos.Foundation.Transition
import Mathlib.Data.Nat.Bitwise

/-!
# Shared mappings of files and their synchronisation

An entry of a page table refers to a page of the page cache of a file.  `MMArea::handle` installs it
on a fault, and marks the cached page as dirty if the area is writable.  `msync` and
`PageCache::fsync` write the dirty pages back and clear the marks; the system call `fsync` does
nothing.  Each page that a failing write-back has written is a step.

After a write-back the entries are still writable, and a store through such an entry does not mark
the page again.
-/

namespace Dlutos.FileCache

open Addr AddrRange ExceptLoop Transition Function

/-! ### Pages and files -/

def CachePage.setDirty (p : CachePage) : CachePage := { p with dirty := true }

def CachePage.put (p : CachePage) (o : ℕ) (b : UInt8) : CachePage :=
  { p with data := update p.data o b }

namespace FileInode

variable {δ : Type} (B : Backend δ)

def modifyPage (f : FileInode δ) (k : ℕ) (g : CachePage → CachePage) : FileInode δ :=
  match f.pages.get k with
  | none => f
  | some p => f.setPage k (g p)

def writeBack (f : FileInode δ) (k : ℕ) : FileInode δ :=
  match f.pages.get k with
  | none => f
  | some p => { f with store := syncPage B f.size f.store (k, p) }.setPage k p.clearDirty

def Durable (f : FileInode δ) : Prop := ∀ o < f.size, B.byte f.store o = f.content B o

structure Settled (f : FileInode δ) : Prop where
  covers : Covers f.pages f.size
  clean : ∀ o p, f.pages.get (o / PAGE_SIZE) = some p → p.dirty = false → o < f.size →
    B.byte f.store o = p.data (o % PAGE_SIZE)

variable {B} {f : FileInode δ}

theorem Settled.setPage (h : f.Settled B) {k : ℕ} {p : CachePage}
    (hcovers : min (f.size - k * PAGE_SIZE) PAGE_SIZE ≤ p.validSize)
    (hclean : ∀ o, o / PAGE_SIZE = k → p.dirty = false → o < f.size →
      B.byte f.store o = p.data (o % PAGE_SIZE)) : (f.setPage k p).Settled B := by
  refine ⟨h.covers.insert hcovers, fun o q hget hdirty ho => ?_⟩
  have hget : (f.pages.insert k p).get (o / PAGE_SIZE) = some q := hget
  rw [SortedMap.get_insert] at hget
  split at hget
  · next hk =>
    cases hget
    exact hclean o hk hdirty ho
  · exact h.clean o q hget hdirty ho

theorem Settled.withPage (h : f.Settled B) (offset : ℕ) : (f.withPage B offset).Settled B := by
  unfold FileInode.withPage
  split
  · exact h
  · split
    · exact h
    · refine h.setPage (le_loadPage_validSize B f offset) fun o ho _ _ => ?_
      exact (loadPage_data B f ho).symm

theorem Settled.modifyPage (h : f.Settled B) {k : ℕ} {g : CachePage → CachePage}
    (hvalid : ∀ p, (g p).validSize = p.validSize)
    (hdirty : ∀ p, f.pages.get k = some p → (g p).dirty = true) : (f.modifyPage k g).Settled B := by
  unfold FileInode.modifyPage
  split
  · exact h
  · next p hget =>
    refine h.setPage (by rw [hvalid]; exact h.covers k p hget) fun o _ hclean => ?_
    rw [hdirty p hget] at hclean
    cases hclean

theorem Settled.mod_lt_validSize (h : f.Settled B) {o : ℕ} {p : CachePage}
    (hget : f.pages.get (o / PAGE_SIZE) = some p) (ho : o < f.size) :
    o % PAGE_SIZE < p.validSize := by
  refine lt_of_lt_of_le (lt_min ?_ (mod_lt_pageSize o)) (h.covers _ p hget)
  exact Nat.lt_sub_of_add_lt (by rwa [Nat.add_comm, Nat.div_add_mod'])

theorem byte_syncPage (hB : B.Faithful) (h : f.Settled B) {k o : ℕ} {p q : CachePage}
    (hget : f.pages.get k = some p) (hq : f.pages.get (o / PAGE_SIZE) = some q)
    (hclean : q.dirty = false ∨ o / PAGE_SIZE = k) (ho : o < f.size) :
    B.byte (syncPage B f.size f.store (k, p)) o = q.data (o % PAGE_SIZE) := by
  unfold syncPage
  dsimp only
  by_cases hk : o / PAGE_SIZE = k
  · subst hk
    obtain rfl : p = q := Option.some.inj (hget.symm.trans hq)
    split_ifs with hdirty
    · have hbyte := hB f.store f.size (o / PAGE_SIZE * PAGE_SIZE) p (o % PAGE_SIZE)
        (h.mod_lt_validSize hget ho)
      rwa [Nat.div_add_mod'] at hbyte
    · exact h.clean o p hq (Bool.not_eq_true _ ▸ hdirty) ho
  · have hold : B.byte f.store o = q.data (o % PAGE_SIZE) :=
      h.clean o q hq (hclean.resolve_right hk) ho
    have hout : o < k * PAGE_SIZE ∨ k * PAGE_SIZE + PAGE_SIZE ≤ o := by
      unfold PAGE_SIZE at *
      omega
    split_ifs
    · rcases B.writePage_other f.store f.size (k * PAGE_SIZE) p o hout with hsame | hend
      · exact hsame.trans hold
      · exact absurd ho (Nat.not_lt.mpr hend.1)
    · exact hold

theorem Settled.writeBack (hB : B.Faithful) (h : f.Settled B) (k : ℕ) :
    (f.writeBack B k).Settled B := by
  unfold FileInode.writeBack
  split
  · exact h
  · next p hget =>
    refine ⟨h.covers.insert (h.covers k p hget), fun o q hq hclean ho => ?_⟩
    have hq : (f.pages.insert k p.clearDirty).get (o / PAGE_SIZE) = some q := hq
    rw [SortedMap.get_insert] at hq
    split at hq
    · next hk =>
      cases hq
      have hp : f.pages.get (o / PAGE_SIZE) = some p := hk ▸ hget
      have hbyte := byte_syncPage hB h hget hp (Or.inr hk) ho
      exact hbyte
    · exact byte_syncPage hB h hget hq (Or.inl hclean) ho

theorem foldl_syncPage_dirty (size : ℕ) (es : List (ℕ × CachePage)) (d : δ) :
    (es.filter fun e => e.2.dirty).foldl (syncPage B size) d = es.foldl (syncPage B size) d := by
  rw [List.foldl_filter]
  congr 1
  funext d e
  unfold syncPage
  split <;> rfl

theorem byte_fsync_of_clean {o : ℕ} (hclean : ∀ p, f.pages.get (o / PAGE_SIZE) = some p →
    p.dirty = false) (ho : o < f.size) : B.byte (f.fsync B).store o = B.byte f.store o := by
  have hother := foldl_syncPage_other (B := B) f.size (o := o)
    (f.pages.entries.filter fun e => e.2.dirty) (fun e he heq => ?_) f.store
  · rw [foldl_syncPage_dirty] at hother
    exact hother.resolve_right fun hend => absurd ho (Nat.not_lt.mpr hend.1)
  · obtain ⟨hmem, hdirty⟩ := List.mem_filter.mp he
    have hget : f.pages.get e.1 = some e.2 := SortedMap.mem_entries.mp hmem
    rw [hclean e.2 (heq ▸ hget)] at hdirty
    cases hdirty

theorem Settled.durable_fsync (hB : B.Faithful) (h : f.Settled B) : (f.fsync B).Durable B := by
  intro o ho
  have ho : o < f.size := ho
  have hcontent : (f.fsync B).content B o = f.content B o :=
    (content_fsync f o).resolve_right fun hend => absurd ho (Nat.not_lt.mpr hend.1)
  rw [hcontent]
  cases hget : f.pages.get (o / PAGE_SIZE) with
  | none =>
    rw [content_of_none B hget, byte_fsync_of_clean (by simp [hget]) ho]
  | some p =>
    rw [content_of_cached B hget]
    cases hdirty : p.dirty with
    | true => exact byte_fsync hB hget hdirty (h.mod_lt_validSize hget ho) ho
    | false =>
      rw [byte_fsync_of_clean (by simp [hget, hdirty]) ho]
      exact h.clean o p hget hdirty ho

theorem Settled.fsync (hB : B.Faithful) (h : f.Settled B) : (f.fsync B).Settled B := by
  refine ⟨h.covers.fsync, fun o p hget _ ho => ?_⟩
  rw [h.durable_fsync hB o ho, content_of_cached B hget]

end FileInode

/-! ### Mappings -/

/-- An entry of a shared mapping; before the first fault it refers to `EMPTY_PAGE`. -/
structure SharedEntry where
  attr : PageAttribute
  page : Option (ℕ × ℕ) := none

def SharedEntry.setMapped (execute : Bool) : SharedEntry where
  attr := { read := true, user := true, mapped := true, execute := execute }

/-- The address spaces with their shared areas, and the files. -/
structure SharedMemory (δ : Type) where
  areas : ℕ → Areas
  ptes : ℕ → ℕ → SharedEntry
  files : ℕ → FileInode δ

/-- What may happen next. -/
inductive SharedOp where
  | load (i addr : ℕ)
  | store (i addr : ℕ) (b : UInt8)
  | fault (i addr : ℕ) (access : World.Access)
  | msync (i addr len flags : ℕ)
  | fsync (file : ℕ)
  /-- A page that is written back by an `msync` or a `PageCache::fsync` that fails later. -/
  | writeBack (file k : ℕ)
  | sysFsync (file : ℕ)

namespace SharedMemory

variable {δ : Type} (B : Backend δ)

def setFile (s : SharedMemory δ) (file : ℕ) (f : FileInode δ) : SharedMemory δ :=
  { s with files := update s.files file f }

def setPte (s : SharedMemory δ) (i v : ℕ) (t : SharedEntry) : SharedMemory δ :=
  { s with ptes := update s.ptes i (update (s.ptes i) v t) }

/-- The closure of `handle_mmap`: the cached page gets dirty unless the area can only be read. -/
def mapShared (s : SharedMemory δ) (area : MMArea) (file k : ℕ) (attr : PageAttribute)
    (write : Bool) : PageAttribute × SharedMemory δ :=
  if write || area.permission.write then
    ({ attr with write := true },
      s.setFile file ((s.files file).modifyPage k CachePage.setDirty))
  else (attr, s)

def handleMmap (s : SharedMemory δ) (area : MMArea) (attr : PageAttribute) (offset : ℕ)
    (write : Bool) : Except MMPanic (KResult SharedEntry × SharedMemory δ) :=
  match area.mapping with
  | .anonymous => .error .anonymousMapped
  | .file m => do
    assertOr (offset < m.length) .offsetOutOfRange
    let fileOffset := m.offset + offset
    if (s.files m.file).size < floor fileOffset then pure (.error .EINVAL, s)
    else
      let k := fileOffset / PAGE_SIZE
      let s := s.setFile m.file ((s.files m.file).withPage B fileOffset)
      let (attr, s) := s.mapShared area m.file k attr write
      pure (.ok ⟨{ attr with present := true, mapped := false }, some (m.file, k)⟩, s)

def handle (s : SharedMemory δ) (area : MMArea) (i v offset : ℕ) (write : Bool) :
    Except MMPanic (SharedMemory δ) :=
  match (s.ptes i v).attr.asPageAttr with
  | none => .error .notPageAttribute
  | some attr => do
    let (r, s) ←
      (if attr.mapped then s.handleMmap B area attr offset write
      else pure (.ok (s.ptes i v), s))
    match r with
    | .error _ => pure s
    | .ok t => pure (s.setPte i v { t with
        attr := { t.attr with accessed := true, dirty := t.attr.dirty || write } })

def fault (s : SharedMemory δ) (i addr : ℕ) (access : World.Access) :
    Except MMPanic (SharedMemory δ) :=
  match (s.areas i).overlappingAddr addr with
  | none => .ok s
  | some area =>
    if !World.granted area.permission access then .ok s
    else s.handle B area i (addr / PAGE_SIZE) (floor addr - area.range.start) (access = .write)

/-- The hardware lets a user program load from the page. -/
def loadable (t : SharedEntry) : Bool := t.attr.present && t.attr.read && t.attr.user

/-- The hardware lets a user program store to the page. -/
def storable (t : SharedEntry) : Bool := t.attr.present && t.attr.write && t.attr.user

def put (s : SharedMemory δ) (t : SharedEntry) (o : ℕ) (b : UInt8) : SharedMemory δ :=
  match t.page with
  | none => s
  | some (file, k) => s.setFile file ((s.files file).modifyPage k fun p => p.put o b)

/-- A user program tries to store. -/
def store (s : SharedMemory δ) (i addr : ℕ) (b : UInt8) : Except MMPanic (SharedMemory δ) :=
  if storable (s.ptes i (addr / PAGE_SIZE)) then
    .ok (s.put (s.ptes i (addr / PAGE_SIZE)) (addr % PAGE_SIZE) b)
  else s.fault B i addr .write

/-- A user program tries to load. -/
def load (s : SharedMemory δ) (i addr : ℕ) : Except MMPanic (SharedMemory δ) :=
  if loadable (s.ptes i (addr / PAGE_SIZE)) then .ok s else s.fault B i addr .read

def fsync (s : SharedMemory δ) (file : ℕ) : SharedMemory δ :=
  s.setFile file ((s.files file).fsync B)

def sharedFile (area : MMArea) : Option ℕ :=
  match area.isShared, area.mapping with
  | true, .file m => some m.file
  | _, _ => none

def syncShared (s : SharedMemory δ) (i start len : ℕ) :
    Except MMPanic (KResult Unit × SharedMemory δ) := do
  assertOr (floor start = start) .startUnaligned
  let range ← AddrRange.new start (ceil (start + len))
  if !range.isUser then pure (.error .EINVAL, s)
  else pure (.ok (), (((s.areas i).overlappingRange range).filterMap sharedFile).foldl (fsync B) s)

/-- The system call `msync`; the flags are `MS_ASYNC`, `MS_INVALIDATE` and `MS_SYNC`. -/
def msync (s : SharedMemory δ) (i addr len flags : ℕ) :
    Except MMPanic (KResult Unit × SharedMemory δ) :=
  if 8 ≤ flags then .ok (.error .EINVAL, s)
  else if flags.testBit 0 && flags.testBit 2 then .ok (.error .EINVAL, s)
  else if ¬IsPageAligned addr then .ok (.error .EINVAL, s)
  else if len = 0 then .ok (.ok (), s)
  else s.syncShared B i addr (ceil len)

/-- The system call `fsync`. -/
def sysFsync (s : SharedMemory δ) (_file : ℕ) : SharedMemory δ := s

def run (s : SharedMemory δ) : SharedOp → Except MMPanic (SharedMemory δ)
  | .load i addr => s.load B i addr
  | .store i addr b => s.store B i addr b
  | .fault i addr access => s.fault B i addr access
  | .msync i addr len flags => (s.msync B i addr len flags).map Prod.snd
  | .fsync file => .ok (s.fsync B file)
  | .writeBack file k => .ok (s.setFile file ((s.files file).writeBack B k))
  | .sysFsync file => .ok (s.sysFsync file)

/-- A store that does not fault goes to a page that is marked as dirty. -/
def Tracked (s : SharedMemory δ) : SharedOp → Prop
  | .store i addr _ => storable (s.ptes i (addr / PAGE_SIZE)) = true →
    ∀ file k p, (s.ptes i (addr / PAGE_SIZE)).page = some (file, k) →
      (s.files file).pages.get k = some p → p.dirty = true
  | _ => True

def Settled (s : SharedMemory δ) : Prop := ∀ file, (s.files file).Settled B

variable {B} {s s' : SharedMemory δ}

theorem Settled.setFile (h : s.Settled B) (file : ℕ) {f : FileInode δ} (hf : f.Settled B) :
    (s.setFile file f).Settled B := by
  intro g
  show (update s.files file f g).Settled B
  by_cases hg : g = file
  · rw [hg, update_self]
    exact hf
  · rw [update_of_ne hg]
    exact h g

theorem Settled.handleMmap (h : s.Settled B) {area : MMArea} {attr : PageAttribute} {offset : ℕ}
    {write : Bool} {r : KResult SharedEntry}
    (hrun : s.handleMmap B area attr offset write = .ok (r, s')) : s'.Settled B := by
  unfold SharedMemory.handleMmap at hrun
  split at hrun
  · cases hrun
  next m _ =>
  obtain ⟨-, -, hrun⟩ := bind_eq_ok.mp hrun
  dsimp only at hrun
  split at hrun
  · cases hrun
    exact h
  · have hload : (s.setFile m.file ((s.files m.file).withPage B (m.offset + offset))).Settled B :=
      h.setFile m.file ((h m.file).withPage _)
    unfold mapShared at hrun
    split at hrun
    · cases hrun
      exact hload.setFile m.file ((hload m.file).modifyPage (fun _ => rfl) fun _ _ => rfl)
    · cases hrun
      exact hload

theorem Settled.fault (h : s.Settled B) {i addr : ℕ} {access : World.Access}
    (hrun : s.fault B i addr access = .ok s') : s'.Settled B := by
  unfold SharedMemory.fault at hrun
  split at hrun
  · cases hrun
    exact h
  split_ifs at hrun
  · cases hrun
    exact h
  unfold SharedMemory.handle at hrun
  split at hrun
  · cases hrun
  obtain ⟨⟨r, s1⟩, hmap, hrun⟩ := bind_eq_ok.mp hrun
  have h1 : s1.Settled B := by
    split_ifs at hmap
    · exact h.handleMmap hmap
    · cases hmap
      exact h
  dsimp only at hrun
  split at hrun
  · cases hrun
    exact h1
  · cases hrun
    exact h1

theorem Settled.put (h : s.Settled B) {t : SharedEntry} (o : ℕ) (b : UInt8)
    (hdirty : ∀ file k p, t.page = some (file, k) → (s.files file).pages.get k = some p →
      p.dirty = true) : (s.put t o b).Settled B := by
  unfold SharedMemory.put
  split
  · exact h
  next file k hpage =>
  exact h.setFile file ((h file).modifyPage (fun _ => rfl) fun p hp => hdirty file k p hpage hp)

theorem Settled.foldl_fsync (hB : B.Faithful) (h : s.Settled B) (files : List ℕ) :
    (files.foldl (SharedMemory.fsync B) s).Settled B ∧
      ∀ file, file ∈ files ∨ (s.files file).Durable B →
        ((files.foldl (SharedMemory.fsync B) s).files file).Durable B := by
  induction files generalizing s with
  | nil => exact ⟨h, fun file hfile => hfile.resolve_left List.not_mem_nil⟩
  | cons g files ih =>
    obtain ⟨hsettled, hdurable⟩ := ih (h.setFile g ((h g).fsync hB))
    refine ⟨hsettled, fun file hfile => hdurable file ?_⟩
    by_cases hg : file = g
    · refine Or.inr ?_
      show (update s.files g ((s.files g).fsync B) file).Durable B
      rw [hg, update_self]
      exact (h g).durable_fsync hB
    · refine hfile.imp (fun hmem => (List.mem_cons.mp hmem).resolve_left hg) fun hdone => ?_
      show (update s.files g ((s.files g).fsync B) file).Durable B
      rwa [update_of_ne hg]

def Synced (s : SharedMemory δ) (i addr len : ℕ) (a : MMArea) : Prop :=
  a ∈ (s.areas i).elems ∧ a.isShared = true ∧ a.range.start < addr + len ∧ addr < a.range.stop

theorem Settled.syncShared (hB : B.Faithful) (h : s.Settled B) {i start len : ℕ} {r : KResult Unit}
    (hrun : s.syncShared B i start len = .ok (r, s')) :
    s'.Settled B ∧ (r = .ok () → ∀ a m, s.Synced i start len a → a.mapping = .file m →
      (s'.files m.file).Durable B) := by
  have hle : start + len ≤ ceil (start + len) := le_ceil _
  unfold SharedMemory.syncShared at hrun
  obtain ⟨-, -, hrun⟩ := bind_eq_ok.mp hrun
  rw [new_eq ((Nat.le_add_right _ _).trans hle), ok_bind] at hrun
  split_ifs at hrun
  · cases hrun
    refine ⟨h, fun hr => ?_⟩
    cases hr
  cases hrun
  obtain ⟨hsettled, hdurable⟩ := h.foldl_fsync hB
    (((s.areas i).overlappingRange ⟨start, ceil (start + len), _⟩).filterMap sharedFile)
  refine ⟨hsettled, fun _ a m hsynced hm => hdurable m.file (Or.inl ?_)⟩
  obtain ⟨ha, hshared, hlo, hhi⟩ := hsynced
  refine List.mem_filterMap.mpr ⟨a, Areas.mem_overlappingRange ha ⟨hlo.trans_le hle, hhi⟩, ?_⟩
  rw [sharedFile, hshared, hm]

theorem Settled.msync (hB : B.Faithful) (h : s.Settled B) {i addr len flags : ℕ} {r : KResult Unit}
    (hrun : s.msync B i addr len flags = .ok (r, s')) :
    s'.Settled B ∧ (r = .ok () → ∀ a m, s.Synced i addr len a → len ≠ 0 → a.mapping = .file m →
      (s'.files m.file).Durable B) := by
  unfold SharedMemory.msync at hrun
  split_ifs at hrun with h1 h2 h3 h4
  · cases hrun
    exact ⟨h, fun hr => nomatch hr⟩
  · cases hrun
    exact ⟨h, fun hr => nomatch hr⟩
  · cases hrun
    exact ⟨h, fun _ _ _ _ hlen => absurd h4 hlen⟩
  · obtain ⟨hsettled, hdurable⟩ := h.syncShared hB hrun
    refine ⟨hsettled, fun hr a m hsynced _ hm => hdurable hr a m ?_ hm⟩
    obtain ⟨ha, hshared, hlo, hhi⟩ := hsynced
    exact ⟨ha, hshared, hlo.trans_le (Nat.add_le_add_left (le_ceil len) addr), hhi⟩
  · cases hrun
    exact ⟨h, fun hr => nomatch hr⟩

theorem Settled.run (hB : B.Faithful) (h : s.Settled B) (op : SharedOp) (hc : s.Tracked op)
    (hrun : s.run B op = .ok s') : s'.Settled B := by
  cases op with
  | load i addr =>
    simp only [SharedMemory.run, SharedMemory.load] at hrun
    split_ifs at hrun
    · cases hrun
      exact h
    · exact h.fault hrun
  | store i addr b =>
    simp only [SharedMemory.run, SharedMemory.store] at hrun
    split_ifs at hrun with hstore
    · cases hrun
      exact h.put _ _ (hc hstore)
    · exact h.fault hrun
  | fault i addr access => exact h.fault hrun
  | msync i addr len flags =>
    simp only [SharedMemory.run] at hrun
    cases hmsync : s.msync B i addr len flags with
    | error e =>
      rw [hmsync] at hrun
      cases hrun
    | ok x =>
      rw [hmsync] at hrun
      cases hrun
      exact (h.msync hB hmsync).1
  | fsync file =>
    cases hrun
    exact h.setFile file ((h file).fsync hB)
  | writeBack file k =>
    cases hrun
    exact h.setFile file ((h file).writeBack hB k)
  | sysFsync file =>
    cases hrun
    exact h

end SharedMemory

open SharedMemory

/-- It starts with fresh mappings and files whose clean pages agree with the store. -/
def sharedMappings {δ : Type} (B : Backend δ) (cond : SharedMemory δ → SharedOp → Prop) :
    System (SharedMemory δ) SharedOp MMPanic where
  init s := s.Settled B ∧ ∀ i v, ∃ execute, s.ptes i v = .setMapped execute
  allowed := cond
  run s op := s.run B op

def oneByteMapped : SharedMemory (ℕ → UInt8) where
  areas _ := { elems := [{ range := ⟨0x1000, 0x2000, by decide⟩
                           mapping := .file ⟨0, 0, 0x1000, rfl⟩
                           permission := ⟨true, true, false⟩
                           isShared := true }] }
  ptes _ _ := .setMapped false
  files _ := ⟨1, fun _ => 0, SortedMap.empty⟩

theorem oneByteMapped_init (cond : SharedMemory (ℕ → UInt8) → SharedOp → Prop) :
    (sharedMappings (ext4 memoryStore) cond).Reachable oneByteMapped :=
  .of_init ⟨fun _ => ⟨nofun, nofun⟩, fun _ _ => ⟨false, rfl⟩⟩

end Dlutos.FileCache
