import Dlutos.Address.Addr
import Dlutos.Foundation.SortedMap
import Dlutos.Foundation.ExceptLoop

/-!
# The page cache of a file

`src/kernel/mem/page_cache.rs` with the buffers and streams of `src/io.rs`: a `PageCache` maps page
numbers to pages with a `valid_size` and a dirty flag, and fills itself from a backend, which is
`PageCacheBackend` together with the parts of `FileInode::write` and `FileInode::truncate` that
differ between the filesystems; what is assumed of it are the laws in the structure `Backend`.  The
two loops run on fuel; `outOfFuel` stands for a loop that is still running.
-/

namespace Dlutos.FileCache

open ExceptLoop

/-! ### Bytes -/

def splice (data : ℕ → UInt8) (pos : ℕ) (bytes : List UInt8) : ℕ → UInt8 :=
  fun o => if pos ≤ o ∧ o < pos + bytes.length then bytes.getD (o - pos) 0 else data o

def slice (data : ℕ → UInt8) (pos len : ℕ) : List UInt8 :=
  (List.range len).map fun k => data (pos + k)

section

variable (data : ℕ → UInt8)
include data

@[simp] theorem length_slice (pos len : ℕ) : (slice data pos len).length = len := by
  rw [slice, List.length_map, List.length_range]

theorem getD_slice (pos : ℕ) {len k : ℕ} (hk : k < len) :
    (slice data pos len).getD k 0 = data (pos + k) := by
  unfold slice
  rw [List.getD_eq_getElem?_getD, List.getElem?_map, List.getElem?_range hk]
  rfl

theorem slice_append (pos a b : ℕ) :
    slice data pos a ++ slice data (pos + a) b = slice data pos (a + b) := by
  unfold slice
  rw [List.range_add, List.map_append, List.map_map]
  simp only [Function.comp_def, Nat.add_assoc]

theorem take_slice (pos len k : ℕ) : (slice data pos len).take k = slice data pos (min k len) := by
  unfold slice
  rw [← List.map_take, List.take_range]

end

theorem slice_congr {data data' : ℕ → UInt8} {pos pos' len : ℕ}
    (h : ∀ k < len, data (pos + k) = data' (pos' + k)) :
    slice data pos len = slice data' pos' len := by
  unfold slice
  exact List.map_congr_left fun k hk => h k (List.mem_range.mp hk)

variable {bytes : List UInt8}

theorem splice_of_mem {data : ℕ → UInt8} {pos o : ℕ} (h1 : pos ≤ o) (h2 : o < pos + bytes.length) :
    splice data pos bytes o = bytes.getD (o - pos) 0 :=
  if_pos ⟨h1, h2⟩

theorem splice_of_not_mem {data : ℕ → UInt8} {pos o : ℕ} (h : o < pos ∨ pos + bytes.length ≤ o) :
    splice data pos bytes o = data o :=
  if_neg fun h' => by omega

/-! ### Buffers and streams -/

inductive FillResult where
  | done (n : ℕ)
  | partly (n : ℕ)
  | full
  deriving DecidableEq

def FillResult.shouldStop : FillResult → Bool
  | .done _ => false
  | _ => true

/-- `ByteBuffer`: its length and the bytes that were put into it. -/
structure ByteBuffer where
  total : ℕ
  data : List UInt8 := []

namespace ByteBuffer

def available (b : ByteBuffer) : ℕ := b.total - b.data.length

def fill (b : ByteBuffer) (bytes : List UInt8) : FillResult × ByteBuffer :=
  if b.available = 0 then (.full, b)
  else if b.available < bytes.length then
    (.partly b.available, { b with data := b.data ++ bytes.take b.available })
  else (.done bytes.length, { b with data := b.data ++ bytes })

end ByteBuffer

/-- A stream whose `poll_data` does not fail: the bytes left, and how many of them a poll delivers.
-/
structure Stream where
  data : List UInt8
  chunk : ℕ → ℕ → ℕ := fun _ n => n

namespace Stream

/-- How many bytes a poll with a buffer of `n` bytes delivers if there are any. -/
def pollSize (s : Stream) (n : ℕ) : ℕ := min (max 1 (s.chunk s.data.length n)) n

/-- `Stream::poll_data`: a part of the buffer and the rest of the stream, or the end. -/
def poll (s : Stream) (n : ℕ) : Option ({c : List UInt8 // c.length ≤ n} × Stream) :=
  match s.data with
  | [] => none
  | b :: bs =>
    some (⟨(b :: bs).take (s.pollSize n), (List.length_take_le _ _).trans (min_le_right _ _)⟩,
      { s with data := (b :: bs).drop (s.pollSize n) })

theorem poll_eq_none {s : Stream} {n : ℕ} : s.poll n = none ↔ s.data = [] := by
  unfold poll
  split <;> simp_all

theorem poll_eq_some {s s' : Stream} {n : ℕ} {c : {c : List UInt8 // c.length ≤ n}} (hn : 0 < n)
    (h : s.poll n = some (c, s')) : 0 < c.1.length ∧ s.data = c.1 ++ s'.data := by
  unfold poll at h
  split at h
  · cases h
  · next b bs hdata =>
    cases h
    refine ⟨?_, ?_⟩
    · show 0 < ((b :: bs).take (s.pollSize n)).length
      rw [List.length_take, List.length_cons, pollSize]
      omega
    · rw [hdata]
      exact (List.take_append_drop (s.pollSize n) (b :: bs)).symm

end Stream

/-! ### Pages -/

structure CachePage where
  data : ℕ → UInt8 := fun _ => 0
  validSize : ℕ := 0
  dirty : Bool := false
  valid_le : validSize ≤ PAGE_SIZE := by decide

namespace CachePage

def newZeroed : CachePage := {}

def raiseValid (p : CachePage) (v : ℕ) (hv : v ≤ PAGE_SIZE) : CachePage :=
  if p.validSize < v then { p with validSize := v, valid_le := hv } else p

def fill (p : CachePage) (bytes : List UInt8) : FillResult × CachePage :=
  let available := PAGE_SIZE - p.validSize
  if available = 0 then (.full, p)
  else
    let len := min bytes.length available
    let page : CachePage :=
      { p with
        data := splice p.data p.validSize (bytes.take len)
        validSize := p.validSize + len
        valid_le := by have := p.valid_le; omega }
    if len < bytes.length then (.partly len, page) else (.done len, page)

/-- What `PageCache::write` does with a chunk that was polled into the page at `inner_offset`. -/
def write (p : CachePage) (innerOffset : ℕ) (chunk : List UInt8)
    (h : innerOffset + chunk.length ≤ PAGE_SIZE) : CachePage :=
  { ({ p with data := splice p.data innerOffset chunk } : CachePage).raiseValid
      (innerOffset + chunk.length) h with
    dirty := true }

/-- `page.all_mut()[old_valid_size..valid_size].fill(0)` and `set_valid_size`, in
`PageCache::resize`. -/
def zeroExtend (p : CachePage) (v : ℕ) (hv : v ≤ PAGE_SIZE) : CachePage :=
  if p.validSize < v then
    { p with
      data := fun o => if p.validSize ≤ o ∧ o < v then 0 else p.data o
      validSize := v
      valid_le := hv }
  else p

def clearDirty (p : CachePage) : CachePage := { p with dirty := false }

theorem fill_newZeroed_data (h : bytes.length ≤ PAGE_SIZE) :
    (newZeroed.fill bytes).2.data = splice (fun _ => 0) 0 bytes := by
  have htake : bytes.take (min bytes.length (PAGE_SIZE - 0)) = bytes :=
    List.take_of_length_le (by rw [Nat.sub_zero]; omega)
  have hdata : (newZeroed.fill bytes).2.data =
      splice (fun _ => 0) 0 (bytes.take (min bytes.length (PAGE_SIZE - 0))) := by
    unfold fill
    dsimp only
    rw [if_neg (by decide)]
    split <;> rfl
  rw [hdata, htake]

@[simp] theorem raiseValid_data (p : CachePage) (v : ℕ) (hv : v ≤ PAGE_SIZE) :
    (p.raiseValid v hv).data = p.data := by
  unfold raiseValid
  split <;> rfl

@[simp] theorem raiseValid_validSize (p : CachePage) (v : ℕ) (hv : v ≤ PAGE_SIZE) :
    (p.raiseValid v hv).validSize = max p.validSize v := by
  unfold raiseValid
  split
  · next h => exact (max_eq_right h.le).symm
  · next h => exact (max_eq_left (not_lt.mp h)).symm

section

variable (p : CachePage) (i : ℕ) (c : List UInt8) (h : i + c.length ≤ PAGE_SIZE)
include p i c h

@[simp] theorem write_data : (p.write i c h).data = splice p.data i c := raiseValid_data _ _ _

@[simp] theorem write_validSize :
    (p.write i c h).validSize = max p.validSize (i + c.length) := raiseValid_validSize _ _ _

end

@[simp] theorem zeroExtend_validSize (p : CachePage) (v : ℕ) (hv : v ≤ PAGE_SIZE) :
    (p.zeroExtend v hv).validSize = max p.validSize v := by
  unfold zeroExtend
  split
  · next h => exact (max_eq_right h.le).symm
  · next h => exact (max_eq_left (not_lt.mp h)).symm

theorem zeroExtend_data {p : CachePage} {v : ℕ} (hv : v ≤ PAGE_SIZE) {o : ℕ}
    (hzero : p.validSize ≤ o → p.data o = 0) : (p.zeroExtend v hv).data o = p.data o := by
  unfold zeroExtend
  split
  · show (if p.validSize ≤ o ∧ o < v then 0 else p.data o) = p.data o
    split
    · next h => exact (hzero h.1).symm
    · rfl
  · rfl

end CachePage

/-! ### Backends -/

/-- `PageCacheBackend`, what `FileInode::truncate` does to the store, and whether `FileInode::write`
ends with `sync`; the store has the type `δ`. -/
structure Backend (δ : Type) where
  /-- `read_page`; the arguments are the store, the size of the file, the offset and the page. -/
  readPage : δ → ℕ → ℕ → CachePage → CachePage
  /-- `write_page`; the arguments are the store, the size of the file, the offset and the page. -/
  writePage : δ → ℕ → ℕ → CachePage → δ
  truncate : δ → ℕ → δ
  syncs : Bool
  byte : δ → ℕ → UInt8
  readPage_data : ∀ d size offset o, o < PAGE_SIZE →
    (readPage d size offset .newZeroed).data o = byte d (offset + o)
  writePage_other : ∀ d size offset p o, o < offset ∨ offset + PAGE_SIZE ≤ o →
    byte (writePage d size offset p) o = byte d o ∨
      size ≤ o ∧ byte (writePage d size offset p) o = 0
  truncate_byte : ∀ d n o, byte (truncate d n) o = if o < n then byte d o else 0

def Backend.Faithful {δ : Type} (B : Backend δ) : Prop :=
  ∀ d size offset p o, o < p.validSize → B.byte (B.writePage d size offset p) (offset + o) = p.data o

/-! ### The cache -/

/-- How an operation on a cached file can fail to return. -/
inductive CachePanic where
  /-- `page.valid_data()[inner_offset..]` starts behind the valid bytes. -/
  | sliceIndex
  /-- The loop is still running. -/
  | outOfFuel
  deriving DecidableEq

structure FileInode (δ : Type) where
  size : ℕ
  store : δ
  pages : SortedMap ℕ CachePage

namespace FileInode

variable {δ : Type} (B : Backend δ)

def loadPage (f : FileInode δ) (offset : ℕ) : CachePage :=
  let pageStart := Addr.floor offset
  (B.readPage f.store f.size pageStart .newZeroed).raiseValid (min (f.size - pageStart) PAGE_SIZE)
    (min_le_right _ _)

def setPage (f : FileInode δ) (pageId : ℕ) (p : CachePage) : FileInode δ :=
  { f with pages := f.pages.insert pageId p }

def readLoop : ℕ → FileInode δ → ByteBuffer → ℕ → Except CachePanic (FileInode δ × ByteBuffer)
  | 0, _, _, _ => .error .outOfFuel
  | fuel + 1, f, buffer, offset =>
    if f.size ≤ offset then .ok (f, buffer)
    else
      match f.pages.get (offset / PAGE_SIZE) with
      | some page => do
        let innerOffset := offset % PAGE_SIZE
        assertOr (innerOffset ≤ page.validSize) .sliceIndex
        let readSize := min (page.validSize - innerOffset) (f.size - offset)
        if readSize = 0 then return (f, buffer)
        let r := buffer.fill (slice page.data innerOffset readSize)
        if r.1.shouldStop || r.2.available = 0 then return (f, r.2)
        readLoop fuel f r.2 (offset + readSize)
      | none =>
        readLoop fuel (f.setPage (offset / PAGE_SIZE) (f.loadPage B offset)) buffer offset

def read (f : FileInode δ) (total offset : ℕ) : Except CachePanic (FileInode δ × ByteBuffer) :=
  readLoop B (2 * (f.size - offset) + 1) f ⟨total, []⟩ offset

def freshPage (f : FileInode δ) (offset : ℕ) : CachePage :=
  if f.size ≤ offset then .newZeroed else f.loadPage B offset

theorem chunk_fits (offset : ℕ) {c : List UInt8} (hc : c.length ≤ PAGE_SIZE - offset % PAGE_SIZE) :
    offset % PAGE_SIZE + c.length ≤ PAGE_SIZE := by
  have := Nat.mod_lt offset (show 0 < PAGE_SIZE by decide)
  omega

def writeLoop : ℕ → FileInode δ → Stream → ℕ → ℕ → Except CachePanic (ℕ × FileInode δ)
  | 0, _, _, _, _ => .error .outOfFuel
  | fuel + 1, f, stream, offset, wrote =>
    match f.pages.get (offset / PAGE_SIZE) with
    | some page =>
      match stream.poll (PAGE_SIZE - offset % PAGE_SIZE) with
      | none => .ok (wrote, f)
      | some (chunk, stream') =>
        writeLoop fuel
          (f.setPage (offset / PAGE_SIZE)
            (page.write (offset % PAGE_SIZE) chunk.1 (chunk_fits offset chunk.2)))
          stream' (offset + chunk.1.length) (wrote + chunk.1.length)
    | none =>
      writeLoop fuel (f.setPage (offset / PAGE_SIZE) (f.freshPage B offset)) stream offset wrote

def syncPage (size : ℕ) (d : δ) (e : ℕ × CachePage) : δ :=
  if e.2.dirty then B.writePage d size (e.1 * PAGE_SIZE) e.2 else d

def fsync (f : FileInode δ) : FileInode δ :=
  { f with
    store := f.pages.entries.foldl (syncPage B f.size) f.store
    pages := f.pages.map CachePage.clearDirty }

/-- `FileInode::write` at an offset: the cache, the new size, and the write-back where the
filesystem has one. -/
def write (f : FileInode δ) (stream : Stream) (offset : ℕ) : Except CachePanic (ℕ × FileInode δ) :=
  do
    let (wrote, f) ← writeLoop B (2 * stream.data.length + 2) f stream offset 0
    let f := { f with size := max f.size (offset + wrote) }
    return (wrote, if B.syncs then f.fsync B else f)

def resize (f : FileInode δ) (newSize : ℕ) : FileInode δ :=
  if newSize < f.size then
    let begin := newSize / PAGE_SIZE
    let stop := divCeil f.size PAGE_SIZE
    { f with pages := (List.range' begin (stop - begin)).foldl SortedMap.erase f.pages }
  else if f.size < newSize then
    let pageId := f.size / PAGE_SIZE
    match f.pages.get pageId with
    | some page =>
      f.setPage pageId
        (page.zeroExtend (min (newSize - pageId * PAGE_SIZE) PAGE_SIZE) (min_le_right _ _))
    | none => f
  else f

def truncate (f : FileInode δ) (length : ℕ) : FileInode δ :=
  let f := f.resize length
  { f with store := B.truncate f.store length, size := length }

def withPage (f : FileInode δ) (offset : ℕ) : FileInode δ :=
  if f.size < Addr.floor offset then f
  else
    match f.pages.get (offset / PAGE_SIZE) with
    | some _ => f
    | none => f.setPage (offset / PAGE_SIZE) (f.loadPage B offset)

end FileInode

end Dlutos.FileCache
