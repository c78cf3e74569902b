import Dlutos.FileCache.PageCache

/-!
# Block devices over virtio

`BlockDevice::read_some`, `write_some` and `commit_request` of `kernel/block.rs`, with the request
queue of `driver/virtio/virtio_blk.rs` and the iterator `Chunks` of `io.rs`.  The virtio library
transfers exactly the sectors it is asked for and does not fail.  The pages of a request are not
cleared when they are allocated; `junk` says what is in them.
-/

namespace Dlutos.Block

open FileCache

/-! ### The driver -/

structure Page where
  order : ℕ
  bytes : ℕ → UInt8

def Page.len (p : Page) : ℕ := 4096 * 2 ^ p.order

structure Chunks where
  stop : ℕ
  cur : ℕ
  chunkLen : ℕ

namespace Chunks

def new (start totalLen chunkLen : ℕ) : Chunks where
  stop := start + totalLen
  cur := start
  chunkLen := chunkLen

def next (c : Chunks) : Option ((ℕ × ℕ) × Chunks) :=
  if c.stop ≤ c.cur then none
  else some ((c.cur, min c.chunkLen (c.stop - c.cur)), { c with cur := c.cur + c.chunkLen })

end Chunks

def readBlocks (disk : ℕ → UInt8) (start len : ℕ) (p : Page) : Page :=
  { p with bytes := splice p.bytes 0 (slice disk (start * 512) (len * 512)) }

def writeBlocks (disk : ℕ → UInt8) (start len : ℕ) (p : Page) : ℕ → UInt8 :=
  splice disk (start * 512) (slice p.bytes 0 (len * 512))

def submitRead (disk : ℕ → UInt8) : Chunks → List Page → List Page
  | _, [] => []
  | c, p :: ps =>
    match c.next with
    | none => p :: ps
    | some ((start, len), c) => readBlocks disk start len p :: submitRead disk c ps

def submitWrite (disk : ℕ → UInt8) : Chunks → List Page → ℕ → UInt8
  | _, [] => disk
  | c, p :: ps =>
    match c.next with
    | none => disk
    | some ((start, len), c) => submitWrite (writeBlocks disk start len p) c ps

/-! ### The block layer -/

inductive Errno where
  | EINVAL
  deriving DecidableEq

/-- `BlockDevice`: a disk, or a partition of it. -/
structure BlockDevice where
  sectorCount : ℕ
  lbaOffset : Option ℕ := none

namespace BlockDevice

/-- The first sector of the device on the disk. -/
def base (d : BlockDevice) : ℕ := d.lbaOffset.getD 0

/-- The check of `commit_request` and the sector on the disk. -/
def locate (d : BlockDevice) (sector count : ℕ) : Except Errno ℕ :=
  if d.sectorCount < sector + count then .error .EINVAL
  else match d.lbaOffset with
    | some lbaOffset => .ok (sector + lbaOffset)
    | none => .ok sector

def allocPages (junk : ℕ → ℕ → UInt8) (count : ℕ) : List Page :=
  if count ≤ 8 then [{ order := 0, bytes := junk 0 }]
  else if count ≤ 16 then [{ order := 1, bytes := junk 0 }]
  else (List.range ((count + 15) / 16)).map fun i => { order := 1, bytes := junk i }

def maxRequestPages : ℕ := 1024

/-- The loop of `read_some` over the pages of a request; the result says that the buffer is full. -/
def fillPages : List Page → ℕ → ByteBuffer → ℕ → Bool × ByteBuffer × ℕ
  | [], _, buffer, nfilled => (false, buffer, nfilled)
  | p :: ps, firstSectorOffset, buffer, nfilled =>
    match buffer.fill (slice p.bytes firstSectorOffset (p.len - firstSectorOffset)) with
    | (.done n, buffer) => fillPages ps 0 buffer (nfilled + n)
    | (.partly n, buffer) => (true, buffer, nfilled + n)
    | (.full, buffer) => (true, buffer, nfilled)

/-- How many sectors one round of `read_some` reads. -/
def nread (sectorCount : ℕ) : ℕ :=
  if sectorCount ≤ 16 then sectorCount else min sectorCount maxRequestPages

theorem nread_pos {sectorCount : ℕ} (h : sectorCount ≠ 0) : 0 < nread sectorCount := by
  unfold nread maxRequestPages
  split_ifs <;> omega

def readLoop (d : BlockDevice) (disk : ℕ → UInt8) (junk : ℕ → ℕ → ℕ → UInt8)
    (sectorStart firstSectorOffset sectorCount : ℕ) (buffer : ByteBuffer) (nfilled : ℕ) :
    Except Errno (ByteBuffer × ℕ) :=
  if sectorCount = 0 then .ok (buffer, nfilled)
  else
    let count := nread sectorCount
    match d.locate sectorStart count with
    | .error e => .error e
    | .ok sector =>
      let pages := submitRead disk (.new sector count 8) (allocPages (junk sectorStart) count)
      match fillPages pages firstSectorOffset buffer nfilled with
      | (true, buffer, nfilled) => .ok (buffer, nfilled)
      | (false, buffer, nfilled) =>
        d.readLoop disk junk (sectorStart + count) 0 (sectorCount - count) buffer nfilled
termination_by sectorCount
decreasing_by
  rename_i hne
  have := nread_pos hne
  omega

def readSome (d : BlockDevice) (disk : ℕ → UInt8) (junk : ℕ → ℕ → ℕ → UInt8) (offset : ℕ)
    (buffer : ByteBuffer) : Except Errno (FillResult × ByteBuffer) :=
  match d.readLoop disk junk (offset / 512) (offset % 512)
    ((offset % 512 + buffer.total + 511) / 512) buffer 0 with
  | .error e => .error e
  | .ok (buffer, nfilled) =>
    .ok (if nfilled = buffer.total then .done nfilled else .partly nfilled, buffer)

/-- The loop of `write_some` that copies the data into the pages, and how much was copied. -/
def copyPages : List Page → ℕ → List UInt8 → List Page × ℕ
  | [], _, _ => ([], 0)
  | p :: ps, pageOffset, data =>
    let copyLen := min data.length (p.len - pageOffset)
    if copyLen = 0 then (p :: ps, 0)
    else
      let p := { p with bytes := splice p.bytes pageOffset (data.take copyLen) }
      if data.length ≤ copyLen then (p :: ps, copyLen)
      else
        let (ps, n) := copyPages ps 0 (data.drop copyLen)
        (p :: ps, copyLen + n)

/-- How many sectors one round of `write_some` writes. -/
def nwrite (firstSectorOffset len : ℕ) : ℕ :=
  min ((firstSectorOffset + len + 511) / 512) maxRequestPages

/-- The pages of a round of `write_some`, with what was on the disk unless all of it will be
overwritten. -/
def writePages (disk : ℕ → UInt8) (junk : ℕ → ℕ → UInt8) (sector firstSectorOffset : ℕ)
    (data : List UInt8) : List Page :=
  let count := nwrite firstSectorOffset data.length
  if firstSectorOffset ≠ 0 ∨ data.length < count * 512 then
    submitRead disk (.new sector count 8) (allocPages junk count)
  else allocPages junk count

theorem orders_submitRead (disk : ℕ → UInt8) (c : Chunks) (pages : List Page) :
    (submitRead disk c pages).map Page.order = pages.map Page.order := by
  induction pages generalizing c with
  | nil => rfl
  | cons p ps ih =>
    rw [submitRead]
    split
    · rfl
    · rw [List.map_cons, List.map_cons, ih]
      rfl

theorem orders_writePages (disk : ℕ → UInt8) (junk : ℕ → ℕ → UInt8)
    (sector firstSectorOffset : ℕ) (data : List UInt8) :
    (writePages disk junk sector firstSectorOffset data).map Page.order =
      (allocPages junk (nwrite firstSectorOffset data.length)).map Page.order := by
  simp only [writePages]
  split_ifs
  · exact orders_submitRead ..
  · rfl

theorem allocPages_ne_nil (junk : ℕ → ℕ → UInt8) (count : ℕ) : allocPages junk count ≠ [] := by
  unfold allocPages
  split_ifs with h h'
  · exact List.cons_ne_nil _ _
  · exact List.cons_ne_nil _ _
  · simp only [ne_eq, List.map_eq_nil_iff, List.range_eq_nil]
    omega

theorem copyPages_pos {pages : List Page} {pageOffset : ℕ} {data : List UInt8} (hp : pages ≠ [])
    (hoffset : pageOffset < 512) (hdata : data ≠ []) :
    0 < (copyPages pages pageOffset data).2 := by
  cases pages with
  | nil => exact absurd rfl hp
  | cons p ps =>
    have hpos : 0 < min data.length (p.len - pageOffset) := by
      have hlen : 0 < data.length := List.length_pos_iff.mpr hdata
      have hpage : 4096 ≤ p.len := Nat.le_mul_of_pos_right _ (Nat.pow_pos (by decide))
      omega
    rw [copyPages, if_neg (by omega)]
    split_ifs
    · exact hpos
    · exact Nat.add_pos_left hpos _

/-- The loop of `write_some`; both requests of a round make the same check. -/
def writeLoop (d : BlockDevice) (disk : ℕ → UInt8) (junk : ℕ → ℕ → ℕ → UInt8) (sectorStart : ℕ)
    (firstSectorOffset : {n : ℕ // n < 512}) (remaining : List UInt8) (nwritten : ℕ) :
    Except Errno ((ℕ → UInt8) × ℕ) :=
  if h : remaining = [] then .ok (disk, nwritten)
  else
    let count := nwrite firstSectorOffset remaining.length
    (d.locate sectorStart count).bind fun sector =>
      let copied := copyPages
        (writePages disk (junk sectorStart) sector firstSectorOffset remaining)
        firstSectorOffset remaining
      d.writeLoop (submitWrite disk (.new sector count 8) copied.1) junk (sectorStart + count)
        ⟨0, by decide⟩ (remaining.drop copied.2) (nwritten + copied.2)
termination_by remaining.length
decreasing_by
  have hpages : writePages disk (junk sectorStart) sector firstSectorOffset remaining ≠ [] := by
    intro hnil
    have horders := orders_writePages disk (junk sectorStart) sector firstSectorOffset remaining
    rw [hnil] at horders
    exact allocPages_ne_nil _ _ (List.map_eq_nil_iff.mp horders.symm)
  have hpos := copyPages_pos hpages firstSectorOffset.2 h
  have hlen : 0 < remaining.length := List.length_pos_iff.mpr h
  rw [List.length_drop]
  omega

/-- `write_some`: the new disk, and how many bytes were written. -/
def writeSome (d : BlockDevice) (disk : ℕ → UInt8) (junk : ℕ → ℕ → ℕ → UInt8) (offset : ℕ)
    (data : List UInt8) : Except Errno ((ℕ → UInt8) × ℕ) :=
  d.writeLoop disk junk (offset / 512) ⟨offset % 512, Nat.mod_lt _ (by decide)⟩ data 0

end BlockDevice

end Dlutos.Block
