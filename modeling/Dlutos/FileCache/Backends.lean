import Dlutos.FileCache.PageCache

/-!
# The tmpfs and ext4 backends

A file of `src/fs/tmpfs.rs` has no store: a page that is not cached reads as zeros and writing a
page back does nothing.  A file of `src/fs/ext4.rs` keeps its bytes in the crate `another_ext4`,
which is not part of the repository; `BlockStore` lists the three calls that the file makes and
what is assumed of them.
-/

namespace Dlutos.FileCache

/-! ### tmpfs -/

def Tmpfs.readPage (size offset : ℕ) (page : CachePage) : CachePage :=
  { page with
    data := fun _ => 0
    validSize := min (size - offset) PAGE_SIZE
    valid_le := min_le_right _ _ }

def tmpfs : Backend Unit where
  readPage _ size offset page := Tmpfs.readPage size offset page
  writePage d _ _ _ := d
  truncate d _ := d
  syncs := false
  byte _ _ := 0
  readPage_data _ _ _ _ _ := rfl
  writePage_other _ _ _ _ _ _ := Or.inl rfl
  truncate_byte _ _ _ := (ite_self 0).symm

/-! ### ext4 -/

/-- The calls of `another_ext4` for one file: `read`, `write` and `setattr` with a size. -/
structure BlockStore (δ : Type) where
  /-- The bytes that `read` puts into a buffer, given the offset and the length of the buffer. -/
  read : δ → ℕ → ℕ → List UInt8
  write : δ → ℕ → List UInt8 → δ
  setattr : δ → ℕ → δ
  byte : δ → ℕ → UInt8
  read_length : ∀ d offset n, (read d offset n).length ≤ n
  read_byte : ∀ d offset n o, o < n → (read d offset n).getD o 0 = byte d (offset + o)
  write_byte : ∀ d offset bytes, byte (write d offset bytes) = splice (byte d) offset bytes
  setattr_byte : ∀ d n o, byte (setattr d n) o = if o < n then byte d o else 0

namespace Ext4

variable {δ : Type} (S : BlockStore δ)

def readPage (d : δ) (offset : ℕ) (page : CachePage) : CachePage :=
  (page.fill (S.read d offset PAGE_SIZE)).2

/-- ext4 `FileInode::write_direct` of the valid bytes of a page, in one round or none. -/
def writePage (d : δ) (size offset : ℕ) (page : CachePage) : δ :=
  let d := if page.validSize = 0 then d else S.write d offset (slice page.data 0 page.validSize)
  S.setattr d (max size (offset + page.validSize))

theorem readPage_data (d : δ) (offset : ℕ) {o : ℕ} (ho : o < PAGE_SIZE) :
    (readPage S d offset .newZeroed).data o = S.byte d (offset + o) := by
  have hdata : (readPage S d offset .newZeroed).data =
      splice (fun _ => 0) 0 (S.read d offset PAGE_SIZE) :=
    CachePage.fill_newZeroed_data (S.read_length d offset PAGE_SIZE)
  rw [hdata, ← S.read_byte d offset PAGE_SIZE o ho]
  by_cases hin : o < (S.read d offset PAGE_SIZE).length
  · rw [splice_of_mem (Nat.zero_le o) (by omega), Nat.sub_zero]
  · rw [splice_of_not_mem (by omega), List.getD_eq_getElem?_getD,
      List.getElem?_eq_none (not_lt.mp hin), Option.getD_none]

theorem byte_writePage (d : δ) (size offset : ℕ) (p : CachePage) (o : ℕ) :
    S.byte (writePage S d size offset p) o =
      if o < max size (offset + p.validSize) then
        splice (S.byte d) offset (slice p.data 0 p.validSize) o
      else 0 := by
  unfold writePage
  dsimp only
  rw [S.setattr_byte]
  split
  · split
    · next hzero => rw [hzero, splice_of_not_mem (by rw [length_slice]; omega)]
    · rw [S.write_byte]
  · rfl

end Ext4

def ext4 {δ : Type} (S : BlockStore δ) : Backend δ where
  readPage d _ offset page := Ext4.readPage S d offset page
  writePage := Ext4.writePage S
  truncate := S.setattr
  syncs := true
  byte := S.byte
  readPage_data d _ offset _ ho := Ext4.readPage_data S d offset ho
  writePage_other d size offset p o ho := by
    have hv := p.valid_le
    rw [Ext4.byte_writePage]
    split
    · refine Or.inl (splice_of_not_mem ?_)
      rw [length_slice]
      omega
    · exact Or.inr ⟨by omega, rfl⟩
  truncate_byte := S.setattr_byte

theorem ext4_faithful {δ : Type} (S : BlockStore δ) : (ext4 S).Faithful := by
  intro d size offset p o ho
  show S.byte (Ext4.writePage S d size offset p) (offset + o) = p.data o
  rw [Ext4.byte_writePage, if_pos (by omega),
    splice_of_mem (Nat.le_add_right _ _) (by rw [length_slice]; omega), Nat.add_sub_cancel_left,
    getD_slice _ _ ho, Nat.zero_add]

def memoryStore : BlockStore (ℕ → UInt8) where
  read d offset n := slice d offset n
  write d offset bytes := splice d offset bytes
  setattr d n := fun o => if o < n then d o else 0
  byte d := d
  read_length d offset n := (length_slice d offset n).le
  read_byte d offset _ _ ho := getD_slice d offset ho
  write_byte _ _ _ := rfl
  setattr_byte _ _ _ := rfl

end Dlutos.FileCache
