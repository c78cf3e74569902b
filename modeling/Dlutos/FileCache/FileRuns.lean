import Dlutos.FileCache.ExactWrite
import Dlutos.Foundation.Transition

/-!
# Runs of file operations

The cache keeps this relation only under conditions: `Op.Covered` is about `valid_size`, which no
operation raises in the pages that a growing file leaves behind; `Op.Keeps` is about bytes in a page
that is zeroed by a write (`StartsFresh`) or dropped by a shrinking `resize`.
-/

namespace Dlutos.FileCache

open Transition

/-! ### Abstract files -/

structure AbstractFile where
  size : ℕ
  byte : ℕ → UInt8
  zero : ∀ o, size ≤ o → byte o = 0

namespace AbstractFile

def empty : AbstractFile := ⟨0, fun _ => 0, fun _ _ => rfl⟩

def write (a : AbstractFile) (offset : ℕ) (bytes : List UInt8) : AbstractFile where
  size := max a.size (offset + bytes.length)
  byte := splice a.byte offset bytes
  zero o ho := by
    rw [splice_of_not_mem (by omega)]
    exact a.zero o (by omega)

/-- Cut off or extend with zeros. -/
def truncate (a : AbstractFile) (n : ℕ) : AbstractFile where
  size := n
  byte o := if o < n then a.byte o else 0
  zero _ ho := if_neg (not_lt.mpr ho)

end AbstractFile

namespace FileInode

variable {δ : Type} {B : Backend δ}

structure FileOk (B : Backend δ) (f : FileInode δ) (a : AbstractFile) : Prop where
  size : f.size = a.size
  content : ∀ o, f.content B o = a.byte o
  covers : Covers f.pages f.size

def ReadsAs (B : Backend δ) (f : FileInode δ) (a : AbstractFile) : Prop :=
  f.size = a.size ∧ ∀ total offset, ∃ f', f.read B total offset =
    .ok (f', ⟨total, slice a.byte offset (min total (a.size - offset))⟩)

variable {f : FileInode δ} {a : AbstractFile}

theorem FileOk.readsAs (h : FileOk B f a) : ReadsAs B f a := by
  refine ⟨h.size, fun total offset => ?_⟩
  obtain ⟨f', hrun, -⟩ := read_spec (B := B) h.covers total offset
  rw [h.size, funext h.content] at hrun
  exact ⟨f', hrun⟩

theorem FileOk.sameFile {f' : FileInode δ} (h : FileOk B f a)
    (hs : SameFile B f f') : FileOk B f' a :=
  ⟨hs.size.trans h.size, fun o => (hs.content o).trans (h.content o), hs.covers⟩

/-! ### Writes -/

/-- A write behind the end leaves only full pages between, and an empty write no page without valid
bytes. -/
def WriteCovers (f : FileInode δ) (st : Stream) (offset : ℕ) : Prop :=
  (f.size < offset →
    ∀ q p, f.pages.get q = some p → q < offset / PAGE_SIZE → PAGE_SIZE ≤ p.validSize) ∧
  (st.data = [] → f.size ≤ offset → offset % PAGE_SIZE = 0 ∨
    ∃ p, f.pages.get (offset / PAGE_SIZE) = some p ∧ offset % PAGE_SIZE ≤ p.validSize)

/-- What the write loop keeps true of the valid sizes, for a file of size `size`. -/
structure Covering (size : ℕ) (f : FileInode δ) (st : Stream) (off : ℕ) : Prop where
  size_eq : f.size = size
  others : ∀ q p, f.pages.get q = some p → q ≠ off / PAGE_SIZE →
    min (max size off - q * PAGE_SIZE) PAGE_SIZE ≤ p.validSize
  current : ∀ p, f.pages.get (off / PAGE_SIZE) = some p → off < size →
    min (size - off / PAGE_SIZE * PAGE_SIZE) PAGE_SIZE ≤ p.validSize
  drained : st.data = [] → size ≤ off → off % PAGE_SIZE = 0 ∨
    ∃ p, f.pages.get (off / PAGE_SIZE) = some p ∧ off % PAGE_SIZE ≤ p.validSize

variable {st : Stream} {offset : ℕ}

theorem Covering.init (h : Covers f.pages f.size)
    (hw : WriteCovers f st offset) : Covering f.size f st offset where
  size_eq := rfl
  others q p hget hne := by
    have hcov := h q p hget
    by_cases hsize : f.size < offset
    · by_cases hq : q < offset / PAGE_SIZE
      · have := hw.1 hsize q p hget hq
        omega
      · have : offset ≤ q * PAGE_SIZE := by
          unfold PAGE_SIZE at *
          omega
        omega
    · rw [max_eq_left (not_lt.mp hsize)]
      exact hcov
  current p hget _ := h _ p hget
  drained := hw.2

variable {size : ℕ}

theorem Covering.fresh {off : ℕ}
    (h : Covering size f st off) (hnone : f.pages.get (off / PAGE_SIZE) = none) :
    Covering size (f.setPage (off / PAGE_SIZE) (f.freshPage B off)) st off := by
  refine ⟨h.size_eq, fun q p hget hne => ?_, fun p hget hlt => ?_, fun hdata hsize => ?_⟩
  · simp only [setPage, SortedMap.get_insert, if_neg hne] at hget
    exact h.others q p hget hne
  · simp only [setPage, SortedMap.get_insert, if_pos, Option.some.injEq] at hget
    subst hget
    rw [freshPage, if_neg (by rw [h.size_eq]; omega)]
    have := le_loadPage_validSize B f off
    rwa [h.size_eq] at this
  · rcases h.drained hdata hsize with hzero | ⟨p, hp, -⟩
    · exact Or.inl hzero
    · rw [hnone] at hp
      cases hp

theorem Covering.poll {st' : Stream} {off : ℕ} {p : CachePage}
    (h : Covering size f st off) (hpage : f.pages.get (off / PAGE_SIZE) = some p)
    (c : {c : List UInt8 // c.length ≤ PAGE_SIZE - off % PAGE_SIZE}) (hpos : 0 < c.1.length) :
    Covering size
      (f.setPage (off / PAGE_SIZE) (p.write (off % PAGE_SIZE) c.1 (chunk_fits off c.2))) st'
      (off + c.1.length) := by
  have hfits := chunk_fits off c.2
  have hdiv := Nat.div_add_mod' off PAGE_SIZE
  have hall : ∀ q p', (f.setPage (off / PAGE_SIZE)
      (p.write (off % PAGE_SIZE) c.1 (chunk_fits off c.2))).pages.get q = some p' →
      min (max size (off + c.1.length) - q * PAGE_SIZE) PAGE_SIZE ≤ p'.validSize := by
    intro q p' hget
    simp only [setPage, SortedMap.get_insert] at hget
    split at hget
    · next hq =>
      obtain rfl := Option.some.inj hget
      rw [CachePage.write_validSize, hq]
      by_cases hlt : off < size
      · have := h.current p hpage hlt
        omega
      · omega
    · next hq =>
      have hother := h.others q p' hget hq
      rcases Nat.lt_or_gt_of_ne hq with hlt | hgt
      · have : (q + 1) * PAGE_SIZE ≤ off / PAGE_SIZE * PAGE_SIZE := Nat.mul_le_mul_right _ hlt
        rw [Nat.succ_mul] at this
        omega
      · have : (off / PAGE_SIZE + 1) * PAGE_SIZE ≤ q * PAGE_SIZE := Nat.mul_le_mul_right _ hgt
        rw [Nat.succ_mul] at this
        omega
  refine ⟨h.size_eq, fun q p' hget _ => hall q p' hget, fun p' hget hlt => ?_, fun _ hsize => ?_⟩
  · have := hall _ p' hget
    omega
  · by_cases hq : (off + c.1.length) / PAGE_SIZE = off / PAGE_SIZE
    · refine Or.inr ⟨p.write (off % PAGE_SIZE) c.1 (chunk_fits off c.2), ?_, ?_⟩
      · simp only [setPage, SortedMap.get_insert, if_pos hq]
      · rw [CachePage.write_validSize]
        unfold PAGE_SIZE at *
        omega
    · unfold PAGE_SIZE at *
      omega

theorem covers_write {f' : FileInode δ} {wrote : ℕ}
    (h : Covers f.pages f.size) (hw : WriteCovers f st offset)
    (hrun : f.write B st offset = .ok (wrote, f')) : Covers f'.pages f'.size := by
  obtain ⟨g, st', hloop, hdrained, hI, hcached⟩ := writeLoop_rule (B := B) (I := Covering f.size)
    (fun _ _ _ hI hnone => hI.fresh hnone)
    (fun _ _ _ _ c _ hI hget hpos _ => hI.poll hget c hpos)
    (2 * st.data.length + 2) f st offset 0 (Covering.init h hw) (by omega) (fun _ => by omega)
  have hcov : Covers g.pages (max g.size (offset + st.data.length)) := by
    intro q p hget
    rw [hI.size_eq]
    by_cases hq : q = (offset + st.data.length) / PAGE_SIZE
    · subst hq
      have hdiv := Nat.div_add_mod' (offset + st.data.length) PAGE_SIZE
      by_cases hlt : offset + st.data.length < f.size
      · have := hI.current p hget hlt
        omega
      · rcases hI.drained hdrained (not_lt.mp hlt) with hzero | ⟨p', hp', hle⟩
        · omega
        · obtain rfl := Option.some.inj (hget.symm.trans hp')
          omega
    · exact hI.others q p hget hq
  unfold write at hrun
  rw [hloop, ExceptLoop.ok_bind, Nat.zero_add] at hrun
  obtain ⟨-, rfl⟩ := Prod.mk.inj (Except.ok.inj hrun)
  split
  · exact Covers.fsync (B := B)
      (f := { g with size := max g.size (offset + st.data.length) }) hcov
  · exact hcov

theorem FileOk.write (h : FileOk B f a) (hcov : WriteCovers f st offset)
    (hkeep : f.StartsFresh offset →
      ∀ o, o / PAGE_SIZE = offset / PAGE_SIZE → o < f.size → f.content B o = 0) :
    ∃ f', f.write B st offset = .ok (st.data.length, f') ∧
      FileOk B f' (a.write offset st.data) := by
  obtain ⟨f', hrun, hsize, hwritten, hother⟩ := write_effect (B := B) f st offset
  have hzero : ∀ o, f.size ≤ o → f.content B o = 0 := fun o ho =>
    (h.content o).trans (a.zero o (h.size ▸ ho))
  have hensure : ∀ o, (f.ensure B offset).content B o = f.content B o := by
    intro o
    by_cases hpage : f.StartsFresh offset ∧ o / PAGE_SIZE = offset / PAGE_SIZE
    · rw [content_ensure_of_fresh B hpage.1 hpage.2]
      by_cases ho : o < f.size
      · exact (hkeep hpage.1 o hpage.2 ho).symm
      · exact (hzero o (not_lt.mp ho)).symm
    · exact content_ensure_of_not B fun hfresh hq => hpage ⟨hfresh, hq⟩
  refine ⟨f', hrun, ?_, fun o => ?_, covers_write h.covers hcov hrun⟩
  · rw [hsize, h.size]
    rfl
  · show f'.content B o = splice a.byte offset st.data o
    by_cases hin : offset ≤ o ∧ o < offset + st.data.length
    · rw [hwritten o hin.1 hin.2, splice_of_mem hin.1 hin.2]
    · rw [splice_of_not_mem (by omega), ← h.content o]
      rcases hother o (by omega) with hsame | ⟨hle, h0⟩ | ⟨hle, -, h0⟩
      · rw [hsame, hensure]
      · rw [h0, hzero o (by omega)]
      · rw [h0, hzero o hle]

/-! ### Truncation -/

/-- The page that a shrinking `resize` cuts holds in front of the cut what the store holds. -/
def KeepsPrefix (B : Backend δ) (f : FileInode δ) (n : ℕ) : Prop :=
  n < f.size → ∀ p, f.pages.get (n / PAGE_SIZE) = some p →
    ∀ o < n % PAGE_SIZE, p.data o = B.byte f.store (n / PAGE_SIZE * PAGE_SIZE + o)

/-- No page behind the old end has fewer valid bytes than a growing `resize` gives the file. -/
def TruncateCovers (f : FileInode δ) (n : ℕ) : Prop :=
  f.size < n → ∀ q p, f.pages.get q = some p → f.size / PAGE_SIZE < q →
    min (n - q * PAGE_SIZE) PAGE_SIZE ≤ p.validSize

variable {n : ℕ}

theorem get_shrink (pages : SortedMap ℕ CachePage) (h : n < size) (q : ℕ) :
    ((List.range' (n / PAGE_SIZE) (divCeil size PAGE_SIZE - n / PAGE_SIZE)).foldl
      SortedMap.erase pages).get q =
      if n / PAGE_SIZE ≤ q ∧ q * PAGE_SIZE < size then none else pages.get q := by
  rw [SortedMap.get_foldl_erase]
  refine if_congr ?_ rfl rfl
  rw [List.mem_range'_1]
  unfold divCeil PAGE_SIZE
  split <;> omega

theorem FileOk.shrink (h : FileOk B f a)
    (hlt : n < f.size) (hkeep : KeepsPrefix B f n) : FileOk B (f.truncate B n) (a.truncate n) := by
  have hpages : ∀ q, (f.truncate B n).pages.get q =
      if n / PAGE_SIZE ≤ q ∧ q * PAGE_SIZE < f.size then none else f.pages.get q := by
    intro q
    unfold truncate resize
    rw [if_pos hlt]
    exact get_shrink f.pages hlt q
  have hstore : (f.truncate B n).store = B.truncate f.store n := by
    unfold truncate resize
    rw [if_pos hlt]
  refine ⟨rfl, fun o => ?_, fun q p hget => ?_⟩
  · show (f.truncate B n).content B o = if o < n then a.byte o else 0
    unfold FileInode.content
    rw [hpages, hstore]
    by_cases hdrop : n / PAGE_SIZE ≤ o / PAGE_SIZE ∧ o / PAGE_SIZE * PAGE_SIZE < f.size
    · rw [if_pos hdrop]
      dsimp only
      rw [B.truncate_byte, ← h.content o]
      split
      · next ho =>
        -- the page that contains the cut
        have hq : o / PAGE_SIZE = n / PAGE_SIZE :=
          le_antisymm (Nat.div_le_div_right ho.le) hdrop.1
        cases hget : f.pages.get (o / PAGE_SIZE) with
        | none => exact (content_of_none B hget).symm
        | some p =>
          have hdiv := Nat.div_add_mod' o PAGE_SIZE
          have hmod : o % PAGE_SIZE < n % PAGE_SIZE := by
            unfold PAGE_SIZE at *
            omega
          rw [content_of_cached B hget, hkeep hlt p (hq ▸ hget) _ hmod, ← hq, hdiv]
      · rfl
    · rw [if_neg hdrop]
      by_cases ho : o < n
      · rw [if_pos ho, ← h.content o, FileInode.content]
        split
        · rfl
        · rw [B.truncate_byte, if_pos ho]
      · have hsize : f.size ≤ o := by
          unfold PAGE_SIZE at *
          omega
        rw [if_neg ho]
        have h0 : f.content B o = 0 := (h.content o).trans (a.zero o (h.size ▸ hsize))
        split
        · next p hget => rw [← content_of_cached B hget, h0]
        · rw [B.truncate_byte, if_neg ho]
  · rw [hpages] at hget
    split at hget
    · cases hget
    · next hkept =>
      have hcov := h.covers q p hget
      show min (n - q * PAGE_SIZE) PAGE_SIZE ≤ p.validSize
      unfold PAGE_SIZE at *
      omega

theorem get_grow (hlt : f.size < n) {q : ℕ} {p' : CachePage}
    (hget : (f.truncate B n).pages.get q = some p') :
    f.pages.get q = some p' ∧ q ≠ f.size / PAGE_SIZE ∨
      ∃ p, f.pages.get q = some p ∧ q = f.size / PAGE_SIZE ∧
        p' = p.zeroExtend (min (n - q * PAGE_SIZE) PAGE_SIZE) (min_le_right _ _) := by
  unfold truncate resize at hget
  rw [if_neg (by omega), if_pos hlt] at hget
  dsimp only at hget
  split at hget
  · next page hpage =>
    simp only [setPage, SortedMap.get_insert] at hget
    split at hget
    · next hq =>
      obtain rfl := Option.some.inj hget
      subst hq
      exact Or.inr ⟨page, hpage, rfl, rfl⟩
    · next hq => exact Or.inl ⟨hget, hq⟩
  · next hnone =>
    refine Or.inl ⟨hget, fun hq => ?_⟩
    rw [← hq, hget] at hnone
    cases hnone

theorem get_grow_none (hlt : f.size < n) {q : ℕ}
    (hget : (f.truncate B n).pages.get q = none) : f.pages.get q = none := by
  unfold truncate resize at hget
  rw [if_neg (by omega), if_pos hlt] at hget
  dsimp only at hget
  split at hget
  · simp only [setPage, SortedMap.get_insert] at hget
    split at hget
    · cases hget
    · exact hget
  · exact hget

theorem FileOk.grow (h : FileOk B f a) (hlt : f.size < n) (hcov : TruncateCovers f n) :
    FileOk B (f.truncate B n) (a.truncate n) := by
  have hzero : ∀ o, f.size ≤ o → f.content B o = 0 := fun o ho =>
    (h.content o).trans (a.zero o (h.size ▸ ho))
  have hstore : (f.truncate B n).store = B.truncate f.store n := by
    unfold truncate resize
    rw [if_neg (by omega), if_pos hlt]
    dsimp only
    split <;> rfl
  refine ⟨rfl, fun o => ?_, fun q p' hget => ?_⟩
  · -- growing changes no byte: what it zeroes lies behind the end and was zero
    have hsame : (f.truncate B n).content B o = f.content B o := by
      cases hget : (f.truncate B n).pages.get (o / PAGE_SIZE) with
      | none =>
        rw [content_of_none B hget, content_of_none B (get_grow_none hlt hget), hstore,
          B.truncate_byte]
        split
        · rfl
        · next ho =>
          rw [← content_of_none B (get_grow_none hlt hget), hzero o (by omega)]
      | some p' =>
        rw [content_of_cached B hget]
        rcases get_grow hlt hget with ⟨hold, -⟩ | ⟨p, hold, -, rfl⟩
        · rw [content_of_cached B hold]
        · rw [content_of_cached B hold]
          refine CachePage.zeroExtend_data _ fun hvalid => ?_
          rw [← content_of_cached B hold]
          refine hzero o ?_
          have hcovp := h.covers _ p hold
          have hmod := mod_lt_pageSize o
          have hdiv := Nat.div_add_mod' o PAGE_SIZE
          omega
    show (f.truncate B n).content B o = if o < n then a.byte o else 0
    rw [hsame]
    split
    · exact h.content o
    · exact hzero o (by omega)
  · show min (n - q * PAGE_SIZE) PAGE_SIZE ≤ p'.validSize
    rcases get_grow hlt hget with ⟨hold, hq⟩ | ⟨p, -, -, rfl⟩
    · rcases Nat.lt_or_gt_of_ne hq with hq | hq
      · have hcovp := h.covers q p' hold
        have : (q + 1) * PAGE_SIZE ≤ f.size / PAGE_SIZE * PAGE_SIZE := Nat.mul_le_mul_right _ hq
        have := Nat.div_mul_le_self f.size PAGE_SIZE
        rw [Nat.succ_mul] at *
        omega
      · exact hcov hlt q p' hold hq
    · rw [CachePage.zeroExtend_validSize]
      exact le_max_right _ _

theorem FileOk.truncate (h : FileOk B f a) (hkeep : KeepsPrefix B f n) (hcov : TruncateCovers f n) :
    FileOk B (f.truncate B n) (a.truncate n) := by
  rcases Nat.lt_trichotomy n f.size with hlt | heq | hgt
  · exact h.shrink hlt hkeep
  · subst heq
    have hsame : f.truncate B f.size = { f with store := B.truncate f.store f.size } := by
      unfold FileInode.truncate resize
      rw [if_neg (lt_irrefl _), if_neg (lt_irrefl _)]
    rw [hsame]
    refine ⟨rfl, fun o => ?_, h.covers⟩
    show _ = if o < f.size then a.byte o else 0
    have hold := h.content o
    unfold FileInode.content at hold ⊢
    dsimp only
    cases hget : f.pages.get (o / PAGE_SIZE) with
    | some p =>
      rw [hget] at hold
      dsimp only at hold ⊢
      rw [hold]
      split
      · rfl
      · next ho => exact a.zero o (h.size ▸ not_lt.mp ho)
    | none =>
      rw [hget] at hold
      dsimp only at hold ⊢
      rw [B.truncate_byte, hold]
  · exact h.grow hgt hcov

end FileInode

/-! ### Runs -/

inductive Op where
  | read (total offset : ℕ)
  | write (stream : Stream) (offset : ℕ)
  | truncate (length : ℕ)
  | withPage (offset : ℕ)

namespace Op

variable {δ : Type} (B : Backend δ)

def run (s : FileInode δ × AbstractFile) : Op → Except CachePanic (FileInode δ × AbstractFile)
  | read total offset => (s.1.read B total offset).map fun r => (r.1, s.2)
  | write stream offset =>
    (s.1.write B stream offset).map fun r => (r.2, s.2.write offset stream.data)
  | truncate length => .ok (s.1.truncate B length, s.2.truncate length)
  | withPage offset => .ok (s.1.withPage B offset, s.2)

/-- The operation leaves the valid sizes of the pages large enough. -/
def Covered (f : FileInode δ) : Op → Prop
  | write stream offset => f.WriteCovers stream offset
  | truncate length => f.TruncateCovers length
  | _ => True

/-- The operation zeroes and drops no byte of the file. -/
def Keeps (f : FileInode δ) : Op → Prop
  | write _ offset => f.StartsFresh offset →
      ∀ o, o / PAGE_SIZE = offset / PAGE_SIZE → o < f.size → f.content B o = 0
  | truncate length => f.KeepsPrefix B length
  | _ => True

end Op

/-- Files with the operations that meet the two conditions. -/
def fileMachine {δ : Type} (B : Backend δ) (init : FileInode δ × AbstractFile → Prop) :
    System (FileInode δ × AbstractFile) Op CachePanic where
  init := init
  allowed s op := op.Covered s.1 ∧ op.Keeps B s.1
  run := Op.run B

namespace FileInode

variable {δ : Type} {B : Backend δ}

variable {s : FileInode δ × AbstractFile}

theorem FileOk.step (h : FileOk B s.1 s.2) {op : Op}
    (hcov : op.Covered s.1) (hkeep : op.Keeps B s.1) :
    ∃ t, op.run B s = .ok t ∧ FileOk B t.1 t.2 := by
  cases op with
  | read total offset =>
    obtain ⟨f', hrun, hsame⟩ := read_spec (B := B) h.covers total offset
    refine ⟨(f', s.2), ?_, h.sameFile hsame⟩
    rw [Op.run, hrun]
    rfl
  | write stream offset =>
    obtain ⟨f', hrun, hok⟩ := h.write hcov hkeep
    refine ⟨(f', s.2.write offset stream.data), ?_, hok⟩
    rw [Op.run, hrun]
    rfl
  | truncate length => exact ⟨_, rfl, h.truncate hkeep hcov⟩
  | withPage offset =>
    refine ⟨_, rfl, ?_⟩
    unfold withPage
    dsimp only
    split
    · exact h
    · split
      · exact h
      · next hnone => exact h.sameFile (SameFile.load h.covers hnone)

theorem fileOk_of_reachable {init : FileInode δ × AbstractFile → Prop}
    (hinit : ∀ s, init s → FileOk B s.1 s.2)
    (hs : (fileMachine B init).Reachable s) : FileOk B s.1 s.2 :=
  (System.Reachable.safe (M := fileMachine B init) (P := fun s => FileOk B s.1 s.2) hinit
    (fun _ _ h hallowed => h.step hallowed.1 hallowed.2) hs).1

/-! ### tmpfs -/

def newTmpfs : FileInode Unit := ⟨0, (), SortedMap.empty⟩

def tmpfsMachine : System (FileInode Unit × AbstractFile) Op CachePanic :=
  fileMachine tmpfs fun s => s = (newTmpfs, AbstractFile.empty)

theorem fileOk_newTmpfs : FileOk tmpfs newTmpfs AbstractFile.empty :=
  ⟨rfl, fun _ => rfl, fun _ _ h => nomatch h⟩

def anyFileMachine (B : Backend δ) : System (FileInode δ × AbstractFile) Op CachePanic :=
  fileMachine B fun s => FileOk B s.1 s.2

def twoByteFile : FileInode (ℕ → UInt8) × AbstractFile :=
  (⟨2, (AbstractFile.empty.write 0 [97, 98]).byte, SortedMap.empty⟩,
    AbstractFile.empty.write 0 [97, 98])

end FileInode

end Dlutos.FileCache
