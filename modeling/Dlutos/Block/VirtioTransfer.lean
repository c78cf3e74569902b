import Dlutos.Block.BlockDevice
import Mathlib.Data.List.Infix

/-!
# Requests of more than eight sectors

The block layer puts up to sixteen sectors into a page, but the driver transfers eight sectors for
each page, whatever its length.  So reads and writes that touch at most eight sectors are right, and
no others are: for a longer one there are contents with which it goes wrong.
-/

namespace Dlutos.Block

open FileCache

/-! ### Slices -/

variable {n : ℕ}

theorem getElem?_slice (f : ℕ → UInt8) (p : ℕ) {k : ℕ} (h : k < n) :
    (slice f p n)[k]? = some (f (p + k)) := by
  rw [slice, List.getElem?_map, List.getElem?_range h]
  rfl

variable {o : ℕ}

theorem splice_slice (f g : ℕ → UInt8) {p q : ℕ} (h1 : p ≤ o) (h2 : o < p + n) :
    splice f p (slice g q n) o = g (q + (o - p)) := by
  rw [splice_of_mem h1 (by rwa [length_slice]), getD_slice g q (by omega)]

/-! ### Chunks -/

theorem Chunks.next_new {sector count : ℕ} (h : 0 < count) :
    (Chunks.new sector count 8).next =
      some ((sector, min 8 count),
        { stop := sector + count, cur := sector + 8, chunkLen := 8 }) := by
  rw [Chunks.next, if_neg (by simp only [Chunks.new]; omega)]
  simp only [Chunks.new, Nat.add_sub_cancel_left]

theorem bytes_readBlocks_of_le (disk : ℕ → UInt8) (start : ℕ) {len : ℕ} (p : Page)
    (h : len * 512 ≤ o) : (readBlocks disk start len p).bytes o = p.bytes o :=
  splice_of_not_mem (Or.inr (by rwa [length_slice, Nat.zero_add]))

theorem submitWrite_of_lt (disk : ℕ → UInt8) {c : Chunks} (pages : List Page)
    (hn : n ≤ c.cur) (h : o < n * 512) : submitWrite disk c pages o = disk o := by
  induction pages generalizing disk c with
  | nil => rfl
  | cons p ps ih =>
    rw [submitWrite, Chunks.next]
    split_ifs with hend
    · rfl
    · have hle : n * 512 ≤ c.cur * 512 := Nat.mul_le_mul_right _ hn
      have hrest := ih (writeBlocks disk c.cur (min c.chunkLen (c.stop - c.cur)) p)
        (c := { c with cur := c.cur + c.chunkLen }) (hn.trans (Nat.le_add_right _ _))
      exact hrest.trans (splice_of_not_mem (Or.inl (lt_of_lt_of_le h hle)))

theorem writeBlocks_start (disk : ℕ → UInt8) (start : ℕ) {len : ℕ} (p : Page) (h : 0 < len) :
    writeBlocks disk start len p (start * 512) = p.bytes 0 := by
  rw [writeBlocks, splice_slice _ _ le_rfl (by omega), Nat.sub_self]

theorem submitWrite_cons (disk : ℕ → UInt8) {c : Chunks} (p : Page) (ps : List Page)
    (h : c.cur < c.stop) : submitWrite disk c (p :: ps) =
      submitWrite (writeBlocks disk c.cur (min c.chunkLen (c.stop - c.cur)) p)
        { c with cur := c.cur + c.chunkLen } ps := by
  rw [submitWrite, Chunks.next, if_neg (Nat.not_le.mpr h)]

namespace BlockDevice

variable {d : BlockDevice} {disk : ℕ → UInt8} {junk : ℕ → ℕ → ℕ → UInt8} {offset : ℕ}

variable {count : ℕ}

theorem locate_eq {sector : ℕ} (h : sector + count ≤ d.sectorCount) :
    d.locate sector count = .ok (d.base + sector) := by
  rw [locate, if_neg (by omega), base]
  cases d.lbaOffset with
  | none => rw [Option.getD_none, Nat.zero_add]
  | some lbaOffset => rw [Option.getD_some, Nat.add_comm]

theorem allocPages_short (junk : ℕ → ℕ → UInt8) (h : count ≤ 8) :
    allocPages junk count = [{ order := 0, bytes := junk 0 }] := if_pos h

theorem allocPages_long (junk : ℕ → ℕ → UInt8) (h : 8 < count) :
    ∃ ps, allocPages junk count = { order := 1, bytes := junk 0 } :: ps ∧
      (ps = [] ∨ 16 < count ∧ ∃ p ps', ps = p :: ps') := by
  unfold allocPages
  rw [if_neg (by omega)]
  split_ifs with h16
  · exact ⟨[], rfl, Or.inl rfl⟩
  · obtain ⟨n, hn⟩ : ∃ n, (count + 15) / 16 = n + 1 + 1 := ⟨(count + 15) / 16 - 2, by omega⟩
    rw [hn, List.range_succ_eq_map, List.range_succ_eq_map]
    exact ⟨_, rfl, Or.inr ⟨by omega, _, _, rfl⟩⟩

/-! ### Short reads and writes -/

theorem fill_fresh (len : ℕ) (bytes : List UInt8) :
    ({ total := len } : ByteBuffer).fill bytes =
      (if len = 0 then .full else if len < bytes.length then .partly len else .done bytes.length,
        { total := len, data := bytes.take len }) := by
  have havailable : ({ total := len } : ByteBuffer).available = len := rfl
  rw [ByteBuffer.fill, havailable]
  split_ifs with h0 h1
  · rw [h0, List.take_zero]
  · rfl
  · rw [List.take_of_length_le (by omega)]
    rfl

variable {p : Page} {first len : ℕ}

theorem fillPages_single (h : first + len ≤ p.len) :
    ∃ stop, fillPages [p] first { total := len } 0 =
      (stop, { total := len, data := slice p.bytes first len }, len) := by
  rw [fillPages, fill_fresh, take_slice, Nat.min_eq_left (by omega), length_slice]
  split_ifs with h0 h1
  · exact ⟨true, by rw [h0]⟩
  · exact ⟨true, by simp only [Nat.zero_add]⟩
  · exact ⟨false, by simp only [fillPages, show p.len - first = len by omega, Nat.zero_add]⟩

variable {start : ℕ} {buffer : ByteBuffer}

theorem readLoop_round {nfilled : ℕ} (hne : count ≠ 0) (hin : start + nread count ≤ d.sectorCount) :
    d.readLoop disk junk start first count buffer nfilled =
      match fillPages (submitRead disk (.new (d.base + start) (nread count) 8)
        (allocPages (junk start) (nread count))) first buffer nfilled with
      | (true, buffer, nfilled) => .ok (buffer, nfilled)
      | (false, buffer, nfilled) =>
        d.readLoop disk junk (start + nread count) 0 (count - nread count) buffer nfilled := by
  rw [readLoop, if_neg hne]
  have hlocate := locate_eq hin
  dsimp only
  generalize d.locate start (nread count) = located at hlocate ⊢
  subst hlocate
  rfl

theorem readSome_short (hin : offset + len ≤ d.sectorCount * 512) (h : offset % 512 + len ≤ 4096) :
    d.readSome disk junk offset { total := len } =
      .ok (.done len, { total := len, data := slice disk (d.base * 512 + offset) len }) := by
  have hloop : d.readLoop disk junk (offset / 512) (offset % 512)
      ((offset % 512 + len + 511) / 512) { total := len } 0 =
        .ok ({ total := len, data := slice disk (d.base * 512 + offset) len }, len) := by
    generalize hcount : (offset % 512 + len + 511) / 512 = count
    by_cases h0 : count = 0
    · obtain rfl : len = 0 := by omega
      rw [h0, readLoop, if_pos rfl]
      rfl
    have hnread : nread count = count := if_pos (by omega)
    rw [readLoop_round h0 (by rw [hnread]; omega), hnread, allocPages_short _ (by omega),
      submitRead, Chunks.next_new (by omega), Nat.min_eq_right (by omega)]
    simp only [submitRead]
    have hpage : offset % 512 + len ≤ (readBlocks disk (d.base + offset / 512) count
      { order := 0, bytes := junk (offset / 512) 0 }).len := h
    obtain ⟨stop, hfill⟩ := fillPages_single hpage
    have hbytes : slice (readBlocks disk (d.base + offset / 512) count
        { order := 0, bytes := junk (offset / 512) 0 }).bytes (offset % 512) len =
          slice disk (d.base * 512 + offset) len := by
      refine slice_congr fun k hk => ?_
      simp only [readBlocks]
      rw [splice_slice _ _ (Nat.zero_le _) (by omega)]
      exact congrArg disk (by omega)
    rw [hfill, hbytes]
    cases stop with
    | true => rfl
    | false =>
      simp only [Nat.sub_self]
      rw [readLoop, if_pos rfl]
  rw [readSome, hloop]
  exact congrArg (fun r => Except.ok (r, _)) (if_pos rfl)

variable {data : List UInt8}

theorem writeLoop_round {first : {n : ℕ // n < 512}} {nwritten : ℕ}
    (hne : data ≠ []) (hin : start + nwrite first data.length ≤ d.sectorCount) :
    d.writeLoop disk junk start first data nwritten =
      let copied := copyPages (writePages disk (junk start) (d.base + start) first data) first data
      d.writeLoop (submitWrite disk (.new (d.base + start) (nwrite first data.length) 8) copied.1)
        junk (start + nwrite first data.length) ⟨0, by decide⟩ (data.drop copied.2)
        (nwritten + copied.2) := by
  rw [writeLoop, dif_neg hne]
  simp only [locate_eq hin]
  rfl

theorem writePages_short (disk : ℕ → UInt8) (junk : ℕ → ℕ → UInt8) (sector : ℕ)
    (hcount : nwrite first data.length = count) (hpos : 0 < count) (h : count ≤ 8) :
    ∃ bytes, writePages disk junk sector first data = [{ order := 0, bytes := bytes }] ∧
      ∀ o < count * 512, o < first ∨ first + data.length ≤ o →
        bytes o = disk (sector * 512 + o) := by
  simp only [writePages, hcount]
  rw [allocPages_short _ h]
  split_ifs with hread
  · rw [submitRead, Chunks.next_new hpos, Nat.min_eq_right h]
    refine ⟨_, rfl, fun o ho _ => ?_⟩
    rw [splice_slice _ _ (Nat.zero_le _) (by omega), Nat.sub_zero]
  · obtain ⟨hfirst, hlen⟩ := not_or.mp hread
    refine ⟨_, rfl, fun o ho hout => ?_⟩
    omega

theorem copyPages_single (hne : data ≠ []) (h : first + data.length ≤ p.len) :
    copyPages [p] first data = ([{ p with bytes := splice p.bytes first data }], data.length) := by
  have hlen : 0 < data.length := List.length_pos_iff.mpr hne
  have hmin : min data.length (p.len - first) = data.length := by omega
  rw [copyPages, hmin, if_neg hlen.ne', if_pos le_rfl, List.take_length]

theorem writeSome_short (hin : offset + data.length ≤ d.sectorCount * 512)
    (h : offset % 512 + data.length ≤ 4096) :
    d.writeSome disk junk offset data =
      .ok (splice disk (d.base * 512 + offset) data, data.length) := by
  unfold writeSome
  by_cases hne : data = []
  · subst hne
    rw [writeLoop, dif_pos rfl]
    refine congrArg (fun disk => Except.ok (disk, 0)) (funext fun o => ?_)
    exact (splice_of_not_mem (by rw [List.length_nil]; omega)).symm
  have hlen : 0 < data.length := List.length_pos_iff.mpr hne
  obtain ⟨count, hcount⟩ : ∃ count, nwrite (offset % 512) data.length = count := ⟨_, rfl⟩
  have hsectors : count = (offset % 512 + data.length + 511) / 512 := by
    rw [← hcount, nwrite, maxRequestPages]
    omega
  rw [writeLoop_round hne (by rw [hcount]; omega)]
  obtain ⟨bytes, hpages, hbytes⟩ := writePages_short disk (junk (offset / 512))
    (d.base + offset / 512) hcount (by omega) (by omega)
  simp only [hpages, hcount]
  rw [copyPages_single hne h, List.drop_length, writeLoop, dif_pos rfl, Nat.zero_add, submitWrite,
    Chunks.next_new (by omega), Nat.min_eq_right (by omega)]
  refine congrArg (fun disk => Except.ok (disk, data.length)) (funext fun o => ?_)
  simp only [submitWrite, writeBlocks]
  by_cases ho : (d.base + offset / 512) * 512 ≤ o ∧ o < (d.base + offset / 512) * 512 + count * 512
  · rw [splice_slice _ _ ho.1 ho.2, Nat.zero_add]
    by_cases hin : d.base * 512 + offset ≤ o ∧ o < d.base * 512 + offset + data.length
    · rw [splice_of_mem (by omega) (by omega), splice_of_mem hin.1 hin.2]
      exact congrArg (fun k => data.getD k 0) (by omega)
    · rw [splice_of_not_mem (by omega), hbytes _ (by omega) (by omega),
        splice_of_not_mem (by omega)]
      exact congrArg disk (by omega)
  · rw [splice_of_not_mem (by rw [length_slice]; omega), splice_of_not_mem (by omega)]

/-! ### Long reads and writes -/

theorem fill_isPrefix (buffer : ByteBuffer) (bytes : List UInt8) :
    buffer.data <+: (buffer.fill bytes).2.data := by
  unfold ByteBuffer.fill
  split_ifs
  · exact List.prefix_refl _
  · exact List.prefix_append _ _
  · exact List.prefix_append _ _

theorem fillPages_cons_isPrefix (p : Page) (ps : List Page) (first : ℕ) (buffer : ByteBuffer)
    (nfilled : ℕ) :
    (buffer.fill (slice p.bytes first (p.len - first))).2.data <+:
      (fillPages (p :: ps) first buffer nfilled).2.1.data := by
  induction ps generalizing p first buffer nfilled with
  | nil =>
    rw [fillPages]
    split
    · next heq =>
      rw [heq]
      exact List.prefix_refl _
    · next heq => rw [heq]
    · next heq => rw [heq]
  | cons q qs ih =>
    rw [fillPages]
    split
    · next n buffer' heq =>
      rw [heq]
      exact (fill_isPrefix _ _).trans (ih q 0 buffer' (nfilled + n))
    · next heq => rw [heq]
    · next heq => rw [heq]

theorem fillPages_isPrefix (pages : List Page) (first : ℕ) (buffer : ByteBuffer) (nfilled : ℕ) :
    buffer.data <+: (fillPages pages first buffer nfilled).2.1.data := by
  cases pages with
  | nil => exact List.prefix_refl _
  | cons p ps => exact (fill_isPrefix _ _).trans (fillPages_cons_isPrefix ..)

variable {n : ℕ}

theorem readLoop_isPrefix {nfilled : ℕ} {buffer' : ByteBuffer}
    (h : d.readLoop disk junk start first count buffer nfilled = .ok (buffer', n)) :
    buffer.data <+: buffer'.data := by
  fun_induction readLoop d disk junk start first count buffer nfilled with
  | case1 =>
    cases h
    exact List.prefix_refl _
  | case2 => cases h
  | case3 start first count buffer nfilled hne m sector hloc pages b k hfill =>
    have hprefix := fillPages_isPrefix pages first buffer nfilled
    rw [hfill] at hprefix
    cases h
    exact hprefix
  | case4 start first count buffer nfilled hne m sector hloc pages b k hfill ih =>
    have hprefix := fillPages_isPrefix pages first buffer nfilled
    rw [hfill] at hprefix
    exact hprefix.trans (ih h)

theorem getElem?_of_isPrefix {l l' : List UInt8} (h : l <+: l') {k : ℕ} {a : UInt8}
    (hk : l[k]? = some a) : l'[k]? = some a := by
  obtain ⟨t, rfl⟩ := h
  rw [List.getElem?_append_left (List.getElem?_eq_some_iff.mp hk).1, hk]

theorem readSome_long {result : FillResult}
    (hin : offset + len ≤ d.sectorCount * 512) (h : 4096 < offset % 512 + len)
    (hread : d.readSome disk junk offset { total := len } = .ok (result, buffer)) :
    buffer.data[4096 - offset % 512]? = some (junk (offset / 512) 0 4096) := by
  unfold readSome at hread
  split at hread
  · cases hread
  next buffer' n hloop =>
  cases hread
  generalize hcount : (offset % 512 + len + 511) / 512 = count at hloop
  have hnread : 8 < nread count ∧ nread count ≤ count := by
    unfold nread maxRequestPages
    split_ifs <;> omega
  rw [readLoop_round (by omega) (by omega)] at hloop
  obtain ⟨ps, hpages, -⟩ := allocPages_long (junk (offset / 512)) hnread.1
  rw [hpages, submitRead, Chunks.next_new (by omega), Nat.min_eq_left (by omega)] at hloop
  simp only at hloop
  -- the first page gives its second half as it was allocated
  have hfirst := fillPages_cons_isPrefix
    (readBlocks disk (d.base + offset / 512) 8 { order := 1, bytes := junk (offset / 512) 0 })
    (submitRead disk ⟨d.base + offset / 512 + nread count, d.base + offset / 512 + 8, 8⟩ ps)
    (offset % 512) { total := len } 0
  have hbyte : (readBlocks disk (d.base + offset / 512) 8
      { order := 1, bytes := junk (offset / 512) 0 }).bytes 4096 = junk (offset / 512) 0 4096 :=
    bytes_readBlocks_of_le _ _ _ (by omega)
  have hk : ((slice (readBlocks disk (d.base + offset / 512) 8
      { order := 1, bytes := junk (offset / 512) 0 }).bytes (offset % 512)
        (8192 - offset % 512)).take len)[4096 - offset % 512]? =
          some (junk (offset / 512) 0 4096) := by
    rw [List.getElem?_take_of_lt (by omega), getElem?_slice _ _ (by omega),
      show offset % 512 + (4096 - offset % 512) = 4096 by omega, hbyte]
  rw [fill_fresh] at hfirst
  have hfilled := getElem?_of_isPrefix hfirst hk
  split at hloop
  · next hfill =>
    cases hloop
    rwa [hfill] at hfilled
  · next hfill =>
    rw [hfill] at hfilled
    exact getElem?_of_isPrefix (readLoop_isPrefix hloop) hfilled

/-! ### Long writes -/

theorem locate_eq_of_ok {sector : ℕ} (h : d.locate sector count = .ok n) :
    n = d.base + sector := by
  unfold locate at h
  split_ifs at h
  rw [base]
  cases hlba : d.lbaOffset with
  | none =>
    rw [hlba] at h
    cases h
    rw [Option.getD_none, Nat.zero_add]
  | some lbaOffset =>
    rw [hlba] at h
    cases h
    rw [Option.getD_some, Nat.add_comm]

theorem writeLoop_of_lt {nwritten : ℕ} {first : {n : ℕ // n < 512}}
    {disk' : ℕ → UInt8} (h : d.writeLoop disk junk start first data nwritten = .ok (disk', n))
    {o : ℕ} (ho : o < (d.base + start) * 512) : disk' o = disk o := by
  fun_induction writeLoop d disk junk start first data nwritten with
  | case1 =>
    cases h
    rfl
  | case2 disk start first data nwritten hne count ih =>
    cases hloc : d.locate start count with
    | error e =>
      rw [hloc] at h
      cases h
    | ok sector =>
      rw [hloc] at h
      have hle : (d.base + start) * 512 ≤ (d.base + (start + count)) * 512 :=
        Nat.mul_le_mul_right _ (by omega)
      have hrest := ih sector h (lt_of_lt_of_le ho hle)
      have hsector : d.base + start ≤ (Chunks.new sector count 8).cur :=
        (locate_eq_of_ok hloc).ge
      exact hrest.trans (submitWrite_of_lt _ _ hsector ho)

theorem writePages_long (disk : ℕ → UInt8) (junk : ℕ → ℕ → UInt8) (sector : ℕ)
    (h : 8 < nwrite first data.length) :
    ∃ p ps, writePages disk junk sector first data = p :: ps ∧ p.order = 1 ∧
      (ps = [] ∨ 16 < nwrite first data.length ∧ ∃ q qs, ps = q :: qs) := by
  obtain ⟨ps, hpages, hps⟩ := allocPages_long junk h
  have horders := orders_writePages disk junk sector first data
  rw [hpages, List.map_cons] at horders
  obtain ⟨q, qs, hq, horder, hrest⟩ := List.map_eq_cons_iff.mp horders
  refine ⟨q, qs, hq, horder, hps.imp ?_ ?_⟩
  · rintro rfl
    exact List.map_eq_nil_iff.mp hrest
  · rintro ⟨h16, p, ps', rfl⟩
    obtain ⟨q', qs', hqs, -⟩ := List.map_eq_cons_iff.mp hrest
    exact ⟨h16, q', qs', hqs⟩

theorem copyPages_cons (ps : List Page) {pageOffset : ℕ}
    (hn : min data.length (p.len - pageOffset) = n) (h : 0 < n) :
    ∃ ps' m, copyPages (p :: ps) pageOffset data =
      ({ p with bytes := splice p.bytes pageOffset (data.take n) } :: ps', m) ∧
      (ps = [] → ps' = []) := by
  rw [copyPages, hn, if_neg h.ne']
  split_ifs
  · exact ⟨ps, _, rfl, id⟩
  · refine ⟨_, _, rfl, ?_⟩
    rintro rfl
    rfl

theorem copyPages_two (q : Page) (ps : List Page)
    (hp : p.order = 1) (hfirst : first < 512) (h : 8192 < first + data.length) :
    ∃ p' q' ps' n, copyPages (p :: q :: ps) first data = (p' :: q' :: ps', n) ∧
      q'.bytes 0 = data.getD (8192 - first) 0 := by
  have hlen : p.len = 8192 := by simp [Page.len, hp]
  have hmin : min data.length (p.len - first) = 8192 - first := by omega
  have hq : 0 < q.len := Nat.mul_pos (by decide) (Nat.pow_pos (by decide))
  obtain ⟨n, hn⟩ : ∃ n, min (data.drop (8192 - first)).length (q.len - 0) = n := ⟨_, rfl⟩
  have hpos : 0 < n := by
    rw [List.length_drop] at hn
    omega
  obtain ⟨ps', m, hcopy, -⟩ := copyPages_cons ps hn hpos
  rw [copyPages, hmin, if_neg (by omega), if_neg (by omega), hcopy]
  refine ⟨_, _, _, _, rfl, ?_⟩
  have hbound : 0 < 0 + ((data.drop (8192 - first)).take n).length := by
    rw [List.length_take, List.length_drop]
    omega
  simp only [splice_of_mem le_rfl hbound, Nat.sub_self, List.getD_eq_getElem?_getD,
    List.getElem?_take_of_lt hpos, List.getElem?_drop, Nat.add_zero]

theorem nwrite_lt :
    (8 < nwrite first len ↔ 4096 < first + len) ∧ (16 < nwrite first len → 8192 < first + len) := by
  unfold nwrite maxRequestPages
  omega

theorem round_long (disk : ℕ → UInt8) (junk : ℕ → ℕ → UInt8) (sector : ℕ) (hfirst : first < 512)
    (h : 8 < nwrite first data.length) :
    submitWrite disk (.new sector (nwrite first data.length) 8)
      (copyPages (writePages disk junk sector first data) first data).1 (sector * 512 + 4096) ∈
        [disk (sector * 512 + 4096), data.getD (8192 - first) 0] := by
  obtain ⟨p, ps, hpages, horder, hps⟩ := writePages_long disk junk sector h
  have hbehind : ∀ p' : Page, writeBlocks disk sector 8 p' (sector * 512 + 4096) =
      disk (sector * 512 + 4096) := fun p' =>
    splice_of_not_mem (Or.inr (by rw [length_slice]))
  have hlong := nwrite_lt.1.mp h
  rw [hpages]
  obtain rfl | ⟨h16, q, qs, rfl⟩ := hps
  · have hlen : p.len = 8192 := by simp [Page.len, horder]
    have hpos : 0 < min data.length (p.len - first) := by omega
    obtain ⟨ps', m, hcopy, hnil⟩ := copyPages_cons [] rfl hpos
    rw [hcopy, hnil rfl, submitWrite, Chunks.next_new (by omega), Nat.min_eq_left (by omega)]
    exact List.mem_cons.mpr (Or.inl (hbehind _))
  · obtain ⟨p', q', ps', m, hcopy, hq⟩ := copyPages_two q qs horder hfirst (nwrite_lt.2 h16)
    have hcur : (Chunks.new sector (nwrite first data.length) 8).cur <
        (Chunks.new sector (nwrite first data.length) 8).stop := Nat.lt_add_of_pos_right (by omega)
    have hcur' : sector + 8 < sector + nwrite first data.length := by omega
    rw [hcopy, submitWrite_cons _ _ _ hcur, submitWrite_cons _ _ _ hcur']
    have hpos : 0 < min 8 (sector + nwrite first data.length - (sector + 8)) := by omega
    have hbyte (f : ℕ → UInt8) := writeBlocks_start f (sector + 8) q' hpos
    have hcur'' : sector + 9 ≤ sector + 8 + 8 := by omega
    rw [submitWrite_of_lt _ _ hcur'' (by omega),
      show sector * 512 + 4096 = (sector + 8) * 512 by omega]
    exact List.mem_cons_of_mem _ (List.mem_singleton.mpr ((hbyte _).trans hq))

theorem writeSome_long {disk' : ℕ → UInt8}
    (hin : offset + data.length ≤ d.sectorCount * 512) (h : 4096 < offset % 512 + data.length)
    (hwrite : d.writeSome disk junk offset data = .ok (disk', n)) :
    disk' ((d.base + offset / 512) * 512 + 4096) ∈
      [disk ((d.base + offset / 512) * 512 + 4096), data.getD (8192 - offset % 512) 0] := by
  have hfirst : offset % 512 < 512 := Nat.mod_lt _ (by decide)
  have hlong : 8 < nwrite (offset % 512) data.length := nwrite_lt.1.mpr h
  have hcount : nwrite (offset % 512) data.length ≤ (offset % 512 + data.length + 511) / 512 :=
    Nat.min_le_left _ _
  have hne : data ≠ [] := List.ne_nil_of_length_pos (by omega)
  unfold writeSome at hwrite
  have hround : offset / 512 + nwrite (offset % 512) data.length ≤ d.sectorCount := by omega
  rw [writeLoop_round hne hround] at hwrite
  have hbefore : (d.base + offset / 512) * 512 + 4096 <
      (d.base + (offset / 512 + nwrite (offset % 512) data.length)) * 512 := by omega
  rw [writeLoop_of_lt hwrite hbefore]
  exact round_long disk (junk (offset / 512)) (d.base + offset / 512) hfirst hlong

/-! ### What a caller may rely on -/

def ReadsRight (d : BlockDevice) (offset len : ℕ) : Prop :=
  ∀ disk junk, d.readSome disk junk offset { total := len } =
    .ok (.done len, { total := len, data := slice disk (d.base * 512 + offset) len })

def WritesRight (d : BlockDevice) (offset len : ℕ) : Prop :=
  ∀ disk junk data, data.length = len →
    d.writeSome disk junk offset data = .ok (splice disk (d.base * 512 + offset) data, len)

section

variable (hin : offset + len ≤ d.sectorCount * 512) (h : 4096 < offset % 512 + len)
include hin h

theorem not_readsRight : ¬d.ReadsRight offset len := by
  intro hright
  have hbyte := readSome_long hin h (hright (fun _ => 0) fun _ _ _ => 1)
  rw [getElem?_slice _ _ (by omega)] at hbyte
  exact absurd (Option.some.inj hbyte) (by decide)

theorem not_writesRight : ¬d.WritesRight offset len := by
  intro hright
  obtain ⟨k, hk⟩ : ∃ k, k = 4096 - offset % 512 := ⟨_, rfl⟩
  obtain ⟨data, hdata⟩ : ∃ data, data = slice (fun i => if i = k then 1 else 0) 0 len := ⟨_, rfl⟩
  have hlen : data.length = len := by rw [hdata, length_slice]
  have hget : ∀ i < len, data.getD i 0 = if i = k then 1 else 0 := by
    intro i hi
    rw [hdata, getD_slice _ _ hi, Nat.zero_add]
  have hother : data.getD (8192 - offset % 512) 0 = 0 := by
    by_cases hi : 8192 - offset % 512 < len
    · rw [hget _ hi, if_neg (by omega)]
    · rw [List.getD_eq_getElem?_getD, List.getElem?_eq_none (by omega), Option.getD_none]
  have hbyte := writeSome_long (hlen ▸ hin) (hlen ▸ h)
    (hright (fun _ => 0) (fun _ _ _ => 0) data hlen)
  rw [hother, splice_of_mem (by omega) (by omega), hget _ (by omega), if_pos (by omega)] at hbyte
  exact absurd hbyte (by decide)

end

/-- Within a device, reads and writes are right exactly when they touch at most eight sectors. -/
theorem transfer_iff (hin : offset + len ≤ d.sectorCount * 512) :
    (d.ReadsRight offset len ↔ offset % 512 + len ≤ 4096) ∧
      (d.WritesRight offset len ↔ offset % 512 + len ≤ 4096) := by
  refine ⟨⟨fun hright => ?_, fun h disk junk => readSome_short hin h⟩, fun hright => ?_, ?_⟩
  · exact Nat.le_of_not_lt fun h => not_readsRight hin h hright
  · exact Nat.le_of_not_lt fun h => not_writesRight hin h hright
  · rintro h disk junk data rfl
    exact writeSome_short hin h

/-- Two thousand bytes across the sectors of a partition. -/
theorem transfer_iff_partition :
    ({ sectorCount := 100, lbaOffset := some 2048 } : BlockDevice).ReadsRight 700 2000 ∧
      ({ sectorCount := 100, lbaOffset := some 2048 } : BlockDevice).WritesRight 700 2000 :=
  have hin : 700 + 2000 ≤ 100 * 512 := by decide
  ⟨(transfer_iff (d := { sectorCount := 100, lbaOffset := some 2048 }) hin).1.mpr (by decide),
    (transfer_iff (d := { sectorCount := 100, lbaOffset := some 2048 }) hin).2.mpr (by decide)⟩

/-- The first eight kilobytes of a disk can be neither read nor written. -/
theorem transfer_wrong :
    ¬({ sectorCount := 16 } : BlockDevice).ReadsRight 0 8192 ∧
      ¬({ sectorCount := 16 } : BlockDevice).WritesRight 0 8192 :=
  ⟨not_readsRight (by decide) (by decide), not_writesRight (by decide) (by decide)⟩

end BlockDevice

end Dlutos.Block
