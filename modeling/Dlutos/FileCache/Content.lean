import Dlutos.FileCache.PageCache

/-!
# What a cached file contains

The bytes of a file are those of the cached pages and, where a page is not cached, those of the
store (`FileInode.content`).  If every cached page has valid bytes up to the end of the file or of
the page (`Covers`), then a read delivers the bytes of the file up to its end (`readLoop_spec`).
-/

namespace Dlutos.FileCache

open ExceptLoop

variable {p : CachePage} {offset : ℕ}

namespace FileInode

variable {δ : Type} (B : Backend δ)

/-! ### The bytes of a file -/

def content (f : FileInode δ) (o : ℕ) : UInt8 :=
  match f.pages.get (o / PAGE_SIZE) with
  | some p => p.data (o % PAGE_SIZE)
  | none => B.byte f.store o

def Covers (pages : SortedMap ℕ CachePage) (size : ℕ) : Prop :=
  ∀ q p, pages.get q = some p → min (size - q * PAGE_SIZE) PAGE_SIZE ≤ p.validSize

theorem content_setPage (f : FileInode δ) (q : ℕ) (p : CachePage) (o : ℕ) :
    (f.setPage q p).content B o =
      if o / PAGE_SIZE = q then p.data (o % PAGE_SIZE) else f.content B o := by
  unfold content setPage
  dsimp only
  rw [SortedMap.get_insert]
  split
  · next h => split at h <;> simp_all
  · next h => split at h <;> simp_all

variable {f : FileInode δ} {o : ℕ}

theorem content_of_cached (h : f.pages.get (o / PAGE_SIZE) = some p) :
    f.content B o = p.data (o % PAGE_SIZE) := by
  unfold content
  rw [h]

theorem content_of_none (h : f.pages.get (o / PAGE_SIZE) = none) :
    f.content B o = B.byte f.store o := by
  unfold content
  rw [h]

theorem floor_add_mod (o : ℕ) : Addr.floor o + o % PAGE_SIZE = o := by
  unfold Addr.floor
  rw [Nat.mul_comm]
  exact Nat.div_add_mod o PAGE_SIZE

theorem mod_lt_pageSize (o : ℕ) : o % PAGE_SIZE < PAGE_SIZE := Nat.mod_lt o (by decide)

theorem loadPage_data (f : FileInode δ) (ho : o / PAGE_SIZE = offset / PAGE_SIZE) :
    (f.loadPage B offset).data (o % PAGE_SIZE) = B.byte f.store o := by
  unfold loadPage
  dsimp only
  rw [CachePage.raiseValid_data, B.readPage_data _ _ _ _ (mod_lt_pageSize o)]
  have hfloor : Addr.floor offset = Addr.floor o := by unfold Addr.floor; rw [ho]
  rw [hfloor, floor_add_mod]

theorem le_loadPage_validSize (f : FileInode δ) (offset : ℕ) :
    min (f.size - offset / PAGE_SIZE * PAGE_SIZE) PAGE_SIZE ≤ (f.loadPage B offset).validSize := by
  unfold loadPage
  dsimp only
  rw [CachePage.raiseValid_validSize]
  exact le_max_right _ _

theorem content_load (h : f.pages.get (offset / PAGE_SIZE) = none) (o : ℕ) :
    (f.setPage (offset / PAGE_SIZE) (f.loadPage B offset)).content B o = f.content B o := by
  rw [content_setPage]
  split
  · next ho => rw [loadPage_data B f ho, content_of_none B (ho ▸ h)]
  · rfl

theorem Covers.insert {pages : SortedMap ℕ CachePage} {size q : ℕ} (h : Covers pages size)
    (hp : min (size - q * PAGE_SIZE) PAGE_SIZE ≤ p.validSize) : Covers (pages.insert q p) size := by
  intro q' p' hget
  rw [SortedMap.get_insert] at hget
  split at hget
  · next hq =>
    obtain rfl := Option.some.inj hget
    exact hq ▸ hp
  · exact h q' p' hget

/-! ### Reading -/

/-- Two states of a file that differ only in which pages were fetched. -/
structure SameFile (f f' : FileInode δ) : Prop where
  size : f'.size = f.size
  store : f'.store = f.store
  content : ∀ o, f'.content B o = f.content B o
  covers : Covers f'.pages f'.size

variable {B}

theorem SameFile.load {f : FileInode δ} (h : Covers f.pages f.size)
    (hnone : f.pages.get (offset / PAGE_SIZE) = none) :
    SameFile B f (f.setPage (offset / PAGE_SIZE) (f.loadPage B offset)) :=
  ⟨rfl, rfl, content_load B hnone, Covers.insert h (le_loadPage_validSize B f offset)⟩

theorem SameFile.trans {f g k : FileInode δ} (h : SameFile B f g) (h' : SameFile B g k) :
    SameFile B f k :=
  ⟨h'.size.trans h.size, h'.store.trans h.store, fun o => (h'.content o).trans (h.content o),
    h'.covers⟩

end FileInode

theorem ByteBuffer.fill_slice (b : ByteBuffer) (data : ℕ → UInt8) (pos len : ℕ) :
    (b.fill (slice data pos len)).2 =
        { b with data := b.data ++ slice data pos (min b.available len) } ∧
      (((b.fill (slice data pos len)).1.shouldStop ||
        (b.fill (slice data pos len)).2.available = 0) = true ↔ b.available ≤ len) := by
  unfold fill
  split
  · next h =>
    have hempty : slice data pos (min b.available len) = [] := by rw [h, Nat.zero_min]; rfl
    rw [hempty, List.append_nil]
    exact ⟨rfl, fun _ => h ▸ Nat.zero_le len, fun _ => rfl⟩
  · next h =>
    rw [length_slice]
    split
    · next hlt =>
      rw [take_slice]
      exact ⟨by rw [min_eq_left hlt.le], fun _ => hlt.le, fun _ => rfl⟩
    · next hge =>
      have hmin : min b.available len = len := min_eq_right (not_lt.mp hge)
      refine ⟨by rw [hmin], ?_⟩
      simp only [FillResult.shouldStop, available, List.length_append, length_slice,
        Bool.false_or, decide_eq_true_eq]
      omega

namespace FileInode

variable {δ : Type} {B : Backend δ}

theorem readLoop_spec (fuel : ℕ) : ∀ (f : FileInode δ) (b : ByteBuffer) (offset : ℕ),
    Covers f.pages f.size → 2 * (f.size - offset) ≤ fuel →
    (f.pages.get (offset / PAGE_SIZE) = none ∨ f.size ≤ offset → 2 * (f.size - offset) < fuel) →
    ∃ f', readLoop B fuel f b offset = .ok (f', { b with
        data := b.data ++ slice (f.content B) offset (min b.available (f.size - offset)) }) ∧
      SameFile B f f' := by
  induction fuel with
  | zero =>
    intro f b offset _ hfuel hfuel'
    exact absurd (hfuel' (Or.inr (by omega))) (by omega)
  | succ fuel ih =>
    intro f b offset hcov hfuel hfuel'
    unfold readLoop
    split
    · next hend =>
      have hempty : slice (f.content B) offset (min b.available (f.size - offset)) = [] := by
        rw [Nat.sub_eq_zero_of_le hend, Nat.min_zero]
        rfl
      rw [hempty, List.append_nil]
      exact ⟨f, rfl, rfl, rfl, fun _ => rfl, hcov⟩
    · next hend =>
      split
      · next page hpage =>
        have hvalid := hcov _ _ hpage
        have hlt := mod_lt_pageSize offset
        have hdiv := Nat.div_add_mod' offset PAGE_SIZE
        have hin : offset % PAGE_SIZE < page.validSize := by omega
        have hle := page.valid_le
        -- the bytes of the page are those of the file as long as they stay in the page
        have hslice : slice page.data (offset % PAGE_SIZE)
            (min (page.validSize - offset % PAGE_SIZE) (f.size - offset)) =
            slice (f.content B) offset
              (min (page.validSize - offset % PAGE_SIZE) (f.size - offset)) := by
          refine slice_congr fun k hk => ?_
          have hk' : offset % PAGE_SIZE + k < PAGE_SIZE := by omega
          have hq : (offset + k) / PAGE_SIZE = offset / PAGE_SIZE := by
            unfold PAGE_SIZE at *
            omega
          have hm : (offset + k) % PAGE_SIZE = offset % PAGE_SIZE + k := by
            unfold PAGE_SIZE at *
            omega
          rw [content_of_cached B (hq ▸ hpage), hm]
        dsimp only
        rw [assertOr_true _ hin.le, ok_bind, hslice]
        generalize hr : min (page.validSize - offset % PAGE_SIZE) (f.size - offset) = r
        obtain ⟨hbuf, hstop⟩ := b.fill_slice (f.content B) offset r
        rw [if_neg (by omega)]
        split
        · next hcond =>
          have hfull := hstop.mp hcond
          refine ⟨f, ?_, rfl, rfl, fun _ => rfl, hcov⟩
          have hmin : min b.available (f.size - offset) = min b.available r := by omega
          rw [hbuf, hmin]
          rfl
        · next hcond =>
          have hroom : r < b.available := not_le.mp fun h => hcond (hstop.mpr h)
          obtain ⟨f', hrun, hsame⟩ := ih f (b.fill (slice (f.content B) offset r)).2 (offset + r)
            hcov (by omega) (fun _ => by omega)
          refine ⟨f', ?_, hsame⟩
          have hlen : min b.available (f.size - offset) =
              r + min (b.available - r) (f.size - (offset + r)) := by omega
          have havail : (b.fill (slice (f.content B) offset r)).2.available = b.available - r := by
            rw [hbuf, min_eq_right hroom.le]
            simp only [ByteBuffer.available, List.length_append, length_slice]
            omega
          rw [hrun, havail, hbuf, hlen, ← slice_append, min_eq_right hroom.le]
          simp only [List.append_assoc]
      · next hnone =>
        have hload := SameFile.load (B := B) hcov hnone
        have hmore := hfuel' (Or.inl hnone)
        obtain ⟨f', hrun, hsame⟩ := ih _ b offset hload.covers (by rw [hload.size]; omega) (by
          rintro (h | h)
          · simp only [setPage, SortedMap.get_insert, if_pos, reduceCtorEq] at h
          · exact absurd (hload.size ▸ h) hend)
        rw [hload.size] at hrun
        have hcontent : (f.setPage (offset / PAGE_SIZE) (f.loadPage B offset)).content B =
            f.content B := funext hload.content
        rw [hcontent] at hrun
        exact ⟨f', hrun, hload.trans hsame⟩

variable {f : FileInode δ}

theorem read_spec (h : Covers f.pages f.size) (total offset : ℕ) :
    ∃ f', f.read B total offset =
        .ok (f', ⟨total, slice (f.content B) offset (min total (f.size - offset))⟩) ∧
      SameFile B f f' :=
  readLoop_spec _ f ⟨total, []⟩ offset h (by omega) fun _ => by omega

/-! ### Writing -/

theorem writeLoop_rule {I : FileInode δ → Stream → ℕ → Prop}
    (hfresh : ∀ f st off, I f st off → f.pages.get (off / PAGE_SIZE) = none →
      I (f.setPage (off / PAGE_SIZE) (f.freshPage B off)) st off)
    (hpoll : ∀ f st off p (c : {c : List UInt8 // c.length ≤ PAGE_SIZE - off % PAGE_SIZE}) st',
      I f st off → f.pages.get (off / PAGE_SIZE) = some p → 0 < c.1.length →
      st.data = c.1 ++ st'.data →
      I (f.setPage (off / PAGE_SIZE) (p.write (off % PAGE_SIZE) c.1 (chunk_fits off c.2))) st'
        (off + c.1.length))
    (fuel : ℕ) : ∀ (f : FileInode δ) (st : Stream) (off wrote : ℕ), I f st off →
    2 * st.data.length < fuel →
    (f.pages.get (off / PAGE_SIZE) = none → 2 * st.data.length + 1 < fuel) →
    ∃ f' st', writeLoop B fuel f st off wrote = .ok (wrote + st.data.length, f') ∧
      st'.data = [] ∧ I f' st' (off + st.data.length) ∧
      f'.pages.get ((off + st.data.length) / PAGE_SIZE) ≠ none := by
  induction fuel with
  | zero =>
    intro f st off wrote _ hfuel
    omega
  | succ fuel ih =>
    intro f st off wrote hI hfuel hfuel'
    unfold writeLoop
    split
    · next page hpage =>
      split
      · next hend =>
        have hdata := Stream.poll_eq_none.mp hend
        refine ⟨f, st, by rw [hdata]; rfl, hdata, by rw [hdata]; exact hI, ?_⟩
        rw [hdata, List.length_nil, Nat.add_zero, hpage]
        exact Option.some_ne_none page
      · next c st' hsome =>
        have hroom : 0 < PAGE_SIZE - off % PAGE_SIZE := by
          have := mod_lt_pageSize off
          omega
        obtain ⟨hpos, hdata⟩ := Stream.poll_eq_some hroom hsome
        have hlen : st.data.length = c.1.length + st'.data.length := by
          rw [hdata, List.length_append]
        obtain ⟨f', st'', hrun, hdrained, hI', hcached⟩ := ih _ st' (off + c.1.length)
          (wrote + c.1.length) (hpoll f st off page c st' hI hpage hpos hdata) (by omega)
          fun _ => by omega
        rw [Nat.add_assoc, ← hlen] at hrun hI' hcached
        exact ⟨f', st'', hrun, hdrained, hI', hcached⟩
    · next hnone =>
      refine ih _ st off wrote (hfresh f st off hI hnone) (by have := hfuel' hnone; omega) ?_
      intro h
      simp only [setPage, SortedMap.get_insert, if_pos, reduceCtorEq] at h

/-! ### Writing back -/

theorem foldl_syncPage_other (size : ℕ) {o : ℕ} (es : List (ℕ × CachePage))
    (hes : ∀ e ∈ es, e.1 ≠ o / PAGE_SIZE) (d : δ) :
    B.byte (es.foldl (syncPage B size) d) o = B.byte d o ∨
      size ≤ o ∧ B.byte (es.foldl (syncPage B size) d) o = 0 := by
  induction es generalizing d with
  | nil => exact Or.inl rfl
  | cons e es ih =>
    rw [List.foldl_cons]
    have hstep : B.byte (syncPage B size d e) o = B.byte d o ∨
        size ≤ o ∧ B.byte (syncPage B size d e) o = 0 := by
      unfold syncPage
      split
      · refine B.writePage_other d size _ e.2 o ?_
        have hne := hes e List.mem_cons_self
        unfold PAGE_SIZE at *
        omega
      · exact Or.inl rfl
    rcases ih (fun e' he' => hes e' (List.mem_cons_of_mem e he')) (syncPage B size d e) with h | h
    · rw [h]
      exact hstep
    · exact Or.inr h

theorem content_fsync (f : FileInode δ) (o : ℕ) :
    (f.fsync B).content B o = f.content B o ∨ f.size ≤ o ∧ (f.fsync B).content B o = 0 := by
  unfold content fsync
  dsimp only
  rw [SortedMap.get_map]
  cases hget : f.pages.get (o / PAGE_SIZE) with
  | some p => exact Or.inl rfl
  | none =>
    refine foldl_syncPage_other f.size f.pages.entries (fun e he heq => ?_) f.store
    have hmem := SortedMap.mem_entries.mp (show (e.1, e.2) ∈ f.pages.entries from he)
    rw [heq, hget] at hmem
    cases hmem

theorem Covers.fsync {size : ℕ} (h : Covers f.pages size) :
    Covers (f.fsync B).pages size := by
  intro q p hget
  unfold FileInode.fsync at hget
  dsimp only at hget
  rw [SortedMap.get_map] at hget
  obtain ⟨p0, hp0, rfl⟩ := Option.map_eq_some_iff.mp hget
  exact h q p0 hp0

theorem byte_fsync (hB : B.Faithful) {o : ℕ} (hget : f.pages.get (o / PAGE_SIZE) = some p)
    (hdirty : p.dirty = true) (hvalid : o % PAGE_SIZE < p.validSize) (ho : o < f.size) :
    B.byte (f.fsync B).store o = p.data (o % PAGE_SIZE) := by
  -- cut the list of pages at the page of the offset: later pages do not touch the byte
  obtain ⟨pre, post, hsplit⟩ := List.append_of_mem (SortedMap.mem_entries.mpr hget)
  have hsorted := f.pages.sorted
  rw [hsplit] at hsorted
  have hpost : ∀ e ∈ post, e.1 ≠ o / PAGE_SIZE := fun e he =>
    Nat.ne_of_gt ((List.pairwise_cons.mp (List.pairwise_append.mp hsorted).2.1).1 e he)
  have hself : B.byte (syncPage B f.size (pre.foldl (syncPage B f.size) f.store)
      (o / PAGE_SIZE, p)) o = p.data (o % PAGE_SIZE) := by
    unfold syncPage
    rw [if_pos hdirty]
    have h := hB (pre.foldl (syncPage B f.size) f.store) f.size (o / PAGE_SIZE * PAGE_SIZE) p
      (o % PAGE_SIZE) hvalid
    rwa [Nat.div_add_mod'] at h
  have hstore : (f.fsync B).store = post.foldl (syncPage B f.size)
      (syncPage B f.size (pre.foldl (syncPage B f.size) f.store) (o / PAGE_SIZE, p)) := by
    show f.pages.entries.foldl (syncPage B f.size) f.store = _
    rw [hsplit, List.foldl_append, List.foldl_cons]
  rw [hstore, ← hself]
  rcases foldl_syncPage_other (B := B) f.size post hpost
    (syncPage B f.size (pre.foldl (syncPage B f.size) f.store) (o / PAGE_SIZE, p)) with h | h
  · exact h
  · omega

end FileInode

end Dlutos.FileCache
