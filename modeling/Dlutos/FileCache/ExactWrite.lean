import Dlutos.FileCache.Backends
import Dlutos.FileCache.Content

/-!
# What a cached write changes

`PageCache::write` puts a zeroed page into the cache when the offset lies at or behind the end of
the file and its page is not cached; if the file ends inside that page, its last bytes are lost
(`ensure`).  From there on the loop changes the bytes of the stream and nothing else (`Progress`).
-/

namespace Dlutos.FileCache.FileInode

variable {δ : Type} (B : Backend δ)

/-! ### The loop -/

def ensure (f : FileInode δ) (offset : ℕ) : FileInode δ :=
  match f.pages.get (offset / PAGE_SIZE) with
  | some _ => f
  | none => f.setPage (offset / PAGE_SIZE) (f.freshPage B offset)

/-- The write puts in a zeroed page for the page of the offset. -/
def StartsFresh (f : FileInode δ) (offset : ℕ) : Prop :=
  f.pages.get (offset / PAGE_SIZE) = none ∧ f.size ≤ offset

theorem content_ensure_of_fresh {f : FileInode δ} {offset o : ℕ} (h : f.StartsFresh offset)
    (ho : o / PAGE_SIZE = offset / PAGE_SIZE) : (f.ensure B offset).content B o = 0 := by
  unfold ensure
  rw [h.1]
  dsimp only
  rw [content_setPage, if_pos ho, freshPage, if_pos h.2]
  rfl

theorem content_ensure_of_not {f : FileInode δ} {offset o : ℕ}
    (h : f.StartsFresh offset → o / PAGE_SIZE ≠ offset / PAGE_SIZE) :
    (f.ensure B offset).content B o = f.content B o := by
  unfold ensure
  split
  · rfl
  · next hnone =>
    by_cases hsize : f.size ≤ offset
    · rw [content_setPage, if_neg (h ⟨hnone, hsize⟩)]
    · rw [freshPage, if_neg hsize]
      exact content_load B hnone o

@[simp] theorem ensure_size (f : FileInode δ) (offset : ℕ) :
    (f.ensure B offset).size = f.size := by
  unfold ensure
  split <;> rfl

/-- How far a write that started in `f₁` at `off₁` has come when it is at `off`. -/
structure Progress (f₁ : FileInode δ) (st₁ : Stream) (off₁ : ℕ) (f : FileInode δ) (st : Stream)
    (off : ℕ) : Prop where
  size : f.size = f₁.size
  store : f.store = f₁.store
  delivered : ∃ done, st₁.data = done ++ st.data ∧ off = off₁ + done.length
  written : ∀ o, off₁ ≤ o → o < off → f.content B o = st₁.data.getD (o - off₁) 0
  dirty : ∀ o, off₁ ≤ o → o < off →
    ∃ p, f.pages.get (o / PAGE_SIZE) = some p ∧ p.dirty = true ∧ o % PAGE_SIZE < p.validSize
  other : ∀ o, o < off₁ ∨ off ≤ o →
    f.content B o = f₁.content B o ∨ (f₁.size ≤ o ∧ off ≤ o ∧ f.content B o = 0)
  boundary : f.pages.get (off / PAGE_SIZE) = none → off % PAGE_SIZE = 0

variable {B} {f₁ f : FileInode δ} {st₁ st st' : Stream} {off₁ off : ℕ}

theorem Progress.refl (hcached : f₁.pages.get (off₁ / PAGE_SIZE) ≠ none) :
    Progress B f₁ st₁ off₁ f₁ st₁ off₁ where
  size := rfl
  store := rfl
  delivered := ⟨[], rfl, rfl⟩
  written _ h1 h2 := absurd h1 (not_le.mpr h2)
  dirty _ h1 h2 := absurd h1 (not_le.mpr h2)
  other _ _ := Or.inl rfl
  boundary h := absurd h hcached

theorem Progress.fresh (h : Progress B f₁ st₁ off₁ f st off)
    (hnone : f.pages.get (off / PAGE_SIZE) = none) :
    Progress B f₁ st₁ off₁ (f.setPage (off / PAGE_SIZE) (f.freshPage B off)) st off := by
  have hzero := h.boundary hnone
  have hbelow : ∀ o < off, o / PAGE_SIZE ≠ off / PAGE_SIZE := by
    intro o ho
    unfold PAGE_SIZE at *
    omega
  obtain ⟨_, _, hoff⟩ := h.delivered
  refine ⟨h.size, h.store, h.delivered, ?_, ?_, ?_, ?_⟩
  · intro o h1 h2
    rw [content_setPage, if_neg (hbelow o h2)]
    exact h.written o h1 h2
  · intro o h1 h2
    simp only [setPage, SortedMap.get_insert, if_neg (hbelow o h2)]
    exact h.dirty o h1 h2
  · intro o ho
    by_cases hpage : o / PAGE_SIZE = off / PAGE_SIZE
    · have hge : off ≤ o := not_lt.mp fun hlt => hbelow o hlt hpage
      by_cases hsize : f.size ≤ off
      · -- a zeroed page behind the end of the file
        refine Or.inr ⟨h.size ▸ hsize.trans hge, hge, ?_⟩
        rw [content_setPage, if_pos hpage, freshPage, if_pos hsize]
        rfl
      · rw [freshPage, if_neg hsize, content_load B hnone]
        exact h.other o ho
    · rw [content_setPage, if_neg hpage]
      exact h.other o ho
  · intro hget
    simp only [setPage, SortedMap.get_insert, if_pos, reduceCtorEq] at hget

theorem Progress.poll {p : CachePage} (h : Progress B f₁ st₁ off₁ f st off)
    (hpage : f.pages.get (off / PAGE_SIZE) = some p)
    (c : {c : List UInt8 // c.length ≤ PAGE_SIZE - off % PAGE_SIZE}) (hpos : 0 < c.1.length)
    (hdata : st.data = c.1 ++ st'.data) :
    Progress B f₁ st₁ off₁
      (f.setPage (off / PAGE_SIZE) (p.write (off % PAGE_SIZE) c.1 (chunk_fits off c.2))) st'
      (off + c.1.length) := by
  have hfits := chunk_fits off c.2
  obtain ⟨done, hdone, hoff⟩ := h.delivered
  -- bytes of the page that the chunk does not reach
  have hkeep : ∀ o, o < off ∨ off + c.1.length ≤ o →
      (f.setPage (off / PAGE_SIZE)
        (p.write (off % PAGE_SIZE) c.1 (chunk_fits off c.2))).content B o = f.content B o := by
    intro o ho
    rw [content_setPage]
    split
    · next hq =>
      rw [CachePage.write_data, splice_of_not_mem, content_of_cached B (hq ▸ hpage)]
      unfold PAGE_SIZE at *
      omega
    · rfl
  have hin : ∀ o, off ≤ o → o < off + c.1.length →
      o / PAGE_SIZE = off / PAGE_SIZE ∧ o % PAGE_SIZE = off % PAGE_SIZE + (o - off) := by
    intro o h1 h2
    unfold PAGE_SIZE at *
    omega
  refine ⟨h.size, h.store, ⟨done ++ c.1, ?_, ?_⟩, ?_, ?_, ?_, ?_⟩
  · rw [hdone, hdata, List.append_assoc]
  · rw [List.length_append]
    omega
  · intro o h1 h2
    by_cases hlt : o < off
    · rw [hkeep o (Or.inl hlt)]
      exact h.written o h1 hlt
    · obtain ⟨hq, hm⟩ := hin o (not_lt.mp hlt) h2
      rw [content_setPage, if_pos hq, CachePage.write_data,
        splice_of_mem (by omega) (by omega), hdone, hdata, hm]
      simp only [List.getD_eq_getElem?_getD]
      rw [List.getElem?_append_right (by omega), List.getElem?_append_left (by omega)]
      congr 2
      omega
  · intro o h1 h2
    simp only [setPage, SortedMap.get_insert]
    by_cases hq : o / PAGE_SIZE = off / PAGE_SIZE
    · rw [if_pos hq]
      refine ⟨_, rfl, rfl, ?_⟩
      rw [CachePage.write_validSize]
      by_cases hlt : o < off
      · obtain ⟨p', hp', -, hvalid⟩ := h.dirty o h1 hlt
        rw [hq, hpage] at hp'
        obtain rfl := Option.some.inj hp'
        exact lt_max_of_lt_left hvalid
      · have := (hin o (not_lt.mp hlt) h2).2
        exact lt_max_of_lt_right (by omega)
    · rw [if_neg hq]
      exact h.dirty o h1 (not_le.mp fun hle => hq (hin o hle h2).1)
  · intro o ho
    rw [hkeep o (by omega)]
    rcases h.other o (by omega) with hsame | ⟨hsize, -, hzero⟩
    · exact Or.inl hsame
    · rcases ho with ho | ho
      · rcases h.other o (Or.inl ho) with hsame | ⟨-, hle, -⟩
        · exact Or.inl hsame
        · omega
      · exact Or.inr ⟨hsize, ho, hzero⟩
  · intro hget
    simp only [setPage, SortedMap.get_insert] at hget
    split at hget
    · cases hget
    · next hq =>
      unfold PAGE_SIZE at *
      omega

theorem writeLoop_progress (f : FileInode δ) (st : Stream) (offset : ℕ) :
    ∃ f' st', writeLoop B (2 * st.data.length + 2) f st offset 0 = .ok (st.data.length, f') ∧
      Progress B (f.ensure B offset) st offset f' st' (offset + st.data.length) := by
  -- before the first step the page of the offset may be missing
  obtain ⟨f', st', hrun, hdrained, hI, hcached⟩ := writeLoop_rule (B := B)
    (I := fun g s off => (g = f ∧ s = st ∧ off = offset ∧ f.pages.get (offset / PAGE_SIZE) = none) ∨
      Progress B (f.ensure B offset) st offset g s off)
    (by
      rintro g s off (⟨rfl, rfl, rfl, hnone⟩ | hprog) hget
      · have hens : g.ensure B off = g.setPage (off / PAGE_SIZE) (g.freshPage B off) := by
          unfold ensure
          rw [hnone]
        refine Or.inr ?_
        rw [hens]
        refine Progress.refl ?_
        simp only [setPage, SortedMap.get_insert, if_pos, ne_eq, reduceCtorEq, not_false_eq_true]
      · exact Or.inr (hprog.fresh hget))
    (by
      rintro g s off p c s' (⟨rfl, rfl, rfl, hnone⟩ | hprog) hget hpos hdata
      · rw [hnone] at hget
        cases hget
      · exact Or.inr (hprog.poll hget c hpos hdata))
    (2 * st.data.length + 2) f st offset 0
    (by
      cases hget : f.pages.get (offset / PAGE_SIZE) with
      | none => exact Or.inl ⟨rfl, rfl, rfl, rfl⟩
      | some p =>
        have hens : f.ensure B offset = f := by
          unfold ensure
          rw [hget]
        refine Or.inr ?_
        rw [hens]
        refine Progress.refl ?_
        rw [hget]
        exact Option.some_ne_none p)
    (by omega) (fun _ => by omega)
  rw [Nat.zero_add] at hrun
  rcases hI with ⟨rfl, -, hoff, hnone⟩ | hprog
  · rw [hoff] at hcached
    exact absurd hnone hcached
  · exact ⟨f', st', hrun, hprog⟩

/-! ### The write -/

theorem write_effect (f : FileInode δ) (st : Stream) (offset : ℕ) :
    ∃ f', f.write B st offset = .ok (st.data.length, f') ∧
      f'.size = max f.size (offset + st.data.length) ∧
      (∀ o, offset ≤ o → o < offset + st.data.length →
        f'.content B o = st.data.getD (o - offset) 0) ∧
      (∀ o, o < offset ∨ offset + st.data.length ≤ o →
        f'.content B o = (f.ensure B offset).content B o ∨
          (f'.size ≤ o ∧ f'.content B o = 0) ∨
          (f.size ≤ o ∧ offset + st.data.length ≤ o ∧ f'.content B o = 0)) := by
  obtain ⟨g, st', hrun, hprog⟩ := writeLoop_progress (B := B) f st offset
  have hsize : g.size = f.size := hprog.size.trans (ensure_size B f offset)
  have hother := hprog.other
  rw [ensure_size] at hother
  unfold write
  rw [hrun, ExceptLoop.ok_bind]
  dsimp only
  rw [hsize]
  by_cases hsync : B.syncs = true
  · rw [if_pos hsync]
    refine ⟨_, rfl, rfl, fun o h1 h2 => ?_, fun o ho => ?_⟩
    · rcases content_fsync (B := B)
        { g with size := max f.size (offset + st.data.length) } o with h | h
      · exact h.trans (hprog.written o h1 h2)
      · have := h.1
        dsimp only at this
        omega
    · rcases content_fsync (B := B)
        { g with size := max f.size (offset + st.data.length) } o with h | h
      · rw [h]
        exact (hother o ho).imp id fun h => Or.inr h
      · exact Or.inr (Or.inl h)
  · rw [if_neg hsync]
    exact ⟨_, rfl, rfl, hprog.written, fun o ho => (hother o ho).imp id fun h => Or.inr h⟩

def exactByte (B : Backend δ) (f : FileInode δ) (st : Stream) (offset o : ℕ) : UInt8 :=
  if offset ≤ o ∧ o < offset + st.data.length then st.data.getD (o - offset) 0
  else if o < f.size then f.content B o
  else 0

def WrittenExactly (B : Backend δ) (f : FileInode δ) (st : Stream) (offset : ℕ)
    (f' : FileInode δ) : Prop :=
  f'.size = max f.size (offset + st.data.length) ∧
    ∀ o < f'.size, f'.content B o = f.exactByte B st offset o

/-- The pages that the write zeroes hold only zeros of the file, and so does the gap before the
offset. -/
def WriteSafe (B : Backend δ) (f : FileInode δ) (offset : ℕ) : Prop :=
  (f.StartsFresh offset →
    ∀ o, o / PAGE_SIZE = offset / PAGE_SIZE → o < f.size → f.content B o = 0) ∧
  ∀ o, f.size ≤ o → o < offset →
    (f.StartsFresh offset → o / PAGE_SIZE ≠ offset / PAGE_SIZE) → f.content B o = 0

theorem writtenExactly_iff {f f' : FileInode δ} {st : Stream} {offset : ℕ}
    (hsize : f'.size = max f.size (offset + st.data.length))
    (hwritten : ∀ o, offset ≤ o → o < offset + st.data.length →
      f'.content B o = st.data.getD (o - offset) 0)
    (hother : ∀ o < f'.size, o < offset ∨ offset + st.data.length ≤ o →
      f'.content B o = (f.ensure B offset).content B o) :
    WrittenExactly B f st offset f' ↔ WriteSafe B f offset := by
  constructor
  · rintro ⟨-, hexact⟩
    refine ⟨fun hfresh o hpage ho => ?_, fun o h1 h2 hkept => ?_⟩
    · have hlt : o < offset := ho.trans_le hfresh.2
      have h := hexact o (by omega)
      rw [hother o (by omega) (Or.inl hlt), content_ensure_of_fresh B hfresh hpage, exactByte,
        if_neg (by omega), if_pos ho] at h
      exact h.symm
    · have h := hexact o (by omega)
      rwa [hother o (by omega) (Or.inl h2), content_ensure_of_not B hkept, exactByte,
        if_neg (by omega), if_neg (by omega)] at h
  · rintro ⟨hlost, hgap⟩
    refine ⟨hsize, fun o ho => ?_⟩
    unfold exactByte
    split
    · next hin => exact hwritten o hin.1 hin.2
    · next hout =>
      rw [hother o ho (by omega)]
      by_cases hpage : f.StartsFresh offset ∧ o / PAGE_SIZE = offset / PAGE_SIZE
      · rw [content_ensure_of_fresh B hpage.1 hpage.2]
        split
        · next hlt => exact (hlost hpage.1 o hpage.2 hlt).symm
        · rfl
      · have hkept : f.StartsFresh offset → o / PAGE_SIZE ≠ offset / PAGE_SIZE :=
          fun hfresh hq => hpage ⟨hfresh, hq⟩
        rw [content_ensure_of_not B hkept]
        split
        · rfl
        · exact hgap o (by omega) (by omega) hkept

theorem fsync_store_of_clean {f : FileInode δ}
    (h : ∀ q p, f.pages.get q = some p → p.dirty = false) : (f.fsync B).store = f.store := by
  have hfold : ∀ es : List (ℕ × CachePage), (∀ e ∈ es, e.2.dirty = false) →
      es.foldl (syncPage B f.size) f.store = f.store := by
    intro es hes
    induction es with
    | nil => rfl
    | cons e es ih =>
      rw [List.foldl_cons, syncPage, if_neg (by rw [hes e List.mem_cons_self]; exact nofun)]
      exact ih fun e' he' => hes e' (List.mem_cons_of_mem e he')
  exact hfold _ fun e he => h e.1 e.2 (SortedMap.mem_entries.mp he)

theorem byte_write_fsync (hB : B.Faithful) {f f' : FileInode δ} {st : Stream} {offset wrote : ℕ}
    (h : f.write B st offset = .ok (wrote, f')) {k : ℕ} (hk : k < st.data.length) :
    B.byte (f'.fsync B).store (offset + k) = st.data.getD k 0 := by
  obtain ⟨g, st', hrun, hprog⟩ := writeLoop_progress (B := B) f st offset
  unfold write at h
  rw [hrun, ExceptLoop.ok_bind] at h
  dsimp only at h
  have hk' : offset + k < offset + st.data.length := by omega
  obtain ⟨p, hp, hdirty, hvalid⟩ := hprog.dirty (offset + k) (Nat.le_add_right _ _) hk'
  have hbyte : B.byte (({ g with size := max g.size (offset + st.data.length) } :
      FileInode δ).fsync B).store (offset + k) = st.data.getD k 0 := by
    rw [byte_fsync (f := { g with size := max g.size (offset + st.data.length) }) hB hp hdirty
      hvalid (lt_max_of_lt_right hk'), ← content_of_cached B hp,
      hprog.written (offset + k) (Nat.le_add_right _ _) hk', Nat.add_sub_cancel_left]
  by_cases hsync : B.syncs = true
  · -- the cache has just been written back, so writing it back again does nothing
    rw [if_pos hsync] at h
    obtain ⟨-, rfl⟩ := Prod.mk.inj (Except.ok.inj h)
    rw [fsync_store_of_clean fun q p hget => ?_]
    · exact hbyte
    · simp only [fsync, SortedMap.get_map] at hget
      obtain ⟨p0, -, rfl⟩ := Option.map_eq_some_iff.mp hget
      rfl
  · rw [if_neg hsync] at h
    obtain ⟨-, rfl⟩ := Prod.mk.inj (Except.ok.inj h)
    exact hbyte

def oneByteFile : FileInode (ℕ → UInt8) := ⟨1, fun o => if o = 0 then 97 else 0, SortedMap.empty⟩

end Dlutos.FileCache.FileInode
