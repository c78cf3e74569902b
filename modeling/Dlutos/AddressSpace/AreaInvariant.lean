import Dlutos.AddressSpace.AreaSet

/-!
# What the operations do to the set of areas

The areas are sorted by position (`AreasInv`): each lies before the next one, so the comparison of
ranges orders them strictly, and nothing is lost on insertion.
-/

namespace Dlutos

open Addr AddrRange ExceptLoop

def AddrRange.Contains (r : AddrRange) (addr : ℕ) : Prop := r.start ≤ addr ∧ addr < r.stop

instance (r : AddrRange) (addr : ℕ) : Decidable (r.Contains addr) :=
  inferInstanceAs (Decidable (_ ∧ _))

/-- The first area lies before the second one. -/
def MMArea.Before (a b : MMArea) : Prop := AddrRange.Before a.range b.range

theorem separates_area : OrderedSet.Separates (fun a b : MMArea => a.range.cmp b.range)
    MMArea.Before :=
  ⟨fun h => separates_cmp.lt h, fun h => separates_cmp.gt h, fun h h' => AddrRange.Before.trans h h'⟩

structure AreasInv (s : Areas) : Prop where
  sorted : s.elems.Pairwise MMArea.Before
  ok : ∀ a ∈ s.elems, AreaOk a
  kept : s.lost = false

theorem AreasInv.empty : AreasInv {} :=
  ⟨List.Pairwise.nil, fun _ ha => absurd ha List.not_mem_nil, rfl⟩

variable {s : Areas}

theorem Areas.insert_sorted (hs : s.elems.Pairwise MMArea.Before) {a : MMArea}
    (ha : ∀ b ∈ s.elems, b.Before a ∨ a.Before b) :
    (s.insert a).elems.Pairwise MMArea.Before ∧ (s.insert a).lost = s.lost ∧
      ∀ x, x ∈ (s.insert a).elems ↔ x = a ∨ x ∈ s.elems := by
  obtain ⟨elems, hins, hsorted, hmem⟩ := OrderedSet.insert_spec separates_area a hs ha
  unfold Areas.insert
  rw [hins]
  exact ⟨hsorted, Bool.or_false _, hmem⟩

theorem Areas.insertSome_sorted (hs : s.elems.Pairwise MMArea.Before) {o : Option MMArea}
    (ho : ∀ a ∈ o, ∀ b ∈ s.elems, b.Before a ∨ a.Before b) :
    (s.insertSome o).elems.Pairwise MMArea.Before ∧ (s.insertSome o).lost = s.lost ∧
      ∀ x, x ∈ (s.insertSome o).elems ↔ x ∈ o ∨ x ∈ s.elems := by
  cases o with
  | none => exact ⟨hs, rfl, fun x => (or_iff_right fun hx => by cases hx).symm⟩
  | some a =>
    obtain ⟨hsorted, hlost, hmem⟩ := Areas.insert_sorted hs (ho a rfl)
    refine ⟨hsorted, hlost, fun x => (hmem x).trans (or_congr_left ?_)⟩
    rw [Option.mem_some_iff]
    exact eq_comm

variable {addr : ℕ}

theorem AreasInv.unique (h : AreasInv s) {a b : MMArea} (ha : a ∈ s.elems) (hb : b ∈ s.elems)
    (hAddr : a.range.Contains addr) (hAddr' : b.range.Contains addr) : a = b := by
  rcases OrderedSet.eq_or_related h.sorted ha hb with heq | hlt | hlt
  · exact heq
  all_goals
    unfold AddrRange.Contains at *
    unfold MMArea.Before AddrRange.Before at hlt
    omega

theorem Areas.apart_of_overlappingRange {r : AddrRange} (h : s.overlappingRange r = []) {a : MMArea}
    (ha : a ∈ s.elems) : AddrRange.Before a.range r ∨ AddrRange.Before r a.range :=
  before_or_before_of_bounds (OrderedSet.range_eq_nil h ha)

theorem Areas.overlappingRange_eq_nil {r : AddrRange}
    (h : ∀ a ∈ s.elems, AddrRange.Before a.range r ∨ AddrRange.Before r a.range) :
    s.overlappingRange r = [] := by
  refine List.filter_eq_nil_iff.mpr fun a ha => ?_
  have hapart := h a ha
  unfold AddrRange.Before at hapart
  unfold intoBounds AddrRange.len
  simp only [Bool.and_eq_true, bne_iff_ne, ne_eq]
  split <;> rw [cmp_point_eq_gt, cmp_point_eq_lt] <;> omega

theorem Areas.mem_overlappingRange {a : MMArea} (ha : a ∈ s.elems) {r : AddrRange}
    (hr : a.range.start < r.stop ∧ r.start < a.range.stop) : a ∈ s.overlappingRange r := by
  have hlen := r.le
  refine List.mem_filter.mpr ⟨ha, ?_⟩
  unfold intoBounds AddrRange.len
  simp only [Bool.and_eq_true, bne_iff_ne, ne_eq]
  split <;> dsimp only <;> rw [cmp_point_eq_gt, cmp_point_eq_lt] <;> omega

/-! ### What an area shows an address -/

/-- The byte of a file at a position of the mapping; behind the length of the mapping there is
none. -/
def Mapping.byte : Mapping → ℕ → Option (ℕ × ℕ)
  | .anonymous, _ => none
  | .file m, pos => if pos < m.length then some (m.file, m.offset + pos) else none

def MMArea.info (a : MMArea) (addr : ℕ) : Permission × Bool × Option (ℕ × ℕ) :=
  (a.permission, a.isShared, a.mapping.byte (addr - a.range.start))

theorem Mapping.byte_skip {m m' : Mapping} {diff : ℕ} (h : m.skip diff = .ok m') (pos : ℕ) :
    m'.byte pos = m.byte (diff + pos) := by
  cases m with
  | anonymous =>
    cases h
    rfl
  | file m =>
    obtain ⟨n, hn, hret⟩ := bind_eq_ok.mp h
    cases hret
    unfold FileMapping.skip FileMapping.new at hn
    dsimp only [Mapping.byte]
    split at hn
    · rename_i hle
      split at hn
      · cases hn
        rw [if_neg (Nat.not_lt_zero pos), if_neg (by omega)]
      · cases hn
    · rename_i hgt
      split at hn
      · cases hn
        by_cases hpos : diff + pos < m.length
        · rw [if_pos (show pos < m.length - diff by omega), if_pos hpos, Nat.add_assoc]
        · rw [if_neg (show ¬ pos < m.length - diff by omega), if_neg hpos]
      · cases hn

/-! ### Cutting an area at a mask -/

/-- The area `x` shows its addresses what `a` shows them, and is a part of `a`. -/
structure AreaSlice (x a : MMArea) : Prop where
  permission : x.permission = a.permission
  info : ∀ addr, x.range.Contains addr → x.info addr = a.info addr
  part : AreaOk a → IsPart x a

theorem AreaSlice.refl (a : MMArea) : AreaSlice a a := ⟨rfl, fun _ _ => rfl, IsPart.refl⟩

theorem AreaSlice.trans {x n a : MMArea} (hx : AreaSlice x n) (hn : AreaSlice n a)
    (hin : n.range.start ≤ x.range.start ∧ x.range.stop ≤ n.range.stop)
    (hne : x.range.start < x.range.stop) : AreaSlice x a := by
  refine ⟨hx.permission.trans hn.permission, fun addr haddr => ?_, fun ha => ?_⟩
  · have hn' : n.range.Contains addr := ⟨hin.1.trans haddr.1, haddr.2.trans_le hin.2⟩
    exact (hx.info addr haddr).trans (hn.info addr hn')
  · exact (hx.part (hn.part ha).ok).trans (hn.part ha) hne

theorem MMArea.ensures_split {E : MMPanic → Prop} {a : MMArea} {cut : ℕ}
    (hlo : a.range.start < cut) (hhi : cut < a.range.stop)
    (hE : ∀ e, ¬ (AreaOk a ∧ IsPageAligned cut) → E e) :
    Ensures E (fun res => ∃ l r, res = (some l, some r) ∧ AreaSlice l a ∧ AreaSlice r a ∧
      l.range.start = a.range.start ∧ l.range.stop = cut ∧ r.range.start = cut ∧
      r.range.stop = a.range.stop) (a.split cut) := by
  refine ensures_of_forall (fun e herr => hE e ?_) fun res h => ?_
  · rintro ⟨ha, hcut⟩
    obtain ⟨l, r, hsplit, -⟩ := ha.split hcut hlo hhi
    cases hsplit.symm.trans herr
  have hrun := h
  have hcmp : a.range.cmp (point cut) = .eq := by
    rw [cmp_point_right, cmp_point_eq_eq.mpr (Or.inr ⟨hlo, hhi⟩)]
    rfl
  unfold MMArea.split at h
  obtain ⟨_, hassert, h⟩ := bind_eq_ok.mp h
  rw [hcmp] at h
  simp only [if_neg (show ¬ cut - a.range.start = 0 by omega), new_eq hhi.le, ok_bind] at h
  obtain ⟨mapping, hmapping, h⟩ := bind_eq_ok.mp h
  obtain ⟨range, hrange, h⟩ := bind_eq_ok.mp h
  unfold AddrRange.shrink AddrRange.len at hrange
  rw [if_pos (by omega), new_eq (by omega)] at hrange
  cases hrange
  cases h
  refine ⟨_, _, rfl, ⟨rfl, fun addr _ => rfl, fun ha => ?_⟩, ⟨rfl, fun addr hr => ?_, fun ha => ?_⟩,
    rfl, by dsimp only; omega, rfl, rfl⟩
  · obtain ⟨l, r, hsplit, hl, -⟩ := ha.split (of_assertOr hassert) hlo hhi
    cases hsplit.symm.trans hrun
    exact hl
  · unfold AddrRange.Contains at hr
    unfold MMArea.info
    rw [Mapping.byte_skip hmapping]
    dsimp only at hr ⊢
    congr 3
    omega
  · obtain ⟨l, r, hsplit, -, hr⟩ := ha.split (of_assertOr hassert) hlo hhi
    cases hsplit.symm.trans hrun
    exact hr

/-- A mask cuts the area `a`; `m` is the part inside of it. -/
structure Cut (mask : AddrRange) (a : MMArea) (left : Option MMArea) (m : MMArea)
    (right : Option MMArea) : Prop where
  left : (left = none ∧ mask.start ≤ a.range.start) ∨
    ∃ l, left = some l ∧ AreaSlice l a ∧ a.range.start < mask.start ∧
      l.range.start = a.range.start ∧ l.range.stop = mask.start
  right : (right = none ∧ a.range.stop ≤ mask.stop) ∨
    ∃ r, right = some r ∧ AreaSlice r a ∧ mask.stop < a.range.stop ∧
      r.range.start = mask.stop ∧ r.range.stop = a.range.stop
  mid : AreaSlice m a
  mid_start : m.range.start = max a.range.start mask.start
  mid_stop : m.range.stop = min a.range.stop mask.stop
  mask_lt : mask.start < mask.stop
  overlap : a.range.start < mask.stop ∧ mask.start < a.range.stop

section Cut

variable {mask : AddrRange} {a l m r x : MMArea} {left right : Option MMArea}

section

variable (h : Cut mask a left m right)
include h

theorem Cut.left_some (hl : l ∈ left) :
    AreaSlice l a ∧ a.range.start < mask.start ∧ l.range.start = a.range.start ∧
      l.range.stop = mask.start := by
  obtain ⟨rfl, -⟩ | ⟨l', rfl, hspec⟩ := h.left
  · cases hl
  · cases hl
    exact hspec

theorem Cut.right_some (hr : r ∈ right) :
    AreaSlice r a ∧ mask.stop < a.range.stop ∧ r.range.start = mask.stop ∧
      r.range.stop = a.range.stop := by
  obtain ⟨rfl, -⟩ | ⟨r', rfl, hspec⟩ := h.right
  · cases hr
  · cases hr
    exact hspec

theorem Cut.mid_contains (addr : ℕ) :
    m.range.Contains addr ↔ mask.Contains addr ∧ a.range.Contains addr := by
  unfold AddrRange.Contains
  rw [h.mid_start, h.mid_stop]
  omega

theorem Cut.outside_contains (ha : a.range.Contains addr) (hmask : ¬ mask.Contains addr) :
    ∃ x, (x ∈ left ∨ x ∈ right) ∧ x.range.Contains addr := by
  unfold AddrRange.Contains at *
  by_cases hlow : addr < mask.start
  · obtain ⟨-, hle⟩ | ⟨l, hl, -, -, hstart, hstop⟩ := h.left
    · omega
    · exact ⟨l, Or.inl hl, by omega, by omega⟩
  · obtain ⟨-, hle⟩ | ⟨r, hr, -, -, hstart, hstop⟩ := h.right
    · omega
    · exact ⟨r, Or.inr hr, by omega, by omega⟩

theorem Cut.missed (hx : x ∈ left ∨ x ∈ right) :
    Missed x.range mask := by
  rcases hx with hx | hx
  · exact Or.inr (Or.inr (h.left_some hx).2.2.2.le)
  · exact Or.inr (Or.inl (h.right_some hx).2.2.1.ge)

theorem Cut.slice (hx : x ∈ left ∨ x ∈ right ∨ x = m) :
    AreaSlice x a := by
  rcases hx with hx | hx | rfl
  · exact (h.left_some hx).1
  · exact (h.right_some hx).1
  · exact h.mid

theorem Cut.within (hx : x ∈ left ∨ x ∈ right ∨ x = m) :
    Within x.range a.range := by
  have hle := a.range.le
  have hmask := h.mask_lt
  have hover := h.overlap
  unfold Within
  rcases hx with hx | hx | rfl
  · have := h.left_some hx
    omega
  · have := h.right_some hx
    omega
  · rw [h.mid_start, h.mid_stop]
    omega

theorem Cut.nonempty (ha : a.range.start < a.range.stop)
    (hx : x ∈ left ∨ x ∈ right ∨ x = m) : x.range.start < x.range.stop := by
  obtain hne | hstart := (h.within hx).2.2
  · exact hne
  have hmask := h.mask_lt
  have hover := h.overlap
  rcases hx with hx | hx | rfl
  · have := h.left_some hx
    omega
  · have := h.right_some hx
    omega
  · rw [h.mid_stop]
    omega

theorem Cut.aligned (ha : IsPageAligned a.range.start ∧ IsPageAligned a.range.stop)
    (hmask : IsPageAligned mask.start ∧ IsPageAligned mask.stop)
    (hx : x ∈ left ∨ x ∈ right ∨ x = m) :
    IsPageAligned x.range.start ∧ IsPageAligned x.range.stop := by
  rcases hx with hx | hx | rfl
  · obtain ⟨-, -, hstart, hstop⟩ := h.left_some hx
    rw [hstart, hstop]
    exact ⟨ha.1, hmask.1⟩
  · obtain ⟨-, -, hstart, hstop⟩ := h.right_some hx
    rw [hstart, hstop]
    exact ⟨hmask.2, ha.2⟩
  · rw [h.mid_start, h.mid_stop]
    exact ⟨max_rec' IsPageAligned ha.1 hmask.1, min_rec' IsPageAligned ha.2 hmask.2⟩

theorem Cut.left_before_mid (hl : l ∈ left) : l.Before m := by
  have hl := h.left_some hl
  have := h.mid_start
  unfold MMArea.Before AddrRange.Before
  omega

theorem Cut.mid_before_right (hr : r ∈ right) : m.Before r := by
  have hr := h.right_some hr
  have := h.mid_start
  have := h.mid_stop
  have := h.mask_lt
  have := h.overlap
  unfold MMArea.Before AddrRange.Before
  omega

theorem Cut.left_before_right (hl : l ∈ left) (hr : r ∈ right) :
    l.Before r :=
  AddrRange.Before.trans (h.left_before_mid hl) (h.mid_before_right hr)

theorem Cut.mid_eq {mid : AddrRange} {l' r' : Option AddrRange}
    (hmasked : Masked a.range mask l' mid r') : m.range = mid :=
  AddrRange.ext (h.mid_start.trans hmasked.mid_start.symm) (h.mid_stop.trans hmasked.mid_stop.symm)

end

variable {mid l' r' : AddrRange} {E : MMPanic → Prop}

theorem cut_none (h : Masked a.range mask none mid none) : Cut mask a none a none :=
  ⟨Or.inl ⟨rfl, h.left_le⟩, Or.inl ⟨rfl, h.right_le⟩, AreaSlice.refl a,
    (max_eq_left h.left_le).symm, (min_eq_left h.right_le).symm, h.mask_lt, h.overlap⟩

/-- The area can be cut at the bounds of the mask. -/
def Cuttable (mask : AddrRange) (a : MMArea) : Prop :=
  AreaOk a ∧ IsPageAligned mask.start ∧ IsPageAligned mask.stop

variable (hE : ∀ e, ¬ Cuttable mask a → E e)
include hE

theorem cut_left (h : Masked a.range mask (some l') mid none) :
    Ensures E (fun res => ∃ l m, res = (some l, some m) ∧ Cut mask a (some l) m none)
      (a.split l'.stop) := by
  obtain ⟨hlt, hstop⟩ := h.left_lt
  have hle := h.right_le
  rw [hstop]
  refine (MMArea.ensures_split hlt h.overlap.2 fun e hn => hE e fun hok => ?_).mono ?_
  · exact hn ⟨hok.1, hok.2.1⟩
  rintro _ ⟨l, m, rfl, hl, hm, hl1, hl2, hm1, hm2⟩
  exact ⟨l, m, rfl, Or.inr ⟨l, rfl, hl, hlt, hl1, hl2⟩, Or.inl ⟨rfl, hle⟩, hm, by omega, by omega,
    h.mask_lt, h.overlap⟩

theorem cut_right (h : Masked a.range mask none mid (some r')) :
    Ensures E (fun res => ∃ m r, res = (some m, some r) ∧ Cut mask a none m (some r))
      (a.split r'.start) := by
  obtain ⟨hlt, hstart⟩ := h.right_lt
  have hle := h.left_le
  rw [hstart]
  refine (MMArea.ensures_split h.overlap.1 hlt fun e hn => hE e fun hok => ?_).mono ?_
  · exact hn ⟨hok.1, hok.2.2⟩
  rintro _ ⟨m, r, rfl, hm, hr, hm1, hm2, hr1, hr2⟩
  exact ⟨m, r, rfl, Or.inl ⟨rfl, hle⟩, Or.inr ⟨r, rfl, hr, hlt, hr1, hr2⟩, hm, by omega, by omega,
    h.mask_lt, h.overlap⟩

theorem cut_both (h : Masked a.range mask (some l') mid (some r')) :
    Ensures E (fun res => ∃ l n, res = (some l, some n) ∧
      Ensures E (fun res' => ∃ m r, res' = (some m, some r) ∧ Cut mask a (some l) m (some r))
        (n.split r'.start)) (a.split l'.stop) := by
  obtain ⟨hlt, hstop⟩ := h.left_lt
  obtain ⟨hgt, hstart⟩ := h.right_lt
  have hmask := h.mask_lt
  rw [hstop, hstart]
  refine (MMArea.ensures_split hlt h.overlap.2 fun e hn => hE e fun hok => ?_).mono ?_
  · exact hn ⟨hok.1, hok.2.1⟩
  rintro _ ⟨l, n, rfl, hl, hn, hl1, hl2, hn1, hn2⟩
  refine ⟨l, n, rfl, (MMArea.ensures_split (by omega) (by omega) fun e hnot =>
    hE e fun hok => ?_).mono ?_⟩
  · exact hnot ⟨(hn.part hok.1).ok, hok.2.2⟩
  rintro _ ⟨m, r, rfl, hm, hr, hm1, hm2, hr1, hr2⟩
  exact ⟨m, r, rfl, Or.inr ⟨l, rfl, hl, hlt, hl1, hl2⟩,
    Or.inr ⟨r, rfl, hr.trans hn ⟨by omega, by omega⟩ (by omega), hgt, hr1, hr2.trans hn2⟩,
    hm.trans hn ⟨by omega, by omega⟩ (by omega), by omega, by omega, hmask, h.overlap⟩

end Cut

/-! ### Cutting all areas at a mask -/

/-- The areas `old`, cut at the mask, are `new`; `keep` changes the middle parts, whose ranges are
`mids`. -/
structure Trimmed (mask : AddrRange) (keep : MMArea → Option MMArea) (old new : List MMArea)
    (mids : List AddrRange) : Prop where
  part : ∀ x ∈ new, ∃ a ∈ old, (x = a ∧ Missed a.range mask) ∨
    ∃ left m right, Cut mask a left m right ∧ (x ∈ left ∨ x ∈ right ∨ x ∈ keep m)
  cover : ∀ a ∈ old, (a ∈ new ∧ Missed a.range mask) ∨
    ∃ left m right, Cut mask a left m right ∧ m.range ∈ mids ∧
      ∀ x, x ∈ left ∨ x ∈ right ∨ x ∈ keep m → x ∈ new
  mids : ∀ r ∈ mids, ∃ a ∈ old, ∃ left m right, Cut mask a left m right ∧ r = m.range

theorem IsPart.contains {x a : MMArea} (h : IsPart x a) (haddr : x.range.Contains addr) :
    a.range.Contains addr := ⟨h.within.1.trans haddr.1, haddr.2.trans_le h.within.2.1⟩

theorem AddrRange.Missed.not_contains {r mask : AddrRange} (h : Missed r mask)
    (hr : r.Contains addr) : ¬ mask.Contains addr := by
  unfold Missed at h
  unfold AddrRange.Contains at *
  omega

section Trimmed

variable {mask : AddrRange} {keep : MMArea → Option MMArea} {old new new' : List MMArea}
  {mids : List AddrRange} {a m : MMArea} {left right : Option MMArea}

theorem Trimmed.nil : Trimmed mask keep [] [] [] :=
  ⟨fun _ h => absurd h List.not_mem_nil, fun _ h => absurd h List.not_mem_nil,
    fun _ h => absurd h List.not_mem_nil⟩

section

variable (h : Trimmed mask keep old new mids)
include h

theorem Trimmed.kept (hmiss : Missed a.range mask)
    (hnew : ∀ x, x ∈ new' ↔ x = a ∨ x ∈ new) : Trimmed mask keep (old ++ [a]) new' mids := by
  refine ⟨fun x hx => ?_, fun d hd => ?_, fun r hr => ?_⟩
  · rcases (hnew x).mp hx with rfl | hx
    · exact ⟨x, List.mem_append_right _ List.mem_cons_self, Or.inl ⟨rfl, hmiss⟩⟩
    · exact (h.part x hx).imp fun _ hd => hd.imp_left (List.mem_append_left _)
  · rcases List.mem_append.mp hd with hd | hd
    · obtain ⟨hmem, hmiss⟩ | ⟨left, m, right, hcut, hm, hparts⟩ := h.cover d hd
      · exact Or.inl ⟨(hnew d).mpr (Or.inr hmem), hmiss⟩
      · exact Or.inr ⟨left, m, right, hcut, hm, fun x hx => (hnew x).mpr (Or.inr (hparts x hx))⟩
    · rw [List.mem_singleton.mp hd]
      exact Or.inl ⟨(hnew a).mpr (Or.inl rfl), hmiss⟩
  · exact (h.mids r hr).imp fun _ hd => hd.imp_left (List.mem_append_left _)

theorem Trimmed.cut (hcut : Cut mask a left m right)
    (hnew : ∀ x, x ∈ new' ↔ x ∈ new ∨ x ∈ left ∨ x ∈ right ∨ x ∈ keep m) :
    Trimmed mask keep (old ++ [a]) new' (mids ++ [m.range]) := by
  have ha : a ∈ old ++ [a] := List.mem_append_right _ List.mem_cons_self
  refine ⟨fun x hx => ?_, fun d hd => ?_, fun r hr => ?_⟩
  · rcases (hnew x).mp hx with hx | hx
    · exact (h.part x hx).imp fun _ hd => hd.imp_left (List.mem_append_left _)
    · exact ⟨a, ha, Or.inr ⟨left, m, right, hcut, hx⟩⟩
  · rcases List.mem_append.mp hd with hd | hd
    · obtain ⟨hmem, hmiss⟩ | ⟨left, m', right, hcut, hm, hparts⟩ := h.cover d hd
      · exact Or.inl ⟨(hnew d).mpr (Or.inl hmem), hmiss⟩
      · exact Or.inr ⟨left, m', right, hcut, List.mem_append_left _ hm,
          fun x hx => (hnew x).mpr (Or.inl (hparts x hx))⟩
    · rw [List.mem_singleton.mp hd]
      exact Or.inr ⟨left, m, right, hcut, List.mem_append_right _ List.mem_cons_self,
        fun x hx => (hnew x).mpr (Or.inr hx)⟩
  · rcases List.mem_append.mp hr with hr | hr
    · exact (h.mids r hr).imp fun _ hd => hd.imp_left (List.mem_append_left _)
    · exact ⟨a, ha, left, m, right, hcut, List.mem_singleton.mp hr⟩

theorem Trimmed.congr (hnew : ∀ x, x ∈ new' ↔ x ∈ new) :
    Trimmed mask keep old new' mids :=
  ⟨by simpa only [hnew] using h.part, by simpa only [hnew] using h.cover, h.mids⟩

theorem Trimmed.contains_mids (addr : ℕ) :
    (∃ r ∈ mids, r.Contains addr) ↔ mask.Contains addr ∧ ∃ a ∈ old, a.range.Contains addr := by
  constructor
  · rintro ⟨r, hr, haddr⟩
    obtain ⟨a, ha, left, m, right, hcut, rfl⟩ := h.mids r hr
    obtain ⟨hmask, hcontains⟩ := (hcut.mid_contains addr).mp haddr
    exact ⟨hmask, a, ha, hcontains⟩
  · rintro ⟨hmask, a, ha, haddr⟩
    obtain ⟨-, hmiss⟩ | ⟨left, m, right, hcut, hm, -⟩ := h.cover a ha
    · exact absurd hmask (hmiss.not_contains haddr)
    · exact ⟨m.range, hm, (hcut.mid_contains addr).mpr ⟨hmask, haddr⟩⟩

theorem Trimmed.range (hkeep : ∀ {m x}, x ∈ keep m → x.range = m.range) {P : AddrRange → Prop}
    (hold : ∀ a ∈ old, P a.range)
    (hcut : ∀ {a left m right x}, a ∈ old → Cut mask a left m right →
      (x ∈ left ∨ x ∈ right ∨ x = m) → P x.range) : ∀ x ∈ new, P x.range := by
  intro x hx
  obtain ⟨a, ha, ⟨rfl, -⟩ | ⟨left, m, right, hm, hx | hx | hx⟩⟩ := h.part x hx
  · exact hold x ha
  · exact hcut ha hm (Or.inl hx)
  · exact hcut ha hm (Or.inr (Or.inl hx))
  · rw [hkeep hx]
    exact hcut ha hm (Or.inr (Or.inr rfl))

theorem Trimmed.outside (ha : a ∈ old) (haddr : a.range.Contains addr)
    (hmask : ¬ mask.Contains addr) :
    ∃ x ∈ new, x.range.Contains addr ∧ x.info addr = a.info addr := by
  obtain ⟨hmem, -⟩ | ⟨left, m, right, hcut, -, hparts⟩ := h.cover a ha
  · exact ⟨a, hmem, haddr, rfl⟩
  · obtain ⟨x, hx, hxaddr⟩ := hcut.outside_contains haddr hmask
    have hslice : AreaSlice x a := hcut.slice (hx.imp_right Or.inl)
    exact ⟨x, hparts x (hx.imp_right Or.inl), hxaddr, hslice.info addr hxaddr⟩

theorem Trimmed.aligned (hold : ∀ a ∈ old, IsPageAligned a.range.start ∧ IsPageAligned a.range.stop)
    (hmask : IsPageAligned mask.start ∧ IsPageAligned mask.stop) {r : AddrRange} (hr : r ∈ mids) :
    IsPageAligned r.start ∧ IsPageAligned r.stop := by
  obtain ⟨a, ha, left, m, right, hcut, rfl⟩ := h.mids r hr
  exact hcut.aligned (hold a ha) hmask (Or.inr (Or.inr rfl))

end

end Trimmed

end Dlutos
