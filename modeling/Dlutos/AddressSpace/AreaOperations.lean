import Dlutos.AddressSpace.AreaInvariant

/-!
# The operations keep the areas sorted

For each operation on the areas of an address space: under the preconditions that its callers
establish it returns, without any assertion or unreachable arm firing, and the areas satisfy
`AreasInv` again.  `Trims` says in addition which areas `unmap` and `protect` leave and which
page-table entries they visit.
-/

namespace Dlutos

open Addr AddrRange ExceptLoop MMListLocked

/-! ### `unmap` -/

def MMListLocked.Unmap.parts (u : Unmap) : List MMArea := u.kept ++ u.left.toList ++ u.right.toList

theorem mem_parts {u : Unmap} {x : MMArea} :
    x ∈ u.parts ↔ x ∈ u.kept ∨ x ∈ u.left ∨ x ∈ u.right := by
  unfold Unmap.parts
  rw [List.mem_append, List.mem_append, Option.mem_toList, Option.mem_toList, or_assoc]
  rfl

/-- What `unmap`, and `protect` with a permission, make of the areas `old`: the areas `new`, and the
ranges `mids` of page-table entries. -/
structure Trims (mask : AddrRange) (perm : Option Permission) (old new : List MMArea)
    (mids : List AddrRange) : Prop where
  /-- Every area was cut from an old one, with the new permission inside of the mask only. -/
  part : ∀ x ∈ new, ∃ a ∈ old, IsPart x a ∧
    ((x.permission = a.permission ∧ Missed x.range mask) ∨
      (some x.permission = perm ∧ mask.start ≤ x.range.start ∧ x.range.stop ≤ mask.stop))
  cover : ∀ a ∈ old, ∀ addr, a.range.Contains addr → (mask.Contains addr → perm ≠ none) →
    ∃ x ∈ new, x.range.Contains addr
  visited : ∀ addr, (∃ m ∈ mids, m.Contains addr) ↔
    mask.Contains addr ∧ ∃ a ∈ old, a.range.Contains addr
  aligned : ∀ m ∈ mids, IsPageAligned m.start ∧ IsPageAligned m.stop

variable {mids : List AddrRange}

theorem Trimmed.trims {mask : AddrRange} (perm : Option Permission) {old new : List MMArea}
    (h : Trimmed mask (fun m => perm.map fun p => { m with permission := p }) old new mids)
    (hold : ∀ a ∈ old, AreaOk a) (hmask : IsPageAligned mask.start ∧ IsPageAligned mask.stop) :
    Trims mask perm old new mids where
  part x hx := by
    obtain ⟨a, ha, ⟨rfl, hmiss⟩ | ⟨left, m, right, hcut, hx⟩⟩ := h.part x hx
    · exact ⟨x, ha, IsPart.refl (hold x ha), Or.inl ⟨rfl, hmiss⟩⟩
    obtain hx | hx := or_assoc.mpr hx
    · have hslice := hcut.slice (hx.imp_right Or.inl)
      exact ⟨a, ha, hslice.part (hold a ha), Or.inl ⟨hslice.permission, hcut.missed hx⟩⟩
    · obtain ⟨p, hp, rfl⟩ := Option.map_eq_some_iff.mp hx
      refine ⟨a, ha, (hcut.mid.part (hold a ha)).withPermission p, Or.inr ⟨hp.symm, ?_, ?_⟩⟩
      · exact hcut.mid_start.ge.trans' (le_max_right _ _)
      · exact hcut.mid_stop.le.trans (min_le_right _ _)
  cover a ha addr haddr hperm := by
    by_cases hin : mask.Contains addr
    · obtain ⟨p, rfl⟩ := Option.ne_none_iff_exists'.mp (hperm hin)
      obtain ⟨-, hmiss⟩ | ⟨left, m, right, hcut, -, hparts⟩ := h.cover a ha
      · exact absurd hin (hmiss.not_contains haddr)
      · exact ⟨_, hparts _ (Or.inr (Or.inr rfl)), (hcut.mid_contains addr).mpr ⟨hin, haddr⟩⟩
    · obtain ⟨x, hx, hxaddr, -⟩ := h.outside ha haddr hin
      exact ⟨x, hx, hxaddr⟩
  visited := h.contains_mids
  aligned m hm :=
    h.aligned (fun a ha => ⟨(hold a ha).start_aligned, (hold a ha).stop_aligned⟩) hmask hm

/-- The parts that `unmap` keeps of an area are free. -/
def MMListLocked.Unmap.Free (u : Unmap) (mask : AddrRange) (a : MMArea) : Prop :=
  (a.range.start < mask.start → u.left = none) ∧ (a.range.start < mask.stop → u.right = none)

theorem ensures_unmapArea {mask : AddrRange} {u : Unmap} {a : MMArea} :
    Ensures (fun _ => ¬ (Cuttable mask a ∧ u.Free mask a)) (fun u' =>
      (Missed a.range mask ∧ u' = { u with kept := u.kept ++ [a] }) ∨
      ∃ left m right, Cut mask a left m right ∧ u'.kept = u.kept ∧
        u'.taken = u.taken ++ [m.range] ∧ (∀ x, x ∈ u'.left ↔ x ∈ u.left ∨ x ∈ left) ∧
        ∀ x, x ∈ u'.right ↔ x ∈ u.right ∨ x ∈ right) (unmapArea mask u a) := by
  unfold unmapArea
  obtain ⟨hmask, hmiss⟩ | ⟨left, mid, right, hmask, hmasked⟩ := maskWithChecked_spec a.range mask
  · rw [hmask]
    exact ensures_pure (Or.inl ⟨hmiss, rfl⟩)
  rw [hmask, ok_bind]
  have hE : ∀ _ : MMPanic, ¬ Cuttable mask a → ¬ (Cuttable mask a ∧ u.Free mask a) :=
    fun _ hn h => hn h.1
  have hright : ∀ e : MMPanic, Ensures (fun _ => ¬ (Cuttable mask a ∧ u.Free mask a))
      (fun _ => u.right = none) (assertOr (u.right = none) e) :=
    fun e => ensures_assertOr fun hn h => hn (h.2.2 hmasked.overlap.1)
  cases left with
  | none =>
    cases right with
    | none =>
      have hcut := cut_none hmasked
      exact ensures_pure
        (Or.inr ⟨none, a, none, hcut, rfl, by rw [hcut.mid_eq hmasked], by simp, by simp⟩)
    | some r =>
      refine (hright _).bind fun _ hnone => (cut_right hE hmasked).bind ?_
      rintro _ ⟨m, x, rfl, hcut⟩
      exact ensures_pure
        (Or.inr ⟨none, m, some x, hcut, rfl, by rw [hcut.mid_eq hmasked], by simp, by simp [hnone]⟩)
  | some l =>
    have hleft : ∀ e : MMPanic, Ensures (fun _ => ¬ (Cuttable mask a ∧ u.Free mask a))
        (fun _ => u.left = none) (assertOr (u.left = none) e) :=
      fun e => ensures_assertOr fun hn h => hn (h.2.1 hmasked.left_lt.1)
    cases right with
    | none =>
      refine (hleft _).bind fun _ hnone => (cut_left hE hmasked).bind ?_
      rintro _ ⟨x, m, rfl, hcut⟩
      exact ensures_pure
        (Or.inr ⟨some x, m, none, hcut, rfl, by rw [hcut.mid_eq hmasked], by simp [hnone], by simp⟩)
    | some r =>
      refine (hleft _).bind fun _ hnone => (hright _).bind fun _ hnone' => ?_
      refine (cut_both hE hmasked).bind ?_
      rintro _ ⟨x, n, rfl, hinner⟩
      refine hinner.bind ?_
      rintro _ ⟨m, y, rfl, hcut⟩
      exact ensures_pure (Or.inr ⟨some x, m, some y, hcut, rfl, by rw [hcut.mid_eq hmasked],
        by simp [hnone], by simp [hnone']⟩)

/-- The invariant of the loop of `unmap` after the areas `done`. -/
structure UnmapInv (mask : AddrRange) (done : List MMArea) (u : Unmap) : Prop where
  sublist : u.kept.Sublist done
  missed : ∀ x ∈ u.kept, Missed x.range mask
  left : ∀ l ∈ u.left, ∃ a ∈ done, ∃ m right, Cut mask a (some l) m right
  right : ∀ r ∈ u.right, ∃ a ∈ done, ∃ left m, Cut mask a left m (some r)
  trimmed : Trimmed mask (fun _ => none) done u.parts u.taken

section UnmapStep

variable {mask : AddrRange} {done areas : List MMArea} {u u' : Unmap} {a : MMArea}

theorem UnmapInv.init (mask : AddrRange) : UnmapInv mask [] {} where
  sublist := List.Sublist.refl []
  missed x hx := absurd hx List.not_mem_nil
  left l hl := by cases hl
  right r hr := by cases hr
  trimmed := Trimmed.nil

theorem UnmapInv.step (h : UnmapInv mask done u) (hstep : unmapArea mask u a = .ok u') :
    UnmapInv mask (done ++ [a]) u' := by
  obtain ⟨hmiss, rfl⟩ | ⟨left, m, right, hcut, hkept, htaken, hl, hr⟩ :=
    ensures_unmapArea.of_ok hstep
  · refine ⟨h.sublist.append (List.Sublist.refl [a]), fun x hx => ?_, fun l hl => ?_,
      fun r hr => ?_, h.trimmed.kept hmiss fun x => ?_⟩
    · rcases List.mem_append.mp hx with hx | hx
      · exact h.missed x hx
      · rwa [List.mem_singleton.mp hx]
    · exact (h.left l hl).imp fun _ hd => hd.imp_left (List.mem_append_left _)
    · exact (h.right r hr).imp fun _ hd => hd.imp_left (List.mem_append_left _)
    · simp only [mem_parts, List.mem_append, List.mem_singleton]
      tauto
  · have ha : a ∈ done ++ [a] := List.mem_append_right done List.mem_cons_self
    refine ⟨?_, ?_, fun x hx => ?_, fun x hx => ?_, ?_⟩
    · rw [hkept]
      exact h.sublist.trans (List.sublist_append_left done [a])
    · rw [hkept]
      exact h.missed
    · rcases (hl x).mp hx with hx | hx
      · exact (h.left x hx).imp fun _ hd => hd.imp_left (List.mem_append_left _)
      · obtain rfl := Option.mem_def.mp hx
        exact ⟨a, ha, m, right, hcut⟩
    · rcases (hr x).mp hx with hx | hx
      · exact (h.right x hx).imp fun _ hd => hd.imp_left (List.mem_append_left _)
      · obtain rfl := Option.mem_def.mp hx
        exact ⟨a, ha, left, m, hcut⟩
    · rw [htaken]
      refine h.trimmed.cut hcut fun x => ?_
      simp only [mem_parts, hkept, hl, hr, Option.not_mem_none, or_false]
      tauto

theorem unmapLoop_inv (h : areas.foldlM (unmapArea mask) {} = .ok u) : UnmapInv mask areas u :=
  foldlM_invariant (I := UnmapInv mask) areas (fun _ _ _ _ _ _ hI hstep => hI.step hstep)
    (UnmapInv.init mask) h

theorem UnmapInv.free (h : UnmapInv mask done u) (hdone : ∀ d ∈ done, d.Before a) :
    u.Free mask a := by
  -- only one area reaches over each end of the mask
  constructor
  · refine fun hlt => Option.eq_none_iff_forall_not_mem.mpr fun l hl => ?_
    obtain ⟨d, hd, m, right, hcut⟩ := h.left l hl
    have hover := hcut.overlap
    have hbefore := hdone d hd
    unfold MMArea.Before AddrRange.Before at hbefore
    omega
  · refine fun hlt => Option.eq_none_iff_forall_not_mem.mpr fun r hr => ?_
    obtain ⟨d, hd, left, m, hcut⟩ := h.right r hr
    have hgt := hcut.right_some (r := r) rfl
    have hbefore := hdone d hd
    unfold MMArea.Before AddrRange.Before at hbefore
    omega

def MMListLocked.Unmap.result (u : Unmap) (lost : Bool) : Areas :=
  ((⟨u.kept, lost⟩ : Areas).insertSome u.left).insertSome u.right

theorem UnmapInv.result (h : UnmapInv mask areas u) (hs : areas.Pairwise MMArea.Before)
    (lost : Bool) :
    (u.result lost).elems.Pairwise MMArea.Before ∧ (u.result lost).lost = lost ∧
      Trimmed mask (fun _ => none) areas (u.result lost).elems u.taken := by
  -- a retained area is not the one that a part was cut from: the mask misses it
  have hapart : ∀ {a left m right p}, a ∈ areas → Cut mask a left m right →
      (p ∈ left ∨ p ∈ right ∨ p = m) → ∀ b ∈ u.kept, b.Before p ∨ p.Before b := by
    intro a left m right p ha hcut hp b hb
    obtain rfl | hba | hab := OrderedSet.eq_or_related hs (h.sublist.subset hb) ha
    · have hmiss := h.missed b hb
      have hlt := hcut.mask_lt
      have hover := hcut.overlap
      unfold Missed at hmiss
      omega
    · exact Or.inl (AddrRange.Before.within_right hba (hcut.within hp))
    · exact Or.inr (AddrRange.Before.within_left hab (hcut.within hp))
  obtain ⟨hsortedl, hlostl, hmeml⟩ := Areas.insertSome_sorted (s := ⟨u.kept, lost⟩)
    (hs.sublist h.sublist) (o := u.left) fun l hl => by
      obtain ⟨a, ha, m, right, hcut⟩ := h.left l hl
      exact hapart ha hcut (Or.inl rfl)
  obtain ⟨hsorted, hlost, hmem⟩ := Areas.insertSome_sorted hsortedl fun r hr b hb => by
    obtain ⟨a, ha, left, m, hcut⟩ := h.right r hr
    rcases (hmeml b).mp hb with hb | hb
    · -- the left part ends where the mask starts, the right one starts where the mask ends
      obtain ⟨a', -, m', right', hcut'⟩ := h.left b hb
      obtain ⟨-, hlt, hstart, hstop⟩ := hcut'.left_some (l := b) rfl
      obtain ⟨-, -, hstart', -⟩ := hcut.right_some (r := r) rfl
      have := hcut.mask_lt
      left
      unfold MMArea.Before Before
      omega
    · exact hapart ha hcut (Or.inr (Or.inl rfl)) b hb
  refine ⟨hsorted, hlost.trans hlostl, h.trimmed.congr fun x => ?_⟩
  change x ∈ Areas.elems (Areas.insertSome _ u.right) ↔ _
  rw [hmem, hmeml, mem_parts]
  tauto

end UnmapStep

def maskOf (start len : ℕ) : AddrRange :=
  ⟨start, ceil (start + len), (Nat.le_add_right start len).trans (le_ceil _)⟩

theorem new_maskOf (start len : ℕ) :
    AddrRange.new start (ceil (start + len)) = .ok (maskOf start len) :=
  new_eq _

theorem AreasInv.unmap {s : MMListLocked} (h : AreasInv s.areas) {start : ℕ} (len : ℕ)
    (hstart : IsPageAligned start) :
    s.unmap start len = .ok (.error .EINVAL, s) ∨
      ∃ areas taken, s.unmap start len = .ok (.ok taken, { s with areas := areas }) ∧
        AreasInv areas ∧ Trims (maskOf start len) none s.areas.elems areas.elems taken := by
  unfold MMListLocked.unmap
  rw [assertOr_true _ (floor_eq_self.mpr hstart), new_maskOf]
  simp only [ok_bind]
  by_cases huser : (maskOf start len).isUser = true
  · right
    rw [huser]
    have hmask : IsPageAligned start ∧ IsPageAligned (ceil (start + len)) :=
      ⟨hstart, isPageAligned_ceil _⟩
    obtain ⟨u, hloop, hu⟩ := foldlM_ok (f := unmapArea (maskOf start len))
      (I := UnmapInv (maskOf start len)) s.areas.elems (by
        intro done a rest u hl hI
        have hsorted := h.sorted
        rw [hl] at hsorted
        have hfree := hI.free (a := a)
          fun d hd => (List.pairwise_append.mp hsorted).2.2 d hd a List.mem_cons_self
        obtain ⟨e, -, hnot⟩ | ⟨u', hstep, -⟩ := ensures_unmapArea.cases
        · exact absurd ⟨⟨h.ok a (by rw [hl]; simp), hmask⟩, hfree⟩ hnot
        · exact ⟨u', hstep, hI.step hstep⟩)
      (UnmapInv.init _)
    obtain ⟨hsorted, hlost, htrimmed⟩ := hu.result h.sorted s.areas.lost
    have htrims := htrimmed.trims none h.ok hmask
    refine ⟨u.result s.areas.lost, u.taken, ?_, ⟨hsorted, fun x hx => ?_, hlost.trans h.kept⟩,
      htrims⟩
    · simp only [Bool.not_true, Bool.false_eq_true, if_false, hloop, ok_bind]
      rfl
    · obtain ⟨a, -, hpart, -⟩ := htrims.part x hx
      exact hpart.ok
  · left
    rw [Bool.not_eq_true] at huser
    rw [huser]
    rfl

/-! ### `protect` -/

theorem ensures_protectArea {mask : AddrRange} {permission : Permission} {p : Protect}
    {a : MMArea} :
    Ensures (fun _ => ¬ Cuttable mask a) (fun p' =>
      (Missed a.range mask ∧ p' = { p with areas := p.areas.insert a }) ∨
      ∃ left m right, Cut mask a left m right ∧
        p' = ⟨((p.areas.insertSome left).insertSome right).insert
          { m with permission := permission }, true, p.mids ++ [m.range]⟩)
      (protectArea mask permission p a) := by
  unfold protectArea
  obtain ⟨hmask, hmiss⟩ | ⟨left, mid, right, hmask, hmasked⟩ := maskWithChecked_spec a.range mask
  · rw [hmask]
    exact ensures_pure (Or.inl ⟨hmiss, rfl⟩)
  rw [hmask, ok_bind]
  have hE : ∀ _ : MMPanic, ¬ Cuttable mask a → ¬ Cuttable mask a := fun _ hn => hn
  cases left with
  | none =>
    cases right with
    | none =>
      have hcut := cut_none hmasked
      exact ensures_pure (Or.inr ⟨none, a, none, hcut, by rw [hcut.mid_eq hmasked]; rfl⟩)
    | some r =>
      refine (cut_right hE hmasked).bind ?_
      rintro _ ⟨m, x, rfl, hcut⟩
      exact ensures_pure (Or.inr ⟨none, m, some x, hcut, by rw [hcut.mid_eq hmasked]; rfl⟩)
  | some l =>
    cases right with
    | none =>
      refine (cut_left hE hmasked).bind ?_
      rintro _ ⟨x, m, rfl, hcut⟩
      exact ensures_pure (Or.inr ⟨some x, m, none, hcut, by rw [hcut.mid_eq hmasked]; rfl⟩)
    | some r =>
      refine (cut_both hE hmasked).bind ?_
      rintro _ ⟨x, n, rfl, hinner⟩
      refine hinner.bind ?_
      rintro _ ⟨m, y, rfl, hcut⟩
      exact ensures_pure (Or.inr ⟨some x, m, some y, hcut, by rw [hcut.mid_eq hmasked]; rfl⟩)

/-- The invariant of the loop of `protect` after the areas `done`. -/
structure ProtectInv (mask : AddrRange) (permission : Permission) (lost : Bool)
    (done : List MMArea) (p : Protect) : Prop where
  sorted : p.areas.elems.Pairwise MMArea.Before
  lost : p.areas.lost = lost
  trimmed : Trimmed mask (fun m => some { m with permission := permission }) done p.areas.elems
    p.mids
  found : p.found = true ↔ ∃ a ∈ done, ¬ Missed a.range mask

section ProtectStep

variable {mask : AddrRange} {permission : Permission} {lost : Bool} {done areas : List MMArea}
  {p p' : Protect} {a : MMArea}

section

variable (h : ProtectInv mask permission lost done p) (hdone : ∀ d ∈ done, d.Before a)
include h hdone

theorem ProtectInv.before : ∀ x ∈ p.areas.elems, x.Before a := by
  refine h.trimmed.range (P := fun r => r.Before a.range) (fun hx => ?_) hdone ?_
  · cases hx
    rfl
  · exact fun hd hcut hx => AddrRange.Before.within_left (hdone _ hd) (hcut.within hx)

theorem ProtectInv.step (hstep : protectArea mask permission p a = .ok p') :
    ProtectInv mask permission lost (done ++ [a]) p' := by
  have hbefore := h.before hdone
  obtain ⟨hmiss, rfl⟩ | ⟨left, m, right, hcut, rfl⟩ := ensures_protectArea.of_ok hstep
  · obtain ⟨hsorted, hlost, hmem⟩ :=
      Areas.insert_sorted h.sorted fun b hb => Or.inl (hbefore b hb)
    refine ⟨hsorted, hlost.trans h.lost, h.trimmed.kept hmiss hmem, ?_⟩
    simp only [h.found, List.mem_append, List.mem_singleton, or_and_right, exists_or,
      exists_eq_left, not_true, hmiss, or_false]
  -- the areas inserted so far lie before the parts of `a`
  have hnew : ∀ {x y}, x ∈ p.areas.elems → (y ∈ left ∨ y ∈ right ∨ y = m) → x.Before y :=
    fun hx hy => AddrRange.Before.within_right (hbefore _ hx) (hcut.within hy)
  obtain ⟨hsortedl, hlostl, hmeml⟩ := Areas.insertSome_sorted h.sorted (o := left)
    fun l hl b hb => Or.inl (hnew hb (Or.inl hl))
  obtain ⟨hsortedr, hlostr, hmemr⟩ := Areas.insertSome_sorted hsortedl (o := right)
    fun r hr b hb => by
      rcases (hmeml b).mp hb with hb | hb
      · exact Or.inl (hcut.left_before_right hb hr)
      · exact Or.inl (hnew hb (Or.inr (Or.inl hr)))
  obtain ⟨hsorted, hlost, hmem⟩ := Areas.insert_sorted hsortedr
    (a := { m with permission := permission }) fun b hb => by
      rcases (hmemr b).mp hb with hb | hb
      · exact Or.inr (hcut.mid_before_right hb)
      · rcases (hmeml b).mp hb with hb | hb
        · exact Or.inl (hcut.left_before_mid hb)
        · exact Or.inl (show b.Before m from hnew hb (Or.inr (Or.inr rfl)))
  refine ⟨hsorted, hlost.trans (hlostr.trans (hlostl.trans h.lost)), h.trimmed.cut hcut fun x => ?_,
    iff_of_true rfl ⟨a, List.mem_append_right _ List.mem_cons_self, ?_⟩⟩
  · simp only [hmem, hmemr, hmeml, Option.mem_some_iff]
    tauto
  · have hlt := hcut.mask_lt
    have hover := hcut.overlap
    unfold Missed
    omega

end

theorem protectLoop_inv (hs : areas.Pairwise MMArea.Before)
    (h : areas.foldlM (protectArea mask permission) ⟨⟨[], lost⟩, false, []⟩ = .ok p) :
    ProtectInv mask permission lost areas p := by
  refine foldlM_invariant (I := ProtectInv mask permission lost) areas ?_
    ⟨List.Pairwise.nil, rfl, Trimmed.nil, by simp⟩ h
  intro done a rest p p' hl hI hstep
  rw [hl] at hs
  exact hI.step (fun d hd => (List.pairwise_append.mp hs).2.2 d hd a List.mem_cons_self) hstep

theorem protectLoop_returns (hok : ∀ a ∈ areas, AreaOk a)
    (hmask : IsPageAligned mask.start ∧ IsPageAligned mask.stop) (p : Protect) :
    ∃ p', areas.foldlM (protectArea mask permission) p = .ok p' := by
  obtain ⟨p', hloop, -⟩ := foldlM_ok (f := protectArea mask permission) (I := fun _ _ => True)
    areas (by
      intro done a rest p hl _
      obtain ⟨e, -, hnot⟩ | ⟨p', hrun, -⟩ := ensures_protectArea.cases
      · exact absurd ⟨hok a (by rw [hl]; simp), hmask⟩ hnot
      · exact ⟨p', hrun, trivial⟩)
    (b := p) trivial
  exact ⟨p', hloop⟩

end ProtectStep

variable {len : ℕ}

theorem AreasInv.protect {s : MMListLocked} (h : AreasInv s.areas) {start : ℕ}
    (permission : Permission) (hstart : IsPageAligned start) (hlen : len ≠ 0) :
    s.protect start len permission = .ok (.error .EINVAL, [], s) ∨
      ∃ result areas mids,
        s.protect start len permission = .ok (result, mids, { s with areas := areas }) ∧
        AreasInv areas ∧
        Trims (maskOf start len) (some permission) s.areas.elems areas.elems mids := by
  unfold MMListLocked.protect
  rw [assertOr_true _ (floor_eq_self.mpr hstart), assertOr_true _ hlen, new_maskOf]
  simp only [ok_bind]
  by_cases huser : (maskOf start len).isUser = true
  · right
    rw [huser]
    have hmask : IsPageAligned start ∧ IsPageAligned (ceil (start + len)) :=
      ⟨hstart, isPageAligned_ceil _⟩
    obtain ⟨p, hloop⟩ : ∃ p, s.areas.elems.foldlM (protectArea (maskOf start len) permission)
        ⟨⟨[], s.areas.lost⟩, false, []⟩ = .ok p := protectLoop_returns h.ok hmask _
    have hp := protectLoop_inv h.sorted hloop
    have htrims := hp.trimmed.trims (some permission) h.ok hmask
    refine ⟨if p.found then .ok () else .error .ENOMEM, p.areas, p.mids, ?_,
      ⟨hp.sorted, fun x hx => ?_, hp.lost.trans h.kept⟩, htrims⟩
    swap
    · obtain ⟨a, -, hpart, -⟩ := htrims.part x hx
      exact hpart.ok
    simp only [Bool.not_true, Bool.false_eq_true, if_false, hloop, ok_bind]
    rfl
  · left
    rw [Bool.not_eq_true] at huser
    rw [huser]
    rfl

/-! ### `mmap` -/

variable {addr : ℕ}

theorem AreasInv.mmap {s : MMListLocked} (h : AreasInv s.areas) {mapping : Mapping}
    (permission : Permission) (isShared : Bool) (haddr : IsPageAligned addr)
    (hlen : IsPageAligned len) (hmapping : mapping.Covers len) :
    s.mmap addr len mapping permission isShared = .ok (.error .EEXIST, s) ∨
      ∃ a areas, s.mmap addr len mapping permission isShared =
          .ok (.ok (), { s with areas := areas }) ∧ AreasInv areas ∧
        a = ⟨⟨addr, addr + len, Nat.le_add_right addr len⟩, mapping, permission, isShared⟩ ∧
        (∀ x, x ∈ areas.elems ↔ x = a ∨ x ∈ s.areas.elems) ∧
        ∀ b ∈ s.areas.elems, b.Before a ∨ a.Before b := by
  unfold MMListLocked.mmap
  rw [assertOr_true _ (floor_eq_self.mpr haddr), assertOr_true _ hlen,
    new_eq (Nat.le_add_right addr len)]
  simp only [ok_bind]
  split
  · exact Or.inl rfl
  · rename_i hcheck
    right
    simp only [not_or, not_not, Areas.checkOverlappingRange, Bool.and_eq_true, isUser_iff,
      List.isEmpty_iff] at hcheck
    obtain ⟨-, ⟨hstop, hstart⟩, hempty⟩ := hcheck
    have hok : AreaOk ⟨⟨addr, addr + len, Nat.le_add_right addr len⟩, mapping, permission,
        isShared⟩ := by
      refine ⟨haddr, haddr.add hlen, hstart, hstop, ?_⟩
      unfold AddrRange.len
      dsimp only
      rwa [Nat.add_sub_cancel_left]
    obtain ⟨hsorted, hlost, hmem⟩ := Areas.insert_sorted h.sorted
      (a := ⟨⟨addr, addr + len, Nat.le_add_right addr len⟩, mapping, permission, isShared⟩)
      fun b hb => Areas.apart_of_overlappingRange hempty hb
    refine ⟨_, _, rfl, ⟨hsorted, fun x hx => ?_, hlost.trans h.kept⟩, rfl, hmem,
      fun b hb => Areas.apart_of_overlappingRange hempty hb⟩
    rcases (hmem x).mp hx with rfl | hx
    · exact hok
    · exact h.ok x hx

theorem isPageAligned_of_findLoop {areas : Areas} :
    ∀ {fuel : ℕ} {range : AddrRange}, IsPageAligned range.start →
      findLoop areas len fuel range = some (some addr) → IsPageAligned addr := by
  intro fuel
  induction fuel with
  | zero =>
    intro range _ hfind
    cases hfind
  | succ fuel ih =>
    intro range hrange hfind
    rw [findLoop] at hfind
    split at hfind
    · cases hfind
    · split at hfind
      · cases hfind
        exact hrange
      · exact ih (isPageAligned_ceil _) hfind

theorem check_of_findLoop {areas : Areas} {fuel : ℕ} {range : AddrRange}
    (hrange : range.stop = range.start + len)
    (hfind : findLoop areas len fuel range = some (some addr)) :
    areas.checkOverlappingRange ⟨addr, addr + len, Nat.le_add_right _ _⟩ = true := by
  induction fuel generalizing range with
  | zero => cases hfind
  | succ fuel ih =>
    rw [findLoop] at hfind
    split at hfind
    · cases hfind
    · next huser =>
      split at hfind
      · next hnone =>
        cases hfind
        have hself : (⟨range.start, range.start + len, Nat.le_add_right _ _⟩ : AddrRange) =
            range := by
          ext
          · rfl
          · exact hrange.symm
        rw [hself, Areas.checkOverlappingRange, List.getLast?_eq_none_iff.mp hnone]
        simpa using huser
      · exact ih rfl hfind

theorem isPageAligned_of_findAvailable {s : MMListLocked} {fuel hint : ℕ}
    (h : s.findAvailable fuel hint len = some (some addr)) : IsPageAligned addr := by
  refine isPageAligned_of_findLoop ?_ h
  unfold AddrRange.grow point
  dsimp only
  split
  · decide
  · exact isPageAligned_floor hint

/-! ### The invariant of the locked part of an address space -/

/-- The areas are sorted, and a registered break is at a page boundary. -/
structure LockedInv (s : MMListLocked) : Prop where
  areas : AreasInv s.areas
  breakPos : ∀ p ∈ s.breakPos, IsPageAligned p

theorem LockedInv.empty : LockedInv {} := by
  refine ⟨AreasInv.empty, ?_⟩
  intro p hp
  cases hp

section LockedInv

variable {s : MMListLocked}

variable {len : ℕ} {mapping : Mapping}

theorem LockedInv.mmap (h : LockedInv s) {addr : ℕ} (permission : Permission) (isShared : Bool)
    (haddr : IsPageAligned addr) (hlen : IsPageAligned len) (hmapping : mapping.Covers len) :
    ∃ r, s.mmap addr len mapping permission isShared = .ok r ∧ LockedInv r.2 := by
  obtain hrun | ⟨a, areas, hrun, hareas, -⟩ :=
    h.areas.mmap permission isShared haddr hlen hmapping
  · exact ⟨_, hrun, h⟩
  · exact ⟨_, hrun, hareas, h.breakPos⟩

/-- `mmap_hint` returns an error and changes nothing, or maps the range at the address it returns.
-/
def HintResult (s : MMListLocked) (len : ℕ) (mapping : Mapping) (permission : Permission)
    (isShared : Bool) (y : KResult ℕ × MMListLocked) : Prop :=
  (∃ err, y = (.error err, s)) ∨ ∃ addr, IsPageAligned addr ∧ y.1 = .ok addr ∧
    s.mmap addr len mapping permission isShared = .ok (.ok (), y.2)

theorem mmapAvailable_spec (h : AreasInv s.areas) (fuel hint : ℕ) (permission : Permission)
    (isShared : Bool) (hlen : IsPageAligned len) (hmapping : mapping.Covers len) :
    ∃ r, s.mmapAvailable fuel hint len mapping permission isShared = .ok r ∧
      ∀ y ∈ r, HintResult s len mapping permission isShared y := by
  unfold MMListLocked.mmapAvailable
  cases hfind : s.findAvailable fuel hint len with
  | none => exact ⟨none, rfl, fun y hy => nomatch hy⟩
  | some found =>
    cases found with
    | none =>
      refine ⟨_, rfl, fun y hy => ?_⟩
      cases hy
      exact Or.inl ⟨_, rfl⟩
    | some addr =>
      have haddr := isPageAligned_of_findAvailable hfind
      dsimp only
      obtain hrun | ⟨a, areas, hrun, -⟩ := h.mmap permission isShared haddr hlen hmapping
      · rw [hrun]
        refine ⟨_, rfl, fun y hy => ?_⟩
        cases hy
        exact Or.inl ⟨_, rfl⟩
      · rw [hrun]
        refine ⟨_, rfl, fun y hy => ?_⟩
        cases hy
        exact Or.inr ⟨addr, haddr, rfl, hrun⟩

theorem mmapHint_spec (h : AreasInv s.areas) (fuel : ℕ) {hint : ℕ}
    (permission : Permission) (isShared : Bool) (hhint : IsPageAligned hint)
    (hlen : IsPageAligned len) (hmapping : mapping.Covers len) :
    ∃ r, s.mmapHint fuel hint len mapping permission isShared = .ok r ∧
      ∀ y ∈ r, HintResult s len mapping permission isShared y := by
  unfold MMListLocked.mmapHint
  by_cases hzero : hint = 0
  · rw [if_pos hzero]
    exact mmapAvailable_spec h fuel hint permission isShared hlen hmapping
  · rw [if_neg hzero]
    obtain hrun | ⟨a, areas, hrun, -⟩ := h.mmap permission isShared hhint hlen hmapping
    · rw [hrun]
      exact mmapAvailable_spec h fuel hint permission isShared hlen hmapping
    · rw [hrun]
      refine ⟨_, rfl, fun y hy => ?_⟩
      cases hy
      exact Or.inr ⟨hint, hhint, rfl, hrun⟩

theorem LockedInv.mmapHint (h : LockedInv s) (fuel : ℕ) {hint : ℕ}
    (permission : Permission) (isShared : Bool) (hhint : IsPageAligned hint)
    (hlen : IsPageAligned len) (hmapping : mapping.Covers len) :
    ∃ r, s.mmapHint fuel hint len mapping permission isShared = .ok r ∧ ∀ x ∈ r, LockedInv x.2 := by
  obtain ⟨r, hrun, hr⟩ := mmapHint_spec h.areas fuel permission isShared hhint hlen hmapping
  refine ⟨r, hrun, fun y hy => ?_⟩
  obtain ⟨err, rfl⟩ | ⟨addr, haddr, -, hmmap⟩ := hr y hy
  · exact h
  · obtain ⟨z, hz, hinv⟩ := h.mmap permission isShared haddr hlen hmapping
    cases hz.symm.trans hmmap
    exact hinv

variable {start : ℕ}

theorem LockedInv.unmap (h : LockedInv s) (len : ℕ) (hstart : IsPageAligned start) :
    ∃ r, s.unmap start len = .ok r ∧ LockedInv r.2 := by
  obtain hrun | ⟨areas, taken, hrun, hareas, -⟩ := h.areas.unmap len hstart
  · exact ⟨_, hrun, h⟩
  · exact ⟨_, hrun, hareas, h.breakPos⟩

theorem LockedInv.protect (h : LockedInv s) (permission : Permission)
    (hstart : IsPageAligned start) (hlen : len ≠ 0) :
    ∃ r, s.protect start len permission = .ok r ∧ LockedInv r.2.2 := by
  obtain hrun | ⟨result, areas, mids, hrun, hareas, -⟩ := h.areas.protect permission hstart hlen
  · exact ⟨_, hrun, h⟩
  · exact ⟨_, hrun, hareas, h.breakPos⟩

theorem mmap_of_checkOverlappingRange {stop : ℕ} (hle : start ≤ stop) (hstart : IsPageAligned start)
    (hstop : IsPageAligned stop) (hcheck : s.areas.checkOverlappingRange ⟨start, stop, hle⟩ = true)
    (mapping : Mapping) (permission : Permission) (isShared : Bool) :
    ∃ s', s.mmap start (stop - start) mapping permission isShared = .ok (.ok (), s') := by
  have hrange : (⟨start, start + (stop - start), Nat.le_add_right _ _⟩ : AddrRange) =
      ⟨start, stop, hle⟩ := by
    ext
    · rfl
    · exact Nat.add_sub_cancel' hle
  unfold MMListLocked.mmap
  rw [assertOr_true _ (floor_eq_self.mpr hstart), assertOr_true _ (hstop.sub hstart),
    new_eq (Nat.le_add_right start _), hrange]
  simp only [ok_bind]
  rw [if_neg]
  · exact ⟨_, rfl⟩
  rw [not_or, not_not]
  refine ⟨?_, hcheck⟩
  rintro ⟨hzero, hpoint⟩
  -- an empty range is free if no area compares equal to its start
  obtain rfl : start = stop := by omega
  unfold Areas.checkOverlappingRange at hcheck
  simp only [Bool.and_eq_true, isUser_iff, List.isEmpty_iff] at hcheck
  obtain ⟨⟨-, hlt⟩, hempty⟩ := hcheck
  apply hpoint
  unfold Areas.checkOverlappingAddr
  simp only [Bool.and_eq_true, decide_eq_true_eq, Option.isNone_iff_eq_none]
  refine ⟨hlt, ?_⟩
  cases hget : s.areas.overlappingAddr start with
  | none => rfl
  | some a =>
    obtain ⟨ha, heq⟩ := OrderedSet.get_eq_some hget
    have hbefore := Areas.apart_of_overlappingRange hempty ha
    rw [cmp_point_eq_eq] at heq
    unfold AddrRange.Before at hbefore
    dsimp only at hbefore
    omega

theorem LockedInv.setBreak (h : LockedInv s) (pos : Option ℕ)
    (hreg : s.breakStart.isSome ∧ s.breakPos.isSome) :
    ∃ r, s.setBreak pos = .ok r ∧ LockedInv r.2 := by
  unfold MMListLocked.setBreak
  rw [assertOr_true _ hreg]
  simp only [ok_bind]
  cases hcur : s.breakPos with
  | none =>
    rw [hcur] at hreg
    exact absurd hreg.2 Bool.false_ne_true
  | some currentBreak =>
    have hcurrent := h.breakPos currentBreak hcur
    cases pos with
    | none => exact ⟨_, rfl, h⟩
    | some pos =>
      dsimp only
      split
      · exact ⟨_, rfl, h⟩
      · rename_i hle
        rw [not_lt] at hle
        rw [new_eq hle]
        simp only [ok_bind]
        by_cases hcheck : s.areas.checkOverlappingRange ⟨currentBreak, ceil pos, hle⟩ = true
        · rw [hcheck]
          have h' : LockedInv { s with breakPos := some (ceil pos) } := by
            refine ⟨h.areas, ?_⟩
            intro p hp
            cases hp
            exact isPageAligned_ceil pos
          obtain ⟨r, hrun, hr⟩ := h'.mmap ⟨true, true, false⟩ false hcurrent
            ((isPageAligned_ceil pos).sub hcurrent) (show Mapping.Covers .anonymous _ from trivial)
          obtain ⟨s', hmap⟩ := mmap_of_checkOverlappingRange
            (s := { s with breakPos := some (ceil pos) }) hle hcurrent (isPageAligned_ceil pos)
            hcheck .anonymous ⟨true, true, false⟩ false
          rw [hmap] at hrun
          cases hrun
          refine ⟨(ceil pos, s'), ?_, hr⟩
          simp only [Bool.not_true, Bool.false_eq_true, if_false, hmap]
          rfl
        · rw [Bool.not_eq_true] at hcheck
          rw [hcheck]
          exact ⟨_, rfl, h⟩

theorem LockedInv.registerBreak (h : LockedInv s) (hstart : IsPageAligned start)
    (hreg : s.breakStart = none ∧ s.breakPos = none) :
    ∃ s', s.registerBreak start = .ok s' ∧ LockedInv s' := by
  unfold MMListLocked.registerBreak
  rw [assertOr_true _ hreg]
  refine ⟨_, rfl, h.areas, ?_⟩
  intro p hp
  cases hp
  exact hstart

end LockedInv

end Dlutos
