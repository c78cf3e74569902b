import Dlutos.AddressSpace.AreaLookup
import Dlutos.AddressSpace.Entries

/-!
# What cutting areas shows the addresses

`unmap` and `protect` cut areas at the bounds of a range (`Trimmed`).  `MMArea.info` is what an area
shows an address, and `Shows` what a list of areas shows it.  The mappings are arbitrary here: they
may end anywhere in their areas, and what is said holds whenever the calls return.
-/

namespace Dlutos

open Addr AddrRange ExceptLoop MMListLocked

def Shows (areas : List MMArea) (addr : ℕ) (v : Permission × Bool × Option (ℕ × ℕ)) : Prop :=
  ∃ a ∈ areas, a.range.Contains addr ∧ a.info addr = v

section Trimmed

variable {mask : AddrRange} {keep : MMArea → Option MMArea} {s new : Areas} {old : List MMArea}
  {mids : List AddrRange}

theorem Trimmed.areaSet (h : Trimmed mask keep s.elems new.elems mids) (hs : AreaSet s)
    (hkeep : ∀ {m x}, x ∈ keep m → x.range = m.range)
    (hmask : IsPageAligned mask.start ∧ IsPageAligned mask.stop)
    (hsorted : new.elems.Pairwise MMArea.Before) : AreaSet new := by
  refine AreaSet.of_sorted ?_ ?_ hsorted
  · exact h.range (P := fun r => r.start < r.stop) hkeep hs.nonempty
      fun ha hcut hx => hcut.nonempty (hs.nonempty _ ha) hx
  · exact h.range (P := fun r => IsPageAligned r.start ∧ IsPageAligned r.stop) hkeep hs.aligned
      fun ha hcut hx => hcut.aligned (hs.aligned _ ha) hmask hx

theorem Trimmed.shows_of_mem (h : Trimmed mask keep old new.elems mids) {x : MMArea}
    (hx : x ∈ new.elems) {addr : ℕ} (haddr : x.range.Contains addr)
    (hkeep : ∀ {m x}, x ∈ keep m → x.range = m.range) :
    (¬ mask.Contains addr ∧ Shows old addr (x.info addr)) ∨
      (mask.Contains addr ∧ ∃ m, x ∈ keep m ∧ Shows old addr (m.info addr)) := by
  obtain ⟨a, ha, ⟨rfl, hmiss⟩ | ⟨left, m, right, hcut, hx⟩⟩ := h.part x hx
  · exact Or.inl ⟨hmiss.not_contains haddr, x, ha, haddr, rfl⟩
  obtain hx | hx := or_assoc.mpr hx
  · have hin : Within x.range a.range := hcut.within (hx.imp_right Or.inl)
    have hslice : AreaSlice x a := hcut.slice (hx.imp_right Or.inl)
    exact Or.inl ⟨(hcut.missed hx).not_contains haddr, a, ha,
      ⟨hin.1.trans haddr.1, haddr.2.trans_le hin.2.1⟩, (hslice.info addr haddr).symm⟩
  · rw [hkeep hx] at haddr
    obtain ⟨hin, hold⟩ := (hcut.mid_contains addr).mp haddr
    exact Or.inr ⟨hin, m, hx, a, ha, hold, (hcut.mid.info addr haddr).symm⟩

theorem Trimmed.shows_outside (h : Trimmed mask keep old new.elems mids)
    (hkeep : ∀ {m x}, x ∈ keep m → x.range = m.range) {addr : ℕ} (hout : ¬ mask.Contains addr)
    (v : Permission × Bool × Option (ℕ × ℕ)) : Shows new.elems addr v ↔ Shows old addr v := by
  constructor
  · rintro ⟨x, hx, haddr, rfl⟩
    obtain ⟨-, hshows⟩ | ⟨hin, -⟩ := h.shows_of_mem hx haddr hkeep
    · exact hshows
    · exact absurd hin hout
  · rintro ⟨a, ha, haddr, rfl⟩
    exact h.outside ha haddr hout

theorem Trimmed.mem_pages (h : Trimmed mask keep s.elems new.elems mids) (hs : AreaSet s)
    (hmask : IsPageAligned mask.start ∧ IsPageAligned mask.stop) (v : ℕ) :
    v ∈ mids.flatMap pagesOf ↔ mask.Contains (v * PAGE_SIZE) ∧
      ∃ a ∈ s.elems, a.range.Contains (v * PAGE_SIZE) := by
  rw [List.mem_flatMap, ← h.contains_mids]
  refine exists_congr fun r => and_congr_right fun hr => ?_
  have haligned := h.aligned hs.aligned hmask hr
  exact mem_pagesOf_aligned haligned.1 haligned.2

end Trimmed

section

variable {len start : ℕ} (hstart : IsPageAligned start) (hlen : IsPageAligned len)
include hstart hlen

theorem maskOf_aligned : (maskOf start len).stop = start + len := ceil_eq_self (hstart.add hlen)

theorem contains_maskOf (addr : ℕ) :
    (maskOf start len).Contains addr ↔ start ≤ addr ∧ addr < start + len := by
  unfold AddrRange.Contains
  rw [maskOf_aligned hstart hlen]
  rfl

theorem maskOf_isUser (hne : len ≠ 0) (huser : start + len ≤ USER_SPACE_MEMORY_TOP) :
    (maskOf start len).isUser = true := by
  rw [isUser_iff, maskOf_aligned hstart hlen]
  refine ⟨huser, ?_⟩
  change start < USER_SPACE_MEMORY_TOP
  omega

end

/-- After `unmap` no address of the range belongs to an area and its entries are empty; the rest is
as before. -/
theorem World.unmap_exact {w w' : World} {i : ℕ} {l : MMListLocked} {start len : ℕ}
    (hset : AreaSet l.areas) (hstart : IsPageAligned start) (hlen : IsPageAligned len)
    (hne : len ≠ 0) (huser : start + len ≤ USER_SPACE_MEMORY_TOP)
    (h : w.unmap i l start len = .ok w') :
    ∃ areas, w'.lists i = some { l with areas := areas } ∧ AreaSet areas ∧
      (∀ addr, start ≤ addr → addr < start + len → ∀ a ∈ areas.elems, ¬ a.range.Contains addr) ∧
      (∀ v, start ≤ v * PAGE_SIZE → v * PAGE_SIZE < start + len →
        (∃ a ∈ l.areas.elems, a.range.Contains (v * PAGE_SIZE)) → w'.ptes i v = {}) ∧
      (∀ addr, ¬ (start ≤ addr ∧ addr < start + len) → ∀ v,
        Shows areas.elems addr v ↔ Shows l.areas.elems addr v) ∧
      (∀ v, ¬ (start ≤ v * PAGE_SIZE ∧ v * PAGE_SIZE < start + len) →
        w'.ptes i v = w.ptes i v) ∧
      ∀ j, j ≠ i → w'.lists j = w.lists j ∧ w'.ptes j = w.ptes j := by
  unfold World.unmap MMListLocked.unmap at h
  rw [assertOr_true _ (floor_eq_self.mpr hstart), new_maskOf, ok_bind, ok_bind,
    maskOf_isUser hstart hlen hne huser] at h
  obtain ⟨⟨result, l'⟩, hunmap, h⟩ := bind_eq_ok.mp h
  obtain ⟨u, hloop, hunmap⟩ := bind_eq_ok.mp hunmap
  cases hunmap
  obtain ⟨w1, htake, h⟩ := bind_eq_ok.mp h
  cases h
  have hmask : IsPageAligned (maskOf start len).start ∧ IsPageAligned (maskOf start len).stop :=
    ⟨hstart, isPageAligned_ceil _⟩
  have hcontains := contains_maskOf hstart hlen
  obtain ⟨hsorted, -, htrimmed⟩ := (unmapLoop_inv hloop).result hset.sorted l.areas.lost
  have hkeep : ∀ {m x : MMArea}, x ∈ (none : Option MMArea) → x.range = m.range :=
    fun hx => by cases hx
  obtain ⟨htouch, hempty⟩ :=
    World.foldlM_entries (g := fun v => v) (e := fun _ => {}) (fun _ => rfl)
      World.takePage_touches htake
  rw [List.map_id'] at htouch hempty
  have htaken := htrimmed.mem_pages hset hmask
  refine ⟨_, Function.update_self i _ _, htrimmed.areaSet hset hkeep hmask hsorted, ?_, ?_, ?_, ?_,
    ?_⟩
  · intro addr h1 h2 a ha haddr
    obtain ⟨hout, -⟩ | ⟨-, m, hm, -⟩ := htrimmed.shows_of_mem ha haddr hkeep
    · exact hout ((hcontains addr).mpr ⟨h1, h2⟩)
    · cases hm
  · intro v h1 h2 ha
    exact hempty v ((htaken v).mpr ⟨(hcontains _).mpr ⟨h1, h2⟩, ha⟩)
  · intro addr hout v
    exact htrimmed.shows_outside hkeep (fun hin => hout ((hcontains addr).mp hin)) v
  · intro v hout
    refine htouch.ptes i v fun hv => hout ?_
    exact (hcontains _).mp ((htaken v).mp hv.2).1
  · intro j hj
    refine ⟨?_, funext fun v => htouch.ptes j v fun hv => hj hv.1⟩
    rw [htouch.setList_lists, Function.update_of_ne hj]

def threePages : MMListLocked :=
  { areas := ⟨[⟨maskOf 0x1000 0x3000, .file ⟨7, 0, 0x3000, isPageAligned_zero⟩,
      ⟨true, false, false⟩, false⟩], false⟩ }

theorem areaSet_threePages : AreaSet threePages.areas := by
  refine ⟨fun a ha => ?_, fun a ha => ?_, List.pairwise_singleton _ _, List.pairwise_singleton _ _⟩
  · rw [List.mem_singleton.mp ha]
    decide
  · rw [List.mem_singleton.mp ha]
    decide

theorem World.unmap_exact_middle : ∃ w' areas,
    World.unmap ⟨fun _ => {}, 0, fun _ => some threePages, fun _ _ => {}, fun _ _ => none⟩ 0
      threePages 0x2000 0x1000 = .ok w' ∧
    w'.lists 0 = some { threePages with areas := areas } ∧
    (∀ a ∈ areas.elems, ¬ a.range.Contains 0x2000) ∧
    Shows areas.elems 0x3000 (⟨true, false, false⟩, false, some (7, 0x2000)) := by
  obtain ⟨areas, hlists, -, hinside, -, houtside, -⟩ := World.unmap_exact (i := 0)
    (w := ⟨fun _ => {}, 0, fun _ => some threePages, fun _ _ => {}, fun _ _ => none⟩)
    areaSet_threePages (show IsPageAligned 0x2000 by decide) (show IsPageAligned 0x1000 by decide)
    (by decide) (by decide) rfl
  refine ⟨_, areas, rfl, hlists, hinside 0x2000 (by decide) (by decide),
    (houtside 0x3000 (by decide) _).mpr ?_⟩
  exact ⟨_, List.mem_cons_self, by decide, rfl⟩

/-! ### `protect` -/

theorem Trimmed.shows_inside {mask : AddrRange} {permission : Permission} {new : Areas}
    {old : List MMArea} {mids : List AddrRange}
    (h : Trimmed mask (fun m => some { m with permission := permission }) old new.elems mids)
    {addr : ℕ} (hin : mask.Contains addr) (v : Permission × Bool × Option (ℕ × ℕ)) :
    Shows new.elems addr v ↔ v.1 = permission ∧ ∃ perm, Shows old addr (perm, v.2) := by
  constructor
  · rintro ⟨x, hx, haddr, rfl⟩
    obtain ⟨hout, -⟩ | ⟨-, m, hm, hshows⟩ := h.shows_of_mem hx haddr fun hx => by cases hx; rfl
    · exact absurd hin hout
    · cases hm
      exact ⟨rfl, m.permission, hshows⟩
  · rintro ⟨hperm, perm, a, ha, haddr, hinfo⟩
    obtain ⟨-, hmiss⟩ | ⟨left, m, right, hcut, -, hparts⟩ := h.cover a ha
    · exact absurd hin (hmiss.not_contains haddr)
    · have hm : m.range.Contains addr := (hcut.mid_contains addr).mpr ⟨hin, haddr⟩
      refine ⟨_, hparts _ (Or.inr (Or.inr rfl)), hm, ?_⟩
      change (permission, (m.info addr).2) = v
      rw [hcut.mid.info addr hm, hinfo, ← hperm]

section Protect

variable {mask : AddrRange} {permission : Permission}

theorem protectLoop_missed {s : Areas} (hs : AreaSet s)
    (hmiss : ∀ a ∈ s.elems, Missed a.range mask) (lost : Bool) :
    s.elems.foldlM (protectArea mask permission) ⟨⟨[], lost⟩, false, []⟩ =
      .ok ⟨⟨s.elems, lost⟩, false, []⟩ := by
  obtain ⟨p, hloop, rfl⟩ := foldlM_ok (f := protectArea mask permission)
    (I := fun done p => p = ⟨⟨done, lost⟩, false, []⟩) s.elems (by
      rintro done a rest p hl rfl
      have hsorted := hs.sorted
      rw [hl] at hsorted
      have ha : a ∈ s.elems := by
        rw [hl]
        exact List.mem_append_right done List.mem_cons_self
      have hinsert : (⟨done, lost⟩ : Areas).insert a = ⟨done ++ [a], lost⟩ := by
        unfold Areas.insert
        rw [OrderedSet.insert_last separates_area a fun d hd =>
          (List.pairwise_append.mp hsorted).2.2 d hd a List.mem_cons_self]
        exact congrArg (Areas.mk (done ++ [a])) (Bool.or_false lost)
      refine ⟨_, ?_, rfl⟩
      unfold protectArea
      obtain ⟨hmask, -⟩ | ⟨left, mid, right, -, hmasked⟩ := maskWithChecked_spec a.range mask
      · rw [hmask, ← hinsert]
        rfl
      · have hmissed := hmiss a ha
        have hlt := hmasked.mask_lt
        have hover := hmasked.overlap
        unfold Missed at hmissed
        omega)
    (b := ⟨⟨[], lost⟩, false, []⟩) rfl
  exact hloop

end Protect

theorem protect_eq (l : MMListLocked) {start len : ℕ} (hstart : IsPageAligned start)
    (hlen : IsPageAligned len) (hne : len ≠ 0) (huser : start + len ≤ USER_SPACE_MEMORY_TOP)
    (permission : Permission) :
    l.protect start len permission =
      (l.areas.elems.foldlM (protectArea (maskOf start len) permission)
        ⟨⟨[], l.areas.lost⟩, false, []⟩ >>= fun p =>
        .ok (if p.found then .ok () else .error .ENOMEM, p.mids, { l with areas := p.areas })) := by
  unfold MMListLocked.protect
  rw [assertOr_true _ (floor_eq_self.mpr hstart), assertOr_true _ hne, new_maskOf]
  simp only [ok_bind, maskOf_isUser hstart hlen hne huser, Bool.not_true, Bool.false_eq_true,
    if_false]
  rfl

/-- `protect` returns `ENOMEM` exactly if no area intersects the range, and then changes nothing;
otherwise only the permission of the range changes. It returns for all areas that the kernel
creates. -/
theorem protect_exact {l : MMListLocked} (hset : AreaSet l.areas) {start len : ℕ}
    (hstart : IsPageAligned start) (hlen : IsPageAligned len) (hne : len ≠ 0)
    (huser : start + len ≤ USER_SPACE_MEMORY_TOP) (permission : Permission) :
    ((∀ a ∈ l.areas.elems, ¬ a.range.Intersects (maskOf start len)) →
      l.protect start len permission = .ok (.error .ENOMEM, [], l)) ∧
    (∀ result mids l', l.protect start len permission = .ok (result, mids, l') →
      (result = .error .ENOMEM ↔ ∀ a ∈ l.areas.elems, ¬ a.range.Intersects (maskOf start len)) ∧
      ((∃ a ∈ l.areas.elems, a.range.Intersects (maskOf start len)) →
        result = .ok () ∧ AreaSet l'.areas ∧
        (∀ addr, (∃ a ∈ l'.areas.elems, a.range.Contains addr) ↔
          ∃ a ∈ l.areas.elems, a.range.Contains addr) ∧
        (∀ addr, start ≤ addr → addr < start + len → ∀ v, Shows l'.areas.elems addr v ↔
          v.1 = permission ∧ ∃ old, Shows l.areas.elems addr (old, v.2)) ∧
        ∀ addr, ¬ (start ≤ addr ∧ addr < start + len) → ∀ v,
          Shows l'.areas.elems addr v ↔ Shows l.areas.elems addr v)) ∧
    ((∀ a ∈ l.areas.elems, AreaOk a) → ∃ result, l.protect start len permission = .ok result) := by
  have hstop := maskOf_aligned hstart hlen
  have hmask : IsPageAligned (maskOf start len).start ∧ IsPageAligned (maskOf start len).stop :=
    ⟨hstart, isPageAligned_ceil _⟩
  have hbounds : (maskOf start len).start < (maskOf start len).stop := by
    rw [hstop]
    exact Nat.lt_add_of_pos_right (Nat.pos_of_ne_zero hne)
  have hcontains := contains_maskOf hstart hlen
  rw [protect_eq l hstart hlen hne huser]
  refine ⟨?_, ?_, ?_⟩
  · intro hnone
    have hmiss : ∀ a ∈ l.areas.elems, Missed a.range (maskOf start len) := by
      intro a ha
      have hnot := hnone a ha
      rw [intersects_iff (hset.nonempty a ha) hbounds] at hnot
      unfold Missed
      omega
    rw [protectLoop_missed hset hmiss l.areas.lost]
    rfl
  · intro result mids l' h
    obtain ⟨p, hloop, h⟩ := bind_eq_ok.mp h
    cases h
    have hinv := protectLoop_inv hset.sorted hloop
    have hfound : p.found = true ↔ ∃ a ∈ l.areas.elems, a.range.Intersects (maskOf start len) := by
      refine hinv.found.trans (exists_congr fun a => and_congr_right fun ha => ?_)
      rw [intersects_iff (hset.nonempty a ha) hbounds]
      unfold Missed
      omega
    have hkeep : ∀ {m x : MMArea}, x ∈ some { m with permission := permission } →
        x.range = m.range := fun hx => by cases hx; rfl
    have houtside : ∀ addr, ¬ (maskOf start len).Contains addr → ∀ v, _ :=
      fun addr hout => hinv.trimmed.shows_outside hkeep hout
    have hinside : ∀ addr, (maskOf start len).Contains addr → ∀ v, _ :=
      fun addr hin => hinv.trimmed.shows_inside hin
    refine ⟨?_, ?_⟩
    · have hnone : (∀ a ∈ l.areas.elems, ¬ a.range.Intersects (maskOf start len)) ↔
          p.found = false := by
        rw [← Bool.not_eq_true, hfound]
        simp only [not_exists, not_and]
      rw [hnone]
      cases p.found with
      | false => exact iff_of_true rfl rfl
      | true => exact iff_of_false (fun h => by cases h) (fun h => by cases h)
    · intro hcuts
      refine ⟨by rw [hfound.mpr hcuts]; rfl, hinv.trimmed.areaSet hset hkeep hmask hinv.sorted, ?_,
        ?_, ?_⟩
      · intro addr
        have hmapped : ∀ areas : List MMArea, (∃ a ∈ areas, a.range.Contains addr) ↔
            ∃ v, Shows areas addr v :=
          fun areas => ⟨fun ⟨a, ha, haddr⟩ => ⟨_, a, ha, haddr, rfl⟩,
            fun ⟨_, a, ha, haddr, _⟩ => ⟨a, ha, haddr⟩⟩
        rw [hmapped, hmapped]
        by_cases hin : (maskOf start len).Contains addr
        · constructor
          · rintro ⟨v, hv⟩
            obtain ⟨-, old, hold⟩ := (hinside addr hin v).mp hv
            exact ⟨_, hold⟩
          · rintro ⟨v, hv⟩
            exact ⟨(permission, v.2), (hinside addr hin _).mpr ⟨rfl, v.1, hv⟩⟩
        · exact exists_congr (houtside addr hin)
      · intro addr h1 h2 v
        exact hinside addr ((hcontains addr).mpr ⟨h1, h2⟩) v
      · intro addr hout v
        exact houtside addr (fun hin => hout ((hcontains addr).mp hin)) v
  · intro hok
    obtain ⟨p, hloop⟩ : ∃ p, l.areas.elems.foldlM (protectArea (maskOf start len) permission)
        ⟨⟨[], l.areas.lost⟩, false, []⟩ = .ok p := protectLoop_returns hok hmask _
    rw [hloop]
    exact ⟨_, rfl⟩

/-- The middle page becomes writable, and the last one stays read-only. -/
theorem protect_exact_middle : ∃ mids l',
    threePages.protect 0x2000 0x1000 ⟨true, true, false⟩ = .ok (.ok (), mids, l') ∧
    Shows l'.areas.elems 0x2000 (⟨true, true, false⟩, false, some (7, 0x1000)) ∧
    Shows l'.areas.elems 0x3000 (⟨true, false, false⟩, false, some (7, 0x2000)) := by
  obtain ⟨-, hall, hreturns⟩ := protect_exact areaSet_threePages
    (show IsPageAligned 0x2000 by decide) (show IsPageAligned 0x1000 by decide) (by decide)
    (by decide) ⟨true, true, false⟩
  obtain ⟨⟨result, mids, l'⟩, hrun⟩ := hreturns fun a ha => by
    rw [List.mem_singleton.mp ha]
    exact ⟨by decide, by decide, by decide, by decide, by decide⟩
  obtain ⟨-, hshows⟩ := hall result mids l' hrun
  obtain ⟨rfl, -, -, hinside, houtside⟩ :=
    hshows ⟨_, List.mem_cons_self, 0x2000, by decide, by decide⟩
  refine ⟨mids, l', hrun, (hinside 0x2000 (by decide) (by decide) _).mpr ⟨rfl, ?_⟩,
    (houtside 0x3000 (by decide) _).mpr ?_⟩
  · exact ⟨_, _, List.mem_cons_self, by decide, rfl⟩
  · exact ⟨_, List.mem_cons_self, by decide, rfl⟩

end Dlutos
