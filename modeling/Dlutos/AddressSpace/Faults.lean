import Dlutos.AddressSpace.Entries

/-!
# What a page fault can do

One inversion lemma for each function on the way from a fault to the new entry: every way in which
the function can return, with the state it returns.  The lemmas about the loops of `read_bytes` and
`access_mut` reduce a property of a whole access to one visit of a page of an area.
-/

namespace Dlutos

open Addr AddrRange ExceptLoop

namespace World

variable {r : KResult (PFN × PageAttribute)}

section Faults

variable {w w' : World} {pick : Pick} {backend : Backend} {area : MMArea} {pfn pfn' : PFN}
  {attr attr' : PageAttribute} {offset count : ℕ} {write : Bool}

theorem allocPage_eq {data : PageData} {p : PFN} (h : w.allocPage pick data = .ok (p, w')) :
    pick w.frames = some p ∧ w' = w.updateFrame p fun f => f.allocate data := by
  unfold allocPage at h
  cases hp : pick w.frames with
  | none =>
    rw [hp] at h
    cases h
  | some q =>
    rw [hp] at h
    cases h
    exact ⟨rfl, rfl⟩

def cowData (w : World) (pfn : PFN) : PageData :=
  if pfn = w.emptyPage then fun _ => 0 else (w.frames pfn).data

theorem handleCow_cases (h : w.handleCow pick area pfn attr = .ok (pfn', attr', w')) :
    pfn ≠ 0 ∧
      (((w.frames pfn).refcount = 1 ∧ pfn' = pfn ∧ w' = w ∧
          attr' = { attr with copyOnWrite := false, write := area.permission.write }) ∨
        ((w.frames pfn).refcount ≠ 1 ∧ pick w.frames = some pfn' ∧
          w' = (w.updateFrame pfn' fun f => f.allocate (w.cowData pfn)).releaseRef pfn ∧
          attr' = { attr with copyOnWrite := false, write := area.permission.write,
                              accessed := false })) := by
  unfold handleCow at h
  obtain ⟨_, hraw, h⟩ := bind_eq_ok.mp h
  refine ⟨of_assertOr hraw, ?_⟩
  split at h
  · rename_i hone
    cases h
    exact Or.inl ⟨hone, rfl, rfl, rfl⟩
  · rename_i hone
    obtain ⟨⟨p, w1⟩, halloc, h⟩ := bind_eq_ok.mp h
    obtain ⟨hpick, rfl⟩ := allocPage_eq halloc
    obtain ⟨w2, hdrop, h⟩ := bind_eq_ok.mp h
    cases h
    exact Or.inr ⟨hone, hpick, dropRef_eq hdrop, rfl⟩

theorem withPage_cases {io : PageIo} {file index : ℕ} {r : KResult (Option PFN)}
    (h : w.withPage pick io file index = .ok (r, w')) :
    (io = .behindEnd ∧ r = .ok none ∧ w' = w) ∨
      (∃ p, r = .ok (some p) ∧ w.caches file index = some p ∧ w' = w) ∨
      (∃ err p, io = .fails err ∧ w.caches file index = none ∧ r = .error err ∧
        pick w.frames = some p ∧
        w' = w.updateFrame p fun f => f.allocate fun _ => 0) ∨
      ∃ data p, r = .ok (some p) ∧ w.caches file index = none ∧ pick w.frames = some p ∧
        w' = (w.updateFrame p fun f => f.allocate data).setCache file index p := by
  unfold withPage at h
  cases hc : w.caches file index with
  | some p =>
    rw [hc] at h
    cases io with
    | noPageCache => cases h
    | behindEnd =>
      cases h
      exact Or.inl ⟨rfl, rfl, rfl⟩
    | fails err =>
      cases h
      exact Or.inr (Or.inl ⟨p, rfl, rfl, rfl⟩)
    | page data =>
      cases h
      exact Or.inr (Or.inl ⟨p, rfl, rfl, rfl⟩)
  | none =>
    rw [hc] at h
    cases io with
    | noPageCache => cases h
    | behindEnd =>
      cases h
      exact Or.inl ⟨rfl, rfl, rfl⟩
    | fails err =>
      obtain ⟨⟨p, w1⟩, halloc, h⟩ := bind_eq_ok.mp h
      obtain ⟨hpick, rfl⟩ := allocPage_eq halloc
      cases h
      exact Or.inr (Or.inr (Or.inl ⟨err, p, rfl, rfl, rfl, hpick, rfl⟩))
    | page data =>
      obtain ⟨⟨p, w1⟩, halloc, h⟩ := bind_eq_ok.mp h
      obtain ⟨hpick, rfl⟩ := allocPage_eq halloc
      cases h
      exact Or.inr (Or.inr (Or.inr ⟨data, p, rfl, rfl, hpick, rfl⟩))

/-- The attributes that `handle_mmap` gives to an entry, before it becomes present. -/
def mapAttr (area : MMArea) (write : Bool) (attr : PageAttribute) : PageAttribute :=
  if write then { attr with write := true }
  else if area.isShared then
    if area.permission.write then { attr with write := true } else attr
  else if area.permission.write then { attr with copyOnWrite := true } else attr

theorem mapPage_cases {p : PFN}
    (h : w.mapPage pick area p attr count write = .ok (pfn', attr', w')) :
    attr' = mapAttr area write attr ∧
      ((pfn' = p ∧ w' = w.cloneRef p ∧
          (area.isShared = true ∨ write = false ∧ area.permission.write = false)) ∨
        (area.isShared = false ∧ pick w.frames = some pfn' ∧
          w' = w.updateFrame pfn' fun f =>
            f.allocate fun o => if o < count then (w.frames p).data o else 0)) := by
  unfold mapPage at h
  unfold mapAttr
  cases write with
  | false =>
    rw [if_pos (show (!false) = true from rfl)] at h
    rw [if_neg Bool.false_ne_true]
    cases hs : area.isShared with
    | true =>
      rw [hs, if_pos rfl] at h
      cases h
      exact ⟨rfl, Or.inl ⟨rfl, rfl, Or.inl rfl⟩⟩
    | false =>
      rw [hs, if_neg Bool.false_ne_true] at h
      obtain ⟨⟨q, w1⟩, hcopy, h⟩ := bind_eq_ok.mp h
      cases h
      refine ⟨rfl, ?_⟩
      split at hcopy
      · obtain ⟨hpick, rfl⟩ := allocPage_eq hcopy
        exact Or.inr ⟨rfl, hpick, rfl⟩
      · rename_i hperm
        cases hcopy
        rw [Bool.or_eq_true, not_or, Bool.not_eq_true] at hperm
        exact Or.inl ⟨rfl, rfl, Or.inr ⟨rfl, hperm.1⟩⟩
  | true =>
    rw [if_neg (show ¬ (!true) = true from Bool.false_ne_true)] at h
    rw [if_pos rfl]
    obtain ⟨⟨q, w1⟩, hcopy, h⟩ := bind_eq_ok.mp h
    cases h
    refine ⟨rfl, ?_⟩
    cases hs : area.isShared with
    | true =>
      rw [hs, if_pos rfl] at hcopy
      cases hcopy
      exact Or.inl ⟨rfl, rfl, Or.inl rfl⟩
    | false =>
      rw [hs, if_neg Bool.false_ne_true] at hcopy
      obtain ⟨hpick, rfl⟩ := allocPage_eq hcopy
      exact Or.inr ⟨rfl, hpick, rfl⟩

theorem handleMmap_cases (h : w.handleMmap pick backend area attr offset write = .ok (r, w')) :
    ∃ m r1 w1, area.mapping = .file m ∧
      w.withPage pick (backend m.file ((m.offset + offset) / PAGE_SIZE)) m.file
        ((m.offset + offset) / PAGE_SIZE) = .ok (r1, w1) ∧
      ((∃ err, r = .error err ∧ w' = w1 ∧ ∀ p, r1 ≠ .ok (some p)) ∨
        ∃ p count pfn1 attr1, r1 = .ok (some p) ∧
          w1.mapPage pick area p attr count write = .ok (pfn1, attr1, w') ∧
          r = .ok (pfn1, { attr1 with present := true, mapped := false })) := by
  unfold handleMmap at h
  split at h
  · cases h
  · rename_i m hm
    obtain ⟨_, -, h⟩ := bind_eq_ok.mp h
    obtain ⟨⟨r1, w1⟩, hpage, h⟩ := bind_eq_ok.mp h
    refine ⟨m, r1, w1, hm, hpage, ?_⟩
    split at h
    · rename_i err w2 heq
      cases heq
      cases h
      exact Or.inl ⟨err, rfl, rfl, fun p hp => nomatch hp⟩
    · rename_i w2 heq
      cases heq
      cases h
      exact Or.inl ⟨_, rfl, rfl, fun p hp => nomatch hp⟩
    · rename_i p w2 heq
      cases heq
      obtain ⟨⟨pfn1, attr1, w3⟩, hmap, h⟩ := bind_eq_ok.mp h
      cases h
      exact Or.inr ⟨p, _, pfn1, attr1, rfl, hmap, rfl⟩

theorem resolve_cases (h : w.resolve pick backend area pfn attr offset write = .ok (r, w')) :
    ∃ pfn1 attr1 w1,
      ((attr.copyOnWrite = true ∧ w.handleCow pick area pfn attr = .ok (pfn1, attr1, w1)) ∨
        (attr.copyOnWrite = false ∧ pfn1 = pfn ∧ attr1 = attr ∧ w1 = w)) ∧
      ((attr1.mapped = false ∧ r = .ok (pfn1, attr1) ∧ w' = w1) ∨
        (attr1.mapped = true ∧
          w1.handleMmap pick backend area attr1 offset write = .ok (r, w'))) := by
  unfold resolve at h
  obtain ⟨⟨pfn1, attr1, w1⟩, hcow, h⟩ := bind_eq_ok.mp h
  refine ⟨pfn1, attr1, w1, ?_, ?_⟩
  · cases hc : attr.copyOnWrite with
    | true =>
      rw [hc, if_pos rfl] at hcow
      exact Or.inl ⟨rfl, hcow⟩
    | false =>
      rw [hc, if_neg Bool.false_ne_true] at hcow
      cases hcow
      exact Or.inr ⟨rfl, rfl, rfl, rfl⟩
  · cases hm : attr1.mapped with
    | true =>
      simp only [hm, if_true] at h
      exact Or.inr ⟨rfl, h⟩
    | false =>
      simp only [hm, Bool.false_eq_true, if_false] at h
      cases h
      exact Or.inl ⟨rfl, rfl, rfl⟩

def touched (attr : PageAttribute) (write : Bool) : PageAttribute :=
  { attr with accessed := true, dirty := attr.dirty || write }

theorem handle_cases {i v : ℕ} {r : KResult Unit}
    (h : w.handle pick backend area i v offset write = .ok (r, w')) :
    ∃ r1 w1, w.resolve pick backend area (w.ptes i v).pfn (w.ptes i v).attr offset write =
        .ok (r1, w1) ∧
      ((∃ err, r1 = .error err ∧ r = .error err ∧ w' = w1) ∨
        ∃ pfn attr, r1 = .ok (pfn, attr) ∧ r = .ok () ∧
          w' = w1.setPte i v ⟨pfn, touched attr write⟩) := by
  unfold handle at h
  split at h
  · cases h
  · rename_i attr hattr
    obtain rfl := asPageAttr_eq_some hattr
    obtain ⟨⟨r1, w1⟩, hres, h⟩ := bind_eq_ok.mp h
    refine ⟨r1, w1, hres, ?_⟩
    split at h
    · rename_i err w2 heq
      cases heq
      cases h
      exact Or.inl ⟨err, rfl, rfl, rfl⟩
    · rename_i pfn attr w2 heq
      cases heq
      cases h
      exact Or.inr ⟨pfn, attr, rfl, rfl, rfl⟩

/-- What `resolve` makes of the attributes of an entry. -/
theorem resolve_attrs
    (h : w.resolve pick backend area pfn attr offset write = .ok (.ok (pfn', attr'), w')) :
    ∃ attr1, (attr.copyOnWrite = false ∧ attr1 = attr ∨ attr.copyOnWrite = true ∧ ∃ accessed,
        attr1 = { attr with copyOnWrite := false, write := area.permission.write, accessed }) ∧
      (attr.mapped = false ∧ attr' = attr1 ∨ attr.mapped = true ∧
        attr' = { mapAttr area write attr1 with present := true, mapped := false }) := by
  obtain ⟨pfn1, attr1, w1, hcow, hmap⟩ := resolve_cases h
  have h1 : attr1.mapped = attr.mapped ∧
      (attr.copyOnWrite = false ∧ attr1 = attr ∨ attr.copyOnWrite = true ∧ ∃ accessed,
        attr1 = { attr with copyOnWrite := false, write := area.permission.write, accessed }) := by
    rcases hcow with ⟨hc, hcow⟩ | ⟨hc, -, rfl, -⟩
    · obtain ⟨-, ⟨-, -, -, rfl⟩ | ⟨-, -, -, rfl⟩⟩ := handleCow_cases hcow
      · exact ⟨rfl, Or.inr ⟨hc, _, rfl⟩⟩
      · exact ⟨rfl, Or.inr ⟨hc, _, rfl⟩⟩
    · exact ⟨rfl, Or.inl ⟨hc, rfl⟩⟩
  refine ⟨attr1, h1.2, ?_⟩
  rw [← h1.1]
  rcases hmap with ⟨hm, heq, -⟩ | ⟨hm, hmap⟩
  · cases heq
    exact Or.inl ⟨hm, rfl⟩
  · obtain ⟨m, r1, w2, -, -, ⟨err, herr, -, -⟩ | ⟨p, count, pfn2, attr2, -, hpage, heq⟩⟩ :=
      handleMmap_cases hmap
    · cases herr
    · cases heq
      exact Or.inr ⟨hm, by rw [(mapPage_cases hpage).1]⟩

structure Resolves (area : MMArea) (write : Bool) (attr attr' : PageAttribute) : Prop where
  user : attr'.user = attr.user
  read : attr'.read = attr.read
  execute : attr'.execute = attr.execute
  mapped : attr'.mapped = false
  present : attr'.present = true ↔ attr.present = true ∨ attr.mapped = true
  cow : attr'.copyOnWrite = true → area.permission.write = true
  writable : attr'.write = true → attr.write = true ∨ area.permission.write = true ∨
    attr.mapped = true ∧ write = true
  restored : area.permission.write = true →
    attr.write = true ∨ attr.copyOnWrite = true ∨ attr.mapped = true →
    attr'.write = true ∨ write = false ∧ attr'.copyOnWrite = true
  kept : (if attr.copyOnWrite then area.permission.write else attr.write) = true ∨
    attr.mapped = true ∧ write = true → attr'.write = true

theorem resolve_attr
    (h : w.resolve pick backend area pfn attr offset write = .ok (.ok (pfn', attr'), w')) :
    Resolves area write attr attr' := by
  obtain ⟨attr1, ⟨hc, rfl⟩ | ⟨hc, accessed, rfl⟩, ⟨hm, rfl⟩ | ⟨hm, rfl⟩⟩ := resolve_attrs h <;>
    constructor <;> grind [mapAttr]

theorem setCache_caches (w : World) (file index f k : ℕ) (p : PFN) :
    (w.setCache file index p).caches f k =
      if f = file ∧ k = index then some p else w.caches f k := by
  simp only [setCache, Function.update_apply]
  split_ifs <;> simp_all

theorem withPage_grows {io : PageIo} {file index : ℕ} {r : KResult (Option PFN)}
    (h : w.withPage pick io file index = .ok (r, w')) {f k : ℕ} (hk : w'.caches f k = none) :
    w.caches f k = none := by
  obtain ⟨-, -, rfl⟩ | ⟨p, -, -, rfl⟩ | ⟨err, p, -, -, -, -, rfl⟩ | ⟨data, p, -, -, -, rfl⟩ :=
    withPage_cases h
  · exact hk
  · exact hk
  · exact hk
  · rw [setCache_caches] at hk
    split_ifs at hk
    exact hk

theorem handleCow_caches (h : w.handleCow pick area pfn attr = .ok (pfn', attr', w')) :
    w'.caches = w.caches := by
  obtain ⟨-, ⟨-, -, rfl, -⟩ | ⟨-, -, rfl, -⟩⟩ := handleCow_cases h
  · rfl
  · rfl

theorem mapPage_caches {p : PFN} {count : ℕ}
    (h : w.mapPage pick area p attr count write = .ok (pfn', attr', w')) :
    w'.caches = w.caches := by
  obtain ⟨-, ⟨-, rfl, -⟩ | ⟨-, -, rfl⟩⟩ := mapPage_cases h
  · rfl
  · rfl

theorem resolve_grows
    (hrun : w.resolve pick backend area pfn attr offset write = .ok (r, w')) {f k : ℕ}
    (hk : w'.caches f k = none) : w.caches f k = none := by
  obtain ⟨pfn1, attr1, w1, hcow, hmap⟩ := resolve_cases hrun
  have hcaches : w1.caches = w.caches := by
    rcases hcow with ⟨-, hcow⟩ | ⟨-, -, -, rfl⟩
    · exact handleCow_caches hcow
    · rfl
  rw [← hcaches]
  rcases hmap with ⟨-, -, rfl⟩ | ⟨-, hmap⟩
  · exact hk
  · obtain ⟨m, r1, w2, -, hpage, ⟨err, -, rfl, -⟩ | ⟨p, n, pfn2, attr2, -, hmapped, -⟩⟩ :=
      handleMmap_cases hmap
    · exact withPage_grows hpage hk
    · rw [mapPage_caches hmapped] at hk
      exact withPage_grows hpage hk

theorem handle_grows {i v : ℕ} {r : KResult Unit}
    (hrun : w.handle pick backend area i v offset write = .ok (r, w')) {f k : ℕ}
    (hk : w'.caches f k = none) : w.caches f k = none := by
  obtain ⟨r1, w1, hres, ⟨err, -, -, rfl⟩ | ⟨pfn1, attr1, -, -, rfl⟩⟩ := handle_cases hrun
  · exact resolve_grows hres hk
  · exact resolve_grows hres hk

end Faults

/-! ### Only one entry changes -/

/-- The change from `w` to `w'` concerns only frames and page caches. -/
structure KeepsEntries (w w' : World) : Prop where
  lists : w'.lists = w.lists
  emptyPage : w'.emptyPage = w.emptyPage
  ptes : w'.ptes = w.ptes

theorem KeepsEntries.refl (w : World) : KeepsEntries w w := ⟨rfl, rfl, rfl⟩

theorem KeepsEntries.trans {w w' w'' : World} (h : KeepsEntries w w') (h' : KeepsEntries w' w'') :
    KeepsEntries w w'' :=
  ⟨h'.lists.trans h.lists, h'.emptyPage.trans h.emptyPage, h'.ptes.trans h.ptes⟩

/-- Besides frames and page caches, only the entry of page `v` of address space `i` changes. -/
structure Faults (i v : ℕ) (w w' : World) : Prop where
  lists : w'.lists = w.lists
  emptyPage : w'.emptyPage = w.emptyPage
  ptes : ∀ j u, ¬ (j = i ∧ u = v) → w'.ptes j u = w.ptes j u

section Keeps

variable {w w' : World} {pick : Pick} {backend : Backend} {area : MMArea} {pfn : PFN}
  {attr : PageAttribute} {offset : ℕ} {write : Bool}

theorem resolve_keeps (h : w.resolve pick backend area pfn attr offset write = .ok (r, w')) :
    KeepsEntries w w' := by
  obtain ⟨pfn1, attr1, w1, hcow, hmap⟩ := resolve_cases h
  have h1 : KeepsEntries w w1 := by
    rcases hcow with ⟨-, hcow⟩ | ⟨-, -, -, rfl⟩
    · obtain ⟨-, ⟨-, -, rfl, -⟩ | ⟨-, -, rfl, -⟩⟩ := handleCow_cases hcow
      · exact KeepsEntries.refl _
      · exact ⟨rfl, rfl, rfl⟩
    · exact KeepsEntries.refl _
  refine h1.trans ?_
  rcases hmap with ⟨-, -, rfl⟩ | ⟨-, hmap⟩
  · exact KeepsEntries.refl _
  obtain ⟨m, r1, w2, -, hpage, hres⟩ := handleMmap_cases hmap
  have h2 : KeepsEntries w1 w2 := by
    obtain ⟨-, -, rfl⟩ | ⟨p, -, -, rfl⟩ | ⟨err, p, -, -, -, -, rfl⟩ | ⟨data, p, -, -, -, rfl⟩ :=
      withPage_cases hpage
    · exact KeepsEntries.refl _
    · exact KeepsEntries.refl _
    · exact ⟨rfl, rfl, rfl⟩
    · exact ⟨rfl, rfl, rfl⟩
  refine h2.trans ?_
  obtain ⟨err, -, rfl, -⟩ | ⟨p, count, pfn2, attr2, -, hmapped, -⟩ := hres
  · exact KeepsEntries.refl _
  · obtain ⟨-, ⟨-, rfl, -⟩ | ⟨-, -, rfl⟩⟩ := mapPage_cases hmapped
    · exact ⟨rfl, rfl, rfl⟩
    · exact ⟨rfl, rfl, rfl⟩

theorem handle_faults {i v : ℕ} {r : KResult Unit}
    (h : w.handle pick backend area i v offset write = .ok (r, w')) : Faults i v w w' := by
  obtain ⟨r1, w1, hres, hr⟩ := handle_cases h
  have hkeep := resolve_keeps hres
  obtain ⟨err, -, -, rfl⟩ | ⟨pfn1, attr1, -, -, rfl⟩ := hr
  · exact ⟨hkeep.lists, hkeep.emptyPage, fun j u _ => by rw [hkeep.ptes]⟩
  · refine ⟨hkeep.lists, hkeep.emptyPage, fun j u hne => ?_⟩
    rw [setPte_ptes_of_ne hne, hkeep.ptes]

/-- The entry of a page that was handled is as before, or it is resolved. -/
theorem handle_entry {i v : ℕ} {r : KResult Unit}
    (h : w.handle pick backend area i v offset write = .ok (r, w')) :
    r ≠ .ok () ∧ w'.ptes i v = w.ptes i v ∨ ∃ pfn attr,
      Resolves area write (w.ptes i v).attr attr ∧ w'.ptes i v = ⟨pfn, touched attr write⟩ := by
  obtain ⟨r1, w1, hres, ⟨err, -, rfl, rfl⟩ | ⟨pfn, attr, rfl, -, rfl⟩⟩ := handle_cases h
  · rw [(resolve_keeps hres).ptes]
    exact Or.inl ⟨nofun, rfl⟩
  · exact Or.inr ⟨pfn, attr, resolve_attr hres, setPte_ptes_self _ _ _ _⟩

end Keeps

/-! ### The loops over user memory -/

section Walk

variable {σ τ : Type} {visit : σ → MMArea → Slice → Except MMPanic (KResult Unit × σ)}
  {visit' : τ → MMArea → Slice → Except MMPanic (KResult Unit × τ)} {E : MMPanic → Prop}
  {R : σ → τ → Prop}

theorem walkPages_simulates {area : MMArea} {current accessEnd offset : ℕ} {pages : List ℕ}
    (hvisit : ∀ v ∈ pages, ∀ s t, R s t → Simulates E R
      (visit s area (sliceOf current accessEnd offset v))
      (visit' t area (sliceOf current accessEnd offset v)))
    {s : σ} {t : τ} (hst : R s t) :
    Simulates E R (walkPages visit area current accessEnd offset pages s)
      (walkPages visit' area current accessEnd offset pages t) := by
  induction pages generalizing s t with
  | nil => exact Simulates.ok _ hst
  | cons v pages ih =>
    rw [walkPages, walkPages]
    refine (hvisit v List.mem_cons_self s t hst).bind fun r s1 t1 _ hst1 => ?_
    cases r with
    | error err => exact Simulates.ok _ hst1
    | ok u => exact ih (fun u hu => hvisit u (List.mem_cons_of_mem v hu)) hst1

theorem contains_of_overlappingAddr {areas : Areas} (hareas : AreasInv areas) {area : MMArea}
    {current n v : ℕ} (harea : areas.overlappingAddr current = some area)
    (hn : n ≤ area.range.stop - current)
    (hv : v ∈ pagesOf ⟨current, current + n, Nat.le_add_right _ _⟩) :
    area ∈ areas.elems ∧ area.range.Contains (v * PAGE_SIZE) := by
  obtain ⟨hmem, hcmp⟩ := OrderedSet.get_eq_some harea
  have hok := hareas.ok area hmem
  have hstart := hok.start_aligned
  have hstop := hok.stop_aligned
  have hle := area.range.le
  have hceil := ceil_lt_add (current + n)
  have haligned := isPageAligned_ceil (current + n)
  rw [cmp_point_eq_eq] at hcmp
  rw [mem_pagesOf] at hv
  refine ⟨hmem, ?_⟩
  unfold AddrRange.Contains
  unfold IsPageAligned PAGE_SIZE at *
  dsimp only at hv
  omega

theorem walk_simulates {areas : Areas} (hareas : AreasInv areas) {lo hi : ℕ}
    (hvisit : ∀ area ∈ areas.elems, ∀ v, area.range.Contains (v * PAGE_SIZE) →
      lo < v * PAGE_SIZE + PAGE_SIZE → v * PAGE_SIZE < hi →
      ∀ current accessEnd offset s t, R s t → Simulates E R
        (visit s area (sliceOf current accessEnd offset v))
        (visit' t area (sliceOf current accessEnd offset v))) :
    ∀ {fuel current remaining offset : ℕ} {s : σ} {t : τ}, lo ≤ current →
      current + remaining ≤ hi → R s t →
      Simulates E R (walk visit areas fuel current remaining offset s)
        (walk visit' areas fuel current remaining offset t) := by
  intro fuel
  induction fuel with
  | zero => exact fun _ _ hst => Simulates.ok _ hst
  | succ fuel ih =>
    intro current remaining offset s t hlo hhi hst
    rw [walk, walk]
    split
    · exact Simulates.ok _ hst
    · cases harea : areas.overlappingAddr current with
      | none => exact Simulates.ok _ hst
      | some area =>
        dsimp only
        rw [new_eq (Nat.le_add_right _ _), ok_bind, ok_bind]
        refine Simulates.bind (R := R) (walkPages_simulates ?_ hst) fun r s1 t1 _ hst1 => ?_
        · intro v hv s t hst
          obtain ⟨hmem, hcontains⟩ := contains_of_overlappingAddr hareas harea
            (min_le_right _ _) hv
          rw [mem_pagesOf] at hv
          dsimp only at hv
          have hceil := ceil_lt_add (current + min remaining (area.range.stop - current))
          have haligned := isPageAligned_ceil
            (current + min remaining (area.range.stop - current))
          have hmin := min_le_left remaining (area.range.stop - current)
          refine hvisit area hmem v hcontains ?_ ?_ _ _ _ s t hst
          · unfold PAGE_SIZE at *
            omega
          · generalize min remaining (area.range.stop - current) = n at *
            unfold IsPageAligned PAGE_SIZE at *
            omega
        · have hmin := min_le_left remaining (area.range.stop - current)
          cases r with
          | error err => exact Simulates.ok _ hst1
          | ok u => exact ih (by omega) (by omega) hst1

theorem walk_ensures {P : σ → Prop} {areas : Areas} (hareas : AreasInv areas) {lo hi : ℕ}
    (hvisit : ∀ area ∈ areas.elems, ∀ v, area.range.Contains (v * PAGE_SIZE) →
      lo < v * PAGE_SIZE + PAGE_SIZE → v * PAGE_SIZE < hi →
      ∀ current accessEnd offset s, P s →
        Ensures E (fun x => P x.2) (visit s area (sliceOf current accessEnd offset v)))
    {fuel current remaining offset : ℕ} {s : σ} (hlo : lo ≤ current)
    (hhi : current + remaining ≤ hi) (hs : P s) :
    Ensures E (fun x => P x.2) (walk visit areas fuel current remaining offset s) := by
  have hsim : Simulates E (fun s t => s = t ∧ P s)
      (walk visit areas fuel current remaining offset s)
      (walk visit areas fuel current remaining offset s) := by
    refine walk_simulates hareas ?_ hlo hhi ⟨rfl, hs⟩
    rintro area harea v hv hlo hhi current accessEnd offset s _ ⟨rfl, hs⟩
    have hrun := hvisit area harea v hv hlo hhi current accessEnd offset s hs
    cases hx : visit s area (sliceOf current accessEnd offset v) with
    | error e => exact hrun.of_error hx
    | ok x => exact ⟨x.2, rfl, rfl, hrun.of_ok hx⟩
  cases hx : walk visit areas fuel current remaining offset s with
  | error e =>
    rw [hx] at hsim
    exact hsim
  | ok x =>
    rw [hx] at hsim
    obtain ⟨_, -, -, hs'⟩ := hsim
    exact hs'

end Walk

/-- An access of the kernel to `len` bytes at `start` visits page `v` of area `a`. -/
structure Visits (l : MMListLocked) (start len : ℕ) (a : MMArea) (v : ℕ) : Prop where
  mem : a ∈ l.areas.elems
  page : a.range.Contains (v * PAGE_SIZE)
  lo : start < v * PAGE_SIZE + PAGE_SIZE
  hi : v * PAGE_SIZE < start + len

/-- No other area than `area` has the page `v`. -/
def OnlyArea (w : World) (i v : ℕ) (area : MMArea) : Prop :=
  ∀ l, w.lists i = some l → ∀ a ∈ l.areas.elems, a.range.Contains (v * PAGE_SIZE) → a = area

/-- Handling a page whose entry meets `C` fails only with errors in `E` and keeps `I`, and so does
changing contents.  `C` is about entries that a fault has to map, and about the page caches, which
only grow. -/
structure VisitSpec (E : MMPanic → Prop) (pick : Pick) (backend : Backend) (i : ℕ) (write : Bool)
    (I : World → Prop) (C : World → MMArea → ℕ → PTE → Prop) : Prop where
  handle : ∀ {s : World} {area : MMArea} {v : ℕ}, s.OnlyArea i v area → I s →
    C s area v (s.ptes i v) → Ensures E (fun x => I x.2)
      (s.handle pick backend area i v (v * PAGE_SIZE - area.range.start) write)
  data : ∀ {s : World} (p : PFN) (f : PhysFrame → PageData), I s →
    I (s.updateFrame p fun x => { x with data := f x })
  unmapped : ∀ {s : World} {b : MMArea} {u : ℕ} {t : PTE}, t.attr.mapped = false → C s b u t
  mono : ∀ {s s' : World} {b : MMArea} {u : ℕ} {t : PTE},
    (∀ {f k}, s'.caches f k = none → s.caches f k = none) → C s b u t → C s' b u t
  notManaged : E .notManaged

section Rule

variable {w w' : World} {pick : Pick} {backend : Backend} {i fuel start len : ℕ}
  {l : MMListLocked} {area : MMArea} {v : ℕ} {write : Bool} {I : World → Prop}
  {C : World → MMArea → ℕ → PTE → Prop} {E : MMPanic → Prop}

theorem OnlyArea.of_mem (hareas : AreasInv l.areas) (hl : w.lists i = some l)
    (ha : area ∈ l.areas.elems) (hv : area.range.Contains (v * PAGE_SIZE)) :
    w.OnlyArea i v area := by
  intro m hm b hb hbv
  rw [hl] at hm
  cases hm
  exact hareas.unique hb ha hbv hv

/-- What a visit keeps: the areas, the invariant and the conditions of all pages. -/
structure VisitState (i : ℕ) (l : MMListLocked) (start len : ℕ) (I : World → Prop)
    (C : World → MMArea → ℕ → PTE → Prop) (s : World) : Prop where
  lists : s.lists i = some l
  inv : I s
  pages : ∀ a v, Visits l start len a v → C s a v (s.ptes i v)

theorem VisitSpec.step (rule : VisitSpec E pick backend i write I C) (hareas : AreasInv l.areas)
    {s : World} (hs : VisitState i l start len I C s) (hv : Visits l start len area v) :
    Ensures E (fun x => VisitState i l start len I C x.2)
      (s.handle pick backend area i v (v * PAGE_SIZE - area.range.start) write) := by
  have honly := OnlyArea.of_mem hareas hs.lists hv.mem hv.page
  refine ((rule.handle honly hs.inv (hs.pages area v hv)).with_ok fun _ hrun => hrun).mono ?_
  rintro ⟨r, s'⟩ ⟨hinv, hrun⟩
  have hfaults := handle_faults hrun
  refine ⟨hfaults.lists.symm ▸ hs.lists, hinv, fun b u hu => ?_⟩
  have hkept := rule.mono (handle_grows hrun) (hs.pages b u hu)
  by_cases huv : u = v
  · subst huv
    obtain ⟨-, heq⟩ | ⟨pfn, attr, hattr, heq⟩ := handle_entry hrun
    · rwa [heq]
    · rw [heq]
      exact rule.unmapped hattr.mapped
  · rwa [hfaults.ptes i u fun hne => huv hne.2]

theorem VisitSpec.setData (rule : VisitSpec E pick backend i write I C) {s : World}
    (hs : VisitState i l start len I C s) (p : PFN) (f : PhysFrame → PageData) :
    VisitState i l start len I C (s.updateFrame p fun x => { x with data := f x }) :=
  ⟨hs.lists, rule.data p f hs.inv, fun b u hu =>
    rule.mono (s := s) id (hs.pages b u hu)⟩

theorem VisitSpec.accessMut {func : ℕ → PageData → PageData}
    (rule : VisitSpec E pick backend i true I C) (hareas : AreasInv l.areas)
    (hw : VisitState i l start len I C w) :
    Ensures E I (w.accessMut pick backend func i l fuel start len) := by
  unfold World.accessMut
  split
  · exact hw.inv
  · refine Ensures.bind (P := fun x => VisitState i l start len I C x.2) ?_
      fun ⟨_, _⟩ hx => ensures_pure hx.inv
    refine walk_ensures hareas ?_ le_rfl le_rfl hw
    intro area harea v hv hlo hhi current accessEnd offset s hs
    unfold mutPage
    have hpage : (sliceOf current accessEnd offset v).pageStart / PAGE_SIZE = v :=
      Nat.mul_div_cancel v (by decide)
    rw [hpage]
    refine (rule.step hareas hs ⟨harea, hv, hlo, hhi⟩).bind ?_
    rintro ⟨err | u, s1⟩ hs1
    · exact hs1
    · refine Ensures.bind (ensures_assertOr fun _ => rule.notManaged) fun _ _ => ?_
      refine ensures_pure ?_
      dsimp only at hs1 ⊢
      exact rule.setData hs1 _ _

theorem VisitSpec.readBytes {buffer : PageData}
    (rule : VisitSpec E pick backend i false I C) (hareas : AreasInv l.areas)
    (hw : VisitState i l start len I C w) :
    Ensures E (fun x => I x.1) (w.readBytes pick backend i l fuel start len buffer) := by
  unfold World.readBytes
  split
  · exact hw.inv
  · refine Ensures.bind (P := fun x => VisitState i l start len I C x.2.1) ?_
      fun ⟨_, _⟩ hx => ensures_pure hx.inv
    refine walk_ensures (P := fun s : World × PageData => VisitState i l start len I C s.1) hareas
      ?_ le_rfl le_rfl hw
    rintro area harea v hv hlo hhi current accessEnd offset ⟨s, b⟩ hs
    unfold readPage
    have hpage : (sliceOf current accessEnd offset v).pageStart / PAGE_SIZE = v :=
      Nat.mul_div_cancel v (by decide)
    dsimp only
    rw [hpage]
    refine (rule.step hareas hs ⟨harea, hv, hlo, hhi⟩).bind ?_
    rintro ⟨err | u, s1⟩ hs1
    · exact hs1
    · exact Ensures.bind (ensures_assertOr fun _ => rule.notManaged) fun _ _ => hs1

end Rule

theorem eq_of_overlappingAddr {areas : Areas} (hareas : AreasInv areas) {area a : MMArea}
    {addr : ℕ} (harea : areas.overlappingAddr addr = some area) (ha : a ∈ areas.elems)
    (hpage : a.range.Contains (addr / PAGE_SIZE * PAGE_SIZE)) : a = area := by
  obtain ⟨hmem, hcmp⟩ := OrderedSet.get_eq_some harea
  rw [cmp_point_eq_eq] at hcmp
  have hstart := (hareas.ok area hmem).start_aligned
  have hstart' := (hareas.ok a ha).start_aligned
  have hstop' := (hareas.ok a ha).stop_aligned
  rcases OrderedSet.eq_or_related hareas.sorted ha hmem with heq | hlt | hlt
  · exact heq
  all_goals
    unfold MMArea.Before AddrRange.Before at hlt
    unfold AddrRange.Contains at hpage
    unfold IsPageAligned PAGE_SIZE at *
    omega

theorem OnlyArea.of_overlappingAddr {w : World} {i addr : ℕ} {l : MMListLocked} {area : MMArea}
    (hareas : AreasInv l.areas) (hl : w.lists i = some l)
    (harea : l.areas.overlappingAddr addr = some area) : w.OnlyArea i (addr / PAGE_SIZE) area := by
  intro m hm a ha hav
  rw [hl] at hm
  cases hm
  exact eq_of_overlappingAddr hareas harea ha hav

theorem overlappingAddr_eq {areas : Areas} (hareas : AreasInv areas) {a : MMArea} {addr : ℕ}
    (ha : a ∈ areas.elems) (haddr : a.range.Contains addr) :
    areas.overlappingAddr addr = some a := by
  have hcmp : cmp (point addr) a.range = .eq := by
    rw [cmp_point_eq_eq]
    unfold AddrRange.Contains at haddr
    omega
  cases hfound : areas.overlappingAddr addr with
  | none => exact absurd hfound (OrderedSet.get_ne_none ha hcmp)
  | some b =>
    rw [eq_of_overlappingAddr hareas hfound ha ((hareas.ok a ha).contains_page haddr)]

end World

end Dlutos
