import Dlutos.AddressSpace.Contents
import Dlutos.AddressSpace.Permissions

/-!
# Private mappings of files

A writable entry of a private area should not refer to a page of a page cache (`PrivateOk`).  A read
fault in an area without write permission installs the page of the cache itself, and a later
`protect` makes the entry writable.  A fault that fails on an entry that is both copy-on-write and
not read yet gives the reference to `EMPTY_PAGE` back but leaves the entry.  `Isolates` excludes
these steps.
-/

namespace Dlutos

open Addr AddrRange ExceptLoop RefCount Transition Function

namespace World

/-- A page cache owns the frame. -/
def Cached (w : World) (p : PFN) : Prop := ∃ file index, w.caches file index = some p

/-- Writable entries of private areas do not refer to pages of page caches. -/
def PrivateOk (w : World) : Prop :=
  ∀ i l, w.lists i = some l → ∀ a ∈ l.areas.elems, a.isShared = false →
    ∀ v, a.range.Contains (v * PAGE_SIZE) → (w.ptes i v).attr.write = true →
    ¬ w.Cached (w.ptes i v).pfn

/-- The page cache has the page that a fault on a copy-on-write entry needs, or can read it. -/
def Served (w : World) (backend : Backend) (area : MMArea) (t : PTE) (offset : ℕ) : Prop :=
  t.attr.copyOnWrite = true → t.attr.mapped = true → ∀ m, area.mapping = .file m →
    backend m.file ((m.offset + offset) / PAGE_SIZE) ≠ .behindEnd ∧
      (w.caches m.file ((m.offset + offset) / PAGE_SIZE) = none →
        ∀ err, backend m.file ((m.offset + offset) / PAGE_SIZE) ≠ .fails err)

def SpanServed (w : World) (backend : Backend) (i start len : ℕ) : Prop :=
  ∀ l, w.lists i = some l → ∀ a v, Visits l start len a v →
    Served w backend a (w.ptes i v) (v * PAGE_SIZE - a.range.start)

def AddrServed (w : World) (backend : Backend) (i addr : ℕ) : Prop :=
  ∀ l, w.lists i = some l → ∀ a, l.areas.overlappingAddr addr = some a →
    Served w backend a (w.ptes i (addr / PAGE_SIZE)) (floor addr - a.range.start)

/-- The steps after which private mappings are still isolated from the page caches. -/
def Isolates (w : World) : Op → Prop
  | .protect i start len permission => permission.write = true →
    ∀ l, w.lists i = some l → ∀ a ∈ l.areas.elems, a.isShared = false →
      ∀ v, a.range.Contains (v * PAGE_SIZE) → (maskOf start len).Contains (v * PAGE_SIZE) →
      (w.ptes i v).attr.copyOnWrite = false → ¬ w.Cached (w.ptes i v).pfn
  | .userFault _ backend i addr _ => AddrServed w backend i addr
  | .kernelFault _ backend i addr _ => AddrServed w backend i addr
  | .readBytes _ backend i _ start len _ => SpanServed w backend i start len
  | .accessMut _ backend _ i _ start len => SpanServed w backend i start len
  | _ => True

/-- The property of entries behind `PrivateOk`, for a set `C` of cached frames. -/
def PrivEntry (C : PFN → Prop) (_ _ : ℕ) (a : MMArea) (t : PTE) : Prop :=
  a.isShared = false → (t.attr.write = true → ¬ C t.pfn) ∧
    (t.attr.mapped = true → t.attr.copyOnWrite = false → t.attr.write = true →
      a.permission.write = true)

/-- The invariant: references are counted and private entries are isolated. -/
structure PrivInv (w : World) : Prop where
  referenced : Referenced w
  entries : Entrywise (PrivEntry w.Cached) w

/-! ### The page caches during a fault -/

section Fault

variable {w w' : World} {R : ℕ → ℕ → Option PFN} {pick : Pick} {backend : Backend} {area : MMArea}
  {pfn pfn' : PFN} {attr attr' : PageAttribute} {i v offset : ℕ} {write : Bool}

section

variable {io : PageIo} {file index : ℕ} {r : KResult (Option PFN)}
  (h : w.withPage pick io file index = .ok (r, w'))
include h

theorem withPage_cached {q : PFN} (hq : w'.Cached q) :
    w.Cached q ∨ r = .ok (some q) ∧ pick w.frames = some q := by
  obtain ⟨-, -, rfl⟩ | ⟨p, -, -, rfl⟩ | ⟨err, p, -, -, -, -, rfl⟩ | ⟨data, p, rfl, -, hp, rfl⟩ :=
    withPage_cases h
  · exact Or.inl hq
  · exact Or.inl hq
  · exact Or.inl hq
  · obtain ⟨f, k, hfk⟩ := hq
    rw [setCache_caches] at hfk
    split_ifs at hfk
    · cases hfk
      exact Or.inr ⟨rfl, hp⟩
    · exact Or.inl ⟨f, k, hfk⟩

end

theorem resolve_middle (h : RefsOk w R) (hpick : Pick.Lawful pick) (href : R i v = refOf pfn)
    {pfn1 : PFN} {attr1 : PageAttribute} {w1 : World}
    (hcow : (attr.copyOnWrite = true ∧ w.handleCow pick area pfn attr = .ok (pfn1, attr1, w1)) ∨
      (attr.copyOnWrite = false ∧ pfn1 = pfn ∧ attr1 = attr ∧ w1 = w)) :
    RefsOk w1 (setRef R i v (refOf pfn1)) ∧ w1.caches = w.caches := by
  rcases hcow with ⟨-, hcow⟩ | ⟨-, rfl, -, rfl⟩
  · obtain ⟨hok, hne⟩ := h.handleCow hpick href hcow
    rw [refOf_eq hne]
    exact ⟨hok, handleCow_caches hcow⟩
  · rw [setRef_self href]
    exact ⟨h, rfl⟩

theorem resolve_cached (h : RefsOk w R) (hpick : Pick.Lawful pick) (href : R i v = refOf pfn)
    {r : KResult (PFN × PageAttribute)}
    (hrun : w.resolve pick backend area pfn attr offset write = .ok (r, w')) {q : PFN}
    (hq : w'.Cached q) :
    w.Cached q ∨ (∃ x, r = .ok x) ∧ ∀ k u, ¬ (k = i ∧ u = v) → R k u ≠ some q := by
  obtain ⟨pfn1, attr1, w1, hcow, hmap⟩ := resolve_cases hrun
  obtain ⟨hrefs, hcaches⟩ := resolve_middle h hpick href hcow
  have hback : w1.Cached q → w.Cached q := by
    rintro ⟨f, k, hfk⟩
    exact ⟨f, k, by rw [← hcaches]; exact hfk⟩
  rcases hmap with ⟨-, -, rfl⟩ | ⟨-, hmap⟩
  · exact Or.inl (hback hq)
  · obtain ⟨m, r1, w2, -, hpage, ⟨err, rfl, rfl, hnot⟩ | ⟨p, n, pfn2, attr2, rfl, hmapped, rfl⟩⟩ :=
      handleMmap_cases hmap
    · rcases withPage_cached hpage hq with hq | ⟨rfl, -⟩
      · exact Or.inl (hback hq)
      · exact absurd rfl (hnot q)
    · have hq2 : w2.Cached q := by
        obtain ⟨f, k, hfk⟩ := hq
        exact ⟨f, k, by rw [← mapPage_caches hmapped]; exact hfk⟩
      rcases withPage_cached hpage hq2 with hq | ⟨-, hp⟩
      · exact Or.inl (hback hq)
      · refine Or.inr ⟨⟨_, rfl⟩, fun k u hne hku => ?_⟩
        refine hrefs.not_target (hpick _ _ hp).1 (.pte k u) ?_
        exact (setRef_of_ne hne).trans hku

theorem resolve_writable (h : RefsOk w R) (hpick : Pick.Lawful pick) (href : R i v = refOf pfn)
    (hshared : area.isShared = false) (hentry : PrivEntry w.Cached i v area ⟨pfn, attr⟩)
    (hrun : w.resolve pick backend area pfn attr offset write = .ok (.ok (pfn', attr'), w'))
    (hwrite : attr'.write = true) : ¬ w'.Cached pfn' := by
  obtain ⟨pfn1, attr1, w1, hcow, hmap⟩ := resolve_cases hrun
  obtain ⟨hrefs, hcaches⟩ := resolve_middle h hpick href hcow
  obtain ⟨hold, hmapped⟩ := hentry hshared
  rcases hmap with ⟨-, heq, rfl⟩ | ⟨hm, hmap⟩
  · cases heq
    rintro ⟨f, k, hfk⟩
    rw [hcaches] at hfk
    rcases hcow with ⟨-, hcow⟩ | ⟨-, rfl, rfl, -⟩
    · obtain ⟨hpfn, ⟨hone, rfl, rfl, -⟩ | ⟨-, hp, rfl, -⟩⟩ := handleCow_cases hcow
      · -- the cache would be a second holder of a page with one reference
        have hholders := h.counted.exclusive (r := .pte i v) (s := .cache f k) hone
          (href.trans (refOf_eq hpfn)) hfk
        cases hholders
      · exact h.not_target (hpick _ _ hp).1 (.cache f k) hfk
    · exact hold hwrite ⟨f, k, hfk⟩
  · obtain ⟨m, r1, w2, -, hpage, ⟨err, herr, -, -⟩ | ⟨p, n, pfn2, attr2, rfl, hmapPage, heq⟩⟩ :=
      handleMmap_cases hmap
    · cases herr
    cases heq
    obtain ⟨hw2, -⟩ := hrefs.withPage hpick hpage
    obtain ⟨rfl, ⟨-, -, hread⟩ | ⟨-, hp, rfl⟩⟩ := mapPage_cases hmapPage
    · -- the page of the cache itself is installed only for reading
      obtain ⟨rfl, hperm⟩ : write = false ∧ area.permission.write = false := by
        rw [hshared] at hread
        exact hread.resolve_left Bool.false_ne_true
      have hattr : attr1.write = true := by
        simpa [mapAttr, hshared, hperm] using hwrite
      rcases hcow with ⟨-, hcow⟩ | ⟨hc, -, rfl, -⟩
      · have hset : attr1.write = area.permission.write := by
          obtain ⟨-, ⟨-, -, -, rfl⟩ | ⟨-, -, -, rfl⟩⟩ := handleCow_cases hcow
          · rfl
          · rfl
        rw [hset, hperm] at hattr
        cases hattr
      · have hset := hmapped hm hc hattr
        rw [hperm] at hset
        cases hset
    · rintro ⟨f, k, hfk⟩
      exact hw2.not_target (hpick _ _ hp).1 (.cache f k) hfk

theorem handle_served {r : KResult Unit} (hserved : Served w backend area (w.ptes i v) offset)
    (hrun : w.handle pick backend area i v offset write = .ok (r, w'))
    (hc : (w.ptes i v).attr.copyOnWrite = true) : r = .ok () := by
  obtain ⟨r1, w1, hres, ⟨err, rfl, rfl, rfl⟩ | ⟨pfn1, attr1, -, hr, -⟩⟩ := handle_cases hrun
  · obtain ⟨pfn2, attr2, w2, ⟨-, hcow⟩ | ⟨hc', -⟩, hmap⟩ := resolve_cases hres
    · have hmapped : attr2.mapped = (w.ptes i v).attr.mapped := by
        obtain ⟨-, ⟨-, -, -, rfl⟩ | ⟨-, -, -, rfl⟩⟩ := handleCow_cases hcow
        · rfl
        · rfl
      rcases hmap with ⟨-, heq, -⟩ | ⟨hm, hmap⟩
      · cases heq
      · obtain ⟨m, r3, w3, hfile, hpage, ⟨err, -, -, hnot⟩ | ⟨p, n, pfn3, attr3, -, -, heq⟩⟩ :=
          handleMmap_cases hmap
        · obtain ⟨hend, hfails⟩ := hserved hc (hmapped ▸ hm) m hfile
          obtain ⟨hio, -⟩ | ⟨p, rfl, -⟩ | ⟨err, p, hio, hnone, -⟩ | ⟨data, p, rfl, -⟩ :=
            withPage_cases hpage
          · exact absurd hio hend
          · exact absurd rfl (hnot p)
          · rw [handleCow_caches hcow] at hnone
            exact absurd hio (hfails hnone err)
          · exact absurd rfl (hnot p)
        · cases heq
    · rw [hc] at hc'
      cases hc'
  · exact hr

theorem PrivInv.handle (h : PrivInv w) (hpick : Pick.Lawful pick)
    (harea : w.OnlyArea i v area)
    (hserved : Served w backend area (w.ptes i v) offset) {r : KResult Unit}
    (hrun : w.handle pick backend area i v offset write = .ok (r, w')) : PrivInv w' := by
  have hrefs : Referenced w' :=
    h.referenced.handle hpick (fun hc => handle_served hserved hrun hc) hrun
  refine ⟨hrefs, fun k m hk => ?_⟩
  have hfaults := handle_faults hrun
  rw [hfaults.lists] at hk
  refine ⟨(h.entries k m hk).1, fun a ha u hu hshared => ?_⟩
  have hentry := (h.entries k m hk).2 a ha u hu
  obtain ⟨r1, w1, hres, hr⟩ := handle_cases hrun
  have hcached : ∀ q, w'.Cached q → w1.Cached q := by
    obtain ⟨err, -, -, rfl⟩ | ⟨pfn1, attr1, -, -, rfl⟩ := hr
    · exact fun q hq => hq
    · exact fun q hq => hq
  by_cases heq : k = i ∧ u = v
  · obtain ⟨rfl, rfl⟩ := heq
    obtain rfl := harea m hk a ha hu
    obtain ⟨err, rfl, -, rfl⟩ | ⟨pfn1, attr1, rfl, -, rfl⟩ := hr
    · rw [(resolve_keeps hres).ptes]
      refine ⟨fun hw hq => ?_, (hentry hshared).2⟩
      rcases resolve_cached (i := k) (v := u) h.referenced hpick rfl hres hq with hq | ⟨⟨x, hx⟩, -⟩
      · exact (hentry hshared).1 hw hq
      · cases hx
    · rw [setPte_ptes_self]
      refine ⟨fun hw hq => ?_, fun hm => ?_⟩
      · exact resolve_writable (i := k) (v := u) h.referenced hpick rfl hshared hentry hres hw hq
      · exact absurd ((resolve_attr hres).mapped.symm.trans hm) Bool.false_ne_true
  · rw [hfaults.ptes k u heq]
    refine ⟨fun hw hq => ?_, (hentry hshared).2⟩
    rcases resolve_cached (i := i) (v := v) h.referenced hpick rfl hres (hcached _ hq) with
      hq' | ⟨-, hother⟩
    · exact (hentry hshared).1 hw hq'
    · refine hother k u heq (refOf_eq ?_)
      intro hzero
      obtain ⟨f, x, hfx⟩ := hq
      rw [hzero] at hfx
      exact hrefs.nonzero (.cache f x) hfx

end Fault

/-! ### Runs -/

theorem PrivEntry.of_not_writable {C : PFN → Prop} {i v : ℕ} {a : MMArea} {t : PTE}
    (h : t.attr.write = false) : PrivEntry C i v a t := by
  intro _
  rw [h]
  exact ⟨fun hw => absurd hw Bool.false_ne_true, fun _ _ hw => absurd hw Bool.false_ne_true⟩

theorem privEntry_rules {w : World} {op : Op} (hiso : Isolates w op) :
    EntryRules (PrivEntry w.Cached) w op where
  part i v x a t hpart hperm h := by
    intro hshared
    rw [hpart.shared] at hshared
    rw [hperm]
    exact h hshared
  clone i j _ l _ a _ v _ h := by
    refine ⟨?_, ?_⟩
    · unfold parentEntry
      split
      · exact h
      · exact PrivEntry.of_not_writable rfl
    · unfold childEntry
      split
      · exact h
      · split
        · exact PrivEntry.of_not_writable rfl
        · exact PrivEntry.of_not_writable rfl
  fresh mapping permission isShared _ _ _ range := by
    cases mapping with
    | anonymous => exact PrivEntry.of_not_writable rfl
    | file m => exact PrivEntry.of_not_writable rfl
  protect i start len permission heq l hl a ha v hmask hav h x hpart hperm := by
    subst heq
    unfold protectAttr
    split
    · exact PrivEntry.of_not_writable rfl
    · intro hshared
      rw [hpart.shared] at hshared
      rw [hperm]
      dsimp only
      cases hc : (w.ptes i v).attr.copyOnWrite with
      | true =>
        rw [if_pos rfl]
        exact ⟨(h hshared).1, fun _ hc' => nomatch hc'⟩
      | false =>
        rw [if_neg Bool.false_ne_true]
        exact ⟨fun hw => hiso hw l hl a ha hshared v hav hmask hc, fun _ _ hw => hw⟩

theorem privInv_visitSpec {pick : Pick} (hpick : Pick.Lawful pick) (backend : Backend) (i : ℕ)
    (write : Bool) : VisitSpec (fun _ => True) pick backend i write PrivInv
      (fun s a v t => Served s backend a t (v * PAGE_SIZE - a.range.start)) where
  handle harea hs hserved := ensures_of_ok fun _ hrun => hs.handle hpick harea hserved hrun
  data p f hs := ⟨hs.referenced.setData p f, hs.entries⟩
  unmapped hmapped _ hm := absurd (hmapped.symm.trans hm) Bool.false_ne_true
  mono hgrow hserved hc hm m hfile := by
    obtain ⟨hend, hfails⟩ := hserved hc hm m hfile
    exact ⟨hend, fun hnone => hfails (hgrow hnone)⟩
  notManaged := trivial

theorem privInv_step {w : World} {op : Op} (h : PrivInv w) (hop : Contract w op)
    (hiso : Isolates w op) : Ensures (fun _ => True) PrivInv (w.run op) := by
  have hareaOp : op.onAreas = true → Ensures (fun _ => True) PrivInv (w.run op) := by
    refine fun hareas => ensures_of_ok fun w' hrun => ?_
    have hinv := fun i l hl => (h.entries i l hl).1
    have hentries := h.entries.onAreas hop hareas (privEntry_rules hiso) hrun
    refine ⟨h.referenced.onAreas hinv hop hareas hrun, ?_⟩
    unfold Cached at *
    rw [(run_sameContents hinv hop hareas hrun).caches]
    exact hentries
  cases op with
  | userFault pick backend i addr access =>
    exact ensures_userFault h fun l area hl harea _ => ensures_of_ok fun x hhandle =>
      h.handle hop (.of_overlappingAddr (h.entries i l hl).1.areas hl harea)
        (hiso l hl area harea) hhandle
  | kernelFault pick backend i addr write =>
    exact ensures_kernelFault h fun l area hl harea => ensures_of_ok fun x hhandle =>
      h.handle hop (.of_overlappingAddr (h.entries i l hl).1.areas hl harea)
        (hiso l hl area harea) hhandle
  | readBytes pick backend i fuel start len buffer =>
    exact ensures_readBytes h (privInv_visitSpec hop backend i false)
      fun l hl => ⟨(h.entries i l hl).1.areas, hiso l hl⟩
  | accessMut pick backend func i fuel start len =>
    exact ensures_accessMut h (privInv_visitSpec hop backend i true)
      fun l hl => ⟨(h.entries i l hl).1.areas, hiso l hl⟩
  | store i addr byte => exact ⟨h.referenced.setData _ _, h.entries⟩
  | _ => exact hareaOp rfl

theorem privInv_of_reachable {w : World} (h : (machine Isolates).Reachable w) : PrivInv w := by
  refine h.invariant ?_ ?_
  · intro s hs
    refine ⟨hs.referenced, fun i l hl => ?_⟩
    rw [hs.lists i] at hl
    cases hl
  · rintro s t hs ⟨op, ⟨hop, hiso⟩, hrun⟩
    exact (privInv_step hs hop hiso).of_ok hrun

theorem PrivInv.privateOk {w : World} (h : PrivInv w) : PrivateOk w :=
  fun i l hl a ha hshared v hv => ((h.entries i l hl).2 a ha v hv hshared).1

def PrivateStore (w : World) (i addr : ℕ) : Prop :=
  storable (w.ptes i (addr / PAGE_SIZE)) = true ∧ ∃ l, w.lists i = some l ∧
    ∃ a ∈ l.areas.elems, a.isShared = false ∧ a.range.Contains addr

/-- A sequence of stores of user programs. -/
def stores (w : World) (ss : List (ℕ × ℕ × UInt8)) : World :=
  ss.foldl (fun w s => w.store s.1 s.2.1 s.2.2) w

theorem stores_data {p : PFN} : ∀ (ss : List (ℕ × ℕ × UInt8)) {w : World},
    (∀ s ∈ ss, (w.ptes s.1 (s.2.1 / PAGE_SIZE)).pfn ≠ p) →
      ((w.stores ss).frames p).data = (w.frames p).data := by
  intro ss
  induction ss with
  | nil => exact fun _ => rfl
  | cons s ss ih =>
    intro w hss
    have hrest := ih (w := w.store s.1 s.2.1 s.2.2) fun t ht => hss t (List.mem_cons_of_mem s ht)
    refine hrest.trans ?_
    unfold store updateFrame
    dsimp only
    rw [update_of_ne (hss s List.mem_cons_self).symm]

/-- While all steps isolate private mappings, no user store through a private area changes a page of
a page cache. -/
theorem privateOk_of_reachable {w : World} (h : (machine Isolates).Reachable w) :
    PrivateOk w ∧ ∀ ss : List (ℕ × ℕ × UInt8), (∀ s ∈ ss, PrivateStore w s.1 s.2.1) →
      ∀ p, w.Cached p → ((w.stores ss).frames p).data = (w.frames p).data := by
  have hinv := privInv_of_reachable h
  refine ⟨hinv.privateOk, fun ss hss p hp => stores_data ss fun s hs heq => ?_⟩
  obtain ⟨hstorable, l, hl, a, ha, hshared, haddr⟩ := hss s hs
  have hpage := ((hinv.entries _ l hl).1.areas.ok a ha).contains_page haddr
  have hwrite : (w.ptes s.1 (s.2.1 / PAGE_SIZE)).attr.write = true := by
    unfold storable at hstorable
    simp only [Bool.and_eq_true] at hstorable
    exact hstorable.1.2
  refine hinv.privateOk _ l hl a ha hshared _ hpage hwrite ?_
  rw [heq]
  exact hp

theorem privateOk_after_fault : ∃ w, (machine Isolates).Reachable w ∧ w.Cached 2 ∧
    PrivateOk w ∧ ∀ ss : List (ℕ × ℕ × UInt8), (∀ s ∈ ss, PrivateStore w s.1 s.2.1) →
      ∀ p, w.Cached p → ((w.stores ss).frames p).data = (w.frames p).data := by
  have h0 : (machine Isolates).Reachable boot := .of_init initial_boot
  have h3 := h0.after [.new 0,
    .mmapFixed 0 0x10000 0x1000 (.file ⟨7, 0, 0x1000, rfl⟩) ⟨true, false, false⟩ false,
    .userFault twoFrames (fun _ _ => .page fun _ => 0) 0 0x10000 .read]
    ⟨⟨rfl, trivial⟩, ⟨⟨by decide, by decide, by decide, by decide⟩, trivial⟩,
     ⟨lawful_twoFrames, fun _ _ _ _ _ _ _ _ => ⟨fun heq => PageIo.noConfusion heq, fun _ _ heq => PageIo.noConfusion heq⟩⟩,
     trivial⟩
  exact ⟨_, h3, ⟨7, 0, rfl⟩, privateOk_of_reachable h3⟩

/-- After a read fault in a private read-only mapping, `protect` makes the page of the cache
writable. -/
theorem privateOk_violated : ∃ w, (machine fun _ _ => True).Reachable w ∧ ¬ PrivateOk w ∧
    PrivateStore w 0 0x10000 ∧ w.Cached 2 ∧
    ((w.store 0 0x10000 1).frames 2).data 0 ≠ (w.frames 2).data 0 := by
  have h0 : (machine fun _ _ => True).Reachable boot := .of_init initial_boot
  have h4 := h0.after [.new 0,
    .mmapFixed 0 0x10000 0x1000 (.file ⟨7, 0, 0x1000, rfl⟩) ⟨true, false, false⟩ false,
    .userFault twoFrames (fun _ _ => .page fun _ => 0) 0 0x10000 .read,
    .protect 0 0x10000 0x1000 ⟨true, true, false⟩]
    ⟨⟨rfl, trivial⟩, ⟨⟨by decide, by decide, by decide, by decide⟩, trivial⟩,
     ⟨lawful_twoFrames, trivial⟩, ⟨⟨by decide, by decide, by decide⟩, trivial⟩, trivial⟩
  refine ⟨_, h4, fun hok => ?_, ⟨rfl, _, rfl, _, List.mem_cons_self, rfl, by decide⟩, ⟨7, 0, rfl⟩,
    by decide⟩
  exact hok 0 _ rfl _ List.mem_cons_self rfl 16 (by decide) rfl ⟨7, 0, rfl⟩

end World

end Dlutos
