import Dlutos.AddressSpace.PageDecoding

/-!
# No page is leaked and none is freed twice

The reference count of a frame should be the number of its owners: page-table entries, page caches,
`EMPTY_PAGE`, and handles elsewhere in the kernel (`handles`).  Several steps lose references:
`take_page_to_free` skips entries that are not present, so `unmap` and `drop` leak their pages;
`handle_mmap` overwrites the frame number without dropping the old page; and `drop` decrements the
counts of shared pages without giving them back.  `KeepsBalance` excludes these steps.
-/

namespace Dlutos

open Addr AddrRange ExceptLoop RefCount Transition Function

/-! ### Settled frames -/

/-- The frame was given back once for each time it was handed out, except for the last time if it
is in use. -/
def PhysFrame.Settled (f : PhysFrame) : Prop :=
  f.allocated = f.returned + if f.refcount = 0 then 0 else 1

theorem PhysFrame.Settled.allocate {f : PhysFrame} (h : f.Settled) (hfree : f.refcount = 0)
    (data : PageData) : (f.allocate data).Settled := by
  unfold Settled PhysFrame.allocate at *
  rw [if_pos hfree] at h
  rw [if_neg (Nat.one_ne_zero)]
  dsimp only
  omega

theorem PhysFrame.Settled.release {f : PhysFrame} (h : f.Settled) (hused : f.refcount ≠ 0) :
    f.release.Settled := by
  unfold Settled PhysFrame.release at *
  rw [if_neg hused] at h
  dsimp only
  by_cases hone : f.refcount = 1
  · rw [if_pos hone, if_pos (by omega)]
    omega
  · rw [if_neg hone, if_neg (by omega)]
    exact h

theorem PhysFrame.Settled.setCount {f : PhysFrame} (h : f.Settled) (hused : f.refcount ≠ 0) {n : ℕ}
    (hn : n ≠ 0) : ({ f with refcount := n } : PhysFrame).Settled := by
  unfold Settled at *
  rw [if_neg hused] at h
  rw [if_neg hn]
  exact h

namespace World

/-! ### The balance -/

/-- The entry is null, or `take_page_to_free` gives its page back. -/
def Releasable (t : PTE) : Prop :=
  t.pfn = 0 ∨ t.attr.asPageAttr = some t.attr ∧ ownsPage t.attr = true

/-- Somebody else than the address space owns the frame. -/
def HeldElsewhere (handles : PFN → ℕ) (w : World) (i : ℕ) (p : PFN) : Prop :=
  0 < handles p ∨ ∃ r, w.target w.refs r = some p ∧ ∀ v, r ≠ .pte i v

/-- The steps that lose no reference. -/
def KeepsBalance (handles : PFN → ℕ) (w : World) : Op → Prop
  | .unmap i start len => ∀ l, w.lists i = some l → ∀ a ∈ l.areas.elems, ∀ v,
    a.range.Contains (v * PAGE_SIZE) → (maskOf start len).Contains (v * PAGE_SIZE) →
      Releasable (w.ptes i v)
  | .drop i => ∀ l, w.lists i = some l → ∀ a ∈ l.areas.elems, ∀ v,
    a.range.Contains (v * PAGE_SIZE) → Releasable (w.ptes i v) ∧
      (a.isShared = true → (w.ptes i v).pfn ≠ 0 → HeldElsewhere handles w i (w.ptes i v).pfn)
  | .userFault _ _ i addr _ => (w.ptes i (addr / PAGE_SIZE)).attr.mapped = false
  | .kernelFault _ _ i addr _ => (w.ptes i (addr / PAGE_SIZE)).attr.mapped = false
  | .readBytes _ _ i _ start len _ => ∀ l, w.lists i = some l → ∀ a v, Visits l start len a v →
    (w.ptes i v).attr.mapped = false
  | .accessMut _ _ _ i _ start len => ∀ l, w.lists i = some l → ∀ a v, Visits l start len a v →
    (w.ptes i v).attr.mapped = false
  | _ => True

/-- The counts are exact and the frames are settled. -/
structure Balanced (handles : PFN → ℕ) (w : World) : Prop where
  exact : Exact (w.target w.refs) handles w.count
  nonzero : ∀ r, w.target w.refs r ≠ some 0
  settled : ∀ p, (w.frames p).Settled
  backed : ∀ i v, (w.ptes i v).attr.present = true → (w.ptes i v).pfn ≠ 0

/-- Every panic but that of a page that is dropped while nobody owns it. -/
def NoDoubleFree (e : MMPanic) : Prop := e ≠ .refcountZero

variable {handles : PFN → ℕ} {w w' : World} {i j v : ℕ} {p : PFN} {l : MMListLocked}
  {f : PhysFrame → PhysFrame}

theorem settled_updateFrame (h : ∀ q, (w.frames q).Settled) (hf : (f (w.frames p)).Settled)
    (q : PFN) : ((w.updateFrame p f).frames q).Settled := by
  unfold updateFrame
  dsimp only
  by_cases hq : q = p
  · rw [hq, update_self]
    exact hf
  · rw [update_of_ne hq]
    exact h q

/-! ### Single references -/

theorem target_refs_setPte (w : World) (i v : ℕ) (t : PTE) :
    (w.setPte i v t).target (w.setPte i v t).refs =
      update (w.target w.refs) (.pte i v) (refOf t.pfn) := by
  rw [refs_setPte, show (w.setPte i v t).target = w.target from rfl, target_setRef]

theorem target_pte (w : World) (i v : ℕ) :
    w.target w.refs (.pte i v) = refOf (w.ptes i v).pfn := rfl

theorem target_congr {b : World} (hpfn : ∀ k u, (b.ptes k u).pfn = (w.ptes k u).pfn)
    (hcaches : b.caches = w.caches) (hempty : b.emptyPage = w.emptyPage) :
    b.target b.refs = w.target w.refs := by
  funext r
  cases r with
  | pte k u => rw [target_pte, target_pte, hpfn]
  | cache file index => exact congrFun (congrFun hcaches file) index
  | empty => exact congrArg some hempty

section

variable (h : Balanced handles w)
include h

theorem Balanced.setPte {b : World} (hptes : b.ptes = w.ptes)
    (hcaches : b.caches = w.caches) (hempty : b.emptyPage = w.emptyPage) {t : PTE}
    (hexact : Exact (update (w.target w.refs) (.pte i v) (refOf t.pfn)) handles b.count)
    (hsettled : ∀ q, (b.frames q).Settled) (hbacked : t.attr.present = true → t.pfn ≠ 0) :
    Balanced handles (b.setPte i v t) := by
  have htarget := target_congr (w := w) (b := b) (fun k u => by rw [hptes]) hcaches hempty
  refine ⟨?_, fun r => ?_, hsettled, fun k u => ?_⟩
  · rw [target_refs_setPte, htarget]
    exact hexact
  · rw [target_refs_setPte, htarget]
    by_cases hr : r = .pte i v
    · rw [hr, update_self]
      exact refOf_ne_zero _
    · rw [update_of_ne hr]
      exact h.nonzero r
  · by_cases hu : k = i ∧ u = v
    · rw [hu.1, hu.2, setPte_ptes_self]
      exact hbacked
    · rw [setPte_ptes_of_ne hu, hptes]
      exact h.backed k u

theorem Balanced.setAttr {a : PageAttribute} (hattr : a.present = true → (w.ptes i v).pfn ≠ 0) :
    Balanced handles (w.setPte i v ⟨(w.ptes i v).pfn, a⟩) := by
  refine h.setPte rfl rfl rfl ?_ h.settled hattr
  rw [show refOf (w.ptes i v).pfn = w.target w.refs (.pte i v) from rfl, update_eq_self]
  exact h.exact

theorem Balanced.in_use {r : Place} (hr : w.target w.refs r = some p) :
    (w.frames p).refcount ≠ 0 := (h.exact.pos hr).ne'

theorem Balanced.point (hnull : (w.ptes i v).pfn = 0) (hp : p ≠ 0)
    (hused : (w.frames p).refcount ≠ 0) (attr : PageAttribute) :
    Balanced handles ((w.cloneRef p).setPte i v ⟨p, attr⟩) := by
  refine h.setPte (b := w.cloneRef p) rfl rfl rfl ?_ ?_ fun _ => hp
  · rw [refOf_eq hp, count_cloneRef]
    refine h.exact.acquire ?_ p
    rw [target_pte, hnull]
    rfl
  · exact settled_updateFrame h.settled ((h.settled p).setCount hused (Nat.succ_ne_zero _))

theorem Balanced.clearNull (hnull : (w.ptes i v).pfn = 0) :
    Balanced handles (w.setPte i v {}) := by
  have hattr := h.setAttr (i := i) (v := v) (a := {}) fun hp => nomatch hp
  rwa [hnull] at hattr

theorem Balanced.drop (hp : (w.ptes i v).pfn ≠ 0) (hcount : ∀ x, (f x).refcount = x.refcount - 1)
    (hf : (f (w.frames (w.ptes i v).pfn)).Settled) :
    Balanced handles ((w.setPte i v {}).updateFrame (w.ptes i v).pfn f) := by
  have hset := h.setPte (b := w.updateFrame (w.ptes i v).pfn f) (i := i) (v := v) (t := {})
    rfl rfl rfl ?_ (settled_updateFrame h.settled hf) fun hp => nomatch hp
  · exact hset
  · rw [count_updateFrame, hcount]
    exact h.exact.release (refOf_eq hp)

theorem Balanced.congr (hframes : w'.frames = w.frames) (hcaches : w'.caches = w.caches)
    (hempty : w'.emptyPage = w.emptyPage) (hpfn : ∀ k u, (w'.ptes k u).pfn = (w.ptes k u).pfn)
    (hpresent : ∀ k u, (w'.ptes k u).attr.present = true → (w.ptes k u).attr.present = true) :
    Balanced handles w' := by
  have htarget := target_congr hpfn hcaches hempty
  refine ⟨?_, ?_, ?_, fun k u hp => ?_⟩
  · rw [htarget]
    unfold count
    rw [hframes]
    exact h.exact
  · rw [htarget]
    exact h.nonzero
  · rw [hframes]
    exact h.settled
  · rw [hpfn]
    exact h.backed k u (hpresent k u hp)

theorem Balanced.setList (l : MMListLocked) :
    Balanced handles (w.setList i l) :=
  h.congr rfl rfl rfl (fun _ _ => rfl) fun _ _ hp => hp

theorem Balanced.clearTable (hnull : ∀ u, (w.ptes i u).pfn = 0) (lists : ℕ → Option MMListLocked) :
    Balanced handles { w with lists := lists, ptes := update w.ptes i fun _ => {} } := by
  refine h.congr rfl rfl rfl (fun k u => ?_) fun k u hp => ?_
  · dsimp only
    by_cases hk : k = i
    · rw [hk, update_self, hnull]
    · rw [update_of_ne hk]
  · dsimp only at hp
    by_cases hk : k = i
    · rw [hk, update_self] at hp
      cases hp
    · rwa [update_of_ne hk] at hp

theorem Balanced.emptyPage_ne : w.emptyPage ≠ 0 :=
  fun hz => h.nonzero .empty (congrArg some hz)

end

/-! ### Loops over entries -/

theorem Balanced.populate (h : Balanced handles w) (range : AddrRange) (mapping : Mapping)
    (permission : Permission) (hnull : ∀ v ∈ pagesOf range, (w.ptes i v).pfn = 0) :
    Balanced handles (w.populate i range mapping permission) := by
  have hloop : ∀ (attr : PageAttribute) (pages : List ℕ) {w : World}, pages.Nodup →
      Balanced handles w → (∀ v ∈ pages, (w.ptes i v).pfn = 0) →
      Balanced handles (pages.foldl
        (fun w v => (w.cloneRef w.emptyPage).setPte i v ⟨w.emptyPage, attr⟩) w) := by
    intro attr pages
    induction pages with
    | nil => exact fun _ hw _ => hw
    | cons v pages ih =>
      intro w hnodup hw hnull
      obtain ⟨hv, hnodup⟩ := List.nodup_cons.mp hnodup
      refine ih hnodup (hw.point (hnull v List.mem_cons_self) hw.emptyPage_ne
        (hw.in_use (r := .empty) rfl) attr) fun u hu => ?_
      have huv : u ≠ v := fun huv => hv (huv ▸ hu)
      rw [setPte_ptes_of_page_ne huv]
      exact hnull u (List.mem_cons_of_mem v hu)
  unfold World.populate
  cases mapping with
  | anonymous => exact hloop _ _ (nodup_pagesOf range) h hnull
  | file m => exact hloop _ _ (nodup_pagesOf range) h hnull

theorem Balanced.takePage (h : Balanced handles w) (hrel : Releasable (w.ptes i v)) :
    Ensures NoDoubleFree (Balanced handles) (takePage i w v) := by
  unfold World.takePage
  dsimp only
  by_cases hp : (w.ptes i v).pfn = 0
  · have hclear := h.clearNull hp
    split
    · exact hclear
    · split
      · rw [hp]
        exact fun hz => nomatch hz
      · exact hclear
  · obtain ⟨hattr, howns⟩ := hrel.resolve_left hp
    rw [hattr]
    dsimp only
    rw [if_pos howns]
    refine Ensures.bind (ensures_assertOr fun _ hz => nomatch hz) fun _ _ => ?_
    have hused : (w.frames (w.ptes i v).pfn).refcount ≠ 0 := h.in_use (r := .pte i v) (refOf_eq hp)
    unfold dropRef
    refine Ensures.bind (ensures_assertOr fun hz => absurd hused hz) fun _ _ => ?_
    exact h.drop hp (fun _ => rfl) ((h.settled _).release hused)

theorem Balanced.takeShared (h : Balanced handles w) (hrel : Releasable (w.ptes i v))
    (hheld : (w.ptes i v).pfn ≠ 0 → HeldElsewhere handles w i (w.ptes i v).pfn) :
    Ensures NoDoubleFree (Balanced handles) (takeShared i w v) := by
  unfold World.takeShared
  dsimp only
  by_cases hp : (w.ptes i v).pfn = 0
  · split
    · exact h.clearNull hp
    · rename_i attr hattr
      obtain rfl := asPageAttr_eq_some hattr
      split
      · rename_i howns
        -- a present entry has a frame
        unfold ownsPage at howns
        exact absurd hp (h.backed i v ((Bool.and_eq_true _ _).mp howns).1)
      · exact h.clearNull hp
  · obtain ⟨hattr, howns⟩ := hrel.resolve_left hp
    rw [hattr]
    dsimp only
    rw [if_pos howns]
    have htarget : w.target w.refs (.pte i v) = some (w.ptes i v).pfn := refOf_eq hp
    have htwo : 2 ≤ w.count (w.ptes i v).pfn := by
      refine h.exact.two_le htarget ((hheld hp).imp_right ?_)
      rintro ⟨r, hr, hne⟩
      exact ⟨r, hne v, hr⟩
    unfold count at htwo
    exact h.drop hp (fun _ => rfl) ((h.settled _).setCount (by omega) (by omega))

/-- Loops that clear entries meet every entry as it was in the beginning, or null. -/
theorem Balanced.takes {α : Type} {f : World → α → Except MMPanic World} {g : α → ℕ}
    {items : List α} (h : Balanced handles w) (htouch : ∀ {w w' x}, f w x = .ok w' →
      Touches i (· = g x) w w' ∧ w'.ptes i (g x) = {})
    (hf : ∀ b, ∀ x ∈ items, Balanced handles b → Touches i (fun _ => True) w b →
      b.ptes i (g x) = w.ptes i (g x) ∨ b.ptes i (g x) = {} →
      Ensures NoDoubleFree (Balanced handles) (f b x)) :
    Ensures NoDoubleFree (Balanced handles) (items.foldlM f w) := by
  refine (ensures_foldlM (I := fun done b => Balanced handles b ∧ done.foldlM f w = .ok b) _ ?_
    ⟨h, rfl⟩).mono fun b hb => hb.1
  rintro done x rest b hitems ⟨hb, hdone⟩
  obtain ⟨ht, hset⟩ := foldlM_entries (f := f) (e := fun _ => {}) (fun _ => rfl) htouch hdone
  refine (hf b x (by rw [hitems]; simp) hb (ht.mono fun _ _ => trivial) ?_).with_ok
    fun b' hrun => ?_
  · by_cases hx : g x ∈ done.map g
    · exact Or.inr (hset _ hx)
    · exact Or.inl (ht.ptes i _ fun hne => hx hne.2)
  · rw [List.foldlM_append, hdone, ok_bind, List.foldlM_cons, hrun]
    rfl

theorem releasable_null : Releasable {} := Or.inl rfl

theorem HeldElsewhere.touches (h : HeldElsewhere handles w i p)
    (htouch : Touches i (fun _ => True) w w') : HeldElsewhere handles w' i p := by
  refine h.imp_right ?_
  rintro ⟨r, hr, hne⟩
  refine ⟨r, ?_, hne⟩
  cases r with
  | pte k u =>
    have hki : k ≠ i := fun hki => hne u (by rw [hki])
    rw [target_pte, htouch.ptes k u fun hk => hki hk.1]
    exact hr
  | cache file index =>
    exact (congrFun (congrFun htouch.caches file) index).trans hr
  | empty => exact (congrArg some htouch.emptyPage).trans hr

section

variable (h : Balanced handles w)
include h

theorem Balanced.dropList
    (hout : ∀ u, (∀ a ∈ l.areas.elems, u ∉ pagesOf a.range) → (w.ptes i u).pfn = 0)
    (hrel : ∀ a ∈ l.areas.elems, ∀ v ∈ pagesOf a.range, Releasable (w.ptes i v) ∧
      (a.isShared = true → (w.ptes i v).pfn ≠ 0 → HeldElsewhere handles w i (w.ptes i v).pfn)) :
    Ensures NoDoubleFree (Balanced handles) (w.dropList i l) := by
  unfold World.dropList
  rw [foldlM_areas dropArea_eq]
  refine Ensures.bind ((h.takes (g := Prod.snd) dropPage_touches fun b x hx hb ht hkept =>
    ?_).with_ok fun b hrun => foldlM_entries (g := Prod.snd) (e := fun _ => {}) (fun _ => rfl)
      dropPage_touches hrun) ?_
  · obtain ⟨a, ha, v, hv, rfl⟩ := mem_sharedPages.mp hx
    have hrel' : Releasable (b.ptes i v) ∧ (a.isShared = true → (b.ptes i v).pfn ≠ 0 →
        HeldElsewhere handles b i (b.ptes i v).pfn) := by
      rcases hkept with hbv | hbv
      · rw [hbv]
        exact ⟨(hrel a ha v hv).1, fun hs hp => ((hrel a ha v hv).2 hs hp).touches ht⟩
      · rw [hbv]
        exact ⟨releasable_null, fun _ hp => absurd rfl hp⟩
    cases hs : a.isShared with
    | true => exact hb.takeShared hrel'.1 (hrel'.2 hs)
    | false => exact hb.takePage hrel'.1
  · rintro b ⟨hb, ht, hset⟩
    refine hb.clearTable (fun u => ?_) _
    by_cases hu : u ∈ (sharedPages l.areas.elems).map Prod.snd
    · rw [hset u hu]
    · rw [ht.ptes i u fun hne => hu hne.2]
      refine hout u fun a ha hua => hu (List.mem_map.mpr ⟨(a.isShared, u), ?_, rfl⟩)
      exact mem_sharedPages.mpr ⟨a, ha, u, hua, rfl⟩

theorem Balanced.protectPte (permission : Permission) :
    Ensures NoDoubleFree (Balanced handles) (protectPte i permission w v) := by
  unfold World.protectPte
  dsimp only
  split
  · exact fun hz => nomatch hz
  · rename_i attr hattr
    obtain rfl := asPageAttr_eq_some hattr
    refine h.setAttr fun hp => h.backed i v ?_
    unfold protectAttr at hp
    split at hp
    · cases hp
    · exact hp

theorem Balanced.setCopyOnWrite (hij : i ≠ j)
    (hnull : (w.ptes j v).pfn = 0) (hrun : setCopyOnWrite i j w v = .ok w') :
    Balanced handles w' := by
  unfold World.setCopyOnWrite at hrun
  dsimp only at hrun
  split at hrun
  · cases hrun
  · rename_i attr hattr
    obtain rfl := asPageAttr_eq_some hattr
    split at hrun
    · cases hrun
      exact h
    · obtain ⟨_, hraw, hrest⟩ := bind_eq_ok.mp hrun
      cases hrest
      have hp := of_assertOr hraw
      have hpoint := h.point (i := j) (v := v) hnull hp (h.in_use (r := .pte i v) (refOf_eq hp))
        { (w.ptes i v).attr with
          write := false, dirty := false, copyOnWrite := true, accessed := false }
      have hattr := hpoint.setAttr (i := i) (v := v) (a := { (w.ptes i v).attr with
        write := false, dirty := false, copyOnWrite := true })
      rw [setPte_ptes_of_table_ne hij] at hattr
      exact hattr fun _ => hp

theorem Balanced.setCopied (hnull : (w.ptes j v).pfn = 0)
    (hrun : setCopied i j w v = .ok w') : Balanced handles w' := by
  unfold World.setCopied at hrun
  obtain ⟨_, hraw, hrest⟩ := bind_eq_ok.mp hrun
  cases hrest
  have hp := of_assertOr hraw
  exact h.point hnull hp (h.in_use (r := .pte i v) (refOf_eq hp)) _

theorem Balanced.newCloned (hinv : LockedInv l) (hij : i ≠ j)
    (hnull : ∀ u, (w.ptes j u).pfn = 0) (hrun : w.newCloned i j l = .ok w') :
    Balanced handles w' := by
  unfold World.newCloned at hrun
  obtain ⟨w1, hloop, hrest⟩ := bind_eq_ok.mp hrun
  cases hrest
  have hclear := h.clearTable hnull w.lists
  refine Balanced.setList (cloneAreas_invariant hinv.areas hij (fun b b' s v hb hchild hstep => ?_)
    hclear (fun v => congrFun (update_self j _ w.ptes) v) hloop).1 l
  have hnull : (b.ptes j v).pfn = 0 := by rw [hchild]
  cases s with
  | true => exact hb.setCopied hnull hstep
  | false => exact hb.setCopyOnWrite hij hnull hstep

end

theorem newCloned_noDoubleFree : Ensures NoDoubleFree (fun _ => True) (w.newCloned i j l) := by
  have hraw : ∀ p, Ensures NoDoubleFree (fun _ => True) (fromRaw p) := fun p =>
    (ensures_assertOr fun _ hz => nomatch hz).mono fun _ _ => trivial
  refine ensures_newCloned (I := fun _ => True) (fun _ _ _ v _ c _ => ?_)
    (fun _ _ _ v _ c _ => ?_) trivial fun _ _ => trivial
  · unfold World.setCopyOnWrite
    dsimp only
    split
    · exact fun hz => nomatch hz
    · split
      · trivial
      · exact (hraw _).bind fun _ _ => trivial
  · unfold World.setCopied
    exact (hraw _).bind fun _ _ => trivial

/-! ### Page faults -/

section Fault

variable {pick : Pick} {backend : Backend} {area : MMArea} {offset : ℕ} {write : Bool}

theorem Balanced.replace (h : Balanced handles w) (hold : (w.ptes i v).pfn ≠ 0)
    (hfree : (w.frames p).refcount = 0) (hp : p ≠ 0) (data : PageData) (attr : PageAttribute) :
    Balanced handles (((w.updateFrame p fun f => f.allocate data).releaseRef
      (w.ptes i v).pfn).setPte i v ⟨p, attr⟩) := by
  have htarget : w.target w.refs (.pte i v) = some (w.ptes i v).pfn := refOf_eq hold
  have hused := h.in_use htarget
  have hne : (w.ptes i v).pfn ≠ p := by
    rintro heq
    rw [heq] at hused
    exact hused hfree
  have hframe : (w.updateFrame p fun f => f.allocate data).frames (w.ptes i v).pfn =
      w.frames (w.ptes i v).pfn := update_of_ne hne _ _
  refine h.setPte (b := (w.updateFrame p fun f => f.allocate data).releaseRef (w.ptes i v).pfn)
    rfl rfl rfl ?_ ?_ fun _ => hp
  · have hexact := (h.exact.release htarget).acquire (update_self _ _ _) p
    rw [update_idem, update_of_ne hne.symm] at hexact
    rw [refOf_eq hp, count_releaseRef, count_allocate, update_of_ne hne,
      update_comm hne.symm]
    have hzero : w.count p + 1 = 1 := congrArg (· + 1) hfree
    rw [hzero] at hexact
    exact hexact
  · refine settled_updateFrame (settled_updateFrame h.settled
      ((h.settled p).allocate hfree data)) ?_
    rw [hframe]
    exact (h.settled _).release hused

theorem dropRef_noDoubleFree (hused : (w.frames p).refcount ≠ 0) :
    Ensures NoDoubleFree (fun _ => True) (w.dropRef p) := by
  unfold dropRef
  exact Ensures.bind (ensures_assertOr fun hz => absurd hused hz) fun _ _ => trivial

theorem handleCow_noDoubleFree {pfn : PFN} {attr : PageAttribute}
    (hused : pfn ≠ 0 → (w.frames pfn).refcount ≠ 0) :
    Ensures NoDoubleFree (fun x => x.2.1.mapped = attr.mapped)
      (w.handleCow pick area pfn attr) := by
  unfold handleCow fromRaw
  refine Ensures.bind (ensures_assertOr fun _ hz => nomatch hz) fun _ hp => ?_
  split
  · exact rfl
  · refine Ensures.bind (P := fun x => (x.2.frames pfn).refcount ≠ 0) ?_ ?_
    · unfold allocPage
      split
      · exact fun hz => nomatch hz
      · rename_i p _
        change (update w.frames p _ pfn).refcount ≠ 0
        by_cases hpp : pfn = p
        · rw [hpp, update_self]
          exact Nat.one_ne_zero
        · rw [update_of_ne hpp]
          exact hused hp
    · rintro ⟨p, w1⟩ hw1
      exact (dropRef_noDoubleFree hw1).bind fun _ _ => rfl

theorem Balanced.handle (h : Balanced handles w) (hpick : Pick.Lawful pick)
    (hmapped : (w.ptes i v).attr.mapped = false) :
    Ensures NoDoubleFree (fun x => Balanced handles x.2)
      (w.handle pick backend area i v offset write) := by
  refine ensures_of_forall (fun e he => ?_) ?_
  · unfold World.handle at he
    split at he
    · cases he
      exact fun hz => nomatch hz
    rename_i attr hattr
    obtain rfl := asPageAttr_eq_some hattr
    refine Ensures.of_error (P := fun _ => True) (Ensures.bind (P := fun _ => True) ?_ ?_) he
    · unfold resolve
      refine Ensures.bind (P := fun x => x.2.1.mapped = false) ?_ ?_
      · split
        · refine (handleCow_noDoubleFree fun hp => ?_).mono fun x hx => hx.trans hmapped
          exact h.in_use (r := .pte i v) (refOf_eq hp)
        · exact hmapped
      · rintro ⟨pfn1, attr1, w1⟩ hattr1
        dsimp only at hattr1 ⊢
        rw [hattr1, if_neg Bool.false_ne_true]
        trivial
    · rintro ⟨err | t, w1⟩ -
      · trivial
      · trivial
  · rintro ⟨r, w'⟩ hrun
    obtain ⟨r1, w1, hres, hr⟩ := handle_cases hrun
    obtain ⟨pfn1, attr1, w2, hcow, hmap⟩ := resolve_cases hres
    have hkeeps : attr1.mapped = (w.ptes i v).attr.mapped := by
      rcases hcow with ⟨-, hcow⟩ | ⟨-, -, rfl, -⟩
      · obtain ⟨-, ⟨-, -, -, rfl⟩ | ⟨-, -, -, rfl⟩⟩ := handleCow_cases hcow <;> rfl
      · rfl
    obtain ⟨-, rfl, rfl⟩ | ⟨hm, -⟩ := hmap
    · obtain ⟨err, herr, -⟩ | ⟨pfn, attr, heq, -, rfl⟩ := hr
      · cases herr
      cases heq
      rcases hcow with ⟨-, hcow⟩ | ⟨-, rfl, rfl, rfl⟩
      · obtain ⟨hp, ⟨-, rfl, rfl, rfl⟩ | ⟨-, hpicked, rfl, rfl⟩⟩ := handleCow_cases hcow
        · exact h.setAttr fun _ => hp
        · obtain ⟨hfree, hpfn⟩ := hpick _ _ hpicked
          exact h.replace hp hfree hpfn _ _
      · exact h.setAttr (h.backed i v)
    · exact absurd ((hkeeps.trans hmapped).symm.trans hm) Bool.false_ne_true

end Fault

/-! ### Whole calls -/

/-- An entry outside of all areas that refers to no frame. -/
structure Blank (t : PTE) : Prop extends Stray t where
  pfn : t.pfn = 0

theorem blank_null : Blank {} := ⟨stray_null, rfl⟩

theorem Blank.touched {t : PTE} (h : Blank t) (write : Bool) :
    Blank ⟨t.pfn, World.touched t.attr write⟩ := ⟨h.toStray.touched write, h.pfn⟩

/-- The invariant: the counts are exact, the areas are sorted and all frames belong to areas. -/
structure Accounts (handles : PFN → ℕ) (w : World) : Prop where
  balanced : Balanced handles w
  areas : ∀ i l, w.lists i = some l → LockedInv l
  tidy : Tidy Blank w

section Calls

variable {op : Op} {pick : Pick} {backend : Backend} {area : MMArea} {offset : ℕ} {write : Bool}

theorem Accounts.blank (h : Accounts handles w) (hi : w.lists i = none) (u : ℕ) :
    (w.ptes i u).pfn = 0 := by
  rcases h.tidy i u with hblank | ⟨l, hl, -⟩
  · exact hblank.pfn
  · rw [hi] at hl
    cases hl

theorem Accounts.outside (h : Accounts handles w) (hl : w.lists i = some l) {u : ℕ}
    (hu : ∀ a ∈ l.areas.elems, ¬ a.range.Contains (u * PAGE_SIZE)) : (w.ptes i u).pfn = 0 := by
  rcases h.tidy i u with hblank | ⟨m, hm, a, ha, hau⟩
  · exact hblank.pfn
  · rw [hl] at hm
    cases hm
    exact absurd hau (hu a ha)

theorem areas_step (h : ∀ i l, w.lists i = some l → LockedInv l) (hop : Contract w op)
    (hareas : op.onAreas = true) (hrun : w.run op = .ok w') :
    ∀ i l, w'.lists i = some l → LockedInv l := by
  have hentries : Entrywise (fun _ _ _ _ => True) w := fun i l hl =>
    ⟨h i l hl, fun _ _ _ _ => trivial⟩
  have hentries' := hentries.onAreas hop hareas ⟨fun _ _ _ _ _ _ _ _ => trivial,
    fun _ _ _ _ _ _ _ _ _ _ => ⟨trivial, trivial⟩, fun _ _ _ _ _ _ _ => trivial,
    fun _ _ _ _ _ _ _ _ _ _ _ _ _ _ _ _ => trivial⟩ hrun
  exact fun i l hl => (hentries' i l hl).1

section

variable (h : Accounts handles w)
include h

theorem Accounts.areaCalls (hop : Contract w op) (hkeeps : KeepsBalance handles w op) :
    AreaCalls NoDoubleFree (Balanced handles) w op where
  same := h.balanced
  new i heq := by
    subst heq
    exact h.balanced.clearTable (h.blank hop) _
  maps i l range l' mapping permission isShared _ hl hmaps := by
    refine Balanced.setList (h.balanced.populate range mapping permission fun v hv => ?_) l'
    exact h.outside hl fun a ha hav => hmaps.not_contains ha hav (hmaps.ok.mem_pagesOf.mp hv)
  unmap i start len l taken l' heq hl hunmaps := by
    subst heq
    refine (h.balanced.takes (g := fun v => v) takePage_touches fun b v hv hb _ hkept =>
      hb.takePage ?_).mono fun b hb => hb.setList l'
    rw [mem_flatMap_pagesOf hunmaps.result.aligned, hunmaps.result.visited] at hv
    obtain ⟨hmask, a, ha, hav⟩ := hv
    rcases hkept with hbv | hbv
    · rw [hbv]
      exact hkeeps l hl a ha v hav hmask
    · rw [hbv]
      exact releasable_null
  protect i start len permission l mids l' _ hl _ := by
    exact (ensures_foldlM_mem (fun v _ b hb => hb.protectPte permission) h.balanced).mono
      fun b hb => hb.setList l'
  fork i j l heq hl := by
    subst heq
    have hij := ne_of_lists hl hop
    exact (newCloned_noDoubleFree.with_ok fun w1 hrun =>
      h.balanced.newCloned (h.areas i l hl) hij (h.blank hop) hrun).mono fun w1 hw1 => hw1.2
  drop i l heq hl := by
    subst heq
    have hpages : ∀ a ∈ l.areas.elems, ∀ u, u ∈ pagesOf a.range ↔
        a.range.Contains (u * PAGE_SIZE) := fun a ha u =>
      ((h.areas i l hl).areas.ok a ha).mem_pagesOf
    refine h.balanced.dropList (fun u hu => ?_) fun a ha v hv => ?_
    · exact h.outside hl fun a ha hau => hu a ha ((hpages a ha u).mpr hau)
    · exact hkeeps l hl a ha v ((hpages a ha v).mp hv)

theorem Accounts.onAreas (hop : Contract w op) (hkeeps : KeepsBalance handles w op)
    (hareas : op.onAreas = true) : Ensures NoDoubleFree (Accounts handles) (w.run op) := by
  have hrun := (h.areaCalls hop hkeeps).run h.areas hop hareas
  have hareas' := hrun.with_ok fun w1 hok => areas_step h.areas hop hareas hok
  have htidy := hareas'.with_ok fun w1 hok => h.tidy.onAreas blank_null h.areas hop hareas hok
  exact htidy.mono fun w1 hw1 => ⟨hw1.1.1, hw1.1.2, hw1.2⟩

theorem Accounts.handle (hpick : Pick.Lawful pick) (hmapped : (w.ptes i v).attr.mapped = false) :
    Ensures NoDoubleFree (fun x => Accounts handles x.2)
      (w.handle pick backend area i v offset write) := by
  refine ensures_of_forall ?_ fun x hok => ⟨?_, fun k m hm => ?_, ?_⟩
  · exact fun e he => (h.balanced.handle hpick hmapped).of_error he
  · exact (h.balanced.handle hpick hmapped).of_ok hok
  · rw [(handle_faults hok).lists] at hm
    exact h.areas k m hm
  · exact h.tidy.fault (fun _ ht => ht.toStray) (fun _ write ht => ht.touched write) hok

theorem Accounts.setData (p : PFN) (f : PhysFrame → PageData) :
    Accounts handles (w.updateFrame p fun x => { x with data := f x }) := by
  refine ⟨⟨?_, h.balanced.nonzero, ?_, h.balanced.backed⟩, h.areas, h.tidy⟩
  · rw [count_updateFrame]
    have hsame : update w.count p (w.frames p).refcount = w.count :=
      update_eq_self p w.count
    rw [hsame]
    exact h.balanced.exact
  · exact settled_updateFrame h.balanced.settled (h.balanced.settled p)

end

theorem accounts_visitSpec (backend : Backend) (i : ℕ) (hpick : Pick.Lawful pick) (write : Bool) :
    VisitSpec NoDoubleFree pick backend i write (Accounts handles)
      (fun _ _ _ t => t.attr.mapped = false) where
  handle _ hs hmapped := hs.handle hpick hmapped
  data p f hs := hs.setData p f
  unmapped hmapped := hmapped
  mono _ hu := hu
  notManaged := fun hz => nomatch hz

theorem Accounts.step (h : Accounts handles w) (hop : Contract w op)
    (hkeeps : KeepsBalance handles w op) :
    Ensures NoDoubleFree (Accounts handles) (w.run op) := by
  cases op with
  | userFault pick backend i addr access =>
    exact ensures_userFault h fun _ _ _ _ _ => h.handle hop hkeeps
  | kernelFault pick backend i addr write =>
    exact ensures_kernelFault h fun _ _ _ _ => h.handle hop hkeeps
  | readBytes pick backend i fuel start len buffer =>
    exact ensures_readBytes h (accounts_visitSpec backend i hop false)
      fun l hl => ⟨(h.areas i l hl).areas, hkeeps l hl⟩
  | accessMut pick backend func i fuel start len =>
    exact ensures_accessMut h (accounts_visitSpec backend i hop true)
      fun l hl => ⟨(h.areas i l hl).areas, hkeeps l hl⟩
  | store i addr byte =>
    exact h.setData _ _
  | _ => exact h.onAreas hop hkeeps rfl

end Calls

/-! ### Runs -/

def CountsExact (handles : PFN → ℕ) (w : World) : Prop :=
  ∀ p, {r | w.target w.refs r = some p}.encard + handles p = (w.frames p).refcount

/-- Once all address spaces are dropped, frames that nobody else owns have come back as often as
they were handed out. -/
def AllReturned (handles : PFN → ℕ) (w : World) : Prop :=
  (∀ i, w.lists i = none) → ∀ p, handles p = 0 → p ≠ w.emptyPage →
    (∀ file index, w.caches file index ≠ some p) →
    (w.frames p).refcount = 0 ∧ (w.frames p).returned = (w.frames p).allocated

def ledgerMachine (handles : PFN → ℕ) (Allowed : World → Op → Prop) : System World Op MMPanic where
  init w := Initial w ∧ CountsExact handles w ∧ ∀ p, (w.frames p).Settled
  allowed w op := Contract w op ∧ Allowed w op
  run := run

theorem accounts_of_init {Allowed : World → Op → Prop}
    (h : (ledgerMachine handles Allowed).init w) : Accounts handles w := by
  obtain ⟨hinit, hexact, hsettled⟩ := h
  refine ⟨⟨hexact, hinit.referenced.nonzero, hsettled, fun i v hp => ?_⟩, fun i l hl => ?_,
    fun i v => Or.inl ?_⟩
  · rw [hinit.ptes i v] at hp
    cases hp
  · rw [hinit.lists i] at hl
    cases hl
  · rw [hinit.ptes i v]
    exact blank_null

theorem Accounts.allReturned (h : Accounts handles w) : AllReturned handles w := by
  intro hnone p hhandles hempty hcaches
  have hno : ∀ r, w.target w.refs r ≠ some p := by
    intro r hr
    cases r with
    | pte i v =>
      rw [target_pte, h.blank (hnone i) v] at hr
      cases hr
    | cache file index => exact hcaches file index hr
    | empty => exact hempty (Option.some.inj hr).symm
  have hzero : (w.frames p).refcount = 0 := (h.balanced.exact.of_forall_ne hno).trans hhandles
  have hsettled := h.balanced.settled p
  unfold PhysFrame.Settled at hsettled
  rw [if_pos hzero] at hsettled
  exact ⟨hzero, hsettled.symm⟩

/-- While all steps keep the balance, the counts are exact, frames come back exactly once, and
nobody drops a page without an owner. -/
theorem accounted_of_reachable
    (h : (ledgerMachine handles (KeepsBalance handles)).Reachable w) :
    CountsExact handles w ∧ AllReturned handles w ∧ (∀ p, (w.frames p).Settled) ∧
      ∀ op e, Contract w op ∧ KeepsBalance handles w op → w.run op = .error e →
        e ≠ .refcountZero := by
  obtain ⟨hinv, hpanics⟩ := h.ensures (fun _ => accounts_of_init)
    fun s op hs hop => hs.step hop.1 hop.2
  exact ⟨hinv.balanced.exact, hinv.allReturned, hinv.balanced.settled, hpanics⟩

theorem ledger_boot (Allowed : World → Op → Prop) :
    (ledgerMachine (fun _ => 0) Allowed).Reachable boot := by
  refine System.Reachable.of_init ⟨initial_boot, fun p => ?_, fun p => ?_⟩
  · by_cases hp : p = 1
    · have hset : {r | boot.target boot.refs r = some p} = {Place.empty} := by
        subst hp
        ext r
        cases r <;> simp [target, refs, refOf, boot]
      rw [hset, Set.encard_singleton, hp]
      rfl
    · have hset : {r | boot.target boot.refs r = some p} = ∅ := by
        ext r
        cases r <;> simp [target, refs, refOf, boot, Ne.symm hp]
      rw [hset, Set.encard_empty]
      simp [boot, hp]
  · unfold PhysFrame.Settled boot
    by_cases hp : p = 1
    · simp [hp]
    · simp [hp]

theorem accounted_after_drop : ∃ w, (ledgerMachine (fun _ => 0)
    (KeepsBalance fun _ => 0)).Reachable w ∧ (∀ i, w.lists i = none) ∧
      (w.frames 2).allocated = 1 ∧ AllReturned (fun _ => 0) w := by
  have h0 := ledger_boot (KeepsBalance fun _ => 0)
  have h3 := h0.after [.new 0, .mmapFixed 0 0x10000 0x1000 .anonymous ⟨true, true, false⟩ false,
    .userFault twoFrames (fun _ _ => .noPageCache) 0 0x10000 .write]
    ⟨⟨rfl, trivial⟩, ⟨⟨by decide, by decide, by decide, trivial⟩, trivial⟩, ⟨lawful_twoFrames, rfl⟩,
     trivial⟩
  have h4 := h3.next (.drop 0) ⟨trivial, by
    rintro l hl a ha v hv
    cases hl
    obtain rfl := List.mem_singleton.mp ha
    obtain rfl : v = 16 := by
      unfold AddrRange.Contains PAGE_SIZE at hv
      dsimp only at hv
      omega
    exact ⟨Or.inr ⟨rfl, rfl⟩, fun hs => nomatch hs⟩⟩
  refine ⟨_, h4, fun i => ?_, rfl, (accounted_of_reachable h4).2.1⟩
  cases i with
  | zero => rfl
  | succ k => rfl

/-- A page that `protect` made inaccessible is lost when it is unmapped. -/
theorem accounted_violated : ∃ w, (ledgerMachine (fun _ => 0) fun _ _ => True).Reachable w ∧
    (∀ i, w.lists i = none) ∧ (∀ r, w.target w.refs r ≠ some 2) ∧ (w.frames 2).refcount = 1 ∧
      (w.frames 2).allocated = 1 ∧ (w.frames 2).returned = 0 := by
  have h0 := ledger_boot fun _ _ => True
  have h6 := h0.after [.new 0, .mmapFixed 0 0x10000 0x1000 .anonymous ⟨true, true, false⟩ false,
    .userFault twoFrames (fun _ _ => .noPageCache) 0 0x10000 .write,
    .protect 0 0x10000 0x1000 ⟨false, false, false⟩, .unmap 0 0x10000 0x1000, .drop 0]
    ⟨⟨rfl, trivial⟩, ⟨⟨by decide, by decide, by decide, trivial⟩, trivial⟩,
     ⟨lawful_twoFrames, trivial⟩, ⟨⟨by decide, by decide, by decide⟩, trivial⟩,
     ⟨⟨by decide, by decide⟩, trivial⟩, ⟨trivial, trivial⟩, trivial⟩
  refine ⟨_, h6, fun i => ?_, fun r => ?_, rfl, rfl, rfl⟩
  · cases i with
    | zero => rfl
    | succ k => rfl
  · cases r with
    | pte i v =>
      cases i with
      | zero => exact fun hr => nomatch hr
      | succ k => exact fun hr => nomatch hr
    | cache file index => exact fun hr => nomatch hr
    | empty => exact fun hr => nomatch hr

end World

end Dlutos
