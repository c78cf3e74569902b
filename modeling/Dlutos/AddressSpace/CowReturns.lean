import Dlutos.AddressSpace.CopyOnWrite

/-!
# Copy-on-write never panics

In a state with the invariant of copy-on-write, every call on areas returns, and handling a page
fault returns or runs out of memory.  A fault leaves an entry that is not copy-on-write and does not
change what any address space sees; changing the contents of the frame of such an entry changes what
its own page sees and nothing else.
-/

namespace Dlutos

open Addr AddrRange ExceptLoop RefCount Function

namespace World

variable {w w' : World} {i j v : ℕ} {l : MMListLocked}

/-! ### Calls on areas -/

/-- The entry can be read as a page attribute, and refers to a frame if it should. -/
structure FineEntry (t : PTE) : Prop where
  attr : t.attr.present = false ∨ t.attr.read = true
  pfn : t.attr.present = true ∨ t.attr.mapped = true → t.pfn ≠ 0

/-- All entries are fine and their references are counted. -/
structure Fine (w : World) : Prop where
  referenced : Referenced w
  entry : ∀ i v, FineEntry (w.ptes i v)

variable {t : PTE}

theorem FineEntry.asPageAttr (h : FineEntry t) : t.attr.asPageAttr = some t.attr := by
  unfold PageAttribute.asPageAttr
  rcases h.attr with h | h
  · rw [h, Bool.false_and, if_neg Bool.false_ne_true]
  · rw [h, Bool.true_or, Bool.true_or, Bool.not_true, Bool.and_false, if_neg Bool.false_ne_true]

theorem fromRaw_eq {p : PFN} (h : p ≠ 0) : fromRaw p = .ok () := assertOr_true _ h

theorem dropRef_ok {p : PFN} (h : w.count p ≠ 0) : w.dropRef p = .ok (w.releaseRef p) := by
  have hcount : (w.frames p).refcount ≠ 0 := h
  unfold dropRef
  rw [assertOr_true _ hcount]
  rfl

theorem Stray.fine (h : Stray t) : FineEntry t := by
  refine ⟨Or.inl h.present, fun hp => ?_⟩
  rw [h.present, h.mapped] at hp
  rcases hp with hp | hp
  · cases hp
  · cases hp

theorem CowEntry.fine {T : Place → Option PFN} {a : MMArea} (h : CowEntry T i v a t) :
    FineEntry t := ⟨Or.inr (loadable_iff.mp h.loadable).2.1, fun _ => h.pfn⟩

theorem CowInv.fine (h : CowInv w) : Fine w := by
  refine ⟨h.referenced, fun k u => ?_⟩
  rcases h.tidy k u with hstray | ⟨m, hm, a, ha, hau⟩
  · exact hstray.fine
  · exact ((h.entries k m hm).2 a ha u hau).fine

theorem Fine.count_ne_zero (h : Fine w) (hpfn : (w.ptes i v).pfn ≠ 0) :
    w.count (w.ptes i v).pfn ≠ 0 :=
  (h.referenced.counted.pos (r := .pte i v) (refOf_eq hpfn)).ne'

theorem fineEntry_setPte (h : ∀ k u, FineEntry (w.ptes k u)) (ht : FineEntry t) (k u : ℕ) :
    FineEntry ((w.setPte i v t).ptes k u) := by
  by_cases hu : k = i ∧ u = v
  · rw [hu.1, hu.2, setPte_ptes_self]
    exact ht
  · rw [setPte_ptes_of_ne hu]
    exact h k u

theorem Fine.takePage (h : Fine w) (i v : ℕ) : Ensures (fun _ => False) Fine (World.takePage i w v) := by
  have hnull : ∀ k u, FineEntry ((w.setPte i v {}).ptes k u) :=
    fineEntry_setPte h.entry stray_null.fine
  cases howns : ownsPage (w.ptes i v).attr with
  | false =>
    have hrun : World.takePage i w v = .ok (w.setPte i v {}) := by
      unfold World.takePage
      dsimp only
      rw [(h.entry i v).asPageAttr]
      dsimp only
      rw [howns]
      rfl
    rw [hrun]
    exact ⟨referenced_steps.takePage h.referenced hrun, hnull⟩
  | true =>
    have hpresent : (w.ptes i v).attr.present = true := by
      unfold ownsPage at howns
      exact ((Bool.and_eq_true _ _).mp howns).1
    have hpfn := (h.entry i v).pfn (Or.inl hpresent)
    have hcount : (w.setPte i v {}).count (w.ptes i v).pfn ≠ 0 := h.count_ne_zero hpfn
    have hrun : World.takePage i w v = .ok ((w.setPte i v {}).releaseRef (w.ptes i v).pfn) := by
      unfold World.takePage
      dsimp only
      rw [(h.entry i v).asPageAttr]
      dsimp only
      rw [howns, if_pos rfl, fromRaw_eq hpfn, ok_bind, dropRef_ok hcount]
    rw [hrun]
    exact ⟨referenced_steps.takePage h.referenced hrun, hnull⟩

theorem Fine.takeShared (h : Fine w) (i v : ℕ) : Ensures (fun _ => False) Fine (World.takeShared i w v) := by
  have hrun : ∃ w', World.takeShared i w v = .ok w' := by
    unfold World.takeShared
    dsimp only
    rw [(h.entry i v).asPageAttr]
    dsimp only
    split
    · exact ⟨_, rfl⟩
    · exact ⟨_, rfl⟩
  obtain ⟨w', hrun⟩ := hrun
  obtain ⟨htouch, hnull⟩ := takeShared_touches hrun
  rw [hrun]
  refine ⟨referenced_steps.takeShared h.referenced hrun, fun k u => ?_⟩
  by_cases hu : k = i ∧ u = v
  · rw [hu.1, hu.2, hnull]
    exact stray_null.fine
  · rw [htouch.ptes k u hu]
    exact h.entry k u

theorem Fine.protectPte (h : Fine w) {permission : Permission} (hread : permission.read = true)
    (i v : ℕ) : Ensures (fun _ => False) Fine (World.protectPte i permission w v) := by
  have hrun : World.protectPte i permission w v = .ok
      (w.setPte i v ⟨(w.ptes i v).pfn, protectAttr permission (w.ptes i v).attr⟩) := by
    unfold World.protectPte
    dsimp only
    rw [(h.entry i v).asPageAttr]
  rw [hrun]
  refine ⟨referenced_steps.protectPte h.referenced hrun, fineEntry_setPte h.entry ?_⟩
  unfold protectAttr
  rw [hread]
  exact ⟨Or.inr rfl, (h.entry i v).pfn⟩

theorem Fine.setCopyOnWrite (h : Fine w) (hij : i ≠ j) (v : ℕ) :
    Ensures (fun _ => False) Fine (World.setCopyOnWrite i j w v) := by
  obtain ⟨hattr, hpfn⟩ := h.entry i v
  cases hskip : (w.ptes i v).attr.present || (w.ptes i v).attr.mapped with
  | false =>
    unfold World.setCopyOnWrite
    dsimp only
    rw [(h.entry i v).asPageAttr]
    dsimp only
    rw [hskip]
    exact h
  | true =>
    have hne := hpfn ((Bool.or_eq_true _ _).mp hskip)
    have hrun : World.setCopyOnWrite i j w v = .ok (((w.cloneRef (w.ptes i v).pfn).setPte j v
        ⟨(w.ptes i v).pfn, { cowAttr (w.ptes i v).attr with accessed := false }⟩).setPte i v
        ⟨(w.ptes i v).pfn, cowAttr (w.ptes i v).attr⟩) := by
      unfold World.setCopyOnWrite
      dsimp only
      rw [(h.entry i v).asPageAttr]
      dsimp only
      rw [hskip, Bool.not_true, if_neg Bool.false_ne_true, fromRaw_eq hne]
      rfl
    rw [hrun]
    refine ⟨referenced_steps.setCopyOnWrite h.referenced hij hrun, ?_⟩
    refine fineEntry_setPte (fineEntry_setPte h.entry ?_) ?_
    · exact ⟨hattr, hpfn⟩
    · exact ⟨hattr, hpfn⟩

theorem CowInv.newCloned_returns (h : CowInv w) (hl : w.lists i = some l) (hj : w.lists j = none) :
    Ensures (fun _ => False) (fun _ => True) (w.newCloned i j l) := by
  have hij := ne_of_lists hl hj
  have hfine : Fine { w with ptes := update w.ptes j fun _ => {} } := by
    refine ⟨h.referenced.clearTable w.lists, fun k u => ?_⟩
    by_cases hkj : k = j
    · subst hkj
      dsimp only
      rw [update_self]
      exact stray_null.fine
    · dsimp only
      rw [update_of_ne hkj]
      exact h.fine.entry k u
  refine ensures_newCloned (fun _ _ _ v _ b hb => hb.setCopyOnWrite hij v)
    (fun a ha hs v hv => ?_) hfine fun _ _ => trivial
  -- a shared area has no pages
  have hav := ((h.entries i l hl).1.areas.ok a ha).mem_pagesOf.mp hv
  have hpriv := ((h.entries i l hl).2 a ha v hav).isPrivate
  rw [hs] at hpriv
  cases hpriv

theorem CowInv.returns {op : Op} (h : CowInv w) (hop : Contract w op) (hpriv : PrivateAnonymous op)
    (hareas : op.onAreas = true) : ∃ w', w.run op = .ok w' := by
  have hcalls : AreaCalls (fun _ => False) (fun _ => True) w op :=
    { same := trivial
      new := fun _ _ => trivial
      maps := fun _ _ _ _ _ _ _ _ _ _ => trivial
      unmap := fun i start len l taken l' _ _ _ =>
        (ensures_foldlM_mem (fun v _ b hb => hb.takePage i v) h.fine).mono fun _ _ => trivial
      protect := by
        rintro i start len permission l mids l' rfl - -
        exact (ensures_foldlM_mem (fun v _ b hb => hb.protectPte hpriv i v) h.fine).mono
          fun _ _ => trivial
      fork := by
        rintro i j l rfl hl
        exact h.newCloned_returns hl hop
      drop := fun i l _ _ => ensures_dropList (fun v b hb => hb.takePage i v)
        (fun v b hb => hb.takeShared i v) h.fine fun _ _ => trivial }
  have hrun := hcalls.run (fun i l hl => (h.entries i l hl).1) hop hareas
  cases hw : w.run op with
  | error err => exact (hrun.of_error hw).elim
  | ok w' => exact ⟨w', rfl⟩

/-! ### Page faults -/

/-- How `handle` resolves an entry `t`, unless it is a file page waiting to be read. -/
inductive Resolved (w : World) (pick : Pick) (area : MMArea) (t : PTE) :
    PFN → PageAttribute → World → Prop
  | kept : t.attr.copyOnWrite = false → Resolved w pick area t t.pfn t.attr w
  /-- The entry is the only one that refers to its frame. -/
  | reused : t.attr.copyOnWrite = true → w.count t.pfn = 1 →
    Resolved w pick area t t.pfn
      { t.attr with copyOnWrite := false, write := area.permission.write } w
  | copied (p : PFN) : t.attr.copyOnWrite = true → pick w.frames = some p →
    Resolved w pick area t p
      { t.attr with copyOnWrite := false, write := area.permission.write, accessed := false }
      ((w.updateFrame p fun f => f.allocate (w.cowData t.pfn)).releaseRef t.pfn)

section Fault

variable {pick : Pick} {backend : Backend} {area : MMArea} {offset : ℕ} {write : Bool} {pfn : PFN}
  {attr : PageAttribute} {w₁ : World}

variable (area) in
theorem handleCow_resolved (h : Referenced w) (hpick : Pick.Lawful pick)
    (hcow : (w.ptes i v).attr.copyOnWrite = true) (hpfn : (w.ptes i v).pfn ≠ 0) :
    w.handleCow pick area (w.ptes i v).pfn (w.ptes i v).attr = .error .outOfMemory ∨
      ∃ pfn attr w₁, w.handleCow pick area (w.ptes i v).pfn (w.ptes i v).attr =
          .ok (pfn, attr, w₁) ∧ Resolved w pick area (w.ptes i v) pfn attr w₁ ∧
        attr.mapped = (w.ptes i v).attr.mapped := by
  unfold handleCow
  rw [fromRaw_eq hpfn, ok_bind]
  by_cases hone : (w.frames (w.ptes i v).pfn).refcount = 1
  · rw [if_pos hone]
    exact Or.inr ⟨_, _, _, rfl, .reused hcow hone, rfl⟩
  · rw [if_neg hone]
    unfold allocPage
    cases hp : pick w.frames with
    | none => exact Or.inl rfl
    | some p =>
      have hdiff : (w.ptes i v).pfn ≠ p := fun heq =>
        RefsOk.not_target h (hpick _ _ hp).1 (.pte i v) (heq ▸ refOf_eq hpfn)
      have hcount : (w.updateFrame p fun f => f.allocate (w.cowData (w.ptes i v).pfn)).count
          (w.ptes i v).pfn ≠ 0 := by
        rw [count_updateFrame, update_of_ne hdiff]
        exact (h.counted.pos (r := .pte i v) (refOf_eq hpfn)).ne'
      refine Or.inr ⟨_, _, _, ?_, .copied p hcow hp, rfl⟩
      rw [ok_bind]
      exact bind_eq_ok.mpr ⟨_, dropRef_ok hcount, rfl⟩

theorem CowInv.handle_resolved (h : CowInv w) (hpick : Pick.Lawful pick) :
    w.handle pick backend area i v offset write = .error .outOfMemory ∨
      ∃ pfn attr w₁, w.handle pick backend area i v offset write =
          .ok (.ok (), w₁.setPte i v ⟨pfn, touched attr write⟩) ∧
        Resolved w pick area (w.ptes i v) pfn attr w₁ := by
  have hmapped : (w.ptes i v).attr.mapped = false := by
    rcases h.tidy i v with hstray | ⟨m, hm, a, ha, hau⟩
    · exact hstray.mapped
    · exact ((h.entries i m hm).2 a ha v hau).mapped
  unfold handle resolve
  rw [(h.fine.entry i v).asPageAttr]
  dsimp only
  cases hcow : (w.ptes i v).attr.copyOnWrite with
  | false =>
    refine Or.inr ⟨_, _, _, ?_, .kept hcow⟩
    rw [if_neg Bool.false_ne_true, pure_bind]
    dsimp only
    rw [hmapped, if_neg Bool.false_ne_true]
    rfl
  | true =>
    have hpfn : (w.ptes i v).pfn ≠ 0 := by
      rcases h.tidy i v with hstray | ⟨m, hm, a, ha, hau⟩
      · rw [hstray.cow] at hcow
        cases hcow
      · exact ((h.entries i m hm).2 a ha v hau).pfn
    rw [if_pos rfl]
    obtain herr | ⟨pfn, attr, w₁, hrun, hres, hattr⟩ :=
      handleCow_resolved area h.referenced hpick hcow hpfn
    · rw [herr]
      exact Or.inl rfl
    · refine Or.inr ⟨pfn, attr, w₁, ?_, hres⟩
      rw [hrun, ok_bind]
      dsimp only
      rw [hattr, hmapped, if_neg Bool.false_ne_true]
      rfl

section

variable (h : Resolved w pick area (w.ptes i v) pfn attr w₁)
include h

theorem Resolved.keeps :
    KeepsEntries w w₁ ∧ w₁.caches = w.caches := by
  cases h with
  | kept => exact ⟨KeepsEntries.refl w, rfl⟩
  | reused => exact ⟨KeepsEntries.refl w, rfl⟩
  | copied p => exact ⟨⟨rfl, rfl, rfl⟩, rfl⟩

theorem Resolved.targets (a : PageAttribute)
    {r : Place} (hr : r ≠ .pte i v) : (w₁.setPte i v ⟨pfn, a⟩).targets r = w.targets r := by
  obtain ⟨hkeeps, hcaches⟩ := h.keeps
  cases r with
  | pte k u =>
    change refOf ((w₁.setPte i v ⟨pfn, a⟩).ptes k u).pfn = refOf (w.ptes k u).pfn
    rw [setPte_ptes_of_ne fun heq => hr (by rw [heq.1, heq.2]), hkeeps.ptes]
  | cache file index => exact congrFun (congrFun hcaches file) index
  | empty => exact congrArg some hkeeps.emptyPage

theorem Resolved.exclusive
    (href : Referenced w) (hpick : Pick.Lawful pick) (hpfn : (w.ptes i v).pfn ≠ 0)
    (hown : (w.ptes i v).attr.copyOnWrite = false →
      ∀ r, w.targets r = some (w.ptes i v).pfn → r = .pte i v)
    {r : Place} (hr : w.targets r = some pfn) : r = .pte i v := by
  cases h with
  | kept hc => exact hown hc r hr
  | reused _ hone => exact href.counted.exclusive hone hr (refOf_eq hpfn)
  | copied p _ hp => exact absurd hr (RefsOk.not_target href (hpick _ _ hp).1 r)

theorem Resolved.data (href : Referenced w) (hpick : Pick.Lawful pick) {r : Place} {q : PFN}
    (hr : w.targets r = some q) : (w₁.frames q).data = (w.frames q).data := by
  cases h with
  | kept => rfl
  | reused => rfl
  | copied p _ hp =>
    have hne : q ≠ pfn := fun heq => RefsOk.not_target href (hpick _ _ hp).1 r (heq ▸ hr)
    rw [(sameContents_releaseRef _ _).data]
    unfold updateFrame
    dsimp only
    rw [update_of_ne hne]

theorem Resolved.own_data (hzero : ∀ o, (w.frames w.emptyPage).data o = 0) :
    (w₁.frames pfn).data = (w.frames (w.ptes i v).pfn).data := by
  cases h with
  | kept => rfl
  | reused => rfl
  | copied p _ hp =>
    rw [(sameContents_releaseRef _ _).data]
    unfold updateFrame cowData
    dsimp only
    rw [update_self]
    split
    · rename_i hempty
      rw [hempty]
      funext o
      exact (hzero o).symm
    · rfl

end

/-- The contents of the page that an entry refers to. -/
def pageOf (w : World) (i v : ℕ) : PageData := (w.frames (w.ptes i v).pfn).data

/-- After a fault the invariant holds, every address space sees what it saw before, and the entry is
not copy-on-write. -/
structure Handled (w : World) (i v : ℕ) (w' : World) : Prop where
  inv : CowInv w'
  lists : w'.lists = w.lists
  pages : ∀ k u, InArea w k u → w'.pageOf k u = w.pageOf k u
  cow : (w'.ptes i v).attr.copyOnWrite = false

section

variable (h : Resolved w pick area (w.ptes i v) pfn attr w₁)
include h

theorem Resolved.cow :
    attr.copyOnWrite = false := by
  cases h with
  | kept hc => exact hc
  | reused => rfl
  | copied => rfl

theorem Resolved.entry (href : Referenced w) (hpick : Pick.Lawful pick)
    (hentry : CowEntry w.targets i v area (w.ptes i v)) (write : Bool) :
    CowEntry (w₁.setPte i v ⟨pfn, touched attr write⟩).targets i v area
      ⟨pfn, touched attr write⟩ := by
  have hown : ∀ r, (w₁.setPte i v ⟨pfn, touched attr write⟩).targets r = some pfn →
      r = .pte i v := by
    intro r hr
    by_contra hne
    rw [h.targets _ hne] at hr
    exact hne (h.exclusive href hpick hentry.pfn (fun hc => (hentry.own hc).2) hr)
  have hnot : (touched attr write).copyOnWrite = true → False := by
    intro hc
    rw [show (touched attr write).copyOnWrite = attr.copyOnWrite from rfl, h.cow] at hc
    cases hc
  cases h with
  | kept hc =>
    exact { hentry with
      cow := fun hc' => (hnot hc').elim, own := fun _ => ⟨(hentry.own hc).1, hown⟩ }
  | reused =>
    exact { hentry with cow := fun hc' => (hnot hc').elim, own := fun _ => ⟨rfl, hown⟩ }
  | copied p _ hp =>
    exact { hentry with
      pfn := (hpick _ _ hp).2, cow := fun hc' => (hnot hc').elim, own := fun _ => ⟨rfl, hown⟩ }

theorem Resolved.other (href : Referenced w) (hpick : Pick.Lawful pick) {k u : ℕ} {a : MMArea}
    (hne : ¬ (k = i ∧ u = v)) (hentry : CowEntry w.targets k u a (w.ptes k u)) (b : PageAttribute) :
    CowEntry (w₁.setPte i v ⟨pfn, b⟩).targets k u a (w.ptes k u) := by
  refine { hentry with own := fun hc => ⟨(hentry.own hc).1, fun r hr => ?_⟩ }
  have hown := (hentry.own hc).2
  by_cases hr' : r = .pte i v
  · subst hr'
    -- the frame of the resolved entry is its old one or a new one, and neither is owned by `u`
    have hpfn : pfn = (w.ptes k u).pfn := by
      change refOf ((w₁.setPte i v ⟨pfn, b⟩).ptes i v).pfn = _ at hr
      rw [setPte_ptes_self] at hr
      exact eq_of_refOf hr
    have hplace : Place.pte i v = .pte k u := by
      cases h with
      | kept => exact hown _ ((congrArg refOf hpfn).trans (refOf_eq hentry.pfn))
      | reused => exact hown _ ((congrArg refOf hpfn).trans (refOf_eq hentry.pfn))
      | copied p _ hp =>
        refine absurd ?_ (RefsOk.not_target href (hpick _ _ hp).1 (.pte k u))
        rw [hpfn]
        exact refOf_eq hentry.pfn
    cases hplace
    exact absurd ⟨rfl, rfl⟩ hne
  · rw [h.targets _ hr'] at hr
    exact hown r hr

end

theorem CowInv.handled (h : CowInv w) (hpick : Pick.Lawful pick) (harea : w.OnlyArea i v area)
    (hrun : w.handle pick backend area i v offset write =
      .ok (.ok (), w₁.setPte i v ⟨pfn, touched attr write⟩))
    (hres : Resolved w pick area (w.ptes i v) pfn attr w₁) :
    Handled w i v (w₁.setPte i v ⟨pfn, touched attr write⟩) := by
  obtain ⟨hkeeps, -⟩ := hres.keeps
  have href := h.referenced
  refine ⟨⟨href.handle hpick (fun _ => rfl) hrun, fun o => ?_, fun k m hk => ?_, fun k u => ?_⟩,
    hkeeps.lists, fun k u hin => ?_, ?_⟩
  · rw [setPte_emptyPage, setPte_frames, hkeeps.emptyPage, hres.data href hpick (r := .empty) rfl]
    exact h.zero o
  · rw [setPte_lists, hkeeps.lists] at hk
    refine ⟨(h.entries k m hk).1, fun a ha u hu => ?_⟩
    have hentry := (h.entries k m hk).2 a ha u hu
    by_cases heq : k = i ∧ u = v
    · obtain ⟨rfl, rfl⟩ := heq
      obtain rfl := harea m hk a ha hu
      rw [setPte_ptes_self]
      exact hres.entry href hpick hentry write
    · rw [setPte_ptes_of_ne heq, hkeeps.ptes]
      exact hres.other href hpick heq hentry _
  · have hin : InArea w k u → InArea (w₁.setPte i v ⟨pfn, touched attr write⟩) k u := by
      rintro ⟨m, hm, hrest⟩
      exact ⟨m, by rw [setPte_lists, hkeeps.lists, hm], hrest⟩
    by_cases heq : k = i ∧ u = v
    · obtain ⟨rfl, rfl⟩ := heq
      rw [setPte_ptes_self]
      refine (h.tidy k u).imp (fun hstray => ?_) hin
      cases hres with
      | kept => exact ⟨hstray.present, hstray.mapped, hstray.cow⟩
      | reused hc =>
        rw [hstray.cow] at hc
        cases hc
      | copied p hc =>
        rw [hstray.cow] at hc
        cases hc
    · rw [setPte_ptes_of_ne heq, hkeeps.ptes]
      exact (h.tidy k u).imp_right hin
  · unfold pageOf
    by_cases heq : k = i ∧ u = v
    · obtain ⟨rfl, rfl⟩ := heq
      rw [setPte_ptes_self, setPte_frames]
      exact hres.own_data h.zero
    · rw [setPte_ptes_of_ne heq, setPte_frames, hkeeps.ptes]
      obtain ⟨m, hm, a, ha, hau⟩ := hin
      exact hres.data href hpick (r := .pte k u)
        (refOf_eq ((h.entries k m hm).2 a ha u hau).pfn)
  · rw [setPte_ptes_self]
    exact hres.cow

variable (backend offset write) in
theorem CowInv.handle (h : CowInv w) (hpick : Pick.Lawful pick) (harea : w.OnlyArea i v area) :
    w.handle pick backend area i v offset write = .error .outOfMemory ∨
      ∃ w', w.handle pick backend area i v offset write = .ok (.ok (), w') ∧ Handled w i v w' := by
  obtain herr | ⟨pfn, attr, w₁, hrun, hres⟩ := h.handle_resolved hpick
  · exact Or.inl herr
  · exact Or.inr ⟨_, hrun, h.handled hpick harea hrun hres⟩

end Fault

/-! ### Writing to a frame -/

theorem CowInv.setData (h : CowInv w) (hl : w.lists i = some l) {a : MMArea}
    (ha : a ∈ l.areas.elems) (hv : a.range.Contains (v * PAGE_SIZE))
    (hcow : (w.ptes i v).attr.copyOnWrite = false) (f : PhysFrame → PageData) :
    CowInv (w.updateFrame (w.ptes i v).pfn fun x => { x with data := f x }) ∧
      ∀ k u, InArea w k u → ¬ (k = i ∧ u = v) →
        (w.updateFrame (w.ptes i v).pfn fun x => { x with data := f x }).pageOf k u =
          w.pageOf k u := by
  have hentry := (h.entries i l hl).2 a ha v hv
  have hown := (hentry.own hcow).2
  have hother : ∀ r q, w.targets r = some q → r ≠ .pte i v → q ≠ (w.ptes i v).pfn :=
    fun r q hr hne heq => hne (hown r (heq ▸ hr))
  refine ⟨⟨h.referenced.setData _ f, fun o => ?_, h.entries, h.tidy⟩, ?_⟩
  · have hne := hother .empty w.emptyPage rfl fun hr => nomatch hr
    unfold updateFrame
    dsimp only
    rw [update_of_ne hne]
    exact h.zero o
  · rintro k u ⟨m, hm, b, hb, hbu⟩ hne
    have hpfn := ((h.entries k m hm).2 b hb u hbu).pfn
    have hdiff := hother (.pte k u) _ (refOf_eq hpfn) fun hr => by
      cases hr
      exact hne ⟨rfl, rfl⟩
    unfold pageOf updateFrame
    dsimp only
    rw [update_of_ne hdiff]

end World

end Dlutos
