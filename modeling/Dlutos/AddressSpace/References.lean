import Dlutos.AddressSpace.Machine
import Dlutos.Foundation.RefCount
import Dlutos.Foundation.Transition

/-!
# References to frames

`Referenced w` says that no frame has more references than its count, so that a frame with count one
may be written by its only holder and a frame with count zero may be reused.  While a fault is
handled, the reference of the entry is in a local variable of the handler; `RefsOk w refs` is
therefore about any assignment `refs` of references to the entries.
-/

namespace Dlutos

open Addr AddrRange ExceptLoop RefCount Transition Function

variable {f : PhysFrame → PhysFrame} {ref : Option PFN} {r : KResult (PFN × PageAttribute)}

namespace World

inductive Place where
  | pte (i v : ℕ)
  | cache (file index : ℕ)
  | empty
  deriving DecidableEq

def refOf (pfn : PFN) : Option PFN := if pfn = 0 then none else some pfn

/-- The references of the entries of the page tables. -/
def refs (w : World) : ℕ → ℕ → Option PFN := fun i v => refOf (w.ptes i v).pfn

/-- One entry refers to another frame. -/
def setRef (refs : ℕ → ℕ → Option PFN) (i v : ℕ) (ref : Option PFN) : ℕ → ℕ → Option PFN :=
  fun k u => if k = i ∧ u = v then ref else refs k u

def target (w : World) (refs : ℕ → ℕ → Option PFN) : Place → Option PFN
  | .pte i v => refs i v
  | .cache file index => w.caches file index
  | .empty => some w.emptyPage

def count (w : World) (p : PFN) : ℕ := (w.frames p).refcount

/-- No frame has more references than its count, and nobody refers to the first physical frame. -/
structure RefsOk (w : World) (refs : ℕ → ℕ → Option PFN) : Prop where
  counted : Counted (w.target refs) w.count
  nonzero : ∀ r, w.target refs r ≠ some 0

/-- The references of page tables, page caches and `EMPTY_PAGE` are counted. -/
def Referenced (w : World) : Prop := RefsOk w w.refs

variable {w w' : World} {R R' : ℕ → ℕ → Option PFN} {i j v : ℕ} {p : PFN}

theorem refOf_ne_zero (pfn : PFN) : refOf pfn ≠ some 0 := by
  unfold refOf
  split
  · exact fun h => nomatch h
  · intro h
    exact absurd (Option.some.inj h) (by assumption)

theorem refOf_eq {pfn : PFN} (h : pfn ≠ 0) : refOf pfn = some pfn := if_neg h

theorem eq_of_refOf {pfn : PFN} (h : refOf pfn = some p) : pfn = p := by
  unfold refOf at h
  split at h
  · cases h
  · exact Option.some.inj h

theorem setRef_same (R : ℕ → ℕ → Option PFN) (i v : ℕ) (ref : Option PFN) :
    setRef R i v ref i v = ref := if_pos ⟨rfl, rfl⟩

theorem setRef_of_ne {k u : ℕ} (h : ¬ (k = i ∧ u = v)) : setRef R i v ref k u = R k u := if_neg h

theorem setRef_self (h : R i v = ref) : setRef R i v ref = R := by
  funext k u
  by_cases heq : k = i ∧ u = v
  · obtain ⟨rfl, rfl⟩ := heq
    rw [setRef_same, h]
  · rw [setRef_of_ne heq]

theorem setRef_setRef (R : ℕ → ℕ → Option PFN) (i v : ℕ) (ref ref' : Option PFN) :
    setRef (setRef R i v ref) i v ref' = setRef R i v ref' := by
  funext k u
  by_cases heq : k = i ∧ u = v
  · obtain ⟨rfl, rfl⟩ := heq
    rw [setRef_same, setRef_same]
  · rw [setRef_of_ne heq, setRef_of_ne heq, setRef_of_ne heq]

theorem refs_setPte (w : World) (i v : ℕ) (t : PTE) :
    (w.setPte i v t).refs = setRef w.refs i v (refOf t.pfn) := by
  funext k u
  unfold refs
  by_cases heq : k = i ∧ u = v
  · obtain ⟨rfl, rfl⟩ := heq
    rw [setPte_ptes_self, setRef_same]
  · rw [setPte_ptes_of_ne heq, setRef_of_ne heq]

theorem target_setRef (w : World) (R : ℕ → ℕ → Option PFN) (i v : ℕ) (ref : Option PFN) :
    w.target (setRef R i v ref) = update (w.target R) (.pte i v) ref := by
  funext r
  by_cases hr : r = .pte i v
  · rw [hr, update_self]
    exact setRef_same R i v ref
  · rw [update_of_ne hr]
    cases r with
    | pte k u => exact setRef_of_ne fun heq => hr (by rw [heq.1, heq.2])
    | cache file index => rfl
    | empty => rfl

theorem target_setCache (w : World) (R : ℕ → ℕ → Option PFN) (file index : ℕ) (p : PFN) :
    (w.setCache file index p).target R =
      update (w.target R) (.cache file index) (some p) := by
  funext r
  by_cases hr : r = .cache file index
  · subst hr
    rw [update_self]
    exact (congrFun (update_self file _ w.caches) index).trans (update_self _ _ _)
  · rw [update_of_ne hr]
    cases r with
    | pte k u => rfl
    | cache f k =>
      change update w.caches file _ f k = w.caches f k
      by_cases hf : f = file
      · subst hf
        rw [update_self, update_of_ne fun hk => hr (by rw [hk])]
      · rw [update_of_ne hf]
    | empty => rfl

theorem count_updateFrame (w : World) (p : PFN) (f : PhysFrame → PhysFrame) :
    (w.updateFrame p f).count = update w.count p (f (w.frames p)).refcount := by
  funext q
  unfold count updateFrame
  dsimp only
  by_cases hq : q = p
  · subst hq
    rw [update_self, update_self]
  · rw [update_of_ne hq, update_of_ne hq]

theorem count_cloneRef (w : World) (p : PFN) :
    (w.cloneRef p).count = update w.count p (w.count p + 1) := count_updateFrame w p _

theorem count_releaseRef (w : World) (p : PFN) :
    (w.releaseRef p).count = update w.count p (w.count p - 1) := count_updateFrame w p _

theorem count_allocate (w : World) (p : PFN) (data : PageData) :
    (w.updateFrame p fun f => f.allocate data).count = update w.count p 1 :=
  count_updateFrame w p _

/-! ### Single references -/

section

variable (h : RefsOk w R)
include h

theorem RefsOk.mono (hcaches : w'.caches = w.caches) (hempty : w'.emptyPage = w.emptyPage)
    (hcount : ∀ p, w.count p ≤ w'.count p) : RefsOk w' R := by
  have htarget : w'.target R = w.target R := by
    funext r
    cases r with
    | pte k u => rfl
    | cache file index => exact congrFun (congrFun hcaches file) index
    | empty => exact congrArg some hempty
  refine ⟨?_, ?_⟩
  · rw [htarget]
    exact h.counted.mono hcount
  · rw [htarget]
    exact h.nonzero

theorem RefsOk.weaken (hle : ∀ i v p, R' i v = some p → R i v = some p) : RefsOk w R' := by
  have hle' : ∀ r p, w.target R' r = some p → w.target R r = some p := by
    intro r p hr
    cases r with
    | pte k u => exact hle k u p hr
    | cache file index => exact hr
    | empty => exact hr
  exact ⟨h.counted.weaken hle', fun r hr => h.nonzero r (hle' r 0 hr)⟩

theorem RefsOk.nonzero_setRef (href : ref ≠ some 0) :
    ∀ r, w.target (setRef R i v ref) r ≠ some 0 := by
  intro r
  rw [target_setRef]
  by_cases hr : r = .pte i v
  · rw [hr, update_self]
    exact href
  · rw [update_of_ne hr]
    exact h.nonzero r

theorem RefsOk.acquire (hp : p ≠ 0) : RefsOk (w.cloneRef p) (setRef R i v (some p)) := by
  refine ⟨?_, h.nonzero_setRef fun hz => hp (Option.some.inj hz)⟩
  rw [count_cloneRef, show (w.cloneRef p).target = w.target from rfl, target_setRef]
  exact h.counted.acquire _ _

theorem RefsOk.release (hp : R i v = some p) (hf : (f (w.frames p)).refcount = w.count p - 1) :
    RefsOk (w.updateFrame p f) (setRef R i v none) := by
  refine ⟨?_, h.nonzero_setRef fun hz => nomatch hz⟩
  rw [count_updateFrame, hf, show (w.updateFrame p f).target = w.target from rfl, target_setRef]
  exact h.counted.release hp

theorem RefsOk.drop_zero (hf : (f (w.frames 0)).refcount = w.count 0 - 1) :
    RefsOk (w.updateFrame 0 f) R := by
  refine ⟨?_, h.nonzero⟩
  intro q S hS
  rw [count_updateFrame, hf]
  by_cases hq : q = 0
  · subst hq
    have hempty : S = ∅ := Finset.eq_empty_of_forall_notMem fun r hr => h.nonzero r (hS r hr)
    rw [hempty, Finset.card_empty]
    exact Nat.zero_le _
  · rw [update_of_ne hq]
    exact h.counted q S hS

end

theorem count_le_alloc (hfree : w.count p = 0) (data : PageData) (q : PFN) :
    w.count q ≤ (w.updateFrame p fun f => f.allocate data).count q := by
  rw [count_updateFrame]
  by_cases hq : q = p
  · subst hq
    rw [hfree]
    exact Nat.zero_le _
  · rw [update_of_ne hq]

theorem RefsOk.alloc (h : RefsOk w R) (hp : p ≠ 0) (hfree : w.count p = 0) (data : PageData) :
    RefsOk (w.updateFrame p fun f => f.allocate data) (setRef R i v (some p)) := by
  refine (h.acquire hp).mono rfl rfl fun q => ?_
  rw [count_cloneRef, count_allocate, hfree]

theorem RefsOk.not_target (h : RefsOk w R) (hfree : w.count p = 0) (r : Place) :
    w.target R r ≠ some p := by
  intro hr
  have hpos := h.counted.pos hr
  rw [hfree] at hpos
  exact absurd hpos (Nat.lt_irrefl 0)

theorem RefsOk.cachePage (h : RefsOk w R) (hp : p ≠ 0) (hfree : w.count p = 0) (data : PageData)
    (file index : ℕ) :
    RefsOk ((w.updateFrame p fun f => f.allocate data).setCache file index p) R := by
  have htarget := target_setCache (w.updateFrame p fun f => f.allocate data) R file index p
  refine ⟨?_, ?_⟩
  · rw [htarget]
    refine (h.counted.acquire _ p).mono fun q => ?_
    have hcount := congrFun (count_updateFrame w p fun f => f.allocate data) q
    rw [hfree]
    exact le_of_eq hcount.symm
  · intro r
    rw [htarget]
    by_cases hr : r = .cache file index
    · rw [hr, update_self]
      exact fun hz => hp (Option.some.inj hz)
    · rw [update_of_ne hr]
      exact h.nonzero r

/-! ### Setting up, taking and cloning entries -/

theorem RefsOk.setPte (h : RefsOk w (setRef w.refs i v (refOf p))) (attr : PageAttribute) :
    Referenced (w.setPte i v ⟨p, attr⟩) := by
  unfold Referenced
  rw [refs_setPte]
  exact ⟨h.counted, h.nonzero⟩

section

variable (h : Referenced w)
include h

theorem Referenced.setAttr (attr : PageAttribute) :
    Referenced (w.setPte i v ⟨(w.ptes i v).pfn, attr⟩) := by
  have hself : setRef w.refs i v (refOf (w.ptes i v).pfn) = w.refs := setRef_self rfl
  refine RefsOk.setPte ?_ attr
  rw [hself]
  exact h

theorem Referenced.point (hp : p ≠ 0) (attr : PageAttribute) :
    Referenced ((w.cloneRef p).setPte i v ⟨p, attr⟩) := by
  refine RefsOk.setPte ?_ attr
  rw [refOf_eq hp]
  exact RefsOk.acquire h hp

theorem Referenced.emptyPage_ne : w.emptyPage ≠ 0 :=
  fun hz => h.nonzero .empty (congrArg some hz)

theorem Referenced.clearPte : Referenced (w.setPte i v {}) := by
  refine RefsOk.setPte (p := 0) (RefsOk.weaken h fun k u q hq => ?_) _
  by_cases heq : k = i ∧ u = v
  · obtain ⟨rfl, rfl⟩ := heq
    rw [setRef_same] at hq
    cases hq
  · rwa [setRef_of_ne heq] at hq

theorem Referenced.clearTable (lists : ℕ → Option MMListLocked) :
    Referenced { w with lists := lists, ptes := update w.ptes i fun _ => {} } := by
  have hweak : RefsOk w (update w.refs i fun _ => none) := by
    refine RefsOk.weaken h fun k u q hq => ?_
    by_cases hk : k = i
    · subst hk
      rw [update_self] at hq
      cases hq
    · rwa [update_of_ne hk] at hq
  have hrefs : ({ w with lists := lists, ptes := update w.ptes i fun _ => {} } :
      World).refs = update w.refs i fun _ => none := by
    funext k u
    unfold refs
    dsimp only
    by_cases hk : k = i
    · subst hk
      rw [update_self, update_self]
      rfl
    · rw [update_of_ne hk, update_of_ne hk]
  unfold Referenced
  rw [hrefs]
  exact ⟨hweak.counted, hweak.nonzero⟩

theorem Referenced.setList (l : MMListLocked) : Referenced (w.setList i l) :=
  ⟨h.counted, h.nonzero⟩

theorem Referenced.dropPte (hf : ∀ x, (f x).data = x.data ∧ (f x).refcount = x.refcount - 1) :
    Referenced ((w.setPte i v {}).updateFrame (w.ptes i v).pfn f) := by
  by_cases hp : (w.ptes i v).pfn = 0
  · rw [hp]
    exact RefsOk.drop_zero h.clearPte (hf _).2
  · have hrel : RefsOk (w.updateFrame (w.ptes i v).pfn f) (setRef w.refs i v none) :=
      RefsOk.release h (refOf_eq hp) (hf _).2
    unfold Referenced
    rw [show ((w.setPte i v {}).updateFrame (w.ptes i v).pfn f).refs = (w.setPte i v {}).refs from
      rfl, refs_setPte]
    exact ⟨hrel.counted, hrel.nonzero⟩

end

theorem referenced_steps : EntrySteps Referenced where
  setList h := h.setList _
  clearTable lists h := h.clearTable lists
  clearPte h := h.clearPte
  drop h hf := h.dropPte hf
  setAttr attr h := h.setAttr attr
  point attr h hp := h.point (hp.elim id fun hp => hp ▸ h.emptyPage_ne) attr

theorem Referenced.onAreas {op : Op} (h : Referenced w)
    (hinv : ∀ i l, w.lists i = some l → LockedInv l) (hop : Contract w op)
    (hareas : op.onAreas = true) (hrun : w.run op = .ok w') : Referenced w' :=
  referenced_steps.run h hinv hop hareas hrun

/-! ### Page faults -/

section Faults

variable {pick : Pick} {backend : Backend} {area : MMArea} {pfn pfn' : PFN}
  {attr attr' : PageAttribute} {offset count' : ℕ} {write : Bool}

section

variable (h : RefsOk w R) (hpick : Pick.Lawful pick)
include h hpick

theorem RefsOk.handleCow (href : R i v = refOf pfn)
    (hrun : w.handleCow pick area pfn attr = .ok (pfn', attr', w')) :
    RefsOk w' (setRef R i v (some pfn')) ∧ pfn' ≠ 0 := by
  obtain ⟨hpfn, ⟨-, rfl, rfl, -⟩ | ⟨-, hp, rfl, -⟩⟩ := handleCow_cases hrun
  · rw [setRef_self (href.trans (refOf_eq hpfn))]
    exact ⟨h, hpfn⟩
  · obtain ⟨hfree, hne⟩ := hpick _ _ hp
    have href' : R i v = some pfn := href.trans (refOf_eq hpfn)
    have hdiff : pfn' ≠ pfn := fun heq => h.not_target hfree (.pte i v) (heq ▸ href')
    have hfree' : (w.releaseRef pfn).count pfn' = 0 := by
      rw [count_releaseRef, update_of_ne hdiff]
      exact hfree
    have hrel : RefsOk (w.releaseRef pfn) (setRef R i v none) := h.release href' rfl
    have halloc := hrel.alloc (i := i) (v := v) hne hfree' (w.cowData pfn)
    rw [setRef_setRef] at halloc
    refine ⟨halloc.mono rfl rfl fun q => le_of_eq ?_, hne⟩
    -- the two changes are about different frames
    rw [count_allocate, count_releaseRef, count_releaseRef, count_allocate,
      update_of_ne hdiff.symm, update_comm hdiff.symm]

theorem RefsOk.withPage {io : PageIo} {file index : ℕ} {r : KResult (Option PFN)}
    (hrun : w.withPage pick io file index = .ok (r, w')) :
    RefsOk w' R ∧ ∀ p, r = .ok (some p) → w'.caches file index = some p := by
  obtain ⟨-, rfl, rfl⟩ | ⟨p, rfl, hp, rfl⟩ | ⟨err, p, -, -, rfl, hp, rfl⟩ |
    ⟨data, p, rfl, -, hp, rfl⟩ := withPage_cases hrun
  · exact ⟨h, fun q hq => nomatch hq⟩
  · refine ⟨h, fun q hq => ?_⟩
    cases hq
    exact hp
  · refine ⟨h.mono rfl rfl (count_le_alloc (hpick _ _ hp).1 _), fun q hq => nomatch hq⟩
  · refine ⟨h.cachePage (hpick _ _ hp).2 (hpick _ _ hp).1 data file index, fun q hq => ?_⟩
    cases hq
    unfold setCache
    dsimp only
    rw [update_self, updateFrame_caches, update_self]

theorem RefsOk.handleMmap (hrun : w.handleMmap pick backend area attr offset write = .ok (r, w')) :
    (∀ err, r = .error err → RefsOk w' R) ∧
      ∀ pfn' attr', r = .ok (pfn', attr') → RefsOk w' (setRef R i v (some pfn')) ∧ pfn' ≠ 0 := by
  obtain ⟨m, r1, w1, -, hpage, ⟨err, rfl, rfl, -⟩ | ⟨p, n, pfn1, attr1, rfl, hmap, rfl⟩⟩ :=
    handleMmap_cases hrun
  · exact ⟨fun _ _ => (h.withPage hpick hpage).1, fun _ _ heq => nomatch heq⟩
  · obtain ⟨hw1, hcached⟩ := h.withPage hpick hpage
    refine ⟨fun _ heq => (nomatch heq), fun pfn' attr' heq => ?_⟩
    cases heq
    obtain ⟨-, ⟨rfl, rfl, -⟩ | ⟨-, hp, rfl⟩⟩ := mapPage_cases hmap
    · have hne : pfn1 ≠ 0 := by
        rintro rfl
        exact hw1.nonzero (.cache _ _) (hcached 0 rfl)
      exact ⟨hw1.acquire hne, hne⟩
    · exact ⟨hw1.alloc (hpick _ _ hp).2 (hpick _ _ hp).1 _, (hpick _ _ hp).2⟩

theorem RefsOk.resolve (href : R i v = refOf pfn)
    (hrun : w.resolve pick backend area pfn attr offset write = .ok (r, w')) :
    (∀ err, r = .error err → attr.copyOnWrite = false → RefsOk w' R) ∧
      ∀ pfn' attr', r = .ok (pfn', attr') → RefsOk w' (setRef R i v (refOf pfn')) := by
  obtain ⟨pfn1, attr1, w1, hcow, hmap⟩ := resolve_cases hrun
  have h1 : RefsOk w1 (setRef R i v (refOf pfn1)) ∧
      (attr.copyOnWrite = false → setRef R i v (refOf pfn1) = R) := by
    rcases hcow with ⟨hc, hcow⟩ | ⟨-, rfl, -, rfl⟩
    · obtain ⟨hok, hne⟩ := h.handleCow hpick href hcow
      rw [refOf_eq hne]
      refine ⟨hok, fun hc' => ?_⟩
      rw [hc] at hc'
      cases hc'
    · rw [setRef_self href]
      exact ⟨h, fun _ => rfl⟩
  rcases hmap with ⟨-, rfl, rfl⟩ | ⟨-, hmap⟩
  · refine ⟨fun _ heq => (nomatch heq), fun pfn' attr' heq => ?_⟩
    cases heq
    exact h1.1
  · obtain ⟨herr, hok⟩ := h1.1.handleMmap (i := i) (v := v) hpick hmap
    refine ⟨fun err heq hc => ?_, fun pfn' attr' heq => ?_⟩
    · have hR := herr err heq
      rwa [h1.2 hc] at hR
    · obtain ⟨hR, hne⟩ := hok pfn' attr' heq
      rw [refOf_eq hne]
      rwa [setRef_setRef] at hR

end

theorem Referenced.handle (h : Referenced w) (hpick : Pick.Lawful pick) {r : KResult Unit}
    (hok : (w.ptes i v).attr.copyOnWrite = true → r = .ok ())
    (hrun : w.handle pick backend area i v offset write = .ok (r, w')) : Referenced w' := by
  obtain ⟨r1, w1, hres, hr⟩ := handle_cases hrun
  have hrefs : w1.refs = w.refs := by
    unfold refs
    rw [(resolve_keeps hres).ptes]
  obtain ⟨herr, hok'⟩ := RefsOk.resolve (i := i) (v := v) h hpick rfl hres
  obtain ⟨err, rfl, rfl, rfl⟩ | ⟨pfn1, attr1, rfl, -, rfl⟩ := hr
  · unfold Referenced
    rw [hrefs]
    refine herr err rfl ?_
    cases hc : (w.ptes i v).attr.copyOnWrite with
    | false => rfl
    | true => exact nomatch hok hc
  · refine RefsOk.setPte ?_ _
    rw [hrefs]
    exact hok' pfn1 attr1 rfl

end Faults

theorem Referenced.setData (h : Referenced w) (p : PFN) (f : PhysFrame → PageData) :
    Referenced (w.updateFrame p fun x => { x with data := f x }) := by
  refine RefsOk.mono h rfl rfl fun q => le_of_eq ?_
  rw [count_updateFrame]
  exact (congrFun (update_eq_self p w.count) q).symm

/-! ### The machine -/

/-- No address space exists yet; `EMPTY_PAGE` and the page caches hold their frames. -/
structure Initial (w : World) : Prop where
  lists : ∀ i, w.lists i = none
  ptes : ∀ i v, w.ptes i v = {}
  zero : ∀ o, (w.frames w.emptyPage).data o = 0
  referenced : Referenced w

def machine (Allowed : World → Op → Prop) : System World Op MMPanic where
  init := Initial
  allowed w op := Contract w op ∧ Allowed w op
  run := run

def boot : World where
  frames p := if p = 1 then { refcount := 1, allocated := 1 } else {}
  emptyPage := 1
  lists _ := none
  ptes _ _ := {}
  caches _ _ := none

theorem initial_boot : Initial boot := by
  have htarget : ∀ r p, boot.target boot.refs r = some p → r = .empty ∧ p = 1 := by
    intro r p hr
    cases r with
    | pte i v => cases hr
    | cache file index => cases hr
    | empty => exact ⟨rfl, (Option.some.inj hr).symm⟩
  refine ⟨fun _ => rfl, fun _ _ => rfl, fun _ => rfl, ⟨fun p S hS => ?_, fun r hr => ?_⟩⟩
  · rcases S.eq_empty_or_nonempty with rfl | ⟨r, hr⟩
    · exact Nat.zero_le _
    · obtain ⟨-, rfl⟩ := htarget r p (hS r hr)
      have hsub : S ⊆ {Place.empty} := fun s hs =>
        Finset.mem_singleton.mpr (htarget s 1 (hS s hs)).1
      exact Finset.card_le_card hsub
  · exact absurd (htarget r 0 hr).2 (by decide)

def twoFrames : Pick := fun frames => [2, 3].find? fun p => (frames p).refcount == 0

theorem lawful_twoFrames : Pick.Lawful twoFrames := by
  intro frames p hp
  refine ⟨by simpa using List.find?_some hp, ?_⟩
  rintro rfl
  exact absurd (List.mem_of_find?_eq_some hp) (by decide)

end World

end Dlutos
