import Dlutos.AddressSpace.Contents
import Dlutos.AddressSpace.References
import Dlutos.AddressSpace.StrayEntries

/-!
# Copy-on-write of private anonymous areas

Every entry of an area refers to a frame and lets user programs read; an entry that is not
copy-on-write is the only place that refers to its frame, and it has the write permission of its
area.  The calls on areas keep this and return; a page fault returns or runs out of memory.
-/

namespace Dlutos

open Addr AddrRange ExceptLoop RefCount Function

namespace World

/-- The hardware lets a user program read through the entry. -/
def loadable (pte : PTE) : Bool := pte.attr.present && pte.attr.read && pte.attr.user

def targets (w : World) : Place → Option PFN := w.target w.refs

structure CowEntry (T : Place → Option PFN) (i v : ℕ) (a : MMArea) (t : PTE) : Prop where
  anonymous : a.mapping = .anonymous
  isPrivate : a.isShared = false
  readable : a.permission.read = true
  loadable : loadable t = true
  mapped : t.attr.mapped = false
  pfn : t.pfn ≠ 0
  cow : t.attr.copyOnWrite = true → t.attr.write = false
  own : t.attr.copyOnWrite = false → t.attr.write = a.permission.write ∧
    ∀ r, T r = some t.pfn → r = .pte i v

structure CowInv (w : World) : Prop where
  referenced : Referenced w
  zero : ∀ o, (w.frames w.emptyPage).data o = 0
  entries : Entrywise (CowEntry w.targets) w
  tidy : ∀ i v, Stray (w.ptes i v) ∨ InArea w i v

/-- Mappings are private, anonymous and readable, and areas stay readable. -/
def PrivateAnonymous : Op → Prop
  | .mmapFixed _ _ _ mapping permission isShared =>
    mapping = .anonymous ∧ permission.read = true ∧ isShared = false
  | .mmapHint _ _ _ _ mapping permission isShared =>
    mapping = .anonymous ∧ permission.read = true ∧ isShared = false
  | .protect _ _ _ permission => permission.read = true
  | _ => True

variable {t : PTE}

theorem loadable_iff : loadable t = true ↔
    t.attr.present = true ∧ t.attr.read = true ∧ t.attr.user = true := by
  unfold loadable
  simp only [Bool.and_eq_true, and_assoc]

variable {w w' : World} {i j v : ℕ} {l : MMListLocked}

/-! ### Entries under the calls on areas -/

variable {T : Place → Option PFN}

theorem CowEntry.part {x a : MMArea} (h : CowEntry T i v a t) (hpart : IsPart x a)
    (hperm : x.permission = a.permission) : CowEntry T i v x t := by
  have hmapping : x.mapping = .anonymous := by
    have hskips := hpart.mapping
    rw [h.anonymous] at hskips
    cases hx : x.mapping with
    | anonymous => rfl
    | file m =>
      rw [hx] at hskips
      exact hskips.elim
  refine ⟨hmapping, hpart.shared.trans h.isPrivate, ?_, h.loadable, h.mapped, h.pfn, h.cow, ?_⟩
  · rw [hperm]
    exact h.readable
  · rw [hperm]
    exact h.own

theorem CowEntry.clone {a : MMArea} (h : CowEntry T i v a t) (j : ℕ) :
    parentEntry a.isShared t = ⟨t.pfn, cowAttr t.attr⟩ ∧
      childEntry a.isShared t = ⟨t.pfn, { cowAttr t.attr with accessed := false }⟩ ∧
      CowEntry T i v a (parentEntry a.isShared t) ∧
      CowEntry T j v a (childEntry a.isShared t) := by
  have hpresent := (loadable_iff.mp h.loadable).1
  have hparent : parentEntry a.isShared t = ⟨t.pfn, cowAttr t.attr⟩ := by
    unfold parentEntry
    simp [h.isPrivate, hpresent]
  have hchild : childEntry a.isShared t = ⟨t.pfn, { cowAttr t.attr with accessed := false }⟩ := by
    unfold childEntry
    simp [h.isPrivate, hpresent]
  refine ⟨hparent, hchild, ?_, ?_⟩
  · rw [hparent]
    exact { h with cow := fun _ => rfl, own := nofun }
  · rw [hchild]
    exact { h with cow := fun _ => rfl, own := nofun }

theorem cowEntry_fresh (T : Place → Option PFN) (i v : ℕ) (range : AddrRange)
    {permission : Permission} (hread : permission.read = true) {p : PFN} (hp : p ≠ 0) :
    CowEntry T i v ⟨range, .anonymous, permission, false⟩ ⟨p, freshAttr .anonymous permission⟩ :=
  ⟨rfl, rfl, hread, rfl, rfl, hp, fun _ => rfl, fun hc => Bool.noConfusion (show true = false from hc)⟩

theorem CowEntry.protect {x a : MMArea} (h : CowEntry T i v a t) (hpart : IsPart x a)
    (hread : x.permission.read = true) :
    CowEntry T i v x ⟨t.pfn, protectAttr x.permission t.attr⟩ := by
  have hold := h.part (hpart.withPermission a.permission) rfl
  obtain ⟨hpresent, -, huser⟩ := loadable_iff.mp h.loadable
  have hattr : protectAttr x.permission t.attr = { t.attr with
      read := x.permission.read
      write := if t.attr.copyOnWrite then t.attr.write else x.permission.write
      execute := x.permission.execute } := by
    unfold protectAttr
    simp [hread]
  rw [hattr]
  refine ⟨hold.anonymous, hold.isPrivate, hread, loadable_iff.mpr ⟨hpresent, hread, huser⟩,
    h.mapped, h.pfn, fun hc => ?_, fun hc => ?_⟩
  · have hc : t.attr.copyOnWrite = true := hc
    simp only [hc, if_true]
    exact h.cow hc
  · have hc : t.attr.copyOnWrite = false := hc
    simp only [hc, Bool.false_eq_true, if_false]
    exact ⟨trivial, (h.own hc).2⟩

theorem cowEntry_rules (hempty : w.emptyPage ≠ 0) (T : Place → Option PFN) {op : Op}
    (hop : PrivateAnonymous op) : EntryRules (CowEntry T) w op where
  part i v x a t hpart hperm h := h.part hpart hperm
  clone i j _ l _ a _ v _ h := (h.clone j).2.2
  fresh mapping permission isShared hmaps i v range := by
    cases op with
    | mmapFixed k addr len =>
      cases hmaps
      obtain ⟨rfl, hread, rfl⟩ := hop
      exact cowEntry_fresh T i v range hread hempty
    | mmapHint k fuel hint len =>
      cases hmaps
      obtain ⟨rfl, hread, rfl⟩ := hop
      exact cowEntry_fresh T i v range hread hempty
    | _ => cases hmaps
  protect i start len permission heq l hl a ha v hmask hav h x hpart hperm := by
    subst heq
    subst hperm
    exact h.protect hpart hop

/-! ### Frames and areas of the entries after a call on areas -/

/-- After a call on areas an entry keeps its frame, loses it, gets the empty page, or shares the
frame of an entry that is now copy-on-write. -/
def Rearranges (w w' : World) : Prop :=
  ∀ k u, (w'.ptes k u).pfn = (w.ptes k u).pfn ∨ (w'.ptes k u).pfn = 0 ∨
    (w'.ptes k u).pfn = w.emptyPage ∨
    ∃ i, (w'.ptes k u).pfn = (w.ptes i u).pfn ∧ (w'.ptes i u).attr.copyOnWrite = true

theorem Rewrites.rearranges {o : Option MMListLocked} {P : ℕ → Prop} {e : PTE → PTE}
    (hrw : Rewrites i o P e w w')
    (he : ∀ t, (e t).pfn = t.pfn ∨ (e t).pfn = 0 ∨ (e t).pfn = w.emptyPage) : Rearranges w w' := by
  intro k u
  by_cases hu : k = i ∧ P u
  · obtain ⟨rfl, hu⟩ := hu
    rw [hrw.set u hu]
    exact (he (w.ptes k u)).imp_right (Or.imp_right Or.inl)
  · rw [hrw.other k u hu]
    exact Or.inl rfl

theorem CowInv.fork_rearranges (h : CowInv w) (hl : w.lists i = some l)
    (hforked : Forked i j l w w') : Rearranges w w' := by
  obtain ⟨hinv, hentries⟩ := h.entries i l hl
  -- both entries of a page of an area are copy-on-write
  have hpage : ∀ a ∈ l.areas.elems, ∀ u, u ∈ pagesOf a.range →
      w'.ptes i u = ⟨(w.ptes i u).pfn, cowAttr (w.ptes i u).attr⟩ ∧
        (w'.ptes j u).pfn = (w.ptes i u).pfn := by
    intro a ha u hu
    have hau := (hinv.areas.ok a ha).mem_pagesOf.mp hu
    obtain ⟨hparent, hchild, -⟩ := (hentries a ha u hau).clone j
    rw [hforked.parent a ha u hu, hforked.child a ha u hu, hparent, hchild]
    exact ⟨rfl, rfl⟩
  intro k u
  by_cases hu : (k = i ∨ k = j) ∧ ∃ a ∈ l.areas.elems, u ∈ pagesOf a.range
  · obtain ⟨hk, a, ha, hu⟩ := hu
    obtain ⟨hi, hj'⟩ := hpage a ha u hu
    rcases hk with rfl | rfl
    · rw [hi]
      exact Or.inl rfl
    · refine Or.inr (Or.inr (Or.inr ⟨i, hj', ?_⟩))
      rw [hi]
      rfl
  · rw [hforked.other k u hu]
    split
    · exact Or.inr (Or.inl rfl)
    · exact Or.inl rfl

theorem CowInv.rearranges {op : Op} (h : CowInv w) (hop : Contract w op)
    (hareas : op.onAreas = true) (hrun : w.run op = .ok w') : Rearranges w w' := by
  have hcalls : TableCalls (Rearranges w) w op :=
    { same := fun _ _ => Or.inl rfl
      clear := fun i o w' _ hrw => hrw.rearranges fun _ => Or.inr (Or.inl rfl)
      maps := fun i l l' range mapping permission isShared w' _ _ _ hrw =>
        hrw.rearranges fun _ => Or.inr (Or.inr rfl)
      cut := fun i start len perm l mids l' w' _ _ _ hrw => hrw.rearranges fun _ => by
        cases perm with
        | none => exact Or.inr (Or.inl rfl)
        | some permission => exact Or.inl rfl
      fork := fun i j l w' _ hl _ _ hforked => h.fork_rearranges hl hforked }
  exact hcalls.run (fun i l hl => (h.entries i l hl).1) hop hareas hrun

theorem CowInv.onAreas {op : Op} (h : CowInv w) (hop : Contract w op) (hpriv : PrivateAnonymous op)
    (hareas : op.onAreas = true) (hrun : w.run op = .ok w') : CowInv w' := by
  have hinv := fun i l hl => (h.entries i l hl).1
  have hsame := run_sameContents hinv hop hareas hrun
  have htidy := Tidy.onAreas h.tidy stray_null hinv hop hareas hrun
  have hempty := h.referenced.emptyPage_ne
  refine ⟨h.referenced.onAreas hinv hop hareas hrun, fun o => ?_, ?_, htidy⟩
  · rw [hsame.emptyPage, hsame.data]
    exact h.zero o
  · refine (h.entries.onAreas hop hareas (cowEntry_rules hempty w.targets hpriv) hrun).mono ?_
    intro k m hm a ha u hu hentry
    refine { hentry with own := fun hc => ⟨(hentry.own hc).1, fun r hr => ?_⟩ }
    have hown := (hentry.own hc).2
    cases r with
    | cache file index =>
      refine hown (.cache file index) ?_
      exact (congrFun (congrFun hsame.caches file) index).symm.trans hr
    | empty =>
      refine hown .empty ?_
      exact (congrArg some hsame.emptyPage).symm.trans hr
    | pte i v =>
      have hpfn := eq_of_refOf hr
      rcases h.rearranges hop hareas hrun i v with heq | heq | heq | ⟨k', heq, hcow⟩
      · refine hown (.pte i v) ?_
        change refOf (w.ptes i v).pfn = _
        rw [← heq]
        exact hr
      · exact absurd (hpfn.symm.trans heq) hentry.pfn
      · -- an owner does not own the empty page
        have hempty := hown .empty (congrArg some (heq.symm.trans hpfn))
        cases hempty
      · -- the frame comes from an entry that is copy-on-write now
        have hparent := hown (.pte k' v) (by
          change refOf (w.ptes k' v).pfn = _
          rw [← heq]
          exact hr)
        cases hparent
        rw [hc] at hcow
        cases hcow

end World

end Dlutos
