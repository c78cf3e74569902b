import Dlutos.AddressSpace.Permissions
import Dlutos.AddressSpace.RawEntry
import Dlutos.AddressSpace.StrayEntries

/-!
# Entries that decode as pages

The entry of a page of an area should be readable as a page attribute.  A present entry without
`READ`, `WRITE` and `EXECUTE` is not.  Three steps can make such an entry:

* `protect` with write permission only, on a present copy-on-write entry, which does not get
  `WRITE`;
* a clone of a private area with a present entry that has only `WRITE`, which is taken away;
* a read of the kernel from a page of a file that is not read yet, after `protect` has taken away
  all permissions of the area.

`KeepsLeaves` excludes exactly these.
-/

namespace Dlutos

open Addr AddrRange ExceptLoop Transition

namespace World

/-- The entry can be read as a page attribute. -/
def Decodes (t : PTE) : Prop := t.attr.asPageAttr = some t.attr

theorem decodes_iff {t : PTE} : Decodes t ↔ (t.attr.present = true →
    t.attr.read = true ∨ t.attr.write = true ∨ t.attr.execute = true) := by
  unfold Decodes PageAttribute.asPageAttr
  cases t.attr.present <;> cases t.attr.read <;> cases t.attr.write <;> cases t.attr.execute <;>
    simp

structure DecodesAsPage (t : PTE) : Prop where
  page : (PTE64.ofEntry t).getAttr.asPageAttr = some t.attr
  table : ∀ table, (PTE64.ofEntry t).getAttr.asTableAttr = some table → table.present = false

theorem Decodes.asPage {t : PTE} (h : Decodes t) : DecodesAsPage t := by
  have hpage : (PTE64.ofEntry t).getAttr.asPageAttr = some t.attr :=
    (PTE64.asPageAttr_getAttr_ofEntry t).trans h
  exact ⟨hpage, fun table htable => PTE64.not_present_of_asTableAttr hpage htable⟩

def PagesDecode (w : World) : Prop :=
  ∀ i l, w.lists i = some l → ∀ a ∈ l.areas.elems, ∀ v, a.range.Contains (v * PAGE_SIZE) →
    DecodesAsPage (w.ptes i v)

def writeOnly (permission : Permission) : Bool :=
  permission.write && !permission.read && !permission.execute

/-- A read of a page of a file that is not read yet gives an entry with some permission. -/
def Legible (area : MMArea) (t : PTE) (write : Bool) : Prop :=
  t.attr.mapped = true → write = false → grantsAny area.permission = false →
    t.attr.read = true ∨ t.attr.execute = true

/-- The steps that leave entries which decode as pages. -/
def KeepsLeaves (w : World) : Op → Prop
  | .protect i start len permission => writeOnly permission = true →
    ∀ l, w.lists i = some l → ∀ a ∈ l.areas.elems, ∀ v, a.range.Contains (v * PAGE_SIZE) →
      (maskOf start len).Contains (v * PAGE_SIZE) → (w.ptes i v).attr.present = true →
      (w.ptes i v).attr.copyOnWrite = true → (w.ptes i v).attr.write = true
  | .fork i _ => ∀ l, w.lists i = some l → ∀ a ∈ l.areas.elems, a.isShared = false →
    ∀ v, a.range.Contains (v * PAGE_SIZE) → (w.ptes i v).attr.present = true →
      (w.ptes i v).attr.read = true ∨ (w.ptes i v).attr.execute = true
  | .kernelFault _ _ i addr write => ∀ l, w.lists i = some l →
    ∀ a, l.areas.overlappingAddr addr = some a → Legible a (w.ptes i (addr / PAGE_SIZE)) write
  | .readBytes _ _ i _ start len _ => ∀ l, w.lists i = some l → ∀ a v, Visits l start len a v →
    Legible a (w.ptes i v) false
  | _ => True

/-! ### One entry -/

/-- The last two fields are about entries with neither `READ` nor `EXECUTE`, which only `protect`
makes. -/
structure LeafEntry (_ _ : ℕ) (a : MMArea) (t : PTE) : Prop where
  decodes : t.attr.present = true →
    t.attr.read = true ∨ t.attr.write = true ∨ t.attr.execute = true
  cow : t.attr.present = true → t.attr.copyOnWrite = true → t.attr.read = false →
    t.attr.execute = false → a.permission.write = true
  mapped : t.attr.mapped = true → t.attr.read = false → t.attr.execute = false →
    a.permission.read = false ∧ a.permission.execute = false ∧
      (t.attr.copyOnWrite = false → a.permission.write = true → t.attr.write = true)

section Entry

variable {w w' : World} {pick : Pick} {backend : Backend} {area a x : MMArea} {pfn pfn' : PFN}
  {attr attr' : PageAttribute} {offset i j v : ℕ} {write : Bool} {t : PTE}

theorem LeafEntry.part (h : LeafEntry i v a t) (hperm : x.permission = a.permission) :
    LeafEntry i v x t := by
  refine ⟨h.decodes, ?_, ?_⟩
  · rw [hperm]
    exact h.cow
  · rw [hperm]
    exact h.mapped

theorem leafEntry_null (i v : ℕ) (a : MMArea) : LeafEntry i v a {} :=
  ⟨fun hp => (nomatch hp), fun hp => (nomatch hp), fun hm => (nomatch hm)⟩

theorem leafEntry_fresh (i v : ℕ) (range : AddrRange) (mapping : Mapping) (permission : Permission)
    (isShared : Bool) (p : PFN) :
    LeafEntry i v ⟨range, mapping, permission, isShared⟩ ⟨p, freshAttr mapping permission⟩ := by
  have hread : (freshAttr mapping permission).read = true := by
    cases mapping with
    | anonymous => rfl
    | file m => rfl
  refine ⟨fun _ => Or.inl hread, fun _ _ hr => ?_, fun _ hr => ?_⟩
  · exact absurd (hread.symm.trans hr) (by decide)
  · exact absurd (hread.symm.trans hr) (by decide)

theorem LeafEntry.protect {permission : Permission} (hperm : x.permission = permission)
    (hwrite : writeOnly permission = true → t.attr.present = true → t.attr.copyOnWrite = true →
      t.attr.write = true) :
    LeafEntry i v x ⟨t.pfn, protectAttr permission t.attr⟩ := by
  subst hperm
  unfold writeOnly at hwrite
  have hcases : ∀ r w e, x.permission.read = r → x.permission.write = w →
      x.permission.execute = e → LeafEntry i v x ⟨t.pfn, protectAttr x.permission t.attr⟩ := by
    intro r w e hr hw he
    rw [hr, hw, he] at hwrite
    cases r <;> cases w <;> cases e <;> cases hc : t.attr.copyOnWrite <;>
      refine ⟨?_, ?_, ?_⟩ <;> simp_all [protectAttr]
  exact hcases _ _ _ rfl rfl rfl

theorem LeafEntry.clone (h : LeafEntry i v a t) (j : ℕ) (hfork : a.isShared = false →
      t.attr.present = true → t.attr.read = true ∨ t.attr.execute = true) :
    LeafEntry i v a (parentEntry a.isShared t) ∧ LeafEntry j v a (childEntry a.isShared t) := by
  cases hs : a.isShared with
  | true => exact ⟨⟨h.decodes, h.cow, h.mapped⟩, ⟨h.decodes, h.cow, h.mapped⟩⟩
  | false =>
    have hcow : ∀ k acc, LeafEntry k v a ⟨t.pfn, { cowAttr t.attr with accessed := acc }⟩ := by
      refine fun k acc => ⟨fun hp => ?_, fun hp _ hr he => ?_, fun hm hr he => ?_⟩
      · exact (hfork hs hp).imp_right Or.inr
      · have hr : t.attr.read = false := hr
        have he : t.attr.execute = false := he
        rcases hfork hs hp with hread | hexec
        · rw [hr] at hread
          cases hread
        · rw [he] at hexec
          cases hexec
      · obtain ⟨hread, hexec, -⟩ := h.mapped hm hr he
        exact ⟨hread, hexec, fun hc => Bool.noConfusion (show true = false from hc)⟩
    unfold parentEntry childEntry
    rw [Bool.false_or, if_neg Bool.false_ne_true]
    cases hpm : t.attr.present || t.attr.mapped with
    | true => exact ⟨hcow i t.attr.accessed, hcow j false⟩
    | false => exact ⟨h, leafEntry_null j v a⟩

theorem LeafEntry.handle {r : KResult Unit}
    (h : w.handle pick backend area i v offset write = .ok (r, w'))
    (hok : LeafEntry i v area (w.ptes i v)) (hleg : Legible area (w.ptes i v) write) :
    LeafEntry i v area (w'.ptes i v) := by
  obtain ⟨-, heq⟩ | ⟨pfn, attr, hattr, heq⟩ := handle_entry h
  · rwa [heq]
  rw [heq]
  have hbare : attr.present = true → attr.read = false → attr.execute = false →
      attr.write = true := by
    intro hp hr he
    rw [hattr.read] at hr
    rw [hattr.execute] at he
    refine hattr.kept ?_
    rw [hattr.present] at hp
    cases hm : (w.ptes i v).attr.mapped with
    | false =>
      left
      rw [hm, or_iff_left Bool.false_ne_true] at hp
      cases hc : (w.ptes i v).attr.copyOnWrite with
      | true => exact hok.cow hp hc hr he
      | false =>
        rcases hok.decodes hp with hd | hd | hd
        · rw [hr] at hd
          cases hd
        · exact hd
        · rw [he] at hd
          cases hd
    | true =>
      obtain ⟨hpr, hpe, hpw⟩ := hok.mapped hm hr he
      cases hwr : write with
      | true => exact Or.inr ⟨rfl, rfl⟩
      | false =>
        left
        -- the area grants something, and that is writing
        have hgrant : area.permission.write = true := by
          cases hg : grantsAny area.permission with
          | false =>
            rcases hleg hm hwr hg with hl | hl
            · rw [hr] at hl
              cases hl
            · rw [he] at hl
              cases hl
          | true =>
            unfold grantsAny at hg
            rw [hpr, hpe, Bool.false_or, Bool.or_false] at hg
            exact hg
        cases hc : (w.ptes i v).attr.copyOnWrite with
        | true => exact hgrant
        | false => exact hpw hc hgrant
  refine ⟨fun hp => ?_, fun _ hc _ _ => hattr.cow hc,
    fun hm => absurd (hattr.mapped.symm.trans hm) Bool.false_ne_true⟩
  change attr.read = true ∨ attr.write = true ∨ attr.execute = true
  have hp : attr.present = true := hp
  cases hr : attr.read with
  | true => exact Or.inl rfl
  | false =>
    cases he : attr.execute with
    | true => exact Or.inr (Or.inr rfl)
    | false => exact Or.inr (Or.inl (hbare hp hr he))

end Entry

/-! ### Whole calls -/

/-- All entries of areas are leaves, and the others are stray. -/
structure DecodeInv (w : World) : Prop where
  entries : Entrywise LeafEntry w
  tidy : Tidy Stray w

def Decoded (e : MMPanic) : Prop := e ≠ .notPageAttribute

section Calls

variable {w : World} {pick : Pick} {backend : Backend} {area : MMArea} {pfn : PFN}
  {attr : PageAttribute} {offset i j v : ℕ} {write : Bool} {l : MMListLocked} {op : Op}

theorem DecodeInv.decodes (h : DecodeInv w) (i v : ℕ) : Decodes (w.ptes i v) := by
  rw [decodes_iff]
  rcases h.tidy i v with hstray | ⟨l, hl, a, ha, hav⟩
  · intro hp
    rw [hstray.present] at hp
    cases hp
  · exact ((h.entries i l hl).2 a ha v hav).decodes

theorem allocPage_decoded (data : PageData) :
    Ensures Decoded (fun _ => True) (w.allocPage pick data) := by
  unfold allocPage
  split
  · exact fun h => nomatch h
  · trivial

theorem fromRaw_decoded (p : PFN) : Ensures Decoded (fun _ => True) (fromRaw p) :=
  (ensures_assertOr fun _ h => nomatch h).mono fun _ _ => trivial

theorem dropRef_decoded (w : World) (p : PFN) :
    Ensures Decoded (fun _ => True) (w.dropRef p) := by
  unfold dropRef
  exact Ensures.bind (ensures_assertOr fun _ h => nomatch h) fun _ _ => trivial

theorem withPage_decoded (io : PageIo) (file index : ℕ) :
    Ensures Decoded (fun _ => True) (w.withPage pick io file index) := by
  unfold withPage
  split
  · exact fun h => nomatch h
  · trivial
  · trivial
  · exact (allocPage_decoded _).bind fun _ _ => trivial
  · exact (allocPage_decoded _).bind fun _ _ => trivial

theorem mapPage_decoded (p : PFN) (count : ℕ) :
    Ensures Decoded (fun _ => True) (w.mapPage pick area p attr count write) := by
  unfold mapPage copyPage
  split
  · split
    · trivial
    · refine Ensures.bind (P := fun _ => True) ?_ fun _ _ => trivial
      split
      · exact allocPage_decoded _
      · trivial
  · refine Ensures.bind (P := fun _ => True) ?_ fun _ _ => trivial
    split
    · trivial
    · exact allocPage_decoded _

theorem resolve_decoded :
    Ensures Decoded (fun _ => True) (w.resolve pick backend area pfn attr offset write) := by
  unfold resolve
  refine Ensures.bind (P := fun _ => True) ?_ ?_
  · split
    · unfold handleCow
      refine (fromRaw_decoded _).bind fun _ _ => ?_
      split
      · trivial
      · exact (allocPage_decoded _).bind fun _ _ => (dropRef_decoded _ _).bind fun _ _ => trivial
    · trivial
  · rintro ⟨pfn1, attr1, w1⟩ -
    dsimp only
    split
    · unfold handleMmap
      split
      · exact fun h => nomatch h
      · refine Ensures.bind (ensures_assertOr fun _ h => nomatch h) fun _ _ => ?_
        refine (withPage_decoded _ _ _).bind ?_
        rintro ⟨err | p | p, w2⟩ -
        · trivial
        · trivial
        · exact (mapPage_decoded _ _).bind fun _ _ => trivial
    · trivial

theorem DecodeInv.handle (h : DecodeInv w)
    (harea : w.OnlyArea i v area) (hleg : Legible area (w.ptes i v) write) :
    Ensures Decoded (fun x => DecodeInv x.2)
      (w.handle pick backend area i v offset write) := by
  refine ensures_of_forall (fun e he => ?_) fun x hrun => ⟨?_, ?_⟩
  · unfold World.handle at he
    rw [show (w.ptes i v).attr.asPageAttr = some (w.ptes i v).attr from h.decodes i v] at he
    refine Ensures.of_error (P := fun _ => True) (resolve_decoded.bind ?_) he
    rintro ⟨err | t, w1⟩ -
    · trivial
    · trivial
  · refine h.entries.fault (handle_faults hrun) ?_
    intro l hl a ha hav hok
    obtain rfl := harea l hl a ha hav
    exact hok.handle hrun hleg
  · exact h.tidy.fault (fun _ ht => ht) (fun _ write ht => ht.touched write) hrun

theorem decodeInv_visitSpec (pick : Pick) (backend : Backend) (i : ℕ) (write : Bool) :
    VisitSpec Decoded pick backend i write DecodeInv (fun _ a _ t => Legible a t write) where
  handle harea hs hleg := hs.handle harea hleg
  data _ _ hs := ⟨hs.entries, hs.tidy⟩
  unmapped hmapped hm := absurd (hmapped.symm.trans hm) Bool.false_ne_true
  mono _ hu := hu
  notManaged := fun h => nomatch h

theorem takePage_decoded (i : ℕ) (w : World) (v : ℕ) :
    Ensures Decoded (fun _ => True) (takePage i w v) := by
  unfold takePage
  dsimp only
  split
  · trivial
  · split
    · exact (fromRaw_decoded _).bind fun _ _ => dropRef_decoded _ _
    · trivial

theorem takeShared_decoded (i : ℕ) (w : World) (v : ℕ) :
    Ensures Decoded (fun _ => True) (takeShared i w v) := by
  unfold takeShared
  dsimp only
  split
  · trivial
  · split
    · trivial
    · trivial

theorem protectPtes_decoded {permission : Permission} {pages : List ℕ}
    (h : ∀ v ∈ pages, Decodes (w.ptes i v) ∧
      Decodes ⟨(w.ptes i v).pfn, protectAttr permission (w.ptes i v).attr⟩) :
    Ensures Decoded (fun _ => True) (pages.foldlM (protectPte i permission) w) := by
  refine Ensures.mono (ensures_foldlM (I := fun _ b => ∀ v ∈ pages, Decodes (b.ptes i v) ∧
    Decodes ⟨(b.ptes i v).pfn, protectAttr permission (b.ptes i v).attr⟩) pages ?_ h)
    fun _ _ => trivial
  intro done v rest b hpages hb
  have hv := hb v (by rw [hpages]; simp)
  unfold protectPte
  dsimp only
  rw [show (b.ptes i v).attr.asPageAttr = some (b.ptes i v).attr from hv.1]
  intro u hu
  by_cases huv : u = v
  · subst huv
    rw [setPte_ptes_self, protectAttr_idem]
    exact ⟨hv.2, hv.2⟩
  · rw [setPte_ptes_of_page_ne huv]
    exact hb u hu

/-- The entries of a private area keep `READ` and `EXECUTE` when they are cloned. -/
def Cloneable (t : PTE) : Prop :=
  t.attr.present = true → t.attr.read = true ∨ t.attr.execute = true

theorem Cloneable.decodes {t : PTE} (h : Cloneable t) : Decodes t :=
  decodes_iff.mpr fun hp => (h hp).imp_right Or.inr

def AllCloneable (pages : ℕ → Prop) (i : ℕ) (w : World) : Prop :=
  ∀ v, pages v → Cloneable (w.ptes i v)

theorem setCopyOnWrite_decoded {pages : ℕ → Prop} (h : AllCloneable pages i w) (hv : pages v) :
    Ensures Decoded (AllCloneable pages i) (setCopyOnWrite i j w v) := by
  unfold setCopyOnWrite
  dsimp only
  rw [show (w.ptes i v).attr.asPageAttr = some (w.ptes i v).attr from (h v hv).decodes]
  dsimp only
  split
  · exact h
  · refine (fromRaw_decoded _).bind fun _ _ u hu => ?_
    by_cases huv : u = v
    · subst huv
      rw [setPte_ptes_self]
      exact h u hv
    · rw [setPte_ptes_of_page_ne huv, setPte_ptes_of_page_ne huv]
      exact h u hu

theorem setCopied_decoded {pages : ℕ → Prop} (hij : i ≠ j) (h : AllCloneable pages i w) :
    Ensures Decoded (AllCloneable pages i) (setCopied i j w v) := by
  unfold setCopied
  refine (fromRaw_decoded _).bind fun _ _ u hu => ?_
  rw [setPte_ptes_of_table_ne hij]
  exact h u hu

theorem newCloned_decoded (hij : i ≠ j) (h : ∀ a ∈ l.areas.elems, a.isShared = false →
      ∀ v ∈ pagesOf a.range, Cloneable (w.ptes i v)) :
    Ensures Decoded (fun _ => True) (w.newCloned i j l) := by
  let pages : ℕ → Prop := fun v => ∃ a ∈ l.areas.elems, a.isShared = false ∧ v ∈ pagesOf a.range
  refine ensures_newCloned (I := AllCloneable pages i)
    (fun a ha hs v hv b hb => setCopyOnWrite_decoded hb ⟨a, ha, hs, hv⟩)
    (fun _ _ _ v _ b hb => setCopied_decoded hij hb) ?_ fun _ _ => trivial
  rintro v ⟨a, ha, hs, hv⟩
  dsimp only
  rw [Function.update_of_ne hij]
  exact h a ha hs v hv

/-- No call on areas meets an entry that does not decode. -/
theorem DecodeInv.areaCalls (h : DecodeInv w) (hop : Contract w op) (hkeeps : KeepsLeaves w op) :
    AreaCalls Decoded (fun _ => True) w op where
  same := trivial
  new _ _ := trivial
  maps _ _ _ _ _ _ _ _ _ _ := trivial
  unmap i start len l taken l' _ _ _ :=
    ensures_foldlM_mem (I := fun _ => True) (fun _ _ _ _ => takePage_decoded _ _ _) trivial
  protect i start len permission l mids l' heq hl hprotects := by
    subst heq
    refine protectPtes_decoded fun v hv => ⟨h.decodes i v, ?_⟩
    rw [mem_flatMap_pagesOf hprotects.result.aligned, hprotects.result.visited] at hv
    obtain ⟨hmask, a, ha, hav⟩ := hv
    exact decodes_iff.mpr (LeafEntry.protect (i := i) (v := v)
      (x := { a with permission := permission }) rfl fun hwo =>
        hkeeps hwo l hl a ha v hav hmask).decodes
  fork i j l heq hl := by
    subst heq
    refine newCloned_decoded (ne_of_lists hl hop) fun a ha hs v hv => ?_
    exact hkeeps l hl a ha hs v (((h.entries i l hl).1.areas.ok a ha).mem_pagesOf.mp hv)
  drop i l _ _ := ensures_dropList (I := fun _ => True) (fun _ _ _ => takePage_decoded _ _ _)
    (fun _ _ _ => takeShared_decoded _ _ _) trivial fun _ _ => trivial

theorem leafEntry_rules (hkeeps : KeepsLeaves w op) : EntryRules LeafEntry w op where
  part i v x a t _ hperm ht := ht.part hperm
  clone i j heq l hl a ha v hav ht := by
    subst heq
    exact ht.clone j fun hs => hkeeps l hl a ha hs v hav
  fresh mapping permission isShared _ i v range :=
    leafEntry_fresh i v range mapping permission isShared _
  protect i start len permission heq l hl a ha v hmask hav _ x _ hperm := by
    subst heq
    exact LeafEntry.protect hperm fun hwo => hkeeps hwo l hl a ha v hav hmask

theorem DecodeInv.step (h : DecodeInv w) (hop : Contract w op) (hkeeps : KeepsLeaves w op) :
    Ensures Decoded DecodeInv (w.run op) := by
  cases op with
  | userFault pick backend i addr access =>
    refine ensures_userFault h fun l area hl harea hgranted => h.handle
      (.of_overlappingAddr (h.entries i l hl).1.areas hl harea) fun _ _ hnone => ?_
    -- an area that grants the access grants something
    unfold grantsAny at hnone
    simp only [Bool.or_eq_false_iff] at hnone
    obtain ⟨⟨hr, hw⟩, he⟩ := hnone
    cases access <;> simp [granted, hr, hw, he] at hgranted
  | kernelFault pick backend i addr write =>
    exact ensures_kernelFault h fun l area hl harea => h.handle
      (.of_overlappingAddr (h.entries i l hl).1.areas hl harea) (hkeeps l hl area harea)
  | readBytes pick backend i fuel start len buffer =>
    exact ensures_readBytes h (decodeInv_visitSpec pick backend i false)
      fun l hl => ⟨(h.entries i l hl).1.areas, hkeeps l hl⟩
  | accessMut pick backend func i fuel start len =>
    exact ensures_accessMut h (decodeInv_visitSpec pick backend i true)
      fun l hl => ⟨(h.entries i l hl).1.areas, fun a v _ _ hwrite => nomatch hwrite⟩
  | store i addr byte => exact ⟨h.entries, h.tidy⟩
  | _ =>
    have hinv := fun i l hl => (h.entries i l hl).1
    refine (((h.areaCalls hop hkeeps).run hinv hop rfl).with_ok fun w' hrun => ⟨?_, ?_⟩).mono
      fun _ hw' => hw'.2
    · exact h.entries.onAreas hop rfl (leafEntry_rules hkeeps) hrun
    · exact h.tidy.onAreas stray_null hinv hop rfl hrun

end Calls

/-! ### Runs -/

theorem decodeInv_of_initial {w : World} (h : Initial w) : DecodeInv w := by
  refine ⟨fun i l hl => ?_, fun i v => Or.inl ?_⟩
  · rw [h.lists i] at hl
    cases hl
  · rw [h.ptes i v]
    exact stray_null

theorem DecodeInv.pagesDecode {w : World} (h : DecodeInv w) : PagesDecode w :=
  fun i _ _ _ _ v _ => (h.decodes i v).asPage

/-- While all steps keep leaves, the entries of all pages of areas decode as pages, and no such step
panics because one does not. -/
theorem pagesDecode_of_reachable {w : World} (h : (machine KeepsLeaves).Reachable w) :
    PagesDecode w ∧ ∀ op e, Contract w op ∧ KeepsLeaves w op → w.run op = .error e →
      e ≠ .notPageAttribute := by
  obtain ⟨hinv, hpanics⟩ := h.ensures (fun _ => decodeInv_of_initial)
    fun s op hs hop => hs.step hop.1 hop.2
  exact ⟨hinv.pagesDecode, hpanics⟩

/-- The property after a written page was made inaccessible. -/
theorem pagesDecode_after_protect : ∃ w, (machine KeepsLeaves).Reachable w ∧
    (w.ptes 0 16).pfn = 2 ∧ (w.ptes 0 16).attr.present = false ∧ PagesDecode w := by
  have h0 : (machine KeepsLeaves).Reachable boot := .of_init initial_boot
  have h4 := h0.after [.new 0, .mmapFixed 0 0x10000 0x1000 .anonymous ⟨true, true, false⟩ false,
    .userFault twoFrames (fun _ _ => .noPageCache) 0 0x10000 .write,
    .protect 0 0x10000 0x1000 ⟨false, false, false⟩]
    ⟨⟨rfl, trivial⟩, ⟨⟨by decide, by decide, by decide, trivial⟩, trivial⟩,
     ⟨lawful_twoFrames, trivial⟩,
     ⟨⟨by decide, by decide, by decide⟩, fun hwo => absurd hwo (by decide)⟩, trivial⟩
  exact ⟨_, h4, rfl, rfl, (pagesDecode_of_reachable h4).1⟩

/-- `protect` with write permission only makes a table pointer of a new page; the next `protect`
panics. -/
theorem pagesDecode_violated : ∃ w, (machine fun _ _ => True).Reachable w ∧ ¬ PagesDecode w ∧
    Contract w (.protect 0 0x10000 0x1000 ⟨true, true, false⟩) ∧
    w.run (.protect 0 0x10000 0x1000 ⟨true, true, false⟩) = .error .notPageAttribute := by
  have h0 : (machine fun _ _ => True).Reachable boot := .of_init initial_boot
  have h3 := h0.after [.new 0, .mmapFixed 0 0x10000 0x1000 .anonymous ⟨true, true, false⟩ false,
    .protect 0 0x10000 0x1000 ⟨false, true, false⟩]
    ⟨⟨rfl, trivial⟩, ⟨⟨by decide, by decide, by decide, trivial⟩, trivial⟩,
     ⟨⟨by decide, by decide, by decide⟩, trivial⟩, trivial⟩
  refine ⟨_, h3, fun hok => ?_, ⟨by decide, by decide, by decide⟩, rfl⟩
  have hpage := (hok 0 _ rfl _ List.mem_cons_self 16 (by decide)).page
  rw [PTE64.asPageAttr_getAttr_ofEntry] at hpage
  cases hpage

end World

end Dlutos
