import Dlutos.AddressSpace.CowReturns
import Dlutos.AddressSpace.EagerCopy

/-!
# Copy-on-write implements eager copies

The address spaces with their page tables run next to the abstract machine in which every address
space has a memory of its own.  For private, anonymous and readable areas the two always agree: what
an address space sees at an address is the byte of its own memory, whatever the other address spaces
do, and no step fails except for lack of memory.
-/

namespace Dlutos

open Addr AddrRange ExceptLoop RefCount Transition Function

namespace World

def contents (w : World) (p : PFN) : PageData := (w.frames p).data

/-- The page of an entry holds the bytes of the memory `M` of its address space. -/
def View (D : PFN → PageData) (M : ℕ → ℕ → UInt8) (i v : ℕ) (_ : MMArea) (t : PTE) : Prop :=
  ∀ o < PAGE_SIZE, D t.pfn o = M i (v * PAGE_SIZE + o)

/-- The pages of all areas hold the bytes of the abstract memories. -/
structure Sees (w : World) (e : EagerCopy) : Prop where
  lists : w.lists = e.lists
  view : Entrywise (View w.contents e.mem) w

variable {w w' : World} {e e' : EagerCopy} {i j v : ℕ} {l : MMListLocked}

/-! ### Calls on areas -/

theorem Sees.of_entrywise (hs : Sees w e) {o : Option MMListLocked}
    (hlists : w'.lists = update w.lists i o) (hlists' : e'.lists = update e.lists i o)
    (hsame : SameContents w w') (h : Entrywise (View w.contents e'.mem) w') : Sees w' e' := by
  refine ⟨by rw [hlists, hlists', hs.lists], h.mono ?_⟩
  intro k m _ a _ u _ hview o ho
  unfold contents
  rw [hsame.data]
  exact hview o ho

theorem Sees.setList (hs : Sees w e) (hl : w.lists i = some l) :
    Sees (w.setList i l) (e.setList i l) := by
  rw [setList_self hl]
  refine ⟨?_, hs.view⟩
  unfold EagerCopy.setList
  rw [← hs.lists, ← hl, update_eq_self]

theorem Sees.mapsInto (h : Sees w e) (hzero : ∀ o, (w.frames w.emptyPage).data o = 0)
    (hl : w.lists i = some l) {addr len : ℕ} {mapping : Mapping} {permission : Permission}
    {isShared : Bool} {l' : MMListLocked}
    (hmaps : Maps l l' ⟨⟨addr, addr + len, Nat.le_add_right _ _⟩, mapping, permission, isShared⟩) :
    Sees ((w.populate i ⟨addr, addr + len, Nat.le_add_right _ _⟩ mapping permission).setList i l')
      ((e.clear i addr len).setList i l') := by
  have hpop := (sameContents_steps w).setList (i := i) (l := l') ((sameContents_steps w).populate
    (i := i) (SameContents.refl w) ⟨addr, addr + len, Nat.le_add_right _ _⟩ mapping permission)
  have hrw := populate_rewrites w i hmaps
  refine h.of_entrywise hrw.lists rfl hpop (Entrywise.mapsInto ?_ hl hmaps hrw ?_)
  · -- the old areas are apart from the new one, so their memory is not cleared
    refine h.view.mono ?_
    intro k m hm a ha u hu hview o ho
    rw [hview o ho]
    change _ = update e.mem i _ k _
    by_cases hki : k = i
    · subst hki
      rw [hl] at hm
      cases hm
      have hin := ((h.view k l hl).1.areas.ok a ha).contains_offset hu ho
      have hapart := hmaps.apart a ha
      rw [update_self, if_neg]
      unfold MMArea.Before AddrRange.Before at hapart
      unfold AddrRange.Contains at hin
      dsimp only at hapart
      omega
    · rw [update_of_ne hki]
  · intro u hu o ho
    have hin := (hmaps.inv.areas.ok _ ((hmaps.mem _).mpr (Or.inl rfl))).contains_offset hu ho
    refine (hzero o).trans ?_
    change _ = update e.mem i _ i _
    rw [update_self]
    exact (if_pos hin).symm

theorem sees_onList {f : MMListLocked → Except MMPanic World}
    {g : MMListLocked → Except MMPanic EagerCopy} (h : Sees w e) (hrun : w.onList i f = .ok w')
    (hfg : ∀ l, w.lists i = some l → f l = .ok w' → ∃ e', g l = .ok e' ∧ Sees w' e') :
    ∃ e', e.onList i g = .ok e' ∧ Sees w' e' := by
  unfold EagerCopy.onList
  rw [← h.lists]
  unfold onList at hrun
  cases hl : w.lists i with
  | none =>
    rw [hl] at hrun
    cases hrun
    exact ⟨e, rfl, h⟩
  | some l =>
    rw [hl] at hrun
    exact hfg l hl hrun

theorem Sees.cut (hs : Sees w e) (hl : w.lists i = some l) {mask : AddrRange}
    (perm : Option Permission) {mids : List AddrRange} {areas : Areas} (hinv : AreasInv areas)
    (hres : Trims mask perm l.areas.elems areas.elems mids) {w₁ : World}
    (hloop : (mids.flatMap pagesOf).foldlM (cutPte i perm) w = .ok w₁)
    (hsame : SameContents w (w₁.setList i { l with areas := areas })) :
    Sees (w₁.setList i { l with areas := areas }) (e.setList i { l with areas := areas }) := by
  have hcuts : Cuts mask perm mids l { l with areas := areas } :=
    ⟨⟨hinv, (hs.view i l hl).1.breakPos⟩, hres⟩
  have hrw := hcuts.rewrites hloop
  exact hs.of_entrywise hrw.lists rfl hsame (hs.view.cut hl hcuts hrw
    (fun _ _ _ _ _ _ hview => hview) fun _ _ _ _ _ _ _ hview _ _ _ => hview)

theorem Sees.onAreas {op : Op} (h : CowInv w) (hs : Sees w e) (hop : Contract w op)
    (hareas : op.onAreas = true) (hrun : w.run op = .ok w') :
    ∃ e', e.run op = .ok e' ∧ Sees w' e' := by
  have hsame := run_sameContents (fun i l hl => (h.entries i l hl).1) hop hareas hrun
  cases op with
  | new i =>
    cases hrun
    refine ⟨_, rfl, hs.of_entrywise rfl rfl hsame (hs.view.clear ?_ (new_rewrites w i))⟩
    exact fun l hl => (Option.some.inj hl).symm
  | mmapFixed i addr len mapping permission isShared =>
    refine sees_onList hs hrun fun l hl hrun => ?_
    obtain ⟨haddr, hlen, -, hmapping⟩ := hop
    obtain ⟨⟨r, l'⟩, hmmap, -⟩ := (hs.view i l hl).1.mmap permission isShared haddr hlen hmapping
    unfold mmapFixed at hrun
    rw [hmmap, ok_bind] at hrun ⊢
    obtain ⟨rfl, rfl⟩ | ⟨rfl, hmaps⟩ :=
      locked_mmap_cases (hs.view i l hl).1 haddr hlen hmapping hmmap
    · cases hrun
      exact ⟨_, rfl, hs.setList hl⟩
    · dsimp only at hrun
      rw [new_eq (Nat.le_add_right _ _)] at hrun
      cases hrun
      exact ⟨_, rfl, hs.mapsInto h.zero hl hmaps⟩
  | mmapHint i fuel hint len mapping permission isShared =>
    refine sees_onList hs hrun fun l hl hrun => ?_
    obtain ⟨hhint, hlen, -, hmapping⟩ := hop
    obtain ⟨r, hmmap, -⟩ :=
      (hs.view i l hl).1.mmapHint fuel permission isShared hhint hlen hmapping
    unfold mmapHint at hrun
    rw [hmmap, ok_bind] at hrun ⊢
    obtain rfl | ⟨err, rfl⟩ | ⟨addr, l', rfl, hmaps⟩ :=
      locked_mmapHint_cases (hs.view i l hl).1 hhint hlen hmapping hmmap
    · cases hrun
      exact ⟨_, rfl, hs⟩
    · cases hrun
      exact ⟨_, rfl, hs.setList hl⟩
    · dsimp only at hrun
      rw [new_eq (Nat.le_add_right _ _)] at hrun
      cases hrun
      exact ⟨_, rfl, hs.mapsInto h.zero hl hmaps⟩
  | unmap i start len =>
    refine sees_onList hs hrun fun l hl hrun => ?_
    unfold unmap at hrun
    obtain herr | ⟨areas, taken, hunmap, hinv, hres⟩ := (hs.view i l hl).1.areas.unmap len hop.1
    · rw [herr, ok_bind] at hrun ⊢
      cases hrun
      exact ⟨_, rfl, hs.setList hl⟩
    · rw [hunmap, ok_bind] at hrun ⊢
      obtain ⟨w1, hloop, hrest⟩ := bind_eq_ok.mp hrun
      cases hrest
      exact ⟨_, rfl, hs.cut hl none hinv hres hloop hsame⟩
  | protect i start len permission =>
    refine sees_onList hs hrun fun l hl hrun => ?_
    have hlocked := (hs.view i l hl).1
    unfold protect at hrun
    obtain herr | ⟨r, areas, mids, hprotect, hinv, hres⟩ :=
      hlocked.areas.protect permission hop.1 hop.2.1
    · rw [herr, ok_bind] at hrun ⊢
      cases hrun
      exact ⟨_, rfl, hs.setList hl⟩
    · rw [hprotect, ok_bind] at hrun ⊢
      obtain ⟨w1, hloop, hrest⟩ := bind_eq_ok.mp hrun
      cases hrest
      exact ⟨_, rfl, hs.cut hl (some permission) hinv hres hloop hsame⟩
  | fork i j =>
    refine sees_onList hs hrun fun l hl hrun => ?_
    have hij := ne_of_lists hl hop
    have hforked := newCloned_forked (h.entries i l hl).1.areas hij hrun
    -- no existing address space has the number of the child
    have hview : Entrywise (View w.contents (update e.mem j (e.mem i))) w := by
      refine hs.view.mono ?_
      intro k m hm a ha u hu hview o ho
      have hkj : k ≠ j := by
        rintro rfl
        rw [show w.lists k = none from hop] at hm
        cases hm
      rw [update_of_ne hkj]
      exact hview o ho
    refine ⟨_, rfl, hs.of_entrywise hforked.lists rfl hsame ?_⟩
    refine hview.fork hl hforked fun a ha u hu hold => ?_
    obtain ⟨hparent, hchild, -⟩ := ((h.entries i l hl).2 a ha u hu).clone j
    rw [hparent, hchild]
    refine ⟨hold, fun o ho => ?_⟩
    rw [update_self]
    have hparentView := hold o ho
    rwa [update_of_ne hij] at hparentView
  | drop i =>
    refine sees_onList hs hrun fun l hl hrun => ?_
    have hrw := dropList_rewrites hrun
    exact ⟨_, rfl, hs.of_entrywise hrw.lists rfl hsame (hs.view.clear (o := none) nofun hrw)⟩
  | userFault | kernelFault | readBytes | accessMut | store => cases hareas

/-! ### Memory accesses -/

/-- After a step the invariant holds and both machines agree. -/
structure Agrees (w : World) (e : EagerCopy) : Prop where
  inv : CowInv w
  sees : Sees w e

theorem Sees.pages (h : Sees w e) {k u : ℕ} (hin : InArea w k u) {o : ℕ} (ho : o < PAGE_SIZE) :
    w.pageOf k u o = e.page k u o := by
  obtain ⟨m, hm, a, ha, hau⟩ := hin
  exact (h.view k m hm).2 a ha u hau o ho

theorem Sees.of_pages (hs : Sees w e) (hinv : CowInv w') (hlists : w'.lists = w.lists)
    (hlists' : e'.lists = e.lists)
    (hpages : ∀ k u, InArea w k u → ∀ o < PAGE_SIZE, w'.pageOf k u o = e'.page k u o) :
    Sees w' e' := by
  refine ⟨by rw [hlists, hlists', hs.lists], fun k m hm => ?_⟩
  refine ⟨(hinv.entries k m hm).1, fun a ha u hu => hpages k u ?_⟩
  rw [hlists] at hm
  exact ⟨m, hm, a, ha, hu⟩

theorem Handled.agrees (h : Handled w i v w') (hs : Sees w e) : Agrees w' e := by
  refine ⟨h.inv, hs.of_pages h.inv h.lists rfl fun k u hin o ho => ?_⟩
  rw [h.pages k u hin]
  exact hs.pages hin ho

theorem page_setPage (e : EagerCopy) (i v : ℕ) (data : PageData) {k u o : ℕ} (ho : o < PAGE_SIZE) :
    (e.setPage i v data).page k u o = if k = i ∧ u = v then data o else e.page k u o := by
  have hdiv : (u * PAGE_SIZE + o) / PAGE_SIZE = u := by
    rw [Nat.mul_comm, Nat.mul_add_div (by decide), Nat.div_eq_of_lt ho, Nat.add_zero]
  have hmod : (u * PAGE_SIZE + o) % PAGE_SIZE = o := by
    rw [Nat.mul_comm, Nat.mul_add_mod, Nat.mod_eq_of_lt ho]
  unfold EagerCopy.setPage EagerCopy.page
  dsimp only
  by_cases hk : k = i
  · subst hk
    rw [update_self, hdiv, hmod]
    simp only [true_and]
  · rw [update_of_ne hk, if_neg fun heq => hk heq.1]

theorem Agrees.setPage (h : Agrees w e) (hl : w.lists i = some l) {a : MMArea}
    (ha : a ∈ l.areas.elems) (hv : a.range.Contains (v * PAGE_SIZE))
    (hcow : (w.ptes i v).attr.copyOnWrite = false) {f : PageData → PageData} {data : PageData}
    (hdata : ∀ o < PAGE_SIZE, f (w.pageOf i v) o = data o) :
    Agrees (w.updateFrame (w.ptes i v).pfn fun x => { x with data := f x.data })
      (e.setPage i v data) := by
  obtain ⟨hinv, hother⟩ := h.inv.setData hl ha hv hcow fun x => f x.data
  refine ⟨hinv, h.sees.of_pages hinv rfl rfl fun k u hin o ho => ?_⟩
  rw [page_setPage e i v data ho]
  by_cases heq : k = i ∧ u = v
  · obtain ⟨rfl, rfl⟩ := heq
    rw [if_pos ⟨rfl, rfl⟩, ← hdata o ho]
    unfold pageOf updateFrame
    dsimp only
    rw [update_self]
  · rw [if_neg heq, hother k u hin heq]
    exact h.sees.pages hin ho

theorem CowInv.inArea (h : CowInv w) (hpresent : (w.ptes i v).attr.present = true) :
    InArea w i v := by
  refine (h.tidy i v).resolve_left fun hstray => ?_
  rw [hstray.present] at hpresent
  cases hpresent

theorem storable_iff {t : PTE} : storable t = true ↔
    t.attr.present = true ∧ t.attr.write = true ∧ t.attr.user = true := by
  unfold storable
  simp only [Bool.and_eq_true, and_assoc]

theorem page_store (e : EagerCopy) (i addr : ℕ) (byte : UInt8) :
    { e with mem := update e.mem i (update (e.mem i) addr byte) } =
      e.setPage i (addr / PAGE_SIZE)
        (update (e.page i (addr / PAGE_SIZE)) (addr % PAGE_SIZE) byte) := by
  unfold EagerCopy.setPage
  congr 2
  funext x
  by_cases hx : x = addr
  · subst hx
    rw [update_self, if_pos rfl, update_self]
  · rw [update_of_ne hx]
    split
    · rename_i hpage
      have hne : x % PAGE_SIZE ≠ addr % PAGE_SIZE := fun hmod => hx (by
        rw [← Nat.div_add_mod x PAGE_SIZE, hpage, hmod, Nat.div_add_mod])
      rw [update_of_ne hne]
      unfold EagerCopy.page
      rw [← hpage, Nat.mul_comm, Nat.div_add_mod]
    · rfl

theorem Agrees.store (h : Agrees w e) {addr : ℕ} (byte : UInt8)
    (hstore : storable (w.ptes i (addr / PAGE_SIZE)) = true) :
    ∃ e', e.run (.store i addr byte) = .ok e' ∧ Agrees (w.store i addr byte) e' := by
  obtain ⟨hpresent, hwrite, -⟩ := storable_iff.mp hstore
  obtain ⟨m, hm, a, ha, hav⟩ := h.inv.inArea hpresent
  have hentry := (h.inv.entries i m hm).2 a ha _ hav
  have hcow : (w.ptes i (addr / PAGE_SIZE)).attr.copyOnWrite = false := by
    cases hc : (w.ptes i (addr / PAGE_SIZE)).attr.copyOnWrite with
    | false => rfl
    | true =>
      rw [hentry.cow hc] at hwrite
      cases hwrite
  refine ⟨_, congrArg Except.ok (page_store e i addr byte), ?_⟩
  refine h.setPage hm ha hav hcow (f := fun x => update x (addr % PAGE_SIZE) byte) ?_
  intro o ho
  by_cases hoa : o = addr % PAGE_SIZE
  · subst hoa
    rw [update_self, update_self]
  · rw [update_of_ne hoa, update_of_ne hoa]
    exact h.sees.pages ⟨m, hm, a, ha, hav⟩ ho

theorem endOffset_sliceOf_le (current accessEnd offset v : ℕ) :
    (sliceOf current accessEnd offset v).endOffset ≤ PAGE_SIZE := by
  unfold sliceOf
  dsimp only
  split
  · omega
  · exact le_rfl

theorem readSlice_congr {d d' : PageData} {s : Slice} (hs : s.endOffset ≤ PAGE_SIZE)
    (h : ∀ o < PAGE_SIZE, d o = d' o) : readSlice d s = readSlice d' s := by
  funext o
  unfold readSlice
  split
  · exact h _ (by omega)
  · rfl

section Walk

variable {pick : Pick} {backend : Backend} {fuel start len : ℕ}

section

variable {area : MMArea} (h : Agrees w e) (hpick : Pick.Lawful pick) (hl : w.lists i = some l)
  (harea : area ∈ l.areas.elems)
include h hpick hl harea

theorem Agrees.mutPage (hv : area.range.Contains (v * PAGE_SIZE)) (func : ℕ → PageData → PageData)
    (current accessEnd offset : ℕ) :
    Simulates (· = .outOfMemory) (fun s e => Agrees s e ∧ s.lists = w.lists)
      (mutPage pick backend func i w area (sliceOf current accessEnd offset v))
      (EagerCopy.mutPage func i e area (sliceOf current accessEnd offset v)) := by
  have hpage : (sliceOf current accessEnd offset v).pageStart / PAGE_SIZE = v :=
    Nat.mul_div_cancel v (by decide)
  unfold World.mutPage EagerCopy.mutPage
  dsimp only
  rw [hpage]
  obtain herr | ⟨w1, hrun, hhandled⟩ := h.inv.handle backend
    ((sliceOf current accessEnd offset v).pageStart - area.range.start) true hpick
    (.of_mem (h.inv.entries i l hl).1.areas hl harea hv)
  · rw [herr]
    rfl
  · have hl1 : w1.lists i = some l := by rw [hhandled.lists, hl]
    have hagrees := hhandled.agrees h.sees
    have hpfn := ((hagrees.inv.entries i l hl1).2 area harea v hv).pfn
    rw [hrun, ok_bind]
    dsimp only
    rw [fromRaw_eq hpfn, ok_bind]
    refine ⟨_, rfl, hagrees.setPage hl1 harea hv hhandled.cow
      (f := fun x => writeSlice x (func (sliceOf current accessEnd offset v).dataOffset
        (readSlice x (sliceOf current accessEnd offset v))) (sliceOf current accessEnd offset v))
      fun o ho => ?_, hhandled.lists⟩
    have hbytes : ∀ o < PAGE_SIZE, w1.pageOf i v o = e.page i v o :=
      fun o ho => hagrees.sees.pages ⟨l, hl1, area, harea, hv⟩ ho
    rw [readSlice_congr (endOffset_sliceOf_le _ _ _ _) hbytes]
    unfold writeSlice
    split
    · rfl
    · exact hbytes o ho

theorem Agrees.readPage (hv : area.range.Contains (v * PAGE_SIZE)) (buffer : PageData)
    (current accessEnd offset : ℕ) :
    Simulates (· = .outOfMemory)
      (fun (s : World × PageData) b => Agrees s.1 e ∧ s.1.lists = w.lists ∧ s.2 = b)
      (readPage pick backend i (w, buffer) area (sliceOf current accessEnd offset v))
      (e.readPage i buffer area (sliceOf current accessEnd offset v)) := by
  have hpage : (sliceOf current accessEnd offset v).pageStart / PAGE_SIZE = v :=
    Nat.mul_div_cancel v (by decide)
  unfold World.readPage EagerCopy.readPage
  dsimp only
  rw [hpage]
  obtain herr | ⟨w1, hrun, hhandled⟩ := h.inv.handle backend
    ((sliceOf current accessEnd offset v).pageStart - area.range.start) false hpick
    (.of_mem (h.inv.entries i l hl).1.areas hl harea hv)
  · rw [herr]
    rfl
  · have hl1 : w1.lists i = some l := by rw [hhandled.lists, hl]
    have hagrees := hhandled.agrees h.sees
    have hpfn := ((hagrees.inv.entries i l hl1).2 area harea v hv).pfn
    rw [hrun, ok_bind]
    dsimp only
    rw [fromRaw_eq hpfn, ok_bind]
    refine ⟨_, rfl, hagrees, hhandled.lists, ?_⟩
    have hbytes : ∀ o < PAGE_SIZE, (w1.frames (w1.ptes i v).pfn).data o = e.page i v o :=
      fun o ho => hagrees.sees.pages ⟨l, hl1, area, harea, hv⟩ ho
    dsimp only
    rw [readSlice_congr (endOffset_sliceOf_le _ _ _ _) hbytes]

end

theorem Agrees.accessMut (h : Agrees w e) (hpick : Pick.Lawful pick)
    (func : ℕ → PageData → PageData) (i fuel start len : ℕ) :
    Ensures (· = .outOfMemory)
      (fun w' => ∃ e', e.run (.accessMut pick backend func i fuel start len) = .ok e' ∧
        Agrees w' e') (w.run (.accessMut pick backend func i fuel start len)) := by
  unfold run EagerCopy.run onList EagerCopy.onList
  dsimp only
  rw [← h.sees.lists]
  cases hl : w.lists i with
  | none => exact ⟨e, rfl, h⟩
  | some l =>
    dsimp only
    unfold World.accessMut
    split
    · exact ⟨e, rfl, h⟩
    · have hsim : Simulates (· = .outOfMemory) (fun s e => Agrees s e ∧ s.lists = w.lists)
          (walk (World.mutPage pick backend func i) l.areas fuel start len 0 w)
          (walk (EagerCopy.mutPage func i) l.areas fuel start len 0 e) := by
        refine walk_simulates (h.inv.entries i l hl).1.areas ?_ le_rfl le_rfl ⟨h, rfl⟩
        rintro area harea v hv - - current accessEnd offset s t ⟨hst, hlists⟩
        have hl' : s.lists i = some l := by rw [hlists, hl]
        rw [← hlists]
        exact hst.mutPage hpick hl' harea hv func current accessEnd offset
      refine hsim.ensures.bind ?_
      rintro ⟨r, w'⟩ ⟨e', he', hagrees, -⟩
      rw [he']
      exact ⟨e', rfl, hagrees⟩

variable (backend) in
theorem Agrees.readBytes (h : Agrees w e) (hpick : Pick.Lawful pick) (hl : w.lists i = some l)
    (fuel start len : ℕ) (buffer : PageData) :
    Ensures (· = .outOfMemory)
      (fun x => e.readBytes i l fuel start len buffer = .ok x.2 ∧ Agrees x.1 e)
      (w.readBytes pick backend i l fuel start len buffer) := by
  unfold World.readBytes EagerCopy.readBytes
  split
  · exact ⟨rfl, h⟩
  · have hsim : Simulates (· = .outOfMemory)
        (fun (s : World × PageData) b => Agrees s.1 e ∧ s.1.lists = w.lists ∧ s.2 = b)
        (walk (World.readPage pick backend i) l.areas fuel start len 0 (w, buffer))
        (walk (e.readPage i) l.areas fuel start len 0 buffer) := by
      refine walk_simulates (h.inv.entries i l hl).1.areas ?_ le_rfl le_rfl ⟨h, rfl, rfl⟩
      rintro area harea v hv - - current accessEnd offset ⟨s, b⟩ _ ⟨hst, hlists, rfl⟩
      have hl' : s.lists i = some l := by rw [hlists, hl]
      rw [← hlists]
      exact hst.readPage hpick hl' harea hv b current accessEnd offset
    refine hsim.ensures.bind ?_
    rintro ⟨r, w', buffer'⟩ ⟨_, hb, hagrees, -, rfl⟩
    rw [hb]
    exact ⟨rfl, hagrees⟩

end Walk

/-! ### Runs -/

theorem Agrees.handle {pick : Pick} {backend : Backend} {addr offset : ℕ} {write : Bool}
    {area : MMArea} (h : Agrees w e) (hpick : Pick.Lawful pick) (hl : w.lists i = some l)
    (harea : l.areas.overlappingAddr addr = some area) :
    Ensures (· = .outOfMemory) (fun x => Agrees x.2 e)
      (w.handle pick backend area i (addr / PAGE_SIZE) offset write) := by
  obtain herr | ⟨w', hrun, hhandled⟩ := h.inv.handle backend offset write hpick
    (.of_overlappingAddr (h.inv.entries i l hl).1.areas hl harea)
  · rw [herr]
    rfl
  · rw [hrun]
    exact hhandled.agrees h.sees

theorem Agrees.step {op : Op} (h : Agrees w e) (hop : Contract w op) (hpriv : PrivateAnonymous op) :
    Ensures (· = .outOfMemory) (fun w' => ∃ e', e.run op = .ok e' ∧ Agrees w' e') (w.run op) := by
  have hareaOp : op.onAreas = true → Ensures (· = .outOfMemory)
      (fun w' => ∃ e', e.run op = .ok e' ∧ Agrees w' e') (w.run op) := by
    intro hareas
    obtain ⟨w', hrun⟩ := h.inv.returns hop hpriv hareas
    obtain ⟨e', hrun', hsees⟩ := h.sees.onAreas h.inv hop hareas hrun
    rw [hrun]
    exact ⟨e', hrun', h.inv.onAreas hop hpriv hareas hrun, hsees⟩
  cases op with
  | userFault pick backend i addr access =>
    exact ensures_userFault ⟨e, rfl, h⟩ fun l area hl harea _ =>
      (h.handle hop hl harea).mono fun _ hx => ⟨e, rfl, hx⟩
  | kernelFault pick backend i addr write =>
    exact ensures_kernelFault ⟨e, rfl, h⟩ fun l area hl harea =>
      (h.handle hop hl harea).mono fun _ hx => ⟨e, rfl, hx⟩
  | readBytes pick backend i fuel start len buffer =>
    refine ensures_onList ⟨e, rfl, h⟩ fun l hl => ?_
    exact (h.readBytes backend hop hl fuel start len buffer).bind fun _ hx => ⟨e, rfl, hx.2⟩
  | accessMut pick backend func i fuel start len => exact h.accessMut hop func i fuel start len
  | store i addr byte =>
    obtain ⟨e', hrun, hagrees⟩ := h.store byte hop
    exact ⟨e', hrun, hagrees⟩
  | _ => exact hareaOp rfl

/-- The program and the abstract machine side by side. -/
def eagerMachine : System (World × EagerCopy) Op MMPanic where
  init s := Initial s.1 ∧ ∀ i, s.2.lists i = none
  allowed s op := Contract s.1 op ∧ PrivateAnonymous op
  run s op := do
    let w ← s.1.run op
    let e ← s.2.run op
    pure (w, e)

def byteAt (w : World) (i addr : ℕ) : UInt8 := w.pageOf i (addr / PAGE_SIZE) (addr % PAGE_SIZE)

/-- Every address space can read all its areas and sees the bytes of its own memory. -/
structure SeesEager (w : World) (e : EagerCopy) : Prop where
  lists : w.lists = e.lists
  bytes : ∀ i l, w.lists i = some l → ∀ a ∈ l.areas.elems, ∀ addr, a.range.Contains addr →
    loadable (w.ptes i (addr / PAGE_SIZE)) = true ∧ w.byteAt i addr = e.mem i addr

theorem Agrees.seesEager (h : Agrees w e) : SeesEager w e := by
  refine ⟨h.sees.lists, fun i l hl a ha addr haddr => ?_⟩
  have hpage := ((h.inv.entries i l hl).1.areas.ok a ha).contains_page haddr
  refine ⟨((h.inv.entries i l hl).2 a ha _ hpage).loadable, ?_⟩
  have hbyte := h.sees.pages ⟨l, hl, a, ha, hpage⟩ (Nat.mod_lt addr (by decide : 0 < PAGE_SIZE))
  refine hbyte.trans ?_
  unfold EagerCopy.page
  rw [Nat.mul_comm, Nat.div_add_mod]

theorem agrees_of_reachable {s : World × EagerCopy} (h : eagerMachine.Reachable s) :
    Agrees s.1 s.2 := by
  refine Transition.Reachable.invariant (P := fun s => Agrees s.1 s.2) ?_ ?_ h
  · rintro ⟨w, e⟩ ⟨hw, he⟩
    have hempty : ∀ {Q}, Entrywise Q w := by
      intro Q i l hl
      rw [hw.lists i] at hl
      cases hl
    refine ⟨⟨hw.referenced, hw.zero, hempty, fun i v => Or.inl ?_⟩, ?_, hempty⟩
    · rw [hw.ptes i v]
      exact stray_null
    · funext i
      rw [hw.lists i]
      exact (he i).symm
  · rintro ⟨w, e⟩ ⟨w', e'⟩ hs ⟨op, ⟨hop, hpriv⟩, hrun⟩
    obtain ⟨w1, hrun1, hrest⟩ := bind_eq_ok.mp hrun
    obtain ⟨e1, hrun2, hrest⟩ := bind_eq_ok.mp hrest
    cases hrest
    obtain ⟨e2, he2, hagrees⟩ := (hs.step hop hpriv).of_ok hrun1
    rw [show e.run op = .ok e' from hrun2] at he2
    cases he2
    exact hagrees

/-- The address spaces behave as if every fork had copied the whole memory. -/
structure ForkIsolated (s : World × EagerCopy) : Prop where
  sees : SeesEager s.1 s.2
  returns : ∀ op, eagerMachine.allowed s op → s.1.run op = .error .outOfMemory ∨
    ∃ t, eagerMachine.run s op = .ok t
  reads : ∀ pick backend i l fuel start len buffer, Pick.Lawful pick → s.1.lists i = some l →
    s.1.readBytes pick backend i l fuel start len buffer = .error .outOfMemory ∨
      ∃ w' buffer', s.1.readBytes pick backend i l fuel start len buffer = .ok (w', buffer') ∧
        s.2.readBytes i l fuel start len buffer = .ok buffer'
  writes : ∀ pick backend i l area addr, Pick.Lawful pick → s.1.lists i = some l →
    area ∈ l.areas.elems → area.range.Contains addr → area.permission.write = true →
    s.1.run (.userFault pick backend i addr .write) = .error .outOfMemory ∨
      ∃ w', s.1.run (.userFault pick backend i addr .write) = .ok w' ∧
        storable (w'.ptes i (addr / PAGE_SIZE)) = true

/-- In every run on private, anonymous and readable areas, copy-on-write cannot be told from eager
copies. -/
theorem forkIsolation_of_reachable {s : World × EagerCopy} (h : eagerMachine.Reachable s) :
    ForkIsolated s := by
  have hagrees := agrees_of_reachable h
  refine ⟨hagrees.seesEager, ?_, ?_, ?_⟩
  · rintro op ⟨hop, hpriv⟩
    obtain ⟨_, herr, rfl⟩ | ⟨w', hrun, e', hrun', -⟩ := (hagrees.step hop hpriv).cases
    · exact Or.inl herr
    · refine Or.inr ⟨(w', e'), ?_⟩
      exact bind_eq_ok.mpr ⟨w', hrun, bind_eq_ok.mpr ⟨e', hrun', rfl⟩⟩
  · intro pick backend i l fuel start len buffer hpick hl
    obtain ⟨_, herr, rfl⟩ | ⟨x, hrun, hrun', -⟩ :=
      (hagrees.readBytes backend hpick hl fuel start len buffer).cases
    · exact Or.inl herr
    · exact Or.inr ⟨x.1, x.2, hrun, hrun'⟩
  · intro pick backend i l area addr hpick hl harea haddr hwrite
    have hareas := (hagrees.inv.entries i l hl).1.areas
    have hpage := (hareas.ok area harea).contains_page haddr
    have hfound := overlappingAddr_eq hareas harea haddr
    have hgranted : granted area.permission .write = true := hwrite
    unfold run onList handleUserPageFault
    dsimp only
    rw [hl]
    dsimp only
    rw [hfound]
    dsimp only
    rw [hgranted, Bool.not_true, if_neg Bool.false_ne_true]
    obtain herr | ⟨w', hrun, hhandled⟩ := hagrees.inv.handle backend
      (floor addr - area.range.start) (decide (Access.write = .write)) hpick
      (.of_overlappingAddr hareas hl hfound)
    · rw [herr]
      exact Or.inl rfl
    · rw [hrun]
      refine Or.inr ⟨w', rfl, ?_⟩
      have hl' : w'.lists i = some l := by rw [hhandled.lists, hl]
      have hentry := (hhandled.inv.entries i l hl').2 area harea _ hpage
      obtain ⟨hpresent, -, huser⟩ := loadable_iff.mp hentry.loadable
      exact storable_iff.mpr ⟨hpresent, (hentry.own hhandled.cow).1.trans hwrite, huser⟩

theorem forkIsolation_after_writes : ∃ s, eagerMachine.Reachable s ∧
    s.1.byteAt 0 0x10000 = 7 ∧ s.1.byteAt 1 0x10000 = 9 ∧ s.1.byteAt 1 0x10001 = 8 ∧
    ForkIsolated s := by
  have h0 : eagerMachine.Reachable (boot, ⟨fun _ => none, fun _ _ => 0⟩) :=
    .of_init ⟨initial_boot, fun _ => rfl⟩
  have h8 := h0.after [.new 0, .mmapFixed 0 0x10000 0x1000 .anonymous ⟨true, true, false⟩ false,
    .userFault twoFrames (fun _ _ => .noPageCache) 0 0x10000 .write, .store 0 0x10000 7,
    .store 0 0x10001 8, .fork 0 1, .userFault twoFrames (fun _ _ => .noPageCache) 1 0x10000 .write,
    .store 1 0x10000 9]
    ⟨⟨rfl, trivial⟩, ⟨⟨by decide, by decide, by decide, trivial⟩, rfl, rfl, rfl⟩,
     ⟨lawful_twoFrames, trivial⟩, ⟨rfl, trivial⟩, ⟨rfl, trivial⟩, ⟨rfl, trivial⟩,
     ⟨lawful_twoFrames, trivial⟩, ⟨rfl, trivial⟩, trivial⟩
  exact ⟨_, h8, rfl, rfl, rfl, forkIsolation_of_reachable h8⟩

end World

end Dlutos
