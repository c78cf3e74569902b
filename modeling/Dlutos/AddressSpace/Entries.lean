import Dlutos.AddressSpace.AreaOperations
import Dlutos.AddressSpace.World

/-!
# What the operations do to page-table entries

For each function on page tables one lemma that says which entries change and how.  The loops over
pages visit every entry of their range; since what they do to an entry is idempotent, the lemmas
need not know that no page is visited twice.
-/

namespace Dlutos

open Addr AddrRange ExceptLoop Function

/-! ### Pages of a range -/

theorem mem_pagesOf {r : AddrRange} {v : ℕ} :
    v ∈ pagesOf r ↔ r.start / PAGE_SIZE ≤ v ∧ v < ceil r.stop / PAGE_SIZE := by
  have hceil := isPageAligned_ceil r.stop
  have hle := r.le.trans (le_ceil r.stop)
  unfold pagesOf
  rw [List.mem_range'_1]
  unfold floor IsPageAligned PAGE_SIZE at *
  omega

theorem mem_pagesOf_aligned {r : AddrRange} (hstart : IsPageAligned r.start)
    (hstop : IsPageAligned r.stop) {v : ℕ} : v ∈ pagesOf r ↔ r.Contains (v * PAGE_SIZE) := by
  rw [mem_pagesOf, ceil_eq_self hstop]
  unfold AddrRange.Contains
  unfold IsPageAligned PAGE_SIZE at *
  omega

theorem AreaOk.mem_pagesOf {a : MMArea} (ha : AreaOk a) {v : ℕ} :
    v ∈ pagesOf a.range ↔ a.range.Contains (v * PAGE_SIZE) :=
  mem_pagesOf_aligned ha.start_aligned ha.stop_aligned

theorem AreaOk.contains_page {a : MMArea} (ha : AreaOk a) {addr : ℕ} (h : a.range.Contains addr) :
    a.range.Contains (addr / PAGE_SIZE * PAGE_SIZE) := by
  have h1 := ha.start_aligned
  unfold AddrRange.Contains at *
  unfold IsPageAligned PAGE_SIZE at *
  omega

theorem AreaOk.contains_offset {a : MMArea} (ha : AreaOk a) {v o : ℕ}
    (hv : a.range.Contains (v * PAGE_SIZE)) (ho : o < PAGE_SIZE) :
    a.range.Contains (v * PAGE_SIZE + o) := by
  obtain ⟨n, hn⟩ := Nat.dvd_of_mod_eq_zero ha.stop_aligned
  obtain ⟨hstart, hstop⟩ := hv
  rw [hn, Nat.mul_comm] at hstop
  have hpage : (v + 1) * PAGE_SIZE ≤ a.range.stop := by
    rw [hn, Nat.mul_comm PAGE_SIZE]
    exact Nat.mul_le_mul_right _ (Nat.lt_of_mul_lt_mul_left hstop)
  rw [Nat.add_mul, Nat.one_mul] at hpage
  exact ⟨hstart.trans (Nat.le_add_right _ _), by omega⟩

namespace World

variable {w w' : World} {i j v u : ℕ}

/-! ### Field lemmas -/

section Fields

variable (w : World) (i v : ℕ) (t : PTE) (p q : PFN) (f : PhysFrame → PhysFrame) (l : MMListLocked)

@[simp] theorem setPte_frames : (w.setPte i v t).frames = w.frames := rfl
@[simp] theorem setPte_lists : (w.setPte i v t).lists = w.lists := rfl
@[simp] theorem setPte_emptyPage : (w.setPte i v t).emptyPage = w.emptyPage := rfl
@[simp] theorem updateFrame_caches : (w.updateFrame p f).caches = w.caches := rfl
@[simp] theorem setList_ptes : (w.setList i l).ptes = w.ptes := rfl

@[simp] theorem setPte_ptes_self : (w.setPte i v t).ptes i v = t := by
  unfold setPte
  dsimp only
  rw [update_self, update_self]

end Fields

theorem setPte_ptes_of_ne {t : PTE} (h : ¬ (j = i ∧ u = v)) :
    (w.setPte i v t).ptes j u = w.ptes j u := by
  unfold setPte
  dsimp only
  by_cases hj : j = i
  · subst hj
    rw [update_self, update_of_ne fun hu => h ⟨rfl, hu⟩]
  · rw [update_of_ne hj]

theorem setPte_ptes_of_page_ne {t : PTE} (h : u ≠ v) : (w.setPte i v t).ptes j u = w.ptes j u :=
  setPte_ptes_of_ne fun heq => h heq.2

theorem setPte_ptes_of_table_ne {t : PTE} (h : j ≠ i) : (w.setPte i v t).ptes j u = w.ptes j u :=
  setPte_ptes_of_ne fun heq => h heq.1

theorem asPageAttr_eq_some {raw attr : PageAttribute} (h : raw.asPageAttr = some attr) :
    attr = raw := by
  unfold PageAttribute.asPageAttr at h
  split at h
  · cases h
  · exact (Option.some.inj h).symm

/-! ### Loops over the pages of one address space -/

/-- Besides frames, only entries of address space `i` with page numbers in `P` change. -/
structure Touches (i : ℕ) (P : ℕ → Prop) (w w' : World) : Prop where
  lists : w'.lists = w.lists
  caches : w'.caches = w.caches
  emptyPage : w'.emptyPage = w.emptyPage
  ptes : ∀ j u, ¬ (j = i ∧ P u) → w'.ptes j u = w.ptes j u

theorem Touches.refl {P : ℕ → Prop} (w : World) : Touches i P w w :=
  ⟨rfl, rfl, rfl, fun _ _ _ => rfl⟩

theorem Touches.trans {P Q : ℕ → Prop} {w'' : World} (h : Touches i P w w')
    (h' : Touches i Q w' w'') : Touches i (fun u => P u ∨ Q u) w w'' := by
  refine ⟨h'.lists.trans h.lists, h'.caches.trans h.caches, h'.emptyPage.trans h.emptyPage, ?_⟩
  intro j u hne
  rw [h'.ptes j u (by tauto), h.ptes j u (by tauto)]

theorem Touches.mono {P Q : ℕ → Prop} (h : Touches i P w w') (hPQ : ∀ u, P u → Q u) :
    Touches i Q w w' :=
  ⟨h.lists, h.caches, h.emptyPage, fun j u hne => h.ptes j u fun hp => hne ⟨hp.1, hPQ u hp.2⟩⟩

theorem Touches.setList_lists {P : ℕ → Prop} (h : Touches i P w w') {l : MMListLocked} :
    (w'.setList i l).lists = update w.lists i (some l) := by
  unfold setList
  rw [h.lists]

/-- The areas of address space `i` become `o`, and `e` is applied to its entries with page numbers in
`P`. -/
structure Rewrites (i : ℕ) (o : Option MMListLocked) (P : ℕ → Prop) (e : PTE → PTE)
    (w w' : World) : Prop where
  lists : w'.lists = update w.lists i o
  set : ∀ u, P u → w'.ptes i u = e (w.ptes i u)
  other : ∀ k u, ¬ (k = i ∧ P u) → w'.ptes k u = w.ptes k u

theorem Touches.rewrites {P Q : ℕ → Prop} {e : PTE → PTE} (h : Touches i P w w')
    (hset : ∀ v, P v → w'.ptes i v = e (w.ptes i v)) (hPQ : ∀ u, P u ↔ Q u) (l : MMListLocked) :
    Rewrites i (some l) Q e w (w'.setList i l) := by
  refine ⟨h.setList_lists, fun u hu => hset u ((hPQ u).mpr hu), fun k u hne => ?_⟩
  exact h.ptes k u fun hu => hne ⟨hu.1, (hPQ u).mp hu.2⟩

theorem setList_self {l : MMListLocked} (hl : w.lists i = some l) : w.setList i l = w := by
  unfold setList
  rw [← hl, update_eq_self]

theorem foldlM_entries {α : Type} {f : World → α → Except MMPanic World} {g : α → ℕ}
    {e : PTE → PTE} (he : ∀ t, e (e t) = e t)
    (hf : ∀ {w w' x}, f w x = .ok w' →
      Touches i (· = g x) w w' ∧ w'.ptes i (g x) = e (w.ptes i (g x)))
    {items : List α} (h : items.foldlM f w = .ok w') :
    Touches i (· ∈ items.map g) w w' ∧ ∀ v ∈ items.map g, w'.ptes i v = e (w.ptes i v) := by
  refine foldlM_invariant (I := fun done b => Touches i (· ∈ done.map g) w b ∧
    ∀ v ∈ done.map g, b.ptes i v = e (w.ptes i v)) items ?_ ⟨Touches.refl w, ?_⟩ h
  · rintro done x rest b b' - ⟨htouch, hdone⟩ hstep
    obtain ⟨htouch', hv⟩ := hf hstep
    rw [List.map_append, List.map_singleton]
    refine ⟨(htouch.trans htouch').mono fun u hu => ?_, ?_⟩
    · rcases hu with hu | rfl
      · exact List.mem_append_left _ hu
      · exact List.mem_append_right _ List.mem_cons_self
    · intro u hu
      by_cases hux : u = g x
      · subst hux
        rw [hv]
        by_cases hmem : g x ∈ done.map g
        · rw [hdone _ hmem, he]
        · rw [htouch.ptes i _ fun hne => hmem hne.2]
      · rw [htouch'.ptes i u fun hne => hux hne.2]
        rcases List.mem_append.mp hu with hu | hu
        · exact hdone u hu
        · exact absurd (List.mem_singleton.mp hu) hux
  · intro v hv
    cases hv

theorem dropRef_eq {p : PFN} (h : w.dropRef p = .ok w') : w' = w.releaseRef p := by
  unfold dropRef at h
  obtain ⟨_, -, h⟩ := bind_eq_ok.mp h
  exact (Except.ok.inj h).symm

theorem takePage_touches (h : takePage i w v = .ok w') :
    Touches i (· = v) w w' ∧ w'.ptes i v = {} := by
  have hset : Touches i (· = v) w (w.setPte i v {}) :=
    ⟨rfl, rfl, rfl, fun j u hne => setPte_ptes_of_ne hne⟩
  unfold takePage at h
  dsimp only at h
  split at h
  · cases h
    exact ⟨hset, setPte_ptes_self _ _ _ _⟩
  · split at h
    · obtain ⟨_, -, h⟩ := bind_eq_ok.mp h
      rw [dropRef_eq h]
      exact ⟨{ hset with }, setPte_ptes_self _ _ _ _⟩
    · cases h
      exact ⟨hset, setPte_ptes_self _ _ _ _⟩

theorem takeShared_touches (h : takeShared i w v = .ok w') :
    Touches i (· = v) w w' ∧ w'.ptes i v = {} := by
  have hset : Touches i (· = v) w (w.setPte i v {}) :=
    ⟨rfl, rfl, rfl, fun j u hne => setPte_ptes_of_ne hne⟩
  unfold takeShared at h
  dsimp only at h
  split at h
  · cases h
    exact ⟨hset, setPte_ptes_self _ _ _ _⟩
  · split at h
    · cases h
      exact ⟨{ hset with }, setPte_ptes_self _ _ _ _⟩
    · cases h
      exact ⟨hset, setPte_ptes_self _ _ _ _⟩

theorem protectAttr_idem (permission : Permission) (attr : PageAttribute) :
    protectAttr permission (protectAttr permission attr) = protectAttr permission attr := by
  unfold protectAttr
  split
  · rfl
  · simp only [PageAttribute.mk.injEq, and_self, and_true, true_and]
    split <;> rfl

theorem protectPte_touches {permission : Permission} (h : protectPte i permission w v = .ok w') :
    Touches i (· = v) w w' ∧
      w'.ptes i v = ⟨(w.ptes i v).pfn, protectAttr permission (w.ptes i v).attr⟩ := by
  unfold protectPte at h
  dsimp only at h
  split at h
  · cases h
  · rename_i attr hattr
    cases h
    rw [asPageAttr_eq_some hattr]
    exact ⟨⟨rfl, rfl, rfl, fun j u hne => setPte_ptes_of_ne hne⟩, setPte_ptes_self _ _ _ _⟩

theorem foldl_set_touches {f : World → ℕ → World} {t : World → PTE}
    (ht : ∀ w w', w'.emptyPage = w.emptyPage → t w' = t w)
    (hf : ∀ w v, Touches i (· = v) w (f w v) ∧ (f w v).ptes i v = t w) :
    ∀ (pages : List ℕ) (w : World), Touches i (· ∈ pages) w (pages.foldl f w) ∧
      ∀ v ∈ pages, (pages.foldl f w).ptes i v = t w := by
  intro pages
  induction pages with
  | nil => exact fun w => ⟨Touches.refl w, fun v hv => absurd hv List.not_mem_nil⟩
  | cons v pages ih =>
    intro w
    obtain ⟨htouch, hset⟩ := hf w v
    obtain ⟨htouch', hset'⟩ := ih (f w v)
    have hempty := ht _ _ htouch.emptyPage
    refine ⟨(htouch.trans htouch').mono fun u hu => ?_, fun u hu => ?_⟩
    · exact List.mem_cons.mpr hu
    · by_cases hmem : u ∈ pages
      · rw [← hempty]
        exact hset' u hmem
      · obtain rfl : u = v := (List.mem_cons.mp hu).resolve_right hmem
        rw [← hset]
        exact htouch'.ptes i u fun hne => hmem hne.2

def freshAttr (mapping : Mapping) (permission : Permission) : PageAttribute :=
  match mapping with
  | .anonymous => { present := true, read := true, user := true, copyOnWrite := true,
                    execute := permission.execute }
  | .file _ => { read := true, user := true, mapped := true, execute := permission.execute }

theorem populate_touches (w : World) (i : ℕ) (range : AddrRange) (mapping : Mapping)
    (permission : Permission) :
    Touches i (· ∈ pagesOf range) w (w.populate i range mapping permission) ∧
      ∀ v ∈ pagesOf range, (w.populate i range mapping permission).ptes i v =
        ⟨w.emptyPage, freshAttr mapping permission⟩ := by
  unfold populate
  cases mapping with
  | anonymous =>
    exact foldl_set_touches (f := setAnonymous i permission.execute)
      (t := fun w => ⟨w.emptyPage, freshAttr .anonymous permission⟩) (fun w w' h => by rw [h])
      (fun w v => ⟨⟨rfl, rfl, rfl, fun j u hne => setPte_ptes_of_ne hne⟩, setPte_ptes_self _ _ _ _⟩)
      _ w
  | file m =>
    exact foldl_set_touches (f := setMapped i permission.execute)
      (t := fun w => ⟨w.emptyPage, freshAttr (.file m) permission⟩) (fun w w' h => by rw [h])
      (fun w v => ⟨⟨rfl, rfl, rfl, fun j u hne => setPte_ptes_of_ne hne⟩, setPte_ptes_self _ _ _ _⟩)
      _ w

/-! ### Cloning -/

def cowAttr (attr : PageAttribute) : PageAttribute :=
  { attr with write := false, dirty := false, copyOnWrite := true }

def parentEntry (isShared : Bool) (t : PTE) : PTE :=
  if isShared || !(t.attr.present || t.attr.mapped) then t else ⟨t.pfn, cowAttr t.attr⟩

def childEntry (isShared : Bool) (t : PTE) : PTE :=
  if isShared then t
  else if t.attr.present || t.attr.mapped then ⟨t.pfn, { cowAttr t.attr with accessed := false }⟩
  else {}

/-- The pages of areas, each with the sharing of its area. -/
def sharedPages (elems : List MMArea) : List (Bool × ℕ) :=
  elems.flatMap fun a => (pagesOf a.range).map (Prod.mk a.isShared)

theorem mem_sharedPages {elems : List MMArea} {x : Bool × ℕ} :
    x ∈ sharedPages elems ↔ ∃ a ∈ elems, ∃ v ∈ pagesOf a.range, (a.isShared, v) = x := by
  simp only [sharedPages, List.mem_flatMap, List.mem_map]

theorem foldlM_areas {f : World → MMArea → Except MMPanic World}
    {g : Bool → World → ℕ → Except MMPanic World}
    (hfg : ∀ w a, f w a = (pagesOf a.range).foldlM (g a.isShared) w) (elems : List MMArea)
    (w : World) : elems.foldlM f w = (sharedPages elems).foldlM (fun w x => g x.1 w x.2) w := by
  induction elems generalizing w with
  | nil => rfl
  | cons a elems ih =>
    rw [List.foldlM_cons, hfg, funext ih]
    change _ = ((pagesOf a.range).map (Prod.mk a.isShared) ++ sharedPages elems).foldlM _ w
    rw [List.foldlM_append, List.foldlM_map]

/-- One round of the loops of `new_cloned`. -/
def clonePage (i j : ℕ) (isShared : Bool) : World → ℕ → Except MMPanic World :=
  if isShared then setCopied i j else setCopyOnWrite i j

theorem cloneArea_eq (w : World) (a : MMArea) :
    cloneArea i j w a = (pagesOf a.range).foldlM (clonePage i j a.isShared) w := by
  unfold cloneArea clonePage
  cases a.isShared <;> rfl

/-- One round of the loops of `drop`. -/
def dropPage (i : ℕ) (isShared : Bool) : World → ℕ → Except MMPanic World :=
  if isShared then takeShared i else takePage i

theorem dropArea_eq (w : World) (a : MMArea) :
    dropArea i w a = (pagesOf a.range).foldlM (dropPage i a.isShared) w := by
  unfold dropArea dropPage
  cases a.isShared <;> rfl

theorem dropPage_touches {isShared : Bool} (h : dropPage i isShared w v = .ok w') :
    Touches i (· = v) w w' ∧ w'.ptes i v = {} := by
  cases isShared with
  | true => exact takeShared_touches h
  | false => exact takePage_touches h

theorem nodup_pagesOf (r : AddrRange) : (pagesOf r).Nodup := List.nodup_range'

theorem AreasInv.nodup_sharedPages {s : Areas} (hs : AreasInv s) :
    (sharedPages s.elems).Pairwise fun x y => x.2 ≠ y.2 := by
  unfold sharedPages
  rw [List.pairwise_flatMap]
  refine ⟨fun a _ => List.pairwise_map.mpr (nodup_pagesOf a.range), ?_⟩
  refine hs.sorted.imp_of_mem fun {d a} hd ha hbefore x hx y hy heq => ?_
  obtain ⟨v, hv, rfl⟩ := List.mem_map.mp hx
  obtain ⟨_, hu, rfl⟩ := List.mem_map.mp hy
  obtain rfl : v = _ := heq
  rw [(hs.ok d hd).mem_pagesOf] at hv
  rw [(hs.ok a ha).mem_pagesOf] at hu
  unfold MMArea.Before AddrRange.Before at hbefore
  unfold AddrRange.Contains at *
  omega

/-- The entries of the pages in `done` are cloned from address space `i` to `j`. -/
structure Cloned (i j : ℕ) (done : List (Bool × ℕ)) (w w' : World) : Prop where
  lists : w'.lists = w.lists
  parent : ∀ x ∈ done, w'.ptes i x.2 = parentEntry x.1 (w.ptes i x.2)
  child : ∀ x ∈ done, w'.ptes j x.2 = childEntry x.1 (w.ptes i x.2)
  other : ∀ k u, ¬ ((k = i ∨ k = j) ∧ ∃ x ∈ done, x.2 = u) → w'.ptes k u = w.ptes k u

theorem cloned_singleton {x : Bool × ℕ} (hlists : w'.lists = w.lists)
    (hparent : w'.ptes i x.2 = parentEntry x.1 (w.ptes i x.2))
    (hchild : w'.ptes j x.2 = childEntry x.1 (w.ptes i x.2))
    (hother : ∀ k u, ¬ ((k = i ∨ k = j) ∧ u = x.2) → w'.ptes k u = w.ptes k u) :
    Cloned i j [x] w w' := by
  refine ⟨hlists, ?_, ?_, fun k u hne => hother k u fun hu => hne ⟨hu.1, x, by simp, hu.2.symm⟩⟩
  · exact List.forall_mem_singleton.mpr hparent
  · exact List.forall_mem_singleton.mpr hchild

theorem setCopyOnWrite_cloned (hij : i ≠ j) (hchild : w.ptes j v = {})
    (h : setCopyOnWrite i j w v = .ok w') : Cloned i j [(false, v)] w w' := by
  unfold setCopyOnWrite at h
  dsimp only at h
  split at h
  · cases h
  · rename_i attr hattr
    obtain rfl := asPageAttr_eq_some hattr
    split at h
    · rename_i hskip
      cases h
      simp only [Bool.not_eq_true', Bool.or_eq_false_iff] at hskip
      refine cloned_singleton rfl ?_ ?_ fun _ _ _ => rfl
      · unfold parentEntry
        simp [hskip]
      · unfold childEntry
        simpa [hskip] using hchild
    · rename_i hskip
      obtain ⟨_, -, h⟩ := bind_eq_ok.mp h
      cases h
      simp only [Bool.not_eq_true', Bool.not_eq_false] at hskip
      refine cloned_singleton rfl ?_ ?_ fun k u hne => ?_
      · rw [setPte_ptes_self]
        unfold parentEntry
        simp only [hskip, Bool.not_true, Bool.or_false, Bool.false_eq_true, if_false]
        rfl
      · rw [setPte_ptes_of_table_ne hij.symm, setPte_ptes_self]
        unfold childEntry
        simp only [hskip, Bool.false_eq_true, if_false, if_true]
        rfl
      · rw [setPte_ptes_of_ne (by tauto), setPte_ptes_of_ne (by tauto)]
        rfl

theorem clonePage_cloned {x : Bool × ℕ} (hij : i ≠ j) (hchild : w.ptes j x.2 = {})
    (h : clonePage i j x.1 w x.2 = .ok w') : Cloned i j [x] w w' := by
  obtain ⟨isShared, v⟩ := x
  cases isShared with
  | false => exact setCopyOnWrite_cloned hij hchild h
  | true =>
    obtain ⟨_, -, h⟩ := bind_eq_ok.mp h
    cases h
    refine cloned_singleton rfl ?_ (setPte_ptes_self _ _ _ _) fun k u hne => ?_
    · rw [setPte_ptes_of_table_ne hij]
      rfl
    · rw [setPte_ptes_of_ne (by tauto)]
      rfl

theorem Cloned.step {done : List (Bool × ℕ)} {x : Bool × ℕ} {b b' : World}
    (h : Cloned i j done w b) (hnew : ∀ y ∈ done, y.2 ≠ x.2) (h' : Cloned i j [x] b b') :
    Cloned i j (done ++ [x]) w b' := by
  have hx : ∀ k, b.ptes k x.2 = w.ptes k x.2 := fun k => h.other k x.2 fun ⟨_, y, hy, heq⟩ =>
    hnew y hy heq
  have hdone : ∀ k, ∀ y ∈ done, b'.ptes k y.2 = b.ptes k y.2 := fun k y hy =>
    h'.other k y.2 fun ⟨_, z, hz, heq⟩ => hnew y hy (List.mem_singleton.mp hz ▸ heq.symm)
  refine ⟨h'.lists.trans h.lists, ?_, ?_, fun k u hne => ?_⟩
  · refine List.forall_mem_append.mpr ⟨fun y hy => (hdone i y hy).trans (h.parent y hy), ?_⟩
    rw [List.forall_mem_singleton, ← hx]
    exact h'.parent x List.mem_cons_self
  · refine List.forall_mem_append.mpr ⟨fun y hy => (hdone j y hy).trans (h.child y hy), ?_⟩
    rw [List.forall_mem_singleton, ← hx]
    exact h'.child x List.mem_cons_self
  · rw [h'.other k u fun ⟨hk, y, hy, hu⟩ => hne ⟨hk, y, List.mem_append_right _ hy, hu⟩,
      h.other k u fun ⟨hk, y, hy, hu⟩ => hne ⟨hk, y, List.mem_append_left _ hy, hu⟩]

/-- The rule for the loops of `new_cloned`, which find the child's entries empty. -/
theorem cloneAreas_invariant {I : World → Prop} {s : Areas} (hs : AreasInv s) (hij : i ≠ j)
    (hstep : ∀ b b' s v, I b → b.ptes j v = {} → clonePage i j s b v = .ok b' → I b')
    (hI : I w)
    (hchild : ∀ v, w.ptes j v = {}) (h : s.elems.foldlM (cloneArea i j) w = .ok w') :
    I w' ∧ Cloned i j (sharedPages s.elems) w w' := by
  rw [foldlM_areas cloneArea_eq] at h
  refine foldlM_invariant (I := fun done b => I b ∧ Cloned i j done w b) _ ?_
    ⟨hI, rfl, by simp, by simp, fun _ _ _ => rfl⟩ h
  rintro done x rest b b' hl ⟨hb, hcloned⟩ hrun
  have hnew : ∀ y ∈ done, y.2 ≠ x.2 := by
    have hnodup := AreasInv.nodup_sharedPages hs
    rw [hl] at hnodup
    exact fun y hy => (List.pairwise_append.mp hnodup).2.2 y hy x List.mem_cons_self
  have hnull : b.ptes j x.2 = {} :=
    (hcloned.other j x.2 fun ⟨_, y, hy, heq⟩ => hnew y hy heq).trans (hchild x.2)
  exact ⟨hstep b b' x.1 x.2 hb hnull hrun, hcloned.step hnew (clonePage_cloned hij hnull hrun)⟩

theorem ne_of_lists {l : MMListLocked} (hl : w.lists i = some l) (hj : w.lists j = none) :
    i ≠ j := by
  rintro rfl
  rw [hl] at hj
  cases hj

/-- A successful `new_cloned`, from the state before the child's table exists. -/
structure Forked (i j : ℕ) (l : MMListLocked) (w w' : World) : Prop where
  lists : w'.lists = update w.lists j (some l)
  parent : ∀ a ∈ l.areas.elems, ∀ v ∈ pagesOf a.range,
    w'.ptes i v = parentEntry a.isShared (w.ptes i v)
  child : ∀ a ∈ l.areas.elems, ∀ v ∈ pagesOf a.range,
    w'.ptes j v = childEntry a.isShared (w.ptes i v)
  other : ∀ k u, ¬ ((k = i ∨ k = j) ∧ ∃ a ∈ l.areas.elems, u ∈ pagesOf a.range) →
    w'.ptes k u = if k = j then {} else w.ptes k u

theorem newCloned_forked {l : MMListLocked} (hareas : AreasInv l.areas) (hij : i ≠ j)
    (h : w.newCloned i j l = .ok w') : Forked i j l w w' := by
  unfold newCloned at h
  obtain ⟨w1, hloop, hrest⟩ := bind_eq_ok.mp h
  cases hrest
  obtain ⟨-, hcloned⟩ := cloneAreas_invariant (I := fun _ => True) hareas hij
    (fun _ _ _ _ _ _ _ => trivial) trivial (fun v => congrFun (update_self j _ w.ptes) v) hloop
  have hi : ∀ v, update w.ptes j (fun _ => ({} : PTE)) i v = w.ptes i v :=
    fun v => congrFun (update_of_ne hij _ _) v
  have hmem : ∀ a ∈ l.areas.elems, ∀ v ∈ pagesOf a.range,
      (a.isShared, v) ∈ sharedPages l.areas.elems :=
    fun a ha v hv => mem_sharedPages.mpr ⟨a, ha, v, hv, rfl⟩
  refine ⟨?_, fun a ha v hv => ?_, fun a ha v hv => ?_, fun k u hu => ?_⟩
  · change update w1.lists j (some l) = _
    rw [hcloned.lists]
  · exact (hcloned.parent _ (hmem a ha v hv)).trans (congrArg _ (hi v))
  · exact (hcloned.child _ (hmem a ha v hv)).trans (congrArg _ (hi v))
  · refine (hcloned.other k u ?_).trans ?_
    · rintro ⟨hk, x, hx, rfl⟩
      obtain ⟨a, ha, v, hv, rfl⟩ := mem_sharedPages.mp hx
      exact hu ⟨hk, a, ha, hv⟩
    · dsimp only
      rw [update_apply]
      split <;> rfl

end World

end Dlutos
