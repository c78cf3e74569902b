import Dlutos.AddressSpace.Machine

/-!
# Properties of the entries of all areas

`Entrywise Q w` says that the areas of every address space `i` are sorted and that `Q i v a t` holds
for every area `a` and the entry `t` of each of its pages `v`.  For each operation one lemma reduces
the preservation of `Entrywise Q` to what the operation does to a single entry; the properties of
page tables proved later are instances of `Q`.
-/

namespace Dlutos

open Addr AddrRange ExceptLoop Function

namespace World

variable {Q : ℕ → ℕ → MMArea → PTE → Prop} {w w' : World} {i j : ℕ} {l : MMListLocked}

def EntriesOf (Q : ℕ → MMArea → PTE → Prop) (elems : List MMArea) (table : ℕ → PTE) : Prop :=
  ∀ a ∈ elems, ∀ v, a.range.Contains (v * PAGE_SIZE) → Q v a (table v)

def Entrywise (Q : ℕ → ℕ → MMArea → PTE → Prop) (w : World) : Prop :=
  ∀ i l, w.lists i = some l → LockedInv l ∧ EntriesOf (Q i) l.areas.elems (w.ptes i)

section

variable (h : Entrywise Q w)
include h

theorem Entrywise.mono {Q' : ℕ → ℕ → MMArea → PTE → Prop}
    (hQ : ∀ i l, w.lists i = some l → ∀ a ∈ l.areas.elems, ∀ v, a.range.Contains (v * PAGE_SIZE) →
      Q i v a (w.ptes i v) → Q' i v a (w.ptes i v)) : Entrywise Q' w := by
  intro i l hl
  refine ⟨(h i l hl).1, fun a ha v hv => ?_⟩
  exact hQ i l hl a ha v hv ((h i l hl).2 a ha v hv)

variable {o : Option MMListLocked}

theorem Entrywise.rewrites {P : ℕ → Prop} {e : PTE → PTE} (hrw : Rewrites i o P e w w')
    (ho : ∀ l' ∈ o, LockedInv l' ∧ EntriesOf (Q i) l'.areas.elems (w'.ptes i)) :
    Entrywise Q w' := by
  intro k m hk
  rw [hrw.lists] at hk
  by_cases hki : k = i
  · subst hki
    rw [update_self] at hk
    exact ho m hk
  · rw [update_of_ne hki] at hk
    refine ⟨(h k m hk).1, fun a ha v hv => ?_⟩
    rw [hrw.other k v fun hne => hki hne.1]
    exact (h k m hk).2 a ha v hv

theorem Entrywise.clear (ho : ∀ l' ∈ o, l' = {})
    (hrw : Rewrites i o (fun _ => True) (fun _ => {}) w w') : Entrywise Q w' := by
  refine h.rewrites hrw fun l' hl' => ?_
  rw [ho l' hl']
  exact ⟨LockedInv.empty, fun a ha => nomatch ha⟩

theorem Entrywise.mapsInto (hl : w.lists i = some l) {range : AddrRange}
    {mapping : Mapping} {permission : Permission} {isShared : Bool} {l' : MMListLocked}
    (hmaps : Maps l l' ⟨range, mapping, permission, isShared⟩)
    (hrw : Rewrites i (some l') (fun u => range.Contains (u * PAGE_SIZE))
      (fun _ => ⟨w.emptyPage, freshAttr mapping permission⟩) w w')
    (hQ : ∀ v, range.Contains (v * PAGE_SIZE) → Q i v ⟨range, mapping, permission, isShared⟩
      ⟨w.emptyPage, freshAttr mapping permission⟩) : Entrywise Q w' := by
  refine h.rewrites hrw ?_
  rintro _ ⟨⟩
  refine ⟨hmaps.inv, fun a ha v hv => ?_⟩
  rcases (hmaps.mem a).mp ha with rfl | hold
  · rw [hrw.set v hv]
    exact hQ v hv
  · rw [hrw.other i v fun hne => hmaps.not_contains hold hv hne.2]
    exact (h i l hl).2 a hold v hv

variable {mask : AddrRange} {mids : List AddrRange} {l' : MMListLocked}

theorem Entrywise.cut (hl : w.lists i = some l) {perm : Option Permission}
    (hcuts : Cuts mask perm mids l l')
    (hrw : Rewrites i (some l') (PagesIn mask l) (cutEntry perm) w w')
    (hQ : ∀ v x a t, IsPart x a → x.permission = a.permission → Q i v a t → Q i v x t)
    (hQ' : ∀ permission ∈ perm, ∀ a ∈ l.areas.elems, ∀ v, mask.Contains (v * PAGE_SIZE) →
      a.range.Contains (v * PAGE_SIZE) → Q i v a (w.ptes i v) → ∀ x, IsPart x a →
      x.permission = permission →
      Q i v x ⟨(w.ptes i v).pfn, protectAttr permission (w.ptes i v).attr⟩) :
    Entrywise Q w' := by
  refine h.rewrites hrw ?_
  rintro _ ⟨⟩
  refine ⟨hcuts.inv, fun x hx v hv => ?_⟩
  obtain ⟨a, ha, hpart, hcases⟩ := hcuts.result.part x hx
  have hav := hpart.contains hv
  have hQa := (h i l hl).2 a ha v hav
  rcases hcases with ⟨hperm, hmiss⟩ | ⟨rfl, hlo, hhi⟩
  · rw [hrw.other i v fun hne => hmiss.not_contains hv hne.2.1]
    exact hQ v x a _ hpart hperm hQa
  · have hmask : mask.Contains (v * PAGE_SIZE) := ⟨hlo.trans hv.1, hv.2.trans_le hhi⟩
    rw [hrw.set v ⟨hmask, a, ha, hav⟩]
    exact hQ' _ rfl a ha v hmask hav hQa x hpart rfl

theorem Entrywise.fork (hl : w.lists i = some l) (hforked : Forked i j l w w')
    (hQ : ∀ a ∈ l.areas.elems, ∀ v, a.range.Contains (v * PAGE_SIZE) → Q i v a (w.ptes i v) →
      Q i v a (parentEntry a.isShared (w.ptes i v)) ∧
        Q j v a (childEntry a.isShared (w.ptes i v))) :
    Entrywise Q w' := by
  obtain ⟨hinv, hentries⟩ := h i l hl
  intro k m hk
  rw [hforked.lists] at hk
  by_cases hkj : k = j
  · subst hkj
    rw [update_self] at hk
    cases hk
    refine ⟨hinv, fun a ha v hv => ?_⟩
    rw [hforked.child a ha v ((hinv.areas.ok a ha).mem_pagesOf.mpr hv)]
    exact (hQ a ha v hv (hentries a ha v hv)).2
  · rw [update_of_ne hkj] at hk
    refine ⟨(h k m hk).1, fun a ha v hv => ?_⟩
    by_cases hki : k = i
    · subst hki
      rw [hl] at hk
      cases hk
      rw [hforked.parent a ha v ((hinv.areas.ok a ha).mem_pagesOf.mpr hv)]
      exact (hQ a ha v hv (hentries a ha v hv)).1
    · rw [hforked.other k v (by tauto), if_neg hkj]
      exact (h k m hk).2 a ha v hv

end

/-- What a property of entries has to satisfy for a call on areas to keep it. -/
structure EntryRules (Q : ℕ → ℕ → MMArea → PTE → Prop) (w : World) (op : Op) : Prop where
  part : ∀ i v x a t, IsPart x a → x.permission = a.permission → Q i v a t → Q i v x t
  clone : ∀ i j, op = .fork i j → ∀ l, w.lists i = some l → ∀ a ∈ l.areas.elems, ∀ v,
    a.range.Contains (v * PAGE_SIZE) → Q i v a (w.ptes i v) →
    Q i v a (parentEntry a.isShared (w.ptes i v)) ∧ Q j v a (childEntry a.isShared (w.ptes i v))
  fresh : ∀ mapping permission isShared, op.maps = some (mapping, permission, isShared) →
    ∀ i v range, Q i v ⟨range, mapping, permission, isShared⟩
      ⟨w.emptyPage, freshAttr mapping permission⟩
  protect : ∀ i start len permission, op = .protect i start len permission →
    ∀ l, w.lists i = some l → ∀ a ∈ l.areas.elems, ∀ v,
      (maskOf start len).Contains (v * PAGE_SIZE) → a.range.Contains (v * PAGE_SIZE) →
      Q i v a (w.ptes i v) → ∀ x, IsPart x a → x.permission = permission →
      Q i v x ⟨(w.ptes i v).pfn, protectAttr permission (w.ptes i v).attr⟩

theorem Entrywise.onAreas {op : Op} (h : Entrywise Q w) (hop : Contract w op)
    (hareas : op.onAreas = true) (rules : EntryRules Q w op) (hrun : w.run op = .ok w') :
    Entrywise Q w' := by
  have hcalls : TableCalls (Entrywise Q) w op :=
    { same := h
      clear := fun i o w' ho hrw => h.clear ho hrw
      maps := fun i l l' range mapping permission isShared w' hop hl hmaps hrw =>
        h.mapsInto hl hmaps hrw fun v _ => rules.fresh _ _ _ hop i v range
      cut := fun i start len perm l mids l' w' hop hl hcuts hrw =>
        h.cut hl hcuts hrw (rules.part i) fun permission hp =>
          rules.protect i start len permission (hop.trans (congrArg (Op.cut i start len) hp)) l hl
      fork := fun i j l w' hop hl _ _ hforked => h.fork hl hforked (rules.clone i j hop l hl) }
  exact hcalls.run (fun i l hl => (h i l hl).1) hop hareas hrun

theorem Entrywise.fault (h : Entrywise Q w) {v : ℕ} (hfaults : Faults i v w w')
    (hQ : ∀ l, w.lists i = some l → ∀ a ∈ l.areas.elems, a.range.Contains (v * PAGE_SIZE) →
      Q i v a (w.ptes i v) → Q i v a (w'.ptes i v)) : Entrywise Q w' := by
  intro k m hk
  rw [hfaults.lists] at hk
  refine ⟨(h k m hk).1, fun a ha u hu => ?_⟩
  have hold := (h k m hk).2 a ha u hu
  by_cases heq : k = i ∧ u = v
  · obtain ⟨rfl, rfl⟩ := heq
    exact hQ m hk a ha hu hold
  · rw [hfaults.ptes k u heq]
    exact hold

end World

end Dlutos
