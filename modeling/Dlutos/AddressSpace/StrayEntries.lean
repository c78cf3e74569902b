import Dlutos.AddressSpace.EntryInvariant

/-!
# Entries outside of all areas

The calls on areas write entries of pages that belong to an area, and they clear the entries of
pages that no longer do.  A page outside of all areas therefore has the null entry, or what a fault
at the address of an empty area made of it: an entry that is not present, not copy-on-write and not
waiting for a page of a file.
-/

namespace Dlutos

open Addr AddrRange ExceptLoop Function

namespace World

/-- An entry outside of all areas. -/
structure Stray (t : PTE) : Prop where
  present : t.attr.present = false
  mapped : t.attr.mapped = false
  cow : t.attr.copyOnWrite = false

theorem stray_null : Stray {} := ⟨rfl, rfl, rfl⟩

def InArea (w : World) (i v : ℕ) : Prop :=
  ∃ l, w.lists i = some l ∧ ∃ a ∈ l.areas.elems, a.range.Contains (v * PAGE_SIZE)

def Tidy (S : PTE → Prop) (w : World) : Prop := ∀ i v, S (w.ptes i v) ∨ InArea w i v

variable {S : PTE → Prop} {w w' : World} {i j v : ℕ} {l : MMListLocked}

theorem inArea_of_lists {l' : MMListLocked} (hlists : w'.lists = update w.lists i (some l'))
    {a : MMArea} (ha : a ∈ l'.areas.elems) (hv : a.range.Contains (v * PAGE_SIZE)) :
    InArea w' i v := by
  refine ⟨l', ?_, a, ha, hv⟩
  rw [hlists, update_self]

variable {o : Option MMListLocked}

theorem InArea.relist {k u : ℕ} (hlists : w'.lists = update w.lists i o) (hki : k ≠ i)
    (h : InArea w k u) : InArea w' k u := by
  obtain ⟨m, hm, a, ha, hau⟩ := h
  refine ⟨m, ?_, a, ha, hau⟩
  rw [hlists, update_of_ne hki]
  exact hm

/-! ### The calls on areas -/

section

variable (h : Tidy S w)
include h

theorem Tidy.rewrites {P : ℕ → Prop} {e : PTE → PTE} (hrw : Rewrites i o P e w w')
    (hset : ∀ u, P u → S (e (w.ptes i u)) ∨ InArea w' i u)
    (hkeep : ∀ u, ¬ P u → InArea w i u → InArea w' i u) : Tidy S w' := by
  intro k u
  by_cases hu : k = i ∧ P u
  · obtain ⟨rfl, hu⟩ := hu
    rw [hrw.set u hu]
    exact hset u hu
  · rw [hrw.other k u hu]
    refine (h k u).imp_right fun hin => ?_
    by_cases hki : k = i
    · subst hki
      exact hkeep u (fun hP => hu ⟨rfl, hP⟩) hin
    · exact hin.relist hrw.lists hki

theorem Tidy.fork (hnull : S {}) (hinv : LockedInv l) (hl : w.lists i = some l) (hij : i ≠ j)
    (hforked : Forked i j l w w') : Tidy S w' := by
  intro k u
  by_cases hu : (k = i ∨ k = j) ∧ ∃ a ∈ l.areas.elems, u ∈ pagesOf a.range
  · obtain ⟨hk, a, ha, hu⟩ := hu
    refine Or.inr ⟨l, ?_, a, ha, (hinv.areas.ok a ha).mem_pagesOf.mp hu⟩
    rw [hforked.lists]
    rcases hk with rfl | rfl
    · rw [update_of_ne hij, hl]
    · rw [update_self]
  · rw [hforked.other k u hu]
    split
    · exact Or.inl hnull
    · exact (h k u).imp_right (InArea.relist hforked.lists ‹_›)

theorem Tidy.onAreas {op : Op} (hnull : S {}) (hinv : ∀ i l, w.lists i = some l → LockedInv l)
    (hop : Contract w op) (hareas : op.onAreas = true) (hrun : w.run op = .ok w') : Tidy S w' := by
  have hcalls : TableCalls (Tidy S) w op :=
    { same := h
      clear := fun i o w' _ hrw =>
        h.rewrites hrw (fun _ _ => Or.inl hnull) fun u hu => absurd trivial hu
      maps := by
        intro i l l' range mapping permission isShared w' _ hl hmaps hrw
        refine h.rewrites hrw (fun u hu => Or.inr ?_) ?_
        · exact inArea_of_lists hrw.lists ((hmaps.mem _).mpr (Or.inl rfl)) hu
        · rintro u - ⟨m, hm, a, ha, hau⟩
          cases hl.symm.trans hm
          exact inArea_of_lists hrw.lists ((hmaps.mem a).mpr (Or.inr ha)) hau
      cut := by
        intro i start len perm l mids l' w' _ hl hcuts hrw
        have hcover : ∀ a ∈ l.areas.elems, ∀ u, a.range.Contains (u * PAGE_SIZE) →
            ((maskOf start len).Contains (u * PAGE_SIZE) → perm ≠ none) → InArea w' i u := by
          intro a ha u hau hperm
          obtain ⟨x, hx, hxu⟩ := hcuts.result.cover a ha _ hau hperm
          exact inArea_of_lists hrw.lists hx hxu
        refine h.rewrites hrw ?_ ?_
        · rintro u ⟨-, a, ha, hau⟩
          cases perm with
          | none => exact Or.inl hnull
          | some permission => exact Or.inr (hcover a ha u hau fun _ => nofun)
        · rintro u hu ⟨m, hm, a, ha, hau⟩
          cases hl.symm.trans hm
          -- the page is outside of the mask, since its entry was not visited
          exact hcover a ha u hau fun hmask => absurd ⟨hmask, a, ha, hau⟩ hu
      fork := fun i j l w' _ hl hinv hij hforked => h.fork hnull hinv hl hij hforked }
  exact hcalls.run hinv hop hareas hrun

end

/-! ### Page faults -/

section Fault

variable {pick : Pick} {backend : Backend} {area : MMArea} {offset : ℕ} {write : Bool}
  {r : KResult Unit}

theorem Stray.handle (h : Stray (w.ptes i v))
    (hrun : w.handle pick backend area i v offset write = .ok (r, w')) :
    w'.ptes i v = ⟨(w.ptes i v).pfn, touched (w.ptes i v).attr write⟩ := by
  obtain ⟨r1, w1, hres, hr⟩ := handle_cases hrun
  obtain ⟨pfn1, attr1, w2, hcow, hmap⟩ := resolve_cases hres
  rw [h.cow] at hcow
  obtain ⟨hcow, -⟩ | ⟨-, rfl, rfl, rfl⟩ := hcow
  · cases hcow
  rw [h.mapped] at hmap
  obtain ⟨-, rfl, rfl⟩ | ⟨hmap, -⟩ := hmap
  · obtain ⟨err, herr, -⟩ | ⟨pfn, attr, heq, -, rfl⟩ := hr
    · cases herr
    cases heq
    exact setPte_ptes_self _ _ _ _
  · cases hmap

theorem Stray.touched {t : PTE} (h : Stray t) (write : Bool) :
    Stray ⟨t.pfn, World.touched t.attr write⟩ := ⟨h.present, h.mapped, h.cow⟩

theorem Tidy.fault (h : Tidy S w) (hstray : ∀ t, S t → Stray t)
    (htouched : ∀ t write, S t → S ⟨t.pfn, World.touched t.attr write⟩)
    (hrun : w.handle pick backend area i v offset write = .ok (r, w')) : Tidy S w' := by
  have hfaults := handle_faults hrun
  intro k u
  have hin : InArea w k u → InArea w' k u := by
    rintro ⟨m, hm, hrest⟩
    exact ⟨m, by rw [hfaults.lists, hm], hrest⟩
  by_cases heq : k = i ∧ u = v
  · obtain ⟨rfl, rfl⟩ := heq
    refine (h k u).imp (fun hS => ?_) hin
    rw [(hstray _ hS).handle hrun]
    exact htouched _ write hS
  · rw [hfaults.ptes k u heq]
    exact (h k u).imp_right hin

end Fault

end World

end Dlutos
