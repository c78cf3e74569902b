import Dlutos.AddressSpace.AreaInvariant
import Mathlib.Data.List.Induction

/-!
# Looking up areas

`overlapping_addr` and `overlapping_range` ask the `BTreeSet` of the areas with points as keys.
Among disjoint ranges that are not empty every point splits the stored order into the ranges before
it, the one that contains it, and those behind it, and that is all a sorted search needs
(`OrderedSet.Search`).
-/

namespace Dlutos

open Addr AddrRange OrderedSet

def AddrRange.Disjoint (r q : AddrRange) : Prop := ∀ addr, ¬ (r.Contains addr ∧ q.Contains addr)

def AddrRange.Intersects (r q : AddrRange) : Prop := ∃ addr, r.Contains addr ∧ q.Contains addr

theorem AddrRange.intersects_iff {r q : AddrRange} (hr : r.start < r.stop) (hq : q.start < q.stop) :
    r.Intersects q ↔ r.start < q.stop ∧ q.start < r.stop := by
  unfold AddrRange.Intersects AddrRange.Contains
  constructor
  · rintro ⟨addr, h⟩
    omega
  · rintro h
    exact ⟨max r.start q.start, by omega⟩

theorem AddrRange.before_of_disjoint {r q : AddrRange} (hr : r.start < r.stop)
    (hq : q.start < q.stop) (h : r.Disjoint q) : r.Before q ∨ q.Before r := by
  have hnot : ¬ r.Intersects q := fun ⟨addr, hboth⟩ => h addr hboth
  rw [intersects_iff hr hq] at hnot
  unfold Before
  omega

def Areas.ofList (l : List MMArea) : Areas := l.foldl Areas.insert {}

theorem Areas.ofList_spec {l : List MMArea} (hne : ∀ a ∈ l, a.range.start < a.range.stop)
    (hdisjoint : l.Pairwise fun a b => a.range.Disjoint b.range) :
    (Areas.ofList l).elems.Pairwise MMArea.Before ∧ ∀ x, x ∈ (Areas.ofList l).elems ↔ x ∈ l := by
  -- The areas inserted so far are a prefix of the list; the induction takes off its last one.
  induction l using List.reverseRecOn with
  | nil => exact ⟨List.Pairwise.nil, fun x => Iff.rfl⟩
  | append_singleton l a ih =>
    obtain ⟨hl, -, hapart⟩ := List.pairwise_append.mp hdisjoint
    have ha : a.range.start < a.range.stop := hne a (List.mem_append_right l List.mem_cons_self)
    have hnel : ∀ b ∈ l, b.range.start < b.range.stop :=
      fun b hb => hne b (List.mem_append_left [a] hb)
    obtain ⟨hsorted, hmem⟩ := ih hnel hl
    have hbefore : ∀ b ∈ (Areas.ofList l).elems, b.Before a ∨ a.Before b := by
      intro b hb
      have hbl := (hmem b).mp hb
      exact before_of_disjoint (hnel b hbl) ha (hapart b hbl a List.mem_cons_self)
    obtain ⟨hsorted', -, hmem'⟩ := Areas.insert_sorted hsorted hbefore
    have hfold : Areas.ofList (l ++ [a]) = (Areas.ofList l).insert a := by
      unfold Areas.ofList
      rw [List.foldl_append]
      rfl
    rw [hfold]
    refine ⟨hsorted', fun x => ?_⟩
    rw [hmem' x, hmem x, List.mem_append, List.mem_singleton]
    exact or_comm

/-- Disjoint areas in the order of the set, aligned and not empty. -/
structure AreaSet (s : Areas) : Prop where
  nonempty : ∀ a ∈ s.elems, a.range.start < a.range.stop
  aligned : ∀ a ∈ s.elems, IsPageAligned a.range.start ∧ IsPageAligned a.range.stop
  disjoint : s.elems.Pairwise fun a b => a.range.Disjoint b.range
  ordered : s.elems.Pairwise fun a b => a.range.cmp b.range = .lt

theorem AreaSet.sorted {s : Areas} (h : AreaSet s) : s.elems.Pairwise MMArea.Before := by
  refine (h.disjoint.and h.ordered).imp_of_mem fun {a b} ha hb hab => ?_
  obtain hbefore | hbefore := before_of_disjoint (h.nonempty a ha) (h.nonempty b hb) hab.1
  · exact hbefore
  · rw [separates_cmp.gt hbefore] at hab
    cases hab.2

theorem AreaSet.of_sorted {s : Areas} (hne : ∀ a ∈ s.elems, a.range.start < a.range.stop)
    (haligned : ∀ a ∈ s.elems, IsPageAligned a.range.start ∧ IsPageAligned a.range.stop)
    (hs : s.elems.Pairwise MMArea.Before) : AreaSet s := by
  refine ⟨hne, haligned, hs.imp fun {a b} hab addr => ?_, hs.imp fun hab => separates_cmp.lt hab⟩
  unfold MMArea.Before Before at hab
  unfold AddrRange.Contains
  omega

theorem monotone_point {xs : List MMArea} (h : xs.Pairwise MMArea.Before) (addr : ℕ) :
    Monotone (fun x : MMArea => cmp (point addr) x.range) xs := by
  refine h.imp fun {x y} hxy => ?_
  have hx := x.range.le
  have hy := y.range.le
  unfold MMArea.Before Before at hxy
  rw [cmp_point_eq_gt, cmp_point_eq_gt, cmp_point_eq_lt, cmp_point_eq_lt]
  omega

theorem cmp_point_eq_contains {addr : ℕ} {r : AddrRange} (hr : r.start < r.stop) :
    cmp (point addr) r = .eq ↔ r.Contains addr := by
  rw [cmp_point_eq_eq]
  unfold AddrRange.Contains
  omega

theorem between_bounds {r q : AddrRange} (hr : r.start < r.stop) (hq : q.start < q.stop) :
    (cmp r.intoBounds.1 q != .gt && cmp r.intoBounds.2 q != .lt) = true ↔ q.Intersects r := by
  have hlen : r.len ≠ 0 := by
    unfold AddrRange.len
    omega
  unfold intoBounds
  rw [if_neg hlen, intersects_iff hq hr, Bool.and_eq_true, bne_iff_ne, bne_iff_ne, ne_eq, ne_eq,
    cmp_point_eq_gt, cmp_point_eq_lt]
  omega

section Lookup

variable (S : Search MMArea)

/-- `overlapping_addr` with any sorted search. -/
def Areas.lookupAddr (s : Areas) (addr : ℕ) : Option MMArea :=
  S.get (fun x => cmp (point addr) x.range) s.elems

/-- `overlapping_range` with any sorted search. -/
def Areas.lookupRange (s : Areas) (range : AddrRange) : List MMArea :=
  S.range (fun x => cmp range.intoBounds.1 x.range) (fun x => cmp range.intoBounds.2 x.range) s.elems

variable {S} {s : Areas} (hne : ∀ a ∈ s.elems, a.range.start < a.range.stop)
  (hs : s.elems.Pairwise MMArea.Before)

include hne hs

theorem Areas.lookupAddr_iff (addr : ℕ) (x : MMArea) :
    s.lookupAddr S addr = some x ↔ x ∈ s.elems ∧ x.range.Contains addr := by
  have hmono := monotone_point hs addr
  constructor
  · intro h
    obtain ⟨hx, heq⟩ := S.get_some hmono h
    exact ⟨hx, (cmp_point_eq_contains (hne x hx)).mp heq⟩
  · rintro ⟨hx, hcontains⟩
    cases h : s.lookupAddr S addr with
    | none =>
      have hnot := S.get_none hmono h x hx
      exact absurd ((cmp_point_eq_contains (hne x hx)).mpr hcontains) hnot
    | some y =>
      obtain ⟨hy, heq⟩ := S.get_some hmono h
      have hycontains := (cmp_point_eq_contains (hne y hy)).mp heq
      unfold AddrRange.Contains at hcontains hycontains
      obtain rfl | hxy | hyx := eq_or_related hs hx hy
      · rfl
      · unfold MMArea.Before Before at hxy
        omega
      · unfold MMArea.Before Before at hyx
        omega

theorem Areas.lookupRange_spec {r : AddrRange} (hr : r.start < r.stop) :
    (s.lookupRange S r).Pairwise MMArea.Before ∧
      ∀ x, x ∈ s.lookupRange S r ↔ x ∈ s.elems ∧ x.range.Intersects r := by
  have hbounds : r.intoBounds = (point r.start, point (r.stop - 1)) := by
    unfold intoBounds AddrRange.len
    exact if_neg (by omega)
  have hlo : Monotone (fun x : MMArea => cmp r.intoBounds.1 x.range) s.elems := by
    rw [hbounds]
    exact monotone_point hs r.start
  have hhi : Monotone (fun x : MMArea => cmp r.intoBounds.2 x.range) s.elems := by
    rw [hbounds]
    exact monotone_point hs (r.stop - 1)
  unfold Areas.lookupRange
  rw [S.range_eq hlo hhi]
  refine ⟨hs.filter _, fun x => ?_⟩
  rw [List.mem_filter]
  exact and_congr_right fun hx => between_bounds hr (hne x hx)

end Lookup

/-- With any sorted search, an address leads to the unique area that contains it, and a range to
exactly the areas that intersect it, in ascending order. -/
theorem lookup_exact (S : Search MMArea) (l : List MMArea)
    (hne : ∀ a ∈ l, a.range.start < a.range.stop)
    (hdisjoint : l.Pairwise fun a b => a.range.Disjoint b.range) :
    (∀ addr x, (Areas.ofList l).lookupAddr S addr = some x ↔
        x ∈ l ∧ x.range.start ≤ addr ∧ addr < x.range.stop) ∧
      (∀ addr, (Areas.ofList l).lookupAddr S addr = none ↔
        ∀ x ∈ l, ¬ (x.range.start ≤ addr ∧ addr < x.range.stop)) ∧
      (∀ addr, ∀ x ∈ l, ∀ y ∈ l, x.range.Contains addr → y.range.Contains addr → x = y) ∧
      ∀ r : AddrRange, r.start < r.stop →
        ((Areas.ofList l).lookupRange S r).Pairwise (fun x y => x.range.start < y.range.start) ∧
          ∀ x, x ∈ (Areas.ofList l).lookupRange S r ↔ x ∈ l ∧ x.range.Intersects r := by
  obtain ⟨hsorted, hmem⟩ := Areas.ofList_spec hne hdisjoint
  have hne' : ∀ a ∈ (Areas.ofList l).elems, a.range.start < a.range.stop :=
    fun a ha => hne a ((hmem a).mp ha)
  have haddr : ∀ addr x, (Areas.ofList l).lookupAddr S addr = some x ↔
      x ∈ l ∧ x.range.Contains addr := by
    intro addr x
    rw [Areas.lookupAddr_iff hne' hsorted, hmem]
  refine ⟨haddr, fun addr => ?_, fun addr x hx y hy hxa hya => ?_, fun r hr => ?_⟩
  · rw [Option.eq_none_iff_forall_ne_some]
    exact forall_congr' fun x => (not_congr (haddr addr x)).trans not_and
  · exact Option.some.inj (((haddr addr x).mpr ⟨hx, hxa⟩).symm.trans ((haddr addr y).mpr ⟨hy, hya⟩))
  · obtain ⟨hasc, hrange⟩ := Areas.lookupRange_spec (S := S) hne' hsorted hr
    refine ⟨hasc.imp fun h => h.2, fun x => ?_⟩
    rw [hrange, hmem]

/-- Two areas, inserted in descending order; the second one is found at its last address. -/
theorem lookup_exact_two :
    (Areas.ofList [⟨⟨0x3000, 0x5000, by decide⟩, .anonymous, ⟨true, true, false⟩, false⟩,
        ⟨⟨0x1000, 0x2000, by decide⟩, .anonymous, ⟨true, false, false⟩, false⟩]).lookupAddr
        (linear MMArea) 0x1fff =
      some ⟨⟨0x1000, 0x2000, by decide⟩, .anonymous, ⟨true, false, false⟩, false⟩ := by
  refine ((lookup_exact (linear MMArea) _ ?_ ?_).1 _ _).mpr ⟨?_, by decide, by decide⟩
  · simp
  · simp [AddrRange.Disjoint, AddrRange.Contains]
    omega
  · exact List.mem_cons_of_mem _ List.mem_cons_self

end Dlutos
