import Dlutos.AddressSpace.AreaLookup

/-!
# The search for a free range

`find_available` tries a range, asks for the last area that overlaps it, and goes on at the end of
that area.  Each failed attempt passes an area that is not empty, so the loop ends; a range that
starts between two attempts meets the area that made the first one fail, so nothing is missed.
-/

namespace Dlutos

open Addr AddrRange MMListLocked

def Areas.behind (s : Areas) (addr : ℕ) : ℕ := s.elems.countP fun a => addr < a.range.stop

theorem Areas.behind_le_length (s : Areas) (addr : ℕ) : s.behind addr ≤ s.elems.length :=
  List.countP_le_length

variable {s : Areas}

theorem Areas.behind_lt {a : MMArea} (ha : a ∈ s.elems) {x y : ℕ} (hx : x < a.range.stop)
    (hy : a.range.stop ≤ y) : s.behind y < s.behind x := by
  obtain ⟨before, rest, hsplit⟩ := List.append_of_mem ha
  have hmono : ∀ l : List MMArea, (l.countP fun b => decide (y < b.range.stop)) ≤
      l.countP fun b => decide (x < b.range.stop) := by
    intro l
    refine List.countP_mono_left fun b _ hb => ?_
    rw [decide_eq_true_eq] at hb ⊢
    omega
  have h1 := hmono before
  have h2 := hmono rest
  unfold Areas.behind
  rw [hsplit, List.countP_append, List.countP_append, List.countP_cons, List.countP_cons,
    if_neg (by rw [decide_eq_true_eq]; omega), if_pos (by rw [decide_eq_true_eq]; exact hx)]
  omega

theorem Areas.overlappingRange_behind (hne : ∀ a ∈ s.elems, a.range.start < a.range.stop)
    {r : AddrRange} {a : MMArea} (ha : a ∈ s.overlappingRange r) :
    a ∈ s.elems ∧ r.start < a.range.stop := by
  obtain ⟨hmem, hcmp⟩ := List.mem_filter.mp ha
  refine ⟨hmem, ?_⟩
  have hlo : r.intoBounds.1 = point r.start := by
    unfold intoBounds
    split <;> rfl
  have hpos := hne a hmem
  rw [Bool.and_eq_true, bne_iff_ne, hlo, ne_eq, cmp_point_eq_gt] at hcmp
  omega

theorem findLoop_returns {areas : Areas} (hne : ∀ a ∈ areas.elems, a.range.start < a.range.stop)
    (len : ℕ) : ∀ fuel x, areas.behind x < fuel →
      ∃ result, findLoop areas len fuel ((point x).grow len) = some result := by
  intro fuel
  induction fuel with
  | zero => exact fun x hx => absurd hx (Nat.not_lt_zero _)
  | succ fuel ih =>
    intro x hx
    rw [findLoop]
    split
    · exact ⟨none, rfl⟩
    · split
      · exact ⟨_, rfl⟩
      · rename_i area harea
        obtain ⟨hmem, hstop⟩ := Areas.overlappingRange_behind hne (List.mem_of_getLast? harea)
        have hless := Areas.behind_lt hmem hstop (le_ceil area.range.stop)
        change areas.behind (ceil area.range.stop) < areas.behind x at hless
        exact ih (ceil area.range.stop) (by omega)

/-- A page boundary at or above `lo` from which the range lies in user space and meets no area. -/
structure Areas.FreeStart (s : Areas) (lo len x : ℕ) : Prop where
  aligned : IsPageAligned x
  le : lo ≤ x
  user : x + len ≤ USER_SPACE_MEMORY_TOP
  free : ∀ a ∈ s.elems, ¬ a.range.Intersects ((point x).grow len)

/-- The result is the least free start, and there is none if no start is free. -/
def FirstFit (s : Areas) (lo len : ℕ) : Option ℕ → Prop
  | some x => s.FreeStart lo len x ∧ ∀ y, s.FreeStart lo len y → x ≤ y
  | none => ∀ y, ¬ s.FreeStart lo len y

theorem FirstFit.unique {lo len : ℕ} {r r' : Option ℕ} (h : FirstFit s lo len r)
    (h' : FirstFit s lo len r') : r = r' := by
  cases r with
  | none =>
    cases r' with
    | none => rfl
    | some y => exact absurd h'.1 (h y)
  | some x =>
    cases r' with
    | none => exact absurd h.1 (h' x)
    | some y => exact congrArg some (le_antisymm (h.2 y h'.1) (h'.2 x h.1))

theorem AreaSet.mem_overlappingRange (hs : AreaSet s) {r : AddrRange} (hr : r.start < r.stop)
    (a : MMArea) : a ∈ s.overlappingRange r ↔ a ∈ s.elems ∧ a.range.Intersects r :=
  (Areas.lookupRange_spec (S := OrderedSet.linear MMArea) hs.nonempty hs.sorted hr).2 a

section FirstFit

variable {areas : Areas} (hset : AreaSet areas) {lo len : ℕ} (hlen : 0 < len)

include hset hlen

theorem not_freeStart_of_overlap {x y : ℕ} (hxy : x ≤ y) {a : MMArea}
    (ha : a ∈ areas.overlappingRange ((point x).grow len)) (hy : y < a.range.stop) :
    ¬ areas.FreeStart lo len y := by
  intro hfree
  have hx : ((point x).grow len).start < ((point x).grow len).stop := Nat.lt_add_of_pos_right hlen
  have hy' : ((point y).grow len).start < ((point y).grow len).stop := Nat.lt_add_of_pos_right hlen
  obtain ⟨hmem, hmeets⟩ := (hset.mem_overlappingRange hx a).mp ha
  rw [intersects_iff (hset.nonempty a hmem) hx] at hmeets
  refine hfree.free a hmem ((intersects_iff (hset.nonempty a hmem) hy').mpr ?_)
  change a.range.start < x + len ∧ x < a.range.stop at hmeets
  change a.range.start < y + len ∧ y < a.range.stop
  omega

theorem findLoop_firstFit : ∀ fuel x result, IsPageAligned x → lo ≤ x →
    (∀ y, y < x → ¬ areas.FreeStart lo len y) →
    findLoop areas len fuel ((point x).grow len) = some result → FirstFit areas lo len result := by
  intro fuel
  induction fuel with
  | zero =>
    intro x result _ _ _ hrun
    cases hrun
  | succ fuel ih =>
    intro x result haligned hlo hbelow hrun
    have hx : ((point x).grow len).start < ((point x).grow len).stop := Nat.lt_add_of_pos_right hlen
    rw [findLoop] at hrun
    by_cases huser : ((point x).grow len).isUser = true
    · rw [huser] at hrun
      simp only [Bool.not_true, Bool.false_eq_true, if_false] at hrun
      rw [isUser_iff] at huser
      cases hlast : (areas.overlappingRange ((point x).grow len)).getLast? with
      | none =>
        rw [hlast] at hrun
        cases hrun
        have hnil := List.getLast?_eq_none_iff.mp hlast
        refine ⟨⟨haligned, hlo, huser.1, fun a ha hmeets => ?_⟩, fun y hy => ?_⟩
        · have hmem : a ∈ areas.overlappingRange ((point x).grow len) :=
            (hset.mem_overlappingRange hx a).mpr ⟨ha, hmeets⟩
          rw [hnil] at hmem
          cases hmem
        · exact not_lt.mp fun hyx => hbelow y hyx hy
      | some area =>
        rw [hlast] at hrun
        have hmem := List.mem_of_getLast? hlast
        obtain ⟨harea, hstop⟩ := Areas.overlappingRange_behind hset.nonempty hmem
        change x < area.range.stop at hstop
        have haligned' := (hset.aligned area harea).2
        change findLoop areas len fuel ((point (ceil area.range.stop)).grow len) = _ at hrun
        rw [ceil_eq_self haligned'] at hrun
        refine ih area.range.stop result haligned' (by omega) (fun y hy => ?_) hrun
        -- A start below the end of the area is below the old start, or its range meets the area.
        rcases Nat.lt_or_ge y x with hyx | hyx
        · exact hbelow y hyx
        · exact not_freeStart_of_overlap hset hlen hyx hmem hy
    · rw [Bool.not_eq_true] at huser
      rw [huser] at hrun
      cases hrun
      intro y hy
      have huser' := hy.user
      rw [← Bool.not_eq_true, isUser_iff] at huser
      change ¬ (x + len ≤ USER_SPACE_MEMORY_TOP ∧ x < USER_SPACE_MEMORY_TOP) at huser
      rcases Nat.lt_or_ge y x with hyx | hyx
      · exact hbelow y hyx hy
      · omega

end FirstFit

def effectiveHint (hint : ℕ) : ℕ := if hint = 0 then randomStart else floor hint

theorem isPageAligned_effectiveHint (hint : ℕ) : IsPageAligned (effectiveHint hint) := by
  unfold effectiveHint
  split
  · decide
  · exact isPageAligned_floor hint

/-- The search terminates after at most one more iteration than there are areas, with the least page
boundary at or above the effective hint from which the rounded length is free in user space, or with
nothing if there is none. -/
theorem findAvailable_firstFit {l : MMListLocked} (hset : AreaSet l.areas) (hint : ℕ) {len : ℕ}
    (hlen : len ≠ 0) :
    ∃ result, (∀ fuel, l.areas.elems.length < fuel → l.findAvailable fuel hint len = some result) ∧
      (∀ x, result = some x ↔
        l.areas.FreeStart (effectiveHint hint) (ceil len) x ∧
        ∀ y, l.areas.FreeStart (effectiveHint hint) (ceil len) y → x ≤ y) ∧
      (result = none ↔ ∀ x, ¬ l.areas.FreeStart (effectiveHint hint) (ceil len) x) := by
  have hpos : 0 < ceil len := (Nat.pos_of_ne_zero hlen).trans_le (le_ceil len)
  -- Every run with enough iterations returns a first fit, and there is only one.
  have hall : ∀ fuel, l.areas.elems.length < fuel → ∃ result,
      l.findAvailable fuel hint len = some result ∧
      FirstFit l.areas (effectiveHint hint) (ceil len) result := by
    intro fuel hfuel
    obtain ⟨result, hrun⟩ := findLoop_returns hset.nonempty (ceil len) fuel (effectiveHint hint)
      ((Areas.behind_le_length l.areas _).trans_lt hfuel)
    refine ⟨result, hrun, findLoop_firstFit hset hpos fuel _ result
      (isPageAligned_effectiveHint hint) le_rfl ?_ hrun⟩
    exact fun y hy hfree => absurd hfree.le (not_le.mpr hy)
  obtain ⟨result, -, hfit⟩ := hall _ (Nat.lt_succ_self _)
  refine ⟨result, fun fuel hfuel => ?_, fun x => ⟨?_, fun hx => ?_⟩, ⟨?_, fun hx => ?_⟩⟩
  · obtain ⟨result', hrun, hfit'⟩ := hall fuel hfuel
    rw [hrun, hfit.unique hfit']
  · rintro rfl
    exact hfit
  · have hx : FirstFit l.areas (effectiveHint hint) (ceil len) (some x) := hx
    exact hfit.unique hx
  · rintro rfl
    exact hfit
  · have hx : FirstFit l.areas (effectiveHint hint) (ceil len) none := hx
    exact hfit.unique hx

def twoPages : MMListLocked :=
  { areas := ⟨[⟨(point 0x1000).grow 0x1000, .anonymous, ⟨true, true, false⟩, false⟩,
      ⟨(point 0x3000).grow 0x1000, .anonymous, ⟨true, true, false⟩, false⟩], false⟩ }

theorem areaSet_twoPages : AreaSet twoPages.areas :=
  AreaSet.of_sorted (by decide) (by decide)
    (List.pairwise_pair.mpr ⟨by decide, by decide⟩)

theorem findAvailable_firstFit_hole :
    twoPages.areas.FreeStart 0x1000 0x2000 0x4000 ∧
      ¬ twoPages.areas.FreeStart 0x1000 0x2000 0x2000 := by
  obtain ⟨result, hrun, hsome, -⟩ :=
    findAvailable_firstFit areaSet_twoPages 0x1234 (show 0x1001 ≠ 0 by decide)
  have hthree : some (some 0x4000) = some result := hrun 3 (by decide)
  obtain ⟨hfree, hleast⟩ := (hsome 0x4000).mp (Option.some.inj hthree).symm
  exact ⟨hfree, fun h => absurd (hleast 0x2000 h) (by decide)⟩

end Dlutos
