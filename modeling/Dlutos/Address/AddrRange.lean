import Dlutos.Address.Addr
import Dlutos.Foundation.OrderedSet

/-!
# Address ranges

`crates/dlutos_mm/src/address/addr_range.rs`: half-open ranges of addresses, where two ranges are
equal when one contains the other.  `Before` is the relation on which this comparison agrees with
the position of the ranges; it also orders an empty range (a marker) against its neighbours.
-/

namespace Dlutos

inductive MMPanic where
  /-- In `AddrRange::new`. -/
  | rangeInverted
  /-- In `AddrRange::shrink`. -/
  | shrinkTooLarge
  | splitAtOutside
  /-- In `MMArea::split`. -/
  | splitUnaligned
  /-- In `FileMapping::new`. -/
  | mappingUnaligned
  /-- In `unmap`, `protect` and `mmap`. -/
  | startUnaligned
  /-- In `mmap`. -/
  | lengthUnaligned
  /-- In `protect`. -/
  | emptyProtect
  /-- In `unmap`. -/
  | leftRemaining
  /-- In `unmap`. -/
  | rightRemaining
  /-- The `unreachable!` arms of `unmap` and `protect`. -/
  | splitUnreachable
  /-- The assertion of `set_break` that the break is registered. -/
  | breakMissing
  | breakRegistered
  /-- The unwrap of the mapping that `set_break` makes. -/
  | breakMapping
  | notPageAttribute
  /-- In `Page::alloc`. -/
  | outOfMemory
  /-- In `Page::from_raw`. -/
  | notManaged
  /-- In `Page::drop`. -/
  | refcountZero
  /-- In `MMArea::handle_mmap`. -/
  | anonymousMapped
  /-- In `MMArea::handle_mmap`. -/
  | offsetOutOfRange
  /-- In `MMArea::handle_mmap`. -/
  | noPageCache
  deriving DecidableEq

@[ext]
structure AddrRange where
  start : ℕ
  stop : ℕ
  le : start ≤ stop
  deriving DecidableEq

namespace AddrRange

def new (start stop : ℕ) : Except MMPanic AddrRange :=
  if h : start ≤ stop then .ok ⟨start, stop, h⟩ else .error .rangeInverted

def point (a : ℕ) : AddrRange := ⟨a, a, le_rfl⟩

def len (r : AddrRange) : ℕ := r.stop - r.start

def shrink (r : AddrRange) (size : ℕ) : Except MMPanic AddrRange :=
  if size ≤ r.len then new r.start (r.stop - size) else .error .shrinkTooLarge

def grow (r : AddrRange) (count : ℕ) : AddrRange := ⟨r.start, r.stop + count, le_add_right r.le⟩

/-- `AddrRange::cmp`: a range equals what it contains; an empty range at its end is greater. -/
def cmp (r q : AddrRange) : Ordering :=
  if r.start = q.start then .eq
  else if r.stop = q.stop then
    if r.start = r.stop then .gt
    else if q.start = q.stop then .lt
    else .eq
  else if r.start < q.start then
    if q.stop < r.stop then .eq else .lt
  else
    if r.stop < q.stop then .eq else .gt

def intoBounds (r : AddrRange) : AddrRange × AddrRange :=
  if r.len = 0 then (point r.start, point r.start) else (point r.start, point (r.stop - 1))

def overlapWith (r q : AddrRange) : Bool := r.start < q.stop && r.stop > q.start

def splitAtChecked (r : AddrRange) (a : ℕ) : Option AddrRange × Option AddrRange :=
  if h₁ : r.stop ≤ a then (some r, none)
  else if h₂ : a ≤ r.start then (none, some r)
  else (some ⟨r.start, a, by omega⟩, some ⟨a, r.stop, by omega⟩)

def splitAt (r : AddrRange) (a : ℕ) : Except MMPanic (AddrRange × AddrRange) :=
  match r.splitAtChecked a with
  | (some left, some right) => .ok (left, right)
  | _ => .error .splitAtOutside

def maskWithChecked (r mask : AddrRange) :
    Except MMPanic (Option (Option AddrRange × AddrRange × Option AddrRange)) :=
  if mask.len = 0 ∨ ¬ r.overlapWith mask then .ok none
  else do
    let (left, mid) ←
      if r.start < mask.start ∧ mask.start < r.stop then do
        let (left, mid) ← r.splitAt mask.start
        pure (some left, mid)
      else pure (none, r)
    if mask.stop < r.stop then do
      let (mid, right) ← mid.splitAt mask.stop
      pure (some (left, mid, some right))
    else pure (some (left, mid, none))

def USER_SPACE_MEMORY_TOP : ℕ := 0x800000000000

/-- `VRangeExt::is_user`. -/
def isUser (r : AddrRange) : Bool :=
  !(r.stop > USER_SPACE_MEMORY_TOP || r.start ≥ USER_SPACE_MEMORY_TOP)

theorem new_eq {start stop : ℕ} (h : start ≤ stop) : new start stop = .ok ⟨start, stop, h⟩ :=
  dif_pos h

theorem isUser_iff (r : AddrRange) :
    r.isUser = true ↔ r.stop ≤ USER_SPACE_MEMORY_TOP ∧ r.start < USER_SPACE_MEMORY_TOP := by
  simp [isUser]

/-! ### The comparison and the position of ranges -/

def Before (r q : AddrRange) : Prop := r.stop ≤ q.start ∧ r.start < q.start

variable {r : AddrRange}

theorem Before.trans {q s : AddrRange} (hrq : Before r q) (hqs : Before q s) : Before r s := by
  have := q.le
  unfold Before at *
  omega

theorem separates_cmp : OrderedSet.Separates cmp Before where
  lt {r q} h := by
    have := q.le
    have := r.le
    unfold Before at h
    unfold cmp
    repeat' split
    all_goals first | rfl | omega
  gt {r q} h := by
    have := q.le
    have := r.le
    unfold Before at h
    unfold cmp
    repeat' split
    all_goals first | rfl | omega
  trans := Before.trans

variable {a : ℕ}

theorem cmp_point_eq_gt : cmp (point a) r = .gt ↔ r.start < a ∧ r.stop ≤ a := by
  have := r.le
  unfold cmp point
  dsimp only
  repeat' split
  all_goals simp only [reduceCtorEq, false_iff, true_iff]
  all_goals omega

theorem cmp_point_eq_lt : cmp (point a) r = .lt ↔ a < r.start := by
  have := r.le
  unfold cmp point
  dsimp only
  repeat' split
  all_goals simp only [reduceCtorEq, false_iff, true_iff]
  all_goals omega

theorem cmp_point_eq_eq : cmp (point a) r = .eq ↔ r.start = a ∨ r.start < a ∧ a < r.stop := by
  have := r.le
  unfold cmp point
  dsimp only
  repeat' split
  all_goals simp only [reduceCtorEq, false_iff, true_iff]
  all_goals omega

theorem cmp_point_right (r : AddrRange) (a : ℕ) : r.cmp (point a) = (cmp (point a) r).swap := by
  have := r.le
  unfold cmp point
  dsimp only
  repeat' split
  all_goals first | rfl | omega

theorem before_or_before_of_bounds {q : AddrRange}
    (h : cmp r.intoBounds.1 q = .gt ∨ cmp r.intoBounds.2 q = .lt) : Before q r ∨ Before r q := by
  have := r.le
  unfold intoBounds len at h
  unfold Before
  split at h <;> rw [cmp_point_eq_gt, cmp_point_eq_lt] at h <;> omega

/-! ### Parts of a range -/

/-- The range `x` is a part of `r`: it is contained in it, and it is empty only at the start
of `r`. -/
def Within (x r : AddrRange) : Prop :=
  r.start ≤ x.start ∧ x.stop ≤ r.stop ∧ (x.start < x.stop ∨ x.start = r.start)

theorem Within.refl (r : AddrRange) : Within r r := ⟨le_rfl, le_rfl, Or.inr rfl⟩

theorem Before.within_left {x q : AddrRange} (h : Before r q) (hx : Within x r) : Before x q := by
  unfold Before Within at *
  omega

theorem Before.within_right {x q : AddrRange} (h : Before q r) (hx : Within x r) : Before q x := by
  unfold Before Within at *
  omega

theorem splitAt_eq (h1 : r.start < a) (h2 : a < r.stop) :
    r.splitAt a = .ok (⟨r.start, a, h1.le⟩, ⟨a, r.stop, h2.le⟩) := by
  unfold splitAt splitAtChecked
  rw [dif_neg (by omega), dif_neg (by omega)]

/-- The parts of a range below, inside and above a mask. -/
structure Masked (r mask : AddrRange) (left : Option AddrRange) (mid : AddrRange)
    (right : Option AddrRange) : Prop where
  mask_lt : mask.start < mask.stop
  overlap : r.start < mask.stop ∧ mask.start < r.stop
  mid_start : mid.start = max r.start mask.start
  mid_stop : mid.stop = min r.stop mask.stop
  left : (left = none ∧ mask.start ≤ r.start) ∨
    ∃ l, left = some l ∧ r.start < mask.start ∧ l.start = r.start ∧ l.stop = mask.start
  right : (right = none ∧ r.stop ≤ mask.stop) ∨
    ∃ q, right = some q ∧ mask.stop < r.stop ∧ q.start = mask.stop ∧ q.stop = r.stop

/-- The mask does not touch the range: it is empty, or the range ends before it or starts after
it. -/
def Missed (r mask : AddrRange) : Prop :=
  mask.start = mask.stop ∨ mask.stop ≤ r.start ∨ r.stop ≤ mask.start

theorem Masked.left_le {mask mid : AddrRange} {right : Option AddrRange}
    (h : Masked r mask none mid right) : mask.start ≤ r.start := by
  obtain ⟨-, hle⟩ | ⟨l, hl, -⟩ := h.left
  · exact hle
  · cases hl

theorem Masked.left_lt {mask l mid : AddrRange} {right : Option AddrRange}
    (h : Masked r mask (some l) mid right) : r.start < mask.start ∧ l.stop = mask.start := by
  obtain ⟨hl, -⟩ | ⟨l', hl, hlt, -, hstop⟩ := h.left
  · cases hl
  · cases hl
    exact ⟨hlt, hstop⟩

theorem Masked.right_le {mask mid : AddrRange} {left : Option AddrRange}
    (h : Masked r mask left mid none) : r.stop ≤ mask.stop := by
  obtain ⟨-, hle⟩ | ⟨q, hq, -⟩ := h.right
  · exact hle
  · cases hq

theorem Masked.right_lt {mask mid q : AddrRange} {left : Option AddrRange}
    (h : Masked r mask left mid (some q)) : mask.stop < r.stop ∧ q.start = mask.stop := by
  obtain ⟨hq, -⟩ | ⟨q', hq, hlt, hstart, -⟩ := h.right
  · cases hq
  · cases hq
    exact ⟨hlt, hstart⟩

theorem maskWithChecked_spec (r mask : AddrRange) :
    (r.maskWithChecked mask = .ok none ∧ Missed r mask) ∨
      ∃ left mid right, r.maskWithChecked mask = .ok (some (left, mid, right)) ∧
        Masked r mask left mid right := by
  have hr := r.le
  have hm := mask.le
  unfold maskWithChecked overlapWith len
  by_cases hmiss : Missed r mask
  · left
    refine ⟨if_pos ?_, hmiss⟩
    unfold Missed at hmiss
    simp only [Bool.and_eq_true, decide_eq_true_eq]
    omega
  · right
    unfold Missed at hmiss
    rw [if_neg (by simp only [Bool.and_eq_true, decide_eq_true_eq]; omega)]
    by_cases hl : r.start < mask.start <;> by_cases hu : mask.stop < r.stop
    · refine ⟨some ⟨r.start, mask.start, hl.le⟩, ⟨mask.start, mask.stop, hm⟩,
        some ⟨mask.stop, r.stop, hu.le⟩, ?_, ?_⟩
      · rw [if_pos ⟨hl, by omega⟩, splitAt_eq hl (by omega)]
        simp only [bind, Except.bind, pure, Except.pure, if_pos hu]
        rw [splitAt_eq (by dsimp only; omega) (by dsimp only; omega)]
      · exact ⟨by omega, by omega, by dsimp only; omega, by dsimp only; omega,
          Or.inr ⟨_, rfl, hl, rfl, rfl⟩, Or.inr ⟨_, rfl, hu, rfl, rfl⟩⟩
    · refine ⟨some ⟨r.start, mask.start, hl.le⟩, ⟨mask.start, r.stop, by omega⟩, none, ?_, ?_⟩
      · rw [if_pos ⟨hl, by omega⟩, splitAt_eq hl (by omega)]
        simp only [bind, Except.bind, pure, Except.pure, if_neg hu]
      · exact ⟨by omega, by omega, by dsimp only; omega, by dsimp only; omega,
          Or.inr ⟨_, rfl, hl, rfl, rfl⟩, Or.inl ⟨rfl, by omega⟩⟩
    · refine ⟨none, ⟨r.start, mask.stop, by omega⟩, some ⟨mask.stop, r.stop, hu.le⟩, ?_, ?_⟩
      · rw [if_neg (by omega)]
        simp only [bind, Except.bind, pure, Except.pure, if_pos hu]
        rw [splitAt_eq (by omega) hu]
      · exact ⟨by omega, by omega, by dsimp only; omega, by dsimp only; omega,
          Or.inl ⟨rfl, by omega⟩, Or.inr ⟨_, rfl, hu, rfl, rfl⟩⟩
    · refine ⟨none, r, none, ?_, ?_⟩
      · rw [if_neg (by omega)]
        simp only [bind, Except.bind, pure, Except.pure, if_neg hu]
      · exact ⟨by omega, by omega, by omega, by omega, Or.inl ⟨rfl, by omega⟩,
          Or.inl ⟨rfl, by omega⟩⟩

end AddrRange

end Dlutos
