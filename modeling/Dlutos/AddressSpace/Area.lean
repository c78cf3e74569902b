import Dlutos.Address.AddrRange
import Dlutos.Foundation.ExceptLoop

/-!
# Memory areas

`kernel/mem/mm_area.rs` and `kernel/mem/mm_list/mapping.rs`: an area is a range of user addresses
with a permission and a mapping.  `AreaOk` is what the kernel needs of it: page-aligned bounds in
user space, and a file mapping that reaches into its last page, so that every cut falls inside of
the mapped part of the file.  `IsPart` relates an area to one it was cut from.
-/

namespace Dlutos

open Addr AddrRange ExceptLoop

structure Permission where
  read : Bool
  write : Bool
  execute : Bool
  deriving DecidableEq

structure FileMapping where
  file : ℕ
  offset : ℕ
  length : ℕ
  aligned : IsPageAligned offset
  deriving DecidableEq

namespace FileMapping

def new (file offset length : ℕ) : Except MMPanic FileMapping :=
  if h : IsPageAligned offset then .ok ⟨file, offset, length, h⟩ else .error .mappingUnaligned

def skip (m : FileMapping) (offset : ℕ) : Except MMPanic FileMapping :=
  if m.length ≤ offset then new m.file (m.offset + m.length) 0
  else new m.file (m.offset + offset) (m.length - offset)

end FileMapping

inductive Mapping where
  | anonymous
  | file (m : FileMapping)
  deriving DecidableEq

namespace Mapping

/-- The mapping without its first bytes, as `MMArea::split` computes it. -/
def skip (m : Mapping) (diff : ℕ) : Except MMPanic Mapping :=
  match m with
  | .anonymous => .ok .anonymous
  | .file m => do
    let m ← m.skip diff
    pure (.file m)

/-- The mapped part of a file reaches into the last page of an area of `len` bytes. -/
def Covers : Mapping → ℕ → Prop
  | .anonymous, _ => True
  | .file m, len => len < m.length + PAGE_SIZE

instance (m : Mapping) (len : ℕ) : Decidable (m.Covers len) :=
  match m with
  | .anonymous => inferInstanceAs (Decidable True)
  | .file _ => inferInstanceAs (Decidable (_ < _))

/-- The second mapping is the first one without its first `diff` bytes. -/
def Skips : Mapping → Mapping → ℕ → Prop
  | .anonymous, .anonymous, _ => True
  | .file m, .file m', diff =>
    m'.file = m.file ∧ m'.offset = m.offset + diff ∧ m'.length + diff = m.length
  | _, _, _ => False

theorem Skips.refl (m : Mapping) : Skips m m 0 := by
  cases m with
  | anonymous => exact trivial
  | file m => exact ⟨rfl, rfl, rfl⟩

theorem Skips.trans {m m' m'' : Mapping} {d d' : ℕ} (h : Skips m m' d) (h' : Skips m' m'' d') :
    Skips m m'' (d + d') := by
  cases m <;> cases m' <;> cases m'' <;> simp only [Skips] at *
  omega

theorem skip_spec {m : Mapping} {len diff : ℕ} (hm : m.Covers len) (hlen : IsPageAligned len)
    (hdiff : IsPageAligned diff) (hlt : diff < len) :
    ∃ m', m.skip diff = .ok m' ∧ Skips m m' diff ∧ m'.Covers (len - diff) := by
  cases m with
  | anonymous => exact ⟨.anonymous, rfl, trivial, trivial⟩
  | file m =>
    have hinside : diff < m.length := by
      unfold Covers at hm
      unfold IsPageAligned PAGE_SIZE at *
      omega
    have haligned := m.aligned.add hdiff
    refine ⟨.file ⟨m.file, m.offset + diff, m.length - diff, haligned⟩, ?_, ?_, ?_⟩
    · unfold skip FileMapping.skip FileMapping.new
      dsimp only
      rw [if_neg (by omega), dif_pos haligned]
      rfl
    · exact ⟨rfl, rfl, Nat.sub_add_cancel hinside.le⟩
    · unfold Covers at hm ⊢
      dsimp only
      omega

end Mapping

structure MMArea where
  range : AddrRange
  mapping : Mapping
  permission : Permission
  isShared : Bool
  deriving DecidableEq

namespace MMArea

def split (a : MMArea) (cut : ℕ) : Except MMPanic (Option MMArea × Option MMArea) := do
  assertOr (IsPageAligned cut) .splitUnaligned
  match a.range.cmp (point cut) with
  | .lt => pure (some a, none)
  | .gt => pure (none, some a)
  | .eq =>
    let diff := cut - a.range.start
    if diff = 0 then pure (none, some a)
    else do
      let range ← AddrRange.new cut a.range.stop
      let mapping ← a.mapping.skip diff
      let newRange ← a.range.shrink (a.range.stop - cut)
      pure (some { a with range := newRange }, some { a with range := range, mapping := mapping })

end MMArea

structure AreaOk (a : MMArea) : Prop where
  start_aligned : IsPageAligned a.range.start
  stop_aligned : IsPageAligned a.range.stop
  start_lt : a.range.start < USER_SPACE_MEMORY_TOP
  stop_le : a.range.stop ≤ USER_SPACE_MEMORY_TOP
  covers : a.mapping.Covers a.range.len

/-- The area `x` was cut from the area `a`: it maps the same bytes at the same addresses. -/
structure IsPart (x a : MMArea) : Prop where
  ok : AreaOk x
  within : Within x.range a.range
  mapping : a.mapping.Skips x.mapping (x.range.start - a.range.start)
  shared : x.isShared = a.isShared

theorem IsPart.refl {a : MMArea} (ha : AreaOk a) : IsPart a a :=
  ⟨ha, Within.refl _, by rw [Nat.sub_self]; exact Mapping.Skips.refl _, rfl⟩

theorem IsPart.withPermission {x a : MMArea} (h : IsPart x a) (p : Permission) :
    IsPart { x with permission := p } a :=
  ⟨⟨h.ok.start_aligned, h.ok.stop_aligned, h.ok.start_lt, h.ok.stop_le, h.ok.covers⟩, h.within,
    h.mapping, h.shared⟩

theorem IsPart.trans {x y a : MMArea} (hxy : IsPart x y) (hya : IsPart y a)
    (hx : x.range.start < x.range.stop) : IsPart x a := by
  refine ⟨hxy.ok, ?_, ?_, hxy.shared.trans hya.shared⟩
  · have h1 := hxy.within
    have h2 := hya.within
    unfold Within at *
    omega
  · have h := hya.mapping.trans hxy.mapping
    have h1 := hxy.within.1
    have h2 := hya.within.1
    rwa [show y.range.start - a.range.start + (x.range.start - y.range.start) =
      x.range.start - a.range.start by omega] at h

theorem AreaOk.split {a : MMArea} (ha : AreaOk a) {cut : ℕ} (hcut : IsPageAligned cut)
    (hlo : a.range.start < cut) (hhi : cut < a.range.stop) :
    ∃ l r, a.split cut = .ok (some l, some r) ∧ IsPart l a ∧ IsPart r a := by
  have hlen : IsPageAligned a.range.len := ha.stop_aligned.sub ha.start_aligned
  obtain ⟨m, hm, hskips, hcovers⟩ := Mapping.skip_spec ha.covers hlen
    (hcut.sub ha.start_aligned) (by unfold AddrRange.len; omega)
  have hcmp : a.range.cmp (point cut) = .eq := by
    rw [cmp_point_right, cmp_point_eq_eq.mpr (Or.inr ⟨hlo, hhi⟩)]
    rfl
  have hleft : a.range.shrink (a.range.stop - cut) = .ok ⟨a.range.start, cut, hlo.le⟩ := by
    unfold AddrRange.shrink AddrRange.len
    rw [if_pos (by omega), new_eq (by omega)]
    simp only [Except.ok.injEq, AddrRange.mk.injEq, true_and]
    omega
  refine ⟨{ a with range := ⟨a.range.start, cut, hlo.le⟩ },
    { a with range := ⟨cut, a.range.stop, hhi.le⟩, mapping := m }, ?_, ?_, ?_⟩
  · unfold MMArea.split
    rw [assertOr_true _ hcut, hcmp]
    simp only [ok_bind, if_neg (show ¬ cut - a.range.start = 0 by omega), new_eq hhi.le, hm, hleft]
    rfl
  · refine ⟨⟨ha.start_aligned, hcut, ha.start_lt, hhi.le.trans ha.stop_le, ?_⟩,
      ⟨le_rfl, hhi.le, Or.inl hlo⟩, ?_, rfl⟩
    · have hcov := ha.covers
      revert hcov
      cases a.mapping with
      | anonymous => exact id
      | file m =>
        unfold Mapping.Covers AddrRange.len
        dsimp only
        omega
    · dsimp only
      rw [Nat.sub_self]
      exact Mapping.Skips.refl _
  · refine ⟨⟨hcut, ha.stop_aligned, hhi.trans_le ha.stop_le, ha.stop_le, ?_⟩,
      ⟨hlo.le, le_rfl, Or.inl hhi⟩, hskips, rfl⟩
    unfold AddrRange.len at hcovers ⊢
    dsimp only
    rwa [show a.range.stop - a.range.start - (cut - a.range.start) = a.range.stop - cut by omega]
      at hcovers

end Dlutos
