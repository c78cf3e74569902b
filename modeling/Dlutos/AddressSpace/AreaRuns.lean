import Dlutos.AddressSpace.AreaOperations
import Dlutos.Foundation.Transition

/-!
# Runs on the areas of address spaces

A family of address spaces whose areas are changed by any sequence of calls, made with the arguments
that the system calls and the ELF loader pass: page-aligned, without overflow of the address space,
and with file mappings that reach into the last page of their area.
-/

namespace Dlutos

open Addr AddrRange Transition

namespace AreaRuns

/-- The calls on a family of address spaces; the first argument says which one is meant. -/
inductive Op where
  | new
  | newCloned (i : ℕ)
  | mmapFixed (i addr len : ℕ) (mapping : Mapping) (permission : Permission) (isShared : Bool)
  /-- `mmap_hint`, observed after at most `fuel` iterations of its search. -/
  | mmapHint (i fuel hint len : ℕ) (mapping : Mapping) (permission : Permission) (isShared : Bool)
  | unmap (i start len : ℕ)
  | protect (i start len : ℕ) (permission : Permission)
  | setBreak (i : ℕ) (pos : Option ℕ)
  | registerBreak (i start : ℕ)

/-- The arguments with which the calls are made. -/
def Allowed (s : List MMListLocked) : Op → Prop
  | .new => True
  | .newCloned _ => True
  | .mmapFixed _ addr len mapping _ _ =>
    IsPageAligned addr ∧ IsPageAligned len ∧ addr + len < 2 ^ 64 ∧ mapping.Covers len
  | .mmapHint _ _ hint len mapping _ _ =>
    IsPageAligned hint ∧ IsPageAligned len ∧
      (if hint = 0 then MMListLocked.randomStart else hint) + len < 2 ^ 64 ∧ mapping.Covers len
  | .unmap _ start len => IsPageAligned start ∧ ceil (start + len) < 2 ^ 64
  | .protect _ start len _ => IsPageAligned start ∧ len ≠ 0 ∧ ceil (start + len) < 2 ^ 64
  | .setBreak i pos => (∀ l ∈ s[i]?, l.breakStart.isSome ∧ l.breakPos.isSome) ∧
    ∀ p ∈ pos, ceil p < 2 ^ 64
  | .registerBreak i start => (∀ l ∈ s[i]?, l.breakStart = none ∧ l.breakPos = none) ∧
    IsPageAligned start

def onList (s : List MMListLocked) (i : ℕ) (f : MMListLocked → Except MMPanic MMListLocked) :
    Except MMPanic (List MMListLocked) :=
  match s[i]? with
  | none => .ok s
  | some l => do
    let l ← f l
    pure (s.set i l)

def run (s : List MMListLocked) : Op → Except MMPanic (List MMListLocked)
  | .new => .ok (s ++ [{}])
  | .newCloned i => .ok (s ++ s[i]?.toList)
  | .mmapFixed i addr len mapping permission isShared => onList s i fun l => do
    let r ← l.mmap addr len mapping permission isShared
    pure r.2
  | .mmapHint i fuel hint len mapping permission isShared => onList s i fun l => do
    match ← l.mmapHint fuel hint len mapping permission isShared with
    | none => pure l
    | some r => pure r.2
  | .unmap i start len => onList s i fun l => do
    let r ← l.unmap start len
    pure r.2
  | .protect i start len permission => onList s i fun l => do
    let r ← l.protect start len permission
    pure r.2.2
  | .setBreak i pos => onList s i fun l => do
    let r ← l.setBreak pos
    pure r.2
  | .registerBreak i start => onList s i fun l => l.registerBreak start

def system : System (List MMListLocked) Op MMPanic where
  init s := s = []
  allowed := Allowed
  run := run

/-- The areas of an address space are well placed and well ordered. -/
structure AreasSound (l : MMListLocked) : Prop where
  bounds : ∀ a ∈ l.areas.elems, IsPageAligned a.range.start ∧ IsPageAligned a.range.stop ∧
    a.range.start < USER_SPACE_MEMORY_TOP ∧ a.range.stop ≤ USER_SPACE_MEMORY_TOP
  disjoint : l.areas.elems.Pairwise fun a b => ∀ addr,
    ¬ (a.range.Contains addr ∧ b.range.Contains addr)
  /-- The comparison orders the areas strictly, as they are listed. -/
  ordered : l.areas.elems.Pairwise fun a b =>
    a.range.cmp b.range = .lt ∧ b.range.cmp a.range = .gt
  kept : l.areas.lost = false

theorem areasSound {l : MMListLocked} (h : LockedInv l) : AreasSound l where
  bounds a ha := by
    have hok := h.areas.ok a ha
    exact ⟨hok.start_aligned, hok.stop_aligned, hok.start_lt, hok.stop_le⟩
  disjoint := by
    refine h.areas.sorted.imp ?_
    intro a b hab addr
    unfold MMArea.Before AddrRange.Before at hab
    unfold AddrRange.Contains
    omega
  ordered := h.areas.sorted.imp fun hab => ⟨separates_area.lt hab, separates_area.gt hab⟩
  kept := h.areas.kept

theorem onList_spec {s : List MMListLocked} (hs : ∀ l ∈ s, LockedInv l) {i : ℕ}
    {f : MMListLocked → Except MMPanic MMListLocked}
    (hf : ∀ l ∈ s[i]?, LockedInv l → ∃ l', f l = .ok l' ∧ LockedInv l') :
    ∃ t, onList s i f = .ok t ∧ ∀ l ∈ t, LockedInv l := by
  unfold onList
  cases hi : s[i]? with
  | none => exact ⟨s, rfl, hs⟩
  | some l =>
    obtain ⟨l', hrun, hl'⟩ := hf l hi (hs l (List.mem_of_getElem? hi))
    refine ⟨s.set i l', by simp only [hrun]; rfl, ?_⟩
    intro x hx
    rcases List.mem_or_eq_of_mem_set hx with hx | rfl
    · exact hs x hx
    · exact hl'

theorem inv_step (s : List MMListLocked) (op : Op) (hs : ∀ l ∈ s, LockedInv l)
    (hop : Allowed s op) : ∃ t, run s op = .ok t ∧ ∀ l ∈ t, LockedInv l := by
  cases op with
  | new =>
    refine ⟨_, rfl, fun l hl => ?_⟩
    rcases List.mem_append.mp hl with hl | hl
    · exact hs l hl
    · rw [List.mem_singleton.mp hl]
      exact LockedInv.empty
  | newCloned i =>
    refine ⟨_, rfl, fun l hl => ?_⟩
    rcases List.mem_append.mp hl with hl | hl
    · exact hs l hl
    · exact hs l (List.mem_of_getElem? (Option.mem_toList.mp hl))
  | mmapFixed i addr len mapping permission isShared =>
    obtain ⟨haddr, hlen, -, hmapping⟩ := hop
    refine onList_spec hs fun l _ hl => ?_
    obtain ⟨r, hrun, hr⟩ := hl.mmap permission isShared haddr hlen hmapping
    exact ⟨r.2, by simp only [hrun]; rfl, hr⟩
  | mmapHint i fuel hint len mapping permission isShared =>
    obtain ⟨hhint, hlen, -, hmapping⟩ := hop
    refine onList_spec hs fun l _ hl => ?_
    obtain ⟨r, hrun, hr⟩ := hl.mmapHint fuel permission isShared hhint hlen hmapping
    cases r with
    | none => exact ⟨l, by simp only [hrun]; rfl, hl⟩
    | some r => exact ⟨r.2, by simp only [hrun]; rfl, hr r rfl⟩
  | unmap i start len =>
    refine onList_spec hs fun l _ hl => ?_
    obtain ⟨r, hrun, hr⟩ := hl.unmap len hop.1
    exact ⟨r.2, by simp only [hrun]; rfl, hr⟩
  | protect i start len permission =>
    refine onList_spec hs fun l _ hl => ?_
    obtain ⟨r, hrun, hr⟩ := hl.protect permission hop.1 hop.2.1
    exact ⟨r.2.2, by simp only [hrun]; rfl, hr⟩
  | setBreak i pos =>
    refine onList_spec hs fun l hi hl => ?_
    obtain ⟨r, hrun, hr⟩ := hl.setBreak pos (hop.1 l hi)
    exact ⟨r.2, by simp only [hrun]; rfl, hr⟩
  | registerBreak i start =>
    exact onList_spec hs fun l hi hl => hl.registerBreak hop.2 (hop.1 l hi)

/-- In every run the areas are page-aligned, in user space, disjoint and strictly ordered, every
insertion added its area, and no assertion or unreachable arm fires. -/
theorem areasSound_of_reachable (s : List MMListLocked) (hs : system.Reachable s) :
    (∀ l ∈ s, AreasSound l) ∧ ∀ op, Allowed s op → ∃ t, run s op = .ok t := by
  obtain ⟨hinv, hsafe⟩ := System.Reachable.safe (M := system) (P := fun s => ∀ l ∈ s, LockedInv l)
    (fun s hinit l hl => by rw [show s = [] from hinit] at hl; cases hl) inv_step hs
  exact ⟨fun l hl => areasSound (hinv l hl), hsafe⟩

/-- The middle one of three pages is unmapped; a marker is set behind them with the break. -/
theorem areasSound_after_cuts :
    ∃ s, system.Reachable s ∧
      (s.map fun l => l.areas.elems.map fun a => (a.range.start, a.range.stop)) =
        [[(0x10000, 0x11000), (0x12000, 0x13000), (0x20000, 0x20000)]] ∧
      (∀ l ∈ s, AreasSound l) ∧ ∀ op, Allowed s op → ∃ t, run s op = .ok t := by
  have h0 : system.Reachable [] := .of_init rfl
  have h6 := h0.after [.new,
    .mmapFixed 0 0x10000 0x3000 (.file ⟨7, 0, 0x2fff, rfl⟩) ⟨true, false, false⟩ false,
    .protect 0 0x11000 0x1000 ⟨true, true, false⟩, .unmap 0 0x11000 0x1000,
    .registerBreak 0 0x20000, .setBreak 0 (some 0x20000)]
    ⟨trivial, ⟨by decide, by decide, by decide, by decide⟩, ⟨by decide, by decide, by decide⟩,
     ⟨by decide, by decide⟩, ⟨by decide, by decide⟩, ⟨by decide, by decide⟩, trivial⟩
  exact ⟨_, h6, rfl, areasSound_of_reachable _ h6⟩

end AreaRuns

end Dlutos
