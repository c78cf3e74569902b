import Dlutos.AddressSpace.AreaOperations
import Dlutos.Foundation.Transition

/-!
# Concurrent calls on one address space

Threads that share an `MMList` call `mmap_hint`, `mmap_fixed`, `unmap` and `set_break`.  What a call
does while it has the lock is one step.  `mmap_hint` finds a free range in one step and maps it in
the next one; `set_break` moves the break in one step and maps the memory in the next one, and
panics if that fails.
-/

namespace Dlutos

open Addr AddrRange ExceptLoop Transition Function

/-- The arguments of a mapping besides its place. -/
structure MapArgs where
  len : ℕ
  mapping : Mapping
  permission : Permission
  isShared : Bool

inductive MMThread where
  | idle
  /-- In `mmap_hint`, about to look for a free range. -/
  | find (hint : ℕ) (args : MapArgs)
  /-- In `mmap_hint`, about to map the range that was found. -/
  | mapFound (addr : ℕ) (args : MapArgs)
  | hintDone (r : KResult ℕ)
  | mapBreak (currentBreak pos : ℕ)

def MMThread.AtRest : MMThread → Prop
  | .idle => True
  | .hintDone _ => True
  | _ => False

structure ConcurrentMM where
  locked : MMListLocked
  thread : ℕ → MMThread := fun _ => .idle
  /-- A mapping got addresses that an area had. -/
  overlapped : Bool := false

/-- What may happen next. -/
inductive MMOp where
  | mmapHint (t hint : ℕ) (args : MapArgs)
  /-- `find_available`, observed after at most `fuel` rounds of its loop. -/
  | find (t fuel : ℕ)
  /-- The second or third section of `mmap_hint`. -/
  | mapFound (t : ℕ)
  | mmapFixed (t addr : ℕ) (args : MapArgs)
  | unmap (t start len : ℕ)
  /-- `set_break`, up to the end of its first section. -/
  | setBreak (t : ℕ) (pos : Option ℕ)
  /-- The second section of `set_break`. -/
  | mapBreak (t : ℕ)

namespace ConcurrentMM

def goto (s : ConcurrentMM) (t : ℕ) (pc : MMThread) : ConcurrentMM :=
  { s with thread := update s.thread t pc }

def meets (s : ConcurrentMM) (addr len : ℕ) : Bool :=
  s.locked.areas.elems.any fun a => a.range.start < addr + len && addr < a.range.stop && 0 < len

/-- `MMListInner::mmap` -/
def map (s : ConcurrentMM) (addr : ℕ) (args : MapArgs) :
    Except MMPanic (KResult Unit × ConcurrentMM) :=
  match s.locked.mmap addr args.len args.mapping args.permission args.isShared with
  | .error p => .error p
  | .ok (.error e, locked) => .ok (.error e, { s with locked })
  | .ok (.ok (), locked) =>
    .ok (.ok (), { s with locked, overlapped := s.overlapped || s.meets addr args.len })

/-- What `mmap_hint` does after a mapping failed or not. -/
def afterHint (t hint : ℕ) (args : MapArgs) : KResult Unit × ConcurrentMM → ConcurrentMM
  | (.ok (), s) => s.goto t (.hintDone (.ok hint))
  | (.error .EEXIST, s) => s.goto t (.find hint args)
  | (.error e, s) => s.goto t (.hintDone (.error e))

def mmapHint (s : ConcurrentMM) (t hint : ℕ) (args : MapArgs) : Except MMPanic ConcurrentMM :=
  if hint = 0 then .ok (s.goto t (.find hint args))
  else (s.map hint args).map (afterHint t hint args)

def find (s : ConcurrentMM) (t fuel : ℕ) : ConcurrentMM :=
  match s.thread t with
  | .find hint args =>
    match s.locked.findAvailable fuel hint args.len with
    | none => s
    | some none => s.goto t (.hintDone (.error .ENOMEM))
    | some (some addr) => s.goto t (.mapFound addr args)
  | _ => s

/-- The end of `mmap_hint`. -/
def afterFound (t addr : ℕ) (r : KResult Unit × ConcurrentMM) : ConcurrentMM :=
  r.2.goto t (.hintDone (r.1.map fun _ => addr))

/-- The mapping of the range that was found. -/
def mapFound (s : ConcurrentMM) (t : ℕ) : Except MMPanic ConcurrentMM :=
  match s.thread t with
  | .mapFound addr args => (s.map addr args).map (afterFound t addr)
  | _ => .ok s

def setBreak (s : ConcurrentMM) (t : ℕ) (pos : Option ℕ) : Except MMPanic ConcurrentMM :=
  match s.locked.breakStart, s.locked.breakPos, pos with
  | some _, some currentBreak, some pos =>
    if h : currentBreak ≤ ceil pos then
      if s.locked.areas.checkOverlappingRange ⟨currentBreak, ceil pos, h⟩ then
        .ok ({ s with locked := { s.locked with breakPos := some (ceil pos) } }.goto t
          (.mapBreak currentBreak (ceil pos)))
      else .ok s
    else .ok s
  | some _, some _, none => .ok s
  | _, _, _ => .error .breakMissing

def breakArgs (currentBreak pos : ℕ) : MapArgs where
  len := pos - currentBreak
  mapping := .anonymous
  permission := ⟨true, true, false⟩
  isShared := false

/-- The `unwrap` in `set_break`. -/
def afterBreak (t : ℕ) : KResult Unit × ConcurrentMM → Except MMPanic ConcurrentMM
  | (.ok (), s) => .ok (s.goto t .idle)
  | (.error _, _) => .error .breakMapping

/-- The second section of `set_break`. -/
def mapBreak (s : ConcurrentMM) (t : ℕ) : Except MMPanic ConcurrentMM :=
  match s.thread t with
  | .mapBreak currentBreak pos =>
    (s.map currentBreak (breakArgs currentBreak pos)).bind (afterBreak t)
  | _ => .ok s

def run (s : ConcurrentMM) : MMOp → Except MMPanic ConcurrentMM
  | .mmapHint t hint args => s.mmapHint t hint args
  | .find t fuel => .ok (s.find t fuel)
  | .mapFound t => s.mapFound t
  | .mmapFixed _ addr args => (s.map addr args).map Prod.snd
  | .unmap _ start len => (s.locked.unmap start len).map fun r => { s with locked := r.2 }
  | .setBreak t pos => s.setBreak t pos
  | .mapBreak t => s.mapBreak t

/-- When the operations are possible, and with which arguments. -/
def Enabled (s : ConcurrentMM) : MMOp → Prop
  | .mmapHint t hint args => (s.thread t).AtRest ∧ IsPageAligned hint ∧ IsPageAligned args.len ∧
    (if hint = 0 then MMListLocked.randomStart else hint) + args.len < 2 ^ 64 ∧
    args.mapping.Covers args.len
  | .mmapFixed t addr args => (s.thread t).AtRest ∧ IsPageAligned addr ∧ IsPageAligned args.len ∧
    addr + args.len < 2 ^ 64 ∧ args.mapping.Covers args.len
  | .unmap t start len => (s.thread t).AtRest ∧ IsPageAligned start ∧ ceil (start + len) < 2 ^ 64
  | .setBreak t pos => (s.thread t).AtRest ∧ ∀ p ∈ pos, ceil p < 2 ^ 64
  | _ => True

/-- The range that a thread has found or reserved, but not mapped yet. -/
def pending : MMThread → Option (ℕ × ℕ)
  | .mapFound addr args => some (addr, addr + args.len)
  | .mapBreak currentBreak pos => some (currentBreak, pos)
  | _ => none

/-- The thread that maps something in the operation, and the place and the length of it. -/
def target (s : ConcurrentMM) : MMOp → Option (ℕ × ℕ × ℕ)
  | .mmapHint t hint args => if hint = 0 then none else some (t, hint, args.len)
  | .mapFound t =>
    match s.thread t with
    | .mapFound addr args => some (t, addr, args.len)
    | _ => none
  | .mmapFixed t addr args => some (t, addr, args.len)
  | .mapBreak t =>
    match s.thread t with
    | .mapBreak currentBreak pos => some (t, currentBreak, pos - currentBreak)
    | _ => none
  | _ => none

/-- One of the ranges from `lo` to `hi` and from `lo'` to `hi'` lies before the other one. -/
def Apart (lo hi lo' hi' : ℕ) : Prop := hi ≤ lo' ∧ lo < lo' ∨ hi' ≤ lo ∧ lo' < lo

structure Free (s : ConcurrentMM) (lo hi : ℕ) : Prop where
  stop_le : hi ≤ USER_SPACE_MEMORY_TOP
  start_lt : lo < USER_SPACE_MEMORY_TOP
  apart : ∀ a ∈ s.locked.areas.elems, Apart a.range.start a.range.stop lo hi

/-- Nothing is mapped in a range that another thread has found or reserved and not mapped yet. -/
def Undisturbed (s : ConcurrentMM) (op : MMOp) : Prop :=
  ∀ t addr len, s.target op = some (t, addr, len) → s.Free addr (addr + len) →
    ∀ u lo hi, u ≠ t → pending (s.thread u) = some (lo, hi) → Apart addr (addr + len) lo hi

/-! ### The invariant -/

def PcOk : MMThread → Prop
  | .idle => True
  | .find _ args => IsPageAligned args.len ∧ args.mapping.Covers args.len
  | .mapFound addr args =>
    IsPageAligned addr ∧ IsPageAligned args.len ∧ args.mapping.Covers args.len
  | .hintDone r => r ≠ .error .EEXIST
  | .mapBreak currentBreak pos =>
    IsPageAligned currentBreak ∧ IsPageAligned pos ∧ currentBreak ≤ pos

structure ConcurrentInv (s : ConcurrentMM) : Prop where
  locked : LockedInv s.locked
  registered : s.locked.breakStart.isSome ∧ s.locked.breakPos.isSome
  threads : ∀ t, PcOk (s.thread t)
  free : ∀ t lo hi, pending (s.thread t) = some (lo, hi) → s.Free lo hi
  overlapped : s.overlapped = false

variable {s : ConcurrentMM}

variable {lo hi : ℕ}

theorem Free.goto (h : s.Free lo hi) (t : ℕ) (pc : MMThread) :
    (s.goto t pc).Free lo hi := ⟨h.stop_le, h.start_lt, h.apart⟩

theorem ConcurrentInv.goto (h : s.ConcurrentInv) (t : ℕ) {pc : MMThread} (hpc : PcOk pc)
    (hfree : ∀ lo hi, pending pc = some (lo, hi) → s.Free lo hi) : (s.goto t pc).ConcurrentInv where
  locked := h.locked
  registered := h.registered
  threads u := by
    show PcOk (update s.thread t pc u)
    by_cases hu : u = t
    · rwa [hu, update_self]
    · rw [update_of_ne hu]
      exact h.threads u
  free u lo hi hpending := by
    have hpending : pending (update s.thread t pc u) = some (lo, hi) := hpending
    by_cases hu : u = t
    · rw [hu, update_self] at hpending
      exact (hfree lo hi hpending).goto t pc
    · rw [update_of_ne hu] at hpending
      exact (h.free u lo hi hpending).goto t pc
  overlapped := h.overlapped

theorem ConcurrentInv.withAreas (h : s.ConcurrentInv) {areas : Areas} (hareas : AreasInv areas)
    (hapart : ∀ t lo hi, pending (s.thread t) = some (lo, hi) → ∀ a ∈ areas.elems,
      Apart a.range.start a.range.stop lo hi) :
    { s with locked := { s.locked with areas := areas } }.ConcurrentInv where
  locked := ⟨hareas, h.locked.breakPos⟩
  registered := h.registered
  threads := h.threads
  free t lo hi hpending :=
    ⟨(h.free t lo hi hpending).stop_le, (h.free t lo hi hpending).start_lt,
      hapart t lo hi hpending⟩
  overlapped := h.overlapped

theorem Free.check (h : s.Free lo hi) (hle : lo ≤ hi) :
    s.locked.areas.checkOverlappingRange ⟨lo, hi, hle⟩ = true := by
  unfold Areas.checkOverlappingRange
  rw [Areas.overlappingRange_eq_nil h.apart, (isUser_iff _).mpr ⟨h.stop_le, h.start_lt⟩]
  rfl

theorem free_of_check {hle : lo ≤ hi}
    (h : s.locked.areas.checkOverlappingRange ⟨lo, hi, hle⟩ = true) : s.Free lo hi := by
  unfold Areas.checkOverlappingRange at h
  rw [Bool.and_eq_true, isUser_iff, List.isEmpty_iff] at h
  exact ⟨h.1.1, h.1.2, fun a ha => Areas.apart_of_overlappingRange h.2 ha⟩

variable {addr len : ℕ}

theorem Free.meets (h : s.Free addr (addr + len)) : s.meets addr len = false := by
  unfold ConcurrentMM.meets
  refine List.any_eq_false.mpr fun a ha => ?_
  have hapart := h.apart a ha
  unfold Apart at hapart
  simp only [Bool.and_eq_true, decide_eq_true_eq, not_and]
  omega

variable {args : MapArgs}

theorem map_spec (h : s.ConcurrentInv) (haddr : IsPageAligned addr)
    (hlen : IsPageAligned args.len) (hmapping : args.mapping.Covers args.len) :
    (s.map addr args = .ok (.error .EEXIST, s) ∧ ¬s.Free addr (addr + args.len)) ∨
      ∃ areas, s.map addr args = .ok (.ok (), { s with locked := { s.locked with areas } }) ∧
        AreasInv areas ∧ s.Free addr (addr + args.len) ∧ ∀ x ∈ areas.elems,
          x.range.start = addr ∧ x.range.stop = addr + args.len ∨ x ∈ s.locked.areas.elems := by
  obtain hrun | ⟨a, areas, hrun, hareas, rfl, hmem, hapart⟩ :=
    h.locked.areas.mmap args.permission args.isShared haddr hlen hmapping
  · refine Or.inl ⟨by simp only [map, hrun], fun hfree => ?_⟩
    obtain ⟨s', hmap⟩ := mmap_of_checkOverlappingRange (Nat.le_add_right addr args.len) haddr
      (haddr.add hlen) (hfree.check _) args.mapping args.permission args.isShared
    rw [Nat.add_sub_cancel_left, hrun] at hmap
    cases hmap
  · right
    have hok := hareas.ok _ ((hmem _).mpr (Or.inl rfl))
    have hfree : s.Free addr (addr + args.len) :=
      ⟨hok.stop_le, hok.start_lt, fun b hb => hapart b hb⟩
    refine ⟨areas, ?_, hareas, hfree, fun x hx => ?_⟩
    · simp only [map, hrun, hfree.meets, Bool.or_false]
    · rcases (hmem x).mp hx with rfl | hx
      · exact Or.inl ⟨rfl, rfl⟩
      · exact Or.inr hx

variable {t : ℕ}

theorem ConcurrentInv.mapped (h : s.ConcurrentInv) {areas : Areas} {pc : MMThread}
    (hareas : AreasInv areas) (hmem : ∀ x ∈ areas.elems,
      x.range.start = addr ∧ x.range.stop = addr + len ∨ x ∈ s.locked.areas.elems)
    (hpc : PcOk pc) (hnone : pending pc = none)
    (hc : ∀ u lo hi, u ≠ t → pending (s.thread u) = some (lo, hi) →
      Apart addr (addr + len) lo hi) :
    ({ s with locked := { s.locked with areas := areas } }.goto t pc).ConcurrentInv := by
  have hgoto := h.goto t hpc fun lo hi hpending => by
    rw [hnone] at hpending
    cases hpending
  refine hgoto.withAreas hareas fun u lo hi hpending x hx => ?_
  rcases hmem x hx with ⟨hstart, hstop⟩ | hx
  · have hu : u ≠ t := by
      rintro rfl
      have hpending : pending (update s.thread u pc u) = some (lo, hi) := hpending
      rw [update_self, hnone] at hpending
      cases hpending
    rw [hstart, hstop]
    refine hc u lo hi hu ?_
    rwa [← update_of_ne hu pc s.thread]
  · exact (hgoto.free u lo hi hpending).apart x hx

/-! ### The steps -/

theorem ConcurrentInv.mmapHint (h : s.ConcurrentInv) {hint : ℕ}
    (hhint : IsPageAligned hint) (hlen : IsPageAligned args.len)
    (hmapping : args.mapping.Covers args.len) (hc : s.Undisturbed (.mmapHint t hint args)) :
    ∃ s', s.mmapHint t hint args = .ok s' ∧ s'.ConcurrentInv := by
  have hfind : (s.goto t (.find hint args)).ConcurrentInv :=
    h.goto t ⟨hlen, hmapping⟩ fun _ _ hpending => nomatch hpending
  unfold ConcurrentMM.mmapHint
  split_ifs with hzero
  · exact ⟨_, rfl, hfind⟩
  · obtain ⟨hrun, -⟩ | ⟨areas, hrun, hareas, hfree, hmem⟩ := map_spec h hhint hlen hmapping
    · rw [hrun]
      exact ⟨_, rfl, hfind⟩
    · rw [hrun]
      refine ⟨_, rfl, h.mapped hareas hmem nofun rfl ?_⟩
      exact hc t hint args.len (if_neg hzero) hfree

theorem free_of_findAvailable {fuel hint : ℕ} (hlen : IsPageAligned len)
    (hfind : s.locked.findAvailable fuel hint len = some (some addr)) :
    s.Free addr (addr + len) := by
  unfold MMListLocked.findAvailable at hfind
  rw [show divCeil len PAGE_SIZE * PAGE_SIZE = len from ceil_eq_self hlen] at hfind
  exact free_of_check (check_of_findLoop rfl hfind)

section

variable (h : s.ConcurrentInv)
include h

theorem ConcurrentInv.find (t fuel : ℕ) : (s.find t fuel).ConcurrentInv := by
  unfold ConcurrentMM.find
  split
  · next hint args ht =>
    obtain ⟨hlen, hmapping⟩ : IsPageAligned args.len ∧ args.mapping.Covers args.len := by
      have hpc := h.threads t
      rwa [ht] at hpc
    split
    · exact h
    · exact h.goto t nofun fun _ _ hpending => nomatch hpending
    · next addr hfind =>
      refine h.goto t ⟨isPageAligned_of_findAvailable hfind, hlen, hmapping⟩ ?_
      rintro lo hi ⟨⟩
      exact free_of_findAvailable hlen hfind
  · exact h

theorem ConcurrentInv.mapFound (t : ℕ) (hc : s.Undisturbed (.mapFound t)) :
    ∃ s', s.mapFound t = .ok s' ∧ s'.ConcurrentInv := by
  unfold ConcurrentMM.mapFound
  split
  · next addr args ht =>
    obtain ⟨haddr, hlen, hmapping⟩ : IsPageAligned addr ∧ IsPageAligned args.len ∧
        args.mapping.Covers args.len := by
      have hpc := h.threads t
      rwa [ht] at hpc
    have hfound : s.Free addr (addr + args.len) := h.free t _ _ (by rw [ht]; rfl)
    obtain ⟨-, hnot⟩ | ⟨areas, hrun, hareas, -, hmem⟩ := map_spec h haddr hlen hmapping
    · exact absurd hfound hnot
    · rw [hrun]
      refine ⟨_, rfl, h.mapped hareas hmem nofun rfl ?_⟩
      exact hc t addr args.len (by simp only [target, ht]) hfound
  · exact ⟨s, rfl, h⟩

theorem ConcurrentInv.mmapFixed
    (ht : (s.thread t).AtRest) (haddr : IsPageAligned addr) (hlen : IsPageAligned args.len)
    (hmapping : args.mapping.Covers args.len) (hc : s.Undisturbed (.mmapFixed t addr args)) :
    ∃ s', (s.map addr args).map Prod.snd = .ok s' ∧ s'.ConcurrentInv := by
  obtain ⟨hrun, -⟩ | ⟨areas, hrun, hareas, hfree, hmem⟩ := map_spec h haddr hlen hmapping
  · rw [hrun]
    exact ⟨s, rfl, h⟩
  · rw [hrun]
    refine ⟨_, rfl, h.withAreas hareas fun u lo hi hpending x hx => ?_⟩
    rcases hmem x hx with ⟨hstart, hstop⟩ | hx
    · rw [hstart, hstop]
      refine hc t addr args.len rfl hfree u lo hi ?_ hpending
      rintro rfl
      cases hu : s.thread u <;> rw [hu] at ht hpending <;> first | exact ht | cases hpending
    · exact (h.free u lo hi hpending).apart x hx

theorem ConcurrentInv.unmap {start : ℕ} (len : ℕ) (hstart : IsPageAligned start) :
    ∃ s', ((s.locked.unmap start len).map fun r => { s with locked := r.2 }) = .ok s' ∧
      s'.ConcurrentInv := by
  obtain hrun | ⟨areas, taken, hrun, hareas, hunmapped⟩ := h.locked.areas.unmap len hstart
  · rw [hrun]
    exact ⟨s, rfl, h⟩
  · rw [hrun]
    refine ⟨_, rfl, h.withAreas hareas fun u lo hi hpending x hx => ?_⟩
    obtain ⟨a, ha, hpart, -⟩ := hunmapped.part x hx
    have hapart := (h.free u lo hi hpending).apart a ha
    have hwithin := hpart.within
    unfold Apart Within at *
    omega

theorem ConcurrentInv.setBreak (t : ℕ) (pos : Option ℕ) :
    ∃ s', s.setBreak t pos = .ok s' ∧ s'.ConcurrentInv := by
  obtain ⟨start, hbreak⟩ := Option.isSome_iff_exists.mp h.registered.1
  obtain ⟨currentBreak, hcurrent⟩ := Option.isSome_iff_exists.mp h.registered.2
  unfold ConcurrentMM.setBreak
  rw [hbreak, hcurrent]
  cases pos with
  | none => exact ⟨s, rfl, h⟩
  | some pos =>
    dsimp only
    split_ifs with hle hcheck
    · have hmoved : { s with
          locked := { s.locked with breakPos := some (ceil pos) } }.ConcurrentInv :=
        ⟨⟨h.locked.areas, fun p hp => by cases hp; exact isPageAligned_ceil pos⟩,
          ⟨h.registered.1, rfl⟩, h.threads,
          fun u lo hi hu => ⟨(h.free u lo hi hu).stop_le, (h.free u lo hi hu).start_lt,
            (h.free u lo hi hu).apart⟩, h.overlapped⟩
      have haligned := h.locked.breakPos currentBreak hcurrent
      refine ⟨_, rfl, hmoved.goto t ⟨haligned, isPageAligned_ceil pos, hle⟩ ?_⟩
      rintro lo hi ⟨⟩
      exact free_of_check hcheck
    · exact ⟨s, rfl, h⟩
    · exact ⟨s, rfl, h⟩

theorem ConcurrentInv.mapBreak (t : ℕ) (hc : s.Undisturbed (.mapBreak t)) :
    ∃ s', s.mapBreak t = .ok s' ∧ s'.ConcurrentInv := by
  unfold ConcurrentMM.mapBreak
  split
  · next currentBreak pos ht =>
    obtain ⟨hcurrent, hpos, hle⟩ : IsPageAligned currentBreak ∧ IsPageAligned pos ∧
        currentBreak ≤ pos := by
      have hpc := h.threads t
      rwa [ht] at hpc
    have hreserved : s.Free currentBreak (currentBreak + (pos - currentBreak)) := by
      rw [Nat.add_sub_cancel' hle]
      exact h.free t _ _ (by rw [ht]; rfl)
    have hlen : IsPageAligned (breakArgs currentBreak pos).len := hpos.sub hcurrent
    obtain ⟨-, hnot⟩ | ⟨areas, hrun, hareas, -, hmem⟩ := map_spec h hcurrent hlen trivial
    · exact absurd hreserved hnot
    · rw [hrun]
      refine ⟨_, rfl, h.mapped hareas hmem trivial rfl ?_⟩
      exact hc t currentBreak (pos - currentBreak) (by simp only [target, ht]) hreserved
  · exact ⟨s, rfl, h⟩

theorem ConcurrentInv.run (op : MMOp) (he : s.Enabled op)
    (hc : s.Undisturbed op) : ∃ s', s.run op = .ok s' ∧ s'.ConcurrentInv := by
  cases op with
  | mmapHint t hint args =>
    obtain ⟨-, hhint, hlen, -, hmapping⟩ := he
    exact h.mmapHint hhint hlen hmapping hc
  | find t fuel => exact ⟨_, rfl, h.find t fuel⟩
  | mapFound t => exact h.mapFound t hc
  | mmapFixed t addr args =>
    obtain ⟨ht, haddr, hlen, -, hmapping⟩ := he
    exact h.mmapFixed ht haddr hlen hmapping hc
  | unmap t start len => exact h.unmap len he.2.1
  | setBreak t pos => exact h.setBreak t pos
  | mapBreak t => exact h.mapBreak t hc

end

end ConcurrentMM

open ConcurrentMM

def concurrentMM (cond : ConcurrentMM → MMOp → Prop) : System ConcurrentMM MMOp MMPanic where
  init s := LockedInv s.locked ∧ (s.locked.breakStart.isSome ∧ s.locked.breakPos.isSome) ∧
    (∀ t, s.thread t = .idle) ∧ s.overlapped = false
  allowed s op := s.Enabled op ∧ cond s op
  run s op := s.run op

theorem concurrentInv_of_init {cond : ConcurrentMM → MMOp → Prop} {s : ConcurrentMM}
    (h : (concurrentMM cond).init s) : s.ConcurrentInv := by
  obtain ⟨hlocked, hbreak, hidle, hoverlapped⟩ := h
  refine ⟨hlocked, hbreak, fun t => ?_, fun t lo hi hpending => ?_, hoverlapped⟩
  · rw [hidle t]
    trivial
  · rw [hidle t] at hpending
    cases hpending

/-- While all steps meet the condition, no `mmap_hint` fails with `EEXIST`, no addresses are mapped
twice, and no call panics. -/
theorem concurrentCalls_of_reachable {s : ConcurrentMM}
    (hs : (concurrentMM Undisturbed).Reachable s) :
    (∀ t, s.thread t ≠ .hintDone (.error .EEXIST)) ∧ s.overlapped = false ∧
      ∀ op, (concurrentMM Undisturbed).allowed s op → ∃ s', s.run op = .ok s' := by
  obtain ⟨hi, hsafe⟩ := System.Reachable.safe (M := concurrentMM Undisturbed) (P := ConcurrentInv)
    (fun _ => concurrentInv_of_init) (fun _ op hi h => hi.run op h.1 h.2) hs
  refine ⟨fun t ht => ?_, hi.overlapped, hsafe⟩
  have hpc := hi.threads t
  rw [ht] at hpc
  exact hpc rfl

def freshMM : ConcurrentMM where
  locked := { breakStart := some (point 0x10000), breakPos := some 0x10000 }

theorem freshMM_init (cond : ConcurrentMM → MMOp → Prop) :
    (concurrentMM cond).Reachable freshMM :=
  .of_init ⟨⟨AreasInv.empty, fun _ hp => by cases hp; rfl⟩, ⟨rfl, rfl⟩,
    fun _ => rfl, rfl⟩

def anonymousPage : MapArgs where
  len := 0x1000
  mapping := .anonymous
  permission := ⟨true, true, false⟩
  isShared := false

theorem concurrentCalls_elsewhere : ∃ s : ConcurrentMM,
    (s.locked.areas.elems.map fun a => (a.range.start, a.range.stop)) =
        [(0x20000, 0x21000), (0x1234000, 0x1235000)] ∧
      (∀ t, s.thread t ≠ .hintDone (.error .EEXIST)) ∧ s.overlapped = false := by
  have h0 := freshMM_init Undisturbed
  have h4 := h0.after [.mmapHint 0 0 anonymousPage, .find 0 1, .mmapFixed 1 0x20000 anonymousPage,
    .mapFound 0]
    ⟨⟨⟨trivial, rfl, rfl, by decide, trivial⟩, nofun⟩, ⟨trivial, nofun⟩,
     ⟨⟨trivial, rfl, rfl, by decide, trivial⟩, ?_⟩, ⟨trivial, ?_⟩, trivial⟩
  have h5 := concurrentCalls_of_reachable h4
  · exact ⟨_, rfl, h5.1, h5.2.1⟩
  · rintro _ _ _ ⟨⟩ - u lo hi hu hpending
    match u with
    | 0 =>
      cases hpending
      exact Or.inl ⟨by decide, by decide⟩
    | 1 => cases hpending
    | _ + 2 => cases hpending
  · rintro _ _ _ ⟨⟩ - u lo hi hu hpending
    match u with
    | 0 => exact absurd rfl hu
    | _ + 1 => cases hpending

/-- A thread maps what another one has found or reserved: `mmap_hint` fails with `EEXIST`, and
`set_break` panics. -/
theorem concurrentCalls_violated :
    (∃ s : ConcurrentMM, (concurrentMM fun _ _ => True).Reachable s ∧
      s.thread 0 = .hintDone (.error .EEXIST)) ∧
    ∃ s : ConcurrentMM, (concurrentMM fun _ _ => True).Reachable s ∧
      s.run (.mapBreak 0) = .error .breakMapping := by
  have h0 := freshMM_init fun _ _ => True
  have h4 := h0.after [.mmapHint 0 0 anonymousPage, .find 0 1, .mmapFixed 1 0x1234000 anonymousPage,
    .mapFound 0]
    ⟨⟨⟨trivial, rfl, rfl, by decide, trivial⟩, trivial⟩, ⟨trivial, trivial⟩,
     ⟨⟨trivial, rfl, rfl, by decide, trivial⟩, trivial⟩, ⟨trivial, trivial⟩, trivial⟩
  have k2 := h0.after [.setBreak 0 (some 0x11000), .mmapFixed 1 0x10000 anonymousPage]
    ⟨⟨⟨trivial, by decide⟩, trivial⟩, ⟨⟨trivial, rfl, rfl, by decide, trivial⟩, trivial⟩, trivial⟩
  exact ⟨⟨_, h4, rfl⟩, _, k2, rfl⟩

end Dlutos
