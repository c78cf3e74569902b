import Dlutos.AddressSpace.MemoryCalls

/-!
# Runs without empty mappings

`brk` with the current break and `shmat` of an empty segment map an empty range.  The area that is
inserted, a marker, contains no address, but the comparison of ranges finds it at its start: the
search for a free range and the accesses of the kernel run forever there, and `brk` takes it for an
occupied range.
-/

namespace Dlutos

open Addr AddrRange ExceptLoop MMListLocked Transition World MappedFiles

/-! ### `set_break` -/

section SetBreak

variable {l l' : MMListLocked}

theorem setBreak_cases {pos : Option ℕ} {r : ℕ} (h : l.setBreak pos = .ok (r, l')) :
    ∃ current, l.breakPos = some current ∧ ((r = current ∧ l' = l) ∨
      ∃ p, pos = some p ∧ current ≤ ceil p ∧ r = ceil p ∧
        ∃ result, MMListLocked.mmap { l with breakPos := some (ceil p) } current (ceil p - current)
          .anonymous ⟨true, true, false⟩ false = .ok (result, l')) := by
  unfold MMListLocked.setBreak at h
  obtain ⟨-, -, h⟩ := bind_eq_ok.mp h
  cases hbreak : l.breakPos with
  | none =>
    rw [hbreak] at h
    cases h
  | some current =>
    rw [hbreak] at h
    refine ⟨current, rfl, ?_⟩
    cases pos with
    | none =>
      cases h
      exact Or.inl ⟨rfl, rfl⟩
    | some p =>
      dsimp only at h
      split at h
      · cases h
        exact Or.inl ⟨rfl, rfl⟩
      · rename_i hle
        rw [new_eq (not_lt.mp hle), ok_bind] at h
        split at h
        · cases h
          exact Or.inl ⟨rfl, rfl⟩
        · obtain ⟨⟨result, l1⟩, hmmap, h⟩ := bind_eq_ok.mp h
          cases result with
          | error err => cases h
          | ok _ =>
            cases h
            exact Or.inr ⟨p, rfl, not_lt.mp hle, rfl, _, hmmap⟩

variable {current : ℕ} (hbreak : l.breakPos = some current) (hstart : l.breakStart.isSome)

include hbreak hstart

theorem setBreak_below {p : ℕ} (hp : ceil p < current) :
    l.setBreak (some p) = .ok (current, l) := by
  unfold MMListLocked.setBreak
  rw [assertOr_true _ ⟨hstart, by rw [hbreak]; rfl⟩, hbreak]
  simp only [ok_bind, gt_iff_lt, if_pos hp]
  rfl

theorem setBreak_occupied {p : ℕ} (hp : current ≤ ceil p)
    (hcheck : l.areas.checkOverlappingRange ⟨current, ceil p, hp⟩ = false) :
    l.setBreak (some p) = .ok (current, l) := by
  unfold MMListLocked.setBreak
  rw [assertOr_true _ ⟨hstart, by rw [hbreak]; rfl⟩, hbreak]
  simp only [ok_bind, gt_iff_lt, if_neg (not_lt.mpr hp), new_eq hp, hcheck, Bool.not_false, if_true]
  rfl

theorem setBreak_free (haligned : IsPageAligned current) {p : ℕ} (hp : current ≤ ceil p)
    (hcheck : l.areas.checkOverlappingRange ⟨current, ceil p, hp⟩ = true) :
    ∃ l', l.setBreak (some p) = .ok (ceil p, l') ∧ l'.breakPos = some (ceil p) ∧
      ∀ a, a ∈ l'.areas.elems ↔
        a = ⟨⟨current, ceil p, hp⟩, .anonymous, ⟨true, true, false⟩, false⟩ ∨
          a ∈ l.areas.elems := by
  obtain ⟨l', hmmap⟩ := mmap_of_checkOverlappingRange (s := { l with breakPos := some (ceil p) }) hp
    haligned (isPageAligned_ceil p) hcheck .anonymous ⟨true, true, false⟩ false
  refine ⟨l', ?_, ?_⟩
  · unfold MMListLocked.setBreak
    rw [assertOr_true _ ⟨hstart, by rw [hbreak]; rfl⟩, hbreak]
    simp only [ok_bind, gt_iff_lt, if_neg (not_lt.mpr hp), new_eq hp, hcheck, Bool.not_true,
      Bool.false_eq_true, if_false, hmmap]
    rfl
  · obtain ⟨hresult, -⟩ | ⟨-, rfl⟩ := mmap_cases hmmap
    · cases hresult
    refine ⟨rfl, fun a => ?_⟩
    have hrange : (⟨current, current + (ceil p - current), Nat.le_add_right _ _⟩ : AddrRange) =
        ⟨current, ceil p, hp⟩ := AddrRange.ext rfl (Nat.add_sub_cancel' hp)
    -- The range lies before or after every area, so that the new area is equal to none of them.
    have hnil : l.areas.overlappingRange ⟨current, ceil p, hp⟩ = [] :=
      List.isEmpty_iff.mp (Bool.and_eq_true _ _ ▸ hcheck).2
    rw [hrange]
    refine OrderedSet.mem_insert_iff fun b hb heq => ?_
    dsimp only at heq
    rcases Areas.apart_of_overlappingRange hnil hb with hbefore | hbefore
    · rw [separates_cmp.gt hbefore] at heq
      cases heq
    · rw [separates_cmp.lt hbefore] at heq
      cases heq

end SetBreak

theorem Areas.Nonempty.checkOverlappingRange {s : Areas} (h : s.Nonempty) {r : AddrRange}
    (hr : r.start < r.stop) :
    s.checkOverlappingRange r = true ↔
      r.stop ≤ USER_SPACE_MEMORY_TOP ∧ ∀ a ∈ s.elems, ¬ a.range.Intersects r := by
  unfold Areas.checkOverlappingRange
  rw [Bool.and_eq_true, isUser_iff, List.isEmpty_iff]
  have hnil : s.overlappingRange r = [] ↔ ∀ a ∈ s.elems, ¬ a.range.Intersects r := by
    unfold Areas.overlappingRange OrderedSet.range
    rw [List.filter_eq_nil_iff]
    exact forall_congr' fun a => imp_congr_right fun ha => not_congr (between_bounds hr (h a ha))
  rw [hnil]
  exact and_congr_left fun _ => ⟨And.left, fun hstop => ⟨hstop, hr.trans_le hstop⟩⟩

namespace MemoryCalls

/-! ### The invariant -/

/-- No area of the process is empty, its break is a page boundary, and `brk` has mapped nothing
above it. -/
structure ProcessInv (x : Process) : Prop where
  nonempty : x.space.locked.areas.Nonempty
  aligned : ∀ b ∈ x.space.locked.breakPos, IsPageAligned b
  started : x.space.locked.breakPos.isSome → x.space.locked.breakStart.isSome
  below : ∀ r ∈ x.heap, ∃ b, x.space.locked.breakPos = some b ∧ r.stop ≤ b

theorem ProcessInv.fresh : ProcessInv {} where
  nonempty a ha := absurd ha List.not_mem_nil
  aligned b hb := by cases hb
  started h := by cases h
  below r hr := absurd hr List.not_mem_nil

section Step

variable {x : Process}

theorem ProcessInv.kept (h : ProcessInv x) {space : Space}
    (hkept : Kept x.space.locked space.locked) : ProcessInv { x with space := space } where
  nonempty := hkept.nonempty h.nonempty
  aligned b hb := h.aligned b (hkept.breakPos ▸ hb)
  started hb := by
    dsimp only at hb ⊢
    rw [hkept.breakStart]
    exact h.started (hkept.breakPos ▸ hb)
  below r hr := by
    obtain ⟨b, hb, hle⟩ := h.below r hr
    exact ⟨b, hkept.breakPos.trans hb, hle⟩

theorem ProcessInv.registerBreak (h : ProcessInv x) {start : ℕ} (hstart : IsPageAligned start)
    {l : MMListLocked} (hrun : x.space.locked.registerBreak start = .ok l) :
    ProcessInv { x with space := { x.space with locked := l } } := by
  unfold MMListLocked.registerBreak at hrun
  obtain ⟨_, hassert, hrun⟩ := bind_eq_ok.mp hrun
  cases hrun
  have hnone := (of_assertOr hassert).2
  refine ⟨h.nonempty, ?_, fun _ => rfl, fun r hr => ?_⟩
  · rintro b hb
    cases hb
    exact hstart
  · obtain ⟨b, hb, -⟩ := h.below r hr
    rw [hnone] at hb
    cases hb

theorem ProcessInv.brk (h : ProcessInv x) {addr : ℕ}
    (haddr : addr = 0 ∨ x.space.locked.breakPos ≠ some (ceil addr)) :
    Ensures (fun _ => True) (fun r => ProcessInv r.2) (brk x addr) := by
  unfold MemoryCalls.brk
  refine (ensures_fromMM fun r hr => hr).bind fun r hr => ?_
  obtain ⟨r, l⟩ := r
  obtain ⟨current, hcurrent, ⟨rfl, rfl⟩ | ⟨p, hpos, hle, rfl, result, hmmap⟩⟩ := setBreak_cases hr
  · -- Nothing changes, and no range is added to the heap.
    change ProcessInv ⟨_, _⟩
    rw [hcurrent]
    dsimp only
    rw [dif_neg (Nat.lt_irrefl r)]
    exact h
  · have hp : addr ≠ 0 ∧ p = addr := by
      split at hpos
      · cases hpos
      · exact ⟨by assumption, (Option.some.inj hpos).symm⟩
    obtain ⟨hzero, rfl⟩ := hp
    have hlt : current < ceil p := by
      refine lt_of_le_of_ne hle fun heq => ?_
      rw [hcurrent, heq] at haddr
      exact haddr.elim hzero fun hne => hne rfl
    have hkept := mmap_kept (Nat.sub_pos_of_lt hlt) hmmap
    change ProcessInv ⟨_, _⟩
    rw [hcurrent]
    dsimp only
    rw [dif_pos hlt]
    refine ⟨hkept.nonempty h.nonempty, ?_, ?_, ?_⟩
    · intro b hb
      rw [Option.mem_def] at hb
      dsimp only at hb
      rw [hkept.breakPos] at hb
      cases hb
      exact isPageAligned_ceil p
    · intro _
      dsimp only
      rw [hkept.breakStart]
      exact h.started (by rw [hcurrent]; rfl)
    · intro r hr
      refine ⟨ceil p, hkept.breakPos, ?_⟩
      rcases List.mem_append.mp hr with hr | hr
      · obtain ⟨b, hb, hrb⟩ := h.below r hr
        rw [hcurrent] at hb
        cases hb
        omega
      · rw [List.mem_singleton.mp hr]

end Step

def Inv (s : State) : Prop := ∀ x ∈ s.processes, ProcessInv x

variable {s : State}

theorem inv_onProcess (hs : Inv s) (i : ℕ) {f : Process → Except CallPanic Process}
    (hf : ∀ x ∈ s.processes[i]?, ProcessInv x → Ensures (fun _ => True) ProcessInv (f x)) :
    Ensures (fun _ => True) Inv (onProcess s i f) := by
  unfold onProcess
  cases hi : s.processes[i]? with
  | none => exact hs
  | some x =>
    refine (hf x hi (hs x (List.mem_of_getElem? hi))).bind fun x' hx' => ?_
    intro y hy
    rcases List.mem_or_eq_of_mem_set hy with hy | rfl
    · exact hs y hy
    · exact hx'

theorem inv_onSpace (hs : Inv s) (i : ℕ) {f : Space → Except CallPanic Space}
    (hf : ∀ x, KeepsAreas x (f x)) : Ensures (fun _ => True) Inv (onSpace s i f) :=
  inv_onProcess hs i fun x _ hx => (hf x.space).bind fun _ hkept => hx.kept hkept

theorem inv_run (hs : Inv s) (op : Op) (hallowed : Allowed op) (hop : MapsPages s op) :
    Ensures (fun _ => True) Inv (run s op) := by
  cases op with
  | new =>
    intro x hx
    rcases List.mem_append.mp hx with hx | hx
    · exact hs x hx
    · rw [List.mem_singleton.mp hx]
      exact ProcessInv.fresh
  | loadSegment i file base ph => exact inv_onSpace hs i fun x => keeps_loadSegment x file base ph
  | mapStack i start size =>
    rw [run]
    refine inv_onSpace hs i fun x => ?_
    exact (keeps_mmapFixed x start hallowed .anonymous readWrite false).bind fun r hr => hr
  | registerBreak i segmentsEnd =>
    have hstart : IsPageAligned (segmentsEnd + heapDistance) :=
      IsPageAligned.add hallowed (by decide)
    refine inv_onProcess hs i fun x _ hx => ?_
    refine Ensures.bind (P := fun space => ProcessInv { x with space := space }) ?_ fun _ h => h
    exact (ensures_fromMM fun l hl => hx.registerBreak hstart hl).bind fun l hl => hl
  | fork i =>
    intro x hx
    rcases List.mem_append.mp hx with hx | hx
    · exact hs x hx
    · exact hs x (List.mem_of_getElem? (Option.mem_toList.mp hx))
  | brk i addr =>
    refine inv_onProcess hs i fun x hi hx => ?_
    exact (hx.brk (hop.imp_right fun h => h x hi)).bind fun r hr => hr
  | mmap i args => exact inv_onSpace hs i fun x => keeps_doMmap2 x args
  | munmap i addr len => exact inv_onSpace hs i fun x => keeps_munmap x addr len
  | mprotect i addr len permission =>
    exact inv_onSpace hs i fun x => keeps_mprotect x addr len permission
  | mremap i args => exact inv_onSpace hs i fun x => keeps_mremap x args
  | shmget area size => exact (ensures_any _).bind fun _ _ => hs
  | shmat i fuel id addr rnd permission =>
    rw [run]
    split
    · exact hs
    · rename_i segment hid
      refine inv_onSpace hs i fun x => ?_
      exact keeps_shmat x fuel segment (hop segment hid) addr rnd permission
  | shmdt i addr size => exact inv_onSpace hs i fun x => keeps_shmdt x addr size

theorem inv_of_reachable (hs : (system MapsPages).Reachable s) : Inv s := by
  refine (System.Reachable.ensures (M := system MapsPages) (P := Inv) (E := fun _ => True) ?_ ?_
    hs).1
  · rintro s rfl x hx
    cases hx
  · exact fun s op hs hop => inv_run hs op hop.1 hop.2

/-! ### Termination -/

/-- All loops over the areas of an address space end, for all arguments and whatever the pages
answer. -/
structure LoopsEnd (l : MMListLocked) : Prop where
  findAvailable : ∀ hint len, ∃ fuel result, l.findAvailable fuel hint len = some result
  walk : ∀ (σ : Type) (visit : σ → MMArea → Slice → Except MMPanic (KResult Unit × σ)) start len s,
    ∃ fuel, ∀ s', walk visit l.areas fuel start len 0 s ≠ .ok (none, s')

theorem ProcessInv.loopsEnd {x : Process} (h : ProcessInv x) : LoopsEnd x.space.locked where
  findAvailable hint len :=
    ⟨_, findLoop_returns h.nonempty (ceil len) _ (effectiveHint hint) (Nat.lt_succ_self _)⟩
  walk _ visit start len s :=
    ⟨len + 1, walk_returns h.nonempty visit (len + 1) start len 0 s (Nat.lt_succ_self len)⟩

/-- If no call maps an empty range, the loops of `find_available`, `read_bytes` and `access_mut` end
in every state, for all arguments. -/
theorem loopsEnd_of_reachable (s : State) (hs : (system MapsPages).Reachable s) :
    ∀ x ∈ s.processes, LoopsEnd x.space.locked :=
  fun x hx => (inv_of_reachable hs x hx).loopsEnd

/-- The calls of `execve` for a program of one page. -/
def onePage : List Op :=
  [.new, .loadSegment 0 7 0 ⟨0, 0x1000, 0x10000, 0x1000, ⟨true, false, true⟩⟩,
    .registerBreak 0 0x11000]

theorem onePage_reachable {C : State → Op → Prop} (h : ∀ s op, MapsPages s op → C s op) :
    (system C).Reachable (onePage.foldl (system C).next {}) := by
  refine (System.Reachable.of_init rfl).after onePage ⟨⟨trivial, ?_⟩, ⟨trivial, ?_⟩,
    ⟨(by decide : IsPageAligned 0x11000), ?_⟩, trivial⟩
  all_goals exact h _ _ trivial

theorem loopsEnd_after_brk : ∃ s, (system MapsPages).Reachable s ∧
    s.processes.map (fun x => x.space.locked.breakPos) = [some 0x22000] ∧
    ∀ x ∈ s.processes, LoopsEnd x.space.locked := by
  have h4 := (onePage_reachable fun _ _ h => h).next (.brk 0 0x21001) ⟨(by decide : ceil 0x21001 < 2 ^ 64), Or.inr fun x hx => by
    cases hx
    decide⟩
  exact ⟨_, h4, rfl, loopsEnd_of_reachable _ h4⟩

/-- After `brk` with the position of the break there is a marker behind the program. -/
def markerSpace : MMListLocked where
  areas := ⟨[⟨(point 0x10000).grow 0x1000, .file ⟨7, 0, 0x1000, isPageAligned_zero⟩,
      ⟨true, false, true⟩, false⟩,
    ⟨point 0x21000, .anonymous, ⟨true, true, false⟩, false⟩], false⟩
  breakStart := some (point 0x21000)
  breakPos := some 0x21000

theorem markerSpace_reachable : ∃ s, (system fun _ _ => True).Reachable s ∧
    ∃ x ∈ s.processes, x.space.locked = markerSpace := by
  have h4 := (onePage_reachable (C := fun _ _ => True) fun _ _ _ => trivial).next (.brk 0 0x21000)
    ⟨(by decide : ceil 0x21000 < 2 ^ 64), trivial⟩
  exact ⟨_, h4, _, List.mem_cons_self, rfl⟩

theorem walk_marker {σ : Type} {areas : Areas} {current : ℕ} {area : MMArea}
    (harea : areas.overlappingAddr current = some area) (hstop : area.range.stop = current)
    (haligned : IsPageAligned current)
    (visit : σ → MMArea → Slice → Except MMPanic (KResult Unit × σ)) {remaining : ℕ}
    (hremaining : remaining ≠ 0) (offset : ℕ) (s : σ) (fuel : ℕ) :
    walk visit areas fuel current remaining offset s = .ok (none, s) := by
  induction fuel with
  | zero => rfl
  | succ fuel ih =>
    have hpages : pagesOf ⟨current, current, le_rfl⟩ = [] := by
      unfold pagesOf
      rw [ceil_eq_self haligned, floor_eq_self.mpr haligned, Nat.sub_self]
      rfl
    rw [walk, if_neg hremaining, harea]
    simp only [hstop, Nat.sub_self, Nat.min_zero, Nat.add_zero, Nat.sub_zero,
      new_eq (le_refl current), ok_bind, hpages, walkPages]
    exact ih

/-- After `brk` with the position of the break, a search or an access from there on never ends. -/
theorem loopsEnd_violated : ∃ s, (system fun _ _ => True).Reachable s ∧ ∃ x ∈ s.processes,
    (∀ fuel, x.space.locked.findAvailable fuel 0x21000 0x1000 = none) ∧
    ∀ fuel answer, access x.space.locked answer fuel 0x21000 1 = .ok none := by
  obtain ⟨s, hs, x, hx, hlocked⟩ := markerSpace_reachable
  refine ⟨s, hs, x, hx, ?_⟩
  rw [hlocked]
  constructor
  · intro fuel
    change findLoop markerSpace.areas 0x1000 fuel ((point 0x21000).grow 0x1000) = none
    induction fuel with
    | zero => rfl
    | succ fuel ih => exact ih
  · intro fuel answer
    have hmarker : markerSpace.areas.overlappingAddr 0x21000 =
        some ⟨point 0x21000, .anonymous, ⟨true, true, false⟩, false⟩ := by decide
    unfold access
    rw [walk_marker hmarker rfl (by decide) _ (by decide)]
    rfl

/-! ### The heap -/

/-- Other requests than the position of the break grow the heap over a range that only `brk` has
mapped, or change nothing. -/
structure GrowsHeap (x : Process) : Prop where
  grows : ∀ b, x.space.locked.breakPos = some b → ∀ p, (h : b < ceil p) →
    ceil p ≤ USER_SPACE_MEMORY_TOP →
    (∀ a ∈ x.space.locked.areas.elems, ∀ addr, b ≤ addr → addr < ceil p → a.range.Contains addr →
      ∃ r ∈ x.heap, r.Contains addr) →
    ∃ l, x.space.locked.setBreak (some p) = .ok (ceil p, l) ∧ l.breakPos = some (ceil p) ∧
      ∀ a, a ∈ l.areas.elems ↔
        a = ⟨⟨b, ceil p, h.le⟩, .anonymous, ⟨true, true, false⟩, false⟩ ∨
          a ∈ x.space.locked.areas.elems
  occupied : ∀ b, x.space.locked.breakPos = some b → ∀ p, (h : b < ceil p) →
    (∃ a ∈ x.space.locked.areas.elems, a.range.Intersects ⟨b, ceil p, h.le⟩) →
    x.space.locked.setBreak (some p) = .ok (b, x.space.locked)
  below : ∀ b, x.space.locked.breakPos = some b → ∀ p, p < b → ceil p ≠ b →
    x.space.locked.setBreak (some p) = .ok (b, x.space.locked)

theorem ProcessInv.growsHeap {x : Process} (h : ProcessInv x) : GrowsHeap x where
  grows b hb p hlt huser hfree := by
    refine setBreak_free hb (h.started (by rw [hb]; rfl)) (h.aligned b hb) hlt.le ?_
    refine (h.nonempty.checkOverlappingRange hlt).mpr ⟨huser, ?_⟩
    rintro a ha ⟨addr, haddr, hlo, hhi⟩
    -- What `brk` has mapped lies below the break.
    obtain ⟨r, hr, hraddr⟩ := hfree a ha addr hlo hhi haddr
    obtain ⟨b', hb', hle⟩ := h.below r hr
    rw [hb] at hb'
    cases hb'
    have := hraddr.2
    dsimp only at hlo
    omega
  occupied b hb p hlt hmeets := by
    refine setBreak_occupied hb (h.started (by rw [hb]; rfl)) hlt.le ?_
    rw [← Bool.not_eq_true, h.nonempty.checkOverlappingRange hlt]
    rintro ⟨-, hnone⟩
    obtain ⟨a, ha, hint⟩ := hmeets
    exact hnone a ha hint
  below b hb p hlt hne := by
    refine setBreak_below hb (h.started (by rw [hb]; rfl)) (lt_of_le_of_ne ?_ hne)
    rw [← ceil_eq_self (h.aligned b hb)]
    exact ceil_mono hlt.le

/-- In every run of the memory calls in which no call maps an empty range, `brk` grows the heap. -/
theorem growsHeap_of_reachable (s : State) (hs : (system MapsPages).Reachable s) :
    ∀ x ∈ s.processes, GrowsHeap x :=
  fun x hx => (inv_of_reachable hs x hx).growsHeap

theorem growsHeap_after_image : ∃ s, (system MapsPages).Reachable s ∧
    s.processes.map (fun x => x.space.locked.breakPos) = [some 0x21000] ∧
    ∀ x ∈ s.processes, GrowsHeap x := by
  have h3 := onePage_reachable (C := MapsPages) fun _ _ h => h
  exact ⟨_, h3, rfl, growsHeap_of_reachable _ h3⟩

/-- After `brk` with the position of the break, the heap does not grow although nothing is mapped
behind it. -/
theorem growsHeap_violated : ∃ s, (system fun _ _ => True).Reachable s ∧ ∃ x ∈ s.processes,
    x.space.locked.breakPos = some 0x21000 ∧
    (∀ a ∈ x.space.locked.areas.elems, ∀ addr, 0x21000 ≤ addr → ¬ a.range.Contains addr) ∧
    x.space.locked.setBreak (some 0x22000) = .ok (0x21000, x.space.locked) := by
  obtain ⟨s, hs, x, hx, hlocked⟩ := markerSpace_reachable
  refine ⟨s, hs, x, hx, ?_⟩
  rw [hlocked]
  refine ⟨rfl, ?_, rfl⟩
  intro a ha addr hlo haddr
  have hbound : ∀ a ∈ markerSpace.areas.elems, a.range.stop ≤ 0x21000 := by decide
  exact absurd (haddr.2.trans_le (hbound a ha)) (not_lt.mpr hlo)

end MemoryCalls

end Dlutos
