import Dlutos.AddressSpace.AreaExact
import Dlutos.AddressSpace.FreeRange
import Dlutos.AddressSpace.MappedFiles

/-!
# The memory system calls of a process

`kernel/syscall/mm.rs` on the areas of processes: `brk` and `mremap`, together with the calls
modelled in `MappedFiles`, the loader, and `fork`.  Where a call copies memory of the process, the
areas decide where it goes on, and the answers of the pages are an argument.
-/

namespace Dlutos

open Addr AddrRange ExceptLoop MMListLocked Transition World MappedFiles

/-! ### Calls that map no empty range -/

def Areas.Nonempty (s : Areas) : Prop := ∀ a ∈ s.elems, a.range.start < a.range.stop

/-- What calls other than `brk` do to an address space: they leave no empty areas and do not move
the break. -/
structure Kept (l l' : MMListLocked) : Prop where
  nonempty : l.areas.Nonempty → l'.areas.Nonempty
  breakPos : l'.breakPos = l.breakPos
  breakStart : l'.breakStart = l.breakStart

theorem Kept.refl (l : MMListLocked) : Kept l l := ⟨id, rfl, rfl⟩

theorem Kept.trans {l l' l'' : MMListLocked} (h : Kept l l') (h' : Kept l' l'') : Kept l l'' :=
  ⟨fun hne => h'.nonempty (h.nonempty hne), h'.breakPos.trans h.breakPos,
    h'.breakStart.trans h.breakStart⟩

theorem Areas.Nonempty.insert {s : Areas} (h : s.Nonempty) {a : MMArea}
    (ha : a.range.start < a.range.stop) : (s.insert a).Nonempty := by
  intro x hx
  rcases OrderedSet.mem_insert hx with rfl | hx
  · exact ha
  · exact h x hx

theorem Areas.Nonempty.insertSome {s : Areas} (h : s.Nonempty) {o : Option MMArea}
    (ho : ∀ a ∈ o, a.range.start < a.range.stop) : (s.insertSome o).Nonempty := by
  cases o with
  | none => exact h
  | some a => exact h.insert (ho a rfl)

section Kept

variable {l l' : MMListLocked}

variable {len : ℕ} {mapping : Mapping} {permission : Permission} {isShared : Bool} {result :
    KResult Unit}

theorem mmap_cases {addr : ℕ} (h : l.mmap addr len mapping permission isShared = .ok (result, l')) :
    (result = .error .EEXIST ∧ l' = l) ∨ (result = .ok () ∧ l' = { l with areas := l.areas.insert (
      ⟨⟨addr, addr + len, Nat.le_add_right addr len⟩, mapping, permission, isShared⟩) }) := by
  unfold MMListLocked.mmap at h
  obtain ⟨-, -, h⟩ := bind_eq_ok.mp h
  obtain ⟨-, -, h⟩ := bind_eq_ok.mp h
  rw [new_eq (Nat.le_add_right addr len), ok_bind] at h
  split at h
  · cases h
    exact Or.inl ⟨rfl, rfl⟩
  · cases h
    exact Or.inr ⟨rfl, rfl⟩

theorem mmap_kept {addr : ℕ} (hlen : 0 < len)
    (h : l.mmap addr len mapping permission isShared = .ok (result, l')) : Kept l l' := by
  obtain ⟨-, rfl⟩ | ⟨-, rfl⟩ := mmap_cases h
  · exact Kept.refl _
  · refine ⟨fun hne => hne.insert ?_, rfl, rfl⟩
    exact Nat.lt_add_of_pos_right hlen

theorem mmapAvailable_kept {fuel hint : ℕ} {result : KResult ℕ} (hlen : 0 < len)
    (h : l.mmapAvailable fuel hint len mapping permission isShared = .ok (some (result, l'))) :
    Kept l l' := by
  unfold MMListLocked.mmapAvailable at h
  split at h
  · cases h
  · cases h
    exact Kept.refl _
  · obtain ⟨⟨r, l1⟩, hrun, h⟩ := bind_eq_ok.mp h
    cases h
    exact mmap_kept hlen hrun

theorem mmapHint_kept {fuel hint : ℕ} {result : KResult ℕ} (hlen : 0 < len)
    (h : l.mmapHint fuel hint len mapping permission isShared = .ok (some (result, l'))) :
    Kept l l' := by
  unfold MMListLocked.mmapHint at h
  split at h
  · exact mmapAvailable_kept hlen h
  · obtain ⟨⟨r, l1⟩, hrun, h⟩ := bind_eq_ok.mp h
    have hkept := mmap_kept hlen hrun
    split at h
    · rename_i heq
      cases heq
      cases h
      exact hkept
    · rename_i heq
      cases heq
      exact hkept.trans (mmapAvailable_kept hlen h)
    · rename_i heq
      cases heq
      cases h
      exact hkept

theorem unmap_kept {start : ℕ} {result : KResult (List AddrRange)}
    (h : l.unmap start len = .ok (result, l')) : Kept l l' := by
  unfold MMListLocked.unmap at h
  obtain ⟨-, -, h⟩ := bind_eq_ok.mp h
  rw [new_maskOf, ok_bind] at h
  split at h
  · cases h
    exact Kept.refl _
  · obtain ⟨u, hloop, h⟩ := bind_eq_ok.mp h
    cases h
    have hinv := unmapLoop_inv hloop
    refine ⟨fun hne => ?_, rfl, rfl⟩
    have hkept : (⟨u.kept, l.areas.lost⟩ : Areas).Nonempty :=
      fun x hx => hne x (hinv.sublist.subset hx)
    refine (hkept.insertSome fun x hx => ?_).insertSome fun x hx => ?_
    · obtain ⟨a, ha, m, right, hcut⟩ := hinv.left x hx
      exact hcut.nonempty (hne a ha) (Or.inl rfl)
    · obtain ⟨a, ha, left, m, hcut⟩ := hinv.right x hx
      exact hcut.nonempty (hne a ha) (Or.inr (Or.inl rfl))

theorem protect_kept {start : ℕ}
    {mids : List AddrRange} (h : l.protect start len permission = .ok (result, mids, l')) :
    Kept l l' := by
  unfold MMListLocked.protect at h
  obtain ⟨-, -, h⟩ := bind_eq_ok.mp h
  obtain ⟨-, -, h⟩ := bind_eq_ok.mp h
  rw [new_maskOf, ok_bind] at h
  split at h
  · cases h
    exact Kept.refl _
  · obtain ⟨p, hloop, h⟩ := bind_eq_ok.mp h
    cases h
    refine ⟨fun hne => ?_, rfl, rfl⟩
    refine foldlM_invariant (I := fun _ p => p.areas.Nonempty) l.areas.elems ?_ ?_ hloop
    · intro done a rest p p' hl hp hstep
      have ha : a.range.start < a.range.stop := by
        refine hne a ?_
        rw [hl]
        exact List.mem_append_right done List.mem_cons_self
      obtain ⟨-, rfl⟩ | ⟨left, m, right, hcut, rfl⟩ := ensures_protectArea.of_ok hstep
      · exact hp.insert ha
      · refine ((hp.insertSome fun x hx => ?_).insertSome fun x hx => ?_).insert ?_
        · exact hcut.nonempty ha (Or.inl hx)
        · exact hcut.nonempty ha (Or.inr (Or.inl hx))
        · change m.range.start < m.range.stop
          exact hcut.nonempty ha (Or.inr (Or.inr rfl))
    · intro x hx
      cases hx

end Kept

/-! ### Accesses of the kernel -/

theorem Areas.Nonempty.overlappingAddr {s : Areas} (h : s.Nonempty) {addr : ℕ} {a : MMArea}
    (ha : s.overlappingAddr addr = some a) : addr < a.range.stop := by
  obtain ⟨hmem, heq⟩ := OrderedSet.get_eq_some ha
  have hpos := h a hmem
  rw [cmp_point_eq_eq] at heq
  omega

theorem walk_returns {σ : Type} {areas : Areas} (hne : areas.Nonempty)
    (visit : σ → MMArea → Slice → Except MMPanic (KResult Unit × σ)) :
    ∀ fuel current remaining offset s, remaining < fuel →
      ∀ s', walk visit areas fuel current remaining offset s ≠ .ok (none, s') := by
  intro fuel
  induction fuel with
  | zero => exact fun _ _ _ _ h => absurd h (Nat.not_lt_zero _)
  | succ fuel ih =>
    intro current remaining offset s hfuel s' h
    rw [walk] at h
    split at h
    · cases h
    · rename_i hremaining
      split at h
      · cases h
      · rename_i area harea
        have hstop := hne.overlappingAddr harea
        obtain ⟨range, -, h⟩ := bind_eq_ok.mp h
        obtain ⟨⟨r, s1⟩, -, h⟩ := bind_eq_ok.mp h
        split at h
        · cases h
        · exact ih _ _ _ _ (by omega) s' h

namespace MemoryCalls

/-- `read_bytes` and `access_mut`, as far as the areas decide; `answer` is what the pages answer. -/
def access (l : MMListLocked) (answer : MMArea → Slice → KResult Unit) (fuel start len : ℕ) :
    Except MMPanic (Option (KResult Unit)) :=
  if !userSpan start len then .ok (some (.error .EINVAL))
  else do
    let (r, ()) ← walk (fun s area slice => .ok (answer area slice, s)) l.areas fuel start len 0 ()
    pure r

/-! ### `mremap` -/

/-- The arguments of `mremap`; `invalid` says that an unknown flag is set. -/
structure MremapArgs where
  fuel : ℕ
  answers : ℕ → MMArea → Slice → KResult Unit
  oldAddr : ℕ
  oldSize : ℕ
  newSize : ℕ
  newAddr : ℕ
  mayMove : Bool
  fixed : Bool
  dontUnmap : Bool
  invalid : Bool

def readWrite : Permission := ⟨true, true, false⟩

/-- The loop of `mremap` that copies the contents; the result says whether all pages were copied. -/
def copyPages (l : MMListLocked) (args : MremapArgs) (target : ℕ) :
    List ℕ → Except MMPanic Bool
  | [] => .ok true
  | k :: pages => do
    match ← access l (args.answers (2 * k + 2)) args.fuel (args.oldAddr + k * PAGE_SIZE)
      PAGE_SIZE with
    | some (.ok ()) =>
      match ← access l (args.answers (2 * k + 3)) args.fuel (target + k * PAGE_SIZE)
        PAGE_SIZE with
      | some (.ok ()) => copyPages l args target pages
      | _ => pure false
    | _ => pure false

def moveContents (x : Space) (args : MremapArgs) (oldSize target : ℕ) : Except CallPanic Space := do
  if ← fromMM (copyPages x.locked args target (List.range (oldSize / PAGE_SIZE))) then do
    let r ← x.unmap args.oldAddr oldSize
    pure r.2
  else pure x

def moveRange (x : Space) (args : MremapArgs) (oldSize newSize : ℕ) : Except CallPanic Space := do
  if args.fixed then do
    let (_, x) ← x.unmap args.newAddr newSize
    match ← x.mmapFixed args.newAddr newSize .anonymous readWrite false with
    | (.error _, x) => pure x
    | (.ok (), x) => moveContents x args oldSize args.newAddr
  else do
    match ← fromMM (x.locked.mmapHint args.fuel 0 newSize .anonymous readWrite false) with
    | none => pure x
    | some (.error _, l) => pure { x with locked := l }
    | some (.ok target, l) =>
      moveContents ⟨l, assign .anonymous target newSize x.assigned⟩ args oldSize target

def growRange (x : Space) (args : MremapArgs) (oldSize newSize : ℕ) : Except CallPanic Space :=
  if args.fixed then moveRange x args oldSize newSize
  else do
    match ← x.mmapFixed (args.oldAddr + oldSize) (newSize - oldSize) .anonymous readWrite false with
    | (.ok (), x) => pure x
    | (.error _, x) => if args.mayMove then moveRange x args oldSize newSize else pure x

def resize (x : Space) (args : MremapArgs) (oldSize newSize : ℕ) : Except CallPanic Space :=
  if newSize = oldSize then pure x
  else if newSize < oldSize then do
    let r ← x.unmap (args.oldAddr + newSize) (oldSize - newSize)
    pure r.2
  else growRange x args oldSize newSize

def mremap (x : Space) (args : MremapArgs) : Except CallPanic Space :=
  if ¬ IsPageAligned args.oldAddr ∨ args.oldSize = 0 ∨ args.newSize = 0 then pure x
  else if args.invalid ∨ args.dontUnmap then pure x
  else if args.fixed ∧ (¬ args.mayMove ∨ ¬ IsPageAligned args.newAddr) then pure x
  else do
    let oldSize ← alignUp args.oldSize
    let newSize ← alignUp args.newSize
    match ← fromMM (access x.locked (args.answers 0) args.fuel args.oldAddr 1) with
    | some (.ok ()) =>
      match ← fromMM (access x.locked (args.answers 1) args.fuel (args.oldAddr + oldSize - 1)
        1) with
      | some (.ok ()) => resize x args oldSize newSize
      | _ => pure x
    | _ => pure x

/-! ### Processes -/

structure Process where
  space : Space := {}
  heap : List AddrRange := []

structure State where
  processes : List Process := []
  segments : List ShmArea := []

def brk (x : Process) (addr : ℕ) : Except CallPanic (ℕ × Process) := do
  let pos := if addr = 0 then none else some addr
  let (r, l) ← fromMM (x.space.locked.setBreak pos)
  let heap :=
    match x.space.locked.breakPos with
    | none => x.heap
    | some current => if h : current < r then x.heap ++ [⟨current, r, h.le⟩] else x.heap
  pure (r, ⟨{ x.space with locked := l }, heap⟩)

/-- The distance of the first break from the end of the segments. -/
def heapDistance : ℕ := 0x10000

/-- The operations; the first argument says which process makes the call. -/
inductive Op where
  | new
  | loadSegment (i file base : ℕ) (ph : ProgramHeader)
  | mapStack (i start size : ℕ)
  | registerBreak (i segmentsEnd : ℕ)
  | fork (i : ℕ)
  | brk (i addr : ℕ)
  | mmap (i : ℕ) (args : MmapArgs)
  | munmap (i addr len : ℕ)
  | mprotect (i addr len : ℕ) (permission : Permission)
  | mremap (i : ℕ) (args : MremapArgs)
  | shmget (area size : ℕ)
  | shmat (i fuel id addr : ℕ) (rnd : Bool) (permission : Permission)
  | shmdt (i addr size : ℕ)

def onProcess (s : State) (i : ℕ) (f : Process → Except CallPanic Process) :
    Except CallPanic State :=
  match s.processes[i]? with
  | none => .ok s
  | some x => do
    let x ← f x
    pure { s with processes := s.processes.set i x }

def onSpace (s : State) (i : ℕ) (f : Space → Except CallPanic Space) : Except CallPanic State :=
  onProcess s i fun x => do
    let space ← f x.space
    pure { x with space := space }

def run (s : State) : Op → Except CallPanic State
  | .new => .ok { s with processes := s.processes ++ [{}] }
  | .loadSegment i file base ph => onSpace s i fun x => x.loadSegment file base ph
  | .mapStack i start size => onSpace s i fun x => do
    let r ← x.mmapFixed start size .anonymous readWrite false
    pure r.2
  | .registerBreak i segmentsEnd => onSpace s i fun x => do
    let l ← fromMM (x.locked.registerBreak (segmentsEnd + heapDistance))
    pure { x with locked := l }
  | .fork i => .ok { s with processes := s.processes ++ s.processes[i]?.toList }
  | .brk i addr => onProcess s i fun x => do
    let r ← brk x addr
    pure r.2
  | .mmap i args => onSpace s i fun x => x.doMmap2 args
  | .munmap i addr len => onSpace s i fun x => x.munmap addr len
  | .mprotect i addr len permission => onSpace s i fun x => x.mprotect addr len permission
  | .mremap i args => onSpace s i fun x => mremap x args
  | .shmget area size => do
    let _ ← alignUp size
    pure { s with segments := s.segments ++ [⟨area, ceil size, isPageAligned_ceil size⟩] }
  | .shmat i fuel id addr rnd permission =>
    match s.segments[id]? with
    | none => .ok s
    | some segment => onSpace s i fun x => x.shmat fuel segment addr rnd permission
  | .shmdt i addr size => onSpace s i fun x => x.shmdt addr size

/-- The arguments: the loader passes page boundaries and maps a stack, and nothing overflows. -/
def Allowed : Op → Prop
  | .mapStack _ _ size => 0 < size
  | .registerBreak _ segmentsEnd => IsPageAligned segmentsEnd
  | .brk _ addr => ceil addr < 2 ^ 64
  | _ => True

def system (cond : State → Op → Prop) : System State Op CallPanic where
  init s := s = {}
  allowed s op := Allowed op ∧ cond s op
  run := run

/-- `brk` does not ask for the position of the break, and no empty segment is attached. -/
def MapsPages (s : State) : Op → Prop
  | .brk i addr => addr = 0 ∨ ∀ x ∈ s.processes[i]?, x.space.locked.breakPos ≠ some (ceil addr)
  | .shmat _ _ id _ _ _ => ∀ segment ∈ s.segments[id]?, segment.segsz ≠ 0
  | _ => True

/-! ### The calls keep the areas -/

/-- The triple of the calls that do not move the break. -/
abbrev KeepsAreas (x : Space) : Except CallPanic Space → Prop :=
  Ensures (fun _ => True) fun x' => Kept x.locked x'.locked

/-- The triple of the functions of `MMList`. -/
abbrev KeepsAreasResult (x : Space) : Except CallPanic (KResult Unit × Space) → Prop :=
  Ensures (fun _ => True) fun r => Kept x.locked r.2.locked

theorem ensures_fromMM {α : Type} {P : α → Prop} {m : Except MMPanic α}
    (h : ∀ a, m = .ok a → P a) : Ensures (fun _ => True) P (fromMM m) := by
  cases m with
  | error e => exact trivial
  | ok a => exact h a rfl

theorem ensures_any {α : Type} (m : Except CallPanic α) :
    Ensures (fun _ => True) (fun _ => True) m := by
  cases m with
  | error e => exact trivial
  | ok a => exact trivial

section Keeps

variable (x : Space)

variable {len : ℕ}

theorem keeps_mmapFixed (addr : ℕ) (hlen : 0 < len) (mapping : Mapping)
    (permission : Permission) (isShared : Bool) :
    KeepsAreasResult x (x.mmapFixed addr len mapping permission isShared) := by
  unfold Space.mmapFixed
  refine (ensures_any _).bind fun _ _ => ?_
  refine (ensures_fromMM fun r hr => mmap_kept hlen hr).bind fun r hr => ?_
  split
  · exact hr
  · exact hr

theorem keeps_mmapHint (fuel hint : ℕ) (hlen : 0 < len) (mapping : Mapping)
    (permission : Permission) (isShared : Bool) :
    KeepsAreas x (x.mmapHint fuel hint len mapping permission isShared) := by
  unfold Space.mmapHint
  refine (ensures_any _).bind fun _ _ => ?_
  refine (ensures_fromMM (P := fun r => ∀ y ∈ r, Kept x.locked y.2) fun r hr y hy => ?_).bind
    fun r hr => ?_
  · cases hy
    exact mmapHint_kept hlen hr
  · split
    · exact Kept.refl _
    · exact hr _ rfl
    · exact hr _ rfl

theorem keeps_unmap (start len : ℕ) : KeepsAreasResult x (x.unmap start len) := by
  unfold Space.unmap
  refine (ensures_any _).bind fun _ _ => ?_
  exact (ensures_fromMM fun r hr => unmap_kept hr).bind fun r hr => hr

theorem keeps_protect (start len : ℕ) (permission : Permission) :
    KeepsAreasResult x (x.protect start len permission) := by
  unfold Space.protect
  refine (ensures_any _).bind fun _ _ => ?_
  exact (ensures_fromMM fun r hr => protect_kept hr).bind fun r hr => hr

theorem keeps_munmap (addr len : ℕ) : KeepsAreas x (x.munmap addr len) := by
  unfold Space.munmap
  split
  · exact Kept.refl _
  · refine (ensures_any _).bind fun len _ => ?_
    exact (keeps_unmap x addr len).bind fun r hr => hr

theorem keeps_mprotect (addr len : ℕ) (permission : Permission) :
    KeepsAreas x (x.mprotect addr len permission) := by
  unfold Space.mprotect
  split
  · exact Kept.refl _
  · refine (ensures_any _).bind fun len _ => ?_
    exact (keeps_protect x addr len permission).bind fun r hr => hr

theorem keeps_shmdt (addr size : ℕ) : KeepsAreas x (x.shmdt addr size) :=
  (keeps_unmap x addr size).bind fun _ hr => hr

theorem keeps_shmat (fuel : ℕ) (segment : ShmArea) (hsize : segment.segsz ≠ 0) (addr : ℕ)
    (rnd : Bool) (permission : Permission) :
    KeepsAreas x (x.shmat fuel segment addr rnd permission) := by
  have hpos := Nat.pos_of_ne_zero hsize
  unfold Space.shmat
  dsimp only
  split
  · split
    · exact Kept.refl _
    · exact (keeps_mmapFixed x _ hpos _ _ _).bind fun r hr => hr
  · exact keeps_mmapHint x fuel 0 hpos _ _ _

theorem ensures_alignUp_pos {n : ℕ} (hn : n ≠ 0) :
    Ensures (fun _ => True) (fun m => 0 < m) (alignUp n) := by
  unfold alignUp
  split
  · exact (Nat.pos_of_ne_zero hn).trans_le (le_ceil n)
  · exact trivial

theorem keeps_mapArgs (args : MmapArgs) (hlen : 0 < len) (mapping : Mapping) :
    KeepsAreas x (x.mapArgs args len mapping) := by
  unfold Space.mapArgs
  split
  · refine (keeps_unmap x args.addr len).bind fun r hr => ?_
    obtain ⟨result, x1⟩ := r
    cases result with
    | error err => exact hr
    | ok _ => exact (keeps_mmapFixed x1 args.addr hlen mapping _ _).bind fun r hr' => hr.trans hr'
  · exact keeps_mmapHint x args.fuel args.addr hlen mapping _ _

theorem keeps_doMmap2 (args : MmapArgs) : KeepsAreas x (x.doMmap2 args) := by
  unfold Space.doMmap2
  split
  · exact Kept.refl _
  · rename_i hargs
    refine (ensures_alignUp_pos fun hzero => hargs (Or.inr (Or.inr hzero))).bind fun len hlen => ?_
    refine (ensures_any _).bind fun mapping _ => ?_
    cases mapping with
    | none => exact Kept.refl _
    | some mapping => exact keeps_mapArgs x args hlen mapping

theorem keeps_loadSegment (file base : ℕ) (ph : ProgramHeader) :
    KeepsAreas x (x.loadSegment file base ph) := by
  unfold Space.loadSegment
  dsimp only
  have hfile : ∀ vmapStart fileLen loadEnd,
      KeepsAreasResult x (x.loadFile file vmapStart fileLen loadEnd ph) := by
    intro vmapStart fileLen loadEnd
    unfold Space.loadFile
    split
    · rename_i hlen
      refine (ensures_any _).bind fun m _ => ?_
      exact keeps_mmapFixed x _ (Nat.pos_of_ne_zero hlen) _ _ _
    · exact Kept.refl _
  refine (hfile _ _ _).bind fun r hr => ?_
  obtain ⟨result, x1⟩ := r
  cases result with
  | error err => exact hr
  | ok _ =>
    dsimp only
    split
    · rename_i hlen
      refine (keeps_mmapFixed x1 _ (Nat.sub_pos_of_lt hlen) _ _ _).bind fun r hr' => ?_
      exact hr.trans hr'
    · exact hr

section

variable (args : MremapArgs)
include args

theorem keeps_moveContents (oldSize target : ℕ) :
    KeepsAreas x (moveContents x args oldSize target) := by
  unfold moveContents
  refine (ensures_any _).bind fun copied _ => ?_
  split
  · exact (keeps_unmap x args.oldAddr oldSize).bind fun r hr => hr
  · exact Kept.refl _

theorem keeps_moveRange (oldSize : ℕ) {newSize : ℕ} (hnew : 0 < newSize) :
    KeepsAreas x (moveRange x args oldSize newSize) := by
  unfold moveRange
  split
  · refine (keeps_unmap x args.newAddr newSize).bind fun r hr => ?_
    obtain ⟨_, x1⟩ := r
    refine (keeps_mmapFixed x1 args.newAddr hnew .anonymous readWrite false).bind fun r hr' => ?_
    obtain ⟨result, x2⟩ := r
    cases result with
    | error err => exact hr.trans hr'
    | ok _ =>
      refine (keeps_moveContents x2 args oldSize args.newAddr).mono fun x3 hx3 => ?_
      exact (hr.trans hr').trans hx3
  · refine (ensures_fromMM (P := fun r => ∀ y ∈ r, Kept x.locked y.2) fun r hr y hy => ?_).bind
      fun r hr => ?_
    · cases hy
      exact mmapHint_kept hnew hr
    · split
      · exact Kept.refl _
      · exact hr _ rfl
      · exact (keeps_moveContents _ args oldSize _).mono fun x1 hx1 => (hr _ rfl).trans hx1

theorem keeps_growRange {oldSize newSize : ℕ} (hgrow : oldSize < newSize) :
    KeepsAreas x (growRange x args oldSize newSize) := by
  have hnew : 0 < newSize := Nat.zero_lt_of_lt hgrow
  unfold growRange
  split
  · exact keeps_moveRange x args oldSize hnew
  · refine (keeps_mmapFixed x _ (Nat.sub_pos_of_lt hgrow) .anonymous readWrite false).bind
      fun r hr => ?_
    obtain ⟨result, x1⟩ := r
    cases result with
    | ok _ => exact hr
    | error err =>
      dsimp only
      split
      · exact (keeps_moveRange x1 args oldSize hnew).mono fun x2 hx2 => hr.trans hx2
      · exact hr

theorem keeps_resize (oldSize newSize : ℕ) : KeepsAreas x (resize x args oldSize newSize) := by
  unfold resize
  split
  · exact Kept.refl _
  · split
    · exact (keeps_unmap x _ _).bind fun r hr => hr
    · exact keeps_growRange x args (by omega)

theorem keeps_mremap : KeepsAreas x (mremap x args) := by
  unfold mremap
  split
  · exact Kept.refl _
  · split
    · exact Kept.refl _
    · split
      · exact Kept.refl _
      · refine (ensures_any _).bind fun oldSize _ => ?_
        refine (ensures_any _).bind fun newSize _ => ?_
        refine (ensures_any _).bind fun probe _ => ?_
        split
        · refine (ensures_any _).bind fun probe' _ => ?_
          split
          · exact keeps_resize x args oldSize newSize
          · exact Kept.refl _
        · exact Kept.refl _

end

end Keeps

end MemoryCalls

end Dlutos
