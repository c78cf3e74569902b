import Dlutos.AddressSpace.Area

/-!
# The areas of an address space

`kernel/mem/mm_list.rs`, as far as it works on the set of areas and the program break.  The set is a
`BTreeSet` ordered by the comparison of the ranges; here it is the list of its elements in order.
`unmap` and `protect` return the ranges of the page-table entries they visit.  `Areas.lost` is a
ghost: an insertion met an element that compares equal, so that the new area was dropped.
-/

namespace Dlutos

open Addr AddrRange ExceptLoop

inductive Errno where
  | EEXIST
  | EFAULT
  | EINVAL
  | ENOMEM
  | EIO
  deriving DecidableEq

abbrev KResult (α : Type) := Except Errno α

structure Areas where
  elems : List MMArea := []
  lost : Bool := false
  deriving DecidableEq

namespace Areas

def insert (s : Areas) (a : MMArea) : Areas :=
  let (elems, added) := OrderedSet.insert (fun x y => x.range.cmp y.range) a s.elems
  ⟨elems, s.lost || !added⟩

def insertSome (s : Areas) : Option MMArea → Areas
  | none => s
  | some a => s.insert a

def overlappingAddr (s : Areas) (addr : ℕ) : Option MMArea :=
  OrderedSet.get (fun k x => cmp k x.range) (point addr) s.elems

def checkOverlappingAddr (s : Areas) (addr : ℕ) : Bool :=
  addr < USER_SPACE_MEMORY_TOP && (s.overlappingAddr addr).isNone

def overlappingRange (s : Areas) (range : AddrRange) : List MMArea :=
  OrderedSet.range (fun k x => cmp k x.range) range.intoBounds.1 range.intoBounds.2 s.elems

def checkOverlappingRange (s : Areas) (range : AddrRange) : Bool :=
  range.isUser && (s.overlappingRange range).isEmpty

end Areas

structure MMListLocked where
  areas : Areas := {}
  breakStart : Option AddrRange := none
  breakPos : Option ℕ := none
  deriving DecidableEq

namespace MMListLocked

/-! ### `find_available` -/

def randomStart : ℕ := 0x1234000

/-- The loop of `find_available`; `none` while it is still running after the given number of
iterations. -/
def findLoop (areas : Areas) (len : ℕ) : ℕ → AddrRange → Option (Option ℕ)
  | 0, _ => none
  | fuel + 1, range =>
    if !range.isUser then some none
    else
      match (areas.overlappingRange range).getLast? with
      | none => some (some range.start)
      | some area => findLoop areas len fuel ((point (ceil area.range.stop)).grow len)

def findAvailable (s : MMListLocked) (fuel hint len : ℕ) : Option (Option ℕ) :=
  let len := divCeil len PAGE_SIZE * PAGE_SIZE
  let hint := if hint = 0 then randomStart else floor hint
  findLoop s.areas len fuel ((point hint).grow len)

/-! ### `unmap` -/

/-- The variables of `unmap`: the areas retained, the two remaining parts, and the ranges taken. -/
structure Unmap where
  kept : List MMArea := []
  left : Option MMArea := none
  right : Option MMArea := none
  taken : List AddrRange := []

/-- The closure that `unmap` passes to `retain`. -/
def unmapArea (mask : AddrRange) (s : Unmap) (area : MMArea) : Except MMPanic Unmap := do
  match ← area.range.maskWithChecked mask with
  | none => pure { s with kept := s.kept ++ [area] }
  | some (left, mid, right) =>
    let s := { s with taken := s.taken ++ [mid] }
    match left, right with
    | none, none => pure s
    | some left, none =>
      assertOr (s.left = none) .leftRemaining
      match ← area.split left.stop with
      | (some left, _) => pure { s with left := some left }
      | _ => throw .splitUnreachable
    | none, some right =>
      assertOr (s.right = none) .rightRemaining
      match ← area.split right.start with
      | (_, some right) => pure { s with right := some right }
      | _ => throw .splitUnreachable
    | some left, some right =>
      assertOr (s.left = none) .leftRemaining
      assertOr (s.right = none) .rightRemaining
      match ← area.split left.stop with
      | (some left, some mid) =>
        match ← mid.split right.start with
        | (_, some right) => pure { s with left := some left, right := some right }
        | _ => throw .splitUnreachable
      | _ => throw .splitUnreachable

/-- `MMListInner::unmap`.  Besides the result it returns the ranges of page-table entries to take. -/
def unmap (s : MMListLocked) (start len : ℕ) :
    Except MMPanic (KResult (List AddrRange) × MMListLocked) := do
  assertOr (floor start = start) .startUnaligned
  let range ← AddrRange.new start (ceil (start + len))
  if !range.isUser then pure (.error .EINVAL, s)
  else do
    let u ← s.areas.elems.foldlM (unmapArea range) {}
    let areas : Areas := { s.areas with elems := u.kept }
    let areas := (areas.insertSome u.left).insertSome u.right
    pure (.ok u.taken, { s with areas := areas })

/-! ### `protect` -/

/-- The variables of `protect`: the new set, whether an area was found, and the changed ranges. -/
structure Protect where
  areas : Areas
  found : Bool := false
  mids : List AddrRange := []

/-- The body of the loop of `protect`. -/
def protectArea (mask : AddrRange) (permission : Permission) (s : Protect) (area : MMArea) :
    Except MMPanic Protect := do
  match ← area.range.maskWithChecked mask with
  | none => pure { s with areas := s.areas.insert area }
  | some (left, mid, right) =>
    let (areas, area) ←
      match left with
      | none => pure (s.areas, area)
      | some left => do
        match ← area.split left.stop with
        | (some left, some right) => pure (s.areas.insert left, right)
        | _ => throw .splitUnreachable
    let (areas, area) ←
      match right with
      | none => pure (areas, area)
      | some right => do
        match ← area.split right.start with
        | (some left, some right) => pure (areas.insert right, left)
        | _ => throw .splitUnreachable
    pure
      { areas := areas.insert { area with permission := permission }
        found := true
        mids := s.mids ++ [mid] }

/-- `MMListInner::protect`.  Besides the result it returns the ranges of page-table entries that
change. -/
def protect (s : MMListLocked) (start len : ℕ) (permission : Permission) :
    Except MMPanic (KResult Unit × List AddrRange × MMListLocked) := do
  assertOr (floor start = start) .startUnaligned
  assertOr (len ≠ 0) .emptyProtect
  let range ← AddrRange.new start (ceil (start + len))
  if !range.isUser then pure (.error .EINVAL, [], s)
  else do
    let p ← s.areas.elems.foldlM (protectArea range permission) ⟨⟨[], s.areas.lost⟩, false, []⟩
    let result := if p.found then .ok () else .error .ENOMEM
    pure (result, p.mids, { s with areas := p.areas })

/-! ### `mmap` and the program break -/

def mmap (s : MMListLocked) (addr len : ℕ) (mapping : Mapping) (permission : Permission)
    (isShared : Bool) : Except MMPanic (KResult Unit × MMListLocked) := do
  assertOr (floor addr = addr) .startUnaligned
  assertOr (IsPageAligned len) .lengthUnaligned
  let range ← AddrRange.new addr (addr + len)
  if (len = 0 ∧ ¬ s.areas.checkOverlappingAddr addr) ∨ ¬ s.areas.checkOverlappingRange range then
    pure (.error .EEXIST, s)
  else
    pure (.ok (), { s with areas := s.areas.insert ⟨range, mapping, permission, isShared⟩ })

/-- The search of `mmap_hint` for a free range, and its mapping; `none` while the search is running.
-/
def mmapAvailable (s : MMListLocked) (fuel hint len : ℕ) (mapping : Mapping)
    (permission : Permission) (isShared : Bool) :
    Except MMPanic (Option (KResult ℕ × MMListLocked)) :=
  match s.findAvailable fuel hint len with
  | none => pure none
  | some none => pure (some (.error .ENOMEM, s))
  | some (some addr) => do
    let (result, s) ← s.mmap addr len mapping permission isShared
    pure (some (result.map fun _ => addr, s))

def mmapHint (s : MMListLocked) (fuel hint len : ℕ) (mapping : Mapping) (permission : Permission)
    (isShared : Bool) : Except MMPanic (Option (KResult ℕ × MMListLocked)) := do
  if hint = 0 then s.mmapAvailable fuel hint len mapping permission isShared
  else
    match ← s.mmap hint len mapping permission isShared with
    | (.ok (), s) => pure (some (.ok hint, s))
    | (.error .EEXIST, s) => s.mmapAvailable fuel hint len mapping permission isShared
    | (.error err, s) => pure (some (.error err, s))

def setBreak (s : MMListLocked) (pos : Option ℕ) : Except MMPanic (ℕ × MMListLocked) := do
  assertOr (s.breakStart.isSome ∧ s.breakPos.isSome) .breakMissing
  match s.breakPos, pos with
  | none, _ => throw .breakMissing
  | some currentBreak, none => pure (currentBreak, s)
  | some currentBreak, some pos =>
    let pos := ceil pos
    if currentBreak > pos then pure (currentBreak, s)
    else do
      let range ← AddrRange.new currentBreak pos
      if !s.areas.checkOverlappingRange range then pure (currentBreak, s)
      else do
        let s := { s with breakPos := some pos }
        match ← s.mmap currentBreak (pos - currentBreak) .anonymous ⟨true, true, false⟩ false with
        | (.ok (), s) => pure (pos, s)
        | (.error _, _) => throw .breakMapping

def registerBreak (s : MMListLocked) (start : ℕ) : Except MMPanic MMListLocked := do
  assertOr (s.breakStart = none ∧ s.breakPos = none) .breakRegistered
  pure { s with breakStart := some (point start), breakPos := some start }

end MMListLocked

end Dlutos
