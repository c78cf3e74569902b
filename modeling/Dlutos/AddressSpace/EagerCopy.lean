import Dlutos.AddressSpace.Machine

/-!
# Address spaces with their own memory

The abstract machine that copy-on-write stands for: every address space has a flat memory of its
own, a new mapping reads as zero, and `new_cloned` copies the whole memory.  The areas are those of
the program; there are no page tables, no frames and no reference counts, so page faults do nothing.
-/

namespace Dlutos

open Addr AddrRange ExceptLoop Function

/-- The areas and the memories of all address spaces. -/
structure EagerCopy where
  lists : ℕ → Option MMListLocked
  mem : ℕ → ℕ → UInt8

namespace EagerCopy

open World

def setList (e : EagerCopy) (i : ℕ) (l : MMListLocked) : EagerCopy :=
  { e with lists := update e.lists i (some l) }

/-- The memory of a new mapping is zero. -/
def clear (e : EagerCopy) (i addr len : ℕ) : EagerCopy :=
  { e with mem := update e.mem i fun a =>
      if addr ≤ a ∧ a < addr + len then 0 else e.mem i a }

def onList (e : EagerCopy) (i : ℕ) (f : MMListLocked → Except MMPanic EagerCopy) :
    Except MMPanic EagerCopy :=
  match e.lists i with
  | none => .ok e
  | some l => f l

def page (e : EagerCopy) (i v : ℕ) : PageData := fun o => e.mem i (v * PAGE_SIZE + o)

/-- Replace the bytes of page `v`. -/
def setPage (e : EagerCopy) (i v : ℕ) (data : PageData) : EagerCopy :=
  { e with mem := update e.mem i fun a =>
      if a / PAGE_SIZE = v then data (a % PAGE_SIZE) else e.mem i a }

def mutPage (func : ℕ → PageData → PageData) (i : ℕ) (e : EagerCopy) (_ : MMArea) (s : Slice) :
    Except MMPanic (KResult Unit × EagerCopy) :=
  let v := s.pageStart / PAGE_SIZE
  .ok (.ok (), e.setPage i v
    (writeSlice (e.page i v) (func s.dataOffset (readSlice (e.page i v) s)) s))

def readPage (e : EagerCopy) (i : ℕ) (buffer : PageData) (_ : MMArea) (s : Slice) :
    Except MMPanic (KResult Unit × PageData) :=
  .ok (.ok (), fun o =>
    if s.dataOffset ≤ o ∧ o < s.dataOffset + (s.endOffset - s.startOffset) then
      readSlice (e.page i (s.pageStart / PAGE_SIZE)) s (o - s.dataOffset)
    else buffer o)

def readBytes (e : EagerCopy) (i : ℕ) (l : MMListLocked) (fuel start len : ℕ)
    (buffer : PageData) : Except MMPanic PageData :=
  if !userSpan start len then .ok buffer
  else do
    let (_, buffer) ← walk (e.readPage i) l.areas fuel start len 0 buffer
    pure buffer

def run (e : EagerCopy) : Op → Except MMPanic EagerCopy
  | .new i => .ok { e with lists := update e.lists i (some {}) }
  | .mmapFixed i addr len mapping permission isShared => e.onList i fun l => do
    match ← l.mmap addr len mapping permission isShared with
    | (.error _, l) => pure (e.setList i l)
    | (.ok (), l) => pure ((e.clear i addr len).setList i l)
  | .mmapHint i fuel hint len mapping permission isShared => e.onList i fun l => do
    match ← l.mmapHint fuel hint len mapping permission isShared with
    | none => pure e
    | some (.error _, l) => pure (e.setList i l)
    | some (.ok addr, l) => pure ((e.clear i addr len).setList i l)
  | .unmap i start len => e.onList i fun l => do
    let (_, l) ← l.unmap start len
    pure (e.setList i l)
  | .protect i start len permission => e.onList i fun l => do
    let (_, _, l) ← l.protect start len permission
    pure (e.setList i l)
  | .fork i j => e.onList i fun l =>
    .ok { lists := update e.lists j (some l), mem := update e.mem j (e.mem i) }
  | .drop i => e.onList i fun _ => .ok { e with lists := update e.lists i none }
  | .accessMut _ _ func i fuel start len => e.onList i fun l =>
    if !userSpan start len then .ok e
    else do
      let (_, e) ← walk (mutPage func i) l.areas fuel start len 0 e
      pure e
  | .store i addr byte =>
    .ok { e with mem := update e.mem i (update (e.mem i) addr byte) }
  | .userFault .. | .kernelFault .. | .readBytes .. => .ok e

end EagerCopy

end Dlutos
