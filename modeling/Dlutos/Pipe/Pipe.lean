import Dlutos.FileCache.PageCache
import Dlutos.Foundation.Monitor

/-!
# Pipes

`src/kernel/vfs/file/pipe.rs` with `src/sync/condvar.rs`.  A `write` is one `write_atomic` for each
chunk that `poll_data` delivers.  User memory is accessible.
-/

namespace Dlutos.Pipes

open FileCache (FillResult Stream)
open Monitor (Verdict)

def PIPE_SIZE : ℕ := 4096

def allowPartial : FillResult → ℕ
  | .done n | .partly n => n
  | .full => 0

/-- `UserBuffer`: its size and the bytes that were written to it. -/
structure UserBuffer where
  size : ℕ
  data : List UInt8 := []

namespace UserBuffer

def remaining (b : UserBuffer) : ℕ := b.size - b.data.length

def fill (b : UserBuffer) (bytes : List UInt8) : FillResult × UserBuffer :=
  let toWrite := min bytes.length b.remaining
  if toWrite = 0 then (.full, b)
  else
    let b' : UserBuffer := { b with data := b.data ++ bytes.take toWrite }
    if toWrite = bytes.length then (.done toWrite, b') else (.partly toWrite, b')

theorem fill_eq (b : UserBuffer) (bytes : List UInt8) :
    allowPartial (b.fill bytes).1 = min bytes.length b.remaining ∧
      (b.fill bytes).2 =
        { b with data := b.data ++ bytes.take (min bytes.length b.remaining) } := by
  unfold fill
  dsimp only
  split
  · next h => exact ⟨h.symm, by rw [h, List.take_zero, List.append_nil]⟩
  · split <;> exact ⟨rfl, rfl⟩

theorem fill_fill (b : UserBuffer) (bytes : List UInt8) (wrap : ℕ) :
    allowPartial (b.fill (bytes.take wrap)).1 +
        allowPartial ((b.fill (bytes.take wrap)).2.fill (bytes.drop wrap)).1 =
      min bytes.length b.remaining ∧
    ((b.fill (bytes.take wrap)).2.fill (bytes.drop wrap)).2 =
      { b with data := b.data ++ bytes.take (min bytes.length b.remaining) } := by
  obtain ⟨h1, hb1⟩ := b.fill_eq (bytes.take wrap)
  obtain ⟨h2, hb2⟩ := (b.fill (bytes.take wrap)).2.fill_eq (bytes.drop wrap)
  have hrem : (b.fill (bytes.take wrap)).2.remaining =
      b.remaining - min (bytes.take wrap).length b.remaining := by
    rw [hb1]
    simp only [remaining, List.length_append, List.length_take]
    omega
  rw [h1, h2, hb2, hrem]
  refine ⟨by simp only [List.length_take, List.length_drop]; omega, ?_⟩
  rw [hb1]
  simp only [List.length_take, List.length_drop, List.append_assoc]
  have hfront : bytes.take (min bytes.length b.remaining) =
      (bytes.take wrap).take (min bytes.length b.remaining) ++
        (bytes.drop wrap).take (min bytes.length b.remaining - (bytes.take wrap).length) := by
    rw [← List.take_append, List.take_append_drop]
  rw [hfront]
  congr 3 <;>
  · rw [List.take_eq_take_iff]
    simp only [List.length_take, List.length_drop]
    omega

end UserBuffer

/-- `PollEvent`, the two bits that a pipe looks at. -/
structure PollEvent where
  readable : Bool := false
  writable : Bool := false
  deriving DecidableEq

def PollEvent.isEmpty (e : PollEvent) : Bool := !e.readable && !e.writable

structure PipeInner where
  buffer : List UInt8 := []
  readClosed : Bool := false
  writeClosed : Bool := false

namespace PipeInner

def readReady (inner : PipeInner) (event : PollEvent) : PollEvent :=
  if event.readable && (!inner.buffer.isEmpty || inner.writeClosed) then { readable := true }
  else {}

def writeReady (inner : PipeInner) (event : PollEvent) : PollEvent :=
  if event.writable && (inner.buffer.length < PIPE_SIZE || inner.readClosed) then
    { writable := true }
  else {}

end PipeInner

/-- The shared part of `Pipe`, with the chunks that were appended and the bytes that were read. -/
structure Pipe where
  inner : PipeInner := {}
  appended : List (List UInt8) := []
  taken : List UInt8 := []

inductive CondVar where
  | cvRead
  | cvWrite
  deriving DecidableEq

/-- The critical sections of a pipe. -/
inductive Call where
  | read (buffer : UserBuffer)
  /-- `write_atomic` on a chunk, with the stream that `write` still has to poll and what it has
  written before -/
  | writeAtomic (data : {c : List UInt8 // c.length ≤ PIPE_SIZE}) (rest : Stream) (total : ℕ)
  | pollRead (event : PollEvent)
  | pollWrite (event : PollEvent)
  /-- `poll_read_ready` and `poll_write_ready` when `try_lock` succeeds; otherwise they touch
  nothing -/
  | pollReadReady (event : PollEvent)
  | pollWriteReady (event : PollEvent)
  | closeRead
  | closeWrite

inductive Errno where
  | EINTR
  | EPIPE
  deriving DecidableEq

/-- What a critical section returns. -/
inductive Result where
  | error (e : Errno)
  | nread (n : ℕ) (buffer : UserBuffer)
  | nwrote (n : ℕ)
  | ready (event : PollEvent)
  | closed

def pollVerdict (ready : PollEvent) : Verdict Result :=
  if ready.isEmpty then .sleep else .ret (.ready ready)

/-- What a call decides when it has the lock: the tests up to the loop and the loop condition. -/
def enter (k : Call) (p : Pipe) : Verdict Result :=
  match k with
  | .read _ => if !p.inner.writeClosed && p.inner.buffer.isEmpty then .sleep else .go
  | .writeAtomic data _ _ =>
    if p.inner.readClosed then .ret (.error .EPIPE)
    else if p.inner.buffer.length + data.1.length > PIPE_SIZE then .sleep
    else .go
  | .pollRead event => pollVerdict (p.inner.readReady event)
  | .pollWrite event => pollVerdict (p.inner.writeReady event)
  | .pollReadReady event => .ret (.ready (p.inner.readReady event))
  | .pollWriteReady event => .ret (.ready (p.inner.writeReady event))
  | .closeRead => if p.inner.readClosed then .ret .closed else .go
  | .closeWrite => if p.inner.writeClosed then .ret .closed else .go

/-- After `CondVar::wait` a pending signal ends the call; otherwise the loop goes on with the
tests that the call started with. -/
def resume (k : Call) (p : Pipe) (pending : Bool) : Verdict Result :=
  if pending then .ret (.error .EINTR) else enter k p

def queue : Call → CondVar
  | .writeAtomic _ _ _ | .pollWrite _ | .pollWriteReady _ | .closeWrite => .cvWrite
  | _ => .cvRead

/-- What a call does after its tests; `as_slices` splits the ring buffer at `wrap`. -/
def body (k : Call) (wrap : ℕ) (p : Pipe) : Pipe × Result :=
  match k with
  | .read buffer =>
    let data1 := p.inner.buffer.take wrap
    let data2 := p.inner.buffer.drop wrap
    let (r1, buffer1) := buffer.fill data1
    let (r2, buffer2) := buffer1.fill data2
    let nread := allowPartial r1 + allowPartial r2
    ({ p with
        inner := { p.inner with buffer := p.inner.buffer.drop nread }
        taken := p.taken ++ buffer2.data.drop buffer.data.length },
      .nread nread buffer2)
  | .writeAtomic data _ _ =>
    ({ p with
        inner := { p.inner with buffer := p.inner.buffer ++ data.1 }
        appended := p.appended ++ [data.1] },
      .nwrote data.1.length)
  | .closeRead => ({ p with inner := { p.inner with readClosed := true } }, .closed)
  | .closeWrite => ({ p with inner := { p.inner with writeClosed := true } }, .closed)
  | .pollRead _ | .pollWrite _ | .pollReadReady _ | .pollWriteReady _ => (p, .ready {})

def notifies : Call → List CondVar
  | .read _ | .closeRead => [.cvWrite]
  | .writeAtomic _ _ _ | .closeWrite => [.cvRead]
  | _ => []

def writeNext (stream : Stream) (total : ℕ) : Option Call :=
  match stream.poll PIPE_SIZE with
  | some (data, rest) => some (.writeAtomic data rest total)
  | none => none

/-- What an operation does after a critical section. -/
def follow (k : Call) (r : Result) : Option Call :=
  match k, r with
  | .writeAtomic data rest total, .nwrote n =>
    if n ≠ data.1.length then none else writeNext rest (total + n)
  | _, _ => none

def pipe : Monitor.Object Pipe Call Result ℕ CondVar :=
  { enter, resume, queue, body, notifies, follow }

abbrev PipeState (τ : Type*) := Monitor.State Pipe Call Result CondVar τ

def Reachable {τ : Type*} [DecidableEq τ] (s : PipeState τ) : Prop := pipe.Reachable {} s

theorem body_read (buffer : UserBuffer) (wrap : ℕ) (p : Pipe) :
    body (.read buffer) wrap p =
      ({ p with
          inner := { p.inner with
            buffer := p.inner.buffer.drop (min p.inner.buffer.length buffer.remaining) }
          taken := p.taken ++
            p.inner.buffer.take (min p.inner.buffer.length buffer.remaining) },
        .nread (min p.inner.buffer.length buffer.remaining)
          { buffer with
            data := buffer.data ++
              p.inner.buffer.take (min p.inner.buffer.length buffer.remaining) }) := by
  obtain ⟨hn, hb⟩ := buffer.fill_fill p.inner.buffer wrap
  simp only [body, hn, hb, List.drop_left]

end Dlutos.Pipes
