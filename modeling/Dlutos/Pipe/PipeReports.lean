import Dlutos.Files.IovStream
import Dlutos.Pipe.Pipe

/-!
# What a call on a pipe reports

One call of `Pipe::write` or `Pipe::read` among others: whenever it gets the lock, the pipe may be
in any state.  A stream or a buffer may have bytes that cannot be accessed.  A `write` commits one
chunk after the other, and an error of a later one hides what the earlier ones have appended.
-/

namespace Dlutos.Pipes

open ExceptLoop

/-- The states in which a critical section gets the lock, each with whether a signal is pending. -/
abbrev Turns := List (PipeInner × Bool)

/-- The changes that a call makes: the states before and after. -/
abbrev Changes := List (PipeInner × PipeInner)

inductive CallError where
  | EINTR
  | EPIPE
  /-- what an access of user memory returns -/
  | user (e : Dlutos.Errno)

/-- `fill` of a buffer in which the bytes that are not `writable` fault. -/
def UserBuffer.fillUser (writable : ℕ → Bool) (b : UserBuffer) (bytes : List UInt8) :
    Except CallError (ℕ × UserBuffer) :=
  let toWrite := min bytes.length b.remaining
  if (List.range toWrite).all fun k => writable (b.data.length + k) then
    .ok (allowPartial (b.fill bytes).1, (b.fill bytes).2)
  else .error (.user .EFAULT)

theorem UserBuffer.fillUser_ok {writable : ℕ → Bool} {b : UserBuffer} {bytes : List UInt8}
    {x : ℕ × UserBuffer} (h : b.fillUser writable bytes = .ok x) :
    x = (allowPartial (b.fill bytes).1, (b.fill bytes).2) := by
  unfold fillUser at h
  dsimp only at h
  split_ifs at h
  exact (Except.ok.inj h).symm

/-- `Pipe::read`; `as_slices` splits the ring buffer at `wrap`.  `none` while the call waits. -/
def read (writable : ℕ → Bool) (buffer : UserBuffer) (wrap : ℕ) (woken : Bool) :
    Turns → Option (Except CallError (ℕ × UserBuffer) × Changes)
  | [] => none
  | (inner, pending) :: turns =>
    if woken && pending then some (.error .EINTR, [])
    else if !inner.writeClosed && inner.buffer.isEmpty then read writable buffer wrap true turns
    else
      match (do
        let (n1, buffer) ← buffer.fillUser writable (inner.buffer.take wrap)
        let (n2, buffer) ← buffer.fillUser writable (inner.buffer.drop wrap)
        return (n1 + n2, buffer)) with
      | .error e => some (.error e, [])
      | .ok (nread, buffer) =>
        some (.ok (nread, buffer), [(inner, { inner with buffer := inner.buffer.drop nread })])

def writeAtomic (data : List UInt8) (woken : Bool) :
    Turns → Option (Except CallError (ℕ × PipeInner × PipeInner))
  | [] => none
  | (inner, pending) :: turns =>
    if woken && pending then some (.error .EINTR)
    else if inner.readClosed then some (.error .EPIPE)
    else if inner.buffer.length + data.length > PIPE_SIZE then writeAtomic data true turns
    else some (.ok (data.length, inner, { inner with buffer := inner.buffer ++ data }))

variable {σ : Type} (poll : σ → ℕ → KResult (Option (ℕ × List UInt8) × σ))

/-- `Pipe::write` of a stream with the function `poll`, and the turns of each `write_atomic`. -/
def write (stream : σ) (total : ℕ) (turns : List Turns) : Option (Except CallError ℕ × Changes) :=
  match poll stream PIPE_SIZE with
  | .error e => some (.error (.user e), [])
  | .ok (none, _) => some (.ok total, [])
  | .ok (some (_, data), stream) =>
    match turns with
    | [] => none
    | turn :: turns =>
      match writeAtomic data false turn with
      | none => none
      | some (.error e) => some (.error e, [])
      | some (.ok (nwrote, change)) =>
        if nwrote ≠ data.length then some (.ok (total + nwrote), [change])
        else (write stream (total + nwrote) turns).map fun r => (r.1, change :: r.2)

/-- The number of bytes that were appended. -/
def appended (changes : Changes) : ℕ :=
  (changes.map fun c => c.2.buffer.length - c.1.buffer.length).sum

/-- After its first chunk the stream is at its end. -/
def OneChunk (stream : σ) : Prop :=
  ∀ chunk rest, poll stream PIPE_SIZE = .ok (some chunk, rest) →
    ∃ rest', poll rest PIPE_SIZE = .ok (none, rest')

/-- A write that fails has appended nothing if its stream has only one chunk. -/
def WriteReports (stream : σ) : Except CallError ℕ × Changes → Prop
  | (.error _, changes) => OneChunk poll stream → changes = []
  | (.ok n, changes) => n = appended changes

theorem oneChunk_userStream {stream : UserStream} (h : stream.length ≤ PIPE_SIZE) :
    OneChunk UserStream.pollData stream := by
  intro chunk rest hpoll
  unfold UserStream.pollData at hpoll
  split at hpoll
  · cases hpoll
  · split at hpoll
    · cases hpoll
    · cases hpoll
      exact ⟨[], by rw [List.drop_eq_nil_of_le h]; rfl⟩

theorem writeAtomic_appends {data : List UInt8} {woken : Bool} {turns : Turns} {n : ℕ}
    {change : PipeInner × PipeInner} (h : writeAtomic data woken turns = some (.ok (n, change))) :
    n = data.length ∧ change.2.buffer = change.1.buffer ++ data := by
  induction turns generalizing woken with
  | nil => cases h
  | cons turn turns ih =>
    rw [writeAtomic] at h
    split_ifs at h
    · cases h
    · cases h
    · exact ih h
    · cases h
      exact ⟨rfl, rfl⟩

variable {poll} {stream : σ} {turns : List Turns} {changes : Changes}

theorem write_ok {total n : ℕ} (h : write poll stream total turns = some (.ok n, changes)) :
    n = total + appended changes := by
  induction turns generalizing stream total changes with
  | nil =>
    unfold write at h
    split at h <;> cases h
    rfl
  | cons turn turns ih =>
    unfold write at h
    split at h
    · cases h
    · cases h
      rfl
    · dsimp only at h
      split at h
      · cases h
      · cases h
      · next hrun =>
        obtain ⟨rfl, hafter⟩ := writeAtomic_appends hrun
        rw [if_neg (not_not.mpr rfl)] at h
        obtain ⟨⟨r, later⟩, hrest, hr⟩ := Option.map_eq_some_iff.mp h
        cases hr
        have hlater := ih hrest
        simp only [appended, List.map_cons, List.sum_cons, hafter, List.length_append] at hlater ⊢
        omega

theorem write_error {e : CallError} (hone : OneChunk poll stream)
    (h : write poll stream 0 turns = some (.error e, changes)) : changes = [] := by
  unfold write at h
  split at h
  · cases h
    rfl
  · cases h
  · next hpoll =>
    obtain ⟨rest, hend⟩ := hone _ _ hpoll
    split at h
    · cases h
    · split at h
      · cases h
      · cases h
        rfl
      · next hrun =>
        -- the next poll is the last
        unfold write at h
        rw [if_neg (not_not.mpr (writeAtomic_appends hrun).1), hend] at h
        cases h

/-- A read that fails takes nothing out of the pipe; otherwise it has put what it took into the
buffer. -/
def ReadReports (buffer : UserBuffer) : Except CallError (ℕ × UserBuffer) × Changes → Prop
  | (.error _, changes) => changes = []
  | (.ok (n, buffer'), changes) => ∃ before after bytes, changes = [(before, after)] ∧
    bytes.length = n ∧ before.buffer = bytes ++ after.buffer ∧ buffer'.data = buffer.data ++ bytes

theorem read_reports {writable : ℕ → Bool} {buffer : UserBuffer} {wrap : ℕ} {woken : Bool}
    {turns : Turns} {r : Except CallError (ℕ × UserBuffer) × Changes}
    (h : read writable buffer wrap woken turns = some r) : ReadReports buffer r := by
  induction turns generalizing woken with
  | nil => cases h
  | cons turn turns ih =>
    rw [read] at h
    split_ifs at h
    · cases h
      rfl
    · exact ih h
    · split at h
      · cases h
        rfl
      · next n buffer' hfill =>
        cases h
        obtain ⟨⟨n1, b1⟩, h1, hfill⟩ := bind_eq_ok.mp hfill
        obtain ⟨⟨n2, b2⟩, h2, hfill⟩ := bind_eq_ok.mp hfill
        cases hfill
        cases UserBuffer.fillUser_ok h1
        cases UserBuffer.fillUser_ok h2
        obtain ⟨hsum, hdata⟩ := buffer.fill_fill turn.1.buffer wrap
        rw [hsum, hdata]
        refine ⟨_, _, turn.1.buffer.take (min turn.1.buffer.length buffer.remaining), rfl, ?_,
          (List.take_append_drop _ _).symm, rfl⟩
        rw [List.length_take, Nat.min_eq_left (Nat.min_le_left _ _)]

end Dlutos.Pipes
