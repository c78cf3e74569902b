import Dlutos.AddressSpace.AreaSet
import Dlutos.Foundation.ExceptLoop

/-!
# The stream of `writev`

`IovStream` of `kernel/syscall/file_rw.rs` over the `UserStream`s of `kernel/user/dataflow.rs`.
However a file polls it and skips bytes, it gets what one flat list of bytes would give.
-/

namespace Dlutos

open ExceptLoop

/-- The bytes of user memory that are left, `none` where memory cannot be read. -/
abbrev UserStream := List (Option UInt8)

namespace UserStream

/-- `poll_data` with a buffer of `size` bytes: how many bytes were read, and the bytes. -/
def pollData (p : UserStream) (size : ℕ) : KResult (Option (ℕ × List UInt8) × UserStream) :=
  if p = [] then .ok (none, p)
  else
    match (p.take size).mapM id with
    | none => .error .EFAULT
    | some data => .ok (some (data.length, data), p.drop size)

/-- `ignore`, which puts nothing into a buffer. -/
def ignore (p : UserStream) (len : ℕ) : KResult (Option (ℕ × List UInt8) × UserStream) :=
  if p = [] then .ok (none, p) else .ok (some (min len p.length, []), p.drop len)

end UserStream

/-- The streams from `current` on. -/
abbrev IovStream := List UserStream

namespace IovStream

/-- `do_writev` leaves out empty vectors. -/
def new (iov : List UserStream) : IovStream := iov.filter (!·.isEmpty)

/-- The loop of `poll_data` and `ignore`, which differ in the `call` on the current stream: how many
bytes are counted, those in the buffer, and the streams that are left. -/
def transfer (call : UserStream → ℕ → KResult (Option (ℕ × List UInt8) × UserStream))
    (size filled : ℕ) (buf : List UInt8) (s : IovStream) : KResult (ℕ × List UInt8 × IovStream) :=
  if filled < size then
    match s.dropWhile (·.isEmpty) with
    | [] => .ok (filled, buf, [])
    | p :: s => do
      match ← call p (size - filled) with
      | (none, p) => pure (filled, buf, p :: s)
      | (some (count, data), p) =>
        if count = 0 then pure (filled, buf, p :: s)
        else transfer call size (filled + count) (buf ++ data) (if p = [] then s else p :: s)
  else .ok (filled, buf, s)
termination_by size - filled

/-- What the loop returns: `none` when no byte was counted. -/
def total (result : ℕ × List UInt8 × IovStream) : Option (ℕ × List UInt8) × IovStream :=
  (if result.1 = 0 then none else some (result.1, result.2.1), result.2.2)

def pollData (s : IovStream) (size : ℕ) : KResult (Option (ℕ × List UInt8) × IovStream) :=
  total <$> transfer UserStream.pollData size 0 [] s

def ignore (s : IovStream) (len : ℕ) : KResult (Option (ℕ × List UInt8) × IovStream) :=
  total <$> transfer UserStream.ignore len 0 [] s

end IovStream

/-- A call of `poll_data` or, if not `poll`, of `ignore`. -/
structure StreamCall where
  poll : Bool
  len : ℕ

def IovStream.call (s : IovStream) (call : StreamCall) :
    KResult (Option (ℕ × List UInt8) × IovStream) :=
  if call.poll then s.pollData call.len else s.ignore call.len

def IovStream.run : IovStream → List StreamCall → KResult (List (Option (ℕ × List UInt8)))
  | _, [] => .ok []
  | s, call :: calls => do
    let (result, s) ← s.call call
    return result :: (← run s calls)

/-- The calls on a flat list of bytes. -/
def flatRun : List UInt8 → List StreamCall → List (Option (ℕ × List UInt8))
  | _, [] => []
  | bytes, ⟨poll, len⟩ :: calls =>
    (if bytes = [] then none
      else some ((bytes.take len).length, if poll then bytes.take len else [])) ::
      flatRun (bytes.drop len) calls

/-! ### The loop -/

namespace IovStream

/-- The streams over readable memory with the given contents. -/
def plain (bss : List (List UInt8)) : IovStream := bss.map (·.map some)

theorem flatten_dropWhile (bss : List (List UInt8)) :
    (bss.dropWhile (·.isEmpty)).flatten = bss.flatten := by
  induction bss with
  | nil => rfl
  | cons bs bss ih => cases bs <;> simp_all

theorem take_drop_append (a t : List UInt8) (n : ℕ) :
    (a ++ t).take n = a.take n ++ (a.drop n ++ t).take (n - (a.take n).length) ∧
      (a ++ t).drop n = (a.drop n ++ t).drop (n - (a.take n).length) := by
  have h : a ++ t = a.take n ++ (a.drop n ++ t) := by
    rw [← List.append_assoc, List.take_append_drop]
  constructor
  · conv_lhs => rw [h, List.take_append, List.take_take, Nat.min_self]
  · conv_lhs =>
      rw [h, List.drop_append, List.drop_take, Nat.sub_self, List.take_zero, List.nil_append]

variable {f : UserStream → ℕ → KResult (Option (ℕ × List UInt8) × UserStream)} {k : Bool}

/-- By induction on the space that is left. -/
theorem transfer_plain (hf : ∀ (bs : List UInt8) n, bs ≠ [] → f (bs.map some) n =
      .ok (some ((bs.take n).length, if k then bs.take n else []), (bs.drop n).map some))
    (size filled : ℕ) (buf : List UInt8) (bss : List (List UInt8)) :
    ∃ bss', transfer f size filled buf (plain bss) =
        .ok (filled + (bss.flatten.take (size - filled)).length,
          buf ++ (if k then bss.flatten.take (size - filled) else []), plain bss') ∧
      bss'.flatten = bss.flatten.drop (size - filled) := by
  induction hn : size - filled using Nat.strongRecOn generalizing filled buf bss with
  | _ n ih =>
    rw [transfer]
    split
    · have hskip : (plain bss).dropWhile (·.isEmpty) = plain (bss.dropWhile (·.isEmpty)) := by
        unfold plain
        rw [List.dropWhile_map]
        congr 2
        funext bs
        simp
      rw [hskip, ← flatten_dropWhile bss]
      cases hbss : bss.dropWhile (·.isEmpty) with
      | nil => exact ⟨[], by simp [plain], by simp⟩
      | cons bs rest =>
        have hbs : bs ≠ [] := by
          have := List.head?_dropWhile_not (fun bs : List UInt8 => bs.isEmpty) bss
          simpa [hbss] using this
        obtain ⟨htake, hdrop⟩ := take_drop_append bs rest.flatten n
        have hlen : (bs.take n).length ≠ 0 := by
          rw [List.length_take]
          have := List.length_pos_iff.2 hbs
          omega
        have hnext : (if (bs.drop n).map some = [] then plain rest
            else (bs.drop n).map some :: plain rest) =
            plain (if bs.drop n = [] then rest else bs.drop n :: rest) := by
          simp only [List.map_eq_nil_iff]
          split <;> rfl
        have hflat : (if bs.drop n = [] then rest else bs.drop n :: rest).flatten =
            bs.drop n ++ rest.flatten := by
          split <;> simp_all
        obtain ⟨bss', hrun, hrest⟩ := ih (n - (bs.take n).length) (by omega)
          (filled + (bs.take n).length) (buf ++ if k then bs.take n else [])
          (if bs.drop n = [] then rest else bs.drop n :: rest) (by omega)
        rw [hflat] at hrun hrest
        refine ⟨bss', ?_, ?_⟩
        · have hcons : plain (bs :: rest) = bs.map some :: plain rest := rfl
          simp only [hcons, hn, hf bs n hbs, ok_bind, hlen, if_false]
          rw [hnext, hrun, List.flatten_cons, htake]
          cases k <;> simp [Nat.add_assoc]
        · rw [hrest, List.flatten_cons, hdrop]
    · refine ⟨bss, ?_, ?_⟩
      · simp [show n = 0 by omega]
      · simp [show n = 0 by omega]

theorem mapM_map_some (bs : List UInt8) : (bs.map some).mapM id = some bs := by
  induction bs with
  | nil => rfl
  | cons b bs ih => simp [ih]

theorem pollData_some {bs : List UInt8} (hbs : bs ≠ []) (n : ℕ) :
    UserStream.pollData (bs.map some) n =
      .ok (some ((bs.take n).length, bs.take n), (bs.drop n).map some) := by
  rw [UserStream.pollData, if_neg (by simpa using hbs), ← List.map_take, ← List.map_drop,
    mapM_map_some]

theorem call_plain {call : StreamCall} (h : 0 < call.len) (bss : List (List UInt8)) :
    ∃ bss', (plain bss).call call = .ok (if bss.flatten = [] then none else
          some ((bss.flatten.take call.len).length,
            if call.poll then bss.flatten.take call.len else []), plain bss') ∧
      bss'.flatten = bss.flatten.drop call.len := by
  obtain ⟨poll, len⟩ := call
  have hzero : (bss.flatten.take len).length = 0 ↔ bss.flatten = [] := by
    rw [List.length_eq_zero_iff, List.take_eq_nil_iff, or_iff_right h.ne']
  cases poll with
  | true =>
    obtain ⟨bss', hrun, hrest⟩ :=
      transfer_plain (k := true) (fun _ n hbs => pollData_some hbs n) len 0 [] bss
    refine ⟨bss', ?_, hrest⟩
    change total <$> transfer UserStream.pollData len 0 [] _ = _
    rw [hrun, Nat.zero_add, Nat.sub_zero]
    simp only [Functor.map, Except.map, total, hzero]
    rfl
  | false =>
    obtain ⟨bss', hrun, hrest⟩ := transfer_plain (f := UserStream.ignore) (k := false)
      (fun bs n hbs => by simp [UserStream.ignore, hbs]) len 0 [] bss
    refine ⟨bss', ?_, hrest⟩
    change total <$> transfer UserStream.ignore len 0 [] _ = _
    rw [hrun, Nat.zero_add, Nat.sub_zero]
    simp only [Functor.map, Except.map, total, hzero]
    rfl

theorem run_plain {calls : List StreamCall} (hcalls : ∀ call ∈ calls, 0 < call.len)
    (bss : List (List UInt8)) : (plain bss).run calls = .ok (flatRun bss.flatten calls) := by
  induction calls generalizing bss with
  | nil => rfl
  | cons call calls ih =>
    obtain ⟨hcall, hcalls⟩ := List.forall_mem_cons.1 hcalls
    obtain ⟨bss', hrun, hrest⟩ := call_plain hcall bss
    simp only [run, hrun, ok_bind, ih hcalls, hrest]
    rfl

/-- A stream over readable vectors, some of them maybe empty, gives what their concatenation gives:
every poll is full unless the bytes end, and `none` comes back just when none are left. -/
theorem run_eq_flatRun (iov : List (List UInt8)) (calls : List StreamCall)
    (hcalls : ∀ call ∈ calls, 0 < call.len) :
    (IovStream.new (iov.map (·.map some))).run calls = .ok (flatRun iov.flatten calls) := by
  have hnew : IovStream.new (iov.map (·.map some)) = plain (iov.filter (!·.isEmpty)) := by
    simp [new, plain, List.filter_map, Function.comp_def]
  rw [hnew, run_plain hcalls]
  rw [List.flatten_filter_not_isEmpty]

theorem run_eq_flatRun_empty_vector :
    (IovStream.new ([[97, 98], [], [99]].map (·.map some))).run [⟨false, 1⟩, ⟨true, 4⟩, ⟨true, 1⟩] =
      .ok [some (1, []), some (2, [98, 99]), none] :=
  run_eq_flatRun [[97, 98], [], [99]] _ (by simp)

end IovStream

end Dlutos
