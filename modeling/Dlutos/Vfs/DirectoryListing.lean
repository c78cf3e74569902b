import Dlutos.Pipe.Pipe
import Dlutos.Vfs.Dcache

/-!
# Listing a directory

`File::getdents64` of `kernel/vfs/file/inode_file.rs` over the `do_readdir` of tmpfs and of ext4,
for a directory that does not change.  A call puts records of `posix_types/src/getdent.rs` into the
user's buffer until one does not fit, and the cursor of the descriptor advances by the number of
entries that were put there.  User memory is accessible; the entries of an ext4 directory are those
that the library lists.
-/

namespace Dlutos.Vfs

open Pipes (UserBuffer)

/-- An entry of a directory.  Names are components of paths, which have at most
`MAX_NAME_LENGTH` bytes and come from strings that end with a zero. -/
structure DirEntry where
  name : Name
  ino : UInt64
  ne_nil : name ≠ []
  length_le : name.length ≤ 255
  zero_notMem : 0 ∉ name

def EFAULT : ℕ := 14

inductive ControlFlow where
  | goOn
  | stop

/-! ### Records -/

/-- A number of `n` bytes in memory, the lowest byte first. -/
def leBytes : ℕ → ℕ → List UInt8
  | 0, _ => []
  | n + 1, x => UInt8.ofNat x :: leBytes n (x / 256)

def ofLeBytes : List UInt8 → ℕ
  | [] => 0
  | b :: l => b.toNat + 256 * ofLeBytes l

@[simp] theorem length_leBytes (n x : ℕ) : (leBytes n x).length = n := by
  induction n generalizing x with
  | zero => rfl
  | succ n ih => rw [leBytes, List.length_cons, ih]

theorem ofLeBytes_leBytes {n x : ℕ} (h : x < 256 ^ n) : ofLeBytes (leBytes n x) = x := by
  induction n generalizing x with
  | zero => exact (Nat.lt_one_iff.mp h).symm
  | succ n ih =>
    have hdiv : x / 256 < 256 ^ n := Nat.div_lt_of_lt_mul (by rwa [pow_succ, mul_comm] at h)
    rw [leBytes, ofLeBytes, ih hdiv, UInt8.toNat_ofNat']
    exact Nat.mod_add_div x 256

structure UserDirent64 where
  d_ino : UInt64
  d_off : UInt64 := 0
  d_reclen : UInt16
  d_type : UInt8 := 0

def UserDirent64.bytes (r : UserDirent64) : List UInt8 :=
  leBytes 8 r.d_ino.toNat ++ leBytes 8 r.d_off.toNat ++ leBytes 2 r.d_reclen.toNat ++ [r.d_type]

def DirEntry.recordLen (e : DirEntry) : ℕ := 19 + e.name.length + 1

def DirEntry.record (e : DirEntry) : UserDirent64 :=
  { d_ino := e.ino, d_reclen := UInt16.ofNat e.recordLen }

/-- How a user program reads the records: a name ends with the first zero, and the next record
begins `d_reclen` bytes further on. -/
def decode : ℕ → List UInt8 → Option (List (ℕ × Name))
  | _, [] => some []
  | 0, _ => none
  | fuel + 1, l =>
    let reclen := ofLeBytes ((l.drop 16).take 2)
    if reclen < 20 ∨ l.length < reclen then none
    else
      (decode fuel (l.drop reclen)).map
        ((ofLeBytes (l.take 8), (l.drop 19).takeWhile (· ≠ 0)) :: ·)

/-! ### The calls -/

def fillAll (b : UserBuffer) (data : List UInt8) : Except ℕ UserBuffer :=
  match b.fill data with
  | (.done _, b') => .ok b'
  | _ => .error EFAULT

/-- The callback of `getdents64`. -/
def putRecord (b : UserBuffer) (e : DirEntry) : Except ℕ (ControlFlow × UserBuffer) :=
  if b.remaining < e.recordLen then .ok (.stop, b)
  else do
    let b ← fillAll b e.record.bytes
    let b ← fillAll b e.name
    let b ← fillAll b [0]
    return (.goOn, b)

/-- The callback is called on one entry after the other until it breaks or fails.  These are the
lazy adaptors `map`, `take_while`, `take_while_inclusive` and `fold_ok` of tmpfs, and the `for` loop
of ext4. -/
def readdirLoop (callback : UserBuffer → DirEntry → Except ℕ (ControlFlow × UserBuffer)) :
    List DirEntry → ℕ → UserBuffer → Except ℕ (ℕ × UserBuffer)
  | [], count, b => .ok (count, b)
  | e :: rest, count, b =>
    match callback b e with
    | .error errno => .error errno
    | .ok (.stop, b') => .ok (count, b')
    | .ok (.goOn, b') => readdirLoop callback rest (count + 1) b'

inductive DirFs where
  | tmpfs
  | ext4

def DirFs.doReaddir (entries : List DirEntry) (offset : ℕ)
    (callback : UserBuffer → DirEntry → Except ℕ (ControlFlow × UserBuffer)) (b : UserBuffer) :
    DirFs → Except ℕ (ℕ × UserBuffer)
  | .tmpfs => readdirLoop callback (entries.drop offset) 0 b
  | .ext4 =>
    readdirLoop callback (if offset < entries.length then entries.drop offset else []) 0 b

/-- A call with a buffer of `size` bytes: what it leaves there, and the new cursor. -/
def getdents64 (fs : DirFs) (entries : List DirEntry) (cursor size : ℕ) :
    Except ℕ (List UInt8 × ℕ) := do
  let (nread, b) ← fs.doReaddir entries cursor putRecord { size }
  return (b.data, cursor + nread)

/-- Successive calls on one descriptor, with buffers of the given sizes. -/
def listing (fs : DirFs) (entries : List DirEntry) : List ℕ → ℕ → Except ℕ (List (List UInt8))
  | [], _ => .ok []
  | size :: sizes, cursor => do
    let (data, cursor') ← getdents64 fs entries cursor size
    let rest ← listing fs entries sizes cursor'
    return data :: rest

/-! ### What the calls leave in the buffers -/

namespace DirEntry

variable (e : DirEntry)

def encoded : List UInt8 := e.record.bytes ++ e.name ++ [0]

/-- What a record stands for. -/
def key : ℕ × Name := (e.ino.toNat, e.name)

theorem length_bytes (r : UserDirent64) : r.bytes.length = 19 := by
  simp [UserDirent64.bytes]

theorem length_encoded : e.encoded.length = e.recordLen := by
  simp [encoded, recordLen, length_bytes]
  omega

theorem decode_encoded (fuel : ℕ) (l : List UInt8) :
    decode (fuel + 1) (e.encoded ++ l) = (decode fuel l).map (e.key :: ·) := by
  have hlen := e.length_encoded
  have hshort : e.recordLen < 65536 := by
    have := e.length_le
    unfold recordLen
    omega
  have hino : ofLeBytes ((e.encoded ++ l).take 8) = e.ino.toNat := by
    have h : (e.encoded ++ l).take 8 = leBytes 8 e.ino.toNat := by
      simp [encoded, UserDirent64.bytes, record]
    rw [h, ofLeBytes_leBytes (by simpa using e.ino.toNat_lt)]
  have hreclen : ofLeBytes (((e.encoded ++ l).drop 16).take 2) = e.recordLen := by
    have h : ((e.encoded ++ l).drop 16).take 2 = leBytes 2 e.recordLen := by
      simp [encoded, UserDirent64.bytes, record, List.drop_append, List.drop_of_length_le,
        Nat.mod_eq_of_lt hshort]
    rw [h, ofLeBytes_leBytes hshort]
  have hname : ((e.encoded ++ l).drop 19).takeWhile (· ≠ 0) = e.name := by
    have h : (e.encoded ++ l).drop 19 = e.name ++ 0 :: l := by
      simp [encoded, length_bytes]
    rw [h, List.takeWhile_append_of_pos]
    · simp
    · intro b hb
      exact decide_eq_true fun h => e.zero_notMem (h ▸ hb)
  have hne : e.encoded ++ l ≠ [] := by simp [encoded]
  rw [decode.eq_3 _ _ hne, hreclen, hino, hname, if_neg, List.drop_left' hlen]
  · rfl
  · rw [List.length_append, hlen]
    unfold recordLen
    omega

end DirEntry

theorem decode_flatMap (l : List DirEntry) {fuel : ℕ} (h : l.length ≤ fuel) :
    decode fuel (l.flatMap DirEntry.encoded) = some (l.map DirEntry.key) := by
  induction l generalizing fuel with
  | nil => cases fuel <;> rfl
  | cons e l ih =>
    obtain ⟨fuel, rfl⟩ : ∃ n, fuel = n + 1 := ⟨fuel - 1, by rw [List.length_cons] at h; omega⟩
    rw [List.flatMap_cons, e.decode_encoded, ih (Nat.le_of_succ_le_succ h)]
    rfl

theorem fillAll_eq {b : UserBuffer} {data : List UInt8} (hne : data ≠ [])
    (h : data.length ≤ b.remaining) : fillAll b data = .ok { b with data := b.data ++ data } := by
  have hpos := List.length_pos_iff.mpr hne
  unfold fillAll UserBuffer.fill
  rw [Nat.min_eq_left h]
  simp only [if_neg (Nat.ne_of_gt hpos), if_true, List.take_length]

theorem putRecord_eq {b : UserBuffer} {e : DirEntry} (h : e.recordLen ≤ b.remaining) :
    putRecord b e = .ok (.goOn, { b with data := b.data ++ e.encoded }) := by
  have hlen := DirEntry.length_bytes e.record
  unfold UserBuffer.remaining DirEntry.recordLen at h
  have hrecord : e.record.bytes ≠ [] := List.ne_nil_of_length_pos (by omega)
  unfold putRecord
  rw [if_neg (by unfold UserBuffer.remaining DirEntry.recordLen; omega)]
  rw [fillAll_eq hrecord (by unfold UserBuffer.remaining; omega), ExceptLoop.ok_bind,
    fillAll_eq e.ne_nil, ExceptLoop.ok_bind, fillAll_eq (List.cons_ne_nil _ _), ExceptLoop.ok_bind]
  · simp [DirEntry.encoded]
    rfl
  all_goals
    simp only [UserBuffer.remaining, List.length_append, List.length_singleton]
    omega

/-- The loop puts the records of some first entries into the buffer, at least one if there is room
for it. -/
theorem readdirLoop_putRecord (l : List DirEntry) (count : ℕ) (b : UserBuffer) :
    ∃ k ≤ l.length, readdirLoop putRecord l count b = .ok (count + k,
      { b with data := b.data ++ (l.take k).flatMap DirEntry.encoded }) ∧
      ((∀ e ∈ l, e.recordLen ≤ b.remaining) → l ≠ [] → 0 < k) := by
  induction l generalizing count b with
  | nil => exact ⟨0, le_rfl, by simp [readdirLoop], fun _ h => absurd rfl h⟩
  | cons e l ih =>
    by_cases h : e.recordLen ≤ b.remaining
    · obtain ⟨k, hk, heq, -⟩ := ih (count + 1) { b with data := b.data ++ e.encoded }
      refine ⟨k + 1, Nat.succ_le_succ hk, ?_, fun _ _ => Nat.succ_pos k⟩
      rw [readdirLoop, putRecord_eq h]
      simp only [heq, List.take_succ_cons, List.flatMap_cons, List.append_assoc]
      rw [Nat.add_assoc, Nat.add_comm 1 k]
    · refine ⟨0, Nat.zero_le _, ?_, fun hall _ => absurd (hall e List.mem_cons_self) h⟩
      rw [readdirLoop, putRecord, if_pos (Nat.lt_of_not_le h)]
      simp

variable (fs : DirFs) (entries : List DirEntry)

theorem getdents64_eq (cursor : ℕ) {size : ℕ} (h : ∀ e ∈ entries, e.recordLen ≤ size) :
    ∃ k ≤ (entries.drop cursor).length, getdents64 fs entries cursor size =
      .ok (((entries.drop cursor).take k).flatMap DirEntry.encoded, cursor + k) ∧
      (entries.drop cursor ≠ [] → 0 < k) := by
  obtain ⟨k, hk, heq, hpos⟩ := readdirLoop_putRecord (entries.drop cursor) 0 { size }
  refine ⟨k, hk, ?_, hpos fun e he => h e (List.mem_of_mem_drop he)⟩
  have hread : fs.doReaddir entries cursor putRecord { size } =
      readdirLoop putRecord (entries.drop cursor) 0 { size } := by
    cases fs with
    | tmpfs => rfl
    | ext4 =>
      show readdirLoop putRecord (if _ then _ else _) 0 _ = _
      split
      · rfl
      · next hlen => rw [List.drop_of_length_le (Nat.le_of_not_lt hlen)]
  unfold getdents64
  rw [hread, heq, Nat.zero_add, List.nil_append]
  rfl

/-- What successive calls have listed when they start at the cursor: `parts` are the entries that
each of them has put into its buffer. -/
def Lists (keys : List (ℕ × Name)) (outs : List (List UInt8)) (parts : List (List (ℕ × Name))) :
    Prop :=
  outs.map (fun out => decode out.length out) = parts.map some ∧ parts.flatten <+: keys ∧
    ∀ i out, outs[i]? = some out → (out.length = 0 ↔ (parts.take i).flatten = keys)

theorem Lists.cons {keys : List (ℕ × Name)} {outs : List (List UInt8)}
    {parts : List (List (ℕ × Name))} (h : Lists keys outs parts) {out : List UInt8}
    {part : List (ℕ × Name)} (hout : decode out.length out = some part)
    (hzero : out.length = 0 ↔ part ++ keys = []) : Lists (part ++ keys) (out :: outs)
      (part :: parts) := by
  obtain ⟨hdecode, hprefix, hend⟩ := h
  refine ⟨by rw [List.map_cons, List.map_cons, hdecode, hout], ?_, ?_⟩
  · rw [List.flatten_cons]
    exact (List.prefix_append_right_inj part).mpr hprefix
  · rintro (_ | i) out' hi
    · obtain rfl := Option.some.inj hi
      rw [hzero, List.take_zero, List.flatten_nil, eq_comm]
    · rw [List.take_succ_cons, List.flatten_cons, List.append_cancel_left_eq]
      exact hend i out' hi

theorem lists_of_listing (sizes : List ℕ) (cursor : ℕ)
    (h : ∀ size ∈ sizes, ∀ e ∈ entries, e.recordLen ≤ size) :
    ∃ outs parts, listing fs entries sizes cursor = .ok outs ∧ outs.length = sizes.length ∧
      Lists ((entries.drop cursor).map DirEntry.key) outs parts ∧
      ((entries.drop cursor).length ≤ sizes.length →
        parts.flatten = (entries.drop cursor).map DirEntry.key) := by
  induction sizes generalizing cursor with
  | nil =>
    refine ⟨[], [], rfl, rfl, ⟨rfl, List.nil_prefix, fun i out hi => (nomatch hi)⟩, fun hlen => ?_⟩
    rw [List.eq_nil_of_length_eq_zero (Nat.le_zero.mp hlen)]
    rfl
  | cons size sizes ih =>
    obtain ⟨k, hk, hcall, hpos⟩ := getdents64_eq fs entries cursor (h size List.mem_cons_self)
    obtain ⟨outs, parts, hrest, hlen, hlists, hall⟩ :=
      ih (cursor + k) fun size hs => h size (List.mem_cons_of_mem _ hs)
    set todo := entries.drop cursor with htodo
    rw [← List.drop_drop, ← htodo] at hlists hall
    have hkeys : todo.map DirEntry.key =
        (todo.take k).map DirEntry.key ++ (todo.drop k).map DirEntry.key := by
      rw [← List.map_append, List.take_append_drop]
    have hlong : ∀ l : List DirEntry, l.length ≤ (l.flatMap DirEntry.encoded).length := by
      intro l
      induction l with
      | nil => exact le_rfl
      | cons e l ih =>
        rw [List.flatMap_cons, List.length_append, e.length_encoded, List.length_cons]
        unfold DirEntry.recordLen
        omega
    refine ⟨(todo.take k).flatMap DirEntry.encoded :: outs, (todo.take k).map DirEntry.key :: parts,
      ?_, by rw [List.length_cons, List.length_cons, hlen], ?_, fun hle => ?_⟩
    · simp only [listing, hcall, ExceptLoop.ok_bind, hrest]
      rfl
    · rw [hkeys]
      refine hlists.cons (decode_flatMap _ (hlong _)) ?_
      rw [← hkeys, List.map_eq_nil_iff, List.length_eq_zero_iff]
      constructor
      · intro hnil
        by_contra hne
        have hshort := hlong (todo.take k)
        rw [hnil, List.length_take_of_le hk] at hshort
        exact absurd (hpos hne) (by simpa using hshort)
      · intro hnil
        rw [hnil, List.take_nil]
        rfl
    · rw [List.flatten_cons, hkeys, hall]
      by_cases hne : todo = []
      · simp [hne]
      · have := hpos hne
        rw [List.length_drop]
        rw [List.length_cons] at hle
        omega

/-- Calls whose buffers have room for the largest record list every entry once and in order; each
call returns zero if and only if the calls before it have listed all entries. -/
theorem listing_complete (sizes : List ℕ)
    (h : ∀ size ∈ sizes, ∀ e ∈ entries, e.recordLen ≤ size) :
    ∃ (outs : List (List UInt8)) (parts : List (List (ℕ × Name))),
      listing fs entries sizes 0 = .ok outs ∧ outs.length = sizes.length ∧
      outs.map (fun out => decode out.length out) = parts.map some ∧
      parts.flatten <+: entries.map DirEntry.key ∧
      (entries.length ≤ sizes.length → parts.flatten = entries.map DirEntry.key) ∧
      ∀ i out, outs[i]? = some out →
        (out.length = 0 ↔ (parts.take i).flatten = entries.map DirEntry.key) := by
  obtain ⟨outs, parts, hlisting, hlen, ⟨hdecode, hprefix, hend⟩, hall⟩ :=
    lists_of_listing fs entries sizes 0 h
  exact ⟨outs, parts, hlisting, hlen, hdecode, hprefix, hall, hend⟩

/-- Two calls on a directory with one entry. -/
theorem listing_dot : ∃ (outs : List (List UInt8)) (parts : List (List (ℕ × Name))),
    listing .tmpfs [⟨DOT, 1, by decide, by decide, by decide⟩] [21, 21] 0 = .ok outs ∧
      outs.map (fun out => decode out.length out) = parts.map some ∧ parts.flatten = [(1, DOT)] := by
  obtain ⟨outs, parts, hlisting, -, hdecode, -, hall, -⟩ := listing_complete .tmpfs
    [⟨DOT, 1, by decide, by decide, by decide⟩] [21, 21] (by decide)
  exact ⟨outs, parts, hlisting, hdecode, hall (by decide)⟩

end Dlutos.Vfs
