import Dlutos.Sync.Futex

/-!
# Robust lists

`RobustListHead::wake_all` of `kernel/task/futex.rs` follows the pointers that a thread has left in
user memory, until it comes back to the first entry, to zero or to an address that cannot be read.
Nothing bounds the number of entries, and pointers may run into a cycle without the first entry.
-/

namespace Dlutos

structure RobustListHead where
  /-- `robust_list.next` -/
  next : ℕ
  futexOffset : ℤ
  listOpPending : ℕ

namespace RobustListHead

def futexAddr (head : RobustListHead) (entryPtr : ℕ) : ℕ :=
  ((head.futexOffset + entryPtr) % 2 ^ 64).toNat

/-- The key under which `wake_all` wakes the futex of an entry. -/
def key (head : RobustListHead) (entryPtr : ℕ) : FutexKey := ⟨head.futexAddr entryPtr, none⟩

/-- The loop of `wake_all`: whether it ends without `EFAULT`, and the keys it wakes. `none` says that
it is still running. -/
def wakeLoop (head : RobustListHead) (memory : ℕ → Option ℕ) :
    ℕ → ℕ → Option (Bool × List FutexKey)
  | 0, _ => none
  | fuel + 1, entryPtr =>
    match memory entryPtr with
    | none => some (false, [head.key entryPtr])
    | some next =>
      if next = head.next ∨ next = 0 then some (true, [head.key entryPtr])
      else (head.wakeLoop memory fuel next).map fun r => (r.1, head.key entryPtr :: r.2)

def wakeAll (head : RobustListHead) (memory : ℕ → Option ℕ) (fuel : ℕ) :
    Option (Bool × List FutexKey) :=
  if head.next = 0 then some (true, [])
  else (head.wakeLoop memory fuel head.next).map fun r =>
    if r.1 = true ∧ head.listOpPending ≠ 0 then (true, r.2 ++ [head.key head.listOpPending]) else r

/-- From the entry the pointers lead to the first entry, to zero or to an address that cannot be
read. -/
inductive Ends (head : RobustListHead) (memory : ℕ → Option ℕ) : ℕ → Prop
  | fault {entryPtr : ℕ} (h : memory entryPtr = none) : Ends head memory entryPtr
  | stop {entryPtr next : ℕ} (h : memory entryPtr = some next) (hn : next = head.next ∨ next = 0) :
    Ends head memory entryPtr
  | step {entryPtr next : ℕ} (h : memory entryPtr = some next) (hn : Ends head memory next) :
    Ends head memory entryPtr

/-- The entries of a list whose head is at `addr`: the last one points to the head, and the head to
the first one or to itself. -/
structure Circular (head : RobustListHead) (memory : ℕ → Option ℕ) (addr : ℕ) (entries : List ℕ) :
    Prop where
  first : (entries ++ [addr]).head? = some head.next
  links : (entries ++ [addr] ++ [head.next]).IsChain fun a b => memory a = some b
  nodup : (entries ++ [addr]).Nodup
  nonzero : 0 ∉ entries ++ [addr]

variable {head : RobustListHead} {memory : ℕ → Option ℕ}

theorem wakeLoop_returns_iff {entryPtr : ℕ} :
    (∃ fuel, (head.wakeLoop memory fuel entryPtr).isSome) ↔ head.Ends memory entryPtr := by
  constructor
  · rintro ⟨fuel, h⟩
    induction fuel generalizing entryPtr with
    | zero => cases h
    | succ fuel ih =>
      unfold wakeLoop at h
      cases hm : memory entryPtr with
      | none => exact .fault hm
      | some next =>
        rw [hm] at h
        dsimp only at h
        split at h
        · next hn => exact .stop hm hn
        · exact .step hm (ih (by simpa using h))
  · intro h
    induction h with
    | fault h => exact ⟨1, by simp [wakeLoop, h]⟩
    | stop h hn => exact ⟨1, by simp [wakeLoop, h, hn]⟩
    | @step _ next h _ ih =>
      obtain ⟨fuel, hr⟩ := ih
      by_cases hn : next = head.next ∨ next = 0
      · exact ⟨1, by simp [wakeLoop, h, hn]⟩
      · exact ⟨fuel + 1, by simp [wakeLoop, h, hn, hr]⟩

theorem wakeLoop_of_chain (l : List ℕ) : ∀ entryPtr,
    (entryPtr :: l ++ [head.next]).IsChain (fun a b => memory a = some b) →
      (∀ a ∈ l, a ≠ head.next ∧ a ≠ 0) →
      head.wakeLoop memory (l.length + 1) entryPtr = some (true, (entryPtr :: l).map head.key) := by
  induction l with
  | nil =>
    intro entryPtr hl _
    have hlink : memory entryPtr = some head.next := by simpa using hl
    simp [wakeLoop, hlink]
  | cons next l ih =>
    intro entryPtr hl hne
    obtain ⟨hlink, hrest⟩ := List.isChain_cons_cons.mp hl
    have hloop := ih next hrest fun a ha => hne a (List.mem_cons_of_mem _ ha)
    rw [List.length_cons, wakeLoop, hlink]
    simp [hne next List.mem_cons_self, hloop]

end RobustListHead

end Dlutos
