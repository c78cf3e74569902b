import Dlutos.AddressSpace.AreaSet

/-!
# Strings in user memory

`UserString` of `kernel/user/dataflow.rs`.  The fix table sends a load that faults to the end of the
loop, where the counter is the same as after a load of the final null byte.
-/

namespace Dlutos

/-- The byte that a load gives, `none` where the page fault handler finds nothing to map. -/
abbrev UserBytes := ℕ → Option UInt8

def USER_MAX_ADDR : ℕ := 0x7fffffffffff

def CheckedUserPointer.new (ptr len : ℕ) : KResult ℕ :=
  if ptr = 0 ∨ USER_MAX_ADDR < ptr + len then .error .EFAULT else .ok ptr

structure UserString where
  ptr : ℕ
  len : ℕ

namespace UserString

def MAX_LEN : ℕ := 4096

/-- The loop of `UserString::new` with its registers `a0` and `a1`; `a0` is the result. -/
def scan (mem : UserBytes) : ℕ → ℕ → ℕ
  | 0, _ => 0
  | a0 + 1, a1 =>
    match mem a1 with
    -- `try_page_fault_fix` jumps to the end of the loop
    | none => a0 + 1
    | some t0 => if t0 = 0 then a0 + 1 else scan mem a0 (a1 + 1)

def new (mem : UserBytes) (ptr : ℕ) : KResult UserString := do
  let ptr ← CheckedUserPointer.new ptr MAX_LEN
  let result := scan mem MAX_LEN ptr
  if result = 0 then .error .EFAULT else .ok ⟨ptr, MAX_LEN - result⟩

/-- Reading the bytes of `as_cstr` ends in `kernel_page_fault_die`: these loads are not in the fix
table. -/
def readDies (mem : UserBytes) (s : UserString) : Bool :=
  (List.range (s.len + 1)).any fun i => (mem (s.ptr + i)).isNone

/-- `l` bytes of a string, without a null byte. -/
def Text (mem : UserBytes) (ptr l : ℕ) : Prop := ∀ i < l, ∃ b ≠ 0, mem (ptr + i) = some b

/-- A string of length `l` that `MAX_LEN` allows. -/
def IsCstr (mem : UserBytes) (ptr l : ℕ) : Prop :=
  l < MAX_LEN ∧ Text mem ptr l ∧ mem (ptr + l) = some 0

theorem scan_spec (mem : UserBytes) (n ptr : ℕ) : ∃ l ≤ n, Text mem ptr l ∧
    scan mem n ptr = n - l ∧ (l = n ∨ mem (ptr + l) = none ∨ mem (ptr + l) = some 0) := by
  induction n generalizing ptr with
  | zero => exact ⟨0, le_rfl, fun _ hi => absurd hi (Nat.not_lt_zero _), rfl, Or.inl rfl⟩
  | succ n ih =>
    have hnil : Text mem ptr 0 := fun _ hi => absurd hi (Nat.not_lt_zero _)
    cases hb : mem ptr with
    | none => exact ⟨0, Nat.zero_le _, hnil, by rw [scan, hb]; rfl, Or.inr (Or.inl hb)⟩
    | some b =>
      by_cases hzero : b = 0
      · subst hzero
        exact ⟨0, Nat.zero_le _, hnil, by rw [scan, hb]; rfl, Or.inr (Or.inr hb)⟩
      · obtain ⟨l, hl, htext, hscan, hend⟩ := ih (ptr + 1)
        refine ⟨l + 1, by omega, fun i hi => ?_, ?_, ?_⟩
        · cases i with
          | zero => exact ⟨b, hzero, hb⟩
          | succ i =>
            rw [show ptr + (i + 1) = ptr + 1 + i by omega]
            exact htext i (by omega)
        · simp only [scan, hb, if_neg hzero, hscan]
          omega
        · rw [show ptr + (l + 1) = ptr + 1 + l by omega]
          exact hend.imp_left (congrArg _)

theorem IsCstr.unique {mem : UserBytes} {ptr l l' : ℕ} (h : IsCstr mem ptr l)
    (htext : Text mem ptr l') (hend : l' = MAX_LEN ∨ mem (ptr + l') = some 0) : l = l' := by
  obtain ⟨hlt, htext', hzero⟩ := h
  rcases Nat.lt_trichotomy l l' with hll | hll | hll
  · obtain ⟨b, hb, hmem⟩ := htext l hll
    rw [hzero] at hmem
    exact absurd (Option.some.inj hmem).symm hb
  · exact hll
  · obtain ⟨b, hb, hmem⟩ := htext' l' hll
    rw [hend.resolve_left (by omega)] at hmem
    exact absurd (Option.some.inj hmem).symm hb

end UserString

end Dlutos
