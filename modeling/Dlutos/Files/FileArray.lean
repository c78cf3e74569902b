import Mathlib.Tactic.Ring
import Dlutos.Foundation.SortedMap
import Dlutos.Foundation.ExceptLoop

/-!
# Descriptor tables

`src/kernel/vfs/filearray.rs`: an ordered map from descriptors to open files and the cached least
unused descriptor.  Descriptors are `u32` and the release build wraps `FD(n + 1)`; `fdSucc` keeps
that.  `CursorMut::remove` moves the cursor to the next element, and `move_next` at the end goes on
at the front, which is how `pick` behaves.  `none` in a result stands for `EBADF`.
-/

namespace Dlutos.Files

open ExceptLoop

def FD_MAX : ℕ := 2 ^ 32 - 1

def fdSucc (fd : ℕ) : ℕ := (fd + 1) % 2 ^ 32

/-- `OpenFile`; the only descriptor flag is `FD_CLOEXEC`. -/
structure OpenFile (φ : Type) where
  cloexec : Bool
  file : φ
  deriving DecidableEq

/-- The panics of the table, and a loop that is still running. -/
inductive FdPanic where
  /-- `assert_eq!(new_fd, fd_alloc.allocate_fd(new_fd, files))`. -/
  | otherDescriptor
  /-- "File descriptor already exists in the file array." -/
  | alreadyExists
  | outOfFuel
  deriving DecidableEq

structure FileArray (φ : Type) where
  files : SortedMap ℕ (OpenFile φ)
  minAvail : ℕ

namespace FileArray

variable {φ : Type}

def new : FileArray φ := ⟨.empty, 0⟩

/-! ### Allocation -/

/-- The `fold_while` of `find_available`. -/
def firstGap (current : ℕ) : List ℕ → ℕ
  | [] => current
  | fd :: rest => if current = fd then firstGap (fdSucc current) rest else current

def findAvailable (start : ℕ) (files : SortedMap ℕ (OpenFile φ)) : ℕ :=
  firstGap start ((files.entries.map Prod.fst).filter fun fd => start ≤ fd)

def allocateFd (a : FileArray φ) (start : ℕ) : ℕ × FileArray φ :=
  let start := max start a.minAvail
  if start = a.minAvail then
    (a.minAvail, { a with minAvail := findAvailable (fdSucc start) a.files })
  else (findAvailable start a.files, a)

def nextFd (a : FileArray φ) : ℕ × FileArray φ := a.allocateFd a.minAvail

def releaseFd (a : FileArray φ) (fd : ℕ) : FileArray φ :=
  if fd < a.minAvail then { a with minAvail := fd } else a

def doInsert (a : FileArray φ) (fd : ℕ) (cloexec : Bool) (file : φ) :
    Except FdPanic (FileArray φ) :=
  match a.files.get fd with
  | some _ => .error .alreadyExists
  | none => .ok { a with files := a.files.insert fd ⟨cloexec, file⟩ }

/-! ### New files -/

def addFile (a : FileArray φ) (cloexec : Bool) (file : φ) : Except FdPanic (ℕ × FileArray φ) := do
  let (fd, a) := a.nextFd
  let a ← a.doInsert fd cloexec file
  return (fd, a)

def openFile (a : FileArray φ) (cloexec : Bool) (file : φ) : Except FdPanic (ℕ × FileArray φ) :=
  a.addFile cloexec file

def socket (a : FileArray φ) (file : φ) : Except FdPanic (ℕ × FileArray φ) := a.addFile false file

def eventFile (a : FileArray φ) (file : φ) : Except FdPanic (ℕ × FileArray φ) :=
  a.addFile false file

/-- Allocate two descriptors, then insert two files. -/
def addPair (a : FileArray φ) (cloexec : Bool) (left right : φ) :
    Except FdPanic ((ℕ × ℕ) × FileArray φ) := do
  let (leftFd, a) := a.nextFd
  let (rightFd, a) := a.nextFd
  let a ← a.doInsert leftFd cloexec left
  let a ← a.doInsert rightFd cloexec right
  return ((leftFd, rightFd), a)

def pipe (a : FileArray φ) (cloexec : Bool) (readEnd writeEnd : φ) :
    Except FdPanic ((ℕ × ℕ) × FileArray φ) :=
  a.addPair cloexec readEnd writeEnd

def socketpair (a : FileArray φ) (cloexec : Bool) (left right : φ) :
    Except FdPanic ((ℕ × ℕ) × FileArray φ) :=
  a.addPair cloexec left right

/-! ### Duplicates -/

def dup (a : FileArray φ) (oldFd : ℕ) : Except FdPanic (Option ℕ × FileArray φ) :=
  match a.files.get oldFd with
  | none => .ok (none, a)
  | some oldFile => do
    let (fd, a) ← a.addFile oldFile.cloexec oldFile.file
    return (some fd, a)

/-- `FileArray::dup_to_no_close`: the file that was there before, if there was one. -/
def dupTo (a : FileArray φ) (oldFd newFd : ℕ) (cloexec : Bool) :
    Except FdPanic (Option (Option φ) × FileArray φ) :=
  match a.files.get oldFd with
  | none => .ok (none, a)
  | some oldFile =>
    match a.files.get newFd with
    | none => do
      let (fd, a) := a.allocateFd newFd
      assertOr (newFd = fd) .otherDescriptor
      let a ← a.doInsert newFd cloexec oldFile.file
      return (some none, a)
    | some file =>
      .ok (some (some file.file),
        { a with files := a.files.insert newFd ⟨cloexec, oldFile.file⟩ })

/-- `FileArray::fcntl` with `F_DUPFD` (`cloexec = false`) or `F_DUPFD_CLOEXEC`. -/
def fcntlDup (a : FileArray φ) (oldFd : ℕ) (cloexec : Bool) (arg : ℕ) :
    Except FdPanic (Option ℕ × FileArray φ) :=
  match a.files.get oldFd with
  | none => .ok (none, a)
  | some oldFile => do
    let (fd, a) := a.allocateFd (arg % 2 ^ 32)
    let a ← a.doInsert fd (cloexec || oldFile.cloexec) oldFile.file
    return (some fd, a)

/-- `FileArray::fcntl` with `F_SETFD`, and `FileArray::set_cloexec`. -/
def setFlags (a : FileArray φ) (fd : ℕ) (cloexec : Bool) : FileArray φ :=
  match a.files.get fd with
  | none => a
  | some ofile => { a with files := a.files.insert fd { ofile with cloexec := cloexec } }

/-! ### Closing -/

def close (a : FileArray φ) (fd : ℕ) : Option φ × FileArray φ :=
  match a.files.get fd with
  | none => (none, a)
  | some ofile => (some ofile.file, { a with files := a.files.erase fd }.releaseFd fd)

def closeAll (a : FileArray φ) : List (OpenFile φ) × FileArray φ :=
  (a.files.entries.map Prod.snd, ⟨.empty, 0⟩)

/-- The loop of `FilesExt::pick`: `remove` moves the cursor on, and `move_next` goes one further,
from the end to the front. -/
def pickLoop (pred : ℕ → OpenFile φ → Bool) : ℕ → FileArray φ → Option ℕ →
    SortedMap ℕ (OpenFile φ) → Except FdPanic (SortedMap ℕ (OpenFile φ) × FileArray φ)
  | 0, _, _, _ => .error .outOfFuel
  | fuel + 1, a, cursor, picked =>
    match cursor with
    | none => .ok (picked, a)
    | some fd =>
      match a.files.get fd with
      | none => .ok (picked, a)
      | some ofile =>
        if pred fd ofile then
          let a := { a with files := a.files.erase fd }.releaseFd fd
          let cursor :=
            match a.files.next fd with
            | some next => a.files.next next
            | none => a.files.first
          pickLoop pred fuel a cursor (picked.insert fd ofile)
        else pickLoop pred fuel a (a.files.next fd) picked

def pick (a : FileArray φ) (pred : ℕ → OpenFile φ → Bool) :
    Except FdPanic (SortedMap ℕ (OpenFile φ) × FileArray φ) :=
  pickLoop pred ((a.files.entries.length + 1) * (a.files.entries.length + 2)) a a.files.first .empty

def closeRange (a : FileArray φ) (first last : ℕ) :
    Except FdPanic (SortedMap ℕ (OpenFile φ) × FileArray φ) :=
  a.pick fun fd _ => first ≤ fd && fd ≤ last

def onExec (a : FileArray φ) : Except FdPanic (SortedMap ℕ (OpenFile φ) × FileArray φ) :=
  a.pick fun _ ofile => ofile.cloexec

/-! ### What the table functions do to the files -/

@[simp] theorem releaseFd_files (a : FileArray φ) (fd : ℕ) : (a.releaseFd fd).files = a.files := by
  unfold releaseFd
  split <;> rfl

@[simp] theorem allocateFd_files (a : FileArray φ) (start : ℕ) :
    (a.allocateFd start).2.files = a.files := by
  unfold allocateFd
  dsimp only
  split <;> rfl

theorem doInsert_of_none {a : FileArray φ} {fd : ℕ} (h : a.files.get fd = none) (cloexec : Bool)
    (file : φ) :
    a.doInsert fd cloexec file = .ok { a with files := a.files.insert fd ⟨cloexec, file⟩ } := by
  unfold doInsert
  rw [h]

/-- What an iteration of `pick` preserves, at the cursor. -/
structure PickInv (pred : ℕ → OpenFile φ → Bool)
    (I : SortedMap ℕ (OpenFile φ) → FileArray φ → Option ℕ → Prop) : Prop where
  pick : ∀ picked a fd ofile, I picked a (some fd) → a.files.get fd = some ofile →
    pred fd ofile = true → I (picked.insert fd ofile)
      ({ a with files := a.files.erase fd }.releaseFd fd)
      (match (a.files.erase fd).next fd with
        | some next => (a.files.erase fd).next next
        | none => (a.files.erase fd).first)
  pass : ∀ picked a fd ofile, I picked a (some fd) → a.files.get fd = some ofile →
    pred fd ofile = false → I picked a (a.files.next fd)

variable {pred : ℕ → OpenFile φ → Bool}

section

variable {I : SortedMap ℕ (OpenFile φ) → FileArray φ → Option ℕ → Prop} (hI : PickInv pred I)
include hI

theorem pickLoop_rule (fuel : ℕ) :
    ∀ (a : FileArray φ) (cursor : Option ℕ) (picked : SortedMap ℕ (OpenFile φ)),
    I picked a cursor →
    a.files.entries.length * (a.files.entries.length + 2) +
      cursor.elim 0 a.files.above < fuel →
    ∃ r c, pickLoop pred fuel a cursor picked = .ok r ∧ I r.1 r.2 c ∧
      c.bind r.2.files.get = none := by
  induction fuel with
  | zero =>
    intro a cursor picked _ hfuel
    omega
  | succ fuel ih =>
    intro a cursor picked h hfuel
    unfold pickLoop
    cases cursor with
    | none => exact ⟨_, _, rfl, h, rfl⟩
    | some fd =>
      dsimp only
      cases hget : a.files.get fd with
      | none => exact ⟨_, _, rfl, h, hget⟩
      | some ofile =>
        have hne : a.files.get fd ≠ none := by rw [hget]; exact Option.some_ne_none ofile
        dsimp only
        split
        · next hpred =>
          -- one file fewer: the cursor may be anywhere in the rest
          simp only [releaseFd_files]
          refine ih _ _ _ (hI.pick picked a fd ofile h hget hpred) ?_
          have hlt := SortedMap.length_erase_lt hne
          have hle : ∀ c : Option ℕ, c.elim 0 (a.files.erase fd).above ≤
              (a.files.erase fd).entries.length := by
            intro c
            cases c with
            | none => exact Nat.zero_le _
            | some k => exact SortedMap.above_le_length _ k
          rw [releaseFd_files]
          generalize hn : (a.files.erase fd).entries.length = n at hlt hle ⊢
          have hsq : (n + 1) * (n + 1 + 2) ≤
              a.files.entries.length * (a.files.entries.length + 2) :=
            Nat.mul_le_mul (by omega) (by omega)
          refine lt_of_le_of_lt (Nat.add_le_add_left (hle _) _) ?_
          have hexp : (n + 1) * (n + 1 + 2) = n * (n + 2) + n + (n + 3) := by ring
          omega
        · next hpred =>
          -- the cursor passes the file
          refine ih _ _ _ (hI.pass picked a fd ofile h hget (eq_false_of_ne_true hpred)) ?_
          cases hnext : a.files.next fd with
          | none =>
            have hself : 0 < a.files.above fd := by
              obtain ⟨v, hv⟩ := Option.ne_none_iff_exists'.mp hne
              exact List.countP_pos_iff.mpr ⟨(fd, v), SortedMap.mem_entries.mpr hv, by simp⟩
            simp only [Option.elim] at hfuel ⊢
            omega
          | some next =>
            have := SortedMap.above_next_lt hne hnext
            simp only [Option.elim] at hfuel ⊢
            omega

theorem pick_rule_cursor {a : FileArray φ} (h : I .empty a a.files.first) :
    ∃ r c, a.pick pred = .ok r ∧ I r.1 r.2 c ∧ c.bind r.2.files.get = none := by
  refine pickLoop_rule hI _ a a.files.first .empty h ?_
  have hle : a.files.first.elim 0 a.files.above ≤ a.files.entries.length := by
    cases a.files.first with
    | none => exact Nat.zero_le _
    | some k => exact SortedMap.above_le_length _ k
  generalize a.files.entries.length = n at hle ⊢
  have hexp : (n + 1) * (n + 2) = n * (n + 2) + n + 2 := by ring
  omega

end

theorem pick_rule {I : SortedMap ℕ (OpenFile φ) → FileArray φ → Prop}
    (hstep : ∀ picked a fd ofile, I picked a → a.files.get fd = some ofile → pred fd ofile = true →
      I (picked.insert fd ofile) ({ a with files := a.files.erase fd }.releaseFd fd))
    {a : FileArray φ} (h : I .empty a) : ∃ r, a.pick pred = .ok r ∧ I r.1 r.2 := by
  obtain ⟨r, -, hrun, hr, -⟩ := pick_rule_cursor (I := fun picked a _ => I picked a)
    ⟨hstep, fun _ _ _ _ h _ _ => h⟩ h
  exact ⟨r, hrun, hr⟩

/-! ### Which descriptors are closed -/

/-- Between two descriptors that are to be closed there is one that is not. -/
def Spaced (pred : ℕ → OpenFile φ → Bool) (m : SortedMap ℕ (OpenFile φ)) : Prop :=
  ∀ x y f g, m.get x = some f → pred x f = true → m.get y = some g → pred y g = true → x < y →
    ∃ z h, m.get z = some h ∧ pred z h = false ∧ x < z ∧ z < y

/-- The files `m` are the picked and the remaining ones, and what is still to be picked is not
behind the cursor. -/
structure Picking (pred : ℕ → OpenFile φ → Bool) (m picked : SortedMap ℕ (OpenFile φ))
    (a : FileArray φ) (cursor : Option ℕ) : Prop where
  part : ∀ fd, (picked.get fd = none ∧ a.files.get fd = m.get fd) ∨
    ∃ f, m.get fd = some f ∧ pred fd f = true ∧ picked.get fd = some f ∧ a.files.get fd = none
  spaced : Spaced pred a.files
  inside : ∀ fd, cursor = some fd → a.files.get fd ≠ none
  ahead : ∀ fd f, a.files.get fd = some f → pred fd f = true → ∃ c, cursor = some c ∧ c ≤ fd

theorem picking (m : SortedMap ℕ (OpenFile φ)) : PickInv pred (Picking pred m) where
  pass picked a fd ofile h hget hpred := by
    refine ⟨h.part, h.spaced, fun x hx => (SortedMap.lt_of_next hx).2, fun x f hx hf => ?_⟩
    obtain ⟨_, ⟨⟩, hle⟩ := h.ahead x f hx hf
    refine SortedMap.next_le (by simp [hx]) (lt_of_le_of_ne hle ?_)
    rintro rfl
    rw [Option.some.inj (hget.symm.trans hx), hf] at hpred
    cases hpred
  pick picked a fd ofile h hget hpred := by
    have herase : ∀ {x f}, (a.files.erase fd).get x = some f → x ≠ fd ∧ a.files.get x = some f := by
      intro x f hx
      by_cases hxfd : x = fd <;> simp_all
    have hlater : ∀ {x f}, (a.files.erase fd).get x = some f → pred x f = true → fd < x := by
      intro x f hx hf
      obtain ⟨hne, hx⟩ := herase hx
      obtain ⟨_, ⟨⟩, hle⟩ := h.ahead x f hx hf
      exact lt_of_le_of_ne hle hne.symm
    refine ⟨fun x => ?_, fun x y f g hx hf hy hg hlt => ?_, fun x hx => ?_, fun x f hx hf => ?_⟩
    · rw [releaseFd_files, SortedMap.get_insert, SortedMap.get_erase]
      by_cases hx : x = fd
      · subst hx
        have hm : m.get x = some ofile := by
          obtain ⟨-, hm⟩ | ⟨f, -, -, -, hnone⟩ := h.part x
          · exact hm.symm.trans hget
          · exact absurd (hget.symm.trans hnone) nofun
        exact Or.inr ⟨ofile, hm, hpred, if_pos rfl, if_pos rfl⟩
      · rw [if_neg hx, if_neg hx]
        exact h.part x
    · rw [releaseFd_files] at hx hy ⊢
      obtain ⟨z, k, hz, hk, hxz, hzy⟩ :=
        h.spaced x y f g (herase hx).2 hf (herase hy).2 hg hlt
      refine ⟨z, k, ?_, hk, hxz, hzy⟩
      rw [SortedMap.get_erase, if_neg]
      · exact hz
      · rintro rfl
        rw [Option.some.inj (hget.symm.trans hz), hk] at hpred
        cases hpred
    · rw [releaseFd_files]
      split at hx
      · exact (SortedMap.lt_of_next hx).2
      · exact SortedMap.get_first_ne_none hx
    · rw [releaseFd_files] at hx
      have hin : (a.files.erase fd).get x ≠ none := by simp [hx]
      obtain ⟨n, hn, hle⟩ := SortedMap.next_le hin (hlater hx hf)
      rw [hn]
      -- the descriptor that `move_next` skips is not to be closed
      refine SortedMap.next_le hin (lt_of_le_of_ne hle ?_)
      rintro rfl
      obtain ⟨z, k, hz, hk, hfz, hzn⟩ :=
        h.spaced fd n ofile f hget hpred (herase hx).2 hf (hlater hx hf)
      have hz' : (a.files.erase fd).get z ≠ none := by simp [hz, hfz.ne']
      obtain ⟨_, hn', hle'⟩ := SortedMap.next_le hz' hfz
      obtain rfl := Option.some.inj (hn.symm.trans hn')
      exact absurd hzn (not_lt.mpr hle')

theorem pick_spaced {a : FileArray φ} (hs : Spaced pred a.files) :
    ∃ r, a.pick pred = .ok r ∧ ∀ fd, r.1.get fd = (a.files.get fd).filter (pred fd) ∧
      r.2.files.get fd = (a.files.get fd).filter fun f => !pred fd f := by
  obtain ⟨r, c, hrun, hr, hc⟩ := pick_rule_cursor (picking a.files) (a := a)
    ⟨fun fd => Or.inl ⟨rfl, rfl⟩, hs, fun fd => SortedMap.get_first_ne_none, fun fd f hf _ =>
      SortedMap.first_le (by simp [hf])⟩
  have hnone : ∀ fd f, r.2.files.get fd = some f → pred fd f = false := by
    intro fd f hf
    refine eq_false_of_ne_true fun hpred => ?_
    obtain ⟨x, rfl, -⟩ := hr.ahead fd f hf hpred
    exact hr.inside x rfl hc
  refine ⟨r, hrun, fun fd => ?_⟩
  obtain ⟨hpicked, hleft⟩ | ⟨f, hf, hpred, hpicked, hleft⟩ := hr.part fd
  · rw [hpicked, hleft]
    cases hf : a.files.get fd with
    | none => exact ⟨rfl, rfl⟩
    | some f =>
      have hpred := hnone fd f (hleft.trans hf)
      simp [Option.filter, hpred]
  · simp [hpicked, hleft, hf, Option.filter, hpred]

end FileArray

end Dlutos.Files
