import Mathlib.Order.Bounds.Basic
import Dlutos.Files.FileArray
import Dlutos.Foundation.Transition

/-!
# The least unused descriptor

`allocate_fd` moves the cached minimum `min_avail` past the descriptor it hands out before that
descriptor is inserted.  The search for a gap wraps at `u32::MAX`, which no function avoids to hand
out; `HasRoom` is the condition under which a call stays below it.
-/

namespace Dlutos.Files.FileArray

open ExceptLoop Transition Function

variable {φ : Type}

/-! ### Searching -/

theorem firstGap_isLeast {l : List ℕ} (hl : l.Pairwise (· < ·)) (hmax : ∀ fd ∈ l, fd < FD_MAX) :
    ∀ current, (∀ fd ∈ l, current ≤ fd) →
      IsLeast {fd | current ≤ fd ∧ fd ∉ l} (firstGap current l) := by
  induction l with
  | nil =>
    intro current _
    exact ⟨⟨le_refl _, List.not_mem_nil⟩, fun fd h => h.1⟩
  | cons a rest ih =>
    intro current hge
    obtain ⟨ha, hrest⟩ := List.pairwise_cons.mp hl
    unfold firstGap
    split
    · next heq =>
      subst heq
      have hsucc : fdSucc current = current + 1 := by
        have := hmax current List.mem_cons_self
        unfold fdSucc FD_MAX at *
        omega
      obtain ⟨⟨hle, hnot⟩, hleast⟩ := ih hrest (fun fd h => hmax fd (List.mem_cons_of_mem _ h))
        (fdSucc current) fun fd h => hsucc ▸ ha fd h
      refine ⟨⟨by omega, ?_⟩, fun fd hfd => hleast ⟨?_, fun h => hfd.2 (List.mem_cons_of_mem _ h)⟩⟩
      · rw [List.mem_cons, not_or]
        exact ⟨by omega, hnot⟩
      · have hne : fd ≠ current := fun h => hfd.2 (h ▸ List.mem_cons_self)
        have := hfd.1
        omega
    · next hne =>
      have hlt : current < a := lt_of_le_of_ne (hge a List.mem_cons_self) hne
      refine ⟨⟨le_refl _, ?_⟩, fun fd h => h.1⟩
      rw [List.mem_cons, not_or]
      exact ⟨hne, fun h => absurd (ha current h) (by omega)⟩

theorem findAvailable_isLeast {files : SortedMap ℕ (OpenFile φ)}
    (hmax : ∀ fd, files.get fd ≠ none → fd < FD_MAX) (start : ℕ) :
    IsLeast {fd | start ≤ fd ∧ files.get fd = none} (findAvailable start files) := by
  have hmem : ∀ fd, fd ∈ (files.entries.map Prod.fst).filter (fun fd => start ≤ fd) ↔
      files.get fd ≠ none ∧ start ≤ fd := by
    intro fd
    rw [List.mem_filter, SortedMap.mem_keys, decide_eq_true_eq]
  have h := firstGap_isLeast (files.sorted_keys.filter fun fd => start ≤ fd)
    (fun fd hfd => hmax fd ((hmem fd).mp hfd).1) start fun fd hfd => ((hmem fd).mp hfd).2
  refine ⟨⟨h.1.1, ?_⟩, fun fd hfd => h.2 ⟨hfd.1, fun hin => ((hmem fd).mp hin).1 hfd.2⟩⟩
  by_contra hne
  exact h.1.2 ((hmem _).mpr ⟨hne, h.1.1⟩)

/-! ### The invariant -/

/-- `min_avail` is the least unused descriptor outside the set `P` of those handed out and not
inserted yet. -/
structure Allocated (a : FileArray φ) (P : Set ℕ) : Prop where
  least : IsLeast {fd | a.files.get fd = none ∧ fd ∉ P} a.minAvail
  bound : ∀ fd, a.files.get fd ≠ none → fd < FD_MAX

/-- `min_avail` is the least unused descriptor. -/
def DescriptorsOk (a : FileArray φ) : Prop := a.Allocated ∅

variable {a : FileArray φ}

theorem DescriptorsOk.isLeast (h : a.DescriptorsOk) :
    IsLeast {fd | a.files.get fd = none} a.minAvail := by
  have := h.least
  simpa only [Set.mem_empty_iff_false, not_false_eq_true, and_true] using this

theorem descriptorsOk_of_isLeast (h : IsLeast {fd | a.files.get fd = none} a.minAvail)
    (hmax : ∀ fd, a.files.get fd ≠ none → fd < FD_MAX) : a.DescriptorsOk := by
  refine ⟨?_, hmax⟩
  simpa only [Set.mem_empty_iff_false, not_false_eq_true, and_true] using h

theorem descriptorsOk_new : (new : FileArray φ).DescriptorsOk :=
  descriptorsOk_of_isLeast ⟨rfl, fun _ _ => Nat.zero_le _⟩ fun _ h => absurd rfl h

theorem Allocated.nextFd {P : Set ℕ} (h : a.Allocated P)
    (hP : ∀ fd ∈ P, fd < a.minAvail) (hroom : a.minAvail < FD_MAX) :
    a.nextFd.1 = a.minAvail ∧ a.nextFd.2.files = a.files ∧ a.minAvail < a.nextFd.2.minAvail ∧
      a.nextFd.2.Allocated (insert a.minAvail P) := by
  have hrun : a.nextFd =
      (a.minAvail, { a with minAvail := findAvailable (fdSucc a.minAvail) a.files }) := by
    unfold FileArray.nextFd allocateFd
    simp only [max_self, if_pos]
  have hsucc : fdSucc a.minAvail = a.minAvail + 1 := by
    unfold fdSucc FD_MAX at *
    omega
  obtain ⟨⟨hle, hnone⟩, hleast⟩ := findAvailable_isLeast h.bound (fdSucc a.minAvail)
  rw [hrun]
  refine ⟨rfl, rfl, by dsimp only; omega, ⟨⟨hnone, ?_⟩, fun fd hfd => ?_⟩, h.bound⟩
  · rintro (heq | hin)
    · dsimp only at heq
      omega
    · have := hP _ hin
      dsimp only at this
      omega
  · obtain ⟨hfree, hnot⟩ := hfd
    rw [Set.mem_insert_iff, not_or] at hnot
    have := h.least.2 ⟨hfree, hnot.2⟩
    exact hleast ⟨by omega, hfree⟩

theorem DescriptorsOk.allocateFd (h : a.DescriptorsOk) (start : ℕ)
    (hroom : ∃ fd, start ≤ fd ∧ fd < FD_MAX ∧ a.files.get fd = none) :
    IsLeast {fd | start ≤ fd ∧ a.files.get fd = none} (a.allocateFd start).1 ∧
      (a.allocateFd start).1 < FD_MAX ∧ (a.allocateFd start).2.Allocated {(a.allocateFd start).1} := by
  have hmin := h.isLeast
  obtain ⟨fd0, hstart, hlt, hfree⟩ := hroom
  by_cases hle : start ≤ a.minAvail
  · have hbelow : a.minAvail < FD_MAX := lt_of_le_of_lt (hmin.2 hfree) hlt
    have hnext : a.allocateFd start = a.nextFd := by
      unfold FileArray.nextFd FileArray.allocateFd
      rw [max_eq_right hle, max_self]
    obtain ⟨hfd, -, -, hok⟩ := h.nextFd (fun _ h => absurd h (Set.notMem_empty _)) hbelow
    rw [hnext, hfd]
    refine ⟨⟨⟨hle, hmin.1⟩, fun fd hfd => hmin.2 hfd.2⟩, hbelow, ?_⟩
    rwa [insert_empty_eq] at hok
  · have hfar : a.allocateFd start = (findAvailable start a.files, a) := by
      unfold FileArray.allocateFd
      rw [max_eq_left (by omega)]
      exact if_neg (by omega)
    have hleast := findAvailable_isLeast h.bound start
    rw [hfar]
    refine ⟨hleast, lt_of_le_of_lt (hleast.2 ⟨hstart, hfree⟩) hlt, ⟨⟨hmin.1, fun heq => ?_⟩,
      fun fd hfd => hmin.2 hfd.1⟩, h.bound⟩
    have := hleast.1.1
    rw [Set.mem_singleton_iff] at heq
    dsimp only at heq
    omega

variable {fd : ℕ}

theorem Allocated.doInsert {P : Set ℕ} (h : a.Allocated (insert fd P))
    (hfree : a.files.get fd = none) (hmax : fd < FD_MAX) (cloexec : Bool) (file : φ) :
    ∃ a', a.doInsert fd cloexec file = .ok a' ∧ a'.Allocated P ∧
      a'.files = a.files.insert fd ⟨cloexec, file⟩ := by
  refine ⟨_, doInsert_of_none hfree cloexec file, ⟨?_, fun fd' hfd' => ?_⟩, rfl⟩
  · have hset : {x | (a.files.insert fd ⟨cloexec, file⟩).get x = none ∧ x ∉ P} =
        {x | a.files.get x = none ∧ x ∉ insert fd P} := by
      ext x
      simp only [Set.mem_ofPred_eq, SortedMap.get_insert, Set.mem_insert_iff, not_or]
      by_cases hx : x = fd
      · simp only [hx, if_pos, reduceCtorEq, false_and, not_true_eq_false, and_false]
      · simp only [hx, if_false, not_false_eq_true, true_and]
    show IsLeast {x | (a.files.insert fd ⟨cloexec, file⟩).get x = none ∧ x ∉ P} a.minAvail
    rw [hset]
    exact h.least
  · simp only [SortedMap.get_insert] at hfd'
    split at hfd'
    · next heq => exact heq ▸ hmax
    · exact h.bound fd' hfd'

section

variable (h : a.DescriptorsOk)
include h

theorem DescriptorsOk.replace (ofile : OpenFile φ) (hused : a.files.get fd ≠ none) :
    DescriptorsOk { a with files := a.files.insert fd ofile } := by
  have hget : ∀ x, (a.files.insert fd ofile).get x = none ↔ a.files.get x = none := by
    intro x
    rw [SortedMap.get_insert]
    split
    · next heq => exact ⟨fun h => (nomatch h), fun h => absurd (heq ▸ h) hused⟩
    · rfl
  refine descriptorsOk_of_isLeast ?_ fun x hx => h.bound x fun h => hx ((hget x).mpr h)
  simp only [hget]
  exact h.isLeast

theorem DescriptorsOk.release (hused : a.files.get fd ≠ none) :
    DescriptorsOk ({ a with files := a.files.erase fd }.releaseFd fd) := by
  have hmin := h.isLeast
  have hne : fd ≠ a.minAvail := fun heq => hused (heq ▸ hmin.1)
  have hget : ∀ x, (a.files.erase fd).get x = none ↔ x = fd ∨ a.files.get x = none := by
    intro x
    rw [SortedMap.get_erase]
    split
    · next heq => simp only [heq, true_or]
    · next hx => simp only [hx, false_or]
  refine descriptorsOk_of_isLeast ?_ fun x hx => ?_
  · rw [releaseFd_files]
    simp only [hget]
    unfold releaseFd
    split
    · next hlt =>
      refine ⟨Or.inl rfl, fun x hx => ?_⟩
      rcases hx with rfl | hx
      · exact le_refl _
      · exact (le_of_lt hlt).trans (hmin.2 hx)
    · next hge =>
      refine ⟨Or.inr hmin.1, fun x hx => ?_⟩
      rcases hx with rfl | hx
      · exact not_lt.mp hge
      · exact hmin.2 hx
  · rw [releaseFd_files] at hx
    exact h.bound x fun h => hx ((hget x).mpr (Or.inr h))

/-! ### Calls -/

theorem DescriptorsOk.addFile
    (hroom : ∃ fd, fd < FD_MAX ∧ a.files.get fd = none) (cloexec : Bool) (file : φ) :
    ∃ a', a.addFile cloexec file = .ok (a.minAvail, a') ∧ a'.DescriptorsOk := by
  obtain ⟨fd, hlt, hfree⟩ := hroom
  have hbelow : a.minAvail < FD_MAX := lt_of_le_of_lt (h.isLeast.2 hfree) hlt
  obtain ⟨hfd, hfiles, -, hok⟩ := h.nextFd (fun _ h => absurd h (Set.notMem_empty _)) hbelow
  obtain ⟨a', hins, hok', -⟩ := hok.doInsert (by rw [hfiles]; exact h.isLeast.1) hbelow cloexec file
  refine ⟨a', ?_, hok'⟩
  unfold FileArray.addFile
  dsimp only
  rw [hfd, hins]
  rfl

theorem DescriptorsOk.addPair
    (hroom : ∃ fd fd', fd < fd' ∧ fd' < FD_MAX ∧ a.files.get fd = none ∧ a.files.get fd' = none)
    (cloexec : Bool) (left right : φ) :
    ∃ fd a', a.addPair cloexec left right = .ok ((a.minAvail, fd), a') ∧
      IsLeast {x | a.files.get x = none ∧ x ≠ a.minAvail} fd ∧ a'.DescriptorsOk := by
  obtain ⟨fd1, fd2, hlt, hmax, hfree1, hfree2⟩ := hroom
  have hmin := h.isLeast
  have hle1 := hmin.2 hfree1
  obtain ⟨hfd, hfiles, hnext, hok⟩ :=
    h.nextFd (fun _ h => absurd h (Set.notMem_empty _)) (by omega)
  -- the second call sees the first descriptor handed out but not inserted
  have hsecond : IsLeast {x | a.files.get x = none ∧ x ≠ a.minAvail} a.nextFd.2.minAvail := by
    have := hok.least
    rw [hfiles, insert_empty_eq] at this
    exact this
  have hle2 : a.nextFd.2.minAvail ≤ fd2 := hsecond.2 ⟨hfree2, by omega⟩
  have hbelow : ∀ x ∈ insert a.minAvail (∅ : Set ℕ), x < a.nextFd.2.minAvail := by
    intro x hx
    rw [insert_empty_eq, Set.mem_singleton_iff] at hx
    omega
  obtain ⟨hfd', hfiles', -, hok'⟩ := hok.nextFd hbelow (by omega)
  rw [Set.insert_comm] at hok'
  obtain ⟨b, hins, hokb, hb⟩ := hok'.doInsert (by rw [hfiles', hfiles]; exact hmin.1) (by omega)
    cloexec left
  obtain ⟨c, hins', hokc, -⟩ := hokb.doInsert (by
    rw [hb, SortedMap.get_insert, if_neg (by omega), hfiles', hfiles]
    exact hsecond.1.1) (by omega) cloexec right
  refine ⟨a.nextFd.2.minAvail, c, ?_, hsecond, hokc⟩
  unfold FileArray.addPair
  dsimp only
  rw [hfd, hfd', hins, ok_bind, hins', ok_bind]
  rfl

theorem DescriptorsOk.dupTo (oldFd : ℕ) {newFd : ℕ} (hmax : newFd < FD_MAX) (cloexec : Bool) :
    ∃ r a', a.dupTo oldFd newFd cloexec = .ok (r, a') ∧ a'.DescriptorsOk := by
  unfold FileArray.dupTo
  cases hold : a.files.get oldFd with
  | none => exact ⟨_, _, rfl, h⟩
  | some oldFile =>
    dsimp only
    cases hnew : a.files.get newFd with
    | none =>
      obtain ⟨hleast, -, hok⟩ := h.allocateFd newFd ⟨newFd, le_refl _, hmax, hnew⟩
      have heq : (a.allocateFd newFd).1 = newFd :=
        le_antisymm (hleast.2 ⟨le_refl _, hnew⟩) hleast.1.1
      rw [heq, ← insert_empty_eq] at hok
      obtain ⟨a', hins, hok', -⟩ := hok.doInsert (by rw [allocateFd_files]; exact hnew) hmax cloexec
        oldFile.file
      refine ⟨some none, a', ?_, hok'⟩
      dsimp only
      rw [assertOr_true _ heq.symm, ok_bind, hins]
      rfl
    | some file =>
      exact ⟨_, _, rfl, h.replace _ (by rw [hnew]; exact Option.some_ne_none file)⟩

theorem DescriptorsOk.fcntlDup {oldFd arg : ℕ} (hold : a.files.get oldFd ≠ none)
    (hroom : ∃ fd, arg % 2 ^ 32 ≤ fd ∧ fd < FD_MAX ∧ a.files.get fd = none) (cloexec : Bool) :
    ∃ fd a', a.fcntlDup oldFd cloexec arg = .ok (some fd, a') ∧
      IsLeast {x | arg % 2 ^ 32 ≤ x ∧ a.files.get x = none} fd ∧ a'.DescriptorsOk := by
  obtain ⟨oldFile, hsome⟩ := Option.ne_none_iff_exists'.mp hold
  obtain ⟨hleast, hmax, hok⟩ := h.allocateFd (arg % 2 ^ 32) hroom
  rw [← insert_empty_eq] at hok
  obtain ⟨a', hins, hok', -⟩ := hok.doInsert (by rw [allocateFd_files]; exact hleast.1.2) hmax
    (cloexec || oldFile.cloexec) oldFile.file
  refine ⟨(a.allocateFd (arg % 2 ^ 32)).1, a', ?_, hleast, hok'⟩
  unfold FileArray.fcntlDup
  rw [hsome]
  dsimp only
  rw [hins]
  rfl

theorem DescriptorsOk.pick
    (pred : ℕ → OpenFile φ → Bool) : ∃ r, a.pick pred = .ok r ∧ r.2.DescriptorsOk :=
  pick_rule (I := fun _ a => a.DescriptorsOk)
    (fun _ _ _ ofile hI hget _ => hI.release (by rw [hget]; exact Option.some_ne_none ofile)) h

end

/-! ### Runs -/

inductive TableOp (φ : Type) where
  | openFile (cloexec : Bool) (file : φ)
  | socket (file : φ)
  | eventFile (file : φ)
  | pipe (cloexec : Bool) (readEnd writeEnd : φ)
  | socketpair (cloexec : Bool) (left right : φ)
  | dup (oldFd : ℕ)
  | dupTo (oldFd newFd : ℕ) (cloexec : Bool)
  | fcntlDup (oldFd : ℕ) (cloexec : Bool) (arg : ℕ)
  | setFlags (fd : ℕ) (cloexec : Bool)
  | close (fd : ℕ)
  | closeRange (first last : ℕ)
  | exec
  | closeAll

/-- A call, as far as it changes the table. -/
def TableOp.run (a : FileArray φ) : TableOp φ → Except FdPanic (FileArray φ)
  | openFile cloexec file => (a.openFile cloexec file).map Prod.snd
  | socket file => (a.socket file).map Prod.snd
  | eventFile file => (a.eventFile file).map Prod.snd
  | pipe cloexec readEnd writeEnd => (a.pipe cloexec readEnd writeEnd).map Prod.snd
  | socketpair cloexec left right => (a.socketpair cloexec left right).map Prod.snd
  | dup oldFd => (a.dup oldFd).map Prod.snd
  | dupTo oldFd newFd cloexec => (a.dupTo oldFd newFd cloexec).map Prod.snd
  | fcntlDup oldFd cloexec arg => (a.fcntlDup oldFd cloexec arg).map Prod.snd
  | setFlags fd cloexec => .ok (a.setFlags fd cloexec)
  | close fd => .ok (a.close fd).2
  | closeRange first last => (a.closeRange first last).map Prod.snd
  | exec => a.onExec.map Prod.snd
  | closeAll => .ok a.closeAll.2

/-- The call finds the descriptors that it hands out below `u32::MAX`. -/
def HasRoom (a : FileArray φ) : TableOp φ → Prop
  | .openFile _ _ | .socket _ | .eventFile _ => ∃ fd, fd < FD_MAX ∧ a.files.get fd = none
  | .pipe _ _ _ | .socketpair _ _ _ =>
    ∃ fd fd', fd < fd' ∧ fd' < FD_MAX ∧ a.files.get fd = none ∧ a.files.get fd' = none
  | .dup oldFd => a.files.get oldFd ≠ none → ∃ fd, fd < FD_MAX ∧ a.files.get fd = none
  | .dupTo _ newFd _ => newFd < FD_MAX
  | .fcntlDup oldFd _ arg =>
    a.files.get oldFd ≠ none → ∃ fd, arg % 2 ^ 32 ≤ fd ∧ fd < FD_MAX ∧ a.files.get fd = none
  | _ => True

theorem DescriptorsOk.step (h : a.DescriptorsOk) {op : TableOp φ}
    (hroom : a.HasRoom op) : ∃ a', op.run a = .ok a' ∧ a'.DescriptorsOk := by
  cases op with
  | openFile cloexec file =>
    obtain ⟨a', hrun, hok⟩ := h.addFile hroom cloexec file
    exact ⟨a', by rw [TableOp.run, openFile, hrun]; rfl, hok⟩
  | socket file =>
    obtain ⟨a', hrun, hok⟩ := h.addFile hroom false file
    exact ⟨a', by rw [TableOp.run, socket, hrun]; rfl, hok⟩
  | eventFile file =>
    obtain ⟨a', hrun, hok⟩ := h.addFile hroom false file
    exact ⟨a', by rw [TableOp.run, eventFile, hrun]; rfl, hok⟩
  | pipe cloexec readEnd writeEnd =>
    obtain ⟨fd, a', hrun, -, hok⟩ := h.addPair hroom cloexec readEnd writeEnd
    exact ⟨a', by rw [TableOp.run, pipe, hrun]; rfl, hok⟩
  | socketpair cloexec left right =>
    obtain ⟨fd, a', hrun, -, hok⟩ := h.addPair hroom cloexec left right
    exact ⟨a', by rw [TableOp.run, socketpair, hrun]; rfl, hok⟩
  | dup oldFd =>
    rw [TableOp.run, dup]
    cases hget : a.files.get oldFd with
    | none => exact ⟨a, rfl, h⟩
    | some oldFile =>
      obtain ⟨a', hrun, hok⟩ := h.addFile (hroom (by rw [hget]; exact Option.some_ne_none _))
        oldFile.cloexec oldFile.file
      exact ⟨a', by dsimp only; rw [hrun]; rfl, hok⟩
  | dupTo oldFd newFd cloexec =>
    obtain ⟨r, a', hrun, hok⟩ := h.dupTo oldFd hroom cloexec
    exact ⟨a', by rw [TableOp.run, hrun]; rfl, hok⟩
  | fcntlDup oldFd cloexec arg =>
    by_cases hget : a.files.get oldFd = none
    · exact ⟨a, by rw [TableOp.run, FileArray.fcntlDup, hget]; rfl, h⟩
    · obtain ⟨fd, a', hrun, -, hok⟩ := h.fcntlDup hget (hroom hget) cloexec
      exact ⟨a', by rw [TableOp.run, hrun]; rfl, hok⟩
  | setFlags fd cloexec =>
    refine ⟨_, rfl, ?_⟩
    unfold setFlags
    split
    · exact h
    · next ofile hget => exact h.replace _ (by rw [hget]; exact Option.some_ne_none ofile)
  | close fd =>
    refine ⟨_, rfl, ?_⟩
    unfold close
    split
    · exact h
    · next ofile hget => exact h.release (by rw [hget]; exact Option.some_ne_none ofile)
  | closeRange first last =>
    obtain ⟨r, hrun, hok⟩ := h.pick fun fd _ => first ≤ fd && fd ≤ last
    exact ⟨r.2, by rw [TableOp.run, closeRange, hrun]; rfl, hok⟩
  | exec =>
    obtain ⟨r, hrun, hok⟩ := h.pick fun _ ofile => ofile.cloexec
    exact ⟨r.2, by rw [TableOp.run, onExec, hrun]; rfl, hok⟩
  | closeAll => exact ⟨_, rfl, descriptorsOk_new⟩

inductive TablesOp (φ : Type) where
  | new (t : ℕ)
  | newCloned (other t : ℕ)
  | call (t : ℕ) (op : TableOp φ)

def TablesOp.run (s : ℕ → Option (FileArray φ)) :
    TablesOp φ → Except FdPanic (ℕ → Option (FileArray φ))
  | .new t => .ok (update s t (some .new))
  | .newCloned other t => .ok (update s t (s other))
  | .call t op =>
    match s t with
    | none => .ok s
    | some a => (op.run a).map fun a' => update s t (some a')

def tablesMachine (φ : Type) : System (ℕ → Option (FileArray φ)) (TablesOp φ) FdPanic where
  init s := ∀ t, s t = none
  allowed s
    | .call t op => ∀ a, s t = some a → a.HasRoom op
    | _ => True
  run := TablesOp.run

/-- `min_avail` is the least unused descriptor, and calls return the least unused descriptors. -/
structure ReturnsLeast (a : FileArray φ) : Prop where
  min_avail : IsLeast {fd | a.files.get fd = none} a.minAvail
  open_file : ∀ cloexec file, a.HasRoom (.openFile cloexec file) →
    ∃ a', a.openFile cloexec file = .ok (a.minAvail, a')
  socket : ∀ file, a.HasRoom (.socket file) → ∃ a', a.socket file = .ok (a.minAvail, a')
  dup : ∀ oldFd, a.files.get oldFd ≠ none → a.HasRoom (.dup oldFd) →
    ∃ a', a.dup oldFd = .ok (some a.minAvail, a')
  pipe : ∀ cloexec readEnd writeEnd, a.HasRoom (.pipe cloexec readEnd writeEnd) →
    ∃ fd a', a.pipe cloexec readEnd writeEnd = .ok ((a.minAvail, fd), a') ∧
      IsLeast {x | a.files.get x = none ∧ x ≠ a.minAvail} fd
  socketpair : ∀ cloexec left right, a.HasRoom (.socketpair cloexec left right) →
    ∃ fd a', a.socketpair cloexec left right = .ok ((a.minAvail, fd), a') ∧
      IsLeast {x | a.files.get x = none ∧ x ≠ a.minAvail} fd
  fcntl_dup : ∀ oldFd cloexec arg, a.files.get oldFd ≠ none →
    a.HasRoom (.fcntlDup oldFd cloexec arg) →
    ∃ fd a', a.fcntlDup oldFd cloexec arg = .ok (some fd, a') ∧
      IsLeast {x | arg % 2 ^ 32 ≤ x ∧ a.files.get x = none} fd

theorem DescriptorsOk.returnsLeast (h : a.DescriptorsOk) : a.ReturnsLeast where
  min_avail := h.isLeast
  open_file cloexec file hroom :=
    let ⟨a', hrun, _⟩ := h.addFile hroom cloexec file
    ⟨a', hrun⟩
  socket file hroom :=
    let ⟨a', hrun, _⟩ := h.addFile hroom false file
    ⟨a', hrun⟩
  dup oldFd hold hroom := by
    obtain ⟨oldFile, hget⟩ := Option.ne_none_iff_exists'.mp hold
    obtain ⟨a', hrun, -⟩ := h.addFile (hroom hold) oldFile.cloexec oldFile.file
    refine ⟨a', ?_⟩
    unfold FileArray.dup
    rw [hget]
    dsimp only
    rw [hrun]
    rfl
  pipe cloexec readEnd writeEnd hroom :=
    let ⟨fd, a', hrun, hleast, _⟩ := h.addPair hroom cloexec readEnd writeEnd
    ⟨fd, a', hrun, hleast⟩
  socketpair cloexec left right hroom :=
    let ⟨fd, a', hrun, hleast, _⟩ := h.addPair hroom cloexec left right
    ⟨fd, a', hrun, hleast⟩
  fcntl_dup oldFd cloexec arg hold hroom :=
    let ⟨fd, a', hrun, hleast, _⟩ := h.fcntlDup hold (hroom hold) cloexec
    ⟨fd, a', hrun, hleast⟩

theorem descriptorsOk_step {s : ℕ → Option (FileArray φ)}
    (h : ∀ t a, s t = some a → a.DescriptorsOk) {op : TablesOp φ}
    (hallowed : (tablesMachine φ).allowed s op) :
    ∃ s', op.run s = .ok s' ∧ ∀ t a, s' t = some a → a.DescriptorsOk := by
  have hupdate : ∀ t a', a'.DescriptorsOk →
      ∀ t' a, update s t (some a') t' = some a → a.DescriptorsOk := by
    intro t a' hok t' a hget
    rw [update_apply] at hget
    split at hget
    · exact Option.some.inj hget ▸ hok
    · exact h t' a hget
  cases op with
  | new t => exact ⟨_, rfl, hupdate t .new descriptorsOk_new⟩
  | newCloned other t =>
    refine ⟨_, rfl, fun t' a hget => ?_⟩
    rw [update_apply] at hget
    split at hget
    · exact h other a hget
    · exact h t' a hget
  | call t op =>
    rw [TablesOp.run]
    cases hget : s t with
    | none => exact ⟨s, rfl, h⟩
    | some a =>
      obtain ⟨a', hrun, hok⟩ := (h t a hget).step (hallowed a hget)
      refine ⟨update s t (some a'), ?_, hupdate t a' hok⟩
      dsimp only
      rw [hrun]
      rfl

/-- While the calls have room below `u32::MAX` every table returns least unused descriptors, and no
call panics. -/
theorem descriptors_of_reachable {s : ℕ → Option (FileArray φ)}
    (hs : (tablesMachine φ).Reachable s) :
    (∀ t a, s t = some a → a.ReturnsLeast) ∧
      ∀ op, (tablesMachine φ).allowed s op → ∃ s', (tablesMachine φ).run s op = .ok s' := by
  have hsafe := System.Reachable.safe (M := tablesMachine φ)
    (P := fun s => ∀ t a, s t = some a → a.DescriptorsOk)
    (fun s hinit t a h => by rw [hinit t] at h; cases h)
    (fun _ _ hP hallowed => descriptorsOk_step hP hallowed) hs
  exact ⟨fun t a h => (hsafe.1 t a h).returnsLeast, hsafe.2⟩

/-- A table where a file was opened and duplicated to a number far above. -/
theorem descriptors_after_dup :
    ∃ s a, (tablesMachine Unit).Reachable s ∧ s 0 = some a ∧ a.minAvail = 1 ∧ a.ReturnsLeast := by
  have h0 : (tablesMachine Unit).Reachable fun _ => none := .of_init fun _ => rfl
  have h1 := h0.next (.new 0) trivial
  have h2 := h1.next (.call 0 (.openFile false ())) fun a ha => by
    obtain rfl := Option.some.inj ha
    exact ⟨0, by decide, rfl⟩
  have h3 := h2.next (.call 0 (.dupTo 0 7 false)) fun a _ => show 7 < FD_MAX by decide
  exact ⟨_, _, h3, rfl, rfl, (descriptors_of_reachable h3).1 0 _ rfl⟩

/-- The third `F_DUPFD` with `u32::MAX - 1` wraps and panics on descriptor `0`. -/
theorem fcntlDup_panics :
    ∃ a₁ a₂ a₃ : FileArray Unit, FileArray.new.openFile false () = .ok (0, a₁) ∧
      a₁.fcntlDup 0 false (FD_MAX - 1) = .ok (some (FD_MAX - 1), a₂) ∧
      a₂.fcntlDup 0 false (FD_MAX - 1) = .ok (some FD_MAX, a₃) ∧
      a₃.fcntlDup 0 false (FD_MAX - 1) = .error .alreadyExists :=
  ⟨_, _, _, rfl, rfl, rfl, rfl⟩

end Dlutos.Files.FileArray
