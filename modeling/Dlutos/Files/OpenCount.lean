import Dlutos.Files.OpenFiles
import Dlutos.Foundation.Transition

/-!
# Open counts across processes

`do_exit` empties the table of the exiting thread when the process ends, also if another process
shares it, and drops the tables of the other exiting threads without closing their files.
`Op.Respects` excludes these exits, and an `execve` that closes descriptors of a shared table.
-/

namespace Dlutos.Files

open ExceptLoop Transition Function

/-! ### Counting in one table -/

variable {pred : ℕ → OpenFile ℕ → Bool}

namespace FileArray

variable {a a' : FileArray ℕ}

theorem count_single (f g : ℕ) : [f].count g = if f = g then 1 else 0 := by
  rw [List.count_singleton]
  simp only [beq_iff_eq]

theorem count_filesOf (a : FileArray ℕ) (f : ℕ) :
    (FileWorld.filesOf a.files.entries).count f = a.count f := by
  unfold FileArray.count SortedMap.total FileWorld.filesOf
  induction a.files.entries with
  | nil => rfl
  | cons e rest ih =>
    rw [List.map_cons, List.count_cons, ih, List.map_cons, List.sum_cons, Nat.add_comm]
    simp only [beq_iff_eq]

variable {fd : ℕ} {o : OpenFile ℕ}

theorem count_pos (h : a.files.get fd = some o) : 0 < a.count o.file := by
  have := SortedMap.le_total (fun _ o' => if o'.file = o.file then 1 else 0) h
  simp only [if_pos] at this
  exact this

theorem count_eq_zero (h : ∀ fd, a.files.get fd = none) (f : ℕ) : a.count f = 0 := by
  have hnil : a.files.entries = [] := by
    refine List.eq_nil_iff_forall_not_mem.mpr fun e he => ?_
    have := SortedMap.mem_entries.mp (show (e.1, e.2) ∈ a.files.entries from he)
    rw [h] at this
    cases this
  unfold FileArray.count SortedMap.total
  rw [hnil]
  rfl

variable {cloexec : Bool}

theorem doInsert_eq_ok {file : ℕ} (h : a.doInsert fd cloexec file = .ok a') :
    ∀ f, a'.count f = a.count f + if file = f then 1 else 0 := by
  unfold doInsert at h
  split at h
  · cases h
  · next hnone =>
    obtain rfl := Except.ok.inj h
    intro f
    have := SortedMap.total_insert a.files (fun _ o => if o.file = f then 1 else 0) fd
      ⟨cloexec, file⟩
    rw [hnone] at this
    exact this

theorem count_allocateFd (start f : ℕ) : (a.allocateFd start).2.count f = a.count f := by
  unfold FileArray.count
  rw [allocateFd_files]

theorem addFile_eq_ok {file : ℕ} (h : a.addFile cloexec file = .ok (fd, a')) :
    ∀ f, a'.count f = a.count f + if file = f then 1 else 0 := by
  unfold addFile at h
  dsimp only at h
  obtain ⟨b, hins, hret⟩ := bind_eq_ok.mp h
  obtain ⟨-, rfl⟩ := Prod.mk.inj (Except.ok.inj hret)
  intro f
  rw [doInsert_eq_ok hins, nextFd, count_allocateFd]

theorem addPair_eq_ok {left right : ℕ} {fds : ℕ × ℕ}
    (h : a.addPair cloexec left right = .ok (fds, a')) :
    ∀ f, a'.count f =
      a.count f + (if left = f then 1 else 0) + if right = f then 1 else 0 := by
  unfold addPair at h
  dsimp only at h
  obtain ⟨b, hins, hrest⟩ := bind_eq_ok.mp h
  obtain ⟨c, hins', hret⟩ := bind_eq_ok.mp hrest
  obtain ⟨-, rfl⟩ := Prod.mk.inj (Except.ok.inj hret)
  intro f
  rw [doInsert_eq_ok hins', doInsert_eq_ok hins]
  unfold nextFd
  rw [count_allocateFd, count_allocateFd]

variable {oldFd : ℕ}

section

variable (hget : a.files.get oldFd = some o)
include hget

theorem dup_eq_ok {r : Option ℕ} (h : a.dup oldFd = .ok (r, a')) :
    ∀ f, a'.count f = a.count f + if o.file = f then 1 else 0 := by
  unfold dup at h
  rw [hget] at h
  dsimp only at h
  obtain ⟨⟨fd, b⟩, hadd, hret⟩ := bind_eq_ok.mp h
  obtain ⟨-, rfl⟩ := Prod.mk.inj (Except.ok.inj hret)
  exact addFile_eq_ok hadd

theorem fcntlDup_eq_ok {arg : ℕ} {r : Option ℕ} (h : a.fcntlDup oldFd cloexec arg = .ok (r, a')) :
    ∀ f, a'.count f = a.count f + if o.file = f then 1 else 0 := by
  unfold fcntlDup at h
  rw [hget] at h
  dsimp only at h
  obtain ⟨b, hins, hret⟩ := bind_eq_ok.mp h
  obtain ⟨-, rfl⟩ := Prod.mk.inj (Except.ok.inj hret)
  intro f
  rw [doInsert_eq_ok hins, count_allocateFd]

theorem dupTo_eq_ok {newFd : ℕ} {r : Option (Option ℕ)}
    (h : a.dupTo oldFd newFd cloexec = .ok (r, a')) :
    ∀ f, a'.count f + r.join.toList.count f = a.count f + if o.file = f then 1 else 0 := by
  unfold dupTo at h
  rw [hget] at h
  dsimp only at h
  split at h
  · obtain ⟨-, -, hrest⟩ := bind_eq_ok.mp h
    obtain ⟨b, hins, hret⟩ := bind_eq_ok.mp hrest
    obtain ⟨rfl, rfl⟩ := Prod.mk.inj (Except.ok.inj hret)
    intro f
    rw [doInsert_eq_ok hins, count_allocateFd]
    rfl
  · next file hnew =>
    obtain ⟨rfl, rfl⟩ := Prod.mk.inj (Except.ok.inj h)
    intro f
    have := SortedMap.total_insert a.files (fun _ o => if o.file = f then 1 else 0) newFd
      ⟨cloexec, o.file⟩
    rw [hnew] at this
    show _ + [file.file].count f = _
    rw [count_single]
    exact this

end

theorem count_erase (hget : a.files.get fd = some o) (f : ℕ) :
    ({ a with files := a.files.erase fd }.releaseFd fd).count f + (if o.file = f then 1 else 0) =
      a.count f := by
  have := SortedMap.total_erase a.files (fun _ o => if o.file = f then 1 else 0) fd
  rw [hget] at this
  unfold FileArray.count
  rw [releaseFd_files]
  exact this

theorem close_count (a : FileArray ℕ) (fd f : ℕ) :
    (a.close fd).2.count f + (a.close fd).1.toList.count f = a.count f := by
  unfold close
  split
  · rfl
  · next o hget =>
    show _ + [o.file].count f = _
    rw [count_single]
    exact count_erase hget f

/-- What `pick` has moved from the table `a`: the picked files, and the rest `b`. -/
structure Picks (a : FileArray ℕ) (pred : ℕ → OpenFile ℕ → Bool)
    (picked : SortedMap ℕ (OpenFile ℕ)) (b : FileArray ℕ) : Prop where
  count : ∀ f, b.count f + (⟨picked, 0⟩ : FileArray ℕ).count f = a.count f
  apart : ∀ fd o, b.files.get fd = some o → picked.get fd = none
  keeps : ∀ fd o, a.files.get fd = some o → pred fd o = false → b.files.get fd = some o
  sub : ∀ fd o, b.files.get fd = some o → a.files.get fd = some o

theorem Picks.step {b : FileArray ℕ} {picked : SortedMap ℕ (OpenFile ℕ)} (h : Picks a pred picked b)
    (hget : b.files.get fd = some o) (hpred : pred fd o = true) :
    Picks a pred (picked.insert fd o) ({ b with files := b.files.erase fd }.releaseFd fd) := by
  refine ⟨fun f => ?_, fun fd' o' h' => ?_, fun fd' o' h' hfalse => ?_, fun fd' o' h' => ?_⟩
  · have hpick := SortedMap.total_insert picked (fun _ o => if o.file = f then 1 else 0) fd o
    rw [h.apart fd o hget] at hpick
    have hb := count_erase hget f
    have hall := h.count f
    simp only [FileArray.count, Option.elim, Nat.add_zero] at hpick hall hb ⊢
    omega
  · rw [releaseFd_files, SortedMap.get_erase] at h'
    split at h'
    · cases h'
    · next hne =>
      rw [SortedMap.get_insert, if_neg hne]
      exact h.apart fd' o' h'
  · rw [releaseFd_files, SortedMap.get_erase, if_neg]
    · exact h.keeps fd' o' h' hfalse
    · rintro rfl
      rw [h.sub _ o hget] at h'
      obtain rfl := Option.some.inj h'
      rw [hfalse] at hpred
      cases hpred
  · rw [releaseFd_files, SortedMap.get_erase] at h'
    split at h'
    · cases h'
    · exact h.sub fd' o' h'

theorem exists_pick (a : FileArray ℕ) (pred : ℕ → OpenFile ℕ → Bool) :
    ∃ r, a.pick pred = .ok r ∧ Picks a pred r.1 r.2 :=
  pick_rule (fun _ _ _ _ h hget hpred => h.step hget hpred)
    ⟨fun _ => rfl, fun _ _ _ => rfl, fun _ _ h _ => h, fun _ _ h => h⟩

end FileArray

namespace FileWorld

/-! ### Counting in all tables -/

/-- The open count is the number of descriptors plus the occurrences in `held`; pipe ends without
any are closed. -/
structure CountOk (w : FileWorld) (held : List ℕ) : Prop where
  count : ∀ f, (w.files f).openCount = (w.slots f : ℤ) + held.count f
  closed : ∀ f < w.nextFile, (w.files f).kind ≠ .inode →
    ((w.files f).closed = true ↔ w.slots f + held.count f = 0)
  fresh : ∀ f, w.nextFile ≤ f → w.slots f + held.count f = 0

variable {w w' : FileWorld} {held held' : List ℕ} {t : ℕ}

theorem CountOk.congr (h : CountOk w held) (hfiles : w'.files = w.files)
    (hnext : w'.nextFile = w.nextFile)
    (heq : ∀ f, w'.slots f + held'.count f = w.slots f + held.count f) : CountOk w' held' := by
  refine ⟨fun f => ?_, fun f hf hk => ?_, fun f hf => ?_⟩
  · have hcount := h.count f
    have hsum := heq f
    rw [hfiles]
    omega
  · rw [hfiles] at hk ⊢
    rw [heq]
    exact h.closed f (hnext ▸ hf) hk
  · rw [heq]
    exact h.fresh f (hnext ▸ hf)

theorem CountOk.lt_nextFile (h : CountOk w held) {f : ℕ} (hpos : 0 < w.slots f + held.count f) :
    f < w.nextFile := by
  by_contra hle
  have hzero := h.fresh f (not_lt.mp hle)
  omega

/-- The data of one file change, which may be a new one. -/
theorem CountOk.updateFile (h : CountOk w held) {f n : ℕ} {x : FileData}
    (hn : f < n ∧ w.nextFile ≤ n ∧ ∀ g, w.nextFile ≤ g → g < n → g = f)
    (hother : ∀ g, g ≠ f → held'.count g = held.count g)
    (hcount : x.openCount = (w.slots f : ℤ) + held'.count f)
    (hclosed : x.kind ≠ .inode → (x.closed = true ↔ w.slots f + held'.count f = 0)) :
    CountOk { w with files := update w.files f x, nextFile := n } held' := by
  obtain ⟨hf, hle, hnew⟩ := hn
  refine ⟨fun g => ?_, fun g hg hk => ?_, fun g hg => ?_⟩
  · show (update w.files f x g).openCount = (w.slots g : ℤ) + _
    by_cases hgf : g = f
    · rw [hgf, update_self, hcount]
    · rw [update_of_ne hgf, hother g hgf, h.count g]
  · change (update w.files f x g).kind ≠ _ at hk
    show (update w.files f x g).closed = true ↔ w.slots g + _ = 0
    by_cases hgf : g = f
    · rw [hgf, update_self] at hk ⊢
      exact hclosed hk
    · rw [update_of_ne hgf] at hk ⊢
      rw [hother g hgf]
      exact h.closed g (not_le.mp fun hle => hgf (hnew g hle hg)) hk
  · have hg : n ≤ g := hg
    rw [hother g (by omega)]
    exact h.fresh g (hle.trans hg)

theorem slots_setTable (w : FileWorld) (t : ℕ) (a : FileArray ℕ) (f : ℕ) :
    (w.setTable t a).slots f + (w.tables.get t).elim 0 (fun b => b.count f) =
      w.slots f + a.count f :=
  SortedMap.total_insert w.tables (fun _ b => b.count f) t a

theorem count_le_slots {a : FileArray ℕ} (h : w.tables.get t = some a) (f : ℕ) :
    a.count f ≤ w.slots f := SortedMap.le_total (fun _ b => b.count f) h

theorem CountOk.setTable {a : FileArray ℕ} (h : CountOk w held)
    (heq : ∀ f, a.count f + held'.count f =
      (w.tables.get t).elim 0 (fun b => b.count f) + held.count f) :
    CountOk (w.setTable t a) held' := by
  refine h.congr rfl rfl fun f => ?_
  have h1 := slots_setTable w t a f
  have h2 := heq f
  omega

theorem CountOk.newFile (h : CountOk w held) (kind : FileKind) :
    CountOk (w.newFile kind).2 (w.nextFile :: held) := by
  have hzero := h.fresh w.nextFile (le_refl _)
  refine h.updateFile ⟨Nat.lt_succ_self _, Nat.le_succ _, fun g _ _ => by omega⟩
    (fun g hg => List.count_cons_of_ne (Ne.symm hg)) ?_ fun _ => ?_
  · rw [List.count_cons_self]
    dsimp only
    omega
  · rw [List.count_cons_self]
    exact ⟨fun h => (nomatch h), fun h => by omega⟩

theorem CountOk.dupFile (h : CountOk w held) {f : ℕ} (hpos : 0 < w.slots f + held.count f) :
    CountOk (w.dupFile f) (f :: held) := by
  have hlt := h.lt_nextFile hpos
  have hcount := h.count f
  refine h.updateFile ⟨hlt, le_refl _, fun g _ _ => by omega⟩
    (fun g hg => List.count_cons_of_ne (Ne.symm hg)) ?_ fun hk => ?_
  · rw [List.count_cons_self]
    dsimp only
    omega
  · rw [List.count_cons_self]
    have hold := h.closed f hlt hk
    refine ⟨fun hc => ?_, fun hz => by omega⟩
    have := hold.mp hc
    omega

theorem CountOk.release {f : ℕ} (h : CountOk w (f :: held)) : CountOk (w.release f) held := by
  have hcount := h.count f
  have hlt := h.lt_nextFile (f := f) (by rw [List.count_cons_self]; omega)
  rw [List.count_cons_self] at hcount
  refine h.updateFile ⟨hlt, le_refl _, fun g _ _ => by omega⟩
    (fun g hg => (List.count_cons_of_ne (Ne.symm hg)).symm) ?_ fun hk => ?_
  · dsimp only
    omega
  · have hopen := h.closed f hlt hk
    rw [List.count_cons_self] at hopen
    simp only [Bool.or_eq_true, Bool.and_eq_true, decide_eq_true_eq]
    constructor
    · rintro (hc | ⟨hone, -⟩)
      · have := hopen.mp hc
        omega
      · omega
    · exact fun hz => Or.inr ⟨by omega, by simpa using hk⟩

/-- The two states differ in the data of files only. -/
structure SameTables (w w' : FileWorld) : Prop where
  tables : w'.tables = w.tables
  nextTable : w'.nextTable = w.nextTable
  threads : w'.threads = w.threads
  zombies : w'.zombies = w.zombies
  nextTid : w'.nextTid = w.nextTid

variable {l : List ℕ}

theorem CountOk.closeFiles : ∀ {w : FileWorld}, CountOk w l →
    ∃ w', closeFiles l w = .ok w' ∧ CountOk w' [] ∧ SameTables w w' := by
  induction l with
  | nil =>
    intro w h
    exact ⟨w, rfl, h, rfl, rfl, rfl, rfl, rfl⟩
  | cons f rest ih =>
    intro w h
    have hcount := h.count f
    rw [List.count_cons_self] at hcount
    obtain ⟨w', hrun, hok, hsame⟩ := ih h.release
    refine ⟨w', ?_, hok, hsame.1, hsame.2, hsame.3, hsame.4, hsame.5⟩
    unfold FileWorld.closeFiles
    have hdrop : 0 < (w.release f).slots f ∨ f ∈ rest ∨ ((w.release f).files f).openCount = 0 := by
      have hrel := h.release.count f
      by_cases hslots : 0 < (w.release f).slots f
      · exact Or.inl hslots
      · by_cases hmem : f ∈ rest
        · exact Or.inr (Or.inl hmem)
        · rw [List.count_eq_zero.mpr hmem] at hrel
          exact Or.inr (Or.inr (by omega))
    rw [assertOr_true _ (by omega), ok_bind]
    dsimp only
    rw [assertOr_true _ hdrop, ok_bind]
    exact hrun

theorem CountOk.foldl_dupFile : ∀ {w : FileWorld} {held : List ℕ}, CountOk w held →
    (∀ f ∈ l, 0 < w.slots f) →
    CountOk (l.foldl FileWorld.dupFile w) (l ++ held) ∧
      SameTables w (l.foldl FileWorld.dupFile w) := by
  induction l with
  | nil =>
    intro w held h _
    exact ⟨h, rfl, rfl, rfl, rfl, rfl⟩
  | cons f rest ih =>
    intro w held h hpos
    have hf := hpos f List.mem_cons_self
    obtain ⟨hok, hsame⟩ := ih (h.dupFile (f := f) (by omega)) fun g hg =>
      hpos g (List.mem_cons_of_mem f hg)
    refine ⟨hok.congr rfl rfl fun g => ?_, hsame.1, hsame.2, hsame.3, hsame.4, hsame.5⟩
    simp only [List.foldl_cons, List.count_append, List.count_cons]
    omega

/-! ### Calls on one table -/

/-- The two states differ in one table and in the data of files. -/
structure OnlyTable (w w' : FileWorld) (t : ℕ) : Prop where
  other : ∀ t', t' ≠ t → w'.tables.get t' = w.tables.get t'
  stays : w'.tables.get t ≠ none
  nextTable : w'.nextTable = w.nextTable
  threads : w'.threads = w.threads
  zombies : w'.zombies = w.zombies
  nextTid : w'.nextTid = w.nextTid

variable {w₁ : FileWorld}

theorem OnlyTable.of_setTable {a : FileArray ℕ} (h1 : SameTables w w₁)
    (h2 : SameTables (w₁.setTable t a) w') : OnlyTable w w' t := by
  refine ⟨fun t' hne => ?_, ?_, h2.nextTable.trans h1.nextTable, h2.threads.trans h1.threads,
    h2.zombies.trans h1.zombies, h2.nextTid.trans h1.nextTid⟩
  · rw [h2.tables]
    simp only [FileWorld.setTable, SortedMap.get_insert, if_neg hne, h1.tables]
  · rw [h2.tables]
    simp only [FileWorld.setTable, SortedMap.get_insert, if_pos, ne_eq, reduceCtorEq,
      not_false_eq_true]

/-- The outcome of a call on table `t`: balanced counts, or a panic of the table itself. -/
def Good (w : FileWorld) (t : ℕ) : Except FilePanic FileWorld → Prop
  | .ok w' => CountOk w' [] ∧ OnlyTable w w' t
  | .error e => ∃ p, e = .table p

theorem good_mapError {α : Type} {x : Except FdPanic α} {k : α → Except FilePanic FileWorld}
    (h : ∀ r, x = .ok r → Good w t (k r)) : Good w t (x.mapError FilePanic.table >>= k) := by
  cases x with
  | error p => exact ⟨p, rfl⟩
  | ok r => exact h r rfl

theorem good_closeFiles {a : FileArray ℕ} (hsame : SameTables w w₁)
    (h : CountOk (w₁.setTable t a) l) : Good w t (closeFiles l (w₁.setTable t a)) := by
  obtain ⟨w', hrun, hok, hsame'⟩ := h.closeFiles
  rw [hrun]
  exact ⟨hok, OnlyTable.of_setTable hsame hsame'⟩

theorem good_setTable {a : FileArray ℕ} (hsame : SameTables w w₁)
    (h : CountOk (w₁.setTable t a) []) : Good w t (.ok (w₁.setTable t a)) :=
  ⟨h, OnlyTable.of_setTable hsame ⟨rfl, rfl, rfl, rfl, rfl⟩⟩

theorem SameTables.refl (w : FileWorld) : SameTables w w := ⟨rfl, rfl, rfl, rfl, rfl⟩

variable {a : FileArray ℕ}

theorem good_refl (h : CountOk w []) (hget : w.tables.get t = some a) : Good w t (.ok w) :=
  ⟨h, fun _ _ => rfl, by rw [hget]; exact Option.some_ne_none a, rfl, rfl, rfl, rfl⟩

def Outcome (w : FileWorld) (tid : ℕ) (x : Except FilePanic FileWorld) : Prop :=
  x = .ok w ∨ ∃ i, w.threads.get tid = some i ∧ Good w i.table x

theorem outcome_withTable {tid : ℕ} {call : ℕ → FileArray ℕ → Except FilePanic FileWorld}
    (h : ∀ t a, w.tables.get t = some a → Good w t (call t a)) :
    Outcome w tid (w.withTable tid call) := by
  unfold withTable
  split
  · exact Or.inl rfl
  · next i hi =>
    split
    · exact Or.inl rfl
    · next a ha => exact Or.inr ⟨i, hi, h i.table a ha⟩

theorem slots_pos (hget : w.tables.get t = some a) {fd : ℕ} {o : OpenFile ℕ}
    (ho : a.files.get fd = some o) : 0 < w.slots o.file :=
  (FileArray.count_pos ho).trans_le (count_le_slots hget o.file)

section

variable (h : CountOk w [])
include h

/-- A file of the table is put into it once more, and the files in `l` are taken out. -/
theorem CountOk.dupInto (hget : w.tables.get t = some a) {fd : ℕ} {o : OpenFile ℕ}
    (ho : a.files.get fd = some o) {a' : FileArray ℕ}
    (heq : ∀ f, a'.count f + l.count f = a.count f + if o.file = f then 1 else 0) :
    CountOk ((w.dupFile o.file).setTable t a') l := by
  have hpos := slots_pos hget ho
  refine (h.dupFile (f := o.file) (by omega)).setTable fun f => ?_
  rw [heq, FileArray.count_single, show (w.dupFile o.file).tables = w.tables from rfl, hget]
  rfl

theorem openFile_outcome (tid : ℕ) (cloexec : Bool) :
    Outcome w tid (w.openFile tid cloexec) := by
  refine outcome_withTable fun t a hget => good_mapError fun r hr =>
    good_setTable ⟨rfl, rfl, rfl, rfl, rfl⟩ ((h.newFile .inode).setTable fun f => ?_)
  rw [FileArray.addFile_eq_ok hr, FileArray.count_single,
    show (w.newFile .inode).2.tables = w.tables from rfl, hget]
  rfl

theorem openPair_outcome (tid : ℕ) (cloexec : Bool) (left right : FileKind) :
    Outcome w tid (w.openPair tid cloexec left right) := by
  refine outcome_withTable fun t a hget => good_mapError fun r hr =>
    good_setTable ⟨rfl, rfl, rfl, rfl, rfl⟩
      (((h.newFile left).newFile right).setTable fun f => ?_)
  rw [FileArray.addPair_eq_ok hr, List.count_cons, FileArray.count_single,
    show ((w.newFile left).2.newFile right).2.tables = w.tables from rfl, hget]
  simp only [Option.elim, List.count_nil, beq_iff_eq]
  show a.count f + (if w.nextFile = f then 1 else 0) + (if w.nextFile + 1 = f then 1 else 0) + 0 =
    a.count f + ((if w.nextFile = f then 1 else 0) + if w.nextFile + 1 = f then 1 else 0)
  omega

theorem dup_outcome (tid oldFd : ℕ) : Outcome w tid (w.dup tid oldFd) := by
  refine outcome_withTable fun t a hget => ?_
  split
  · exact good_refl h hget
  · next o ho =>
    exact good_mapError fun r hr => good_setTable ⟨rfl, rfl, rfl, rfl, rfl⟩
      (h.dupInto hget ho (FileArray.dup_eq_ok ho hr))

theorem fcntlDup_outcome (tid oldFd : ℕ) (cloexec : Bool) (arg : ℕ) :
    Outcome w tid (w.fcntlDup tid oldFd cloexec arg) := by
  refine outcome_withTable fun t a hget => ?_
  split
  · exact good_refl h hget
  · next o ho =>
    exact good_mapError fun r hr => good_setTable ⟨rfl, rfl, rfl, rfl, rfl⟩
      (h.dupInto hget ho (FileArray.fcntlDup_eq_ok ho hr))

theorem dupTo_outcome (tid oldFd newFd : ℕ) (cloexec : Bool) :
    Outcome w tid (w.dupTo tid oldFd newFd cloexec) := by
  refine outcome_withTable fun t a hget => ?_
  split
  · exact good_refl h hget
  · next o ho =>
    exact good_mapError fun r hr => good_closeFiles ⟨rfl, rfl, rfl, rfl, rfl⟩
      (h.dupInto hget ho (FileArray.dupTo_eq_ok ho hr))

theorem close_outcome (tid fd : ℕ) : Outcome w tid (w.close tid fd) := by
  refine outcome_withTable fun t a hget =>
    good_closeFiles (SameTables.refl w) (h.setTable fun f => ?_)
  rw [a.close_count fd f, hget]
  rfl

theorem CountOk.picks (hget : w.tables.get t = some a) {r : SortedMap ℕ (OpenFile ℕ) × FileArray ℕ}
    (hr : FileArray.Picks a pred r.1 r.2) :
    CountOk (w.setTable t r.2) (filesOf r.1.entries) := h.setTable fun f => by
  rw [FileArray.count_filesOf ⟨r.1, 0⟩ f, hr.count f, hget]
  rfl

theorem closeRange_outcome (tid first last : ℕ) :
    Outcome w tid (w.closeRange tid first last) := by
  refine outcome_withTable fun t a hget => good_mapError fun r hr => ?_
  obtain ⟨r', hrun, hpicks⟩ := a.exists_pick fun fd _ => first ≤ fd && fd ≤ last
  obtain rfl : r' = r := Except.ok.inj (hrun.symm.trans hr)
  exact good_closeFiles (SameTables.refl w) (h.picks hget hpicks)

end

end FileWorld

end Dlutos.Files
