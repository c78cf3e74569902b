import Dlutos.Files.OpenCount

/-!
# Histories of open, clone and exit

The invariant of a history is that the counts are balanced (`CountOk`) and that every table with a
descriptor in it is held by a live thread (`Owned`).  `do_exit` keeps the second part only under
the condition `Op.Respects`; the main theorem is about all histories whose steps meet it.
-/

namespace Dlutos.Files.FileWorld

open ExceptLoop Transition

variable {w w' : FileWorld} {t : ℕ} {a : FileArray ℕ}

def Empty (w : FileWorld) (t : ℕ) : Prop :=
  ∀ a, w.tables.get t = some a → ∀ fd, a.files.get fd = none

structure Owned (w : FileWorld) : Prop where
  table : ∀ tid i, w.threads.get tid = some i → w.tables.get i.table ≠ none
  alive : ∀ t, (∃ tid i, w.threads.get tid = some i ∧ i.table = t) ∨ w.Empty t
  fresh_table : ∀ t, w.nextTable ≤ t → w.tables.get t = none
  fresh_thread : ∀ tid, w.nextTid ≤ tid → w.threads.get tid = none

/-- What every step of a history keeps. -/
structure Inv (w : FileWorld) : Prop where
  count : CountOk w []
  owned : Owned w

theorem live_iff : w.Live t ↔ ∃ tid i, w.threads.get tid = some i ∧ i.table = t := by
  constructor
  · rintro ⟨e, he, ht⟩
    exact ⟨e.1, e.2, SortedMap.mem_entries.mp he, ht⟩
  · rintro ⟨tid, i, hi, ht⟩
    exact ⟨(tid, i), SortedMap.mem_entries.mpr hi, ht⟩

theorem Owned.onlyTable (h : Owned w) {tid : ℕ} {i : ThreadInfo} (hi : w.threads.get tid = some i)
    (ho : OnlyTable w w' i.table) : Owned w' := by
  refine ⟨fun u j hj => ?_, fun t => ?_, fun t ht => ?_, fun u hu => ?_⟩
  · rw [ho.threads] at hj
    by_cases ht : j.table = i.table
    · rw [ht]
      exact ho.stays
    · rw [ho.other _ ht]
      exact h.table u j hj
  · rw [ho.threads]
    by_cases ht : t = i.table
    · exact Or.inl ⟨tid, i, hi, ht.symm⟩
    · refine (h.alive t).imp id fun hempty => ?_
      unfold Empty
      rw [ho.other t ht]
      exact hempty
  · rw [ho.nextTable] at ht
    have hnone := h.fresh_table t ht
    rw [ho.other t fun heq => h.table tid i hi (heq ▸ hnone)]
    exact hnone
  · rw [ho.threads]
    rw [ho.nextTid] at hu
    exact h.fresh_thread u hu

/-! ### Effects on other processes -/

def Op.caller : Op → Option ℕ
  | .openFile tid _ | .pipe tid _ | .socketpair tid _ | .dup tid _ | .fcntlDup tid _ _ _
  | .dupTo tid _ _ _ | .close tid _ | .closeRange tid _ _ | .exec tid | .clone tid _ _
  | .exit tid _ => some tid
  | .wait _ => none

/-- Calls that are meant to act on a table, also where it is shared. -/
def Op.actsOnShared : Op → Bool
  | .exec _ | .clone _ _ _ | .exit _ _ | .wait _ => false
  | _ => true

/-- The call leaves a thread of another process alone, and the descriptors of its table unless it
acts on a shared one. -/
def KeepsOthers (w : FileWorld) (op : Op) (w' : FileWorld) : Prop :=
  ∀ v j a, w.threads.get v = some j → w.tables.get j.table = some a →
    (∀ tid i, op.caller = some tid → w.threads.get tid = some i →
      i.pid ≠ j.pid ∧ (op.actsOnShared = true → i.table ≠ j.table)) →
    w'.threads.get v = some j ∧
      ∃ a', w'.tables.get j.table = some a' ∧ ∀ fd, a'.files.get fd = a.files.get fd

theorem keepsOthers_refl (w : FileWorld) (op : Op) : KeepsOthers w op w :=
  fun _ _ a hv ha _ => ⟨hv, a, ha, fun _ => rfl⟩

theorem keepsOthers_of_onlyTable {op : Op} {tid : ℕ} {i : ThreadInfo}
    (hcaller : op.caller = some tid) (hshared : op.actsOnShared = true)
    (hi : w.threads.get tid = some i) (ho : OnlyTable w w' i.table) : KeepsOthers w op w' := by
  intro v j a hv ha hother
  have hne := (hother tid i hcaller hi).2 hshared
  refine ⟨by rw [ho.threads]; exact hv, a, ?_, fun _ => rfl⟩
  rw [ho.other _ (Ne.symm hne)]
  exact ha

def StepOk (w : FileWorld) (op : Op) : Except FilePanic FileWorld → Prop
  | .ok w' => Inv w' ∧ KeepsOthers w op w'
  | .error e => e = .initExited ∨ ∃ p, e = .table p

theorem Inv.stepOk_of_outcome (h : Inv w) {op : Op} {tid : ℕ} (hcaller : op.caller = some tid)
    (hshared : op.actsOnShared = true) {x : Except FilePanic FileWorld} (hx : Outcome w tid x) :
    StepOk w op x := by
  rcases hx with rfl | ⟨i, hi, hgood⟩
  · exact ⟨h, keepsOthers_refl w op⟩
  · cases x with
    | error e => exact Or.inr hgood
    | ok w' =>
      exact ⟨⟨hgood.1, h.owned.onlyTable hi hgood.2⟩,
        keepsOthers_of_onlyTable hcaller hshared hi hgood.2⟩

/-! ### exec -/

/-- If another process shares the table, then it has no descriptors to close. -/
def ExecRespects (w : FileWorld) (tid : ℕ) : Prop :=
  ∀ i a, w.threads.get tid = some i → w.tables.get i.table = some a →
    (∃ v j, w.threads.get v = some j ∧ j.pid ≠ i.pid ∧ j.table = i.table) →
    ∀ fd o, a.files.get fd = some o → o.cloexec = false

theorem Inv.exec (h : Inv w) {tid : ℕ} (hr : ExecRespects w tid) :
    StepOk w (.exec tid) (w.exec tid) := by
  unfold FileWorld.exec withTable
  split
  · exact ⟨h, keepsOthers_refl w _⟩
  next i hi =>
  split
  · exact ⟨h, keepsOthers_refl w _⟩
  next a ha =>
  obtain ⟨r, hpick, hpicks⟩ := a.exists_pick fun _ o => o.cloexec
  obtain ⟨w', hclose, hcount, hsame⟩ := (h.count.picks ha hpicks).closeFiles
  have honly : OnlyTable w w' i.table := .of_setTable (.refl w) hsame
  dsimp only
  rw [show a.onExec = .ok r from hpick]
  change StepOk w _ (closeFiles _ _)
  rw [hclose]
  refine ⟨⟨hcount, h.owned.onlyTable hi honly⟩, fun v j b hv hb hother => ?_⟩
  refine ⟨by rw [honly.threads]; exact hv, ?_⟩
  by_cases hshared : j.table = i.table
  · -- the table is shared: nothing is picked
    have hkeep := hr i a hi ha ⟨v, j, hv, Ne.symm (hother tid i rfl hi).1, hshared⟩
    rw [hshared, ha] at hb
    cases hb
    refine ⟨r.2, ?_, fun fd => ?_⟩
    · rw [hsame.tables, hshared]
      simp only [setTable, SortedMap.get_insert, if_pos]
    · cases hget : a.files.get fd with
      | some o => exact hpicks.keeps fd o hget (hkeep fd o hget)
      | none =>
        by_contra hne
        obtain ⟨o, ho⟩ := Option.ne_none_iff_exists'.mp hne
        rw [hpicks.sub fd o ho] at hget
        cases hget
  · exact ⟨b, by rw [honly.other _ hshared]; exact hb, fun _ => rfl⟩

/-! ### clone -/

theorem Owned.get_insert (h : Owned w) (x : ThreadInfo) {v : ℕ} {j : ThreadInfo}
    (hv : w.threads.get v = some j) : (w.threads.insert w.nextTid x).get v = some j := by
  rw [SortedMap.get_insert, if_neg]
  · exact hv
  · rintro rfl
    rw [h.fresh_thread _ (le_refl _)] at hv
    cases hv

theorem Owned.addThread (h : Owned w) {i : ThreadInfo}
    (hthreads : w'.threads = w.threads.insert w.nextTid i) (htid : w'.nextTid = w.nextTid + 1)
    (htables : ∀ t, t ≠ i.table → w'.tables.get t = w.tables.get t)
    (htable : w'.tables.get i.table ≠ none) (hle : w.nextTable ≤ w'.nextTable)
    (hlt : i.table < w'.nextTable) : Owned w' := by
  refine ⟨fun u j hj => ?_, fun t => ?_, fun t ht => ?_, fun u hu => ?_⟩
  · rw [hthreads, SortedMap.get_insert] at hj
    by_cases hji : j.table = i.table
    · rw [hji]
      exact htable
    · rw [htables _ hji]
      split at hj
      · exact absurd (Option.some.inj hj ▸ rfl) hji
      · exact h.table u j hj
  · by_cases hti : t = i.table
    · refine Or.inl ⟨w.nextTid, i, ?_, hti.symm⟩
      rw [hthreads, SortedMap.get_insert, if_pos rfl]
    · rcases h.alive t with ⟨u, j, hj, htab⟩ | hempty
      · exact Or.inl ⟨u, j, hthreads ▸ h.get_insert i hj, htab⟩
      · refine Or.inr ?_
        unfold Empty
        rw [htables t hti]
        exact hempty
  · rw [htables t (by omega)]
    exact h.fresh_table t (by omega)
  · rw [hthreads, SortedMap.get_insert, if_neg (by omega)]
    exact h.fresh_thread u (by omega)

theorem Inv.clone (h : Inv w) (tid : ℕ) (cloneFiles cloneThread : Bool) :
    StepOk w (.clone tid cloneFiles cloneThread) (w.clone tid cloneFiles cloneThread) := by
  unfold FileWorld.clone
  split
  · exact ⟨h, keepsOthers_refl w _⟩
  · next i hi =>
    have htab := h.owned.table tid i hi
    have hbelow : i.table < w.nextTable := not_le.mp fun hle => htab (h.owned.fresh_table _ hle)
    cases cloneFiles with
    | true =>
      refine ⟨⟨h.count.congr rfl rfl fun _ => rfl, ?_⟩, fun v j a hv ha _ => ?_⟩
      · exact h.owned.addThread rfl rfl (fun _ _ => rfl) htab (le_refl _) hbelow
      · exact ⟨h.owned.get_insert _ hv, a, ha, fun _ => rfl⟩
    | false =>
      simp only [Bool.false_eq_true, if_false]
      obtain ⟨a, ha⟩ := Option.ne_none_iff_exists'.mp htab
      rw [ha]
      dsimp only
      -- the copied table holds every file of the old one once more
      have hpos : ∀ f ∈ filesOf a.files.entries, 0 < w.slots f := by
        intro f hf
        obtain ⟨e, he, rfl⟩ := List.mem_map.mp hf
        exact slots_pos ha (SortedMap.mem_entries.mp he)
      obtain ⟨hdup, hsame⟩ := h.count.foldl_dupFile hpos
      generalize (filesOf a.files.entries).foldl dupFile w = w1 at hdup hsame ⊢
      have hnew := h.owned.fresh_table w.nextTable (le_refl _)
      have hcount : CountOk (w1.setTable w.nextTable a) [] := hdup.setTable fun f => by
        rw [hsame.tables, hnew, List.append_nil, FileArray.count_filesOf]
        exact (Nat.zero_add _).symm
      have htables : ∀ t, t ≠ w.nextTable →
          (w1.setTable w.nextTable a).tables.get t = w.tables.get t := by
        intro t ht
        simp only [setTable, SortedMap.get_insert, if_neg ht, hsame.tables]
      have hself : (w1.setTable w.nextTable a).tables.get w.nextTable = some a := by
        simp only [setTable, SortedMap.get_insert, if_pos]
      have hthreads : (w1.setTable w.nextTable a).threads = w.threads := hsame.threads
      have htid : (w1.setTable w.nextTable a).nextTid = w.nextTid := hsame.nextTid
      rw [hthreads, htid]
      refine ⟨⟨hcount.congr rfl rfl fun _ => rfl, ?_⟩, fun v j b hv hb _ => ?_⟩
      · exact h.owned.addThread rfl rfl htables (by rw [hself]; exact Option.some_ne_none a)
          (Nat.le_succ _) (Nat.lt_succ_self _)
      · refine ⟨h.owned.get_insert _ hv, b, ?_, fun _ => rfl⟩
        rw [← hb]
        refine htables j.table ?_
        rintro heq
        rw [heq, hnew] at hb
        cases hb

/-! ### exit and wait -/

theorem held_congr (hthreads : w'.threads = w.threads) (hzombies : w'.zombies = w.zombies) (t : ℕ) :
    w'.Held t ↔ w.Held t := by
  unfold Held Live
  rw [hthreads, hzombies]

/-- A state in which some unheld tables without descriptors are dropped. -/
structure Dropped (w w' : FileWorld) : Prop where
  count : CountOk w' []
  threads : w'.threads = w.threads
  zombies : w'.zombies = w.zombies
  nextTable : w'.nextTable = w.nextTable
  nextTid : w'.nextTid = w.nextTid
  held : ∀ t, w.Held t → w'.tables.get t = w.tables.get t
  sub : ∀ t a, w'.tables.get t = some a → w.tables.get t = some a

theorem Dropped.refl (h : CountOk w []) : Dropped w w :=
  ⟨h, rfl, rfl, rfl, rfl, fun _ _ => rfl, fun _ _ h => h⟩

theorem CountOk.dropTable (h : CountOk w []) (hempty : ¬ w.Held t → w.Empty t) :
    ∃ w', dropTable w t = .ok w' ∧ Dropped w w' := by
  unfold FileWorld.dropTable
  by_cases hheld : w.Held t
  · rw [if_pos hheld]
    exact ⟨w, rfl, .refl h⟩
  · rw [if_neg hheld]
    cases ha : w.tables.get t with
    | none => exact ⟨w, rfl, .refl h⟩
    | some a =>
      dsimp only
      have hfd := hempty hheld a ha
      have hslots : ∀ f, ({ w with tables := w.tables.erase t } : FileWorld).slots f =
          w.slots f := by
        intro f
        have htotal := SortedMap.total_erase w.tables (fun _ b => b.count f) t
        rw [ha] at htotal
        simp only [Option.elim, FileArray.count_eq_zero hfd, Nat.add_zero] at htotal
        exact htotal
      have hnone : filesOf a.files.entries = [] := by
        refine List.eq_nil_iff_forall_not_mem.mpr fun f hf => ?_
        have hpos := List.count_pos_iff.mpr hf
        rw [FileArray.count_filesOf, FileArray.count_eq_zero hfd] at hpos
        exact absurd hpos (Nat.lt_irrefl 0)
      rw [assertOr_true _ (by rw [hnone]; exact fun _ h => absurd h List.not_mem_nil), ok_bind]
      refine ⟨_, rfl, h.congr rfl rfl fun f => by rw [hslots], rfl, rfl, rfl, rfl,
        fun t' ht' => ?_, fun t' b hb => ?_⟩
      · rw [SortedMap.get_erase, if_neg]
        rintro rfl
        exact hheld ht'
      · rw [SortedMap.get_erase] at hb
        split at hb
        · cases hb
        · exact hb

theorem Dropped.dropTable (h : Dropped w w') (hempty : ¬ w.Held t → w.Empty t) :
    ∃ w'', dropTable w' t = .ok w'' ∧ Dropped w w'' := by
  have hheld := held_congr h.threads h.zombies
  obtain ⟨w'', hrun, hd⟩ := h.count.dropTable (t := t) fun hnot a ha =>
    hempty (fun h => hnot ((hheld t).mpr h)) a (h.sub t a ha)
  refine ⟨w'', hrun, hd.count, hd.threads.trans h.threads, hd.zombies.trans h.zombies,
    hd.nextTable.trans h.nextTable, hd.nextTid.trans h.nextTid, fun t' ht' => ?_,
    fun t' a ha => h.sub t' a (hd.sub t' a ha)⟩
  rw [hd.held t' ((hheld t').mpr ht')]
  exact h.held t' ht'

theorem dropTables_ok (h : CountOk w []) (ts : List ℕ) (hempty : ∀ t ∈ ts, ¬ w.Held t → w.Empty t) :
    ∃ w', ts.foldlM FileWorld.dropTable w = .ok w' ∧ Dropped w w' := by
  refine foldlM_ok (I := fun _ w' => Dropped w w') ts (fun done t rest w' hts hI => ?_)
    (Dropped.refl h)
  exact hI.dropTable (hempty t (by rw [hts]; simp))

theorem Owned.dropped (h : Owned w) (hd : Dropped w w') : Owned w' := by
  refine ⟨fun u j hj => ?_, fun t => ?_, fun t ht => ?_, fun u hu => ?_⟩
  · rw [hd.threads] at hj
    rw [hd.held _ (Or.inl (live_iff.mpr ⟨u, j, hj, rfl⟩))]
    exact h.table u j hj
  · rw [hd.threads]
    exact (h.alive t).imp id fun hempty a ha => hempty a (hd.sub t a ha)
  · rw [hd.nextTable] at ht
    by_contra hne
    obtain ⟨a, ha⟩ := Option.ne_none_iff_exists'.mp hne
    have := hd.sub t a ha
    rw [h.fresh_table t ht] at this
    cases this
  · rw [hd.threads]
    rw [hd.nextTid] at hu
    exact h.fresh_thread u hu

theorem Inv.wait (h : Inv w) (pid : ℕ) : StepOk w (.wait pid) (w.wait pid) := by
  unfold FileWorld.wait
  split
  · exact ⟨h, keepsOthers_refl w _⟩
  · next t ht =>
    -- a table with descriptors has a live thread, so it is not dropped
    have howned : Owned { w with zombies := w.zombies.erase pid } :=
      ⟨h.owned.table, h.owned.alive, h.owned.fresh_table, h.owned.fresh_thread⟩
    have hcount : CountOk { w with zombies := w.zombies.erase pid } [] :=
      h.count.congr rfl rfl fun _ => rfl
    obtain ⟨w', hrun, hd⟩ := (Dropped.refl hcount).dropTable (t := t) fun hnot =>
      (howned.alive t).resolve_left fun hlive => hnot (Or.inl (live_iff.mpr hlive))
    rw [hrun]
    refine ⟨⟨hd.count, howned.dropped hd⟩, fun v j a hv ha _ => ?_⟩
    refine ⟨by rw [hd.threads]; exact hv, a, ?_, fun _ => rfl⟩
    rw [hd.held _ (Or.inl (live_iff.mpr ⟨v, j, hv, rfl⟩))]
    exact ha

/-- An exit closes no table of a surviving thread, unless it is empty, and every other table of an
exiting thread. -/
def ExitRespects (w : FileWorld) (tid : ℕ) (group : Bool) : Prop :=
  ∀ i, w.threads.get tid = some i →
    (w.EndsProcess i.pid group →
      (∃ v j, w.threads.get v = some j ∧ v ∉ w.exitingTids tid i.pid group ∧ j.table = i.table) →
      w.Empty i.table) ∧
    ∀ u j, u ∈ w.exitingTids tid i.pid group → w.threads.get u = some j →
      (w.EndsProcess i.pid group ∧ j.table = i.table) ∨
      (∃ v k, w.threads.get v = some k ∧ v ∉ w.exitingTids tid i.pid group ∧ k.table = j.table) ∨
      w.Empty j.table

theorem pid_of_mem_exitingTids {tid : ℕ} {group : Bool} {i j : ThreadInfo} {u : ℕ}
    (hi : w.threads.get tid = some i) (hu : u ∈ w.exitingTids tid i.pid group)
    (hj : w.threads.get u = some j) : j.pid = i.pid := by
  unfold exitingTids at hu
  split at hu
  · obtain ⟨e, he, rfl⟩ := List.mem_map.mp hu
    obtain ⟨hmem, hpid⟩ := List.mem_filter.mp he
    rw [SortedMap.mem_entries.mp (show (e.1, e.2) ∈ w.threads.entries from hmem)] at hj
    obtain rfl := Option.some.inj hj
    exact of_decide_eq_true hpid
  · rw [List.mem_singleton.mp hu, hi] at hj
    rw [Option.some.inj hj]

theorem closeAllOf_ok (h : CountOk w []) (ht : w.tables.get t = some a) :
    ∃ w', w.closeAllOf t = .ok w' ∧ CountOk w' [] ∧ OnlyTable w w' t ∧ w'.Empty t := by
  unfold closeAllOf
  rw [ht]
  dsimp only
  have hcount : CountOk (w.setTable t a.closeAll.2) (a.closeAll.1.map OpenFile.file) :=
    h.setTable fun f => by
      have hmap : a.closeAll.1.map OpenFile.file = filesOf a.files.entries := by
        unfold FileArray.closeAll filesOf
        rw [List.map_map]
        rfl
      rw [hmap, FileArray.count_filesOf, ht]
      show 0 + a.count f = a.count f + 0
      omega
  obtain ⟨w', hrun, hok, hsame⟩ := hcount.closeFiles
  refine ⟨w', hrun, hok, OnlyTable.of_setTable (SameTables.refl w) hsame, fun b hb fd => ?_⟩
  rw [hsame.tables] at hb
  simp only [setTable, SortedMap.get_insert, if_pos, Option.some.injEq] at hb
  rw [← hb]
  rfl

/-- What an exit has done before it drops tables. -/
structure Exited (w w' : FileWorld) (i : ThreadInfo) (tids : List ℕ) (ends : Prop) : Prop where
  count : CountOk w' []
  threads : ∀ v, w'.threads.get v = if v ∈ tids then none else w.threads.get v
  nextTable : w'.nextTable = w.nextTable
  nextTid : w'.nextTid = w.nextTid
  other : ∀ t, ¬ (ends ∧ t = i.table) → w'.tables.get t = w.tables.get t
  emptied : ends → w'.Empty i.table
  stays : w'.tables.get i.table ≠ none

theorem exists_exited (h : Inv w) {tid : ℕ} {i : ThreadInfo} (hi : w.threads.get tid = some i)
    (group : Bool) :
    ∃ w1, w.closeIfEnds i group = .ok w1 ∧
      Exited w (w1.removeThreads (w.exitingTids tid i.pid group) i.pid) i
        (w.exitingTids tid i.pid group) (w.EndsProcess i.pid group) := by
  obtain ⟨a, ha⟩ := Option.ne_none_iff_exists'.mp (h.owned.table tid i hi)
  unfold closeIfEnds
  by_cases hends : w.EndsProcess i.pid group
  · obtain ⟨w1, hrun, hcount, honly, hempty⟩ := closeAllOf_ok h.count ha
    refine ⟨w1, by rw [if_pos hends]; exact hrun, hcount.congr rfl rfl fun _ => rfl,
      fun v => ?_, honly.nextTable, honly.nextTid,
      fun t ht => honly.other t fun heq => ht ⟨hends, heq⟩, fun _ => hempty, honly.stays⟩
    simp only [removeThreads, SortedMap.get_foldl_erase, honly.threads]
  · refine ⟨w, by rw [if_neg hends], h.count.congr rfl rfl fun _ => rfl, fun v => ?_, rfl,
      rfl, fun _ _ => rfl, fun he => absurd he hends, by
        show w.tables.get i.table ≠ none
        rw [ha]
        exact Option.some_ne_none a⟩
    simp only [removeThreads, SortedMap.get_foldl_erase]

theorem Exited.owned {i : ThreadInfo} {tids : List ℕ} {ends : Prop} (h : Owned w)
    (he : Exited w w' i tids ends) (hi : w.tables.get i.table ≠ none)
    (hr : ∀ u j, u ∈ tids → w.threads.get u = some j → (ends ∧ j.table = i.table) ∨
      (∃ v k, w.threads.get v = some k ∧ v ∉ tids ∧ k.table = j.table) ∨ w.Empty j.table) :
    Owned w' := by
  have hempty : ∀ t, w.Empty t → ¬ (ends ∧ t = i.table) → w'.Empty t := by
    intro t ht hne
    unfold Empty
    rw [he.other t hne]
    exact ht
  refine ⟨fun u j hj => ?_, fun t => ?_, fun t ht => ?_, fun u hu => ?_⟩
  · rw [he.threads] at hj
    split at hj
    · cases hj
    · by_cases hcase : ends ∧ j.table = i.table
      · rw [hcase.2]
        exact he.stays
      · rw [he.other _ hcase]
        exact h.table u j hj
  · by_cases hcase : ends ∧ t = i.table
    · exact Or.inr (hcase.2 ▸ he.emptied hcase.1)
    · rcases h.alive t with ⟨u, j, hj, rfl⟩ | ht
      · by_cases hu : u ∈ tids
        · rcases hr u j hu hj with hcl | ⟨v, k, hk, hv, htab⟩ | hnone
          · exact absurd hcl hcase
          · exact Or.inl ⟨v, k, by rw [he.threads, if_neg hv]; exact hk, htab⟩
          · exact Or.inr (hempty _ hnone hcase)
        · exact Or.inl ⟨u, j, by rw [he.threads, if_neg hu]; exact hj, rfl⟩
      · exact Or.inr (hempty t ht hcase)
  · rw [he.nextTable] at ht
    have hnone := h.fresh_table t ht
    by_cases hcase : ends ∧ t = i.table
    · exact absurd (hcase.2 ▸ hnone) hi
    · rw [he.other t hcase]
      exact hnone
  · rw [he.threads]
    rw [he.nextTid] at hu
    split
    · rfl
    · exact h.fresh_thread u hu

theorem Inv.exit (h : Inv w) {tid : ℕ} {group : Bool} (hr : ExitRespects w tid group) :
    StepOk w (.exit tid group) (w.exit tid group) := by
  unfold FileWorld.exit
  cases hi : w.threads.get tid with
  | none => exact ⟨h, keepsOthers_refl w _⟩
  | some i =>
    dsimp only
    obtain ⟨hclose, hleave⟩ := hr i hi
    by_cases hinit : i.pid = 1
    · rw [show (assertOr (i.pid ≠ 1) FilePanic.initExited : Except FilePanic Unit) =
        .error .initExited from if_neg fun hne => hne hinit, error_bind]
      exact Or.inl rfl
    rw [assertOr_true _ hinit, ok_bind]
    obtain ⟨w1, hrun, he⟩ := exists_exited h hi group
    rw [hrun, ok_bind]
    have howned := he.owned h.owned (h.owned.table tid i hi) hleave
    obtain ⟨w2, hdrop, hd⟩ := dropTables_ok he.count
      (w.tablesOf (w.exitingTids tid i.pid group)) fun t _ hnot =>
        (howned.alive t).resolve_left fun hlive => hnot (Or.inl (live_iff.mpr hlive))
    rw [hdrop]
    refine ⟨⟨hd.count, howned.dropped hd⟩, fun v j a hv ha hother => ?_⟩
    -- a thread of another process survives, and with it its table
    have hout : v ∉ w.exitingTids tid i.pid group := fun hin =>
      (hother tid i rfl hi).1 (pid_of_mem_exitingTids hi hin hv).symm
    have hv' := he.threads v
    rw [if_neg hout, hv] at hv'
    refine ⟨by rw [hd.threads]; exact hv', ?_⟩
    rw [hd.held _ (Or.inl (live_iff.mpr ⟨v, j, hv', rfl⟩))]
    by_cases hcase : w.EndsProcess i.pid group ∧ j.table = i.table
    · -- the shared table was empty and still is
      have hbefore := hclose hcase.1 ⟨v, j, hv, hout, hcase.2⟩ a (hcase.2 ▸ ha)
      obtain ⟨b, hb⟩ := Option.ne_none_iff_exists'.mp he.stays
      refine ⟨b, hcase.2 ▸ hb, fun fd => ?_⟩
      rw [he.emptied hcase.1 b hb fd, hbefore fd]
    · exact ⟨a, by rw [he.other _ hcase]; exact ha, fun _ => rfl⟩

/-! ### Histories -/

/-- The condition on a step of a history. -/
def Op.Respects (w : FileWorld) : Op → Prop
  | .exec tid => w.ExecRespects tid
  | .exit tid group => w.ExitRespects tid group
  | _ => True

theorem Inv.step (h : Inv w) {op : Op} (hr : op.Respects w) : StepOk w op (op.run w) := by
  cases op with
  | openFile tid cloexec => exact h.stepOk_of_outcome rfl rfl (openFile_outcome h.count tid cloexec)
  | pipe tid cloexec => exact h.stepOk_of_outcome rfl rfl (openPair_outcome h.count tid cloexec _ _)
  | socketpair tid cloexec =>
    exact h.stepOk_of_outcome rfl rfl (openPair_outcome h.count tid cloexec _ _)
  | dup tid oldFd => exact h.stepOk_of_outcome rfl rfl (dup_outcome h.count tid oldFd)
  | fcntlDup tid oldFd cloexec arg =>
    exact h.stepOk_of_outcome rfl rfl (fcntlDup_outcome h.count tid oldFd cloexec arg)
  | dupTo tid oldFd newFd cloexec =>
    exact h.stepOk_of_outcome rfl rfl (dupTo_outcome h.count tid oldFd newFd cloexec)
  | close tid fd => exact h.stepOk_of_outcome rfl rfl (close_outcome h.count tid fd)
  | closeRange tid first last =>
    exact h.stepOk_of_outcome rfl rfl (closeRange_outcome h.count tid first last)
  | exec tid => exact h.exec hr
  | clone tid cloneFiles cloneThread => exact h.clone tid cloneFiles cloneThread
  | exit tid group => exact h.exit hr
  | wait pid => exact h.wait pid

theorem inv_boot : Inv boot := by
  refine ⟨⟨fun _ => rfl, fun f hf => absurd hf (Nat.not_lt_zero f), fun _ _ => rfl⟩,
    fun tid i hi => ?_, fun t => ?_, fun t ht => ?_, fun tid htid => ?_⟩
  · simp only [boot, SortedMap.get_insert, SortedMap.get_empty] at hi
    split at hi
    · obtain rfl := Option.some.inj hi
      exact Option.some_ne_none _
    · cases hi
  · refine Or.inr fun a ha fd => ?_
    simp only [boot, SortedMap.get_insert, SortedMap.get_empty] at ha
    split at ha
    · obtain rfl := Option.some.inj ha
      rfl
    · cases ha
  · have hlt : 1 ≤ t := ht
    simp only [boot, SortedMap.get_insert, SortedMap.get_empty]
    rw [if_neg (by omega)]
  · have hlt : 2 ≤ tid := htid
    simp only [boot, SortedMap.get_insert, SortedMap.get_empty]
    rw [if_neg (by omega)]

/-- The histories whose steps meet the condition. -/
def historyMachine : System FileWorld Op FilePanic where
  init w := w = boot
  allowed w op := op.Respects w
  run := Op.run

def liveSlots (w : FileWorld) (f : ℕ) : ℕ :=
  w.tables.total fun t a => if w.Live t then a.count f else 0

structure Accounted (w : FileWorld) : Prop where
  open_count : ∀ f, (w.files f).openCount = w.liveSlots f
  /-- The ends of a pipe are closed when there are none left. -/
  closed : ∀ f < w.nextFile, (w.files f).kind ≠ .inode →
    ((w.files f).closed = true ↔ w.liveSlots f = 0)

theorem Inv.accounted (h : Inv w) : Accounted w := by
  have hslots : ∀ f, w.liveSlots f = w.slots f := by
    intro f
    refine SortedMap.total_congr fun t a ha => ?_
    rcases h.owned.alive t with hlive | hempty
    · exact if_pos (live_iff.mpr hlive)
    · rw [FileArray.count_eq_zero (hempty a ha), ite_self]
  refine ⟨fun f => ?_, fun f hf hk => ?_⟩
  · rw [hslots, h.count.count f, List.count_nil]
    omega
  · have := h.count.closed f hf hk
    rwa [List.count_nil, Nat.add_zero, ← hslots] at this

/-- While the steps meet the condition the open counts are right, no step changes descriptors of
another process, and neither `File::close` nor `FileData::drop` panics. -/
theorem openCounts_of_reachable {w : FileWorld} (hs : historyMachine.Reachable w) :
    Accounted w ∧ ∀ op : Op, op.Respects w →
      (∃ w', op.run w = .ok w' ∧ Accounted w' ∧ KeepsOthers w op w') ∨
        op.run w = .error .initExited ∨ ∃ p, op.run w = .error (.table p) := by
  have hinv : Inv w := by
    refine Reachable.invariant (P := Inv) (fun s hinit => ?_) (fun s s' hP hst => ?_) hs
    · rw [show s = boot from hinit]
      exact inv_boot
    · obtain ⟨op, hr, hrun⟩ := hst
      have hstep := hP.step hr
      rw [show op.run s = .ok s' from hrun] at hstep
      exact hstep.1
  refine ⟨hinv.accounted, fun op hr => ?_⟩
  have hstep := hinv.step hr
  cases hrun : op.run w with
  | ok w' =>
    rw [hrun] at hstep
    exact Or.inl ⟨w', rfl, hstep.1.accounted, hstep.2⟩
  | error e =>
    rw [hrun] at hstep
    rcases hstep with rfl | ⟨p, rfl⟩
    · exact Or.inr (Or.inl rfl)
    · exact Or.inr (Or.inr ⟨p, rfl⟩)

/-- A pipe is made, the process forks and the child exits. -/
theorem openCounts_after_fork :
    ∃ w, historyMachine.Reachable w ∧ (w.files 0).openCount = 1 ∧ Accounted w := by
  have h0 : historyMachine.Reachable boot := .of_init rfl
  have h2 := h0.after [.pipe 1 false, .clone 1 false false] ⟨trivial, trivial, trivial⟩
  have h3 := h2.next (.exit 2 true) (by
    intro i hi
    obtain rfl := Option.some.inj hi
    refine ⟨fun _ hshared => ?_, fun u j hu hj => ?_⟩
    · -- only the exiting thread holds its table
      obtain ⟨v, j, hv, hout, htab⟩ := hshared
      have hmem : (v, j) ∈ [(1, (⟨1, 0⟩ : ThreadInfo)), (2, ⟨2, 1⟩)] :=
        SortedMap.mem_entries.mpr hv
      rcases List.mem_cons.mp hmem with heq | hmem
      · obtain ⟨-, rfl⟩ := Prod.mk.inj heq
        cases htab
      · obtain ⟨rfl, -⟩ := Prod.mk.inj (List.mem_singleton.mp hmem)
        exact absurd (show 2 ∈ [2] from List.mem_cons_self) hout
    · obtain rfl : u = 2 := List.mem_singleton.mp hu
      obtain rfl := Option.some.inj hj
      exact Or.inl ⟨Or.inl rfl, rfl⟩)
  exact ⟨_, h3, rfl, (openCounts_of_reachable h3).1⟩

/-- A child that shares the table of its parent exits: the parent has lost its descriptor. -/
theorem shared_table_closed :
    ∃ w₁ w₂ w₃ : FileWorld, boot.openFile 1 false = .ok w₁ ∧ w₁.clone 1 true false = .ok w₂ ∧
      w₂.exit 2 true = .ok w₃ ∧ w₂.threads.get 1 = some ⟨1, 0⟩ ∧ w₃.threads.get 1 = some ⟨1, 0⟩ ∧
      (∃ a, w₂.tables.get 0 = some a ∧ a.files.get 0 ≠ none) ∧
      ∃ a, w₃.tables.get 0 = some a ∧ a.files.get 0 = none := by
  refine ⟨_, _, _, rfl, rfl, rfl, rfl, rfl, ⟨_, rfl, ?_⟩, _, rfl, rfl⟩
  exact Option.some_ne_none _

end Dlutos.Files.FileWorld
