import Dlutos.Processes.ProcessTables

/-!
# Runs of the process tables

`setsid` must not be called by a process whose pid is the pgid of a group that is alive, because it
would create a second group with this pgid.  `setpgid` must not find a group that is alive only
because a drop is deferred, because it is no longer registered in its session.  `fork` must get a
pid that no process has, which can only fail after `NEXT_PID` has wrapped around.
-/

namespace Dlutos.Processes

open ExceptLoop Function

namespace ProcessList

variable {s : ProcessList}

/-! ### Preparing a group -/

/-- The state after `ProcessGroupBuilder::build` when nothing panics. -/
def withGroup (s : ProcessList) (r σ : ℕ) : ProcessList :=
  { s with
    group := update s.group s.groupCount
      { pgid := (s.proc r).pid, session := σ,
        processes := SortedMap.empty.insert (s.proc r).pid r }
    groupCount := s.groupCount + 1
    pgroups := s.pgroups.insert (s.proc r).pid s.groupCount
    sess := update s.sess σ
      { s.sess σ with groups := (s.sess σ).groups.insert (s.proc r).pid s.groupCount } }

def joined (s : ProcessList) (g r : ℕ) : ProcessList :=
  s.setGroup g { s.group g with processes := (s.group g).processes.insert (s.proc r).pid r }

section Join

variable {g r : ℕ} (hfresh : (s.group g).processes.get (s.proc r).pid = none)
include hfresh

theorem addMember_eq : s.addMember g r = .ok (s.joined g r) := by
  unfold addMember
  dsimp only
  rw [hfresh]
  rfl

theorem mem_joined (g' k r' : ℕ) :
    (s.joined g r).Mem g' k r' ↔ s.Mem g' k r' ∨ (g = g' ∧ k = (s.proc r).pid ∧ r' = r) :=
  get_update_insert s.group g (π := ProcessGroup.processes) rfl hfresh g' k r'

theorem Registered.joined (h : s.Registered) {k' r' : ℕ} (hmember : s.Mem g k' r') :
    (s.joined g r).Registered := by
  intro σ k g'
  have hpgid : ((s.joined g r).group g').pgid = (s.group g').pgid :=
    proj_update s.group g ProcessGroup.pgid (by rfl) g'
  have hsession : ((s.joined g r).group g').session = (s.group g').session :=
    proj_update s.group g ProcessGroup.session (by rfl) g'
  rw [hpgid, hsession]
  refine (h σ k g').trans (and_congr_right' (and_congr_right' ⟨?_, ?_⟩))
  · rintro ⟨k'', r'', hmem⟩
    exact ⟨k'', r'', (mem_joined hfresh _ _ _).2 (Or.inl hmem)⟩
  · rintro ⟨k'', r'', hmem⟩
    rcases (mem_joined hfresh _ _ _).1 hmem with hmem | ⟨rfl, -, -⟩
    · exact ⟨k'', r'', hmem⟩
    · exact ⟨k', r', hmember⟩

end Join

theorem Prepared.join (hs : s.TableInv) {r old new : ℕ} (hold : (s.proc r).pgroup = some old)
    (hne : new ≠ old) (halive : s.PgroupAlive new) {k' r' : ℕ} (hmember : s.Mem new k' r') :
    s.addMember new r = .ok (s.joined new r) ∧
      Prepared s (s.joined new r) r new (s.group new).session := by
  have hfresh : (s.group new).processes.get (s.proc r).pid = none := by
    by_contra h
    obtain ⟨r'', h⟩ := Option.ne_none_iff_exists'.1 h
    obtain ⟨hpgroup, hpid⟩ := (hs.mem new _ r'').1 h
    obtain rfl : r'' = r := hs.pid_unique hold hpgroup hpid
    exact hne (Option.some.inj (hpgroup.symm.trans hold))
  have hpgid : ∀ g, ((s.joined new r).group g).pgid = (s.group g).pgid :=
    proj_update s.group new ProcessGroup.pgid (by rfl)
  have hsession : ∀ g, ((s.joined new r).group g).session = (s.group g).session :=
    proj_update s.group new ProcessGroup.session (by rfl)
  refine ⟨addMember_eq hfresh, rfl, rfl, rfl, rfl, mem_joined hfresh,
    hs.registered.joined hfresh hmember, fun g _ => hsession g, hsession new, fun g h => ?_,
    fun σ h => hs.sessions σ (h.elim id ?_)⟩
  · obtain ⟨hlt, hget⟩ := hs.pgroups g (h.elim id fun h => h ▸ halive)
    exact ⟨hlt, (congrArg s.pgroups.get (hpgid g)).trans hget⟩
  · rintro rfl
    exact hs.sessionAlive ((hs.mem new k' r').1 hmember).1

section WithGroup

variable {r σ : ℕ}

theorem buildPgroup_eq (hnone : (s.sess σ).groups.get (s.proc r).pid = none) :
    s.buildPgroup r σ = .ok (s.groupCount, s.withGroup r σ) := by
  unfold buildPgroup sessionAddMember withGroup
  simp only [setGroup, setSess, update_self]
  rw [hnone]
  rfl

variable (hfresh : ∀ k r', ¬ s.Mem s.groupCount k r')
include hfresh

theorem mem_withGroup (g k r' : ℕ) : (s.withGroup r σ).Mem g k r' ↔
    s.Mem g k r' ∨ (s.groupCount = g ∧ k = (s.proc r).pid ∧ r' = r) := by
  show (update s.group s.groupCount _ g).processes.get k = some r' ↔ _
  by_cases hg : s.groupCount = g
  · subst hg
    rw [update_self, SortedMap.get_insert_iff rfl]
    simp [hfresh, SortedMap.get_empty]
  · rw [update_of_ne (Ne.symm hg)]
    simp [hg, Mem]

theorem Registered.withGroup (h : s.Registered)
    (hnone : (s.sess σ).groups.get (s.proc r).pid = none) : (s.withGroup r σ).Registered := by
  intro σ' k g
  have hreg : (s.withGroup r σ).Reg σ' k g ↔ _ :=
    get_update_insert s.sess σ (π := Session.groups) rfl hnone σ' k g
  simp only [hreg, mem_withGroup hfresh]
  show _ ↔ (update s.group s.groupCount _ g).session = σ' ∧
    (update s.group s.groupCount _ g).pgid = k ∧ _
  by_cases hg : g = s.groupCount
  · subst hg
    rw [update_self]
    constructor
    · rintro (hold | ⟨rfl, rfl, -⟩)
      · obtain ⟨-, -, k', r', hmem⟩ := (h _ _ _).1 hold
        exact absurd hmem (hfresh k' r')
      · exact ⟨rfl, rfl, _, _, Or.inr ⟨rfl, rfl, rfl⟩⟩
    · rintro ⟨rfl, rfl, -⟩
      exact Or.inr ⟨rfl, rfl, rfl⟩
  · rw [update_of_ne hg]
    simp only [hg, Ne.symm hg, and_false, false_and, or_false]
    exact h σ' k g

end WithGroup

theorem Prepared.withGroup (hs : s.TableInv) {r σ : ℕ} {sess : ℕ → Session} {sessionCount : ℕ}
    {sessions : SortedMap ℕ ℕ}
    (hreg : ({ s with sess, sessionCount, sessions } : ProcessList).Registered)
    (hsessions : Indexed sessions (fun σ => (sess σ).sid) sessionCount
      fun σ' => s.SessionAlive σ' ∨ σ' = σ)
    (hnew : s.tryFindPgroup (s.proc r).pid = none) :
    ({ s with sess, sessionCount, sessions } : ProcessList).buildPgroup r σ =
        .ok (s.groupCount, { s with sess, sessionCount, sessions }.withGroup r σ) ∧
      Prepared s ({ s with sess, sessionCount, sessions }.withGroup r σ) r s.groupCount σ := by
  -- the members of the groups have groups that are alive, and these differ from the new one
  have hfresh : ∀ k r', ¬ s.Mem s.groupCount k r' := fun k r' h => Nat.lt_irrefl _ (hs.lt_of_mem h)
  have hnone : (sess σ).groups.get (s.proc r).pid = none := by
    by_contra h
    obtain ⟨g, h⟩ := Option.ne_none_iff_exists'.1 h
    obtain ⟨-, hpgid, k', r', hmem⟩ := (hreg σ _ g).1 h
    exact hs.pgid_ne_of_not_found hnew (hs.alive ((hs.mem g k' r').1 hmem).1) hpgid
  refine ⟨buildPgroup_eq hnone, rfl, rfl, rfl, rfl, mem_withGroup hfresh,
    hreg.withGroup hfresh hnone, fun g hg => ?_, ?_, ?_, fun σ' h => ?_⟩
  · exact congrArg ProcessGroup.session (update_of_ne (Nat.ne_of_lt hg) _ _)
  · exact congrArg ProcessGroup.session (update_self s.groupCount _ s.group)
  · exact Indexed.insert hs.pgroups (fun g hg => congrArg ProcessGroup.pgid (update_of_ne hg _ _))
      (congrArg ProcessGroup.pgid (update_self s.groupCount _ s.group))
      fun g => hs.pgid_ne_of_not_found hnew
  · obtain ⟨hlt, hget⟩ := hsessions σ' h
    exact ⟨hlt, (congrArg sessions.get (proj_update sess σ Session.sid (by rfl) σ')).trans hget⟩

/-! ### What a system call may end in -/

def PanicInTables : ProcPanic → Prop
  | .addMember | .removeMember | .sessionAddMember | .sessionRemoveMember | .sessionGone => True
  | _ => False

/-- A call returns with consistent tables, or panics outside of them. -/
abbrev Good : Except ProcPanic ProcessList → Prop := Ensures (fun e => ¬ PanicInTables e) TableInv

structure SameTables (s t : ProcessList) : Prop where
  proc : ∀ r, (t.proc r).pid = (s.proc r).pid ∧ (t.proc r).pgroup = (s.proc r).pgroup ∧
    (t.proc r).session = (s.proc r).session
  procCount : t.procCount = s.procCount
  threads : t.threads = s.threads
  groups : t.group = s.group ∧ t.groupCount = s.groupCount ∧ t.pgroups = s.pgroups
  sessions : t.sess = s.sess ∧ t.sessionCount = s.sessionCount ∧ t.sessions = s.sessions
  deferred : t.deferred = s.deferred

theorem TableInv.of_same {t : ProcessList} (hs : s.TableInv) (h : SameTables s t) :
    t.TableInv := by
  obtain ⟨hproc, hcount, hthreads, ⟨hgroup, hgroupCount, hpgroups⟩,
    ⟨hsess, hsessionCount, hsessions⟩, hdeferred⟩ := h
  refine ⟨fun k r => ?_, fun r g hg => ?_, fun r g hg => ?_, fun g k r => ?_, fun σ k g => ?_,
    fun g h => ?_, fun σ h => ?_⟩
  · rw [hthreads, (hproc r).1, (hproc r).2.1]
    exact hs.threads k r
  · rw [(hproc r).2.1] at hg
    exact hcount ▸ hs.bound r g hg
  · rw [(hproc r).2.1] at hg
    rw [(hproc r).2.2, hgroup]
    exact hs.session r g hg
  · rw [(hproc r).1, (hproc r).2.1, Mem, hgroup]
    exact hs.mem g k r
  · simp only [Reg, Mem, hsess, hgroup]
    exact hs.registered σ k g
  · simp only [PgroupAlive, hcount, hdeferred, hproc] at h
    rw [hgroupCount, hpgroups, hgroup]
    exact hs.pgroups g h
  · simp only [SessionAlive, hcount, hdeferred, hproc] at h
    rw [hsessionCount, hsessions, hsess]
    exact hs.sessions σ h

theorem TableInv.setProc (hs : s.TableInv) (r : ℕ) {p : Process}
    (h : p.pid = (s.proc r).pid ∧ p.pgroup = (s.proc r).pgroup ∧
      p.session = (s.proc r).session) : (s.setProc r p).TableInv := by
  refine hs.of_same ⟨fun r' => ?_, rfl, rfl, ⟨rfl, rfl, rfl⟩, ⟨rfl, rfl, rfl⟩, rfl⟩
  exact ⟨proj_update s.proc r Process.pid h.1 r', proj_update s.proc r Process.pgroup h.2.1 r',
    proj_update s.proc r Process.session h.2.2 r'⟩

theorem addChild_cases (s : ProcessList) (parent child : ℕ) :
    s.addChild parent child = .error .addChild ∨
      ∃ children, s.addChild parent child =
        .ok (s.setProc parent { s.proc parent with children }) := by
  unfold addChild
  dsimp only
  split
  · exact Or.inl rfl
  · exact Or.inr ⟨_, rfl⟩

theorem Good.addChild (hs : s.TableInv) (parent child : ℕ) : Good (s.addChild parent child) := by
  rcases s.addChild_cases parent child with h | ⟨children, h⟩
  · rw [h]
    exact id
  · rw [h]
    exact hs.setProc parent ⟨rfl, rfl, rfl⟩

theorem Good.exit (hs : s.TableInv) (r : ℕ) : Good (s.exit r) := by
  have hadopt (l : List ℕ) : Good (l.foldlM adopt s) := by
    refine ensures_foldlM (I := fun _ => TableInv) l (fun _ c _ t _ ht => ?_) hs
    refine Good.addChild (ht.setProc c ?_) _ _
    exact ⟨rfl, rfl, rfl⟩
  unfold ProcessList.exit
  dsimp only
  split
  · exact id
  · refine (hadopt _).bind fun t ht => ?_
    split
    · exact id
    · refine TableInv.setProc (TableInv.setProc (ht.setProc r ?_) _ ?_) _ ?_ <;>
      exact ⟨rfl, rfl, rfl⟩

theorem TableInv.runRcu (hs : s.TableInv) (i : ℕ) : (s.runRcu i).TableInv := by
  have hmem : ∀ d, d ∈ (s.runRcu i).deferred → d ∈ s.deferred :=
    fun _ h => List.mem_of_mem_eraseIdx h
  exact { hs with
    pgroups := fun g h => hs.pgroups g (h.imp_right (hmem _))
    sessions := fun σ h => hs.sessions σ (h.imp_right (hmem _)) }

/-! ### `setsid` and `setpgid` -/

theorem Registered.newSession (hs : s.TableInv) (r : ℕ) : (s.newSession r).2.Registered := by
  intro σ k g
  refine Iff.trans ?_ (hs.registered σ k g)
  show (update s.sess s.sessionCount _ σ).groups.get k = some g ↔ _
  by_cases hσ : σ = s.sessionCount
  · subst hσ
    rw [update_self]
    -- the new session is empty, and nothing was registered under its reference
    refine ⟨fun h => (nomatch h), fun h => ?_⟩
    obtain ⟨hsession, -, k', r', hmem⟩ := (hs.registered _ k g).1 h
    have hlt := (hs.sessions _ (hs.sessionAlive ((hs.mem g k' r').1 hmem).1)).1
    rw [hsession] at hlt
    exact absurd hlt (Nat.lt_irrefl _)
  · rw [update_of_ne hσ]
    rfl

theorem Good.setsid (hs : s.TableInv) {r : ℕ} (hr : s.Live r)
    (hsafe : s.tryFindSession (s.proc r).pid = none → s.tryFindPgroup (s.proc r).pid = none) :
    Good (return (← s.setsid r).2) := by
  unfold ProcessList.setsid
  dsimp only
  split
  · exact hs
  · next hfound =>
    have hnone : s.tryFindSession (s.proc r).pid = none := by
      rwa [Bool.not_eq_true, Option.isSome_eq_false_iff, Option.isNone_iff_eq_none] at hfound
    obtain ⟨old, hold⟩ := (hs.live_iff r).1 hr
    have hsessions : Indexed (s.newSession r).2.sessions (fun σ => ((s.newSession r).2.sess σ).sid)
        (s.sessionCount + 1) fun σ => s.SessionAlive σ ∨ σ = s.sessionCount :=
      Indexed.insert hs.sessions (fun σ' hσ => congrArg Session.sid (update_of_ne hσ _ _))
        (congrArg Session.sid (update_self s.sessionCount _ s.sess))
        fun σ' => hs.sid_ne_of_not_found hnone
    obtain ⟨hbuild, hprep⟩ :=
      Prepared.withGroup hs (Registered.newSession hs r) hsessions (hsafe hnone)
    have hne : s.groupCount ≠ old := Nat.ne_of_gt (hs.pgroups old (hs.alive hold)).1
    have hdone := hprep.tableInv hs hold hne [.session (s.group old).session, .pgroup old]
      (by simp only [List.mem_cons, List.not_mem_nil, or_false]; tauto)
    rw [show (s.newSession r).2.buildPgroup r (s.newSession r).1 =
      .ok (s.groupCount, (s.newSession r).2.withGroup r s.sessionCount) from hbuild,
      hs.session r old hold, hold]
    simp only [Bind.bind, Except.bind]
    rw [show ((s.newSession r).2.withGroup r s.sessionCount).removeMember old (s.proc r).pid = _
      from hprep.removeMember_eq hs hold]
    exact hdone

theorem Prepared.leavePgroup {b : ProcessList} {r new old : ℕ}
    (hb : Prepared s b r new (s.group old).session) (hs : s.TableInv)
    (hold : (s.proc r).pgroup = some old) (hne : new ≠ old) :
    ∃ t, b.leavePgroup r old new = .ok t ∧ t.TableInv := by
  refine ⟨_, ?_, hb.tableInv hs hold hne [.pgroup old]
    fun d hd => Or.inl (List.mem_singleton.1 hd)⟩
  unfold ProcessList.leavePgroup swapTo
  rw [hb.removeMember_eq hs hold]
  simp only [Bind.bind, Except.bind, proc_dropMember, hb.proc, ← hs.session r old hold]
  rfl

theorem Good.doSetpgid (hs : s.TableInv) (r pgid : ℕ)
    (hsafe : ∀ g, s.tryFindPgroup pgid = some g → ∃ k r', s.Mem g k r') :
    Good (return (← s.doSetpgid r pgid).2) := by
  unfold ProcessList.doSetpgid
  dsimp only
  split
  · next session old hsession hold =>
    obtain rfl : session = (s.group old).session :=
      Option.some.inj (hsession.symm.trans (hs.session r old hold))
    split
    · exact hs
    · split
      · next new hfound =>
        obtain ⟨k', r', hmember⟩ := hsafe new hfound
        obtain ⟨-, halive⟩ := tryFindPgroup_eq_some.1 hfound
        have hsess := hs.sessionAlive ((hs.mem new k' r').1 hmember).1
        rw [if_neg (not_not.2 hsess)]
        split
        · exact hs
        · next hsid =>
          split
          · exact hs
          · next hpgid =>
            have hne : new ≠ old := fun h => hpgid (by rw [h])
            obtain ⟨hadd, hprep⟩ := Prepared.join hs hold hne halive hmember
            -- equal sids belong to the same session
            rw [Indexed.unique hs.sessions hsess (hs.sessionAlive hold) (not_not.1 hsid)] at hprep
            obtain ⟨t, ht, hinv⟩ := hprep.leavePgroup hs hold hne
            rw [hadd]
            simp only [Bind.bind, Except.bind, ht]
            exact hinv
      · next hnone =>
        split
        · exact hs
        · next hpid =>
          rw [not_not.1 hpid] at hnone
          obtain ⟨hbuild, hprep⟩ := Prepared.withGroup hs (σ := (s.group old).session)
            hs.registered
            (fun σ h => hs.sessions σ (h.elim id fun h => h ▸ hs.sessionAlive hold)) hnone
          have hne : s.groupCount ≠ old := Nat.ne_of_gt (hs.pgroups old (hs.alive hold)).1
          obtain ⟨t, ht, hinv⟩ := hprep.leavePgroup hs hold hne
          rw [show s.buildPgroup r (s.group old).session = _ from hbuild]
          simp only [Bind.bind, Except.bind]
          rw [show (s.withGroup r (s.group old).session).leavePgroup r old s.groupCount = _ from ht]
          exact hinv
  · exact id

/-- The pgid that the system call `setpgid` asks for. -/
def targetPgid (s : ProcessList) (r pid : ℕ) (pgid : ℤ) : ℕ :=
  if pgid = 0 then (if pid = 0 then (s.proc r).pid else pid) else pgid.toNat

theorem Good.sysSetpgid (hs : s.TableInv) (r pid : ℕ) (pgid : ℤ)
    (hsafe : ∀ g, s.tryFindPgroup (s.targetPgid r pid pgid) = some g → ∃ k r', s.Mem g k r') :
    Good (return (← s.sysSetpgid r pid pgid).2) := by
  have hset : ∀ pid k : ℕ, (∀ g, s.tryFindPgroup k = some g → ∃ k r', s.Mem g k r') →
      Good (return (← s.setpgid r pid k).2) := by
    intro pid k hk
    unfold ProcessList.setpgid
    split
    · exact Good.doSetpgid hs r k hk
    · split
      · exact hs
      · split
        · split
          · exact hs
          · exact Good.doSetpgid hs _ k hk
        · exact id
  unfold ProcessList.targetPgid at hsafe
  unfold ProcessList.sysSetpgid
  dsimp only
  split
  · next h =>
    rw [if_pos h] at hsafe
    exact hset _ _ hsafe
  · next h =>
    rw [if_neg h] at hsafe
    split
    · exact hset _ _ hsafe
    · exact hs

/-! ### `fork` and `wait` -/

theorem TableInv.get_eq_none (hs : s.TableInv) {pid : ℕ} (h : s.threads.get pid = none) (g : ℕ) :
    (s.group g).processes.get pid = none := by
  by_contra hget
  obtain ⟨r, hget⟩ := Option.ne_none_iff_exists'.1 hget
  obtain ⟨hg, hpid⟩ := (hs.mem g pid r).1 hget
  rw [(hs.threads pid r).2 ⟨hpid, g, hg⟩] at h
  cases h

def forked (s : ProcessList) (pid r g σ : ℕ) : ProcessList :=
  ((s.newProcess pid).joined g s.procCount).setProc s.procCount
    { pid, parent := some r, pgroup := some g, session := some σ }

theorem Change.forked (hs : s.TableInv) {r g pid : ℕ} (hg : (s.proc r).pgroup = some g)
    (hfresh : s.threads.get pid = none) :
    Change s (s.forked pid r g (s.group g).session) s.procCount
      { pid, parent := some r, pgroup := some g, session := some (s.group g).session } := by
  have hpid : (s.newProcess pid).proc s.procCount = { pid } := update_self _ _ _
  have hnone : ((s.newProcess pid).group g).processes.get
      ((s.newProcess pid).proc s.procCount).pid = none := by
    rw [hpid]
    exact hs.get_eq_none hfresh g
  have hsession : ∀ g', ((s.forked pid r g (s.group g).session).group g').session =
      (s.group g').session := proj_update s.group g ProcessGroup.session (by rfl)
  have hlt : ∀ r' g', (s.proc r').pgroup = some g' → r' ≠ s.procCount :=
    fun r' g' h => Nat.ne_of_lt (hs.bound r' g' h)
  refine ⟨update_idem _ _ _, fun r' => Nat.lt_succ_iff_lt_or_eq, fun k r' => ?_, fun g' k r' => ?_,
    ?_, fun g' _ => hsession g', ?_, fun d => Or.inl⟩
  · show (s.threads.insert pid s.procCount).get k = some r' ↔ _
    rw [SortedMap.get_insert_iff hfresh, hs.threads]
    constructor
    · rintro (⟨hk, g', hg'⟩ | ⟨rfl, rfl⟩)
      · exact Or.inl ⟨hlt r' g' hg', hk, g', hg'⟩
      · exact Or.inr ⟨rfl, rfl, g, rfl⟩
    · rintro (⟨-, h⟩ | ⟨rfl, rfl, -⟩)
      · exact Or.inl h
      · exact Or.inr ⟨rfl, rfl⟩
  · rw [show (s.forked pid r g (s.group g).session).Mem g' k r' ↔ _ from mem_joined hnone g' k r',
      hpid]
    show s.Mem g' k r' ∨ _ ↔ _
    rw [hs.mem]
    constructor
    · rintro (⟨hg', hk⟩ | ⟨rfl, rfl, rfl⟩)
      · exact Or.inl ⟨hlt r' g' hg', hg', hk⟩
      · exact Or.inr ⟨rfl, rfl, rfl⟩
    · rintro (⟨-, h⟩ | ⟨rfl, ⟨⟩, rfl⟩)
      · exact Or.inl h
      · exact Or.inr ⟨rfl, rfl, rfl⟩
  · have hmember : s.Mem g (s.proc r).pid r := (hs.mem _ _ _).2 ⟨hg, rfl⟩
    exact Registered.joined hnone (s := s.newProcess pid) hs.registered hmember
  · rintro _ ⟨⟩
    exact congrArg some (hsession g).symm

theorem TableInv.forked (hs : s.TableInv) {r g pid : ℕ} (hg : (s.proc r).pgroup = some g)
    (hfresh : s.threads.get pid = none) : (s.forked pid r g (s.group g).session).TableInv := by
  have hchange := Change.forked hs hg hfresh
  refine hs.of_change hchange (fun g' h => ?_) fun σ h => ?_
  · obtain ⟨hlt, hget⟩ := hs.pgroups g' ((hs.pgroupAlive_of_change hchange h).elim id fun h =>
      Option.some.inj h ▸ hs.alive hg)
    have hpgid : ((s.forked pid r g (s.group g).session).group g').pgid = (s.group g').pgid :=
      proj_update s.group g ProcessGroup.pgid (by rfl) g'
    exact ⟨hlt, (congrArg s.pgroups.get hpgid).trans hget⟩
  · exact hs.sessions σ ((hs.sessionAlive_of_change hchange h).elim id fun h =>
      Option.some.inj h ▸ hs.sessionAlive hg)

theorem Good.fork (hs : s.TableInv) {r : ℕ} (hr : s.Live r) (skipped : ℕ)
    (hfresh : s.threads.get (s.allocPid skipped) = none) : Good (s.fork r skipped) := by
  obtain ⟨g, hg⟩ := (hs.live_iff r).1 hr
  unfold ProcessList.fork
  rw [hg, hs.session r g hg]
  dsimp only
  generalize s.allocPid skipped = pid at hfresh
  have hinv := hs.forked hg hfresh
  have hpid : (s.newProcess pid).proc s.procCount = { pid } := update_self _ _ _
  have hadd := addMember_eq (s := s.newProcess pid) (g := g) (r := s.procCount)
    (by rw [hpid]; exact hs.get_eq_none hfresh g)
  unfold build
  simp only [buildSession, buildMember, hadd, Bind.bind, Except.bind, pure, Except.pure]
  rcases addChild_cases ((s.newProcess pid).joined g s.procCount) r s.procCount
    with h | ⟨children, h⟩
  · rw [h]
    exact id
  · rw [h]
    refine hinv.of_same ⟨fun r' => ?_, rfl, rfl, ⟨rfl, rfl, rfl⟩, ⟨rfl, rfl, rfl⟩, rfl⟩
    have hrc : s.procCount ≠ r := Nat.ne_of_gt hr.1
    simp only [ProcessList.forked, setProc, update_apply]
    by_cases hc : r' = s.procCount
    · simp only [hc, if_true, if_neg hrc]
      exact ⟨congrArg Process.pid hpid, trivial, trivial⟩
    · simp only [if_neg hc]
      by_cases hr' : r' = r
      · simp only [hr', if_true]
        exact ⟨trivial, trivial, trivial⟩
      · simp only [if_neg hr']
        exact ⟨trivial, trivial, trivial⟩

theorem forget_eq (s : ProcessList) (g σ : ℕ) : (s.forgetPgroup g).forgetSession σ =
    { s with
      pgroups := if s.PgroupAlive g then s.pgroups else s.pgroups.erase (s.group g).pgid
      sessions := if s.SessionAlive σ then s.sessions else s.sessions.erase (s.sess σ).sid } := by
  have hσ : (s.forgetPgroup g).SessionAlive σ ↔ s.SessionAlive σ := by
    unfold forgetPgroup
    split <;> rfl
  unfold forgetSession
  rw [if_congr hσ rfl rfl]
  unfold forgetPgroup
  split <;> split <;> rfl

def removed (s : ProcessList) (r g : ℕ) : ProcessList :=
  { (s.dropMember g (s.proc r).pid).setProc r
      { s.proc r with session := none, pgroup := none, parent := none } with
    threads := s.threads.erase (s.proc r).pid }

theorem Change.removed (hs : s.TableInv) {r g : ℕ} (hg : (s.proc r).pgroup = some g) :
    Change s (s.removed r g) r
      { s.proc r with session := none, pgroup := none, parent := none } := by
  have hmem : ∀ g' k r', s.Mem g' k r' ↔
      s.Mem g' k r' ∨ (none = some g' ∧ k = (s.proc r).pid ∧ r' = r) := by
    simp only [reduceCtorEq, false_and, or_false, implies_true]
  refine ⟨rfl, fun r' => ⟨Or.inl, fun h => h.elim id fun h => h ▸ hs.bound r g hg⟩,
    fun k r' => ?_, hs.mem_leave hg (Option.some_ne_none g).symm hmem,
    hs.registered.dropMember ((hs.mem _ _ _).2 ⟨hg, rfl⟩), fun g' _ => session_dropMember s g _ g',
    fun _ h => (nomatch h), fun d => Or.inl⟩
  show (s.threads.erase (s.proc r).pid).get k = some r' ↔ _
  rw [SortedMap.get_erase]
  split
  · next hk =>
    refine ⟨fun h => (nomatch h), ?_⟩
    rintro (⟨hr', h⟩ | ⟨-, -, _, h⟩)
    · rw [hk, (hs.threads _ r).2 ⟨rfl, g, hg⟩] at h
      exact absurd (Option.some.inj h).symm hr'
    · cases h
  · next hk =>
    refine ⟨fun h => Or.inl ⟨?_, h⟩, ?_⟩
    · rintro rfl
      exact hk ((hs.threads k r').1 h).1.symm
    · rintro (⟨-, h⟩ | ⟨-, -, _, h⟩)
      · exact h
      · cases h

theorem TableInv.removed (hs : s.TableInv) {r g : ℕ} (hg : (s.proc r).pgroup = some g) :
    (((s.removed r g).forgetPgroup g).forgetSession (s.group g).session).TableInv := by
  set t := s.removed r g with ht
  have hchange := Change.removed hs hg
  have hpgroups : ∀ g', t.PgroupAlive g' → s.PgroupAlive g' :=
    fun g' h => (hs.pgroupAlive_of_change hchange h).resolve_right nofun
  have hsessions : ∀ σ', t.SessionAlive σ' → s.SessionAlive σ' :=
    fun σ' h => (hs.sessionAlive_of_change hchange h).resolve_right nofun
  have hpgid : (fun g' => (t.group g').pgid) = fun g' => (s.group g').pgid :=
    funext (pgid_dropMember s g _)
  have hsid : (fun σ' => (t.sess σ').sid) = fun σ' => (s.sess σ').sid :=
    funext (sid_dropMember s g _)
  rw [forget_eq]
  refine hs.of_change (hchange.maps _ _) ?_ ?_
  · show Indexed (if t.PgroupAlive g then _ else t.pgroups.erase ((fun g' => (t.group g').pgid) g))
      (fun g' => (t.group g').pgid) _ t.PgroupAlive
    rw [hpgid]
    exact Indexed.forget hs.pgroups hpgroups (hs.alive hg)
  · show Indexed (if t.SessionAlive _ then _ else t.sessions.erase ((fun σ' => (t.sess σ').sid) _))
      (fun σ' => (t.sess σ').sid) _ t.SessionAlive
    rw [hsid]
    exact Indexed.forget hs.sessions hsessions (hs.sessionAlive hg)

theorem Good.removeProcess (hs : s.TableInv) (pid : ℕ) : Good (s.removeProcess pid) := by
  unfold ProcessList.removeProcess
  split
  · exact id
  · next r hthread =>
    obtain ⟨rfl, g, hg⟩ := (hs.threads pid r).1 hthread
    have hinv := hs.removed hg
    split
    · next σ g' parent hσ hg' hparent =>
      obtain rfl : (s.group g).session = σ :=
        Option.some.inj ((hs.session r g hg).symm.trans hσ)
      obtain rfl : g = g' := Option.some.inj (hg.symm.trans hg')
      rw [hs.registered.removeMember_eq ((hs.mem _ _ _).2 ⟨hg, rfl⟩) (hs.sessionAlive hg)]
      exact hinv
    · exact id
    · exact id

theorem Good.wait (hs : s.TableInv) (r i : ℕ) : Good (s.wait r i) := by
  unfold ProcessList.wait
  dsimp only
  split
  · exact hs
  · refine (Good.removeProcess (hs.setProc r ?_) _).bind fun t ht => ?_
    · exact ⟨rfl, rfl, rfl⟩
    · split
      · exact ht.setProc r ⟨rfl, rfl, rfl⟩
      · exact id

/-! ### Runs -/

/-- The condition under which a system call keeps the tables consistent. -/
def Op.Respects (s : ProcessList) : Op → Prop
  | .fork _ skipped => s.threads.get (s.allocPid skipped) = none
  | .setsid r =>
    s.tryFindSession (s.proc r).pid = none → s.tryFindPgroup (s.proc r).pid = none
  | .setpgid r pid pgid =>
    ∀ g, s.tryFindPgroup (s.targetPgid r pid pgid) = some g → ∃ k r', s.Mem g k r'
  | .exit _ | .wait _ _ | .runRcu _ => True

/-- The runs whose steps meet the condition. -/
def respectfulMachine : Transition.System ProcessList Op ProcPanic where
  init := processMachine.init
  allowed := fun s op => processMachine.allowed s op ∧ op.Respects s
  run := run

theorem Good.run (hs : s.TableInv) {op : Op} (hop : op.Callable s) (hsafe : op.Respects s) :
    Good (s.run op) := by
  cases op with
  | fork r skipped => exact Good.fork hs hop.1 skipped hsafe
  | setsid r => exact Good.setsid hs hop.1 hsafe
  | setpgid r pid pgid => exact Good.sysSetpgid hs r pid pgid hsafe
  | exit r => exact Good.exit hs r
  | wait r i => exact Good.wait hs r i
  | runRcu i => exact hs.runRcu i

theorem TableInv.boot {t : ProcessList} (h : boot = .ok t) : t.TableInv := by
  obtain rfl := Except.ok.inj h
  have hlookup : ∀ {k r : ℕ}, (SortedMap.empty.insert 1 0 : SortedMap ℕ ℕ).get k = some r →
      k = 1 ∧ r = 0 := by
    intro k r h
    rw [SortedMap.get_insert] at h
    split at h
    · next hk => exact ⟨hk, (Option.some.inj h).symm⟩
    · cases h
  refine ⟨?_, ?_, ?_, ?_, ?_, ?_, ?_⟩
  · refine fun k r => ⟨fun h => ?_, fun ⟨hk, g, hg⟩ => ?_⟩
    · obtain ⟨rfl, rfl⟩ := hlookup h
      exact ⟨rfl, 0, rfl⟩
    · cases r with
      | zero => exact hk ▸ rfl
      | succ r => cases hg
  · intro r g h
    cases r with
    | zero => exact Nat.zero_lt_one
    | succ r => cases h
  · intro r g h
    cases r with
    | zero =>
      cases h
      rfl
    | succ r => cases h
  · refine fun g k r => ⟨fun h => ?_, fun ⟨hg, hk⟩ => ?_⟩
    · cases g with
      | zero =>
        obtain ⟨rfl, rfl⟩ := hlookup h
        exact ⟨rfl, rfl⟩
      | succ g => cases h
    · cases r with
      | zero =>
        cases hg
        exact hk ▸ rfl
      | succ r => cases hg
  · refine fun σ k g => ⟨fun h => ?_, fun ⟨hσ, hk, k', r, h⟩ => ?_⟩
    · cases σ with
      | zero =>
        obtain ⟨rfl, rfl⟩ := hlookup h
        exact ⟨rfl, rfl, 1, 0, rfl⟩
      | succ σ => cases h
    · cases g with
      | zero => exact hσ ▸ hk ▸ rfl
      | succ g => cases h
  · rintro g (⟨r, hr, h⟩ | h)
    · obtain rfl : r = 0 := Nat.lt_one_iff.1 hr
      obtain rfl : 0 = g := Option.some.inj h
      exact ⟨Nat.zero_lt_one, rfl⟩
    · cases h
  · rintro σ (⟨r, hr, h⟩ | h)
    · obtain rfl : r = 0 := Nat.lt_one_iff.1 hr
      obtain rfl : 0 = σ := Option.some.inj h
      exact ⟨Nat.zero_lt_one, rfl⟩
    · cases h

/-- What has to hold between the tables of the process list. -/
structure Consistent (s : ProcessList) : Prop where
  own_group : ∀ r, s.Live r → ∃ g σ, (s.proc r).pgroup = some g ∧ (s.proc r).session = some σ ∧
    s.pgroups.get (s.group g).pgid = some g ∧ s.Mem g (s.proc r).pid r ∧
    (s.group g).session = σ ∧ s.Reg σ (s.group g).pgid g
  pgid_unique : ∀ g g', s.PgroupAlive g → s.PgroupAlive g' →
    (s.group g).pgid = (s.group g').pgid → g = g'
  sid_unique : ∀ σ σ', s.SessionAlive σ → s.SessionAlive σ' →
    (s.sess σ).sid = (s.sess σ').sid → σ = σ'

theorem TableInv.consistent (hs : s.TableInv) : s.Consistent where
  own_group := by
    intro r hr
    obtain ⟨g, hg⟩ := (hs.live_iff r).1 hr
    have hmem : s.Mem g (s.proc r).pid r := (hs.mem _ _ _).2 ⟨hg, rfl⟩
    exact ⟨g, _, hg, hs.session r g hg, (hs.pgroups g (hs.alive hg)).2, hmem, rfl,
      (hs.registered _ _ g).2 ⟨rfl, rfl, _, _, hmem⟩⟩
  pgid_unique _ _ := Indexed.unique hs.pgroups
  sid_unique _ _ := Indexed.unique hs.sessions

/-- While the steps meet the condition the tables stay consistent, and no call panics in the
functions of groups and sessions. -/
theorem tables_of_reachable (hs : respectfulMachine.Reachable s) :
    s.Consistent ∧ ∀ op, respectfulMachine.allowed s op → ∀ e, s.run op = .error e →
      ¬ PanicInTables e := by
  obtain ⟨hinv, hsafe⟩ := Transition.System.Reachable.ensures (M := respectfulMachine)
    (fun _ => TableInv.boot) (fun s op hs hallowed => Good.run hs hallowed.1 hallowed.2) hs
  exact ⟨hinv.consistent, fun op hallowed e he => hsafe op e hallowed he⟩

/-- A child of init leads a group of its own. -/
theorem tables_after_setpgid : ∃ s : ProcessList, respectfulMachine.Reachable s ∧
    (s.proc 1).pid = 2 ∧ (s.proc 1).pgroup = some 1 ∧ s.Consistent := by
  have h0 : respectfulMachine.Reachable _ := .of_init rfl
  have h2 := h0.after [.fork 0 0, .setpgid 1 0 0]
    ⟨⟨⟨⟨by decide, rfl⟩, rfl⟩, rfl⟩, ⟨⟨⟨by decide, rfl⟩, rfl⟩, fun _ h => (nomatch h)⟩, trivial⟩
  exact ⟨_, h2, rfl, rfl, (tables_of_reachable h2).1⟩

/-- `setsid` of a group leader leads the pgid of other members to the new group. A process that
joins an empty group whose drop is deferred panics when it leaves it. -/
theorem tables_broken :
    (∃ s, processMachine.Reachable s ∧ s.Live 2 ∧ (s.proc 2).pgroup = some 1 ∧
      s.pgroups.get (s.group 1).pgid = some 2) ∧
    ∃ s, processMachine.Reachable s ∧ processMachine.allowed s (.setpgid 2 0 1) ∧
      s.run (.setpgid 2 0 1) = .error .sessionRemoveMember := by
  have h0 : processMachine.Reachable _ := .of_init rfl
  have h2 := h0.after [.fork 0 0, .setpgid 1 0 0]
    ⟨⟨⟨by decide, rfl⟩, rfl⟩, ⟨⟨by decide, rfl⟩, rfl⟩, trivial⟩
  have h4 := h2.after [.fork 1 0, .setsid 1]
    ⟨⟨⟨by decide, rfl⟩, rfl⟩, ⟨⟨by decide, rfl⟩, rfl⟩, trivial⟩
  have h5' := h2.after [.fork 0 0, .setpgid 1 0 1, .setpgid 2 0 2]
    ⟨⟨⟨by decide, rfl⟩, rfl⟩, ⟨⟨by decide, rfl⟩, rfl⟩, ⟨⟨by decide, rfl⟩, rfl⟩, trivial⟩
  exact ⟨⟨_, h4, ⟨by decide, rfl⟩, rfl, rfl⟩, ⟨_, h5', ⟨⟨by decide, rfl⟩, rfl⟩, rfl⟩⟩

end ProcessList

end Dlutos.Processes
