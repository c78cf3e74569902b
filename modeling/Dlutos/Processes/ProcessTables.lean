import Dlutos.Processes.ProcessList

/-!
# The invariant of the process tables

`TableInv` connects the processes, the group and session objects and the maps of the process list.
A system call changes the group of one process.  `Change` describes this through the relations who
is in the list and who is a member of which group; the sessions have registered exactly the groups
with members.
-/

namespace Dlutos.Processes

open Function

section Update

variable {τ : Type} (f : ℕ → τ) (a : ℕ) {x : τ}

theorem proj_update {υ : Type} (π : τ → υ) (hx : π x = π (f a)) (b : ℕ) :
    π (update f a x b) = π (f b) := by
  by_cases h : b = a
  · rw [h, update_self, hx]
  · rw [update_of_ne h]

/-- A new key in one of several tables. -/
theorem get_update_insert {π : τ → SortedMap ℕ ℕ} {k v : ℕ} (hx : π x = (π (f a)).insert k v)
    (hk : (π (f a)).get k = none) (b k' v' : ℕ) : (π (update f a x b)).get k' = some v' ↔
      (π (f b)).get k' = some v' ∨ (a = b ∧ k' = k ∧ v' = v) := by
  by_cases h : a = b
  · subst h
    rw [update_self, hx, SortedMap.get_insert_iff hk]
    simp only [true_and]
  · rw [update_of_ne (Ne.symm h)]
    simp only [h, false_and, or_false]

end Update

/-- The objects with the property have numbers below `n` and are found under their keys. -/
def Indexed (m : SortedMap ℕ ℕ) (key : ℕ → ℕ) (n : ℕ) (A : ℕ → Prop) : Prop :=
  ∀ x, A x → x < n ∧ m.get (key x) = some x

namespace Indexed

variable {m : SortedMap ℕ ℕ} {key : ℕ → ℕ} {n : ℕ} {A B : ℕ → Prop} (h : Indexed m key n A)
include h

theorem unique {x y : ℕ} (hx : A x) (hy : A y) (hk : key x = key y) : x = y := by
  have hget := (h x hx).2
  rw [hk, (h y hy).2] at hget
  exact (Option.some.inj hget).symm

theorem insert {key' : ℕ → ℕ} {k : ℕ} (hkey : ∀ x, x ≠ n → key' x = key x) (hn : key' n = k)
    (hnew : ∀ x, A x → key x ≠ k) : Indexed (m.insert k n) key' (n + 1) fun x => A x ∨ x = n := by
  intro x hx
  rw [SortedMap.get_insert]
  by_cases hxn : x = n
  · rw [hxn, hn, if_pos rfl]
    exact ⟨Nat.lt_succ_self _, rfl⟩
  · have hA := hx.resolve_right hxn
    rw [hkey x hxn, if_neg (hnew x hA)]
    exact ⟨Nat.lt_succ_of_lt (h x hA).1, (h x hA).2⟩

theorem forget (hB : ∀ x, B x → A x) {x : ℕ} [Decidable (B x)] (hx : A x) :
    Indexed (if B x then m else m.erase (key x)) key n B := by
  intro y hy
  obtain ⟨hlt, hget⟩ := h y (hB y hy)
  refine ⟨hlt, ?_⟩
  split
  · exact hget
  · next hdead =>
    rw [SortedMap.get_erase, if_neg]
    · exact hget
    · exact fun hk => hdead (h.unique (hB y hy) hx hk ▸ hy)

end Indexed

namespace ProcessList

def Mem (s : ProcessList) (g k r : ℕ) : Prop := (s.group g).processes.get k = some r

/-- The session has the group registered under a pgid. -/
def Reg (s : ProcessList) (σ k g : ℕ) : Prop := (s.sess σ).groups.get k = some g

/-- The sessions have registered the groups that have members. -/
def Registered (s : ProcessList) : Prop :=
  ∀ σ k g, s.Reg σ k g ↔ (s.group g).session = σ ∧ (s.group g).pgid = k ∧ ∃ k' r, s.Mem g k' r

structure TableInv (s : ProcessList) : Prop where
  threads : ∀ k r, s.threads.get k = some r ↔
    (s.proc r).pid = k ∧ ∃ g, (s.proc r).pgroup = some g
  bound : ∀ r g, (s.proc r).pgroup = some g → r < s.procCount
  session : ∀ r g, (s.proc r).pgroup = some g → (s.proc r).session = some (s.group g).session
  mem : ∀ g k r, s.Mem g k r ↔ (s.proc r).pgroup = some g ∧ (s.proc r).pid = k
  registered : s.Registered
  pgroups : Indexed s.pgroups (fun g => (s.group g).pgid) s.groupCount s.PgroupAlive
  sessions : Indexed s.sessions (fun σ => (s.sess σ).sid) s.sessionCount s.SessionAlive

/-- Process `r` of the state `s` becomes `p`, which is in another group or in none; nothing happens
to the other processes. -/
structure Change (s s' : ProcessList) (r : ℕ) (p : Process) : Prop where
  proc : s'.proc = update s.proc r p
  count : ∀ r', r' < s'.procCount ↔ r' < s.procCount ∨ r' = r
  threads : ∀ k r', s'.threads.get k = some r' ↔
    (r' ≠ r ∧ s.threads.get k = some r') ∨ (r' = r ∧ p.pid = k ∧ ∃ g, p.pgroup = some g)
  mem : ∀ g k r', s'.Mem g k r' ↔
    (r' ≠ r ∧ s.Mem g k r') ∨ (r' = r ∧ p.pgroup = some g ∧ p.pid = k)
  registered : s'.Registered
  group : ∀ g, g < s.groupCount → (s'.group g).session = (s.group g).session
  session : ∀ g, p.pgroup = some g → p.session = some (s'.group g).session
  deferred : ∀ d ∈ s'.deferred, d ∈ s.deferred ∨ ∃ g, (s.proc r).pgroup = some g ∧
    (d = .pgroup g ∨ d = .session (s.group g).session)

theorem Change.maps {s s' : ProcessList} {r : ℕ} {p : Process} (h : Change s s' r p)
    (pgroups sessions : SortedMap ℕ ℕ) : Change s { s' with pgroups, sessions } r p :=
  { h with }

theorem tryFindPgroup_eq_some {s : ProcessList} {pgid g : ℕ} :
    s.tryFindPgroup pgid = some g ↔ s.pgroups.get pgid = some g ∧ s.PgroupAlive g := by
  unfold tryFindPgroup
  rw [Option.filter_eq_some_iff, decide_eq_true_iff]

theorem tryFindSession_eq_some {s : ProcessList} {sid σ : ℕ} :
    s.tryFindSession sid = some σ ↔ s.sessions.get sid = some σ ∧ s.SessionAlive σ := by
  unfold tryFindSession
  rw [Option.filter_eq_some_iff, decide_eq_true_iff]

namespace TableInv

variable {s : ProcessList} (hs : s.TableInv)
include hs

theorem live_iff (r : ℕ) : s.Live r ↔ ∃ g, (s.proc r).pgroup = some g := by
  unfold Live
  rw [hs.threads]
  exact ⟨fun h => h.2.2, fun ⟨g, hg⟩ => ⟨hs.bound r g hg, rfl, g, hg⟩⟩

variable {r g : ℕ}

theorem alive (hg : (s.proc r).pgroup = some g) : s.PgroupAlive g :=
  Or.inl ⟨r, hs.bound r g hg, hg⟩

theorem sessionAlive (hg : (s.proc r).pgroup = some g) : s.SessionAlive (s.group g).session :=
  Or.inl ⟨r, hs.bound r g hg, hs.session r g hg⟩

theorem pid_unique {r' g' : ℕ} (hg : (s.proc r).pgroup = some g)
    (hg' : (s.proc r').pgroup = some g') (hpid : (s.proc r').pid = (s.proc r).pid) : r' = r := by
  have hget := (hs.threads _ r').2 ⟨hpid, g', hg'⟩
  rw [(hs.threads _ r).2 ⟨rfl, g, hg⟩] at hget
  exact (Option.some.inj hget).symm

theorem lt_of_mem {k : ℕ} (h : s.Mem g k r) : g < s.groupCount :=
  (hs.pgroups g (hs.alive ((hs.mem g k r).1 h).1)).1

theorem pgid_ne_of_not_found {pgid : ℕ} (h : s.tryFindPgroup pgid = none)
    (hg : s.PgroupAlive g) : (s.group g).pgid ≠ pgid := by
  rintro rfl
  rw [tryFindPgroup_eq_some.2 ⟨(hs.pgroups g hg).2, hg⟩] at h
  cases h

theorem sid_ne_of_not_found {sid σ : ℕ} (h : s.tryFindSession sid = none)
    (hσ : s.SessionAlive σ) : (s.sess σ).sid ≠ sid := by
  rintro rfl
  rw [tryFindSession_eq_some.2 ⟨(hs.sessions σ hσ).2, hσ⟩] at h
  cases h

variable {s' : ProcessList} {p : Process} (h : Change s s' r p)
include h

theorem pgroupAlive_of_change (hg : s'.PgroupAlive g) : s.PgroupAlive g ∨ p.pgroup = some g := by
  obtain ⟨r', hr', hg⟩ | hg := hg
  · rw [h.proc] at hg
    by_cases hr : r' = r
    · rw [hr, update_self] at hg
      exact Or.inr hg
    · rw [update_of_ne hr] at hg
      exact Or.inl (hs.alive hg)
  · obtain hg | ⟨g', hg', ⟨⟨⟩⟩ | ⟨⟨⟩⟩⟩ := h.deferred _ hg
    · exact Or.inl (Or.inr hg)
    · exact Or.inl (hs.alive hg')

theorem sessionAlive_of_change {σ : ℕ} (hσ : s'.SessionAlive σ) :
    s.SessionAlive σ ∨ p.session = some σ := by
  obtain ⟨r', hr', hσ⟩ | hσ := hσ
  · rw [h.proc] at hσ
    by_cases hr : r' = r
    · rw [hr, update_self] at hσ
      exact Or.inr hσ
    · rw [update_of_ne hr] at hσ
      exact Or.inl (Or.inl ⟨r', ((h.count r').1 hr').resolve_right hr, hσ⟩)
  · obtain hσ | ⟨g', hg', ⟨⟨⟩⟩ | ⟨⟨⟩⟩⟩ := h.deferred _ hσ
    · exact Or.inl (Or.inr hσ)
    · exact Or.inl (hs.sessionAlive hg')

theorem of_change
    (hpgroups : Indexed s'.pgroups (fun g => (s'.group g).pgid) s'.groupCount s'.PgroupAlive)
    (hsessions : Indexed s'.sessions (fun σ => (s'.sess σ).sid) s'.sessionCount s'.SessionAlive) :
    s'.TableInv := by
  have hself : s'.proc r = p := by rw [h.proc, update_self]
  have hother : ∀ r', r' ≠ r → s'.proc r' = s.proc r' := fun r' hr => by
    rw [h.proc, update_of_ne hr]
  refine ⟨fun k r' => ?_, fun r' g hg => ?_, fun r' g hg => ?_, fun g k r' => ?_, h.registered,
    hpgroups, hsessions⟩ <;> by_cases hr : r' = r
  · subst hr
    rw [h.threads, hself]
    exact ⟨fun h => h.elim (fun h => absurd rfl h.1) And.right, fun h => Or.inr ⟨rfl, h⟩⟩
  · rw [h.threads, hother r' hr, hs.threads]
    exact ⟨fun h => h.elim And.right fun h => absurd h.1 hr, fun h => Or.inl ⟨hr, h⟩⟩
  · exact (h.count r').2 (Or.inr hr)
  · rw [hother r' hr] at hg
    exact (h.count r').2 (Or.inl (hs.bound r' g hg))
  · subst hr
    rw [hself] at hg ⊢
    exact h.session g hg
  · rw [hother r' hr] at hg ⊢
    rw [h.group g (hs.pgroups g (hs.alive hg)).1]
    exact hs.session r' g hg
  · subst hr
    rw [h.mem, hself]
    exact ⟨fun h => h.elim (fun h => absurd rfl h.1) And.right, fun h => Or.inr ⟨rfl, h⟩⟩
  · rw [h.mem, hother r' hr, hs.mem]
    exact ⟨fun h => h.elim And.right fun h => absurd h.1 hr, fun h => Or.inl ⟨hr, h⟩⟩

end TableInv

/-! ### Leaving a group -/

/-- The state after `remove_member` when nothing panics. -/
def dropMember (s : ProcessList) (g k : ℕ) : ProcessList :=
  let x := s.group g
  let processes := x.processes.erase k
  (s.setGroup g { x with processes }).setSess x.session
    (if processes.entries.isEmpty then
      { s.sess x.session with groups := (s.sess x.session).groups.erase x.pgid }
    else s.sess x.session)

theorem setSess_self (s : ProcessList) (σ : ℕ) : s.setSess σ (s.sess σ) = s := by
  unfold setSess
  rw [update_eq_self]

theorem Registered.removeMember_eq {s : ProcessList} (h : s.Registered) {g k r : ℕ}
    (hmem : s.Mem g k r) (halive : s.SessionAlive (s.group g).session) :
    s.removeMember g k = .ok (s.dropMember g k) := by
  have hreg : s.Reg (s.group g).session (s.group g).pgid g := (h _ _ g).2 ⟨rfl, rfl, k, r, hmem⟩
  unfold removeMember dropMember
  dsimp only
  rw [show (s.group g).processes.get k = some r from hmem, Option.isSome_some, if_pos rfl]
  split
  · next hempty =>
    rw [if_pos (show (s.setGroup g _).SessionAlive (s.group g).session from halive)]
    refine if_pos ?_
    rw [show ((s.setGroup g _).sess (s.group g).session).groups.get (s.group g).pgid = some g
      from hreg, Option.isSome_some]
  · rw [show s.sess (s.group g).session = (s.setGroup g
      { s.group g with processes := (s.group g).processes.erase k }).sess (s.group g).session
      from rfl, setSess_self]

section DropMember

variable (s : ProcessList) (g k : ℕ)

@[simp] theorem proc_dropMember : (s.dropMember g k).proc = s.proc := rfl

@[simp] theorem pgid_dropMember (g' : ℕ) :
    ((s.dropMember g k).group g').pgid = (s.group g').pgid :=
  proj_update s.group g ProcessGroup.pgid (by rfl) g'

@[simp] theorem session_dropMember (g' : ℕ) :
    ((s.dropMember g k).group g').session = (s.group g').session :=
  proj_update s.group g ProcessGroup.session (by rfl) g'

@[simp] theorem sid_dropMember (σ : ℕ) : ((s.dropMember g k).sess σ).sid = (s.sess σ).sid :=
  proj_update s.sess (s.group g).session Session.sid (by split <;> rfl) σ

theorem mem_dropMember (g' k' r : ℕ) :
    (s.dropMember g k).Mem g' k' r ↔ s.Mem g' k' r ∧ ¬ (g' = g ∧ k' = k) := by
  show (update s.group g _ g').processes.get k' = some r ↔ _
  by_cases h : g' = g
  · subst h
    rw [update_self, SortedMap.get_erase]
    by_cases hk : k' = k <;> simp [hk, Mem]
  · rw [update_of_ne h]
    simp [h, Mem]

theorem isEmpty_iff_get (m : SortedMap ℕ ℕ) :
    m.entries.isEmpty = true ↔ ∀ k r, m.get k ≠ some r := by
  rw [List.isEmpty_iff, List.eq_nil_iff_forall_not_mem]
  constructor
  · exact fun h k r hkr => h (k, r) (SortedMap.mem_entries.2 hkr)
  · exact fun h e he => h e.1 e.2 (SortedMap.mem_entries.1 he)

theorem reg_dropMember (σ k' g' : ℕ) :
    (s.dropMember g k).Reg σ k' g' ↔ s.Reg σ k' g' ∧
      ¬ (σ = (s.group g).session ∧ k' = (s.group g).pgid ∧
        ∀ k'' r, ¬ (s.dropMember g k).Mem g k'' r) := by
  have hempty : (∀ k'' r, ¬ (s.dropMember g k).Mem g k'' r) ↔
      ((s.group g).processes.erase k).entries.isEmpty = true := by
    rw [isEmpty_iff_get]
    have hself : ((s.dropMember g k).group g).processes = (s.group g).processes.erase k := by
      show (update s.group g _ g).processes = _
      rw [update_self]
    unfold Mem
    rw [hself]
  rw [hempty]
  show (update s.sess (s.group g).session _ σ).groups.get k' = some g' ↔ _
  by_cases h : σ = (s.group g).session
  · subst h
    rw [update_self]
    split
    · next he =>
      rw [SortedMap.get_erase]
      by_cases hk : k' = (s.group g).pgid <;> simp [hk, he, Reg]
    · next he => simp [he, Reg]
  · rw [update_of_ne h]
    simp [h, Reg]

variable {s g k}

theorem Registered.dropMember (h : s.Registered) {r : ℕ} (hmem : s.Mem g k r) :
    (s.dropMember g k).Registered := by
  intro σ k' g'
  rw [reg_dropMember, h, pgid_dropMember, session_dropMember]
  constructor
  · rintro ⟨⟨hσ, hk, k'', r', hmem'⟩, hkeep⟩
    refine ⟨hσ, hk, ?_⟩
    by_contra hnone
    -- the member that was taken out was the last one
    have hlast : g' = g ∧ k'' = k := by
      by_contra hne
      exact hnone ⟨k'', r', (mem_dropMember s g k g' k'' r').2 ⟨hmem', hne⟩⟩
    obtain ⟨rfl, rfl⟩ := hlast
    exact hkeep ⟨hσ.symm, hk.symm, fun k r h => hnone ⟨k, r, h⟩⟩
  · rintro ⟨rfl, rfl, k'', r', hmem'⟩
    have hold := ((mem_dropMember s g k g' k'' r').1 hmem').1
    refine ⟨⟨rfl, rfl, k'', r', hold⟩, ?_⟩
    rintro ⟨hσ, hk, hnone⟩
    have hreg := (h _ _ g').2 ⟨rfl, rfl, k'', r', hold⟩
    rw [hσ, hk] at hreg
    obtain rfl : g = g' :=
      Option.some.inj (((h _ _ g).2 ⟨rfl, rfl, k, r, hmem⟩).symm.trans hreg)
    exact hnone k'' r' hmem'

end DropMember

/-- A process leaves its group, in a state that may have put it into another one already. -/
theorem TableInv.mem_leave {s b : ProcessList} (hs : s.TableInv) {r g : ℕ} {dst : Option ℕ}
    (hg : (s.proc r).pgroup = some g) (hne : dst ≠ some g)
    (hmem : ∀ g' k r', b.Mem g' k r' ↔
      s.Mem g' k r' ∨ (dst = some g' ∧ k = (s.proc r).pid ∧ r' = r)) (g' k r' : ℕ) :
    (b.dropMember g (s.proc r).pid).Mem g' k r' ↔
      (r' ≠ r ∧ s.Mem g' k r') ∨ (r' = r ∧ dst = some g' ∧ (s.proc r).pid = k) := by
  rw [mem_dropMember, hmem, hs.mem]
  constructor
  · rintro ⟨⟨hg', hk⟩ | ⟨hdst, rfl, rfl⟩, hnot⟩
    · refine Or.inl ⟨?_, hg', hk⟩
      rintro rfl
      exact hnot ⟨Option.some.inj (hg'.symm.trans hg), hk.symm⟩
    · exact Or.inr ⟨rfl, hdst, rfl⟩
  · rintro (⟨hr', hg', hk⟩ | ⟨rfl, hdst, rfl⟩)
    · refine ⟨Or.inl ⟨hg', hk⟩, ?_⟩
      rintro ⟨-, rfl⟩
      exact hr' (hs.pid_unique hg hg' hk)
    · refine ⟨Or.inr ⟨hdst, rfl, rfl⟩, ?_⟩
      rintro ⟨rfl, -⟩
      exact hne hdst

/-! ### Moving to another group -/

/-- The end of `setsid` and `do_setpgid`: the pointers are swapped. -/
def swapTo (s : ProcessList) (r g σ : ℕ) (drops : List Deferred) : ProcessList :=
  { s.setProc r { s.proc r with session := some σ, pgroup := some g } with
    deferred := s.deferred ++ drops }

/-- The state `b` has prepared the group `new` of the session `σ` for the process `r` of `s`. -/
structure Prepared (s b : ProcessList) (r new σ : ℕ) : Prop where
  proc : b.proc = s.proc
  procCount : b.procCount = s.procCount
  threads : b.threads = s.threads
  deferred : b.deferred = s.deferred
  mem : ∀ g k r', b.Mem g k r' ↔ s.Mem g k r' ∨ (new = g ∧ k = (s.proc r).pid ∧ r' = r)
  registered : b.Registered
  group : ∀ g, g < s.groupCount → (b.group g).session = (s.group g).session
  session : (b.group new).session = σ
  pgroups : Indexed b.pgroups (fun g => (b.group g).pgid) b.groupCount
    fun g => s.PgroupAlive g ∨ g = new
  sessions : Indexed b.sessions (fun σ => (b.sess σ).sid) b.sessionCount
    fun σ' => s.SessionAlive σ' ∨ σ' = σ

namespace Prepared

variable {s b : ProcessList} {r new σ old : ℕ} (hb : Prepared s b r new σ) (hs : s.TableInv)
  (hold : (s.proc r).pgroup = some old)
include hb hs hold

theorem mem_old : b.Mem old (s.proc r).pid r :=
  (hb.mem _ _ _).2 (Or.inl ((hs.mem _ _ _).2 ⟨hold, rfl⟩))

theorem removeMember_eq : b.removeMember old (b.proc r).pid =
    .ok (b.dropMember old (s.proc r).pid) := by
  rw [hb.proc]
  refine hb.registered.removeMember_eq (hb.mem_old hs hold) (Or.inl ⟨r, ?_, ?_⟩)
  · rw [hb.procCount]
    exact hs.bound r old hold
  · rw [hb.proc, hb.group old (hs.pgroups old (hs.alive hold)).1, hs.session r old hold]

theorem change (hne : new ≠ old) (drops : List Deferred)
    (hdrops : ∀ d ∈ drops, d = .pgroup old ∨ d = .session (s.group old).session) :
    Change s ((b.dropMember old (s.proc r).pid).swapTo r new σ drops) r
      { s.proc r with session := some σ, pgroup := some new } where
  proc := by
    show update b.proc r { b.proc r with session := some σ, pgroup := some new } = _
    rw [hb.proc]
  count r' := by
    show r' < b.procCount ↔ _
    rw [hb.procCount]
    exact ⟨Or.inl, fun h => h.elim id fun h => h ▸ hs.bound r old hold⟩
  threads k r' := by
    show b.threads.get k = some r' ↔ _
    rw [hb.threads]
    by_cases hr : r' = r
    · subst hr
      rw [hs.threads]
      exact ⟨fun h => Or.inr ⟨rfl, h.1, new, rfl⟩,
        fun h => h.elim (fun h => absurd rfl h.1) fun h => ⟨h.2.1, old, hold⟩⟩
    · exact ⟨fun h => Or.inl ⟨hr, h⟩, fun h => h.elim And.right fun h => absurd h.1 hr⟩
  mem := hs.mem_leave hold (fun h => hne (Option.some.inj h)) (by
    simpa only [Option.some.injEq] using hb.mem)
  registered := hb.registered.dropMember (hb.mem_old hs hold)
  group g hg := (session_dropMember b old _ g).trans (hb.group g hg)
  session := by
    rintro _ ⟨⟩
    exact congrArg some ((session_dropMember b old _ new).trans hb.session).symm
  deferred d hd := by
    rcases List.mem_append.1 hd with hd | hd
    · exact Or.inl (hb.deferred ▸ hd)
    · exact Or.inr ⟨old, hold, hdrops d hd⟩

theorem tableInv (hne : new ≠ old) (drops : List Deferred)
    (hdrops : ∀ d ∈ drops, d = .pgroup old ∨ d = .session (s.group old).session) :
    ((b.dropMember old (s.proc r).pid).swapTo r new σ drops).TableInv := by
  have hchange := hb.change hs hold hne drops hdrops
  refine hs.of_change hchange (fun g halive => ?_) fun σ' halive => ?_
  · obtain ⟨hlt, hget⟩ := hb.pgroups g ((hs.pgroupAlive_of_change hchange halive).imp_right
      fun h => (Option.some.inj h).symm)
    exact ⟨hlt, (congrArg b.pgroups.get (pgid_dropMember b old _ g)).trans hget⟩
  · obtain ⟨hlt, hget⟩ := hb.sessions σ' ((hs.sessionAlive_of_change hchange halive).imp_right
      fun h => (Option.some.inj h).symm)
    exact ⟨hlt, (congrArg b.sessions.get (sid_dropMember b old _ σ')).trans hget⟩

end Prepared

end ProcessList

end Dlutos.Processes
