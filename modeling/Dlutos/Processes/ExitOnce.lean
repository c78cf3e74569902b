import Dlutos.Processes.ExitWait
import Mathlib.Data.List.Count
import Mathlib.Data.List.Nodup

/-!
# Exits happen once

Threads of a process that has been torn down, which were waiting for the lock of the process list,
still run `do_exit`.  For `exit` and for fatal signals this does no harm as long as they have no
memory to write to; `exit_group` tears the process down again and panics.
-/

namespace Dlutos.Processes

open ExceptLoop Transition Function

theorem WaitObject.alive_eq (object : WaitObject) : object.alive = !object.code.final := by
  unfold WaitObject.alive
  cases object.code <;> rfl

theorem WaitObject.exitOf_of_alive {object : WaitObject}
    (h : object.alive = true) (c : ℕ) : object.exitOf c = false := by
  rw [WaitObject.exitOf, h]
  rfl

namespace ProcessTree

/-- Only running processes make threads and processes, and init does not exit. Before the teardown
the threads that end have valid `clear_child_tid` pointers or none, and `exit_group` finds no thread
about to remove a child; afterwards there is no `exit_group`. -/
def Orderly (s : ProcessTree) : TreeOp → Prop
  | .clone t _ _ | .fork t _ _ => s.mm (s.process t) = true
  | .doExit t _ => s.process t ≠ initPid ∧ ∀ code group, s.pc t = .exiting code group →
      if s.mm (s.process t) = true then
        (∀ tid ∈ s.exitingTids t group, ∀ addr, s.clearCtid tid = some addr →
          userPointer addr 4 = true) ∧
        (group = true → ∀ u object, s.process u = s.process t → s.pc u ≠ .reaping object)
      else
        group = false ∧ (s.listed t = true → s.clearCtid t = none ∧ s.robustList t = none)
  | _ => True

/-- Threads belong to processes that have not been torn down. -/
structure Roster (s : ProcessTree) : Prop where
  member : ∀ p t, t ∈ s.threads p → s.listed t = true ∧ s.process t = p ∧ s.mm p = true ∧
    (s.pc t).active = true ∧ s.dead t = false
  joined : ∀ t, (s.pc t).active = true → s.mm (s.process t) = true → t ∈ s.threads (s.process t)
  nodup : ∀ p, (s.threads p).Nodup
  peopled : ∀ p, s.mm p = true → s.threads p ≠ []
  leader : ∀ p, s.mm p = true → s.listed p = true ∧ s.process p = p ∧ s.pc p ≠ .unborn
  home : ∀ t, s.pc t ≠ .unborn → s.pc (s.process t) ≠ .unborn ∧
    s.process (s.process t) = s.process t
  unborn : ∀ t, s.pc t = .unborn → s.listed t = false ∧ s.dead t = false

/-- Parents and children know each other. -/
structure Family (s : ProcessTree) : Prop where
  pointers : ∀ p, s.listed p = true → s.process p = p → s.session p ≠ none ∧
    s.pgroup p ≠ none ∧ (p ≠ initPid → s.parent p ≠ none)
  child : ∀ p c, c ∈ s.children p ↔ s.parent c = some p
  kept : ∀ p c, s.parent c = some p → s.listed c = true ∧ s.process c = c ∧ s.mm p = true
  nodup : ∀ p, (s.children p).Nodup
  init : s.mm initPid = true
  initParent : s.parent initPid = none
  noSelf : ∀ c, s.parent c ≠ some c

structure Statuses (s : ProcessTree) : Prop where
  count : ∀ q c, (s.waitProcs q).countP (fun object => object.exitOf c) =
    if s.queued c = 1 ∧ s.consumed c = 0 ∧ s.parent c = some q then 1 else 0
  once : ∀ c, s.queued c = s.teardowns c ∧ s.teardowns c ≤ 1 ∧ s.consumed c ≤ s.queued c
  unborn : ∀ c, s.pc c = .unborn → s.queued c = 0
  torn : ∀ c, s.pc c ≠ .unborn → s.process c = c →
    s.teardowns c = if s.mm c = true then 0 else 1
  waiting : ∀ c, s.queued c = 1 → s.consumed c = 0 → s.listed c = true ∧ s.process c = c
  reaper : ∀ u object, s.pc u = .reaping object → s.consumed object.pid = 1 ∧
    s.parent object.pid = some (s.process u)
  alone : ∀ u u' object object', s.pc u = .reaping object → s.pc u' = .reaping object' →
    object.pid = object'.pid → u = u'
  code : ∀ t code group, s.pc t = .exiting code group → code.final = true

structure TreeInv (s : ProcessTree) : Prop where
  roster : s.Roster
  family : s.Family
  statuses : s.Statuses

attribute [local grind →] Roster.member Roster.joined Roster.peopled Roster.leader Roster.home
  Roster.unborn Family.pointers Family.kept Family.init Family.initParent Statuses.unborn
  Statuses.torn Statuses.waiting Statuses.reaper Statuses.alone Statuses.code

attribute [local grind =>] Roster.nodup Family.nodup Statuses.once

attribute [local grind =] Family.child update_apply

attribute [local grind] ExitPc.active

variable {s : ProcessTree}

theorem treeInv_boot : TreeInv boot := by
  refine ⟨?_, ?_, ?_⟩ <;> constructor <;> simp only [boot] <;> grind [initPid]

theorem Statuses.alone_of (hs : s.Statuses) {pc : ℕ → ExitPc}
    (h : ∀ u object, pc u = .reaping object → s.pc u = .reaping object) :
    ∀ u u' object object', pc u = .reaping object → pc u' = .reaping object' →
      object.pid = object'.pid → u = u' :=
  fun u u' object object' hu hu' => hs.alone u u' object object' (h u object hu) (h u' object' hu')

namespace TreeInv

variable {t : ℕ}

variable {object : WaitObject}

section

variable (hi : s.TreeInv)
include hi

theorem goto {pc : ExitPc} (ht : s.pc t = .running) (hpc : pc.active = true ∨ s.dead t = true)
    (hunborn : pc ≠ .unborn) (hreap : ∀ object, pc ≠ .reaping object)
    (hcode : ∀ code group, pc = .exiting code group → code.final = true) :
    (s.goto t pc).TreeInv := by
  obtain ⟨hr, hf, hs⟩ := hi
  refine ⟨?_, ?_, ?_⟩
  · clear hf hs
    constructor <;> simp only [ProcessTree.goto] <;> grind
  · exact { hf with }
  · refine ⟨hs.count, hs.once, ?_, ?_, hs.waiting, ?_, hs.alone_of ?_, ?_⟩ <;> clear hr hf <;>
      simp only [ProcessTree.goto] <;> grind

theorem pointers (clearCtid robustList : ℕ → Option ℕ) :
    ({ s with clearCtid := clearCtid, robustList := robustList } : ProcessTree).TreeInv := by
  obtain ⟨hr, hf, hs⟩ := hi
  exact ⟨{ hr with }, { hf with }, { hs with }⟩

theorem clone {tid : ℕ} (htid : s.pc tid = .unborn)
    (hmm : s.mm (s.process t) = true) (clearCtid : Option ℕ) :
    ∃ s', s.clone t tid clearCtid = .ok s' ∧ s'.TreeInv := by
  obtain ⟨hr, hf, hs⟩ := hi
  have hnew : tid ∉ s.threads (s.process t) := fun h => by
    have hactive := (hr.member _ tid h).2.2.2.1
    rw [htid] at hactive
    cases hactive
  have hne : tid ≠ s.process t := fun h => (hr.leader _ hmm).2.2 (h ▸ htid)
  have hlisted : s.listed tid = false := (hr.unborn tid htid).1
  refine ⟨_, by simp only [ProcessTree.clone, assertOr_true _ hnew, ok_bind]; rfl, ?_, ?_, ?_⟩
  · clear hf hs
    constructor <;> grind
  · refine ⟨?_, hf.child, ?_, hf.nodup, hf.init, hf.initParent, hf.noSelf⟩ <;> grind
  · refine ⟨hs.count, hs.once, ?_, ?_, ?_, ?_, hs.alone_of ?_, ?_⟩ <;> clear hr hf <;> grind

theorem fork {pid : ℕ} (hpid : s.pc pid = .unborn)
    (hmm : s.mm (s.process t) = true) (clearCtid : Option ℕ) :
    ∃ s', s.fork t pid clearCtid = .ok s' ∧ s'.TreeInv := by
  obtain ⟨hr, hf, hs⟩ := hi
  obtain ⟨hlisted, hprocess, -⟩ := hr.leader _ hmm
  obtain ⟨hsession, hpgroup, -⟩ := hf.pointers _ hlisted hprocess
  have hnew : pid ∉ s.children (s.process t) := fun h => by
    have hkept := (hf.kept _ pid ((hf.child _ pid).mp h)).1
    rw [(hr.unborn pid hpid).1] at hkept
    cases hkept
  have hne : pid ≠ initPid := by
    rintro rfl
    exact (hr.leader _ hf.init).2.2 hpid
  have hself : s.process t ≠ pid := fun h => (hr.leader _ hmm).2.2 (h ▸ hpid)
  have hfresh : s.listed pid = false := (hr.unborn pid hpid).1
  refine ⟨_, by simp only [ProcessTree.fork, assertOr_true _ hpgroup, assertOr_true _ hsession,
    assertOr_true _ hmm, assertOr_true _ hnew, ok_bind]; rfl, ?_, ?_, ?_⟩
  · clear hf hs
    constructor <;> grind
  · have hnoSelf := hf.noSelf
    clear hr hs
    constructor <;> grind
  · have hparent : ∀ c q, s.parent c = some q → c ≠ pid := fun c q h => by
      rintro rfl
      rw [(hf.kept q c h).1] at hfresh
      cases hfresh
    have hqueued := hs.unborn pid hpid
    refine ⟨fun q c => (hs.count q c).trans ?_, hs.once, ?_, ?_, ?_, ?_, hs.alone_of ?_, ?_⟩ <;>
      clear hr hf <;> grind

theorem push (q : ℕ) (h : object.alive = true) :
    (s.push q [object]).TreeInv := by
  obtain ⟨hr, hf, hs⟩ := hi
  refine ⟨{ hr with }, { hf with }, { hs with count := fun q' c => ?_ }⟩
  refine Eq.trans ?_ (hs.count q' c)
  simp only [ProcessTree.push, update_apply]
  split_ifs with hq
  · rw [hq, List.countP_append, List.countP_singleton, if_neg, Nat.add_zero]
    rw [WaitObject.exitOf_of_alive h]
    exact Bool.false_ne_true
  · rfl

theorem take (ht : s.pc t = .running)
    (hmem : object ∈ s.waitProcs (s.process t)) : (s.take t object).TreeInv := by
  obtain ⟨hr, hf, hs⟩ := hi
  have hcount : ∀ q c, ((update s.waitProcs (s.process t)
      ((s.waitProcs (s.process t)).erase object)) q).countP (fun object => object.exitOf c) =
      (s.waitProcs q).countP (fun object => object.exitOf c) -
        if q = s.process t ∧ object.exitOf c = true then 1 else 0 := fun q c => by
    rw [update_apply]
    split_ifs with hq hqc hqc
    · rw [hq, List.countP_erase, if_pos ⟨hmem, hqc.2⟩]
    · rw [hq, List.countP_erase, if_neg fun h => hqc ⟨hq, h.2⟩]
    · exact absurd hqc.1 hq
    · rfl
  unfold ProcessTree.take
  cases halive : object.alive with
  | true =>
    refine ⟨{ hr with }, { hf with }, { hs with count := fun q c => ?_ }⟩
    refine (hcount q c).trans ?_
    rw [WaitObject.exitOf_of_alive halive, if_neg (fun h => Bool.false_ne_true h.2)]
    exact hs.count q c
  | false =>
    have hexit : object.exitOf object.pid = true := by
      rw [WaitObject.exitOf, halive, beq_self_eq_true]
      rfl
    have hpos : (s.waitProcs (s.process t)).countP (fun o => o.exitOf object.pid) ≠ 0 :=
      Nat.pos_iff_ne_zero.mp (List.countP_pos_iff.mpr ⟨object, hmem, hexit⟩)
    obtain ⟨hqueued, hconsumed, hparent⟩ : s.queued object.pid = 1 ∧ s.consumed object.pid = 0 ∧
        s.parent object.pid = some (s.process t) := by
      by_contra hnot
      rw [hs.count, if_neg hnot] at hpos
      exact hpos rfl
    refine ⟨?_, { hf with }, ?_⟩
    · clear hf hs hcount
      constructor <;> simp only [ProcessTree.goto] <;> grind
    · constructor
      case count =>
        intro q c
        refine (hcount q c).trans ?_
        rw [hs.count q c]
        have hpid : object.exitOf c = true ↔ object.pid = c := by
          rw [WaitObject.exitOf, halive]
          exact beq_iff_eq
        simp only [hpid, ProcessTree.goto]
        by_cases hc : c = object.pid
        · subst hc
          simp [hqueued, hconsumed, hparent, eq_comm]
        · simp [hc, Ne.symm hc]
      case alone =>
        -- whoever holds another status of the child would have consumed it before
        have hother : ∀ u o, s.pc u = .reaping o → o.pid ≠ object.pid := fun u o hu heq => by
          have hone := (hs.reaper u o hu).1
          rw [heq, hconsumed] at hone
          cases hone
        have halone := hs.alone
        clear hr hf hcount hpos hs
        simp only [ProcessTree.goto]
        grind
      all_goals clear hr hf hcount hpos
      all_goals simp only [ProcessTree.goto]
      all_goals grind

theorem reap (ht : s.pc t = .reaping object) :
    ∃ s', s.reap t object = .ok s' ∧ s'.TreeInv := by
  obtain ⟨hr, hf, hs⟩ := hi
  obtain ⟨hconsumed, hparent⟩ := hs.reaper t object ht
  obtain ⟨hlisted, hprocess, hmm⟩ := hf.kept _ _ hparent
  have hborn : s.pc object.pid ≠ .unborn := fun h => by
    rw [(hr.unborn _ h).1] at hlisted
    cases hlisted
  have hne : object.pid ≠ initPid := fun h => by
    rw [h, hf.initParent] at hparent
    cases hparent
  obtain ⟨hsession, hpgroup, -⟩ := hf.pointers _ hlisted hprocess
  have hparent' : s.parent object.pid ≠ none := by rw [hparent]; nofun
  have hchild : object.pid ∈ s.children (s.process t) := (hf.child _ _).mpr hparent
  have htorn : s.mm object.pid = false := by
    have hteardowns := hs.torn _ hborn hprocess
    have honce := hs.once object.pid
    by_contra hmm'
    rw [if_pos (by simpa using hmm')] at hteardowns
    omega
  refine ⟨_, by simp only [ProcessTree.reap, ProcessTree.removeProcess, assertOr_true _ hlisted,
    hprocess, assertOr_true _ hsession, assertOr_true _ hpgroup, assertOr_true _ hparent', ok_bind,
    pure_bind, assertOr_true _ hchild]; rfl, ?_, ?_, ?_⟩
  · clear hf hs
    constructor <;> simp only [ProcessTree.goto] <;> grind
  · have hnoSelf := hf.noSelf
    have herase : ∀ c, c ∈ (s.children (s.process t)).erase object.pid ↔
        c ≠ object.pid ∧ c ∈ s.children (s.process t) :=
      fun c => (hf.nodup (s.process t)).mem_erase_iff
    clear hs hr
    constructor <;> simp only [ProcessTree.goto] <;> grind
  · have hother : ∀ u o, u ≠ t → s.pc u = .reaping o → o.pid ≠ object.pid :=
      fun u o hne hu heq => hne (hs.alone u t o object hu ht heq)
    refine ⟨fun q c => (hs.count q c).trans ?_, hs.once, ?_, ?_, ?_, ?_, hs.alone_of ?_, ?_⟩ <;>
      clear hr hf <;> simp only [ProcessTree.goto] <;> grind

end

end TreeInv

/-! ### The steps of an exit -/

/-- The pointers of a thread that ends can be used. -/
def Releasable (s : ProcessTree) (tid : ℕ) : Prop :=
  s.listed tid = true →
    (∀ addr, s.clearCtid tid = some addr →
      userPointer addr 4 = true ∧ s.mm (s.process tid) = true) ∧
    ∀ addr, s.robustList tid = some addr → s.mm (s.process tid) = true

theorem release_eq {tid : ℕ} (h : s.Releasable tid) :
    ∃ dead, s.release tid = .ok { s with dead := dead } ∧ (∀ t, t ≠ tid → dead t = s.dead t) ∧
      dead tid = (s.dead tid || s.listed tid) := by
  unfold release
  cases hlisted : s.listed tid with
  | false => exact ⟨s.dead, rfl, fun _ _ => rfl, (Bool.or_false _).symm⟩
  | true =>
    obtain ⟨hclear, hrobust⟩ := h hlisted
    refine ⟨update s.dead tid true, ?_, fun t ht => update_of_ne ht _ _, ?_⟩
    · rw [if_pos rfl]
      have hfirst : s.writeClearCtid tid = .ok () := by
        unfold writeClearCtid
        cases hc : s.clearCtid tid with
        | none => rfl
        | some addr =>
          obtain ⟨haddr, hmm⟩ := hclear addr hc
          simp only [assertOr_true _ haddr, assertOr_true _ hmm, ok_bind]
      have hsecond : s.readRobustList tid = .ok () := by
        unfold readRobustList
        cases hc : s.robustList tid with
        | none => rfl
        | some addr => exact assertOr_true _ fun _ => hrobust addr hc
      rw [hfirst, hsecond]
      rfl
    · rw [update_self, Bool.or_true]

variable {tids : List ℕ}

theorem release_all (h : ∀ tid ∈ tids, s.Releasable tid) :
    ∃ dead, tids.foldlM release s = .ok { s with dead := dead } ∧
      (∀ t, t ∉ tids → dead t = s.dead t) ∧ ∀ t ∈ tids, dead t = (s.dead t || s.listed t) := by
  have hloop := foldlM_ok (f := release) (I := fun done s' => ∃ dead, s' = { s with dead := dead } ∧
      ∀ t, dead t = (s.dead t || (decide (t ∈ done) && s.listed t))) tids
    (fun done a rest b hl hb => ?_) (b := s) ⟨s.dead, rfl, fun _ => by simp⟩
  · obtain ⟨_, hrun, dead, rfl, hdead⟩ := hloop
    exact ⟨dead, hrun, fun t ht => by simp [hdead, ht], fun t ht => by simp [hdead, ht]⟩
  · obtain ⟨dead, rfl, hdead⟩ := hb
    have ha : Releasable { s with dead := dead } a :=
      h a (hl ▸ List.mem_append_right done List.mem_cons_self)
    obtain ⟨dead', hrel, hother, hself⟩ := release_eq ha
    refine ⟨_, hrel, dead', rfl, fun t => ?_⟩
    by_cases ht : t = a
    · subst ht
      rw [hself]
      simp only [hdead, List.mem_append, List.mem_singleton, or_true, decide_true, Bool.true_and]
      cases s.dead t <;> cases s.listed t <;> simp
    · rw [hother t ht]
      simp [hdead, ht]

theorem adopt_all {cs : List ℕ} (hnodup : cs.Nodup) (hlisted : ∀ c ∈ cs, s.listed c = true)
    (hnew : ∀ c ∈ cs, c ∉ s.children initPid) :
    cs.foldlM adopt s = .ok
      { s with parent := fun c => if c ∈ cs then some initPid else s.parent c
               children := update s.children initPid
                 (cs.reverse ++ s.children initPid) } := by
  have hloop := foldlM_ok (f := adopt) (I := fun done s' => s' =
      { s with parent := fun c => if c ∈ done then some initPid else s.parent c
               children := update s.children initPid
                 (done.reverse ++ s.children initPid) }) cs (fun done a rest b hl hb => ?_)
    (b := s) (by simp)
  · obtain ⟨s', hrun, rfl⟩ := hloop
    exact hrun
  · have hmem : a ∈ cs := hl ▸ List.mem_append_right done List.mem_cons_self
    have hdone : a ∉ done := fun hin =>
      (List.nodup_append.mp (hl ▸ hnodup)).2.2 a hin a List.mem_cons_self rfl
    subst hb
    have hfresh : a ∉ (update s.children initPid
        (done.reverse ++ s.children initPid)) initPid := by
      rw [update_self, List.mem_append, List.mem_reverse, not_or]
      exact ⟨hdone, hnew a hmem⟩
    refine ⟨_, by
      simp only [adopt, assertOr_true _ (hlisted a hmem), assertOr_true _ hfresh, ok_bind]
      rfl, ?_⟩
    congr 1
    · funext c
      by_cases hc : c = a
      · subst hc
        simp
      · simp [hc]
    · rw [update_self, update_idem, List.reverse_append, List.reverse_singleton,
        List.singleton_append, List.cons_append]

theorem Roster.raise (hr : s.Roster) (p : ℕ) : s.raise p = .ok () := by
  unfold ProcessTree.raise
  cases h : s.threads p with
  | nil => rfl
  | cons tid rest => exact assertOr_true _ (hr.member p tid (h ▸ List.mem_cons_self)).1

def orphaned (s : ProcessTree) (p : ℕ) : ProcessTree :=
  { s with parent := fun c => if c ∈ s.children p then some initPid else s.parent c
           children := update (update s.children initPid
             ((s.children p).reverse ++ s.children initPid)) p []
           waitProcs := update s.waitProcs p [] }.push initPid
    ((s.waitProcs p).filter fun object => !object.alive)

variable {p : ℕ}

theorem orphan_eq (hnodup : (s.children p).Nodup) (hlisted : ∀ c ∈ s.children p, s.listed c = true)
    (hnew : ∀ c ∈ s.children p, c ∉ s.children initPid) (hraise : s.raise initPid = .ok ()) :
    s.orphan p = .ok (s.orphaned p) := by
  unfold orphan
  rw [adopt_all hnodup hlisted hnew, ok_bind]
  unfold drain
  split
  · have hraise' : ∀ parent children, ({ s with parent := parent, children := children } :
        ProcessTree).raise initPid = .ok () := fun _ _ => hraise
    rw [hraise']
    rfl
  · rfl

theorem teardown_eq (hf : s.Family) (hraise : ∀ q, s.raise q = .ok ()) (hp : p ≠ initPid)
    (hmm : s.mm p = true) (hlisted : s.listed p = true) (hprocess : s.process p = p)
    (code : WaitType) (signals : Bool) :
    ∃ q, s.parent p = some q ∧ s.teardown p code signals = .ok
      (({ s with mm := update s.mm p false }.orphaned p).recordExit p q code) := by
  obtain ⟨hsession, -, hparent⟩ := hf.pointers p hlisted hprocess
  obtain ⟨q, hq⟩ := Option.ne_none_iff_exists'.mp (hparent hp)
  have hchild : ∀ c ∈ s.children p, s.parent c = some p := fun c hc => (hf.child p c).mp hc
  have hnew : ∀ c ∈ s.children p, c ∉ s.children initPid := fun c hc hinit => by
    have h := hchild c hc
    rw [(hf.child initPid c).mp hinit] at h
    exact hp (Option.some.inj h).symm
  have horphan : ({ s with mm := update s.mm p false } : ProcessTree).orphan p = .ok _ :=
    orphan_eq (hf.nodup p) (fun c hc => (hf.kept p c (hchild c hc)).1) hnew (hraise initPid)
  have hq' : ({ s with mm := update s.mm p false }.orphaned p).parent p = some q := by
    have hnot : p ∉ s.children p := fun h => hf.noSelf p (hchild p h)
    exact (if_neg hnot).trans hq
  refine ⟨q, hq, ?_⟩
  rw [teardown, assertOr_true _ hsession, ok_bind, assertOr_true _ hmm, ok_bind, horphan, ok_bind,
    notifyParent, hq']
  cases signals with
  | false => rfl
  | true =>
    have hraise' : ({ s with mm := update s.mm p false }.orphaned p).raise q = .ok () :=
      hraise q
    simp only [hraise']
    rfl

variable {t : ℕ} {code : WaitType}

theorem TreeInv.leave (hi : s.TreeInv) (ht : s.pc t = .exiting code false)
    (hlength : (s.threads (s.process t)).length ≠ 1) (dead : ℕ → Bool)
    (hdead : ∀ u, u ≠ t → dead u = s.dead u) :
    (({ s with dead := dead }.removeThreads (s.process t) [t]).goto t .ended).TreeInv := by
  obtain ⟨hr, hf, hs⟩ := hi
  have hrest : s.mm (s.process t) = true →
      (s.threads (s.process t)).filter (fun u => u ≠ t) ≠ [] := fun hmm hnil => by
    have hmem : t ∈ s.threads (s.process t) := hr.joined t (by rw [ht]; rfl) hmm
    have hall : ∀ u ∈ s.threads (s.process t), u = t := fun u hu => by
      by_contra hne
      have hfilter := List.filter_eq_nil_iff.mp hnil u hu
      simp [hne] at hfilter
    have hnodup : (List.replicate (s.threads (s.process t)).length t).Nodup := by
      rw [← List.eq_replicate_of_mem hall]
      exact hr.nodup _
    have hle := List.nodup_replicate.mp hnodup
    have hpos := List.length_pos_of_mem hmem
    omega
  have hactive : (s.pc t).active = true := by rw [ht]; rfl
  refine ⟨?_, ?_, ?_⟩
  · clear hf hs
    constructor <;> simp only [ProcessTree.goto, removeThreads, List.mem_singleton]
    case nodup =>
      intro p
      rw [update_apply]
      split_ifs
      · exact (hr.nodup _).filter _
      · exact hr.nodup p
    all_goals grind
  · refine ⟨?_, hf.child, ?_, hf.nodup, hf.init, hf.initParent, hf.noSelf⟩ <;>
      clear hs hr <;> simp only [ProcessTree.goto, removeThreads, List.mem_singleton] <;> grind
  · refine ⟨hs.count, hs.once, ?_, ?_, ?_, ?_, hs.alone_of ?_, ?_⟩ <;> clear hr hf <;>
      simp only [ProcessTree.goto, removeThreads, List.mem_singleton] <;> grind

theorem countP_filter_alive (l : List WaitObject) (c : ℕ) :
    (l.filter fun object => !object.alive).countP (fun object => object.exitOf c) =
      l.countP fun object => object.exitOf c := by
  rw [List.countP_filter]
  refine List.countP_congr fun object _ => ?_
  rw [WaitObject.exitOf]
  cases object.alive <;> simp

theorem count_torn (hf : s.Family) (hs : s.Statuses) {q : ℕ} (hp : p ≠ initPid)
    (hparent : s.parent p = some q) (hqueued : s.queued p = 0)
    (hcode : code.final = true) (q' c : ℕ) :
    (((s.orphaned p).recordExit p q code).waitProcs q').countP (fun object => object.exitOf c) =
      if ((s.orphaned p).recordExit p q code).queued c = 1 ∧ s.consumed c = 0 ∧
        (s.orphaned p).parent c = some q' then 1 else 0 := by
  have hconsumed : s.consumed p = 0 := by
    have := (hs.once p).2.2
    omega
  have hobject : [({ pid := p, code := code } : WaitObject)].countP (fun object => object.exitOf c) =
      if p = c then 1 else 0 := by
    simp [WaitObject.exitOf, WaitObject.alive_eq, hcode, List.countP_singleton]
  have hfilter := countP_filter_alive (s.waitProcs p) c
  have hchild := hf.child p c
  have hself := hf.noSelf p
  have hcount := hs.count q' c
  have hcount' := hs.count p c
  simp only [recordExit, orphaned, push, update_apply]
  clear hf hs
  grind

variable {group : Bool}

theorem TreeInv.tear (hi : s.TreeInv) {q : ℕ}
    (ht : s.pc t = .exiting code group) (hp : s.process t ≠ initPid)
    (hmm : s.mm (s.process t) = true) (hparent : s.parent (s.process t) = some q)
    (htids : ∀ u, u ∈ tids ↔ u ∈ s.threads (s.process t))
    (hreap : ∀ u object, s.process u = s.process t → s.pc u ≠ .reaping object) (dead : ℕ → Bool)
    (hdead : ∀ u, u ∉ tids → dead u = s.dead u) :
    (((({ s with dead := dead, mm := update s.mm (s.process t) false }.orphaned
      (s.process t)).recordExit (s.process t) q code).removeThreads (s.process t) tids).goto t
      .ended).TreeInv := by
  obtain ⟨hr, hf, hs⟩ := hi
  have hnil : (s.threads (s.process t)).filter (fun u => u ∉ tids) = [] :=
    List.filter_eq_nil_iff.mpr fun u hu => by simpa using (htids u).mpr hu
  obtain ⟨hlisted, hprocess, hborn⟩ := hr.leader _ hmm
  have hteardowns := hs.torn _ hborn hprocess
  rw [if_pos hmm] at hteardowns
  have hqueued : s.queued (s.process t) = 0 := (hs.once _).1.trans hteardowns
  have hmember : ∀ u ∈ tids, s.process u = s.process t :=
    fun u hu => (hr.member _ u ((htids u).mp hu)).2.1
  refine ⟨?_, ?_, ?_⟩
  · clear hf hs
    constructor <;>
      simp only [ProcessTree.goto, removeThreads, recordExit, orphaned, ProcessTree.push, hnil] <;>
      grind
  · have hnoSelf := hf.noSelf
    clear hs hr
    constructor <;>
      simp only [ProcessTree.goto, removeThreads, recordExit, orphaned, ProcessTree.push]
    case nodup =>
      intro p
      rw [update_apply, update_apply]
      split_ifs
      · exact List.nodup_nil
      · refine List.nodup_append.mpr ⟨List.nodup_reverse.mpr (hf.nodup _), hf.nodup _, ?_⟩
        rintro a ha b hb rfl
        grind
      · exact hf.nodup p
    all_goals grind
  · have hchild := hf.child (s.process t)
    refine ⟨count_torn hf hs hp hparent hqueued (hs.code t code group ht), ?_, ?_, ?_, ?_, ?_,
      hs.alone_of ?_, ?_⟩ <;> clear hr hf <;>
      simp only [ProcessTree.goto, removeThreads, recordExit, orphaned, ProcessTree.push] <;> grind

theorem run_doExit {signals : Bool} (ht : s.pc t = .exiting code group) (hp : s.process t ≠ initPid)
    {s1 s2 : ProcessTree} (hrelease : (s.exitingTids t group).foldlM release s = .ok s1)
    (hend : s1.endProcess (s.process t) code group signals = .ok s2) :
    s.run (.doExit t signals) =
      .ok ((s2.removeThreads (s.process t) (s.exitingTids t group)).goto t .ended) := by
  simp only [ProcessTree.run, ht, ProcessTree.doExit, assertOr_true _ hp, hrelease, hend, ok_bind]
  rfl

/-- What the exit of a thread leaves of the threads.  Those it takes out of their process are marked
dead. -/
structure Exited (s s' : ProcessTree) (t : ℕ) : Prop where
  process : s'.process = s.process
  pc : s'.pc = update s.pc t .ended
  dead : ∀ u, s.dead u = true → s'.dead u = true
  marked : ∀ u, u ∈ s.threads (s.process u) → s'.dead u = true ∨ u ∈ s'.threads (s.process u)

section

variable (hi : s.TreeInv)
include hi

theorem TreeInv.exited {dead : ℕ → Bool} (hother : ∀ u, u ∉ tids → dead u = s.dead u)
    (htids : ∀ u ∈ tids, dead u = (s.dead u || s.listed u)) {s' : ProcessTree}
    (hs' : s'.process = s.process ∧ s'.pc = s.pc ∧ s'.dead = dead ∧ s'.threads = s.threads) :
    s.Exited ((s'.removeThreads p tids).goto t .ended) t := by
  obtain ⟨hprocess, hpc, hdead, hthreads⟩ := hs'
  refine ⟨hprocess, congrArg (fun pc : ℕ → ExitPc => update pc t .ended) hpc, fun u hu => ?_,
    fun u hu => ?_⟩ <;>
    by_cases hin : u ∈ tids
  · exact hdead ▸ (htids u hin).trans (by rw [hu]; rfl)
  · exact hdead ▸ (hother u hin).trans hu
  · refine Or.inl (hdead ▸ (htids u hin).trans ?_)
    rw [(hi.roster.member _ u hu).1, Bool.or_true]
  · refine Or.inr ?_
    change u ∈ update s'.threads p ((s'.threads p).filter fun t => t ∉ tids) (s.process u)
    rw [update_apply, hthreads]
    split_ifs with hp
    · exact List.mem_filter.mpr ⟨hp ▸ hu, decide_eq_true hin⟩
    · exact hu

theorem TreeInv.exit_leave (ht : s.pc t = .exiting code false) (signals : Bool)
    (hp : s.process t ≠ initPid) (hlength : (s.threads (s.process t)).length ≠ 1)
    (hrel : ∀ tid ∈ s.exitingTids t false, s.Releasable tid) :
    ∃ s', s.run (.doExit t signals) = .ok s' ∧ s'.TreeInv ∧ s.Exited s' t := by
  obtain ⟨dead, hrelease, hdead, hmarked⟩ := release_all hrel
  have hend : ({ s with dead := dead } : ProcessTree).endProcess (s.process t) code false signals =
      .ok _ := if_neg (not_or_intro Bool.false_ne_true hlength)
  exact ⟨_, run_doExit ht hp hrelease hend,
    hi.leave ht hlength dead fun u hu => hdead u (List.mem_singleton.not.mpr hu),
    hi.exited hdead hmarked ⟨rfl, rfl, rfl, rfl⟩⟩

theorem TreeInv.exit_late (ht : s.pc t = .exiting code false) (signals : Bool)
    (hp : s.process t ≠ initPid) (hmm : s.mm (s.process t) = false)
    (hpointers : s.listed t = true → s.clearCtid t = none ∧ s.robustList t = none) :
    ∃ s', s.run (.doExit t signals) = .ok s' ∧ s'.TreeInv ∧ s.Exited s' t := by
  have hempty : s.threads (s.process t) = [] := List.eq_nil_iff_forall_not_mem.mpr fun u hu => by
    rw [(hi.roster.member _ u hu).2.2.1] at hmm
    cases hmm
  have hlength : (s.threads (s.process t)).length ≠ 1 := by rw [hempty]; nofun
  have hrel : ∀ tid ∈ s.exitingTids t false, s.Releasable tid := fun tid htid hlisted => by
    rw [List.mem_singleton.mp htid] at hlisted ⊢
    obtain ⟨hclear, hrobust⟩ := hpointers hlisted
    rw [hclear, hrobust]
    exact ⟨nofun, nofun⟩
  exact hi.exit_leave ht signals hp hlength hrel

theorem TreeInv.exit_last (ht : s.pc t = .exiting code group) (signals : Bool)
    (hp : s.process t ≠ initPid) (hmm : s.mm (s.process t) = true)
    (hlast : group = true ∨ (s.threads (s.process t)).length = 1)
    (hreap : group = true → ∀ u object, s.process u = s.process t → s.pc u ≠ .reaping object)
    (hrel : ∀ tid ∈ s.exitingTids t group, s.Releasable tid) :
    ∃ s', s.run (.doExit t signals) = .ok s' ∧ s'.TreeInv ∧ s.Exited s' t ∧
      s'.mm (s.process t) = false ∧ ∃ q, s.parent (s.process t) = some q ∧
        { pid := s.process t, code := code } ∈ s'.waitProcs q := by
  obtain ⟨dead, hrelease, hdead, hmarked⟩ := release_all hrel
  obtain ⟨hlisted, hprocess, -⟩ := hi.roster.leader _ hmm
  have hf := hi.family
  have hfamily : ({ s with dead := dead } : ProcessTree).Family :=
    { hf with }
  obtain ⟨q, hq, hteardown⟩ := teardown_eq hfamily hi.roster.raise hp hmm hlisted hprocess code
    signals
  have hjoined : ∀ u, (s.pc u).active = true → s.process u = s.process t →
      u ∈ s.threads (s.process t) := fun u hu hut => hut ▸ hi.roster.joined u hu (hut ▸ hmm)
  have hmem : t ∈ s.threads (s.process t) := hjoined t (by rw [ht]; rfl) rfl
  have hsingle : group = false → s.threads (s.process t) = [t] := fun hgroup => by
    obtain ⟨x, hx⟩ := List.length_eq_one_iff.mp (hlast.resolve_left (by rw [hgroup]; nofun))
    rw [hx] at hmem ⊢
    rw [List.mem_singleton.mp hmem]
  have htids : ∀ u, u ∈ s.exitingTids t group ↔ u ∈ s.threads (s.process t) := fun u => by
    cases group with
    | true => exact Iff.rfl
    | false =>
      rw [hsingle rfl]
      exact Iff.rfl
  -- the last thread is about to exit, so that no thread is about to remove a child
  have hnone : ∀ u object, s.process u = s.process t → s.pc u ≠ .reaping object := by
    cases group with
    | true => exact hreap rfl
    | false =>
      intro u object hut hu
      have hmemu := hjoined u (by rw [hu]; rfl) hut
      rw [hsingle rfl, List.mem_singleton] at hmemu
      rw [hmemu, ht] at hu
      cases hu
  have hend : ({ s with dead := dead } : ProcessTree).endProcess (s.process t) code group signals =
      .ok _ := (if_pos hlast).trans hteardown
  refine ⟨_, run_doExit ht hp hrelease hend, hi.tear ht hp hmm hq htids hnone dead hdead,
    hi.exited hdead hmarked ⟨rfl, rfl, rfl, rfl⟩, update_self .., q, hq, ?_⟩
  simp [ProcessTree.goto, removeThreads, recordExit, ProcessTree.push]

theorem TreeInv.doExit (ht : s.pc t = .exiting code group) (signals : Bool)
    (hc : s.Orderly (.doExit t signals)) :
    ∃ s', s.run (.doExit t signals) = .ok s' ∧ s'.TreeInv ∧ s.Exited s' t := by
  obtain ⟨hp, hc⟩ := hc
  have hc := hc code group ht
  cases hmm : s.mm (s.process t) with
  | false =>
    rw [hmm, if_neg Bool.false_ne_true] at hc
    obtain ⟨rfl, hpointers⟩ := hc
    exact hi.exit_late ht signals hp hmm hpointers
  | true =>
    rw [hmm, if_pos rfl] at hc
    obtain ⟨hclear, hreap⟩ := hc
    have htids : ∀ tid ∈ s.exitingTids t group, tid ∈ s.threads (s.process t) := fun tid htid => by
      cases group with
      | true => exact htid
      | false => exact List.mem_singleton.mp htid ▸ hi.roster.joined t (by rw [ht]; rfl) hmm
    have hrel : ∀ tid ∈ s.exitingTids t group, s.Releasable tid := fun tid htid _ => by
      rw [(hi.roster.member _ tid (htids tid htid)).2.1]
      exact ⟨fun addr haddr => ⟨hclear tid htid addr haddr, hmm⟩, fun _ _ => hmm⟩
    by_cases hlast : group = true ∨ (s.threads (s.process t)).length = 1
    · obtain ⟨s', hrun, hi', hexited, -⟩ := hi.exit_last ht signals hp hmm hlast hreap hrel
      exact ⟨s', hrun, hi', hexited⟩
    · obtain ⟨hgroup, hlength⟩ := not_or.mp hlast
      obtain rfl : group = false := by simpa using hgroup
      exact hi.exit_leave ht signals hp hlength hrel

theorem TreeInv.run (op : TreeOp) (he : s.Enabled op) (hc : s.Orderly op) :
    ∃ s', s.run op = .ok s' ∧ s'.TreeInv := by
  cases op with
  | clone t tid clearCtid => exact hi.clone he.2 hc clearCtid
  | fork t pid clearCtid => exact hi.fork he.2 hc clearCtid
  | setTidAddress t addr => exact ⟨_, rfl, hi.pointers _ _⟩
  | setRobustList t addr => exact ⟨_, rfl, hi.pointers _ _⟩
  | exit t code group =>
    exact ⟨_, rfl, hi.goto he.1 (Or.inl rfl) nofun nofun fun _ _ h => by cases h; exact he.2⟩
  | doExit t signals =>
    obtain ⟨code, group, ht⟩ := he
    obtain ⟨s', hrun, hs', -⟩ := hi.doExit ht signals hc
    exact ⟨s', hrun, hs'⟩
  | wait t object => exact ⟨_, rfl, hi.take he.1 he.2⟩
  | reap t =>
    obtain ⟨object, ht⟩ := he
    obtain ⟨s', hrun, hs'⟩ := hi.reap ht
    exact ⟨s', by simp only [ProcessTree.run, ht, hrun], hs'⟩
  | report t code =>
    refine ⟨_, rfl, ?_⟩
    unfold ProcessTree.report
    cases s.parent (s.process t) with
    | none => exact hi
    | some q => exact hi.push q (by rw [WaitObject.alive_eq, he.2]; rfl)
  | finish t => exact ⟨_, rfl, hi.goto he.1 (Or.inr he.2) nofun nofun nofun⟩

end

/-! ### The other threads -/

def Marked (s : ProcessTree) : Prop :=
  ∀ t, s.pc t ≠ .unborn → s.dead t = true ∨ t ∈ s.threads (s.process t)

theorem marked_boot : boot.Marked := by
  simp only [Marked, boot]
  grind

/-- What an operation leaves of the threads that do not act. -/
structure Kept (s s' : ProcessTree) (op : TreeOp) : Prop where
  pc : ∀ t, s.pc t ≠ .unborn → op.thread ≠ t → s'.pc t = s.pc t
  dead : ∀ t, s.dead t = true → s'.dead t = true
  marked : s.Marked → s'.Marked

theorem Kept.of_same {s' : ProcessTree} {op : TreeOp} {pc : ExitPc}
    (hpc : s'.pc = update s.pc op.thread pc) (h : s.pc op.thread ≠ .unborn)
    (hs' : s'.dead = s.dead ∧ s'.threads = s.threads ∧ s'.process = s.process) : s.Kept s' op := by
  obtain ⟨hdead, hthreads, hprocess⟩ := hs'
  refine ⟨fun t _ ht => ?_, fun t ht => hdead ▸ ht, fun hm t ht => ?_⟩
  · rw [hpc, update_of_ne (Ne.symm ht)]
  · rw [hdead, hthreads, hprocess]
    refine hm t ?_
    by_cases hop : t = op.thread
    · exact hop ▸ h
    · rwa [hpc, update_of_ne hop] at ht

theorem TreeInv.kept (hi : s.TreeInv) (op : TreeOp) (he : s.Enabled op) (hc : s.Orderly op) :
    ∃ s', s.run op = .ok s' ∧ s'.TreeInv ∧ s.Kept s' op := by
  obtain ⟨s', hrun, hs'⟩ := hi.run op he hc
  refine ⟨s', hrun, hs', ?_⟩
  cases op with
  | clone t tid clearCtid =>
    obtain ⟨_, -, h⟩ := bind_eq_ok.mp hrun
    cases h
    constructor <;> simp only [Marked, TreeOp.thread] <;> grind [Enabled]
  | fork t pid clearCtid =>
    obtain ⟨_, -, h_1⟩ := bind_eq_ok.mp hrun
    obtain ⟨_, -, h_2⟩ := bind_eq_ok.mp h_1
    obtain ⟨_, -, h_3⟩ := bind_eq_ok.mp h_2
    obtain ⟨_, -, h_4⟩ := bind_eq_ok.mp h_3
    cases h_4
    have hhome := hi.roster.home
    obtain ⟨-, hpid⟩ := he
    clear hs' hrun h_1 h_2 h_3
    constructor <;> simp only [Marked, TreeOp.thread] <;> grind
  | setTidAddress t addr =>
    cases hrun
    exact ⟨fun _ _ _ => rfl, fun _ => id, id⟩
  | setRobustList t addr =>
    cases hrun
    exact ⟨fun _ _ _ => rfl, fun _ => id, id⟩
  | exit t code group =>
    cases hrun
    exact .of_same rfl (by simp [he.1, TreeOp.thread]) ⟨rfl, rfl, rfl⟩
  | doExit t signals =>
    obtain ⟨code, group, ht⟩ := he
    obtain ⟨s'', hrun', -, hexit⟩ := hi.doExit ht signals hc
    obtain rfl : s'' = s' := Except.ok.inj (hrun'.symm.trans hrun)
    refine ⟨fun u _ hu => ?_, hexit.dead, fun hm u hu => ?_⟩
    · rw [hexit.pc]
      exact update_of_ne (Ne.symm hu) _ _
    · rw [hexit.process]
      have hborn : s.pc u ≠ .unborn := by
        by_cases hut : u = t
        · rw [hut, ht]
          nofun
        · rwa [hexit.pc, update_of_ne hut] at hu
      rcases hm u hborn with hdead | hmem
      · exact Or.inl (hexit.dead u hdead)
      · exact hexit.marked u hmem
  | wait t object =>
    cases hrun
    unfold ProcessTree.take
    dsimp only
    split
    · exact ⟨fun _ _ _ => rfl, fun _ => id, id⟩
    · exact .of_same rfl (by simp [he.1, TreeOp.thread]) ⟨rfl, rfl, rfl⟩
  | reap t =>
    obtain ⟨object, ht⟩ := he
    simp only [ProcessTree.run, ht] at hrun
    obtain ⟨s1, hremove, h⟩ := bind_eq_ok.mp hrun
    obtain ⟨_, -, h⟩ := bind_eq_ok.mp h
    cases h
    obtain ⟨_, -, h⟩ := bind_eq_ok.mp hremove
    obtain ⟨_, -, h⟩ := bind_eq_ok.mp h
    obtain ⟨_, -, h⟩ := bind_eq_ok.mp h
    obtain ⟨_, -, h⟩ := bind_eq_ok.mp h
    cases h
    exact .of_same rfl (by simp [ht, TreeOp.thread]) ⟨rfl, rfl, rfl⟩
  | report t code =>
    cases hrun
    unfold ProcessTree.report
    split <;> exact ⟨fun _ _ _ => rfl, fun _ => id, id⟩
  | finish t =>
    cases hrun
    exact .of_same rfl (by simp [he.1, TreeOp.thread]) ⟨rfl, rfl, rfl⟩

/-! ### Runs -/

/-- A process without threads has been torn down once, and no other process has. Every teardown
queues one status, which is taken at most once and is otherwise in the wait list of the parent only.
-/
structure ExitOnce (s : ProcessTree) : Prop where
  teardown : ∀ p, s.pc p ≠ .unborn → s.process p = p →
    s.teardowns p = if s.threads p = [] then 1 else 0
  queued : ∀ p, s.queued p = s.teardowns p
  consumed : ∀ p, s.consumed p ≤ 1
  waitProcs : ∀ q p, (s.waitProcs q).countP (fun object => object.exitOf p) =
    if s.queued p = 1 ∧ s.consumed p = 0 ∧ s.parent p = some q then 1 else 0

theorem TreeInv.exitOnce (hi : s.TreeInv) : s.ExitOnce where
  teardown p hp hself := by
    have hthreads : s.threads p = [] ↔ ¬ s.mm p = true := by
      refine ⟨fun h hmm => hi.roster.peopled p hmm h, fun hmm => ?_⟩
      exact List.eq_nil_iff_forall_not_mem.mpr fun t ht => hmm (hi.roster.member p t ht).2.2.1
    rw [hi.statuses.torn p hp hself]
    simp only [hthreads, ite_not]
  queued p := (hi.statuses.once p).1
  consumed p := by
    obtain ⟨hqueued, hteardowns, hconsumed⟩ := hi.statuses.once p
    omega
  waitProcs := hi.statuses.count

end ProcessTree

open ProcessTree

/-- While all steps meet the condition, exits happen once and no step panics. -/
theorem exitOnce_of_reachable {s : ProcessTree} (hs : (processTree Orderly).Reachable s) :
    s.ExitOnce ∧ ∀ op, s.Enabled op → s.Orderly op → ∃ s', s.run op = .ok s' := by
  have h := System.Reachable.safe (M := processTree Orderly) (P := TreeInv)
    (fun _ h => h ▸ treeInv_boot) (fun _ op hi h => hi.run op h.1 h.2) hs
  exact ⟨h.1.exitOnce, fun op he hc => h.2 op ⟨he, hc⟩⟩

/-- `exit_group` while the second thread is about to exit, which then gets the lock after init has
waited. -/
theorem exitOnce_group : ∃ s : ProcessTree, s.teardowns 2 = 1 ∧ s.consumed 2 = 1 ∧
    s.pc 3 = .ended ∧ s.ExitOnce := by
  have h0 : (processTree Orderly).Reachable boot := .of_init rfl
  have h4 := h0.after [.fork 1 2 none, .clone 2 3 none, .exit 2 (.exited 0) true,
    .exit 3 (.exited 1) false]
    ⟨⟨⟨rfl, rfl⟩, rfl⟩, ⟨⟨rfl, rfl⟩, rfl⟩, ⟨⟨rfl, rfl⟩, trivial⟩, ⟨⟨rfl, rfl⟩, trivial⟩, trivial⟩
  have h5 := h4.next (.doExit 2 true) ⟨⟨_, _, rfl⟩, nofun, fun code group h => by
    cases h
    refine ⟨fun tid htid addr haddr => ?_, fun _ u object _ hu => ?_⟩
    · rcases List.mem_cons.mp htid with rfl | htid
      · cases haddr
      · cases List.mem_singleton.mp htid
        cases haddr
    · match u, hu with
      | 0, hu => cases hu
      | 1, hu => cases hu
      | 2, hu => cases hu
      | 3, hu => cases hu
      | _ + 4, hu => cases hu⟩
  have h7 := h5.after [.wait 1 { pid := 2, code := .exited 0 }, .reap 1]
    ⟨⟨⟨rfl, List.mem_singleton.mpr rfl⟩, trivial⟩, ⟨⟨_, rfl⟩, trivial⟩, trivial⟩
  have h8 := h7.next (.doExit 3 true) ⟨⟨_, _, rfl⟩, nofun, fun code group h => by
    cases h
    exact ⟨rfl, nofun⟩⟩
  exact ⟨_, rfl, rfl, rfl, (exitOnce_of_reachable h8).1⟩

/-- The second `exit_group` of a process finds no `MMList`, or no session after init has waited. A
thread about to remove a child does not find it when its process has ended. -/
theorem exitOnce_panics :
    (∃ s : ProcessTree, (processTree fun _ _ => True).Reachable s ∧ s.Enabled (.doExit 3 true) ∧
      s.run (.doExit 3 true) = .error .missingMm) ∧
    (∃ s : ProcessTree, (processTree fun _ _ => True).Reachable s ∧ s.Enabled (.doExit 3 true) ∧
      s.run (.doExit 3 true) = .error .missingSession) ∧
    ∃ s : ProcessTree, (processTree fun _ _ => True).Reachable s ∧ s.Enabled (.reap 3) ∧
      s.run (.reap 3) = .error .childMissing := by
  have h0 : (processTree fun _ _ => True).Reachable boot := .of_init rfl
  have h2 := h0.after [.fork 1 2 none, .clone 2 3 none]
    ⟨⟨⟨rfl, rfl⟩, trivial⟩, ⟨⟨rfl, rfl⟩, trivial⟩, trivial⟩
  have h5 := h2.after [.exit 2 (.exited 0) true, .exit 3 (.exited 1) true, .doExit 2 true]
    ⟨⟨⟨rfl, rfl⟩, trivial⟩, ⟨⟨rfl, rfl⟩, trivial⟩, ⟨⟨_, _, rfl⟩, trivial⟩, trivial⟩
  refine ⟨⟨_, h5, ⟨_, _, rfl⟩, rfl⟩, ?_, ?_⟩
  · have h7 := h5.after [.wait 1 { pid := 2, code := .exited 0 }, .reap 1]
      ⟨⟨⟨rfl, List.mem_singleton.mpr rfl⟩, trivial⟩, ⟨⟨_, rfl⟩, trivial⟩, trivial⟩
    exact ⟨_, h7, ⟨_, _, rfl⟩, rfl⟩
  · have h8 := h2.after [.fork 2 4 none, .exit 4 (.exited 0) true, .doExit 4 true,
      .wait 3 { pid := 4, code := .exited 0 }, .exit 2 (.exited 0) true, .doExit 2 true]
      ⟨⟨⟨rfl, rfl⟩, trivial⟩, ⟨⟨rfl, rfl⟩, trivial⟩, ⟨⟨_, _, rfl⟩, trivial⟩,
       ⟨⟨rfl, List.mem_singleton.mpr rfl⟩, trivial⟩, ⟨⟨rfl, rfl⟩, trivial⟩, ⟨⟨_, _, rfl⟩, trivial⟩,
       trivial⟩
    exact ⟨_, h8, ⟨_, rfl⟩, rfl⟩

end Dlutos.Processes
