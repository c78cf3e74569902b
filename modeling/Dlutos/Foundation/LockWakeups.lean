import Dlutos.Foundation.ParkingLock

/-!
# Wakeups of locks with queues of parked tasks

In runs of a `ParkingLock` in which no compare-exchange fails without a reason and no task gives up:
as long as the word is free and some task waits, another task is on its way to take the lock or to
notify.
-/

set_option linter.unusedSectionVars false

namespace ParkingLock

open RefCount Transition ExceptLoop Function

variable {κ ω ε τ : Type} [DecidableEq κ] [DecidableEq ω] [DecidableEq τ] {L : Lock κ ω ε}
  {s s' : State κ ω τ} {t : τ} {op : Op κ τ} {Valid : ω → Prop} {held : ω → κ → ℕ}

/-! ### The queues -/

/-- The queue that the handle of a task was put on. -/
def Pc.slot : Pc κ ω → Option κ
  | .slow k _ | .await k | .parked k | .leave k => some k
  | _ => none

/-- The queues hold the handles that were not notified yet, each once. -/
structure Queues (s : State κ ω τ) : Prop where
  mem : ∀ t k, t ∈ s.queue k ↔ (s.pc t).slot = some k ∧ s.woken t = false
  nodup : ∀ k, (s.queue k).Nodup

variable {p : Pc κ ω}

theorem Local.slot {p' : Pc κ ω} (h : Local L s t p p') (k : κ) :
    (p'.slot = some k ∧ s.woken t = false) ↔ (p.slot = some k ∧ s.woken t = false) := by
  cases h with
  | @yield k q waits | @quickFailed k waits a =>
    unfold Lock.refused
    split
    · exact Iff.rfl
    · exact Iff.rfl
  | ready hw | resume hw => simp [hw]
  | @skip k all left =>
    cases left with
    | nil => exact Iff.rfl
    | cons => exact Iff.rfl
  | _ => exact Iff.rfl

theorem Queues.move (h : Queues s) (hqueue : s'.queue = s.queue)
    (hwoken : s'.woken = s.woken) (hpc : s'.pc = update s.pc t p)
    (hslot : ∀ k, (p.slot = some k ∧ s.woken t = false) ↔
      ((s.pc t).slot = some k ∧ s.woken t = false)) : Queues s' := by
  refine ⟨fun u k => ?_, fun k => hqueue ▸ h.nodup k⟩
  rw [hqueue, hwoken, hpc, h.mem]
  by_cases hut : u = t
  · rw [hut, update_self, hslot]
  · rw [update_of_ne hut]

variable {k : κ}

theorem Queues.erase (h : Queues s) (hslot : (s.pc t).slot = some k) (hp : p.slot = none) :
    Queues ({ s with queue := update s.queue k ((s.queue k).erase t) }.goto t p) := by
  refine ⟨fun u k' => ?_, fun k' => ?_⟩
  · change u ∈ update s.queue k ((s.queue k).erase t) k' ↔
      (update s.pc t p u).slot = some k' ∧ s.woken u = false
    by_cases hut : u = t
    · subst hut
      rw [update_self, hp]
      refine iff_of_false (fun hmem => ?_) fun hz => nomatch hz.1
      by_cases hk : k' = k
      · rw [hk, update_self] at hmem
        exact (h.nodup k).not_mem_erase hmem
      · rw [update_of_ne hk, h.mem, hslot] at hmem
        exact hk (Option.some.inj hmem.1).symm
    · rw [update_of_ne hut, ← h.mem]
      by_cases hk : k' = k
      · rw [hk, update_self, List.mem_erase_of_ne hut]
      · rw [update_of_ne hk]
  · change (update s.queue k ((s.queue k).erase t) k').Nodup
    by_cases hk : k' = k
    · rw [hk, update_self]
      exact (h.nodup k).erase t
    · rw [update_of_ne hk]
      exact h.nodup k'

theorem Queues.enqueue (h : Queues s) (hpc : s.pc t = .enqueue k) (a : Attempt ω) :
    Queues ({ s with
      queue := update s.queue k (s.queue k ++ [t])
      woken := update s.woken t false }.goto t (.slow k a)) := by
  have hnot : ∀ k', t ∉ s.queue k' := by
    intro k' hmem
    rw [h.mem, hpc] at hmem
    cases hmem.1
  refine ⟨fun u k' => ?_, fun k' => ?_⟩
  · change u ∈ update s.queue k (s.queue k ++ [t]) k' ↔
      (update s.pc t (.slow k a) u).slot = some k' ∧
        update s.woken t false u = false
    by_cases hut : u = t
    · subst hut
      rw [update_self, update_self]
      by_cases hk : k' = k
      · rw [hk, update_self]
        exact iff_of_true (by simp) ⟨rfl, rfl⟩
      · rw [update_of_ne hk]
        exact iff_of_false (hnot k') fun hz => hk (Option.some.inj hz.1).symm
    · rw [update_of_ne hut, update_of_ne hut, ← h.mem]
      by_cases hk : k' = k
      · rw [hk, update_self]
        simp [hut]
      · rw [update_of_ne hk]
  · change (update s.queue k (s.queue k ++ [t]) k').Nodup
    by_cases hk : k' = k
    · rw [hk, update_self]
      exact List.nodup_append.mpr ⟨h.nodup k, List.nodup_singleton t, by
        rintro a ha b hb rfl
        exact hnot k (List.mem_singleton.mp hb ▸ ha)⟩
    · rw [update_of_ne hk]
      exact h.nodup k'

theorem Queues.wake (h : Queues s) (k : κ) (all : Bool) : Queues (Lock.wake s k all) := by
  unfold Lock.wake
  cases all with
  | true =>
    rw [if_pos rfl]
    refine ⟨fun u k' => ?_, fun k' => ?_⟩
    · dsimp only
      rw [Bool.or_eq_false_iff, decide_eq_false_iff_not, ← and_assoc, ← h.mem]
      by_cases hk : k' = k
      · rw [hk, update_self]
        simp
      · rw [update_of_ne hk]
        refine ⟨fun hu => ⟨hu, fun hu' => ?_⟩, fun hu => hu.1⟩
        rw [h.mem] at hu hu'
        exact hk (Option.some.inj (hu.1.symm.trans hu'.1))
    · dsimp only
      by_cases hk : k' = k
      · rw [hk, update_self]
        exact List.nodup_nil
      · rw [update_of_ne hk]
        exact h.nodup k'
  | false =>
    rw [if_neg Bool.false_ne_true]
    refine ⟨fun u k' => ?_, fun k' => ?_⟩
    · dsimp only
      rw [Bool.or_eq_false_iff, decide_eq_false_iff_not, ← and_assoc, ← h.mem]
      by_cases hk : k' = k
      · rw [hk, update_self]
        have hnodup := h.nodup k
        cases hq : s.queue k with
        | nil => simp
        | cons x xs =>
          rw [hq] at hnodup
          obtain ⟨hx, -⟩ := List.nodup_cons.mp hnodup
          simp only [List.tail_cons, List.head?_cons, Option.some.injEq, List.mem_cons]
          refine ⟨fun hu => ⟨Or.inr hu, fun hxu => hx (hxu ▸ hu)⟩, fun hu => ?_⟩
          exact hu.1.resolve_left fun hux => hu.2 hux.symm
      · rw [update_of_ne hk]
        refine ⟨fun hu => ⟨hu, fun hu' => ?_⟩, fun hu => hu.1⟩
        have hu' := List.mem_of_mem_head? hu'
        rw [h.mem] at hu hu'
        exact hk (Option.some.inj (hu.1.symm.trans hu'.1))
    · dsimp only
      by_cases hk : k' = k
      · rw [hk, update_self]
        exact (h.nodup k).tail
      · rw [update_of_ne hk]
        exact h.nodup k'

theorem start_slot (k : κ) (waits : Bool) : (L.start k waits).slot = none := by
  unfold Lock.start
  split
  · rfl
  · rfl

theorem notify_slot (left : List (κ × Bool)) : (Pc.notify left : Pc κ ω).slot = none := by
  cases left with
  | nil => rfl
  | cons => rfl

theorem Queues.moves (h : Queues s) (hmoves : Moves L s op s') : Queues s' := by
  cases hmoves with
  | @call t k waits hpc =>
    refine h.move (t := t) rfl rfl rfl fun k' => ?_
    rw [start_slot, hpc]
    exact Iff.rfl
  | goto hlocal => exact h.move rfl rfl rfl fun k => hlocal.slot k
  | @take t k n p htakes =>
    refine h.move (t := t) (p := p) rfl rfl rfl fun k' => ?_
    generalize s.pc t = q at htakes
    cases htakes with
    | quick => exact Iff.rfl
    | slow => exact Iff.rfl
  | @enqueue t k hpc => exact h.enqueue hpc _
  | @leave t k hpc => exact h.erase (by rw [hpc]; rfl) rfl
  | @release t k w notifies hpc hrel =>
    refine h.move (t := t) rfl rfl rfl fun k' => ?_
    rw [hpc]
    split
    · rw [notify_slot]
      exact Iff.rfl
    · exact Iff.rfl
  | @wake t k all left hpc hq =>
    have hpc' : (Lock.wake s k all).pc = s.pc := by
      unfold Lock.wake
      split
      · rfl
      · rfl
    refine (h.wake k all).move (t := t) (p := .idle) rfl rfl rfl fun k' => ?_
    rw [hpc', hpc]
    exact Iff.rfl
  | @spurious t k e n hpc =>
    refine h.move (t := t) (p := .await k) rfl rfl rfl fun k' => ?_
    rw [hpc]
    exact Iff.rfl
  | @cancel t k hpc => exact h.erase (by rw [hpc]; rfl) rfl

/-! ### Wakeups -/

/-- An attempt on a free word takes the lock unless the word changes, and a release that frees the
word notifies. -/
structure Waking (L : Lock κ ω ε) : Prop where
  attempt : ∀ k, L.attempt k = .load ∨ ∃ n, L.attempt k = .cas L.free n
  follow : ∀ k, ∃ n, L.follow k L.free = some (.cas L.free n)
  release : ∀ k w notifies, L.release k w = .ok (L.free, notifies) → notifies = true
  notify : ∀ k, k ∈ L.notify.map Prod.fst

/-- The task waits with a request of kind `k` and was not notified. -/
def Pc.Waits (free : ω) (k : κ) (woken : Bool) : Pc κ ω → Prop
  | .slow k' (.cas e _) => woken = false ∧ k' = k ∧ e ≠ free
  | .await k' | .parked k' => woken = false ∧ k' = k
  | _ => False

/-- The task is going to take the lock if it stays free, or to notify the queue of kind `k`. -/
def Pc.Acts (free : ω) (k : κ) (woken : Bool) : Pc κ ω → Prop
  | .enqueue _ | .slow _ .load => True
  | .slow _ (.cas e _) => woken = true ∨ e = free
  | .await _ | .parked _ => woken = true
  | .notifying left => k ∈ left.map Prod.fst
  | _ => False

def NoLost (L : Lock κ ω ε) (s : State κ ω τ) : Prop :=
  s.word = L.free → ∀ k x, (s.pc x).Waits L.free k (s.woken x) →
    ∃ r, (s.pc r).Acts L.free k (s.woken r)

theorem NoLost.step (h : NoLost L s) (hword : s'.word = s.word)
    (hother : ∀ u, u ≠ t → s'.pc u = s.pc u ∧ s'.woken u = s.woken u)
    (hwaits : s.word = L.free → ∀ k, (s'.pc t).Waits L.free k (s'.woken t) →
      (s.pc t).Waits L.free k (s.woken t))
    (hacts : s.word = L.free → ∀ k x, (s.pc x).Waits L.free k (s.woken x) →
      (s.pc t).Acts L.free k (s.woken t) → (s'.pc t).Acts L.free k (s'.woken t)) :
    NoLost L s' := by
  intro hfree k x hx
  rw [hword] at hfree
  have hx' : (s.pc x).Waits L.free k (s.woken x) := by
    by_cases hxt : x = t
    · rw [hxt] at hx ⊢
      exact hwaits hfree k hx
    · rw [(hother x hxt).1, (hother x hxt).2] at hx
      exact hx
  obtain ⟨r, hr⟩ := h hfree k x hx'
  refine ⟨r, ?_⟩
  by_cases hrt : r = t
  · rw [hrt] at hr ⊢
    exact hacts hfree k x hx' hr
  · rw [(hother r hrt).1, (hother r hrt).2]
    exact hr

theorem NoLost.goto (h : NoLost L s) {q : Pc κ ω} (hpc : s.pc t = q)
    (hwaits : s.word = L.free → ∀ k, p.Waits L.free k (s.woken t) →
      q.Waits L.free k (s.woken t))
    (hacts : s.word = L.free → ∀ k x, (s.pc x).Waits L.free k (s.woken x) →
      q.Acts L.free k (s.woken t) → p.Acts L.free k (s.woken t)) :
    NoLost L (s.goto t p) := by
  subst hpc
  refine h.step (t := t) rfl (fun u hu => ⟨update_of_ne hu _ _, rfl⟩) ?_ ?_
  · rw [State.goto_pc, update_self]
    exact hwaits
  · rw [State.goto_pc, update_self]
    exact hacts

variable {free : ω}

theorem Pc.Waits.slot {woken : Bool} (h : p.Waits free k woken) :
    p.slot = some k ∧ woken = false := by
  cases p with
  | slow k' a =>
    cases a with
    | load => exact h.elim
    | cas e n => exact ⟨congrArg some h.2.1, h.1⟩
  | await k' => exact ⟨congrArg some h.2, h.1⟩
  | parked k' => exact ⟨congrArg some h.2, h.1⟩
  | _ => exact h.elim

theorem refused_waits {k' : κ} {waits woken : Bool}
    (h : (Lock.refused k waits : Pc κ ω).Waits free k' woken) : False := by
  unfold Lock.refused at h
  split at h
  · exact h
  · exact h

theorem Waking.access (waking : Waking L) {a : Attempt ω}
    (hacc : L.access k L.free a = .failed) : ∃ e n, a = .cas e n ∧ e ≠ L.free := by
  cases a with
  | load =>
    obtain ⟨n, hn⟩ := waking.follow k
    unfold Lock.access at hacc
    rw [hn] at hacc
    cases hacc
  | cas e n =>
    refine ⟨e, n, rfl, ?_⟩
    rintro rfl
    simp [Lock.access] at hacc

theorem Local.noLost (waking : Waking L) (hqueues : Queues s) (h : NoLost L s)
    (hlocal : Local L s t (s.pc t) p) : NoLost L (s.goto t p) := by
  generalize hpc : s.pc t = q at hlocal
  cases hlocal with
  | pass => exact h.goto hpc (fun _ _ hw => hw) fun _ _ _ _ ha => ha
  | yield => exact h.goto hpc (fun _ _ hw => refused_waits hw) fun _ _ _ _ ha => ha.elim
  | quickFailed => exact h.goto hpc (fun _ _ hw => refused_waits hw) fun _ _ _ _ ha => ha.elim
  | quickNext => exact h.goto hpc (fun _ _ hw => hw) fun _ _ _ _ ha => ha
  | slowFailed hacc =>
    -- on a free word only a compare-exchange that expects another word fails
    refine h.goto hpc (fun hfree k hw => ?_) fun hfree k x _ ha => ?_
    · rw [hfree] at hacc
      obtain ⟨e, n, rfl, he⟩ := waking.access hacc
      exact ⟨hw.1, hw.2, he⟩
    · rw [hfree] at hacc
      obtain ⟨e, n, rfl, he⟩ := waking.access hacc
      exact ha.resolve_right he
  | @slowNext k a hf =>
    -- a load of the free word is followed by a compare-exchange that expects it
    refine h.goto hpc (fun hfree k' hw => ?_) fun hfree k' x _ _ => ?_
    · rw [hfree] at hf
      obtain ⟨n, hn⟩ := waking.follow k
      obtain rfl := Option.some.inj (hn.symm.trans hf)
      exact hw.2.2 rfl
    · rw [hfree] at hf
      obtain ⟨n, hn⟩ := waking.follow k
      obtain rfl := Option.some.inj (hn.symm.trans hf)
      exact Or.inr rfl
  | ready => exact h.goto hpc (fun _ _ hw => hw.elim) fun _ _ _ _ _ => trivial
  | pending => exact h.goto hpc (fun _ _ hw => hw) fun _ _ _ _ ha => ha
  | resume => exact h.goto hpc (fun _ _ hw => hw.elim) fun _ _ _ _ _ => trivial
  | @skip k all left hq =>
    refine h.goto hpc (fun _ k' hw => ?_) fun _ k' x hx ha => ?_
    · cases left with
      | nil => exact hw.elim
      | cons => exact hw.elim
    · -- nobody waits on an empty queue
      have hmem := (hqueues.mem x k').mpr hx.slot
      have hne : k' ≠ k := by
        rintro rfl
        rw [hq] at hmem
        cases hmem
      have hleft : k' ∈ left.map Prod.fst := (List.mem_cons.mp ha).resolve_left hne
      cases left with
      | nil => cases hleft
      | cons => exact hleft
  | finish => exact h.goto hpc (fun _ _ hw => hw) fun _ _ _ _ ha => nomatch ha

theorem acts_of_slot (hslot : p.slot = some k)
    (hguard : p.guard = none) (k' : κ) : p.Acts free k' true := by
  cases p with
  | slow k'' a =>
    cases a with
    | load => trivial
    | cas e n => exact Or.inl rfl
  | await k'' => rfl
  | parked k'' => rfl
  | leave k'' => cases hguard
  | _ => cases hslot

theorem Safe.word_ne (laws : Lawful L Valid held) (h : Safe L Valid held s)
    (hguard : (s.pc t).guard = some k) : s.word ≠ L.free := by
  intro hfree
  have hpos := h.exact.pos hguard
  rw [hfree, laws.held_free] at hpos
  exact absurd hpos (Nat.lt_irrefl 0)

theorem wake_pc (s : State κ ω τ) (k : κ) (all : Bool) :
    (Lock.wake s k all).pc = s.pc ∧ (Lock.wake s k all).word = s.word := by
  unfold Lock.wake
  split
  · exact ⟨rfl, rfl⟩
  · exact ⟨rfl, rfl⟩

theorem wake_woken {all : Bool} {u : τ} (hu : (s.queue k).head? = some u) :
    (Lock.wake s k all).woken u = true := by
  unfold Lock.wake
  split
  · simp [List.mem_of_mem_head? hu]
  · simp [hu]

theorem NoLost.moves (waking : Waking L) (laws : Lawful L Valid held) (hsafe : Safe L Valid held s)
    (hqueues : Queues s) (h : NoLost L s) (hspurious : ∀ t, op ≠ .spurious t)
    (hcancel : ∀ t, op ≠ .cancel t) (hmoves : Moves L s op s') : NoLost L s' := by
  cases hmoves with
  | @call t k waits hpc =>
    refine h.goto hpc (fun _ k' hw => ?_) fun _ _ _ _ ha => ha.elim
    have hslot := hw.slot.1
    rw [start_slot] at hslot
    cases hslot
  | goto hlocal => exact hlocal.noLost waking hqueues h
  | @take t k n p htakes =>
    -- the new word is not free
    intro hfree
    obtain ⟨hacc, -⟩ := htakes.access
    obtain ⟨-, hheld⟩ := laws.cas k s.word n (hsafe.accesses t k _ hacc) hsafe.valid
    have hzero := laws.held_free k
    rw [← show n = L.free from hfree, hheld, update_self] at hzero
    exact absurd hzero (Nat.succ_ne_zero _)
  | @enqueue t k hpc =>
    refine h.step (t := t) rfl (fun u hu => ?_) (fun _ k' hw => ?_) fun _ k' _ _ _ => ?_
    · exact ⟨update_of_ne hu _ _, update_of_ne hu _ _⟩
    · rw [State.goto_pc, update_self] at hw
      rcases waking.attempt k with hload | ⟨n, hcas⟩
      · rw [hload] at hw
        exact hw.elim
      · rw [hcas] at hw
        exact absurd rfl hw.2.2
    · rw [State.goto_pc, update_self]
      rcases waking.attempt k with hload | ⟨n, hcas⟩
      · rw [hload]
        trivial
      · rw [hcas]
        exact Or.inr rfl
  | @leave t k hpc =>
    refine h.step (t := t) rfl (fun u hu => ⟨update_of_ne hu _ _, rfl⟩)
      (fun _ k' hw => ?_) fun _ k' _ _ ha => ?_
    · rw [State.goto_pc, update_self] at hw
      exact hw.elim
    · rw [hpc] at ha
      exact ha.elim
  | @release t k w notifies hpc hrel =>
    intro hfree k' x hx
    obtain rfl : w = L.free := hfree
    obtain rfl := waking.release k s.word notifies hrel
    refine ⟨t, ?_⟩
    rw [State.goto_pc, update_self, if_pos rfl]
    have hmem := waking.notify k'
    cases hnotify : L.notify with
    | nil =>
      rw [hnotify] at hmem
      cases hmem
    | cons => rwa [hnotify] at hmem
  | @wake t k all left hpc hq =>
    intro hfree k' x hx
    obtain ⟨u, us, hus⟩ := List.exists_cons_of_ne_nil hq
    have hu : (s.queue k).head? = some u := by rw [hus]; rfl
    obtain ⟨hslot, -⟩ := (hqueues.mem u k).mp (List.mem_of_mem_head? hu)
    have hne : u ≠ t := by
      rintro rfl
      rw [hpc] at hslot
      cases hslot
    refine ⟨u, ?_⟩
    rw [State.goto_pc, update_of_ne hne, (wake_pc s k all).1, State.goto_woken,
      wake_woken hu]
    refine acts_of_slot hslot ?_ k'
    cases hguard : (s.pc u).guard with
    | none => rfl
    | some k'' =>
      exact absurd ((wake_pc s k all).2.symm.trans hfree) (hsafe.word_ne laws hguard)
  | @spurious t => exact absurd rfl (hspurious t)
  | @cancel t => exact absurd rfl (hcancel t)

/-- The lock is free, a task is parked and was not notified, and every other task is idle or parked
likewise. -/
def Lost (L : Lock κ ω ε) (s : State κ ω τ) : Prop :=
  s.word = L.free ∧ ∃ x k, s.pc x = .parked k ∧ s.woken x = false ∧
    ∀ y, y ≠ x → s.pc y = .idle ∨ ∃ k', s.pc y = .parked k' ∧ s.woken y = false

theorem Waking.noLost_of_reachable (waking : Waking L) (laws : Lawful L Valid held)
    {Allowed : Op κ τ → Prop}
    (hallowed : ∀ op, Allowed op → (∀ t, op ≠ .spurious t) ∧ ∀ t, op ≠ .cancel t)
    (h : (L.system Allowed).Reachable s) : ¬ Lost L s := by
  have hinv : Safe L Valid held s ∧ Queues s ∧ NoLost L s := by
    refine h.invariant (P := fun s => Safe L Valid held s ∧ Queues s ∧ NoLost L s) ?_ ?_
    · rintro s rfl
      refine ⟨safe_init laws, ⟨fun t k => ?_, fun _ => List.nodup_nil⟩, fun _ k x hx => hx.elim⟩
      exact iff_of_false List.not_mem_nil fun hz => nomatch hz.1
    · rintro s s' ⟨hsafe, hqueues, hlost⟩ ⟨op, ⟨hop, hop'⟩, hrun⟩
      have hmoves := moves_of_run hop hrun
      obtain ⟨hspurious, hcancel⟩ := hallowed op hop'
      exact ⟨hsafe.moves laws hmoves, hqueues.moves hmoves,
        hlost.moves waking laws hsafe hqueues hspurious hcancel hmoves⟩
  rintro ⟨hfree, x, k, hx, hwoken, hothers⟩
  obtain ⟨r, hr⟩ := hinv.2.2 hfree k x (by rw [hx]; exact ⟨hwoken, rfl⟩)
  have hparked : s.pc r = .idle ∨ ∃ k', s.pc r = .parked k' ∧ s.woken r = false := by
    by_cases hrx : r = x
    · exact Or.inr ⟨k, hrx ▸ hx, hrx ▸ hwoken⟩
    · exact hothers r hrx
  rcases hparked with hidle | ⟨k', hpark, hnot⟩
  · rw [hidle] at hr
    exact hr
  · rw [hpark, hnot] at hr
    cases hr

end ParkingLock
