import Dlutos.Buddy.Operations
import Dlutos.Foundation.Transition

/-!
# Runs of the buddy allocator

The users create ranges of frames, allocate blocks, change the reference counts of the blocks they
own and give them back.  `Integrity` is what the free lists, the flags and the counters of the page
array say about the frames that were created and the blocks that are live.
-/

namespace Dlutos

open DyadicTiling Transition

namespace Buddy

structure State where
  array : PageArray
  created : PFN → Prop
  /-- The blocks that were handed out and not given back, with the orders they were requested
  with. -/
  live : List (PFN × ℕ)

inductive Op where
  | createPages (start last : ℕ)
  | allocOrder (order : ℕ)
  /-- A user stores a reference count in the header of a live block. -/
  | setRefcount (p : PFN) (n : ℕ)
  | dealloc (p : PFN)

/-- Ranges are created once and present; blocks are given back by their users, without references.
-/
def Allowed (t : State) : Op → Prop
  | .createPages start last =>
    ∀ x, InRange start last x → ¬ t.created x ∧ (t.array.pages x).flags.present = true
  | .allocOrder _ => True
  | .setRefcount p _ => ∃ o, (p, o) ∈ t.live
  | .dealloc p => (∃ o, (p, o) ∈ t.live) ∧ (t.array.pages p).refcount = 0

def run (t : State) : Op → Except Panic State
  | .createPages start last =>
    match Zone.createPages t.array start last with
    | .error e => .error e
    | .ok s => .ok { t with array := s, created := fun x => t.created x ∨ InRange start last x }
  | .allocOrder order =>
    match BuddyAllocator.allocOrder t.array order with
    | .error e => .error e
    | .ok (none, s) => .ok { t with array := s }
    | .ok (some p, s) => .ok { t with array := s, live := (p, order) :: t.live }
  | .setRefcount p n => .ok { t with array := t.array.setRefcount p n }
  | .dealloc p =>
    match BuddyAllocator.dealloc t.array p with
    | .error e => .error e
    | .ok s => .ok { t with array := s, live := t.live.filter fun b => b.1 ≠ p }

def system : System State Op Panic where
  init t := ∃ present, t = ⟨emptyArray present, fun _ => False, []⟩
  allowed := Allowed
  run := run

/-- Integrity of the zone: aligned free blocks, a partition of the created frames, flags at the
heads, and counters that count. -/
structure Integrity (t : State) (L : ListHead → List PFN) : Prop where
  repr : Represents t.array.links L
  aligned : ∀ o, ∀ p ∈ L (.freeArea o), 2 ^ o ∣ p
  listed_disjoint : ∀ o k, ∀ p ∈ L (.freeArea o), ∀ q ∈ L (.freeArea k), ∀ x,
    InBlock p o x → InBlock q k x → p = q ∧ o = k
  live_disjoint : t.live.Pairwise fun a b => ∀ x, ¬ (InBlock a.1 a.2 x ∧ InBlock b.1 b.2 x)
  listed_live_disjoint : ∀ o, ∀ p ∈ L (.freeArea o), ∀ b ∈ t.live, ∀ x,
    ¬ (InBlock p o x ∧ InBlock b.1 b.2 x)
  cover : ∀ x, t.created x ↔
    (∃ o, ∃ p ∈ L (.freeArea o), InBlock p o x) ∨ ∃ b ∈ t.live, InBlock b.1 b.2 x
  free : ∀ p, (t.array.pages p).flags.free = true ↔ ∃ o, p ∈ L (.freeArea o)
  buddy : ∀ p, (t.array.pages p).flags.buddy = true ↔
    (∃ o, p ∈ L (.freeArea o)) ∨ ∃ o, (p, o) ∈ t.live
  count : ∀ o, t.array.count (.freeArea o) = (L (.freeArea o)).length

def Inv (t : State) : Prop :=
  ∃ z, ZoneInv t.array z t.created ∧ z.held = ∅ ∧ (∀ h, (∀ o, h ≠ .freeArea o) → z.lists h = []) ∧
    (∀ p o, (p, o) ∈ t.live ↔ z.Live p o) ∧ (t.live.map Prod.fst).Nodup

private theorem unlisted_of_live {z : AbsZone} {p : PFN} {o : ℕ}
    (hlists : ∀ h, (∀ o, h ≠ .freeArea o) → z.lists h = []) (hp : z.Live p o) (h : ListHead) :
    p ∉ z.lists h := by
  intro hm
  by_cases harea : ∃ k, h = .freeArea k
  · obtain ⟨k, rfl⟩ := harea
    exact hp.2.2 ⟨k, hm⟩
  · rw [hlists h (not_exists.mp harea)] at hm
    exact List.not_mem_nil hm

theorem inv_init (t : State) (ht : system.init t) : Inv t := by
  obtain ⟨present, rfl⟩ := ht
  refine ⟨_, zoneInv_emptyArray present, rfl, fun _ _ => rfl, fun p o => ?_, List.nodup_nil⟩
  exact iff_of_false List.not_mem_nil fun h => nomatch h.1

theorem inv_step (t : State) (op : Op) (ht : Inv t) (hop : Allowed t op) :
    ∃ t', run t op = .ok t' ∧ Inv t' := by
  obtain ⟨z, hz, hheld, hlists, hlive, hnodup⟩ := ht
  cases op with
  | createPages start last =>
    obtain ⟨s', z', hrun, hz', hheld', hf⟩ := hz.createPages hheld
      (fun x hx => (hop x hx).1) fun x hx => (hop x hx).2
    refine ⟨⟨s', fun x => t.created x ∨ InRange start last x, t.live⟩, by rw [run, hrun], z', hz',
      hheld', fun h hh => ?_, fun p o => ?_, hnodup⟩
    · rw [hf.lists h hh, hlists h hh]
    · rw [hf.live, hlive]
  | allocOrder order =>
    rcases hz.allocOrder hheld order with hnone | ⟨p, s', z', hrun, hz', hheld', ha⟩
    · exact ⟨t, by rw [run, hnone], z, hz, hheld, hlists, hlive, hnodup⟩
    · refine ⟨⟨s', t.created, (p, order) :: t.live⟩, by rw [run, hrun], z', hz', hheld',
        fun h hh => ?_, fun q o => ?_, ?_⟩
      · rw [ha.lists h hh, hlists h hh]
      · rw [List.mem_cons, ha.live, hlive, Prod.mk.injEq, or_comm]
      · refine List.nodup_cons.mpr ⟨fun hp => ?_, hnodup⟩
        obtain ⟨⟨q, o⟩, hq, rfl⟩ := List.mem_map.mp hp
        exact ((hlive q o).mp hq).2.2 ha.listed
  | setRefcount p n =>
    obtain ⟨o, hp⟩ := hop
    refine ⟨_, rfl, z, ?_, hheld, hlists, hlive, hnodup⟩
    exact hz.modify_live ((hlive p o).mp hp) (fun r => { r with refcount := n }) (fun _ => rfl)
      (fun _ => rfl) (fun _ => rfl) fun _ => rfl
  | dealloc p =>
    obtain ⟨⟨o, hp⟩, href⟩ := hop
    have hpl := (hlive p o).mp hp
    obtain ⟨s', z', hrun, hz', hheld', hfreed⟩ :=
      hz.dealloc hheld hpl (unlisted_of_live hlists hpl) href
    refine ⟨⟨s', t.created, t.live.filter fun b => b.1 ≠ p⟩, by rw [run, hrun], z', hz', hheld',
      fun h hh => ?_, fun q k => ?_, ?_⟩
    · rw [hfreed.lists h hh, hlists h hh]
    · rw [hfreed.live, ← hlive, List.mem_filter, decide_eq_true_iff]
    · exact hnodup.sublist (List.filter_sublist.map Prod.fst)

theorem integrity_of_inv {t : State} (ht : Inv t) : ∃ L, Integrity t L := by
  obtain ⟨z, hz, hheld, -, hlive, hnodup⟩ := ht
  have htile := hz.wf.tiling
  have hnot : ∀ p, p ∉ z.held := fun p => by rw [hheld]; exact Set.notMem_empty p
  -- a block is listed or live, never both
  have hsplit : ∀ p o, z.blocks p = some o ↔ p ∈ z.lists (.freeArea o) ∨ (p, o) ∈ t.live := by
    intro p o
    rw [hlive]
    constructor
    · intro hp
      by_cases hl : z.Listed p
      · obtain ⟨k, hk⟩ := hl
        obtain rfl : o = k := Option.some.inj (hp.symm.trans (hz.wf.area k p hk))
        exact Or.inl hk
      · exact Or.inr ⟨hp, hnot p, hl⟩
    · exact fun h => h.elim (hz.wf.area o p) fun h => h.1
  refine ⟨z.lists, hz.repr, ?_, ?_, ?_, ?_, ?_, fun p => (hz.header p).free (hnot p), ?_,
    fun o => hz.count _⟩
  · exact fun o p hp => htile.aligned p o (hz.wf.area o p hp)
  · intro o k p hp q hq x hx hx'
    have hpo := hz.wf.area o p hp
    have hqk := hz.wf.area k q hq
    obtain rfl : p = q := htile.disjoint p o q k x hpo hqk hx hx'
    exact ⟨rfl, Option.some.inj (hpo.symm.trans hqk)⟩
  · have hpair : t.live.Pairwise fun a b => a.1 ≠ b.1 := List.pairwise_map.mp hnodup
    refine hpair.imp_of_mem fun {a b} ha hb hne x hx => hne ?_
    exact htile.disjoint a.1 a.2 b.1 b.2 x ((hlive _ _).mp ha).1 ((hlive _ _).mp hb).1 hx.1 hx.2
  · intro o p hp b hb x hx
    have hbl := (hlive b.1 b.2).mp hb
    have heq := htile.disjoint p o b.1 b.2 x (hz.wf.area o p hp) hbl.1 hx.1 hx.2
    exact hbl.2.2 ⟨o, heq ▸ hp⟩
  · intro x
    rw [htile.cover x]
    constructor
    · rintro ⟨p, o, hp, hx⟩
      exact ((hsplit p o).mp hp).imp (fun h => ⟨o, p, h, hx⟩) fun h => ⟨(p, o), h, hx⟩
    · rintro (⟨o, p, hp, hx⟩ | ⟨b, hb, hx⟩)
      · exact ⟨p, o, hz.wf.area o p hp, hx⟩
      · exact ⟨b.1, b.2, ((hlive _ _).mp hb).1, hx⟩
  · intro p
    rw [(hz.header p).buddy, ← exists_or]
    exact exists_congr fun o => hsplit p o

/-- In every run the zone has its integrity after every step, and no assertion fires. -/
theorem integrity_of_reachable (t : State) (ht : system.Reachable t) :
    (∃ L, Integrity t L) ∧ ∀ op, Allowed t op → ∃ t', run t op = .ok t' := by
  obtain ⟨hinv, hsafe⟩ := System.Reachable.safe inv_init inv_step ht
  exact ⟨integrity_of_inv hinv, hsafe⟩

/-- A single page of eight frames is allocated, which splits a block three times. -/
theorem integrity_after_first_alloc :
    ∃ t, system.Reachable t ∧ t.live = [(0, 0)] ∧ (t.array.pages 4).order = 2 ∧
      (∃ L, Integrity t L) ∧ ∀ op, Allowed t op → ∃ t', run t op = .ok t' := by
  have h0 : system.Reachable ⟨emptyArray fun _ => true, fun _ => False, []⟩ := .of_init ⟨_, rfl⟩
  have h2 := h0.after [.createPages 0 (8 * PAGE_SIZE), .allocOrder 0]
    ⟨(fun _ _ => ⟨id, rfl⟩), trivial, trivial⟩
  exact ⟨_, h2, rfl, rfl, integrity_of_reachable _ h2⟩

end Buddy

end Dlutos
