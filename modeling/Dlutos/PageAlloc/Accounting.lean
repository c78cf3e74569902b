import Dlutos.Buddy.Operations
import Dlutos.Foundation.Transition
import Dlutos.PageAlloc.PerCpu

/-!
# Accounting for page handles

Any number of CPUs allocate blocks, clone and drop `Page` handles, turn handles into raw frame
numbers and back.  A drop is two steps, because another CPU may run between the decrement of the
reference count and the call of the allocator.
-/

namespace Dlutos

open DyadicTiling Transition Function

namespace PageAlloc

structure State where
  array : PageArray
  created : PFN → Prop
  handles : PFN → ℕ
  /-- The number of outstanding `into_raw` values of a block. -/
  raws : PFN → ℕ
  /-- The blocks whose last reference was dropped and whose return is still to come. -/
  dropping : List PFN
  allocs : PFN → ℕ
  returns : PFN → ℕ

inductive Op where
  | addPages (start last : ℕ)
  | alloc (cpu order : ℕ)
  | clone (p : PFN)
  /-- `Page::drop` up to the decrement. -/
  | dropRef (p : PFN)
  /-- The rest of a `Page::drop` that took the last reference. -/
  | dropLast (cpu : ℕ) (p : PFN)
  | intoRaw (p : PFN)
  | fromRaw (p : PFN)

/-- Frames are created once; a handle or a raw value is needed for what is done with it. -/
def Allowed (t : State) : Op → Prop
  | .addPages start last =>
    ∀ x, InRange start last x → ¬ t.created x ∧ (t.array.pages x).flags.present = true
  | .alloc _ _ => True
  | .clone p => 0 < t.handles p
  | .dropRef p => 0 < t.handles p
  | .dropLast _ p => p ∈ t.dropping
  | .intoRaw p => 0 < t.handles p
  | .fromRaw p => 0 < t.raws p

def State.handOut (t : State) (s : PageArray) (p : PFN) : State :=
  { t with
    array := s
    handles := update t.handles p (t.handles p + 1)
    allocs := update t.allocs p (t.allocs p + 1) }

def run (t : State) : Op → Except Panic State
  | .addPages start last =>
    match Zone.createPages t.array start last with
    | .error e => .error e
    | .ok s => .ok { t with array := s, created := fun x => t.created x ∨ InRange start last x }
  | .alloc cpu order =>
    match GlobalPageAlloc.allocOrder t.array cpu order with
    | .error e => .error e
    | .ok (none, s) => .ok { t with array := s }
    | .ok (some p, s) => .ok (t.handOut s p)
  | .clone p =>
    .ok { t with
      array := Page.clone t.array p
      handles := update t.handles p (t.handles p + 1) }
  | .dropRef p =>
    match Page.dropRef t.array p with
    | .error e => .error e
    | .ok (last, s) => .ok { t with
        array := s
        handles := update t.handles p (t.handles p - 1)
        dropping := if last then p :: t.dropping else t.dropping }
  | .dropLast cpu p =>
    match Page.dropLast t.array cpu p with
    | .error e => .error e
    | .ok s => .ok { t with
        array := s
        dropping := t.dropping.erase p
        returns := update t.returns p (t.returns p + 1) }
  | .intoRaw p =>
    .ok { t with
      handles := update t.handles p (t.handles p - 1)
      raws := update t.raws p (t.raws p + 1) }
  | .fromRaw p =>
    match Page.fromRaw t.array p with
    | .error e => .error e
    | .ok s => .ok { t with
        array := s
        raws := update t.raws p (t.raws p - 1)
        handles := update t.handles p (t.handles p + 1) }

def State.empty (present : PFN → Bool) : State where
  array := emptyArray present
  created _ := False
  handles _ := 0
  raws _ := 0
  dropping := []
  allocs _ := 0
  returns _ := 0

def system : System State Op Panic where
  init t := ∃ present, t = State.empty present
  allowed := Allowed
  run := run

/-- A block is live while it has references or its return is still to come. -/
def State.Live (t : State) (p : PFN) : Prop := 0 < t.handles p + t.raws p ∨ p ∈ t.dropping

inductive Place where
  | buddy
  | cpuList (cpu : ℕ)
  | live

/-- The block of order `o` at `p` is at a place, when the links thread the lists `L`. -/
def State.At (t : State) (L : ListHead → List PFN) (p : PFN) (o : ℕ) : Place → Prop
  | .buddy => p ∈ L (.freeArea o)
  | .cpuList cpu => p ∈ L (.percpu cpu o)
  | .live => t.Live p

/-- The accounting of blocks and handles, in terms of the lists `L` that the links thread and the
block map `B`. -/
structure Accounting (t : State) (L : ListHead → List PFN) (B : PFN → Option ℕ) : Prop where
  repr : Represents t.array.links L
  tiling : Tiling B t.created
  /-- Every block is at exactly one place, the listed ones in a list of their own order. -/
  place : ∀ p o, B p = some o → ∃! w, t.At L p o w
  isBlock : ∀ h p, p ∈ L h ∨ t.Live p → ∃ o, B p = some o
  refcount : ∀ p, t.Live p → (t.array.pages p).refcount = t.handles p + t.raws p
  /-- A live block is on its way back exactly when it has no references, and only once. -/
  dropping : t.dropping.Nodup ∧ ∀ p, p ∈ t.dropping ↔ t.Live p ∧ t.handles p + t.raws p = 0
  /-- A block was returned once for every time it was handed out, except for the current one. -/
  balance : ∀ p, (t.Live p → t.allocs p = t.returns p + 1) ∧ (¬ t.Live p → t.allocs p = t.returns p)
  localList : ∀ cpu o, ∀ p ∈ L (.percpu cpu o),
    (t.array.pages p).refcount = 1 ∧ (t.array.pages p).flags.cpuLocal = true

/-- The account of one page: what the users, the abstract zone and the header say about it. -/
structure PageAccount (t : State) (z : AbsZone) (p : PFN) : Prop where
  localList : ∀ cpu o, p ∈ z.lists (.percpu cpu o) → o ≤ COSTLY_ORDER ∧ z.Live p o ∧
    (t.array.pages p).refcount = 1 ∧ (t.array.pages p).flags.cpuLocal = true ∧ ¬ t.Live p
  owner : ∀ o, z.Live p o → (∃ cpu k, p ∈ z.lists (.percpu cpu k)) ∨ t.Live p
  block : t.Live p →
    ∃ o, z.Live p o ∧ (o ≤ COSTLY_ORDER → (t.array.pages p).flags.cpuLocal = true)
  refcount : t.Live p → (t.array.pages p).refcount = t.handles p + t.raws p
  dropping : p ∈ t.dropping → t.handles p + t.raws p = 0
  balance : (t.Live p → t.allocs p = t.returns p + 1) ∧ (¬ t.Live p → t.allocs p = t.returns p)

/-- What the users of a page know of it. -/
def State.users (t : State) (p : PFN) : ℕ × ℕ × Prop × ℕ × ℕ :=
  (t.handles p, t.raws p, p ∈ t.dropping, t.allocs p, t.returns p)

structure SameAccount (t : State) (z : AbsZone) (t' : State) (z' : AbsZone) (p : PFN) : Prop where
  users : t'.users p = t.users p
  live : ∀ o, z'.Live p o ↔ z.Live p o
  cpuLists : ∀ cpu o, p ∈ z'.lists (.percpu cpu o) ↔ p ∈ z.lists (.percpu cpu o)
  header : ∀ o, z.Live p o → t'.array.pages p = t.array.pages p

theorem PageAccount.congr {t t' : State} {z z' : AbsZone} {p : PFN} (hp : PageAccount t z p)
    (h : SameAccount t z t' z' p) : PageAccount t' z' p := by
  have husers := h.users
  simp only [State.users, Prod.mk.injEq, eq_iff_iff] at husers
  obtain ⟨hh, hr, hd, ha, hret⟩ := husers
  have hlive : t'.Live p ↔ t.Live p := by
    unfold State.Live
    rw [hh, hr, hd]
  refine ⟨fun cpu o hm => ?_, fun o ho => ?_, fun hl => ?_, fun hl => ?_, fun hm => ?_, ?_⟩
  · obtain ⟨hle, hzl, href, hloc, hnl⟩ := hp.localList cpu o ((h.cpuLists cpu o).mp hm)
    rw [h.header o hzl, hlive]
    exact ⟨hle, (h.live o).mpr hzl, href, hloc, hnl⟩
  · rw [hlive]
    exact (hp.owner o ((h.live o).mp ho)).imp_left
      fun ⟨cpu, k, hm⟩ => ⟨cpu, k, (h.cpuLists cpu k).mpr hm⟩
  · obtain ⟨o, hzl, hloc⟩ := hp.block (hlive.mp hl)
    rw [h.header o hzl]
    exact ⟨o, (h.live o).mpr hzl, hloc⟩
  · obtain ⟨o, hzl, -⟩ := hp.block (hlive.mp hl)
    rw [h.header o hzl, hh, hr]
    exact hp.refcount (hlive.mp hl)
  · rw [hh, hr]
    exact hp.dropping (hd.mp hm)
  · rw [hlive, ha, hret]
    exact hp.balance

/-- The invariant of the runs over the abstract zone `z`. -/
structure Accounts (t : State) (z : AbsZone) : Prop where
  zone : ZoneInv t.array z t.created
  held : z.held = ∅
  noSlab : ∀ i k, z.lists (.slab i k) = []
  droppingNodup : t.dropping.Nodup
  page : ∀ p, PageAccount t z p

namespace Accounts

variable {t : State} {z : AbsZone} {p : PFN} {o : ℕ}

theorem unlisted (ht : Accounts t z) (hp : t.Live p) (h : ListHead) : p ∉ z.lists h := by
  intro hm
  obtain ⟨o, hlive, -⟩ := (ht.page p).block hp
  cases h with
  | freeArea k => exact hlive.2.2 ⟨k, hm⟩
  | percpu cpu k => exact ((ht.page p).localList cpu k hm).2.2.2.2 hp
  | slab i k =>
    rw [ht.noSlab] at hm
    exact List.not_mem_nil hm

theorem hasManagementOver (ht : Accounts t z) (hp : t.Live p) :
    GlobalPageAlloc.hasManagementOver t.array p = true := by
  obtain ⟨o, hlive, hlocal⟩ := (ht.page p).block hp
  have hfree : (t.array.pages p).flags.free = false := by
    rw [← Bool.not_eq_true, (ht.zone.header p).free hlive.2.1]
    exact hlive.2.2
  have horder := (ht.zone.header p).liveOrder o hlive
  unfold GlobalPageAlloc.hasManagementOver BuddyAllocator.hasManagementOver
  rw [hfree, ht.zone.buddy_of_block hlive.1, horder]
  rcases Nat.lt_or_ge COSTLY_ORDER o with hlt | hle
  · simp [hlt]
  · simp [hlocal hle]

variable {s' : PageArray} {z' : AbsZone}

theorem frame (ht : Accounts t z) {S' : PFN → Prop}
    (hz' : ZoneInv s' z' S') (hheld : z'.held = ∅) (hf : Frame t.array z s' z') :
    Accounts { t with array := s', created := S' } z' where
  zone := hz'
  held := hheld
  noSlab i k := (hf.lists _ (ListHead.slab_ne_freeArea i k)).trans (ht.noSlab i k)
  droppingNodup := ht.droppingNodup
  page p := (ht.page p).congr
    { users := rfl
      live := hf.live p
      cpuLists := fun cpu o => by rw [hf.lists _ (ListHead.percpu_ne_freeArea cpu o)]
      header := hf.pages p }

/-! ### Handing blocks out -/

theorem not_live_of_allocated (ht : Accounts t z)
    (ha : Allocated t.array z s' z' p o) : ¬ t.Live p ∧ (∀ k, ¬ z.Live p k) ∧
      ∀ cpu k, p ∉ z.lists (.percpu cpu k) := by
  obtain ⟨j, hj⟩ := ha.listed
  refine ⟨fun h => ht.unlisted h _ hj, fun k hk => hk.2.2 ⟨j, hj⟩, fun cpu k hm => ?_⟩
  exact nomatch ht.zone.list_unique hj hm

theorem sameAccount_of_allocated (ha : Allocated t.array z s' z' p o) {x : PFN} (hx : x ≠ p) :
    SameAccount t z { t with array := s' } z' x where
  users := rfl
  live k := by simp [ha.live, hx]
  cpuLists cpu k := by rw [ha.lists _ (ListHead.percpu_ne_freeArea cpu k)]
  header := ha.pages x

theorem handOut (hz' : ZoneInv s' z' t.created)
    (ht : Accounts t z) (hheld : z'.held = ∅) (hslab : ∀ i k, z'.lists (.slab i k) = [])
    (hother : ∀ x, x ≠ p → SameAccount t z { t with array := s' } z' x)
    (hfree : ¬ t.Live p) (hlive : z'.Live p o) (hunlisted : ∀ cpu k, p ∉ z'.lists (.percpu cpu k))
    (href : (s'.pages p).refcount = 1)
    (hlocal : o ≤ COSTLY_ORDER → (s'.pages p).flags.cpuLocal = true) :
    Accounts (t.handOut s' p) z' := by
  have hnone : t.handles p = 0 ∧ t.raws p = 0 ∧ p ∉ t.dropping := by
    unfold State.Live at hfree
    rw [not_or] at hfree
    exact ⟨by omega, by omega, hfree.2⟩
  have hh : (t.handOut s' p).handles p = 1 := by
    simp [State.handOut, hnone.1]
  have hr : (t.handOut s' p).raws p = 0 := hnone.2.1
  have hlive' : (t.handOut s' p).Live p := Or.inl (by omega)
  refine ⟨hz', hheld, hslab, ht.droppingNodup, fun x => ?_⟩
  by_cases hx : x = p
  · subst hx
    refine ⟨fun cpu k hm => absurd hm (hunlisted cpu k), fun _ _ => Or.inr hlive',
      fun _ => ⟨o, hlive, hlocal⟩, fun _ => ?_, fun hm => absurd hm hnone.2.2, fun _ => ?_,
      fun h => absurd hlive' h⟩
    · rw [hh, hr]
      exact href
    · have hbal := (ht.page x).balance.2 hfree
      simp [State.handOut, hbal]
  · refine (ht.page x).congr ?_
    have hsame := hother x hx
    exact { hsame with users := by simp [State.users, State.handOut, hx] }

theorem allocBuddy (ht : Accounts t z) (ho : COSTLY_ORDER < o) :
    ∃ r s', BuddyAllocator.allocOrder t.array o = .ok (r, s') ∧
      ∃ z', Accounts (match r with
        | none => { t with array := s' }
        | some p => t.handOut s' p) z' := by
  rcases ht.zone.allocOrder ht.held o with hnone | ⟨p, s', z', hrun, hz', hheld, ha⟩
  · exact ⟨none, t.array, hnone, z, ht⟩
  · obtain ⟨hfree, -, hunl⟩ := ht.not_live_of_allocated ha
    refine ⟨some p, s', hrun, z', ht.handOut hz' hheld (fun i k => ?_)
      (fun x hx => sameAccount_of_allocated ha hx) hfree ((ha.live p o).mpr (Or.inr ⟨rfl, rfl⟩))
      (fun cpu k => ha.unlisted _) ha.refcount fun hle => absurd ho (Nat.not_lt.mpr hle)⟩
    rw [ha.lists _ (ListHead.slab_ne_freeArea i k), ht.noSlab]

theorem refillOne (ht : Accounts t z) (ho : o ≤ COSTLY_ORDER) (cpu : ℕ)
    (hz' : ZoneInv s' z' t.created) (hheld : z'.held = ∅) (ha : Allocated t.array z s' z' p o) :
    Accounts { t with array := (s'.setLocal p).listInsert (.percpu cpu o) p }
      (z'.push (.percpu cpu o) p) := by
  obtain ⟨hfree, hdead, hunl⟩ := ht.not_live_of_allocated ha
  have hlive : z'.Live p o := (ha.live p o).mpr (Or.inr ⟨rfl, rfl⟩)
  have hz1 := hz'.modify_live hlive
    (fun r => { r with flags := { r.flags with cpuLocal := true } })
    (fun _ => rfl) (fun _ => rfl) (fun _ => rfl) fun _ => rfl
  have hne := ListHead.percpu_ne_freeArea cpu o
  have hlive' := fun x k => (AbsZone.agreeAt_push hne z' p x).live k
  refine ⟨hz1.pushLocal hlive ha.unlisted hne, hheld, fun i k => ?_, ht.droppingNodup,
    fun x => ?_⟩
  · rw [AbsZone.push_lists_of_ne (fun h => by cases h), ha.lists _ (ListHead.slab_ne_freeArea i k),
      ht.noSlab]
  · by_cases hx : x = p
    · subst hx
      have hmem : x ∈ (z'.push (.percpu cpu o) x).lists (.percpu cpu o) :=
        AbsZone.mem_push.mpr (Or.inl ⟨rfl, rfl⟩)
      have hacc := ht.page x
      refine ⟨fun c k hm => ?_, fun _ _ => Or.inl ⟨cpu, o, hmem⟩, fun h => absurd h hfree,
        fun h => absurd h hfree, hacc.dropping, hacc.balance⟩
      rcases AbsZone.mem_push.mp hm with ⟨heq, -⟩ | hm
      · cases heq
        refine ⟨ho, (hlive' x o).mpr hlive, ?_, ?_, hfree⟩
        · simp [PageArray.setLocal, ha.refcount]
        · simp [PageArray.setLocal]
      · exact absurd hm (ha.unlisted _)
    · refine (ht.page x).congr ?_
      have hsame := sameAccount_of_allocated (t := t) ha hx
      refine { hsame with
        live := fun k => (hlive' x k).trans (hsame.live k)
        cpuLists := fun c k => ?_
        header := fun k hk => ?_ }
      · rw [AbsZone.mem_push, ← hsame.cpuLists]
        simp [hx]
      · have hpage : ((s'.setLocal p).listInsert (.percpu cpu o) p).pages x = s'.pages x := by
          simp [PageArray.setLocal, PageArray.modify_pages, hx]
        exact hpage.trans (hsame.header k hk)

theorem refill (ho : o ≤ COSTLY_ORDER) (cpu n : ℕ) :
    ∀ {t : State} {z : AbsZone}, Accounts t z →
      ∃ s' z', PerCpuPageAlloc.refill cpu o n t.array = .ok s' ∧
        Accounts { t with array := s' } z' := by
  induction n with
  | zero => exact fun {t z} ht => ⟨t.array, z, rfl, ht⟩
  | succ n ih =>
    intro t z ht
    unfold PerCpuPageAlloc.refill
    rcases ht.zone.allocOrder ht.held o with hnone | ⟨p, s1, z1, hrun, hz1, hheld1, ha⟩
    · rw [hnone]
      exact ⟨t.array, z, rfl, ht⟩
    · obtain ⟨s2, z2, hrun2, ht2⟩ := ih (ht.refillOne ho cpu hz1 hheld1 ha)
      rw [hrun]
      dsimp only
      rw [PerCpuPageAlloc.insertFreePages, if_pos ho]
      exact ⟨s2, z2, hrun2, ht2⟩

theorem getFreePages (ht : Accounts t z) (ho : o ≤ COSTLY_ORDER) (cpu : ℕ) :
    ∃ r s', PerCpuPageAlloc.getFreePages t.array cpu o = .ok (r, s') ∧
      ((r = none ∧ s' = t.array) ∨ ∃ p z', r = some p ∧ Accounts (t.handOut s' p) z') := by
  unfold PerCpuPageAlloc.getFreePages
  rw [if_pos ho, ht.zone.listHead]
  cases hl : z.lists (.percpu cpu o) with
  | nil => exact ⟨none, t.array, rfl, Or.inl ⟨rfl, rfl⟩⟩
  | cons p rest =>
    have hp : p ∈ z.lists (.percpu cpu o) := by
      rw [hl]
      exact List.mem_cons_self
    obtain ⟨-, hlive, href, hloc, hfree⟩ := (ht.page p).localList cpu o hp
    have hne := ListHead.percpu_ne_freeArea cpu o
    have hlive' := fun x k => (AbsZone.agreeAt_unlist hne z p x).live k
    have hmem : ∀ h x, x ∈ (z.unlist (.percpu cpu o) p).lists h ↔ x ∈ z.lists h ∧ x ≠ p :=
      fun h x => ht.zone.mem_unlist hp
    refine ⟨some p, _, rfl, Or.inr ⟨p, z.unlist (.percpu cpu o) p, rfl, ?_⟩⟩
    refine ht.handOut (ht.zone.unlistLocal hp hne) ht.held (fun i k => ?_) (fun x hx => ?_) hfree
      ((hlive' p o).mpr hlive) (fun c k hm => ((hmem _ p).mp hm).2 rfl) href fun _ => hloc
    · rw [AbsZone.unlist_lists_of_ne (fun h => by cases h), ht.noSlab]
    · exact { users := rfl
              live := hlive' x
              cpuLists := fun c k => by simp [hmem, hx]
              header := fun _ _ => rfl }

theorem allocOrder (ht : Accounts t z) (cpu o : ℕ) :
    ∃ r s', GlobalPageAlloc.allocOrder t.array cpu o = .ok (r, s') ∧
      ∃ z', Accounts (match r with
        | none => { t with array := s' }
        | some p => t.handOut s' p) z' := by
  unfold GlobalPageAlloc.allocOrder
  split_ifs with ho
  · exact ht.allocBuddy ho
  · have hle := Nat.le_of_not_lt ho
    unfold PerCpuPageAlloc.allocOrder
    rw [if_pos hle]
    obtain ⟨r, s1, hrun, ⟨rfl, rfl⟩ | ⟨p, z1, rfl, ht1⟩⟩ := ht.getFreePages hle cpu
    · obtain ⟨s2, z2, hrun2, ht2⟩ := ht.refill hle cpu (BATCH_SIZE >>> o)
      obtain ⟨r, s3, hrun3, ⟨rfl, rfl⟩ | ⟨p, z3, rfl, ht3⟩⟩ := ht2.getFreePages hle cpu
      · exact ⟨none, _, by rw [hrun]; dsimp only; rw [hrun2]; exact hrun3, z2, ht2⟩
      · exact ⟨some p, s3, by rw [hrun]; dsimp only; rw [hrun2]; exact hrun3, z3, ht3⟩
    · exact ⟨some p, s1, by rw [hrun], z1, ht1⟩

/-! ### References -/

theorem recount (ht : Accounts t z) (hp : t.Live p) {t' : State} (hcreated : t'.created = t.created)
    (harray : t'.array = t.array.setRefcount p (t'.handles p + t'.raws p))
    (hallocs : t'.allocs = t.allocs) (hreturns : t'.returns = t.returns)
    (hother : ∀ x, x ≠ p → t'.handles x = t.handles x ∧ t'.raws x = t.raws x ∧
      (x ∈ t'.dropping ↔ x ∈ t.dropping))
    (hnodup : t'.dropping.Nodup) (hlast : p ∈ t'.dropping ↔ t'.handles p + t'.raws p = 0) :
    Accounts t' z := by
  have hunl := ht.unlisted hp
  obtain ⟨o, hlive, hlocal⟩ := (ht.page p).block hp
  have hlive' : t'.Live p := by
    rcases Nat.eq_zero_or_pos (t'.handles p + t'.raws p) with h | h
    · exact Or.inr (hlast.mpr h)
    · exact Or.inl h
  refine ⟨?_, ht.held, ht.noSlab, hnodup, fun x => ?_⟩
  · rw [harray, hcreated]
    exact ht.zone.modify_live hlive (fun r => { r with refcount := t'.handles p + t'.raws p })
      (fun _ => rfl) (fun _ => rfl) (fun _ => rfl) fun _ => rfl
  · by_cases hx : x = p
    · subst hx
      refine ⟨fun cpu k hm => absurd hm (hunl _), fun _ _ => Or.inr hlive', fun _ => ⟨o, hlive, ?_⟩,
        fun _ => ?_, fun hm => hlast.mp hm, fun _ => ?_, fun h => absurd hlive' h⟩
      · rw [harray]
        simpa [PageArray.setRefcount] using hlocal
      · rw [harray]
        simp [PageArray.setRefcount]
      · rw [hallocs, hreturns]
        exact (ht.page x).balance.1 hp
    · obtain ⟨hh, hr, hd⟩ := hother x hx
      refine (ht.page x).congr ⟨by simp only [State.users, hh, hr, hd, hallocs, hreturns],
        fun _ => Iff.rfl, fun _ _ => Iff.rfl, fun k _ => ?_⟩
      rw [harray]
      exact t.array.modify_pages_of_ne (fun r => { r with refcount := _ }) hx

theorem returned (ht : Accounts t z) (hp : p ∈ t.dropping)
    (hz' : ZoneInv s' z' t.created) (hheld : z'.held = ∅)
    (hslab : ∀ i k, z'.lists (.slab i k) = [])
    (hother : ∀ x, x ≠ p → SameAccount t z { t with array := s' } z' x)
    (hlocal : ∀ cpu o, p ∈ z'.lists (.percpu cpu o) → o ≤ COSTLY_ORDER ∧ z'.Live p o ∧
      (s'.pages p).refcount = 1 ∧ (s'.pages p).flags.cpuLocal = true)
    (howner : ∀ o, z'.Live p o → ∃ cpu k, p ∈ z'.lists (.percpu cpu k)) :
    Accounts { t with
      array := s'
      dropping := t.dropping.erase p
      returns := update t.returns p (t.returns p + 1) } z' := by
  have hzero := (ht.page p).dropping hp
  have hlive : t.Live p := Or.inr hp
  have hdead : ¬ (0 < t.handles p + t.raws p ∨ p ∈ t.dropping.erase p) := by
    rw [not_or]
    exact ⟨by omega, ht.droppingNodup.not_mem_erase⟩
  refine ⟨hz', hheld, hslab, ht.droppingNodup.erase p, fun x => ?_⟩
  by_cases hx : x = p
  · subst hx
    refine ⟨fun cpu o hm => ?_, fun o ho => Or.inl (howner o ho), fun h => absurd h hdead,
      fun h => absurd h hdead, fun _ => hzero, fun h => absurd h hdead, fun _ => ?_⟩
    · obtain ⟨hle, hzl, href, hloc⟩ := hlocal cpu o hm
      exact ⟨hle, hzl, href, hloc, hdead⟩
    · have hbal := (ht.page x).balance.1 hlive
      simp [hbal]
  · have hsame := hother x hx
    exact (ht.page x).congr { hsame with
      users := by simp [State.users, List.mem_erase_of_ne hx, hx] }

theorem dropLast (ht : Accounts t z) (hp : p ∈ t.dropping) (cpu : ℕ) :
    ∃ s' z', Page.dropLast t.array cpu p = .ok s' ∧ Accounts { t with
      array := s'
      dropping := t.dropping.erase p
      returns := update t.returns p (t.returns p + 1) } z' := by
  have hlive : t.Live p := Or.inr hp
  have hunl := ht.unlisted hlive
  obtain ⟨o, hzlive, hlocal⟩ := (ht.page p).block hlive
  have horder := (ht.zone.header p).liveOrder o hzlive
  have href : (t.array.pages p).refcount = 0 :=
    ((ht.page p).refcount hlive).trans ((ht.page p).dropping hp)
  unfold Page.dropLast GlobalPageAlloc.dealloc
  rw [if_pos (ht.hasManagementOver hlive), horder]
  split_ifs with ho
  · obtain ⟨s', z', hrun, hz', hheld, hf⟩ := ht.zone.dealloc ht.held hzlive hunl href
    refine ⟨s', z', hrun, ht.returned hp hz' hheld (fun i k => ?_) (fun x hx => ?_)
      (fun c k hm => ?_) fun k hk => absurd rfl ((hf.live p k).mp hk).2⟩
    · rw [hf.lists _ (ListHead.slab_ne_freeArea i k), ht.noSlab]
    · exact { users := rfl
              live := fun k => by simp [hf.live, hx]
              cpuLists := fun c k => by rw [hf.lists _ (ListHead.percpu_ne_freeArea c k)]
              header := fun k hk => hf.pages x k hk hx }
    · rw [hf.lists _ (ListHead.percpu_ne_freeArea c k)] at hm
      exact absurd hm (hunl _)
  · have hle := Nat.le_of_not_lt ho
    have hne := ListHead.percpu_ne_freeArea cpu o
    have hlive' := fun x k => (AbsZone.agreeAt_push hne z p x).live k
    have hz1 := ht.zone.modify_live hzlive (fun r => { r with refcount := 1 })
      (fun _ => rfl) (fun _ => rfl) (fun _ => rfl) fun _ => rfl
    have hmem : p ∈ (z.push (.percpu cpu o) p).lists (.percpu cpu o) :=
      AbsZone.mem_push.mpr (Or.inl ⟨rfl, rfl⟩)
    refine ⟨_, z.push (.percpu cpu o) p, ?_, ht.returned hp (hz1.pushLocal hzlive hunl hne) ht.held
      (fun i k => ?_) (fun x hx => ?_) (fun c k hm => ?_) fun _ _ => ⟨cpu, o, hmem⟩⟩
    · unfold PerCpuPageAlloc.freePages PerCpuPageAlloc.insertFreePages
      rw [if_neg (not_not.mpr horder), if_neg (not_not.mpr href), if_pos hle]
      rfl
    · rw [AbsZone.push_lists_of_ne (fun h => by cases h), ht.noSlab]
    · exact { users := rfl
              live := hlive' x
              cpuLists := fun c k => by simp [AbsZone.mem_push, hx]
              header := fun _ _ =>
                t.array.modify_pages_of_ne (fun r => { r with refcount := 1 }) hx }
    · rcases AbsZone.mem_push.mp hm with ⟨heq, -⟩ | hm
      · cases heq
        refine ⟨hle, (hlive' p o).mpr hzlive, ?_, ?_⟩
        · simp
        · simpa using hlocal hle
      · exact absurd hm (hunl _)

end Accounts

/-! ### Runs -/

theorem accounts_init (t : State) (ht : system.init t) : ∃ z, Accounts t z := by
  obtain ⟨present, rfl⟩ := ht
  have hdead : ∀ p, ¬ (State.empty present).Live p := by
    rintro p (h | h)
    · exact Nat.lt_irrefl 0 h
    · exact List.not_mem_nil h
  refine ⟨_, zoneInv_emptyArray present, rfl, fun _ _ => rfl, List.nodup_nil, fun p => ?_⟩
  exact ⟨fun _ _ hm => absurd hm List.not_mem_nil, fun _ h => (nomatch h.1),
    fun h => absurd h (hdead p), fun h => absurd h (hdead p), fun hm => absurd hm List.not_mem_nil,
    fun h => absurd h (hdead p), fun _ => rfl⟩

theorem accounts_step (t : State) (op : Op) (ht : ∃ z, Accounts t z) (hop : Allowed t op) :
    ∃ t', run t op = .ok t' ∧ ∃ z, Accounts t' z := by
  obtain ⟨z, ht⟩ := ht
  -- a block with a reference is not on its way back
  have hbusy : ∀ p, 0 < t.handles p + t.raws p → p ∉ t.dropping := fun p hpos hm =>
    absurd ((ht.page p).dropping hm) hpos.ne'
  cases op with
  | addPages start last =>
    obtain ⟨s', z', hrun, hz', hheld', hf⟩ := ht.zone.createPages ht.held
      (fun x hx => (hop x hx).1) fun x hx => (hop x hx).2
    exact ⟨_, by rw [run, hrun], z', ht.frame hz' hheld' hf⟩
  | alloc cpu order =>
    obtain ⟨r, s', hrun, z', ht'⟩ := ht.allocOrder cpu order
    cases r with
    | none => exact ⟨_, by rw [run, hrun], z', ht'⟩
    | some p => exact ⟨_, by rw [run, hrun], z', ht'⟩
  | clone p =>
    have hpos : 0 < t.handles p := hop
    have hlive : t.Live p := Or.inl (by omega)
    refine ⟨_, rfl, z, ht.recount hlive rfl ?_ rfl rfl (fun x hx => ?_) ht.droppingNodup ?_⟩
    · have href := (ht.page p).refcount hlive
      simp only [Page.clone, update_self, href]
      rw [Nat.add_right_comm]
    · exact ⟨update_of_ne hx _ _, rfl, Iff.rfl⟩
    · have := hbusy p (by omega)
      simp only [update_self]
      exact iff_of_false this (by omega)
  | dropRef p =>
    have hpos : 0 < t.handles p := hop
    have hlive : t.Live p := Or.inl (by omega)
    have href := (ht.page p).refcount hlive
    obtain ⟨n, hn⟩ : ∃ n, (t.array.pages p).refcount = n + 1 := ⟨t.handles p + t.raws p - 1, by omega⟩
    have hnot := hbusy p (by omega)
    have hdrop : Page.dropRef t.array p = .ok (n == 0, t.array.setRefcount p n) := by
      rw [Page.dropRef, hn]
    rw [run, hdrop]
    refine ⟨_, rfl, z, ht.recount hlive rfl ?_ rfl rfl (fun x hx => ?_) ?_ ?_⟩
    · have : n = t.handles p - 1 + t.raws p := by omega
      simp only [update_self, this]
    · refine ⟨update_of_ne hx _ _, rfl, ?_⟩
      split_ifs
      · simp [hx]
      · rfl
    · dsimp only
      split_ifs
      · exact List.nodup_cons.mpr ⟨hnot, ht.droppingNodup⟩
      · exact ht.droppingNodup
    · simp only [update_self]
      split_ifs with hlast
      · rw [beq_iff_eq] at hlast
        exact iff_of_true List.mem_cons_self (by omega)
      · rw [beq_iff_eq] at hlast
        exact iff_of_false hnot (by omega)
  | dropLast cpu p =>
    obtain ⟨s', z', hrun, ht'⟩ := ht.dropLast hop cpu
    exact ⟨_, by rw [run, hrun], z', ht'⟩
  | intoRaw p =>
    have hpos : 0 < t.handles p := hop
    have hlive : t.Live p := Or.inl (by omega)
    have href := (ht.page p).refcount hlive
    refine ⟨_, rfl, z, ht.recount hlive rfl ?_ rfl rfl (fun x hx => ?_) ht.droppingNodup ?_⟩
    · have : t.handles p - 1 + (t.raws p + 1) = (t.array.pages p).refcount := by omega
      simp only [update_self, this, PageArray.setRefcount_self]
    · exact ⟨update_of_ne hx _ _, update_of_ne hx _ _, Iff.rfl⟩
    · have := hbusy p (by omega)
      simp only [update_self]
      exact iff_of_false this (by omega)
  | fromRaw p =>
    have hpos : 0 < t.raws p := hop
    have hlive : t.Live p := Or.inl (by omega)
    have href := (ht.page p).refcount hlive
    have hraw : Page.fromRaw t.array p = .ok t.array := if_pos (ht.hasManagementOver hlive)
    rw [run, hraw]
    refine ⟨_, rfl, z, ht.recount hlive rfl ?_ rfl rfl (fun x hx => ?_) ht.droppingNodup ?_⟩
    · have : t.handles p + 1 + (t.raws p - 1) = (t.array.pages p).refcount := by omega
      simp only [update_self, this, PageArray.setRefcount_self]
    · exact ⟨update_of_ne hx _ _, update_of_ne hx _ _, Iff.rfl⟩
    · have := hbusy p (by omega)
      simp only [update_self]
      exact iff_of_false this (by omega)

theorem Accounts.place_unique {t : State} {z : AbsZone} (ht : Accounts t z) {p : PFN} {o : ℕ}
    {w w' : Place} (hw : t.At z.lists p o w) (hw' : t.At z.lists p o w') : w = w' := by
  have hlists : ∀ {h h' : ListHead}, p ∈ z.lists h → p ∈ z.lists h' → h = h' :=
    ht.zone.list_unique
  cases w with
  | buddy =>
    cases w' with
    | buddy => rfl
    | cpuList c => exact absurd (hlists hw hw').symm (ListHead.percpu_ne_freeArea c o o)
    | live => exact absurd hw (ht.unlisted hw' _)
  | cpuList c =>
    cases w' with
    | buddy => exact absurd (hlists hw hw') (ListHead.percpu_ne_freeArea c o o)
    | cpuList c' =>
      have heq := hlists hw hw'
      injection heq with hc
      rw [hc]
    | live => exact absurd hw (ht.unlisted hw' _)
  | live =>
    cases w' with
    | buddy => exact absurd hw' (ht.unlisted hw _)
    | cpuList c => exact absurd hw' (ht.unlisted hw _)
    | live => rfl

theorem Accounts.accounting {t : State} {z : AbsZone} (ht : Accounts t z) :
    Accounting t z.lists z.blocks where
  repr := ht.zone.repr
  tiling := ht.zone.wf.tiling
  place p o hp := by
    refine existsUnique_of_exists_of_unique ?_ fun w w' hw hw' => ht.place_unique hw hw'
    by_cases hl : z.Listed p
    · obtain ⟨k, hk⟩ := hl
      obtain rfl : o = k := Option.some.inj (hp.symm.trans (ht.zone.wf.area k p hk))
      exact ⟨.buddy, hk⟩
    · have hlive : z.Live p o := ⟨hp, by rw [ht.held]; exact Set.notMem_empty p, hl⟩
      rcases (ht.page p).owner o hlive with ⟨cpu, k, hm⟩ | hm
      · have hk := ((ht.page p).localList cpu k hm).2.1.1
        obtain rfl : o = k := Option.some.inj (hp.symm.trans hk)
        exact ⟨.cpuList cpu, hm⟩
      · exact ⟨.live, hm⟩
  isBlock h p hp := by
    rcases hp with hm | hl
    · exact ht.zone.wf.isBlock h p hm
    · obtain ⟨o, hlive, -⟩ := (ht.page p).block hl
      exact ⟨o, hlive.1⟩
  refcount p := (ht.page p).refcount
  dropping := by
    refine ⟨ht.droppingNodup, fun p => ⟨fun hm => ⟨Or.inr hm, (ht.page p).dropping hm⟩, ?_⟩⟩
    rintro ⟨hpos | hm, hzero⟩
    · exact absurd hzero hpos.ne'
    · exact hm
  balance p := (ht.page p).balance
  localList cpu o p hm := by
    obtain ⟨-, -, href, hloc, -⟩ := (ht.page p).localList cpu o hm
    exact ⟨href, hloc⟩

/-- In every interleaving every block is accounted for, and no assertion fires. -/
theorem accounting_of_reachable (t : State) (ht : system.Reachable t) :
    (∃ L B, Accounting t L B) ∧ ∀ op, Allowed t op → ∃ t', run t op = .ok t' := by
  obtain ⟨⟨z, hz⟩, hsafe⟩ := System.Reachable.safe accounts_init accounts_step ht
  exact ⟨⟨z.lists, z.blocks, hz.accounting⟩, hsafe⟩

/-- A page is allocated on CPU 0, cloned, and last dropped on CPU 1. -/
theorem accounting_after_migration :
    ∃ t, system.Reachable t ∧ t.allocs 1 = 1 ∧ t.returns 1 = 1 ∧
      (t.array.links (.head (.percpu 1 0))).next = some (.node 1) ∧
      (∃ L B, Accounting t L B) ∧ ∀ op, Allowed t op → ∃ t', run t op = .ok t' := by
  have h0 : system.Reachable (State.empty fun _ => true) := .of_init ⟨_, rfl⟩
  have h6 := h0.after [.addPages 0 (2 * PAGE_SIZE), .alloc 0 0, .clone 1, .dropRef 1, .dropRef 1,
    .dropLast 1 1]
    ⟨(fun _ _ => ⟨id, rfl⟩), trivial, (show 0 < State.handles _ 1 by decide),
     (show 0 < State.handles _ 1 by decide), (show 0 < State.handles _ 1 by decide),
     List.mem_cons_self, trivial⟩
  exact ⟨_, h6, rfl, rfl, rfl, accounting_of_reachable _ h6⟩

end PageAlloc

end Dlutos
