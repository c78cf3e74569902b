import Dlutos.Buddy.Zone
import Dlutos.Foundation.DyadicTiling

/-!
# The invariant of the buddy zone

The zone is described by an abstract state `AbsZone`: the block map, the lists behind the anchors,
and the blocks that the running call has in hand (`held`).  `ZoneInv s z S` says that the page array
`s` implements `z` over the set `S` of created frames, with one clause for each header (`HeaderOk`).
The stored order of a listed block is only bounded by its true order, because `create_pages` never
stores one.
-/

namespace Dlutos

open DyadicTiling Function

structure AbsZone where
  lists : ListHead → List PFN
  blocks : PFN → Option ℕ
  /-- The blocks the running call has in hand. -/
  held : Set PFN

namespace AbsZone

def Listed (z : AbsZone) (p : PFN) : Prop := ∃ o, p ∈ z.lists (.freeArea o)

def Live (z : AbsZone) (p : PFN) (o : ℕ) : Prop :=
  z.blocks p = some o ∧ p ∉ z.held ∧ ¬ z.Listed p

/-- Put a page on the list of an anchor. -/
def push (z : AbsZone) (h : ListHead) (p : PFN) : AbsZone :=
  { z with lists := update z.lists h (p :: z.lists h) }

/-- Take a page off the list of an anchor. -/
def unlist (z : AbsZone) (h : ListHead) (p : PFN) : AbsZone :=
  { z with lists := update z.lists h ((z.lists h).erase p) }

/-- Take a block in hand. -/
def hold (z : AbsZone) (p : PFN) : AbsZone := { z with held := insert p z.held }

/-- Let a block in hand go. -/
def release (z : AbsZone) (p : PFN) : AbsZone := { z with held := z.held \ {p} }

def retile (z : AbsZone) (B : PFN → Option ℕ) (H : Set PFN) : AbsZone :=
  { z with blocks := B, held := H }

theorem push_lists_of_ne {z : AbsZone} {h j : ListHead} {p : PFN} (hne : j ≠ h) :
    (z.push h p).lists j = z.lists j :=
  update_of_ne hne _ _

theorem unlist_lists_of_ne {z : AbsZone} {h j : ListHead} {p : PFN} (hne : j ≠ h) :
    (z.unlist h p).lists j = z.lists j :=
  update_of_ne hne _ _

theorem mem_push {z : AbsZone} {h k : ListHead} {p x : PFN} :
    x ∈ (z.push h p).lists k ↔ (k = h ∧ x = p) ∨ x ∈ z.lists k :=
  mem_update_cons

/-- Two abstract states agree on the role of the page `p` in the zone. -/
structure AgreeAt (z z' : AbsZone) (p : PFN) : Prop where
  blocks : z'.blocks p = z.blocks p
  lists : ∀ o, p ∈ z'.lists (.freeArea o) ↔ p ∈ z.lists (.freeArea o)
  held : p ∈ z'.held ↔ p ∈ z.held

theorem AgreeAt.listed {z z' : AbsZone} {p : PFN} (h : AgreeAt z z' p) :
    z'.Listed p ↔ z.Listed p :=
  exists_congr fun _ => h.lists _

theorem AgreeAt.live {z z' : AbsZone} {p : PFN} (h : AgreeAt z z' p) (o : ℕ) :
    z'.Live p o ↔ z.Live p o := by
  unfold Live
  rw [h.blocks, h.listed, h.held]

section

variable {h : ListHead} (hh : ∀ k, h ≠ .freeArea k) (z : AbsZone) (p x : PFN)
include hh z p x

theorem agreeAt_push : AgreeAt z (z.push h p) x := by
  refine ⟨rfl, fun k => ?_, Iff.rfl⟩
  rw [push_lists_of_ne (hh k).symm]

theorem agreeAt_unlist : AgreeAt z (z.unlist h p) x := by
  refine ⟨rfl, fun k => ?_, Iff.rfl⟩
  rw [unlist_lists_of_ne (hh k).symm]

end

/-- The abstract state is well formed over the created frames `S`. -/
structure WellFormed (z : AbsZone) (S : PFN → Prop) : Prop where
  tiling : Tiling z.blocks S
  order_lt : ∀ p o, z.blocks p = some o → o < AREAS
  area : ∀ o p, p ∈ z.lists (.freeArea o) → z.blocks p = some o
  isBlock : ∀ h p, p ∈ z.lists h → ∃ o, z.blocks p = some o
  heldBlock : ∀ p ∈ z.held, (∃ o, z.blocks p = some o) ∧ ∀ h, p ∉ z.lists h

end AbsZone

/-- The header `r` of the page `p` fits the abstract state. -/
structure HeaderOk (z : AbsZone) (S : PFN → Prop) (p : PFN) (r : RawPage) : Prop where
  free : p ∉ z.held → (r.flags.free = true ↔ z.Listed p)
  buddy : r.flags.buddy = true ↔ ∃ o, z.blocks p = some o
  listedOrder : ∀ o, p ∈ z.lists (.freeArea o) → r.order ≤ o
  liveOrder : ∀ o, z.Live p o → r.order = o
  refcount : r.refcount ≠ 0 → (∃ o, z.blocks p = some o) ∧ ¬ z.Listed p
  present : S p → r.flags.present = true
  fresh : ¬ S p → r.order = 0

theorem HeaderOk.congr {z z' : AbsZone} {S S' : PFN → Prop} {p : PFN} {r : RawPage}
    (h : HeaderOk z S p r) (ha : AbsZone.AgreeAt z z' p)
    (hpresent : S' p → S p ∨ r.flags.present = true) (hfresh : S p → S' p) :
    HeaderOk z' S' p r where
  free hne := by
    rw [ha.listed]
    exact h.free fun hp => hne (ha.held.mpr hp)
  buddy := by
    rw [ha.blocks]
    exact h.buddy
  listedOrder o ho := h.listedOrder o ((ha.lists _).mp ho)
  liveOrder o ho := h.liveOrder o ((ha.live o).mp ho)
  refcount hr := by
    rw [ha.blocks, ha.listed]
    exact h.refcount hr
  present hp := (hpresent hp).elim h.present id
  fresh hp := h.fresh fun h' => hp (hfresh h')

theorem HeaderOk.of_held {z : AbsZone} {S : PFN → Prop} {p : PFN} {r : RawPage}
    (hz : z.WellFormed S) (hp : p ∈ z.held) (hbuddy : r.flags.buddy = true)
    (hpresent : r.flags.present = true) : HeaderOk z S p r := by
  obtain ⟨⟨o, ho⟩, hlists⟩ := hz.heldBlock p hp
  have hS : S p := hz.tiling.mem_of_inBlock ho (inBlock_self p o)
  have hnl : ¬ z.Listed p := fun ⟨k, hk⟩ => hlists _ hk
  exact ⟨fun h => absurd hp h, iff_of_true hbuddy ⟨o, ho⟩, fun k hk => absurd hk (hlists _),
    fun k hk => absurd hp hk.2.1, fun _ => ⟨⟨o, ho⟩, hnl⟩, fun _ => hpresent,
    fun h => absurd hS h⟩

/-- The page array `s` implements the abstract zone `z` over the created frames `S`. -/
structure ZoneInv (s : PageArray) (z : AbsZone) (S : PFN → Prop) : Prop
    extends s.Threads z.lists where
  wf : z.WellFormed S
  header : ∀ p, HeaderOk z S p (s.pages p)

/-- Live blocks, their headers and all lists other than the free areas are unchanged. -/
structure Frame (s : PageArray) (z : AbsZone) (s' : PageArray) (z' : AbsZone) : Prop where
  live : ∀ p o, z'.Live p o ↔ z.Live p o
  pages : ∀ p o, z.Live p o → s'.pages p = s.pages p
  lists : ∀ h, (∀ o, h ≠ .freeArea o) → z'.lists h = z.lists h

theorem Frame.refl (s : PageArray) (z : AbsZone) : Frame s z s z :=
  ⟨fun _ _ => Iff.rfl, fun _ _ _ => rfl, fun _ _ => rfl⟩

theorem Frame.trans {s s' s'' : PageArray} {z z' z'' : AbsZone} (h : Frame s z s' z')
    (h' : Frame s' z' s'' z'') : Frame s z s'' z'' where
  live p o := (h'.live p o).trans (h.live p o)
  pages p o hl := (h'.pages p o ((h.live p o).mpr hl)).trans (h.pages p o hl)
  lists a ha := (h'.lists a ha).trans (h.lists a ha)

theorem Frame.of_agree {s s' : PageArray} {z z' : AbsZone}
    (hagree : ∀ p, (AbsZone.AgreeAt z z' p ∧ s'.pages p = s.pages p) ∨
      ((∀ o, ¬ z.Live p o) ∧ ∀ o, ¬ z'.Live p o))
    (hlists : ∀ h, (∀ o, h ≠ .freeArea o) → z'.lists h = z.lists h) : Frame s z s' z' where
  live p o := by
    rcases hagree p with ⟨ha, -⟩ | ⟨h1, h2⟩
    · exact ha.live o
    · exact iff_of_false (h2 o) (h1 o)
  pages p o hl := by
    rcases hagree p with ⟨-, hp⟩ | ⟨h1, -⟩
    · exact hp
    · exact absurd hl (h1 o)
  lists := hlists

namespace ZoneInv

variable {s : PageArray} {z : AbsZone} {S : PFN → Prop} {p q : PFN} {o k : ℕ}

/-! ### Facts about implemented zones -/

section

variable (hz : ZoneInv s z S)
include hz

theorem list_unique {h k : ListHead} (hp : p ∈ z.lists h) (hk : p ∈ z.lists k) : h = k :=
  hz.repr.disjoint h k p hp hk

theorem refcount_of_listed (hp : z.Listed p) : (s.pages p).refcount = 0 := by
  by_contra hne
  exact ((hz.header p).refcount hne).2 hp

theorem refcount_of_not_block (hp : z.blocks p = none) :
    (s.pages p).refcount = 0 := by
  by_contra hne
  obtain ⟨⟨o, ho⟩, -⟩ := (hz.header p).refcount hne
  exact nomatch hp.symm.trans ho

theorem not_mem_of_not_block (hp : z.blocks p = none) (h : ListHead) :
    p ∉ z.lists h := by
  intro hm
  obtain ⟨o, ho⟩ := hz.wf.isBlock h p hm
  exact nomatch hp.symm.trans ho

theorem not_held_of_mem {h : ListHead} (hp : p ∈ z.lists h) : p ∉ z.held :=
  fun hh => (hz.wf.heldBlock p hh).2 h hp

theorem present_of_block (hp : z.blocks p = some o) :
    (s.pages p).flags.present = true :=
  (hz.header p).present (hz.wf.tiling.mem_of_inBlock hp (inBlock_self p o))

theorem buddy_of_block (hp : z.blocks p = some o) :
    (s.pages p).flags.buddy = true :=
  (hz.header p).buddy.mpr ⟨o, hp⟩

theorem congr_created {S' : PFN → Prop} (hS : ∀ x, S x ↔ S' x) :
    ZoneInv s z S' := by
  rwa [show S = S' from funext fun x => propext (hS x)] at hz

theorem header_of_agree {s' : PageArray} {z' : AbsZone} {x : PFN}
    (ha : AbsZone.AgreeAt z z' x) (hx : s'.pages x = s.pages x) : HeaderOk z' S x (s'.pages x) := by
  rw [hx]
  exact (hz.header x).congr ha Or.inl id

theorem mem_unlist {h j : ListHead} {x : PFN} (hp : p ∈ z.lists h) :
    x ∈ (z.unlist h p).lists j ↔ x ∈ z.lists j ∧ x ≠ p :=
  hz.repr.mem_update_erase hp

/-! ### The moves of the zone -/

theorem modify_held (hp : p ∈ z.held) (f : RawPage → RawPage)
    (hbuddy : ∀ r, (f r).flags.buddy = r.flags.buddy)
    (hpresent : ∀ r, (f r).flags.present = r.flags.present) :
    ZoneInv (s.modify p f) z S ∧ Frame s z (s.modify p f) z := by
  obtain ⟨⟨o, ho⟩, -⟩ := hz.wf.heldBlock p hp
  refine ⟨⟨hz.modify p f, hz.wf, fun x => ?_⟩, ⟨fun _ _ => Iff.rfl, fun x k hk => ?_,
    fun _ _ => rfl⟩⟩
  · by_cases hx : x = p
    · subst hx
      rw [PageArray.modify_pages_self]
      exact HeaderOk.of_held hz.wf hp ((hbuddy _).trans (hz.buddy_of_block ho))
        ((hpresent _).trans (hz.present_of_block ho))
    · rw [s.modify_pages_of_ne f hx]
      exact hz.header x
  · have hx : x ≠ p := fun h => hk.2.1 (h ▸ hp)
    exact s.modify_pages_of_ne f hx

theorem modify_live (hp : z.Live p o) (f : RawPage → RawPage) (horder : ∀ r, (f r).order = r.order)
    (hfree : ∀ r, (f r).flags.free = r.flags.free) (hbuddy : ∀ r, (f r).flags.buddy = r.flags.buddy)
    (hpresent : ∀ r, (f r).flags.present = r.flags.present) : ZoneInv (s.modify p f) z S := by
  refine ⟨hz.modify p f, hz.wf, fun x => ?_⟩
  by_cases hx : x = p
  · subst hx
    have hh := hz.header x
    rw [PageArray.modify_pages_self]
    refine ⟨?_, ?_, ?_, ?_, fun _ => ⟨⟨o, hp.1⟩, hp.2.2⟩, ?_, ?_⟩
    · rw [hfree]
      exact hh.free
    · rw [hbuddy]
      exact hh.buddy
    · rw [horder]
      exact hh.listedOrder
    · rw [horder]
      exact hh.liveOrder
    · rw [hpresent]
      exact hh.present
    · rw [horder]
      exact hh.fresh
  · rw [s.modify_pages_of_ne f hx]
    exact hz.header x

theorem take (hp : p ∈ z.lists (.freeArea o)) :
    ZoneInv (s.listRemove (.freeArea o) p) ((z.unlist (.freeArea o) p).hold p) S ∧
      Frame s z (s.listRemove (.freeArea o) p) ((z.unlist (.freeArea o) p).hold p) := by
  have hmem : ∀ h x, x ∈ ((z.unlist (.freeArea o) p).hold p).lists h ↔ x ∈ z.lists h ∧ x ≠ p :=
    fun h x => hz.mem_unlist hp
  have hblock : z.blocks p = some o := hz.wf.area o p hp
  have hagree : ∀ x, x ≠ p → AbsZone.AgreeAt z ((z.unlist (.freeArea o) p).hold p) x :=
    fun x hx => ⟨rfl, fun k => by simp [hmem, hx], by simp [AbsZone.hold, AbsZone.unlist, hx]⟩
  have hwf : ((z.unlist (.freeArea o) p).hold p).WellFormed S := by
    refine ⟨hz.wf.tiling, hz.wf.order_lt, ?_, ?_, ?_⟩
    · exact fun k x hx => hz.wf.area k x ((hmem _ x).mp hx).1
    · exact fun h x hx => hz.wf.isBlock h x ((hmem h x).mp hx).1
    · rintro x (rfl | hx)
      · exact ⟨⟨o, hblock⟩, fun h hh => ((hmem h x).mp hh).2 rfl⟩
      · exact ⟨(hz.wf.heldBlock x hx).1,
          fun h hh => (hz.wf.heldBlock x hx).2 h ((hmem h x).mp hh).1⟩
  have hheld : p ∈ ((z.unlist (.freeArea o) p).hold p).held := Set.mem_insert p _
  refine ⟨⟨hz.listRemove hp, hwf, fun x => ?_⟩,
    Frame.of_agree (fun x => ?_) fun h hh => ?_⟩
  · by_cases hx : x = p
    · subst hx
      exact HeaderOk.of_held hwf hheld (hz.buddy_of_block hblock) (hz.present_of_block hblock)
    · exact hz.header_of_agree (hagree x hx) rfl
  · by_cases hx : x = p
    · subst hx
      exact Or.inr ⟨fun k hk => hk.2.2 ⟨o, hp⟩, fun k hk => hk.2.1 hheld⟩
    · exact Or.inl ⟨hagree x hx, rfl⟩
  · exact update_of_ne (hh o) _ _

theorem put (hheld : p ∈ z.held) (hp : z.blocks p = some o)
    (horder : (s.pages p).order ≤ o) (href : (s.pages p).refcount = 0) :
    ZoneInv (FreeArea.addPages s o p) ((z.push (.freeArea o) p).release p) S ∧
      Frame s z (FreeArea.addPages s o p) ((z.push (.freeArea o) p).release p) := by
  have hunlisted := (hz.wf.heldBlock p hheld).2
  have hmem : ∀ h x, x ∈ ((z.push (.freeArea o) p).release p).lists h ↔
      (h = .freeArea o ∧ x = p) ∨ x ∈ z.lists h := fun h x => AbsZone.mem_push
  have hagree : ∀ x, x ≠ p → AbsZone.AgreeAt z ((z.push (.freeArea o) p).release p) x :=
    fun x hx => ⟨rfl, fun k => by simp [hmem, hx], by simp [AbsZone.release, AbsZone.push, hx]⟩
  have hpages : ∀ x, x ≠ p → (FreeArea.addPages s o p).pages x = s.pages x :=
    fun x hx => FreeArea.addPages_pages_of_ne s o hx
  have hlisted : ((z.push (.freeArea o) p).release p).Listed p :=
    ⟨o, (hmem _ p).mpr (Or.inl ⟨rfl, rfl⟩)⟩
  have hthreads : (FreeArea.addPages s o p).Threads ((z.push (.freeArea o) p).release p).lists :=
    (hz.modify p fun r => { r with flags := { r.flags with free := true } }).listInsert _ hunlisted
  refine ⟨⟨hthreads, ⟨hz.wf.tiling, hz.wf.order_lt, ?_, ?_, ?_⟩, fun x => ?_⟩,
    Frame.of_agree (fun x => ?_) fun h hh => ?_⟩
  · intro k x hx
    rcases (hmem _ x).mp hx with ⟨hk, rfl⟩ | hx
    · injection hk with hk
      rw [hk]
      exact hp
    · exact hz.wf.area k x hx
  · intro h x hx
    rcases (hmem h x).mp hx with ⟨-, rfl⟩ | hx
    · exact ⟨o, hp⟩
    · exact hz.wf.isBlock h x hx
  · rintro x ⟨hx, hxp⟩
    refine ⟨(hz.wf.heldBlock x hx).1, fun h hh => ?_⟩
    rcases (hmem h x).mp hh with ⟨-, h'⟩ | h'
    · exact hxp h'
    · exact (hz.wf.heldBlock x hx).2 h h'
  · by_cases hx : x = p
    · subst hx
      rw [FreeArea.addPages_pages_self]
      refine ⟨fun _ => iff_of_true rfl hlisted, (hz.header x).buddy, fun k hk => ?_,
        fun k hk => absurd hlisted hk.2.2, fun h => absurd href h, (hz.header x).present,
        (hz.header x).fresh⟩
      rcases (hmem _ x).mp hk with ⟨hk, -⟩ | hk
      · injection hk with hk
        rw [hk]
        exact horder
      · exact absurd hk (hunlisted _)
    · exact hz.header_of_agree (hagree x hx) (hpages x hx)
  · by_cases hx : x = p
    · subst hx
      exact Or.inr ⟨fun k hk => hk.2.1 hheld, fun k hk => hk.2.2 hlisted⟩
    · exact Or.inl ⟨hagree x hx, hpages x hx⟩
  · exact update_of_ne (hh o) _ _

theorem hold (hp : z.Live p o) (hunlisted : ∀ h, p ∉ z.lists h) :
    ZoneInv s (z.hold p) S := by
  have hagree : ∀ x, x ≠ p → AbsZone.AgreeAt z (z.hold p) x :=
    fun x hx => ⟨rfl, fun k => Iff.rfl, by simp [AbsZone.hold, hx]⟩
  have hwf : (z.hold p).WellFormed S := by
    refine ⟨hz.wf.tiling, hz.wf.order_lt, hz.wf.area, hz.wf.isBlock, ?_⟩
    rintro x (rfl | hx)
    · exact ⟨⟨o, hp.1⟩, hunlisted⟩
    · exact hz.wf.heldBlock x hx
  refine ⟨hz.toThreads, hwf, fun x => ?_⟩
  by_cases hx : x = p
  · subst hx
    exact HeaderOk.of_held hwf (Set.mem_insert x _) (hz.buddy_of_block hp.1)
      (hz.present_of_block hp.1)
  · exact hz.header_of_agree (hagree x hx) rfl

theorem release (hheld : p ∈ z.held) (hp : z.blocks p = some o)
    (horder : (s.pages p).order = o) (hfree : (s.pages p).flags.free = false) :
    ZoneInv s (z.release p) S := by
  have hagree : ∀ x, x ≠ p → AbsZone.AgreeAt z (z.release p) x :=
    fun x hx => ⟨rfl, fun k => Iff.rfl, by simp [AbsZone.release, hx]⟩
  have hunlisted := (hz.wf.heldBlock p hheld).2
  have hnl : ¬ (z.release p).Listed p := fun ⟨k, hk⟩ => hunlisted _ hk
  refine ⟨hz.toThreads, ⟨hz.wf.tiling, hz.wf.order_lt, hz.wf.area, hz.wf.isBlock,
    fun x hx => hz.wf.heldBlock x hx.1⟩, fun x => ?_⟩
  by_cases hx : x = p
  · subst hx
    refine ⟨fun _ => iff_of_false (by rw [hfree]; exact Bool.false_ne_true) hnl,
      (hz.header x).buddy, fun k hk => absurd ⟨k, hk⟩ hnl, fun k hk => ?_,
      fun _ => ⟨⟨o, hp⟩, hnl⟩, (hz.header x).present, (hz.header x).fresh⟩
    rw [horder]
    exact Option.some.inj (hp.symm.trans hk.1)
  · exact hz.header_of_agree (hagree x hx) rfl

theorem retile (s' : PageArray) (S' : PFN → Prop) (B : PFN → Option ℕ)
    (H : Set PFN) (T : PFN → Prop)
    (hlinks : s'.links = s.links) (hcount : s'.count = s.count)
    (hT : ∀ x, T x → x ∈ z.held ∨ z.blocks x = none)
    (hhead : ∀ x, T x → (s'.pages x).flags.present = true ∧
      ((x ∈ H ∧ (s'.pages x).flags.buddy = true ∧ ∃ o, B x = some o ∧ o < AREAS) ∨
        (x ∉ H ∧ B x = none ∧ S' x ∧ (s'.pages x).flags.buddy = false ∧
          (s'.pages x).flags.free = false ∧ (s'.pages x).refcount = 0)))
    (hrest : ∀ x, ¬ T x → B x = z.blocks x ∧ (x ∈ H ↔ x ∈ z.held) ∧ s'.pages x = s.pages x)
    (htile : Tiling B S') (hS : ∀ x, S x → S' x)
    (hS' : ∀ x, S' x → S x ∨ (s'.pages x).flags.present = true) :
    ZoneInv s' (z.retile B H) S' ∧ Frame s z s' (z.retile B H) := by
  have hlists : ∀ h x, T x → x ∉ z.lists h := by
    intro h x hx
    rcases hT x hx with hheld | hnone
    · exact (hz.wf.heldBlock x hheld).2 h
    · exact hz.not_mem_of_not_block hnone h
  have hagree : ∀ x, ¬ T x → AbsZone.AgreeAt z (z.retile B H) x :=
    fun x hx => ⟨(hrest x hx).1, fun _ => Iff.rfl, (hrest x hx).2.1⟩
  have hwf : (z.retile B H).WellFormed S' := by
    refine ⟨htile, fun x k hk => ?_, fun k x hx => ?_, fun h x hx => ?_, fun x hx => ?_⟩
    · by_cases hxT : T x
      · rcases (hhead x hxT).2 with ⟨-, -, o, ho, hlt⟩ | ⟨-, hnone, -⟩
        · rwa [← Option.some.inj (ho.symm.trans hk)]
        · exact nomatch hnone.symm.trans hk
      · exact hz.wf.order_lt x k ((hrest x hxT).1.symm.trans hk)
    · have hxT : ¬ T x := fun h => hlists _ x h hx
      exact (hrest x hxT).1.trans (hz.wf.area k x hx)
    · have hxT : ¬ T x := fun h' => hlists _ x h' hx
      obtain ⟨k, hk⟩ := hz.wf.isBlock h x hx
      exact ⟨k, (hrest x hxT).1.trans hk⟩
    · by_cases hxT : T x
      · rcases (hhead x hxT).2 with ⟨-, -, o, ho, -⟩ | ⟨hne, -⟩
        · exact ⟨⟨o, ho⟩, fun h => hlists h x hxT⟩
        · exact absurd hx hne
      · obtain ⟨⟨k, hk⟩, hl⟩ := hz.wf.heldBlock x ((hrest x hxT).2.1.mp hx)
        exact ⟨⟨k, (hrest x hxT).1.trans hk⟩, hl⟩
  refine ⟨⟨⟨by rw [hlinks]; exact hz.repr, by rw [hcount]; exact hz.count⟩, hwf, fun x => ?_⟩,
    Frame.of_agree (fun x => ?_) fun h hh => rfl⟩
  · by_cases hxT : T x
    · obtain ⟨hpres, ⟨hH, hbuddy, -⟩ | ⟨-, hnone, hSx, hbuddy, hfree, href⟩⟩ := hhead x hxT
      · exact HeaderOk.of_held hwf hH hbuddy hpres
      · have hnl : ¬ (z.retile B H).Listed x := fun ⟨k, hk⟩ => hlists _ x hxT hk
        refine ⟨fun _ => iff_of_false (by rw [hfree]; exact Bool.false_ne_true) hnl,
          iff_of_false (by rw [hbuddy]; exact Bool.false_ne_true) ?_,
          fun k hk => absurd ⟨k, hk⟩ hnl, fun k hk => (nomatch hnone.symm.trans hk.1),
          fun h => absurd href h, fun _ => hpres, fun h => absurd hSx h⟩
        rintro ⟨k, hk⟩
        exact nomatch hnone.symm.trans hk
    · have hx := (hrest x hxT).2.2
      have hpres := hS' x
      rw [hx] at hpres ⊢
      exact (hz.header x).congr (hagree x hxT) hpres (hS x)
  · by_cases hxT : T x
    · refine Or.inr ⟨fun k hk => ?_, fun k hk => ?_⟩
      · rcases hT x hxT with hheld | hnone
        · exact hk.2.1 hheld
        · exact nomatch hnone.symm.trans hk.1
      · rcases (hhead x hxT).2 with ⟨hH, -⟩ | ⟨-, hnone, -⟩
        · exact hk.2.1 hH
        · exact nomatch hnone.symm.trans hk.1
    · exact Or.inl ⟨hagree x hxT, (hrest x hxT).2.2⟩

/-! ### Lists of the users -/

theorem pushLocal (hp : z.Live p o) (hunlisted : ∀ j, p ∉ z.lists j)
    {h : ListHead} (hh : ∀ k, h ≠ .freeArea k) : ZoneInv (s.listInsert h p) (z.push h p) S := by
  have hagree := AbsZone.agreeAt_push hh z p
  refine ⟨hz.listInsert h hunlisted,
    ⟨hz.wf.tiling, hz.wf.order_lt, fun k x hx => ?_, fun j x hx => ?_, fun x hx => ?_⟩,
    fun x => hz.header_of_agree (hagree x) rfl⟩
  · exact hz.wf.area k x (((hagree x).lists k).mp hx)
  · rcases AbsZone.mem_push.mp hx with ⟨-, rfl⟩ | hx
    · exact ⟨o, hp.1⟩
    · exact hz.wf.isBlock j x hx
  · refine ⟨(hz.wf.heldBlock x hx).1, fun j hj => ?_⟩
    rcases AbsZone.mem_push.mp hj with ⟨-, rfl⟩ | hj
    · exact hp.2.1 hx
    · exact (hz.wf.heldBlock x hx).2 j hj

theorem unlistLocal {h : ListHead} (hp : p ∈ z.lists h)
    (hh : ∀ k, h ≠ .freeArea k) : ZoneInv (s.listRemove h p) (z.unlist h p) S := by
  have hagree := AbsZone.agreeAt_unlist hh z p
  refine ⟨hz.listRemove hp,
    ⟨hz.wf.tiling, hz.wf.order_lt, fun k x hx => ?_, fun j x hx => ?_, fun x hx => ?_⟩,
    fun x => hz.header_of_agree (hagree x) rfl⟩
  · exact hz.wf.area k x (((hagree x).lists k).mp hx)
  · exact hz.wf.isBlock j x ((hz.mem_unlist hp).mp hx).1
  · exact ⟨(hz.wf.heldBlock x hx).1,
      fun j hj => (hz.wf.heldBlock x hx).2 j ((hz.mem_unlist hp).mp hj).1⟩

end

end ZoneInv

end Dlutos
