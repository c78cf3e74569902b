import Dlutos.Buddy.Invariant

/-!
# What the operations of the buddy allocator do

Each operation returns, without panic, a page array that implements an abstract zone again, and the
live blocks differ only by the block that is handed out or given back.  `buddyCheck` compares the
stored order of a free page, which may be smaller than its true order, with that of the freed block.
-/

namespace Dlutos

open DyadicTiling MachineWord Function

variable {s : PageArray} {z : AbsZone} {S : PFN → Prop} {p : PFN} {o : ℕ}

/-! ### Allocation -/

theorem ZoneInv.split (hz : ZoneInv s z S) (hheld : p ∈ z.held) (hp : z.blocks p = some (o + 1)) :
    ∃ s' z', s' = FreeArea.addPages ((s.setOrder (p + 2 ^ o) o).setBuddy (p + 2 ^ o)) o (p + 2 ^ o) ∧
      ZoneInv s' z' S ∧ Frame s z s' z' ∧ z'.held = z.held ∧ z'.blocks p = some o ∧
      s'.pages p = s.pages p := by
  have hne : p ≠ p + 2 ^ o := (Nat.lt_add_of_pos_right (Nat.two_pow_pos o)).ne
  have hin : InBlock p (o + 1) (p + 2 ^ o) := inBlock_succ.mpr (Or.inr (inBlock_self _ o))
  have hS : S (p + 2 ^ o) := hz.wf.tiling.mem_of_inBlock hp hin
  have hnone := hz.wf.tiling.eq_none_of_interior hp hin hne
  have htile := hz.wf.tiling.split hp
  have hlt : o < AREAS := Nat.lt_of_succ_lt (hz.wf.order_lt p (o + 1) hp)
  generalize p + 2 ^ o = q at *
  have hqheld : q ∉ z.held := by
    intro hq
    obtain ⟨⟨k, hk⟩, -⟩ := hz.wf.heldBlock q hq
    exact nomatch hnone.symm.trans hk
  have hpages : ∀ x, x ≠ q → ((s.setOrder q o).setBuddy q).pages x = s.pages x := fun x hx => by
    simp [PageArray.setBuddy, PageArray.setOrder, PageArray.modify_pages, hx]
  have hpage : ((s.setOrder q o).setBuddy q).pages q =
      { s.pages q with order := o, flags := { (s.pages q).flags with buddy := true } } := by
    simp [PageArray.setBuddy, PageArray.setOrder]
  obtain ⟨hz1, hf1⟩ := hz.retile ((s.setOrder q o).setBuddy q) S _ (insert q z.held)
    (fun x => x = p ∨ x = q) rfl rfl
    (by
      rintro x (rfl | rfl)
      · exact Or.inl hheld
      · exact Or.inr hnone)
    (by
      rintro x (rfl | rfl)
      · rw [hpages x hne]
        refine ⟨hz.present_of_block hp, Or.inl ⟨Or.inr hheld, hz.buddy_of_block hp, o, ?_, hlt⟩⟩
        rw [update_of_ne hne, update_self]
      · rw [hpage]
        refine ⟨(hz.header x).present hS, Or.inl ⟨Or.inl rfl, rfl, o, ?_, hlt⟩⟩
        rw [update_self])
    (by
      intro x hx
      rw [not_or] at hx
      refine ⟨?_, ?_, hpages x hx.2⟩
      · rw [update_of_ne hx.2, update_of_ne hx.1]
      · simp [hx.2])
    htile (fun _ h => h) (fun _ h => Or.inl h)
  obtain ⟨hz2, hf2⟩ := hz1.put (p := q) (o := o) (Set.mem_insert q _) (update_self _ _ _)
    (by rw [hpage]) (by rw [hpage]; exact hz.refcount_of_not_block hnone)
  refine ⟨_, _, rfl, hz2, hf1.trans hf2, ?_, ?_, ?_⟩
  · exact Set.insert_sdiff_self_of_notMem hqheld
  · exact (update_of_ne hne _ _).trans (update_self _ _ _)
  · rw [FreeArea.addPages_pages_of_ne _ _ hne, hpages p hne]

theorem ZoneInv.expandLoop {target : ℕ} (n : ℕ) :
    ∀ {s : PageArray} {z : AbsZone}, ZoneInv s z S → p ∈ z.held →
      z.blocks p = some (target + n) →
      ∃ z', ZoneInv (Zone.expandLoop p target n (1 <<< (target + n)) s) z' S ∧
        Frame s z (Zone.expandLoop p target n (1 <<< (target + n)) s) z' ∧ z'.held = z.held ∧
        z'.blocks p = some target ∧
        (Zone.expandLoop p target n (1 <<< (target + n)) s).pages p = s.pages p := by
  induction n with
  | zero =>
    intro s z hz _ hp
    exact ⟨z, hz, Frame.refl s z, rfl, hp, rfl⟩
  | succ n ih =>
    intro s z hz hheld hp
    obtain ⟨s1, z1, hs1, hz1, hf1, hheld1, hp1, hpage1⟩ := hz.split (o := target + n) hheld hp
    obtain ⟨z2, hz2, hf2, hheld2, hp2, hpage2⟩ := ih hz1 (hheld1 ▸ hheld) hp1
    have hhalf : 1 <<< (target + (n + 1)) >>> 1 = 1 <<< (target + n) := by
      rw [← Nat.add_assoc, Nat.shiftLeft_succ, Nat.shiftRight_eq_div_pow]
      omega
    have hpow : 1 <<< (target + n) = 2 ^ (target + n) := by rw [Nat.shiftLeft_eq, one_mul]
    have hstep : Zone.expandLoop p target (n + 1) (1 <<< (target + (n + 1))) s =
        Zone.expandLoop p target n (1 <<< (target + n)) s1 := by
      rw [Zone.expandLoop, hhalf, hs1, hpow]
    rw [hstep]
    exact ⟨z2, hz2, hf1.trans hf2, hheld2.trans hheld1, hp2, hpage2.trans hpage1⟩

theorem ZoneInv.areaGetFreePages (hz : ZoneInv s z S) (o : ℕ) :
    FreeArea.getFreePages s o = .ok (none, s) ∨
      ∃ p, p ∈ z.lists (.freeArea o) ∧
        FreeArea.getFreePages s o = .ok (some p, s.listRemove (.freeArea o) p) := by
  have hnext := hz.listHead (.freeArea o)
  have hcount := hz.count (.freeArea o)
  unfold FreeArea.getFreePages
  cases hl : z.lists (.freeArea o) with
  | nil =>
    rw [hl] at hnext
    left
    rw [hnext]
    rfl
  | cons p rest =>
    rw [hl] at hnext hcount
    right
    refine ⟨p, List.mem_cons_self, ?_⟩
    rw [hnext]
    simp [hcount, PageArray.fromLink, LinkRef.container]

theorem ZoneInv.getFreePagesLoop (hz : ZoneInv s z S) (n : ℕ) :
    ∀ current, o ≤ current →
      Zone.getFreePagesLoop s o n current = .ok (none, s) ∨
      ∃ p s' z', Zone.getFreePagesLoop s o n current = .ok (some p, s') ∧ ZoneInv s' z' S ∧
        Frame s z s' z' ∧ z.Listed p ∧ z'.held = insert p z.held ∧ z'.blocks p = some o ∧
        (s'.pages p).order = o ∧ (s'.pages p).refcount = 0 := by
  induction n with
  | zero => exact fun _ _ => Or.inl rfl
  | succ n ih =>
    intro current hle
    unfold Zone.getFreePagesLoop
    rcases hz.areaGetFreePages current with hnone | ⟨p, hp, hsome⟩
    · rw [hnone]
      exact ih (current + 1) (Nat.le_succ_of_le hle)
    · right
      rw [hsome]
      have hlisted : z.Listed p := ⟨current, hp⟩
      have hfree : (s.pages p).flags.free = true :=
        ((hz.header p).free (hz.not_held_of_mem hp)).mpr hlisted
      obtain ⟨hz1, hf1⟩ := hz.take hp
      have hheld1 : p ∈ ((z.unlist (.freeArea current) p).hold p).held := Set.mem_insert p _
      obtain ⟨hz2, hf2⟩ := hz1.modify_held hheld1 (fun r => { r with order := o })
        (fun _ => rfl) (fun _ => rfl)
      have hblock : z.blocks p = some (o + (current - o)) := by
        rw [Nat.add_sub_cancel' hle]
        exact hz.wf.area current p hp
      obtain ⟨z', hz', hf', hheld', hp', hpage'⟩ :=
        hz2.expandLoop (current - o) hheld1 hblock
      -- for a block of the wanted order the loop of `expand` has nothing to do
      have hexpand : (if o < current then
            Zone.expand ((s.listRemove (.freeArea current) p).setOrder p o) p current o
          else (s.listRemove (.freeArea current) p).setOrder p o) =
          Zone.expandLoop p o (current - o) (1 <<< (o + (current - o)))
            ((s.listRemove (.freeArea current) p).setOrder p o) := by
        rw [Nat.add_sub_cancel' hle]
        split_ifs with hlt
        · rfl
        · rw [Nat.sub_eq_zero_of_le (Nat.le_of_not_lt hlt), Zone.expandLoop]
      have hpage : (Zone.expandLoop p o (current - o) (1 <<< (o + (current - o)))
          ((s.listRemove (.freeArea current) p).setOrder p o)).pages p =
          { s.pages p with order := o } := by
        rw [PageArray.setOrder, hpage', PageArray.modify_pages_self, PageArray.listRemove_pages]
      refine ⟨p, _, z', ?_, hz', (hf1.trans hf2).trans hf', hlisted, hheld', hp', ?_, ?_⟩
      · dsimp only
        rw [hexpand, hpage, if_neg, if_neg]
        · rfl
        · simp [hfree]
        · simp [hz.present_of_block (hz.wf.area current p hp)]
      · exact congrArg RawPage.order hpage
      · exact (congrArg RawPage.refcount hpage).trans (hz.refcount_of_listed hlisted)

/-- The block of order `o` at `p` became live, with one reference, and nothing else changed for the
users. -/
structure Allocated (s : PageArray) (z : AbsZone) (s' : PageArray) (z' : AbsZone) (p : PFN)
    (o : ℕ) : Prop where
  listed : z.Listed p
  unlisted : ∀ h, p ∉ z'.lists h
  live : ∀ x k, z'.Live x k ↔ z.Live x k ∨ (x = p ∧ k = o)
  pages : ∀ x k, z.Live x k → s'.pages x = s.pages x
  refcount : (s'.pages p).refcount = 1
  lists : ∀ h, (∀ k, h ≠ .freeArea k) → z'.lists h = z.lists h

theorem ZoneInv.allocOrder (hz : ZoneInv s z S) (hheld : z.held = ∅) (o : ℕ) :
    BuddyAllocator.allocOrder s o = .ok (none, s) ∨
      ∃ p s' z', BuddyAllocator.allocOrder s o = .ok (some p, s') ∧ ZoneInv s' z' S ∧
        z'.held = ∅ ∧ Allocated s z s' z' p o := by
  unfold BuddyAllocator.allocOrder Zone.getFreePages
  rcases hz.getFreePagesLoop (AREAS - o) o le_rfl with
    hnone | ⟨p, s1, z1, hsome, hz1, hf1, hlisted, hheld1, hp1, horder, href⟩
  · rw [hnone]
    exact Or.inl rfl
  · right
    rw [hsome]
    rw [hheld] at hheld1
    have hmem : p ∈ z1.held := by rw [hheld1]; exact Set.mem_insert p ∅
    have hout := (hz1.wf.heldBlock p hmem).2
    have hdead : ∀ k, ¬ z.Live p k := fun k hk => hk.2.2 hlisted
    obtain ⟨hz2, hf2⟩ := hz1.modify_held hmem
      (fun r => { r with refcount := (s1.pages p).refcount + 1 })
      (fun _ => rfl) (fun _ => rfl)
    obtain ⟨hz3, hf3⟩ := hz2.modify_held hmem
      (fun r => { r with flags := { r.flags with free := false } })
      (fun _ => rfl) (fun _ => rfl)
    have hf := (hf1.trans hf2).trans hf3
    have hz4 := hz3.release hmem hp1 (by simp [horder]) (by simp)
    refine ⟨p, _, z1.release p, rfl, hz4, ?_, hlisted, hout, fun x k => ?_, hf.pages, ?_,
      hf.lists⟩
    · rw [AbsZone.release, hheld1]
      simp
    · rw [← hf.live]
      by_cases hx : x = p
      · subst hx
        have hnl : ¬ (z1.release x).Listed x := by
          rintro ⟨j, hj⟩
          exact hout _ hj
        have hout' : x ∉ (z1.release x).held := fun h => h.2 rfl
        rw [AbsZone.Live, AbsZone.Live]
        simp only [hmem, hnl, hout', not_true, not_false_iff, false_and, and_false, and_true,
          false_or, true_and]
        exact ⟨fun h => Option.some.inj (h.symm.trans hp1), fun h => h ▸ hp1⟩
      · simp [hx, AbsZone.Live, AbsZone.release, AbsZone.Listed]
    · simp [PageArray.clearFree, PageArray.setRefcount, href]

/-! ### Deallocation -/

theorem ZoneInv.buddyCheck (hz : ZoneInv s z S) (hheld : z.held = {p}) (hp : z.blocks p = some o) :
    Zone.buddyCheck s (buddyPfn p o) o = .ok false ∨
      (Zone.buddyCheck s (buddyPfn p o) o = .ok true ∧
        buddyPfn p o ∈ z.lists (.freeArea o)) := by
  have hal : 2 ^ o ∣ p := hz.wf.tiling.aligned p o hp
  have hne : buddyPfn p o ≠ p := by
    rw [buddyPfn_eq]
    exact buddy_ne hal
  unfold Zone.buddyCheck
  split_ifs with hpres hfree horder href
  · exact Or.inl rfl
  · exact Or.inl rfl
  · exact Or.inl rfl
  · rw [Bool.not_eq_false] at hfree
    have hlisted := ((hz.header _).free (by rw [hheld]; exact hne)).mp hfree
    exact absurd (hz.refcount_of_listed hlisted) href
  · rw [Bool.not_eq_false] at hfree
    rw [not_not] at horder
    obtain ⟨k, hk⟩ := ((hz.header _).free (by rw [hheld]; exact hne)).mp hfree
    have hB := hz.wf.area k _ hk
    have hle : o ≤ k := horder ▸ (hz.header _).listedOrder k hk
    refine Or.inr ⟨rfl, ?_⟩
    rcases hle.eq_or_lt with rfl | hlt
    · exact hk
    · -- the larger block at the buddy would contain the block in hand
      have hin : InBlock (buddyPfn p o) k p := by
        rw [buddyPfn_eq] at hB ⊢
        exact inBlock_of_buddy_aligned hal hlt (hz.wf.tiling.aligned _ k hB)
      exact absurd (hz.wf.tiling.head_eq hB hp hin) hne

theorem ZoneInv.mergeBuddy (hz : ZoneInv s z S) (hheld : z.held = {p}) (hp : z.blocks p = some o)
    (hlt : o + 1 < AREAS) (hq : buddyPfn p o ∈ z.lists (.freeArea o))
    (hfree : (s.pages p).flags.free = false) (href : (s.pages p).refcount = 0) :
    ∃ s1 s' z', FreeArea.delPages ((s.clearBuddy p).clearBuddy (buddyPfn p o)) o (buddyPfn p o) =
        .ok s1 ∧ s' = s1.setBuddy (combinedPfn p (buddyPfn p o)) ∧ ZoneInv s' z' S ∧
      Frame s z s' z' ∧ z'.held = {combinedPfn p (buddyPfn p o)} ∧
      z'.blocks (combinedPfn p (buddyPfn p o)) = some (o + 1) ∧
      (s'.pages (combinedPfn p (buddyPfn p o))).flags.free = false ∧
      (s'.pages (combinedPfn p (buddyPfn p o))).refcount = 0 := by
  have hal : 2 ^ o ∣ p := hz.wf.tiling.aligned p o hp
  have hqo : z.blocks (buddyPfn p o) = some o := hz.wf.area o _ hq
  have hne : buddyPfn p o ≠ p := by
    rw [buddyPfn_eq]
    exact buddy_ne hal
  have htile : Tiling (update (update (update z.blocks p none)
      (buddyPfn p o) none) (combinedPfn p (buddyPfn p o)) (some (o + 1))) S := by
    rw [combinedPfn, buddyPfn_eq]
    rw [buddyPfn_eq] at hqo
    exact hz.wf.tiling.merge hp hqo
  have hm : combinedPfn p (buddyPfn p o) = p ∨ combinedPfn p (buddyPfn p o) = buddyPfn p o := by
    rw [combinedPfn, buddyPfn_eq]
    exact (buddy_cases hal).imp (fun h => h.2.2) fun h => h.2.2
  generalize combinedPfn p (buddyPfn p o) = m at *
  generalize buddyPfn p o = q at *
  have hqfree : (s.pages q).flags.free = true :=
    ((hz.header q).free (hz.not_held_of_mem hq)).mpr ⟨o, hq⟩
  have hqref := hz.refcount_of_listed ⟨o, hq⟩
  have hcount : 1 ≤ s.count (.freeArea o) := by
    rw [hz.count]
    exact List.length_pos_of_mem hq
  have hdel : FreeArea.delPages ((s.clearBuddy p).clearBuddy q) o q =
      .ok ((((s.clearBuddy p).clearBuddy q).clearFree q).listRemove (.freeArea o) q) := by
    refine if_pos ⟨hcount, ?_⟩
    simp [PageArray.clearBuddy, PageArray.modify_pages, hne, hqfree]
  obtain ⟨s', hs'⟩ : ∃ s', s' =
      ((((s.clearBuddy p).clearBuddy q).clearFree q).listRemove (.freeArea o) q).setBuddy m :=
    ⟨_, rfl⟩
  have hpages : ∀ x, x ≠ p → x ≠ q → s'.pages x = s.pages x := by
    intro x hxp hxq
    have hxm : x ≠ m := by
      rcases hm with h | h <;> rw [h] <;> assumption
    simp [hs', PageArray.setBuddy, PageArray.clearFree, PageArray.clearBuddy,
      PageArray.modify_pages, hxp, hxq, hxm]
  have hpagep : s'.pages p =
      { s.pages p with flags := { (s.pages p).flags with buddy := decide (p = m) } } := by
    by_cases hpm : p = m
    · simp [hs', PageArray.setBuddy, PageArray.clearFree, PageArray.clearBuddy,
        PageArray.modify_pages, hne.symm, ← hpm]
    · simp [hs', PageArray.setBuddy, PageArray.clearFree, PageArray.clearBuddy,
        PageArray.modify_pages, hne.symm, hpm]
  have hpageq : s'.pages q =
      { s.pages q with
        flags := { (s.pages q).flags with free := false, buddy := decide (q = m) } } := by
    by_cases hqm : q = m
    · simp [hs', PageArray.setBuddy, PageArray.clearFree, PageArray.clearBuddy,
        PageArray.modify_pages, hne, ← hqm]
    · simp [hs', PageArray.setBuddy, PageArray.clearFree, PageArray.clearBuddy,
        PageArray.modify_pages, hne, hqm]
  obtain ⟨hz1, hf1⟩ := hz.take hq
  have hz₁held : ((z.unlist (.freeArea o) q).hold q).held = {q, p} := by
    rw [AbsZone.hold, AbsZone.unlist, hheld]
  obtain ⟨hz2, hf2⟩ := hz1.retile s' S _ {m} (fun x => x = p ∨ x = q)
    (by rw [hs']; rfl) (by rw [hs']; rfl)
    (by
      intro x hx
      rw [hz₁held]
      exact Or.inl hx.symm)
    (by
      -- the head of the joined block is one of the two, the other one is no head any more
      have hcase : ∀ x, (x = p ∨ x = q) → x ≠ m → update (update
          (update z.blocks p none) q none) m (some (o + 1)) x = none := by
        intro x hx hxm
        rw [update_of_ne hxm]
        rcases hx with rfl | rfl
        · rw [update_of_ne hne.symm, update_self]
        · rw [update_self]
      intro x hx
      have hSx : S x := by
        rcases hx with rfl | rfl
        · exact hz.wf.tiling.mem_of_inBlock hp (inBlock_self x o)
        · exact hz.wf.tiling.mem_of_inBlock hqo (inBlock_self x o)
      have hfacts : (s'.pages x).flags.present = true ∧ (s'.pages x).flags.free = false ∧
          (s'.pages x).refcount = 0 ∧ (s'.pages x).flags.buddy = decide (x = m) := by
        rcases hx with rfl | rfl
        · rw [hpagep]
          exact ⟨hz.present_of_block hp, hfree, href, rfl⟩
        · rw [hpageq]
          exact ⟨hz.present_of_block hqo, rfl, hqref, rfl⟩
      obtain ⟨hpres, hfree', href', hbuddy⟩ := hfacts
      refine ⟨hpres, ?_⟩
      by_cases hxm : x = m
      · refine Or.inl ⟨hxm, by simpa [hxm] using hbuddy, o + 1, ?_, hlt⟩
        rw [hxm, update_self]
      · exact Or.inr ⟨hxm, hcase x hx hxm, hSx, by simpa [hxm] using hbuddy, hfree', href'⟩)
    (by
      intro x hx
      rw [not_or] at hx
      have hxm : x ≠ m := by
        rcases hm with h | h <;> rw [h] <;> exact fun h => by simp_all
      refine ⟨?_, ?_, hpages x hx.1 hx.2⟩
      · rw [update_of_ne hxm, update_of_ne hx.2, update_of_ne hx.1]
        rfl
      · rw [hz₁held]
        simp [hxm, hx.1, hx.2])
    htile (fun _ h => h) (fun _ h => Or.inl h)
  refine ⟨_, s', _, hdel, hs', hz2, hf1.trans hf2, rfl, update_self _ _ _, ?_, ?_⟩
  · rcases hm with h | h
    · rw [h, hpagep]
      exact hfree
    · rw [h, hpageq]
  · rcases hm with h | h
    · rw [h, hpagep]
      exact href
    · rw [h, hpageq]
      exact hqref

theorem ZoneInv.freePagesLoop (n : ℕ) :
    ∀ {s : PageArray} {z : AbsZone} {p : PFN} {o : ℕ}, ZoneInv s z S → z.held = {p} →
      z.blocks p = some o → (s.pages p).flags.free = false → (s.pages p).refcount = 0 →
      o + n < AREAS →
      ∃ s' z' m k, Zone.freePagesLoop n s p o = .ok (s', m, k) ∧ ZoneInv s' z' S ∧
        Frame s z s' z' ∧ z'.held = {m} ∧ z'.blocks m = some k ∧ k < AREAS ∧
        (s'.pages m).refcount = 0 := by
  induction n with
  | zero =>
    intro s z p o hz hheld hp _ href hlt
    exact ⟨s, z, p, o, rfl, hz, Frame.refl s z, hheld, hp, hlt, href⟩
  | succ n ih =>
    intro s z p o hz hheld hp hfree href hlt
    unfold Zone.freePagesLoop
    dsimp only
    rcases hz.buddyCheck hheld hp with hno | ⟨hyes, hq⟩
    · rw [hno]
      exact ⟨s, z, p, o, rfl, hz, Frame.refl s z, hheld, hp, by omega, href⟩
    · obtain ⟨s1, s2, z2, hdel, hs2, hz2, hf2, hheld2, hp2, hfree2, href2⟩ :=
        hz.mergeBuddy hheld hp (by omega) hq hfree href
      rw [hyes]
      dsimp only
      rw [hdel]
      dsimp only
      rw [← hs2]
      obtain ⟨s3, z3, m, k, hloop, hz3, hf3, hrest⟩ :=
        ih hz2 hheld2 hp2 hfree2 href2 (by omega)
      exact ⟨s3, z3, m, k, hloop, hz3, hf2.trans hf3, hrest⟩

/-- The live block at `p` was given back, and nothing else changed for the users. -/
structure Freed (s : PageArray) (z : AbsZone) (s' : PageArray) (z' : AbsZone) (p : PFN) :
    Prop where
  live : ∀ x k, z'.Live x k ↔ z.Live x k ∧ x ≠ p
  pages : ∀ x k, z.Live x k → x ≠ p → s'.pages x = s.pages x
  lists : ∀ h, (∀ k, h ≠ .freeArea k) → z'.lists h = z.lists h

theorem ZoneInv.dealloc (hz : ZoneInv s z S) (hheld : z.held = ∅) (hp : z.Live p o)
    (hunlisted : ∀ h, p ∉ z.lists h) (href : (s.pages p).refcount = 0) :
    ∃ s' z', BuddyAllocator.dealloc s p = .ok s' ∧ ZoneInv s' z' S ∧ z'.held = ∅ ∧
      Freed s z s' z' p := by
  have hpres := hz.present_of_block hp.1
  have hfree : (s.pages p).flags.free = false := by
    rw [← Bool.not_eq_true, (hz.header p).free hp.2.1]
    exact hp.2.2
  have horder : (s.pages p).order = o := (hz.header p).liveOrder o hp
  have hlt := hz.wf.order_lt p o hp.1
  have hz1 := hz.hold hp hunlisted
  have hheld1 : (z.hold p).held = {p} := by
    rw [AbsZone.hold, hheld]
    exact insert_empty_eq p
  obtain ⟨s2, z2, m, k, hloop, hz2, hf2, hheld2, hm2, hk, href2⟩ :=
    hz1.freePagesLoop (AREAS - 1 - o) hheld1 hp.1 hfree href (by omega)
  have hmem : m ∈ z2.held := by
    rw [hheld2]
    rfl
  obtain ⟨hz3, hf3⟩ := hz2.modify_held hmem (fun r => { r with order := k })
    (fun _ => rfl) (fun _ => rfl)
  obtain ⟨hz4, hf4⟩ := hz3.put hmem hm2 (by simp) (by simp [href2])
  have hf := (hf2.trans hf3).trans hf4
  have hlive : ∀ x j, (z.hold p).Live x j ↔ z.Live x j ∧ x ≠ p := by
    intro x j
    simp only [AbsZone.Live, AbsZone.hold, AbsZone.Listed, Set.mem_insert_iff, not_or]
    tauto
  refine ⟨_, _, ?_, hz4, ?_, ?_, ?_, hf.lists⟩
  · unfold BuddyAllocator.dealloc Zone.freePages
    rw [if_neg (not_not.mpr href), if_neg (by simp [hpres]), if_neg (by simp [hfree]), horder,
      hloop]
    exact if_pos hk
  · simp [AbsZone.release, AbsZone.push, hheld2]
  · exact fun x j => (hf.live x j).trans (hlive x j)
  · exact fun x j hx hne => hf.pages x j ((hlive x j).mpr ⟨hx, hne⟩)

/-! ### Creation -/

theorem zoneInv_emptyArray (present : PFN → Bool) :
    ZoneInv (emptyArray present) ⟨fun _ => [], fun _ => none, ∅⟩ fun _ => False where
  wf := ⟨Tiling.empty, fun _ _ h => (nomatch h), fun _ _ h => absurd h List.not_mem_nil,
    fun _ _ h => absurd h List.not_mem_nil, fun _ h => absurd h (Set.notMem_empty _)⟩
  toThreads := threads_emptyArray present
  header p := by
    have hnl : p ∉ ([] : List PFN) := List.not_mem_nil
    exact ⟨fun _ => iff_of_false Bool.false_ne_true fun ⟨_, ho⟩ => hnl ho,
      iff_of_false Bool.false_ne_true fun ⟨_, ho⟩ => (nomatch ho), fun _ ho => absurd ho hnl,
      fun _ ho => (nomatch ho.1), fun h => absurd rfl h, False.elim, fun _ => rfl⟩

theorem ZoneInv.addBlock (hz : ZoneInv s z S) (hheld : z.held = ∅) (hal : 2 ^ o ∣ p)
    (hlt : o < AREAS) (hnew : ∀ x, InBlock p o x → ¬ S x)
    (hpresent : ∀ x, InBlock p o x → (s.pages x).flags.present = true) :
    ∃ z', ZoneInv (FreeArea.addPages (s.setBuddy p) o p) z' (fun x => S x ∨ InBlock p o x) ∧
      Frame s z (FreeArea.addPages (s.setBuddy p) o p) z' ∧ z'.held = ∅ := by
  have hnone := hz.wf.tiling.eq_none_of_not_mem (hnew p (inBlock_self p o))
  have hpages : ∀ x, x ≠ p → (s.setBuddy p).pages x = s.pages x :=
    fun x hx => s.modify_pages_of_ne _ hx
  have hpage : (s.setBuddy p).pages p =
      { s.pages p with flags := { (s.pages p).flags with buddy := true } } :=
    s.modify_pages_self p _
  have hkeep : ∀ x, ((s.setBuddy p).pages x).flags.present = (s.pages x).flags.present := by
    intro x
    by_cases hx : x = p
    · rw [hx, hpage]
    · rw [hpages x hx]
  obtain ⟨hz1, hf1⟩ := hz.retile (s.setBuddy p) (fun x => S x ∨ InBlock p o x) _ {p}
    (fun x => x = p) rfl rfl
    (by
      rintro x rfl
      exact Or.inr hnone)
    (by
      rintro x rfl
      rw [hpage]
      exact ⟨hpresent x (inBlock_self x o),
        Or.inl ⟨rfl, rfl, o, update_self _ _ _, hlt⟩⟩)
    (by
      intro x hx
      exact ⟨update_of_ne hx _ _, by simp [hx, hheld], hpages x hx⟩)
    (hz.wf.tiling.insert hal hnew) (fun _ h => Or.inl h)
    (fun x h => h.imp_right fun hx => (hkeep x).trans (hpresent x hx))
  have hmem : p ∈ ({p} : Set PFN) := rfl
  obtain ⟨hz2, hf2⟩ := hz1.put hmem (update_self _ _ _)
    (by rw [hpage, (hz.header p).fresh (hnew p (inBlock_self p o))]; exact Nat.zero_le o)
    (by rw [hpage]; exact hz.refcount_of_not_block hnone)
  exact ⟨_, hz2, hf1.trans hf2, by simp [AbsZone.release, AbsZone.push, AbsZone.retile]⟩

theorem Zone.fitOrder_spec {start last : PFN} (h : start < last) (o : ℕ) :
    ∃ k, Zone.fitOrder start last o = .ok k ∧ k ≤ o ∧ start + 2 ^ k ≤ last := by
  induction o with
  | zero =>
    refine ⟨0, if_neg ?_, le_rfl, h⟩
    exact Nat.not_lt.mpr h
  | succ o ih =>
    unfold Zone.fitOrder
    split_ifs with hlt
    · obtain ⟨k, hk, hle, hfit⟩ := ih
      exact ⟨k, hk, Nat.le_succ_of_le hle, hfit⟩
    · refine ⟨o + 1, rfl, le_rfl, ?_⟩
      rw [Nat.shiftLeft_eq, one_mul] at hlt
      exact Nat.le_of_not_lt hlt

/-- What `Zone::create_pages` does with the block of order `b.2` at `b.1`. -/
def Zone.createBlock (s : PageArray) (b : ℕ × ℕ) : PageArray :=
  FreeArea.addPages (s.setBuddy b.1) b.2 b.1

/-- Blocks aligned to their size follow each other from `start` to `last`. -/
def Consecutive (last : ℕ) : ℕ → List (ℕ × ℕ) → Prop
  | start, [] => last ≤ start
  | start, b :: blocks => b.1 = start ∧ 2 ^ b.2 ∣ start ∧ b.2 ≤ MAX_ORDER ∧
    start + 2 ^ b.2 ≤ last ∧ Consecutive last (start + 2 ^ b.2) blocks

/-- The loop adds such blocks, if it may take as many steps as there are frames. -/
theorem Zone.createPagesLoop_eq (last start : ℕ) : ∃ blocks, Consecutive last start blocks ∧
    ∀ n s, last ≤ start + n →
      Zone.createPagesLoop last n start s = .ok (blocks.foldl Zone.createBlock s) := by
  induction hd : last - start using Nat.strong_induction_on generalizing start with
  | _ d ih =>
    by_cases hlt : start < last
    · obtain ⟨o, ho, hle, hfit⟩ :=
        Zone.fitOrder_spec hlt (min (trailingZeros start) (AREAS - 1))
      have hal : 2 ^ o ∣ start :=
        (pow_dvd_pow 2 (hle.trans (min_le_left _ _))).trans (pow_trailingZeros_dvd start)
      have hpos : 0 < 2 ^ o := Nat.two_pow_pos o
      obtain ⟨blocks, hblocks, hloop⟩ := ih (last - (start + 2 ^ o)) (by omega) (start + 2 ^ o) rfl
      refine ⟨(start, o) :: blocks, ⟨rfl, hal, hle.trans (min_le_right _ _), hfit, hblocks⟩, ?_⟩
      intro n s hn
      cases n with
      | zero => exact absurd hlt (Nat.not_lt.mpr hn)
      | succ n =>
        unfold Zone.createPagesLoop
        rw [if_pos hlt, ho]
        dsimp only
        rw [Nat.shiftLeft_eq, one_mul]
        exact hloop n _ (by omega)
    · refine ⟨[], Nat.le_of_not_lt hlt, fun n s _ => ?_⟩
      cases n with
      | zero => rfl
      | succ n => exact if_neg hlt

theorem ZoneInv.createBlocks {last : ℕ} {blocks : List (ℕ × ℕ)} :
    ∀ {s : PageArray} {z : AbsZone} {S : ℕ → Prop} {start : ℕ}, ZoneInv s z S → z.held = ∅ →
      Consecutive last start blocks → (∀ x, start ≤ x → x < last → ¬ S x) →
      (∀ x, start ≤ x → x < last → (s.pages x).flags.present = true) →
      ∃ z', ZoneInv (blocks.foldl Zone.createBlock s) z'
          (fun x : ℕ => S x ∨ (start ≤ x ∧ x < last)) ∧
        z'.held = ∅ ∧ Frame s z (blocks.foldl Zone.createBlock s) z' := by
  induction blocks with
  | nil =>
    intro s z S start hz hheld hend _ _
    refine ⟨z, hz.congr_created fun x => ?_, hheld, Frame.refl s z⟩
    exact ⟨Or.inl, fun h => h.elim id fun h => absurd (h.1.trans_lt h.2) (Nat.not_lt.mpr hend)⟩
  | cons b blocks ih =>
    obtain ⟨p, o⟩ := b
    rintro s z S start hz hheld ⟨hp, hal, hmax, hfit, hblocks⟩ hnew hpresent
    obtain rfl : p = start := hp
    dsimp only at hal hmax hfit hblocks
    obtain ⟨z1, hz1, hf1, hheld1⟩ := hz.addBlock hheld hal (Nat.lt_succ_of_le hmax)
      (fun x hx => hnew x hx.1 (hx.2.trans_le hfit))
      (fun x hx => hpresent x hx.1 (hx.2.trans_le hfit))
    have hpos : 0 < 2 ^ o := Nat.two_pow_pos o
    obtain ⟨z2, hz2, hheld2, hf2⟩ := ih hz1 hheld1 hblocks
      (fun x hx hxl hS => hS.elim (hnew x ((Nat.le_add_right _ _).trans hx) hxl)
        fun h => absurd h.2 (Nat.not_lt.mpr hx))
      (fun x hx hxl => by
        have hne : x ≠ p := ((Nat.lt_add_of_pos_right hpos).trans_le hx).ne'
        rw [FreeArea.addPages_pages_of_ne _ _ hne, PageArray.setBuddy, s.modify_pages_of_ne _ hne]
        exact hpresent x ((Nat.le_add_right _ _).trans hx) hxl)
    refine ⟨z2, hz2.congr_created fun (x : ℕ) => ?_, hheld2, hf1.trans hf2⟩
    unfold InBlock
    rw [or_assoc]
    refine or_congr_right ?_
    omega

/-- The frames that lie inside a range of physical addresses. -/
def InRange (start last : ℕ) (x : PFN) : Prop := Zone.ceilPfn start ≤ x ∧ x < Zone.floorPfn last

theorem ZoneInv.createPages (hz : ZoneInv s z S) (hheld : z.held = ∅) {start last : ℕ}
    (hnew : ∀ x, InRange start last x → ¬ S x)
    (hpresent : ∀ x, InRange start last x → (s.pages x).flags.present = true) :
    ∃ s' z', Zone.createPages s start last = .ok s' ∧
      ZoneInv s' z' (fun x => S x ∨ InRange start last x) ∧ z'.held = ∅ ∧ Frame s z s' z' := by
  obtain ⟨blocks, hblocks, hloop⟩ :=
    Zone.createPagesLoop_eq (Zone.floorPfn last) (Zone.ceilPfn start)
  obtain ⟨z', hz'⟩ := hz.createBlocks hheld hblocks (fun x h1 h2 => hnew x ⟨h1, h2⟩)
    fun x h1 h2 => hpresent x ⟨h1, h2⟩
  exact ⟨_, z', hloop _ s (Nat.sub_le_iff_le_add'.mp le_rfl), hz'⟩

theorem Consecutive.cover {last start : ℕ} {blocks : List (ℕ × ℕ)}
    (h : Consecutive last start blocks) (x : ℕ) :
    (∃ b ∈ blocks, InBlock b.1 b.2 x) ↔ start ≤ x ∧ x < last := by
  induction blocks generalizing start with
  | nil =>
    simp only [List.not_mem_nil, false_and, exists_false, false_iff]
    exact fun hx => absurd (hx.1.trans_lt hx.2) (Nat.not_lt.mpr h)
  | cons b blocks ih =>
    obtain ⟨hb, -, -, hfit, hblocks⟩ := h
    simp only [List.mem_cons, exists_eq_or_imp, ih hblocks]
    have hpos := Nat.two_pow_pos b.2
    unfold InBlock
    omega

theorem Consecutive.disjoint {last start : ℕ} {blocks : List (ℕ × ℕ)}
    (h : Consecutive last start blocks) :
    blocks.Pairwise fun b c => ∀ x, InBlock b.1 b.2 x → ¬ InBlock c.1 c.2 x := by
  induction blocks generalizing start with
  | nil => exact List.Pairwise.nil
  | cons b blocks ih =>
    obtain ⟨hb, -, -, -, hblocks⟩ := h
    refine List.pairwise_cons.mpr ⟨fun c hc x hx hxc => ?_, ih hblocks⟩
    have hle := ((hblocks.cover x).mp ⟨c, hc, hxc⟩).1
    exact absurd hx.2 (Nat.not_lt.mpr (hb ▸ hle))

/-- `Zone::create_pages` ends after at most one step for every frame of the range, whose frames are
exactly those of the blocks it adds. -/
theorem createPages_tiles (start last : ℕ) : ∃ blocks,
    Consecutive (Zone.floorPfn last) (Zone.ceilPfn start) blocks ∧
    (blocks.Pairwise fun b c => ∀ x, InBlock b.1 b.2 x → ¬ InBlock c.1 c.2 x) ∧
    (∀ x, (∃ b ∈ blocks, InBlock b.1 b.2 x) ↔ InRange start last x) ∧
    ∀ s, Zone.createPages s start last = .ok (blocks.foldl Zone.createBlock s) ∧
      ∀ n, Zone.floorPfn last - Zone.ceilPfn start ≤ n →
        Zone.createPagesLoop (Zone.floorPfn last) n (Zone.ceilPfn start) s =
          Zone.createPages s start last := by
  obtain ⟨blocks, hblocks, hloop⟩ :=
    Zone.createPagesLoop_eq (Zone.floorPfn last) (Zone.ceilPfn start)
  have heq : ∀ s, Zone.createPages s start last = .ok (blocks.foldl Zone.createBlock s) :=
    fun s => hloop _ s (Nat.sub_le_iff_le_add'.mp le_rfl)
  refine ⟨blocks, hblocks, hblocks.disjoint, hblocks.cover, fun s => ⟨heq s, fun n hn => ?_⟩⟩
  rw [heq, hloop n s (Nat.sub_le_iff_le_add'.mp hn)]

end Dlutos
