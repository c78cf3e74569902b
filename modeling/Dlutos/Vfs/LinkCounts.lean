import Dlutos.Vfs.NameRuns

/-!
# Link counts and the effect of unlinking

The link count of an inode is the number of its hashed dentries, the root dentry apart, plus the
link that a file or a directory has from the start (`CountsLinks`).  A second unlink of the same
dentry is not: both counters are decremented again although no entry leaves, and the dentry, whose
list pointers are null, takes its whole list out of the cache.
-/

namespace Dlutos.Vfs

open Function

namespace Tmpfs

variable {H : ℕ → Name → ℕ} {s s' s₁ : Tmpfs} {c d i j : ℕ} {n : Name} {f : DentryFlags}
variable {t : Target} {call : Call} {r : Except Errno Unit}

def linkSet (s : Tmpfs) (j : ℕ) : Finset ℕ :=
  (Finset.range s.cache.count).filter fun x =>
    x ≠ ROOT ∧ s.cache.Hashed x ∧ (s.dentry x).data.map (·.ino) = some j

def CountsLinks (s : Tmpfs) : Prop :=
  ∀ j < s.nextIno, (s.inode j).nlink = (s.inode j).format.ownLinks + (s.linkSet j).card

theorem Names.mem_linkSet (h : s.Names H) {x : ℕ} :
    x ∈ s.linkSet j ↔ x ≠ ROOT ∧ s.cache.Hashed x ∧ (s.dentry x).data.map (·.ino) = some j := by
  rw [linkSet, Finset.mem_filter, Finset.mem_range, and_iff_right_iff_imp]
  exact fun hx => h.cache.threads.lt hx.2.1

/-! ### The changes keep the link counts -/

section

variable (hl : s.CountsLinks) (h : s.Names H)
include hl h

theorem CountsLinks.grown (hg : s.Grown s₁) (h1 : s₁.Names H) : s₁.CountsLinks := by
  intro j hj
  have hset : s₁.linkSet j = s.linkSet j := by
    ext x
    rw [h1.mem_linkSet, h.mem_linkSet, hg.data]
    refine and_congr_right fun _ => and_congr_left fun hdata => ?_
    obtain ⟨v, hv, -⟩ := Option.map_eq_some_iff.mp hdata
    exact hg.hashed (h.data_lt hv).1
  rw [hset, hg.inode]
  exact hl j (hg.nextIno ▸ hj)

theorem CountsLinks.saved (hs : s.Saved s' d i n c j f) : s'.CountsLinks := by
  have h' := hs.names h
  have hroot : c ≠ ROOT := by
    rintro rfl
    have hdir := h.root.2
    rw [IsDir, hs.negative] at hdir
    cases hdir
  have hneg : ∀ k, c ∉ s.linkSet k := fun k hc => by
    have hdata := (h.mem_linkSet.mp hc).2.2
    rw [hs.negative] at hdata
    cases hdata
  have hset : ∀ x k, x ∈ s'.linkSet k ↔ x ∈ s.linkSet k ∨ (x = c ∧ k = j) := by
    intro x k
    rw [h'.mem_linkSet, h.mem_linkSet, hs.hashed_iff h]
    by_cases hx : x = c
    · subst hx
      simp [hs.dentry_self, hs.negative, hroot, hs.child.1, eq_comm]
    · rw [hs.dentry_of_ne hx]
      simp [hx]
  intro k hk
  by_cases hkj : k = j
  · subst hkj
    have hins : s'.linkSet k = insert c (s.linkSet k) := by
      ext x
      rw [hset, Finset.mem_insert]
      tauto
    rw [hins, Finset.card_insert_of_notMem (hneg k), hs.nlink_self]
    by_cases hnew : k = s.nextIno
    · have hempty : s.linkSet k = ∅ := by
        refine Finset.eq_empty_of_forall_notMem fun x hx => ?_
        obtain ⟨v, hv, rfl⟩ := Option.map_eq_some_iff.mp (h.mem_linkSet.mp hx).2.2
        exact (h.data_lt hv).2.ne hnew
      rw [if_pos hnew, hempty, Finset.card_empty]
    · have hold : k < s.nextIno := by
        rcases hs.ino with ⟨he, -⟩ | ⟨hlt, -⟩
        · exact absurd he hnew
        · exact hlt
      rw [if_neg hnew, hl k hold, hs.format hold]
      omega
  · have hsame : s'.linkSet k = s.linkSet k := by
      ext x
      rw [hset]
      tauto
    have hold : k < s.nextIno := by
      rcases hs.ino with ⟨he, hnext⟩ | ⟨-, hnext, -⟩ <;> omega
    rw [hsame, hs.nlink hkj, hs.format hold]
    exact hl k hold

theorem CountsLinks.removed (h' : s'.Names H) (hnext : s'.nextIno = s.nextIno)
    (hformat : ∀ x, (s'.inode x).format = (s.inode x).format) (hc : c ∈ s.linkSet j)
    (hhashed : ∀ x, s'.cache.Hashed x ↔ s.cache.Hashed x ∧ x ≠ c)
    (hdata : ∀ x, (s'.dentry x).data = (s.dentry x).data)
    (hnlink : ∀ x, x ≠ j → (s'.inode x).nlink = (s.inode x).nlink)
    (hself : (s'.inode j).nlink = fetchSub (s.inode j).nlink) :
    0 < (s.inode j).nlink ∧ s'.CountsLinks := by
  have hset : ∀ k, s'.linkSet k = (s.linkSet k).erase c := by
    intro k
    ext x
    rw [h'.mem_linkSet, Finset.mem_erase, h.mem_linkSet, hhashed, hdata]
    tauto
  have hj : j < s.nextIno := by
    obtain ⟨v, hv, rfl⟩ := Option.map_eq_some_iff.mp (h.mem_linkSet.mp hc).2.2
    exact (h.data_lt hv).2
  have hcard := Finset.card_pos.mpr ⟨c, hc⟩
  have hpos : 0 < (s.inode j).nlink := by
    rw [hl j hj]
    omega
  refine ⟨hpos, fun k hk => ?_⟩
  rw [hset, hformat]
  by_cases hkj : k = j
  · subst hkj
    rw [Finset.card_erase_of_mem hc, hself, fetchSub_of_pos hpos, hl k hj]
    omega
  · have hnot : c ∉ s.linkSet k := fun hck => by
      have hjk := (h.mem_linkSet.mp hck).2.2.symm.trans (h.mem_linkSet.mp hc).2.2
      exact hkj (Option.some.inj hjk)
    rw [Finset.erase_eq_of_notMem hnot, hnlink k hkj]
    exact hl k (hnext ▸ hk)

end

theorem Names.mem_linkSet_of_child (h : s.Names H) (hd : s.IsDir d i)
    (hc : s.cache.Child d n c) (hdata : (s.dentry c).data = some ⟨j, f⟩) : c ∈ s.linkSet j := by
  refine h.mem_linkSet.mpr ⟨?_, hc.1, by rw [hdata]; rfl⟩
  exact End.At.ne_root (e := ⟨d, i, n, c⟩) ⟨hd, hc⟩ h

theorem CountsLinks.unlinked (hl : s.CountsLinks) (h : s.Names H)
    (hu : s.Unlinked s' d i n c j) : 0 < (s.inode j).nlink ∧ s'.CountsLinks := by
  obtain ⟨f, hf⟩ := hu.data
  exact hl.removed h (hu.names h) hu.nextIno hu.format
    (h.mem_linkSet_of_child hu.isDir hu.child hf) (fun x => hu.hashed_iff h)
    (fun x => by rw [hu.dentry_eq]) (fun x hx => hu.nlink hx) hu.nlink_self

theorem CountsLinks.renamed {old new : End} (hl : s.CountsLinks) (h : s.Names H)
    (hr : s.Renamed H s' old new j) : s'.CountsLinks := by
  cases hdata : (s.dentry new.dentry).data with
  | some v =>
    have hdir : old.dir = new.dir := hr.target.resolve_right (by simp [hdata])
    refine (hl.removed (c := new.dentry) (j := v.ino) h (hr.names h) hr.nextIno hr.format
      (h.mem_linkSet_of_child hr.new_at.isDir hr.new_at.child hdata) (fun x => ?_)
      (fun x => (hr.key x).2.2) (fun x hx => ?_) ?_).2
    · rw [hr.hashed]
      simp [hdir]
    · rw [hr.nlink, hdata, if_neg]
      simpa using Ne.symm hx
    · rw [hr.nlink, hdata, if_pos]
      rfl
  | none =>
    -- a negative dentry is no link, whether it stays in the cache or not
    intro k hk
    have hset : s'.linkSet k = s.linkSet k := by
      ext x
      rw [(hr.names h).mem_linkSet, h.mem_linkSet, hr.hashed, (hr.key x).2.2]
      by_cases hx : x = new.dentry
      · subst hx
        simp [hdata]
      · simp [hx]
    rw [hset, hr.format, hr.nlink, hdata, if_neg (by simp)]
    exact hl k (hr.nextIno ▸ hk)

theorem CountsLinks.boot (H : ℕ → Name → ℕ) : (Tmpfs.boot H).CountsLinks := by
  intro j hj
  obtain rfl : j = 0 := by simpa [Tmpfs.boot] using hj
  have hempty : (Tmpfs.boot H).linkSet 0 = ∅ := by
    refine Finset.eq_empty_of_forall_notMem fun x hx => ?_
    obtain ⟨hroot, hhashed, -⟩ := (Names.boot H).mem_linkSet.mp hx
    exact hroot ((threads_boot H).hashed_iff.mp hhashed)
  rw [hempty]
  rfl

theorem links_of_reachable {cond : Tmpfs → Call → Prop}
    (hcond : ∀ s call, cond s call → call.Orderly H s)
    (hs : (machine H cond).Reachable s) : s.Names H ∧ s.CountsLinks := by
  refine hs.invariant (P := fun s => s.Names H ∧ s.CountsLinks) (fun s h0 => ?_)
    fun s s' h hstep => ?_
  · obtain rfl : s = Tmpfs.boot H := h0
    exact ⟨Names.boot H, CountsLinks.boot H⟩
  · obtain ⟨call, ⟨hvalid, hc⟩, hrun⟩ := hstep
    obtain ⟨r, hcall⟩ := machine_run hrun
    obtain ⟨s₁, hg, hnames, hchanged⟩ := call_changed h.1 hvalid (hcond s call hc) hcall
    have hlinks := h.2.grown h.1 hg hnames
    refine ⟨hchanged.names hnames, ?_⟩
    cases hchanged with
    | kept => exact hlinks
    | made _ hs => exact hlinks.saved hnames hs
    | linked _ _ hs => exact hlinks.saved hnames hs
    | unlinked _ hu => exact (hlinks.unlinked hnames hu).2
    | renamed _ _ hr => exact hlinks.renamed hnames hr

/-! ### Unlinking is local -/

/-- While the calls are orderly, unlinking a hashed dentry fails and changes nothing, or takes
exactly its entry away: both counters were positive and go down by one, all others stay, and every
other name keeps resolving. -/
theorem unlink_of_reachable (hs : (machine H fun s call => call.Orderly H s).Reachable s)
    (ht : t.Valid s) (hc : t.Cached s) (hrun : s.call H (.unlinkAt t) = .ok (s', r)) :
    ((∃ e, r = .error e) ∧ s'.inode = s.inode ∧
      (∀ y, s.cache.Hashed y → s'.cache.Hashed y ∧ s'.dentry y = s.dentry y) ∧
      ∀ d i n j, s.IsDir d i → n ≠ DOTDOT → s.lookup H d n = .ok j → s'.lookup H d n = .ok j) ∨
    (r = .ok () ∧ ∃ x d i n j, d = t.dir s ∧ n = t.name s ∧ t.ino H s = some j ∧ s.IsDir d i ∧
      (s.inode i).entries.Perm ((n, j) :: (s'.inode i).entries) ∧
      (s.inode i).size = (s'.inode i).size + 1 ∧ (s.inode j).nlink = (s'.inode j).nlink + 1 ∧
      (∀ k, k ≠ i → (s'.inode k).entries = (s.inode k).entries ∧
        (s'.inode k).size = (s.inode k).size) ∧
      (∀ k, k ≠ j → (s'.inode k).nlink = (s.inode k).nlink) ∧
      (∀ y, y ≠ x → s.cache.Hashed y → s'.cache.Hashed y ∧ s'.dentry y = s.dentry y) ∧
      ∀ d' i' n' j', s.IsDir d' i' → n' ≠ DOTDOT → (d', n') ≠ (d, n) →
        s.lookup H d' n' = .ok j' → s'.lookup H d' n' = .ok j') := by
  obtain ⟨h, hl⟩ := links_of_reachable (fun _ _ hc => hc) hs
  obtain ⟨s₁, hg, hnames, ⟨rfl, he⟩ | ⟨x, i, j, hf, hr, hu⟩⟩ := unlinkAt_changed h ht hc hrun
  · refine Or.inl ⟨he, hg.inode, fun y hy => ?_, fun d i n j hd hn hj => ?_⟩
    · have hlt := h.cache.threads.lt hy
      exact ⟨(hg.hashed hlt).mpr hy, hg.dentry hlt⟩
    · rw [hnames.lookup_iff (hg.isDir_iff.mpr hd) hn, Named, hg.resolves_iff h]
      exact (h.lookup_iff hd hn).mp hj
  · obtain ⟨f, hdata⟩ := hu.data
    obtain ⟨hsize, -⟩ := hu.listing hnames
    obtain ⟨hnlink, -⟩ := (hl.grown h hg hnames).unlinked hnames hu
    have hlist := hnames.listing hu.isDir
    refine Or.inr ⟨hr, x, _, i, _, j, (hf.dir_eq ht).symm, (hf.name_eq ht).symm, ?_,
      hg.isDir_iff.mp hu.isDir, ?_, ?_, ?_, fun k hk => ?_, fun k hk => ?_, fun y hyx hy => ?_, ?_⟩
    · rw [hf.ino_eq h, hdata]
      rfl
    · rw [← hg.inode, hu.entries]
      exact hlist.perm_filter (Or.inr hu.resolves)
    · rw [← hg.inode, hu.size, fetchSub_of_pos hsize]
      omega
    · rw [← hg.inode, hu.nlink_self, fetchSub_of_pos hnlink]
      omega
    · rw [← hg.inode]
      exact hu.other hk
    · rw [← hg.inode]
      exact hu.nlink hk
    · have hlt := h.cache.threads.lt hy
      refine ⟨(hu.hashed_iff hnames).mpr ⟨(hg.hashed hlt).mpr hy, hyx⟩, ?_⟩
      rw [hu.dentry_eq, hg.dentry hlt]
    · intro d' i' n' j' hd' hn' hne hj'
      have hdir : s'.IsDir d' i' := by
        rw [IsDir, hu.dentry_eq]
        exact hg.isDir_iff.mpr hd'
      rw [((hu.names hnames).lookup_iff hdir hn'), Named, hu.resolves_iff hnames,
        hg.resolves_iff h]
      refine ((h.lookup_iff hd' hn').mp hj').imp_right fun hres => ⟨hres, ?_⟩
      rintro ⟨rfl, rfl⟩
      exact hne rfl

/-- Unlinking `f` while `g` is in the same directory and in the same list of the cache. -/
theorem unlink_one_of_two : ∃ s s' : Tmpfs,
    (machine (fun parent _ => parent) fun s call =>
      call.Orderly (fun parent _ => parent) s).Reachable s ∧
    s.call (fun parent _ => parent) (.unlinkAt (.entry ROOT [102])) = .ok (s', .ok ()) ∧
    (s.inode 0).size = 3 ∧ (s'.inode 0).size = 2 ∧
    s'.lookup (fun parent _ => parent) ROOT [103] = .ok 2 := by
  have h0 : (machine (fun parent _ => parent) fun s call =>
      call.Orderly (fun parent _ => parent) s).Reachable _ := .of_init rfl
  have h2 := h0.after [.symlinkAt (.entry ROOT [102]) [47],
    .openAt (.entry ROOT [103]) true true 0o644]
    ⟨⟨by decide, trivial⟩, ⟨by decide, trivial⟩, trivial⟩
  refine ⟨_, _, h2, rfl, rfl, rfl, ?_⟩
  obtain ⟨⟨e, he⟩, -⟩ | ⟨-, x, d, i, n, j, rfl, rfl, -, -, -, -, -, -, -, -, hlookup⟩ :=
    unlink_of_reachable (t := .entry ROOT [102]) h2 (by decide) trivial rfl
  · cases he
  · exact hlookup ROOT 0 [103] 2 rfl (by decide) (by decide) rfl

/-- Two calls that both resolve `f` before they unlink it: the link count wraps, and the name `g` of
the same list stops resolving. -/
theorem unlink_twice : ∃ s s' : Tmpfs,
    (machine (fun parent _ => parent) fun _ _ => True).Reachable s ∧
    s.lookup (fun parent _ => parent) ROOT [103] = .ok 2 ∧
    s.call (fun parent _ => parent) (.unlinkAt (.self 2)) = .ok (s', .ok ()) ∧
    (s.inode 0).entries = (s'.inode 0).entries ∧ (s'.inode 0).size = 1 ∧
    (s'.inode 1).nlink = U64_MAX ∧
    s'.lookup (fun parent _ => parent) ROOT [103] = .error (.errno .ENOENT) := by
  have h0 : (machine (fun parent _ => parent) fun _ _ => True).Reachable _ := .of_init rfl
  have h3 := h0.after [.symlinkAt (.entry ROOT [102]) [47],
    .openAt (.entry ROOT [103]) true true 0o644, .unlinkAt (.self 2)]
    ⟨⟨by decide, trivial⟩, ⟨by decide, trivial⟩, ⟨by decide, trivial⟩, trivial⟩
  exact ⟨_, _, h3, rfl, rfl, rfl, rfl, rfl, rfl⟩

end Tmpfs

end Dlutos.Vfs
