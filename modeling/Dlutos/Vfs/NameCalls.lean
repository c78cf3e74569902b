import Dlutos.Foundation.ExceptLoop
import Dlutos.Vfs.NameChanges

/-!
# What the functions do to the names

The functions of `src/fs/tmpfs.rs` and the operations of `Dentry` make the changes `Saved`,
`Unlinked` and `Renamed`, under two conditions that they do not check themselves: the dentry that is
unlinked or renamed is still hashed, and a rename into another directory has no inode to replace.
-/

namespace Dlutos.Vfs

open ExceptLoop Function

namespace Tmpfs

variable {H : ℕ → Name → ℕ} {s s' s₁ : Tmpfs} {c d i j : ℕ} {n : Name} {f : DentryFlags}

/-! ### Inodes after an update -/

@[simp] theorem inode_modify_self (i : ℕ) (g : Inode → Inode) :
    (s.modify i g).inode i = g (s.inode i) := by
  simp [modify]

@[simp] theorem inode_modify_of_ne {i x : ℕ} (g : Inode → Inode) (hx : x ≠ i) :
    (s.modify i g).inode x = s.inode x := by
  simp [modify, hx]

@[simp] theorem cache_modify (i : ℕ) (g : Inode → Inode) : (s.modify i g).cache = s.cache := rfl

theorem inode_modify (i x : ℕ) (g : Inode → Inode) :
    (s.modify i g).inode x = if x = i then g (s.inode i) else s.inode x := by
  simp [modify, update_apply]

/-! ### Creation -/

theorem link_spec (s : Tmpfs) (dir : ℕ) (name : Name) (file : ℕ) :
    ((s.link dir name file).inode dir).entries = (s.inode dir).entries ++ [(name, file)] ∧
    ((s.link dir name file).inode dir).size = (s.inode dir).size + 1 ∧
    ((s.link dir name file).inode file).nlink = (s.inode file).nlink + 1 ∧
    (∀ x, ((s.link dir name file).inode x).format = (s.inode x).format) ∧
    (∀ x, x ≠ dir → ((s.link dir name file).inode x).entries = (s.inode x).entries ∧
      ((s.link dir name file).inode x).size = (s.inode x).size) ∧
    ∀ x, x ≠ file → ((s.link dir name file).inode x).nlink = (s.inode x).nlink := by
  refine ⟨?_, ?_, ?_, fun x => ?_, fun x hx => ?_, fun x hx => ?_⟩ <;>
    simp only [link, inode_modify] <;> split_ifs <;> simp_all

theorem saveData_eq {s : Dcache} (hneg : (s.dentry c).data = none) (data : DentryData) :
    s.saveData c data = .ok (s.setDentry c { s.dentry c with data := some data }) := by
  simp [Dcache.saveData, hneg]

theorem linkNew_saved (h : s.Names H) (hd : s.IsDir d i) (hc : s.cache.Child d n c)
    (hneg : (s.dentry c).data = none) (inode : ℕ → Inode)
    (hformat : (inode s.nextIno).format = .dir ↔ f = .directory)
    (hentries : f = .directory → (inode s.nextIno).entries = [(DOT, s.nextIno)] ∧
      (inode s.nextIno).size = 1)
    (hnlink : (inode s.nextIno).nlink = (inode s.nextIno).format.ownLinks) :
    ∃ s', s.linkNew i c inode f = .ok s' ∧ s.Saved s' d i n c s.nextIno f := by
  set t : Tmpfs :=
    { s with inode := update s.inode s.nextIno (inode s.nextIno), nextIno := s.nextIno + 1 } with ht
  have hi : i < s.nextIno := (h.data_lt hd).2
  have hold : ∀ x, x < s.nextIno → t.inode x = s.inode x := fun x hx =>
    update_of_ne (by omega) _ _
  have hnew : t.inode s.nextIno = inode s.nextIno := update_self _ _ _
  obtain ⟨hent, hsz, hnl, hfmt, hother, hnother⟩ := link_spec t i n s.nextIno
  refine ⟨{ t.link i n s.nextIno with
    cache := s.cache.setDentry c { s.cache.dentry c with data := some ⟨s.nextIno, f⟩ } }, ?_, ?_⟩
  · have hname : (s.dentry c).name = n := hc.2.2
    show (do
      let cache ← (t.link i (t.dentry c).name s.nextIno).cache.saveData c ⟨s.nextIno, f⟩
      return { t.link i (t.dentry c).name s.nextIno with cache }) = _
    rw [show (t.dentry c).name = n from hname,
      show (t.link i n s.nextIno).cache = s.cache from rfl, saveData_eq hneg]
    rfl
  · have hne : i ≠ s.nextIno := by omega
    have hlast : s.nextIno ≠ i := by omega
    exact
      { isDir := hd
        child := hc
        negative := hneg
        cache := rfl
        entries := hent.trans (by rw [hold i hi])
        size := hsz.trans (by rw [hold i hi])
        other := fun {x} hx hxi => by
          rw [(hother x hxi).1, (hother x hxi).2, hold x hx]
          exact ⟨rfl, rfl⟩
        format := fun {x} hx => by rw [hfmt x, hold x hx]
        ino := Or.inl ⟨rfl, rfl⟩
        new_dir := fun _ => by rw [hfmt, hnew]; exact hformat
        new_entries := fun hf => by
          rw [(hother _ hlast).1, (hother _ hlast).2, hnew]
          exact hentries hf
        nlink := fun {x} hx => by
          rw [hnother x hx]
          exact congrArg Inode.nlink (update_of_ne hx _ _)
        nlink_self := by
          rw [if_pos rfl, hnl, hfmt, hnew, hnlink] }

theorem linkat_saved (hd : s.IsDir d i) (hc : s.cache.Child d n c)
    (hneg : (s.dentry c).data = none) (hj : j < s.nextIno) :
    ∃ s', s.linkat i c j = .ok s' ∧ s.Saved s' d i n c j .regular := by
  obtain ⟨hent, hsz, hnl, hfmt, hother, hnother⟩ := link_spec s i n j
  refine ⟨{ s.link i n j with
    cache := s.cache.setDentry c { s.cache.dentry c with data := some ⟨j, .regular⟩ } }, ?_, ?_⟩
  · show (do
      let cache ← (s.link i (s.dentry c).name j).cache.saveData c ⟨j, .regular⟩
      return { s.link i (s.dentry c).name j with cache }) = _
    rw [show (s.dentry c).name = n from hc.2.2, show (s.link i n j).cache = s.cache from rfl,
      saveData_eq hneg]
    rfl
  · exact
      { isDir := hd
        child := hc
        negative := hneg
        cache := rfl
        entries := hent
        size := hsz
        other := fun {x} _ hxi => hother x hxi
        format := fun {x} _ => hfmt x
        ino := Or.inr ⟨hj, rfl, by decide⟩
        new_dir := fun he => absurd he hj.ne
        new_entries := fun hf => by cases hf
        nlink := fun {x} hx => hnother x hx
        nlink_self := by rw [if_neg hj.ne]; exact hnl }

/-! ### Unlinking -/

theorem doUnlink_spec (s : Tmpfs) (dir file : ℕ) (name : Name) :
    ((s.doUnlink dir file name true).inode dir).entries =
      (s.inode dir).entries.filter (fun e => e.2 != file || e.1 != name) ∧
    ((s.doUnlink dir file name true).inode dir).size = fetchSub (s.inode dir).size ∧
    ((s.doUnlink dir file name true).inode file).nlink = fetchSub (s.inode file).nlink ∧
    (∀ x, ((s.doUnlink dir file name true).inode x).format = (s.inode x).format) ∧
    (∀ x, x ≠ dir → ((s.doUnlink dir file name true).inode x).entries = (s.inode x).entries ∧
      ((s.doUnlink dir file name true).inode x).size = (s.inode x).size) ∧
    ∀ x, x ≠ file → ((s.doUnlink dir file name true).inode x).nlink = (s.inode x).nlink := by
  refine ⟨?_, ?_, ?_, fun x => ?_, fun x hx => ?_, fun x hx => ?_⟩ <;>
    simp only [doUnlink, inode_modify] <;> split_ifs <;> simp_all

theorem unlink_unlinked (hd : s.IsDir d i) (hc : s.cache.Child d n c)
    (hrun : s.unlink i c = .ok s') : ∃ j, s.Unlinked s' d i n c j := by
  obtain ⟨j, hget, hrun⟩ := bind_eq_ok.1 hrun
  rw [show (s.dentry c).name = n from hc.2.2] at hrun
  obtain ⟨hent, hsz, hnl, hfmt, hother, hnother⟩ := doUnlink_spec s i j n
  dsimp only at hrun
  split at hrun
  · cases hrun
  · obtain rfl := Except.ok.inj hrun
    exact ⟨j, hd, hc, Dcache.getInode_eq_ok.mp hget, rfl, rfl, hent, hsz, fun hx => hother _ hx,
      hfmt, fun hx => hnother _ hx, hnl⟩

/-! ### Renaming -/

theorem renameIndices_spec (oldIno : ℕ) (newIno : Option ℕ) (oldName newName : Name)
    (entries : List (Name × ℕ)) :
    (∀ k, (renameIndices oldIno newIno oldName newName entries).1 = some k →
      entries[k]? = some (oldName, oldIno)) ∧
    (∀ k, (renameIndices oldIno newIno oldName newName entries).2 = some k →
      ∃ j, newIno = some j ∧ entries[k]? = some (newName, j)) ∧
    ((renameIndices oldIno newIno oldName newName entries).2 = none →
      ∀ j, newIno = some j → (newName, j) ∉ entries) := by
  induction entries using List.reverseRecOn with
  | nil => simp [renameIndices]
  | append_singleton xs e ih =>
    obtain ⟨m, k⟩ := e
    -- one more entry is one more step of the fold
    have hstep : renameIndices oldIno newIno oldName newName (xs ++ [(m, k)]) =
        if some k = newIno ∧ m = newName then
          ((renameIndices oldIno newIno oldName newName xs).1, some xs.length)
        else if k = oldIno ∧ m = oldName then
          (some xs.length, (renameIndices oldIno newIno oldName newName xs).2)
        else renameIndices oldIno newIno oldName newName xs := by
      simp [renameIndices, List.zipIdx_append]
    obtain ⟨hold, hnew, hnone⟩ := ih
    have hkeep : ∀ {k' v}, xs[k']? = some v → (xs ++ [(m, k)])[k']? = some v := fun hv =>
      List.getElem?_append_left (List.getElem?_eq_some_iff.mp hv).1 ▸ hv
    have hnew' : ∀ k', (renameIndices oldIno newIno oldName newName xs).2 = some k' →
        ∃ j, newIno = some j ∧ (xs ++ [(m, k)])[k']? = some (newName, j) := by
      intro k' hk'
      obtain ⟨j, hj, hv⟩ := hnew k' hk'
      exact ⟨j, hj, hkeep hv⟩
    rw [hstep]
    by_cases h1 : some k = newIno ∧ m = newName
    · rw [if_pos h1]
      refine ⟨fun k' hk' => hkeep (hold k' hk'), fun k' hk' => ?_, fun hc => by cases hc⟩
      obtain rfl := Option.some.inj hk'
      exact ⟨k, h1.1.symm, by simp [h1.2]⟩
    · have hnone' : (renameIndices oldIno newIno oldName newName xs).2 = none →
          ∀ j, newIno = some j → (newName, j) ∉ xs ++ [(m, k)] := by
        intro hc j hj hmem
        rcases List.mem_append.mp hmem with hmem | hmem
        · exact hnone hc j hj hmem
        · obtain ⟨rfl, rfl⟩ := Prod.mk.inj (List.mem_singleton.mp hmem)
          exact h1 ⟨hj.symm, rfl⟩
      rw [if_neg h1]
      split_ifs with h2
      · refine ⟨fun k' hk' => ?_, hnew', hnone'⟩
        obtain rfl := Option.some.inj hk'
        simp [h2.1, h2.2]
      · exact ⟨fun k' hk' => hkeep (hold k' hk'), hnew', hnone'⟩

theorem renameEntry_spec (h : s.cache.CacheInv H) {old new : ℕ} (hold : s.cache.Hashed old)
    (hnew : s.cache.Hashed new) (hne : old ≠ new) {dir idx : ℕ}
    (hrun : s.renameEntry H dir old new idx = .ok s') :
    s'.cache.CacheInv H ∧ s'.cache.count = s.cache.count ∧
      (∀ x, s'.cache.Hashed x ↔ s.cache.Hashed x ∧ x ≠ new) ∧
      (∀ x, (s'.dentry x).parent = (s.dentry (Equiv.swap old new x)).parent ∧
        (s'.dentry x).name = (s.dentry (Equiv.swap old new x)).name ∧
        (s'.dentry x).data = (s.dentry x).data) ∧
      s'.nextIno = s.nextIno ∧ s'.inode = (s.modify dir fun v =>
        { v with entries := v.entries.modify idx fun e => ((s.dentry new).name, e.2) }).inode := by
  obtain ⟨t, ht, hinv, hcount, hhashed, hkey⟩ := h.dExchange hold hnew hne
  have hs' : s' = { s.modify dir fun v =>
      { v with entries := v.entries.modify idx fun e => ((s.dentry new).name, e.2) } with
      cache := t.dRemove new } := by
    simp only [renameEntry, cache_modify, ht, Bind.bind, Except.bind, Pure.pure, Except.pure,
      Except.ok.injEq] at hrun
    exact hrun.symm
  obtain ⟨hinv', hhashed'⟩ := hinv.dRemove ((hhashed new).mpr hnew)
  subst hs'
  exact ⟨hinv', hcount, fun x => by rw [hhashed', hhashed], hkey, rfl, rfl⟩

variable {old new : End}

theorem renamed_of_renameEntry {t : Tmpfs} {idx : ℕ} (h : s.Names H) (hold : old.At s)
    (hnew : new.At s) (hne : old.dentry ≠ new.dentry) (hdir : old.dir = new.dir)
    (hdata : (s.dentry old.dentry).data = some ⟨j, f⟩)
    (hrun : t.renameEntry H old.ino old.dentry new.dentry idx = .ok s')
    (hcache : t.cache = s.cache) (hnext : t.nextIno = s.nextIno)
    (hformat : ∀ x, (t.inode x).format = (s.inode x).format)
    (hnlink : ∀ x, (t.inode x).nlink =
      if (s.dentry new.dentry).data.map (·.ino) = some x then fetchSub (s.inode x).nlink
      else (s.inode x).nlink)
    (hother : ∀ x, x ≠ old.ino →
      (t.inode x).entries = (s.inode x).entries ∧ (t.inode x).size = (s.inode x).size)
    (hkept : ((s.dentry new.dentry).data = none ∧
        (t.inode old.ino).entries = (s.inode old.ino).entries ∧
        (t.inode old.ino).size = (s.inode old.ino).size) ∨
      ∃ k g, (s.dentry new.dentry).data = some ⟨k, g⟩ ∧
        (s.inode old.ino).entries.Perm ((new.name, k) :: (t.inode old.ino).entries) ∧
        (t.inode old.ino).size = fetchSub (s.inode old.ino).size)
    (hidx : (t.inode old.ino).entries[idx]? = some (old.name, j)) :
    s.Renamed H s' old new j := by
  have hcold : t.cache.Hashed old.dentry := hcache ▸ hold.child.1
  have hcnew : t.cache.Hashed new.dentry := hcache ▸ hnew.child.1
  obtain ⟨hinv, hcount, hhashed, hkey, hnext', hinode⟩ :=
    renameEntry_spec (hcache ▸ h.cache) hcold hcnew hne hrun
  have hdentry : ∀ x, t.dentry x = s.dentry x := fun x => by rw [dentry, hcache]
  rw [hdentry, show (s.dentry new.dentry).name = new.name from hnew.child.2.2] at hinode
  have hsame : ∀ x, (s'.inode x).format = (t.inode x).format ∧
      (s'.inode x).nlink = (t.inode x).nlink ∧ (s'.inode x).size = (t.inode x).size := by
    intro x
    rw [hinode, inode_modify]
    split_ifs with hx
    · subst hx
      exact ⟨rfl, rfl, rfl⟩
    · exact ⟨rfl, rfl, rfl⟩
  have hhere : (s'.inode old.ino).entries.Perm
      ((new.name, j) :: (t.inode old.ino).entries.eraseIdx idx) := by
    rw [hinode, inode_modify_self]
    exact Listing.perm_modify (fun e => (new.name, e.2)) hidx
  exact
    { old_at := hold
      new_at := hnew
      ne := hne
      data := ⟨f, hdata⟩
      target := Or.inl hdir
      cache := hinv
      count := hcount.trans (by rw [hcache])
      hashed := fun {x} => by rw [hhashed, hcache]; simp [hdir]
      key := fun x => by simpa only [hdentry] using hkey x
      nextIno := hnext'.trans hnext
      format := fun x => (hsame x).1.trans (hformat x)
      nlink := fun x => (hsame x).2.1.trans (hnlink x)
      same := fun _ => by
        refine ⟨(t.inode old.ino).entries, _, ?_, Listing.perm_eraseIdx hidx, hhere⟩
        rw [(hsame _).2.2]
        exact hkept
      cross_old := fun hc => absurd hdir hc
      cross_new := fun hc => absurd hdir hc
      other := fun {x} hx _ => by
        rw [(hsame x).2.2, hinode, inode_modify_of_ne _ hx]
        exact hother x hx }

theorem renameSame_renamed (h : s.Names H) (hold : old.At s) (hnew : new.At s)
    (hne : old.dentry ≠ new.dentry) (hdir : old.dir = new.dir)
    (hdata : (s.dentry old.dentry).data = some ⟨j, f⟩)
    (hrun : s.renameSame H old.ino old.dentry new.dentry j
      ((s.dentry new.dentry).data.map (·.ino)) = .ok s') : s.Renamed H s' old new j := by
  have hoName : (s.dentry old.dentry).name = old.name := hold.child.2.2
  have hnName : (s.dentry new.dentry).name = new.name := hnew.child.2.2
  unfold renameSame at hrun
  rw [hoName, hnName] at hrun
  obtain ⟨hfold, hfnew, hfnone⟩ := renameIndices_spec j ((s.dentry new.dentry).data.map (·.ino))
    old.name new.name (s.inode old.ino).entries
  revert hrun hfold hfnew hfnone
  generalize renameIndices j ((s.dentry new.dentry).data.map (·.ino)) old.name new.name
    (s.inode old.ino).entries = found
  obtain ⟨oldIdx, newIdx⟩ := found
  intro hrun hfold hfnew hfnone
  cases oldIdx with
  | none => cases hrun
  | some k =>
    have hk := hfold k rfl
    cases newIdx with
    | none =>
      -- no entry of the new name, so its dentry is negative
      have hneg : (s.dentry new.dentry).data = none := by
        cases hd : (s.dentry new.dentry).data with
        | none => rfl
        | some v =>
          refine absurd ?_ (hfnone rfl v.ino (by rw [hd]; rfl))
          rw [(h.listing hold.isDir).mem_iff, hdir]
          exact Or.inr ⟨new.dentry, v.flags, hnew.child, hd⟩
      refine renamed_of_renameEntry h hold hnew hne hdir hdata hrun rfl rfl (fun _ => rfl)
        (fun x => ?_) (fun _ _ => ⟨rfl, rfl⟩) (Or.inl ⟨hneg, rfl, rfl⟩) hk
      rw [hneg]
      rfl
    | some k' =>
      obtain ⟨jn, hjn, hk'⟩ := hfnew k' rfl
      obtain ⟨v, hv, rfl⟩ := Option.map_eq_some_iff.mp hjn
      have hkk : k ≠ k' := by
        rintro rfl
        have heq := Option.some.inj (hk.symm.trans hk')
        have hc := hold.child
        rw [(Prod.mk.inj heq).1, hdir] at hc
        exact hne (h.cache.child_unique hc hnew.child)
      -- the old entry after the new one is gone
      have hidx : ((s.inode old.ino).entries.eraseIdx k')[if k > k' then k - 1 else k]? =
          some (old.name, j) := by
        rw [List.getElem?_eraseIdx]
        split_ifs with h1 h2
        · omega
        · rw [show k - 1 + 1 = k by omega]
          exact hk
        · exact hk
        · omega
      simp only [hjn] at hrun
      generalize (if k > k' then k - 1 else k) = idx at hidx hrun
      split_ifs at hrun with hlock hisDir hnotDir
      have hlock' : old.ino ≠ v.ino := Ne.symm hlock
      refine renamed_of_renameEntry h hold hnew hne hdir hdata hrun rfl rfl (fun x => ?_)
        (fun x => ?_) (fun x hx => ?_) (Or.inr ⟨v.ino, v.flags, hv, ?_, ?_⟩) ?_
      · simp only [inode_modify]
        split_ifs <;> simp_all
      · simp only [inode_modify]
        split_ifs <;> simp_all
      · simp only [inode_modify]
        split_ifs <;> simp_all
      · rw [inode_modify_of_ne _ hlock', inode_modify_self]
        exact Listing.perm_eraseIdx hk'
      · rw [inode_modify_of_ne _ hlock', inode_modify_self]
      · rw [inode_modify_of_ne _ hlock', inode_modify_self]
        exact hidx

theorem renameCross_renamed (h : s.Names H) (hold : old.At s) (hnew : new.At s)
    (hdir : old.dir ≠ new.dir) (hneg : (s.dentry new.dentry).data = none)
    (hdata : (s.dentry old.dentry).data = some ⟨j, f⟩)
    (hrun : s.renameCross H old.ino old.dentry new.dentry j none = .ok s') :
    s.Renamed H s' old new j := by
  have hne : old.dentry ≠ new.dentry := by
    intro he
    have hp := hold.child.2.1
    rw [he, hnew.child.2.1] at hp
    exact hdir hp.symm
  have hino : new.ino ≠ old.ino := by
    intro he
    have hd := hnew.isDir
    rw [he] at hd
    exact hdir (h.dir_unique hold.isDir hd)
  have hget : s.cache.getInode (s.dentry new.dentry).parent = .ok new.ino := by
    rw [show (s.dentry new.dentry).parent = new.dir from hnew.child.2.1]
    exact Dcache.getInode_eq_ok.mpr ⟨_, hnew.isDir⟩
  obtain ⟨cache, hexch, hinv, hcount, hhashed, hkey⟩ :=
    h.cache.dExchange hold.child.1 hnew.child.1 hne
  unfold renameCross at hrun
  rw [hget, show (s.dentry old.dentry).name = old.name from hold.child.2.2,
    show (s.dentry new.dentry).name = new.name from hnew.child.2.2] at hrun
  simp only [Bind.bind, Except.bind, h.dir_format hnew.isDir, ne_eq, not_true_eq_false,
    if_false, Pure.pure, Except.pure] at hrun
  split at hrun
  · cases hrun
  · rename_i pos hpos
    obtain ⟨hlt, hat, -⟩ := List.findIdx?_eq_some_iff_getElem.mp hpos
    have hentry : (s.inode old.ino).entries[pos]? = some (old.name, j) := by
      rw [List.getElem?_eq_getElem hlt, Option.some.injEq]
      simp only [Bool.and_eq_true, beq_iff_eq] at hat
      exact Prod.ext hat.2 hat.1
    have hplace : s.replaceTarget old.ino new.ino j none new.name =
        .ok (s.modify new.ino fun i => { i with size := i.size + 1 }) := by
      simp [replaceTarget]
    rw [hplace] at hrun
    simp only [cache_modify, hexch] at hrun
    obtain rfl := Except.ok.inj hrun
    exact
      { old_at := hold
        new_at := hnew
        ne := hne
        data := ⟨f, hdata⟩
        target := Or.inr hneg
        cache := hinv
        count := hcount
        hashed := fun {x} => by rw [hhashed]; simp [hdir]
        key := hkey
        nextIno := rfl
        format := fun x => by
          simp only [inode_modify]
          split_ifs <;> simp_all
        nlink := fun x => by
          rw [hneg]
          simp only [inode_modify]
          split_ifs <;> simp_all
        same := fun hc => absurd hc hdir
        cross_old := fun _ => by
          simp only [inode_modify, hino, hino.symm, if_true, if_false]
          exact ⟨Listing.perm_eraseIdx hentry, trivial⟩
        cross_new := fun _ => by
          simp only [inode_modify, hino, hino.symm, if_true, if_false]
          exact ⟨List.perm_append_singleton _ _, trivial⟩
        other := fun {x} hxo hxn => by
          simp only [inode_modify, hxo, hxn, if_false]
          exact ⟨trivial, trivial⟩ }

/-! ### The operations of dentries -/

theorem Names.isDir_parent (h : s.Names H) (hc : s.cache.Hashed c)
    (hget : s.cache.getInode (s.dentry c).parent = .ok i) : s.IsDir (s.dentry c).parent i := by
  obtain ⟨g, hdata⟩ := Dcache.getInode_eq_ok.mp hget
  have hroot : c ≠ ROOT := by
    rintro rfl
    rw [h.root.1, h.droot.1] at hdata
    cases hdata
  obtain ⟨k, hk⟩ := h.parent_dir hc hroot
  have heq := hk.symm.trans hdata
  cases heq
  exact hk

def endOf (s : Tmpfs) (c i : ℕ) : End := ⟨(s.dentry c).parent, i, (s.dentry c).name, c⟩

theorem Names.endOf_at (h : s.Names H) (hc : s.cache.Hashed c)
    (hget : s.cache.getInode (s.dentry c).parent = .ok i) : (s.endOf c i).At s :=
  ⟨h.isDir_parent hc hget, hc, rfl, rfl⟩

variable {op : ℕ → Except Fault Tmpfs}

theorem parentDir_cases (hrun : (s.parentDir d >>= op) = .ok s') :
    ∃ i, s.cache.getInode (s.dentry d).parent = .ok i ∧ op i = .ok s' := by
  obtain ⟨i, hdir, hop⟩ := bind_eq_ok.1 hrun
  obtain ⟨i', hget, hdir⟩ := bind_eq_ok.1 hdir
  split at hdir
  · obtain rfl := Except.ok.inj hdir
    exact ⟨i', hget, hop⟩
  · cases hdir

theorem createAt_cases (hrun : s.createAt d op = .ok s') :
    (s.dentry d).data = none ∧
      ∃ i, s.cache.getInode (s.dentry d).parent = .ok i ∧ op i = .ok s' := by
  unfold createAt at hrun
  cases hdata : (s.dentry d).data with
  | some v =>
    rw [hdata] at hrun
    cases hrun
  | none =>
    rw [hdata] at hrun
    exact ⟨rfl, parentDir_cases hrun⟩

theorem openCheck_cases {oCreat oExcl : Bool} {perm : ℕ}
    (hrun : s.openCheck d oCreat oExcl perm = .ok s') :
    s' = s ∨ ((s.dentry d).data = none ∧
      ∃ i, s.cache.getInode (s.dentry d).parent = .ok i ∧ s.creat i d perm = .ok s') := by
  unfold openCheck at hrun
  cases hdata : (s.dentry d).data with
  | some v =>
    left
    simp only [hdata, Option.isSome_some, if_true] at hrun
    split_ifs at hrun
    · cases hrun
    · exact (Except.ok.inj hrun).symm
  | none =>
    simp only [hdata, Option.isSome_none, Bool.false_eq_true, if_false] at hrun
    split_ifs at hrun
    · cases hrun
    · exact Or.inr ⟨rfl, parentDir_cases hrun⟩

theorem unlinkDentry_unlinked (h : s.Names H) (hc : s.cache.Hashed c)
    (hrun : s.unlinkDentry c = .ok s') :
    ∃ i j, s.Unlinked s' (s.dentry c).parent i (s.dentry c).name c j := by
  unfold unlinkDentry at hrun
  cases hdata : (s.dentry c).data with
  | none =>
    rw [hdata] at hrun
    cases hrun
  | some v =>
    rw [hdata] at hrun
    obtain ⟨i, hget, hop⟩ := parentDir_cases hrun
    obtain ⟨j, hj⟩ := unlink_unlinked (h.isDir_parent hc hget) ⟨hc, rfl, rfl⟩ hop
    exact ⟨i, j, hj⟩

theorem rename_renamed (h : s.Names H) {o n : ℕ} (ho : s.cache.Hashed o) (hn : s.cache.Hashed n)
    {isExchange noReplace : Bool} (htarget : isExchange = true ∨ noReplace = true ∨
      (s.dentry o).parent = (s.dentry n).parent ∨ (s.dentry n).data = none)
    (hrun : s.rename H o n isExchange noReplace = .ok s') :
    (o = n ∧ s' = s) ∨ ∃ io iN j, s.Renamed H s' (s.endOf o io) (s.endOf n iN) j := by
  unfold rename at hrun
  by_cases heq : o = n
  · left
    rw [if_pos heq] at hrun
    exact ⟨heq, (Except.ok.inj hrun).symm⟩
  right
  rw [if_neg heq] at hrun
  obtain ⟨io, hgo, hrun⟩ := bind_eq_ok.1 hrun
  obtain ⟨iN, hgn, hrun⟩ := bind_eq_ok.1 hrun
  have hold := h.endOf_at ho hgo
  have hnew := h.endOf_at hn hgn
  have hformat : (s.inode io).format = .dir := h.dir_format hold.isDir
  simp only [hformat, ne_eq, not_true_eq_false, if_false, renameInode] at hrun
  cases hexch : isExchange with
  | true =>
    rw [hexch] at hrun
    cases hrun
  | false =>
    rw [hexch] at hrun
    obtain ⟨j, hget, hrun⟩ := bind_eq_ok.1 hrun
    obtain ⟨f, hdata⟩ := Dcache.getInode_eq_ok.mp hget
    refine ⟨io, iN, j, ?_⟩
    by_cases hex : (noReplace && ((s.dentry n).data.map (·.ino)).isSome) = true
    · rw [if_pos hex] at hrun
      cases hrun
    rw [if_neg hex] at hrun
    by_cases hsame : iN = io
    · subst hsame
      have hdir := h.dir_unique hold.isDir hnew.isDir
      exact renameSame_renamed h hold hnew heq hdir hdata (by rwa [if_pos rfl] at hrun)
    · have hdir : (s.dentry o).parent ≠ (s.dentry n).parent := by
        intro he
        have hd : s.IsDir (s.dentry o).parent io := hold.isDir
        rw [he] at hd
        exact hsame (hnew.isDir.ino_unique hd)
      have hneg : (s.dentry n).data = none := by
        rcases htarget with hc | hc | hc | hc
        · exact absurd hc (by simp [hexch])
        · simpa [hc] using hex
        · exact absurd hc hdir
        · exact hc
      rw [if_neg hsame, hneg] at hrun
      exact renameCross_renamed h hold hnew hdir hneg hdata hrun

end Tmpfs

end Dlutos.Vfs
