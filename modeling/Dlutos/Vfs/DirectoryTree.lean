import Dlutos.Foundation.RootedTree
import Dlutos.Vfs.NameRuns

/-!
# The tree of directories

The entries that name directories form a tree as long as the calls respect it, which the functions
do not check: a directory is not linked a second time, is removed or replaced only while it is
empty, is not moved below itself, and new entries are made only in directories that are still in the
tree (`Call.KeepsTree`).
-/

namespace Dlutos.Vfs

open Relation

namespace Tmpfs

variable {H : ℕ → Name → ℕ} {s s' s₁ : Tmpfs} {a b c d i j : ℕ} {n : Name} {f : DentryFlags}
variable {t : Target} {call : Call} {r : Except Errno Unit}

def Directory (s : Tmpfs) (j : ℕ) : Prop := j < s.nextIno ∧ (s.inode j).format = .dir

def HasEntry (s : Tmpfs) (i : ℕ) (n : Name) (j : ℕ) : Prop :=
  s.Directory i ∧ s.Directory j ∧ n ≠ DOT ∧ (n, j) ∈ (s.inode i).entries

def DirEdge (s : Tmpfs) (i j : ℕ) : Prop := ∃ n, s.HasEntry i n j

/-- The directory is below the root. -/
def InTree (s : Tmpfs) (i : ℕ) : Prop := ReflTransGen s.DirEdge 0 i

/-- A directory, if the inode is one, has no entry besides `.`. -/
def Empty (s : Tmpfs) (j : ℕ) : Prop := s.Directory j → (s.inode j).entries = [(DOT, j)]

instance : Decidable (s.Directory j) := inferInstanceAs (Decidable (_ ∧ _))

instance : Decidable (s.HasEntry i n j) := inferInstanceAs (Decidable (_ ∧ _ ∧ _ ∧ _))

/-- The directory of a name that is looked up is below the root. -/
def Target.InTree (s : Tmpfs) : Target → Prop
  | .entry d _ => ∀ i, s.IsDir d i → s.InTree i
  | .self _ => True

/-- What a call has to respect for the directories to stay a tree. -/
def Call.KeepsTree (H : ℕ → Name → ℕ) (s : Tmpfs) : Call → Prop
  | .find _ => True
  | .openAt t _ _ _ | .mkdirAt t _ | .mknodAt t _ _ | .symlinkAt t _ => t.InTree s
  | .linkAt old new => new.InTree s ∧ ∀ j, old.ino H s = some j → ¬ s.Directory j
  | .unlinkAt t => ∀ j, t.ino H s = some j → s.Empty j
  | .renameAt old new _ _ => new.InTree s ∧
      ((old.dir s, old.name s) = (new.dir s, new.name s) ∨
        (∀ k, new.ino H s = some k → s.Empty k) ∧
        ∀ j i, old.ino H s = some j → s.IsDir (new.dir s) i → ¬ ReflTransGen s.DirEdge j i)

def Call.Removes (H : ℕ → Name → ℕ) (s : Tmpfs) (j : ℕ) : Call → Prop
  | .unlinkAt t => t.ino H s = some j
  | .renameAt _ new _ _ => new.ino H s = some j
  | _ => False

/-! ### The graph in terms of the cache -/

section

variable (h : s.Names H)
include h

theorem Names.directory_iff : s.Directory j ↔ ∃ d, s.IsDir d j := by
  constructor
  · exact fun hj => h.dir_exists hj.1 hj.2
  · rintro ⟨d, hd⟩
    exact ⟨(h.data_lt hd).2, h.dir_format hd⟩

theorem Names.resolves_lt (hr : s.Resolves d n j) : j < s.nextIno := by
  obtain ⟨c, f, -, hc⟩ := hr
  exact (h.data_lt hc).2

theorem Names.resolves_unique {j' : ℕ} (hr : s.Resolves d n j) (hr' : s.Resolves d n j') :
    j = j' := by
  obtain ⟨c, f, hc, hdata⟩ := hr
  obtain ⟨g, hdata'⟩ := (h.resolves_iff hc).mp hr'
  have heq := hdata.symm.trans hdata'
  cases heq
  rfl

theorem Names.hasEntry_iff :
    s.HasEntry i n j ↔ ∃ d, s.IsDir d i ∧ s.Resolves d n j ∧ (s.inode j).format = .dir := by
  constructor
  · rintro ⟨hi, hj, hn, hmem⟩
    obtain ⟨d, hd⟩ := h.directory_iff.mp hi
    rcases ((h.listing hd).mem_iff n j).mp hmem with ⟨hdot, -⟩ | hres
    · exact absurd hdot hn
    · exact ⟨d, hd, hres, hj.2⟩
  · rintro ⟨d, hd, hres, hf⟩
    exact ⟨h.directory_iff.mpr ⟨d, hd⟩, ⟨h.resolves_lt hres, hf⟩, h.ne_dot hres,
      ((h.listing hd).mem_iff n j).mpr (Or.inr hres)⟩

theorem Names.not_resolves_of_empty (hd : s.IsDir d i) (hempty : s.Empty i) :
    ¬ s.Resolves d n j := by
  intro hres
  have hmem := ((h.listing hd).mem_iff n j).mpr (Or.inr hres)
  rw [hempty (h.directory_iff.mpr ⟨d, hd⟩), List.mem_singleton, Prod.mk.injEq] at hmem
  exact h.ne_dot hres hmem.1

theorem Names.exists_resolves (hd : s.IsDir d i) (hne : (s.inode i).entries ≠ [(DOT, i)]) :
    ∃ n j, s.Resolves d n j := by
  by_contra hnone
  have hlist := h.listing hd
  have hperm : (s.inode i).entries.Perm [(DOT, i)] := by
    refine (List.perm_ext_iff_of_nodup (List.Nodup.of_map _ hlist.nodup)
      (List.nodup_singleton _)).mpr fun e => ?_
    obtain ⟨m, k⟩ := e
    rw [hlist.mem_iff, List.mem_singleton, Prod.mk.injEq, Named, or_iff_left]
    exact fun hres => hnone ⟨m, k, hres⟩
  exact hne (List.perm_singleton.mp hperm)

end

/-! ### The invariant -/

/-- What makes the directories a tree: dentries of directories are directory dentries, and
directories with entries are below the root. -/
structure Tree (s : Tmpfs) : Prop where
  flags {c j : ℕ} {f : DentryFlags} (hc : (s.dentry c).data = some ⟨j, f⟩)
    (hj : (s.inode j).format = .dir) : f = .directory
  held {d i : ℕ} {n : Name} {j : ℕ} (hd : s.IsDir d i) (hr : s.Resolves d n j) : s.InTree i

theorem Tree.name_unique (ht : s.Tree) (h : s.Names H) {d' : ℕ} {n' : Name}
    (hr : s.Resolves d n j) (hr' : s.Resolves d' n' j) (hj : (s.inode j).format = .dir) :
    d = d' ∧ n = n' := by
  obtain ⟨c, f, hc, hdata⟩ := hr
  obtain ⟨c', f', hc', hdata'⟩ := hr'
  obtain rfl := ht.flags hdata hj
  obtain rfl := ht.flags hdata' hj
  obtain rfl := h.dir_unique hdata hdata'
  exact ⟨hc.2.1.symm.trans hc'.2.1, hc.2.2.symm.trans hc'.2.2⟩

theorem Grown.hasEntry_iff (hg : s.Grown s₁) : s₁.HasEntry i n j ↔ s.HasEntry i n j := by
  simp only [HasEntry, Directory, hg.inode, hg.nextIno]

theorem Grown.dirEdge_eq (hg : s.Grown s₁) : s₁.DirEdge = s.DirEdge := by
  funext i j
  exact propext (exists_congr fun n => hg.hasEntry_iff)

theorem Grown.inTree_iff (hg : s.Grown s₁) : s₁.InTree i ↔ s.InTree i := by
  rw [InTree, InTree, hg.dirEdge_eq]

theorem Grown.empty_iff (hg : s.Grown s₁) : s₁.Empty i ↔ s.Empty i := by
  simp only [Empty, Directory, hg.inode, hg.nextIno]

theorem Tree.grown (ht : s.Tree) (h : s.Names H) (hg : s.Grown s₁) : s₁.Tree where
  flags hc hj := ht.flags ((hg.data _).symm.trans hc) (by rwa [hg.inode] at hj)
  held hd hr := hg.inTree_iff.mpr (ht.held (hg.isDir_iff.mp hd) ((hg.resolves_iff h).mp hr))

/-! ### Creation -/

theorem Saved.hasEntry (hs : s.Saved s' d i n c j f) (h : s.Names H) {m : Name}
    (he : s.HasEntry a m b) : s'.HasEntry a m b := by
  obtain ⟨x, hx, hres, hb⟩ := h.hasEntry_iff.mp he
  refine (hs.names h).hasEntry_iff.mpr ⟨x, hs.isDir_iff.mpr (Or.inl hx),
    (hs.resolves_iff h).mpr (Or.inl hres), ?_⟩
  rw [hs.format (h.resolves_lt hres)]
  exact hb

theorem Saved.inTree (hs : s.Saved s' d i n c j f) (h : s.Names H) (ha : s.InTree a) :
    s'.InTree a := by
  have hle : s.DirEdge ≤ s'.DirEdge := fun _ _ he => he.imp fun _ hm => hs.hasEntry h hm
  exact ReflTransGen.mono hle _ _ ha

theorem Tree.saved (ht : s.Tree) (h : s.Names H) (hs : s.Saved s' d i n c j f)
    (hin : s.InTree i) (hflags : (s'.inode j).format = .dir → f = .directory) : s'.Tree where
  flags {x k g} hx hk := by
    rcases hs.data_iff.mp hx with hx | ⟨-, heq⟩
    · rw [hs.format (h.data_lt hx).2] at hk
      exact ht.flags hx hk
    · cases heq
      exact hflags hk
  held {x k m l} hx hres := by
    refine hs.inTree h ?_
    rcases (hs.resolves_iff h).mp hres with hres | ⟨rfl, -, -⟩
    · rcases hs.isDir_iff.mp hx with hx | ⟨rfl, -, -⟩
      · exact ht.held hx hres
      · obtain ⟨y, -, hy, -⟩ := hres
        exact absurd hy (hs.no_child h)
    · rcases hs.isDir_iff.mp hx with hx | ⟨rfl, -, -⟩
      · rw [hx.ino_unique hs.isDir]
        exact hin
      · have hd := hs.isDir
        rw [IsDir, hs.negative] at hd
        cases hd

/-! ### Unlinking -/

theorem Unlinked.hasEntry (hu : s.Unlinked s' d i n c j) (h : s.Names H) {m : Name} (hb : b ≠ j)
    (he : s.HasEntry a m b) : s'.HasEntry a m b := by
  obtain ⟨x, hx, hres, hf⟩ := h.hasEntry_iff.mp he
  refine (hu.names h).hasEntry_iff.mpr ⟨x, by rwa [IsDir, hu.dentry_eq],
    (hu.resolves_iff h).mpr ⟨hres, ?_⟩, by rwa [hu.format]⟩
  rintro ⟨rfl, rfl⟩
  exact hb (h.resolves_unique hres hu.resolves)

theorem Tree.unlinked (ht : s.Tree) (h : s.Names H) (hu : s.Unlinked s' d i n c j)
    (hempty : s.Empty j) : s'.Tree where
  flags {x k g} hx hk := by
    rw [hu.dentry_eq] at hx
    rw [hu.format] at hk
    exact ht.flags hx hk
  held {x k m l} hx hres := by
    rw [IsDir, hu.dentry_eq] at hx
    have hres := ((hu.resolves_iff h).mp hres).1
    refine RootedTree.reach_prune (M := (· = j)) (fun {a b} he hb => ?_) (fun {a b} ha he => ?_)
      (ht.held hx hres) fun hkj => ?_
    · exact he.imp fun m hm => hu.hasEntry h hb hm
    · obtain ⟨m, hm⟩ := he
      obtain ⟨y, hy, hmres, -⟩ := h.hasEntry_iff.mp hm
      exact h.not_resolves_of_empty hy (ha ▸ hempty) hmres
    · exact h.not_resolves_of_empty hx (hkj ▸ hempty) hres

/-! ### Renaming -/

variable {old new : End}

def Replaced (s : Tmpfs) (new : End) (k : ℕ) : Prop :=
  (s.dentry new.dentry).data.map (·.ino) = some k

theorem Replaced.of_resolves (h : s.Names H) (hnew : new.At s)
    (hr : s.Resolves new.dir new.name j) : s.Replaced new j := by
  obtain ⟨g, hg⟩ := (h.resolves_iff hnew.child).mp hr
  rw [Replaced, hg]
  rfl

theorem Renamed.hasEntry (hr : s.Renamed H s' old new j) (h : s.Names H) {m : Name} (hbj : b ≠ j)
    (hb : ¬ s.Replaced new b) (he : s.HasEntry a m b) : s'.HasEntry a m b := by
  obtain ⟨x, hx, hres, hf⟩ := h.hasEntry_iff.mp he
  refine (hr.names h).hasEntry_iff.mpr ⟨x, by rwa [IsDir, (hr.key x).2.2],
    (hr.toExchanged.resolves_iff h).mpr (Or.inr ⟨hres, ?_, ?_⟩), by rwa [hr.format]⟩
  · rintro ⟨rfl, rfl⟩
    exact hbj (h.resolves_unique hres hr.toExchanged.resolves_old)
  · rintro ⟨rfl, rfl⟩
    exact hb (Replaced.of_resolves h hr.new_at hres)

theorem Renamed.hasEntry_moved (hr : s.Renamed H s' old new j) (h : s.Names H)
    (hj : (s.inode j).format = .dir) : s'.HasEntry new.ino new.name j := by
  refine (hr.names h).hasEntry_iff.mpr ⟨new.dir, ?_,
    (hr.toExchanged.resolves_iff h).mpr (Or.inl ⟨rfl, rfl, rfl⟩), by rwa [hr.format]⟩
  rw [IsDir, (hr.key _).2.2]
  exact hr.new_at.isDir

theorem Tree.renamed (ht : s.Tree) (h : s.Names H) (hr : s.Renamed H s' old new j)
    (hin : s.InTree new.ino) (hempty : ∀ k, s.Replaced new k → s.Empty k)
    (hmove : ¬ ReflTransGen s.DirEdge j new.ino) : s'.Tree where
  flags {x k g} hx hk := by
    rw [(hr.key x).2.2] at hx
    rw [hr.format] at hk
    exact ht.flags hx hk
  held {x k m l} hx hres := by
    rw [IsDir, (hr.key x).2.2] at hx
    have hleaf : ∀ {a b}, s.Replaced new a → ¬ s.DirEdge a b := by
      rintro a b ha ⟨q, hq⟩
      obtain ⟨y, hy, hyres, -⟩ := h.hasEntry_iff.mp hq
      exact h.not_resolves_of_empty hy (hempty a ha) hyres
    -- the directory into which the name moves is not the one that is replaced
    have hnew : ¬ s.Replaced new new.ino := by
      intro hrep
      obtain ⟨v, hv, hino⟩ := Option.map_eq_some_iff.mp hrep
      obtain ⟨k, g⟩ := v
      obtain rfl : k = new.ino := hino
      exact h.not_resolves_of_empty hr.new_at.isDir (hempty _ hrep)
        (resolves_of_data hr.new_at.child hv)
    have hbefore : s.InTree k ∧ ¬ s.Replaced new k := by
      rcases (hr.toExchanged.resolves_iff h).mp hres with ⟨rfl, -, -⟩ | ⟨hres, -, -⟩
      · rw [(show s.IsDir new.dir k from hx).ino_unique hr.new_at.isDir]
        exact ⟨hin, hnew⟩
      · exact ⟨ht.held hx hres, fun hk => h.not_resolves_of_empty hx (hempty k hk) hres⟩
    by_cases hj : (s.inode j).format = .dir
    · refine RootedTree.reach_move (o := j) (M := s.Replaced new) (fun {a b} he hbj hb => ?_)
        ⟨new.name, hr.hasEntry_moved h hj⟩ hleaf hin hnew hmove hbefore.1 hbefore.2
      exact he.imp fun q hq => hr.hasEntry h hbj hb hq
    · refine RootedTree.reach_prune (M := s.Replaced new) (fun {a b} he hb => ?_) hleaf
        hbefore.1 hbefore.2
      refine he.imp fun q hq => hr.hasEntry h ?_ hb hq
      rintro rfl
      exact hj hq.2.1.2

/-! ### Runs -/

section

variable (hc : Changed H s s₁ call s') (h : s.Names H) (h1 : s₁.Names H) (hg : s.Grown s₁)
include hc h h1 hg

theorem Changed.tree (hvalid : ∀ t ∈ call.targets, t.Valid s) (hkeep : call.KeepsTree H s)
    (ht : s.Tree) : s'.Tree := by
  have ht1 := ht.grown h hg
  cases hc with
  | kept => exact ht1
  | @made _ _ d i n x f hm hs =>
    refine ht1.saved h1 hs (hg.inTree_iff.mpr ?_) fun hf => (hs.new_dir rfl).mp hf
    have hin : (Target.entry d n).InTree s := by
      cases call <;> cases hm <;> exact hkeep
    exact hin i (hg.isDir_iff.mp hs.isDir)
  | @linked t _ d i n x y j g hf hdata hs =>
    obtain ⟨hin, hsource⟩ := hkeep
    refine ht1.saved h1 hs (hg.inTree_iff.mpr (hin i (hg.isDir_iff.mp hs.isDir))) fun hj => ?_
    have hlt := (h1.data_lt hdata).2
    rw [hs.format hlt] at hj
    refine absurd ⟨hg.nextIno ▸ hlt, ?_⟩ (hsource j ?_)
    · rw [hf.ino_eq h, hdata]
      rfl
    · rw [← hg.inode]
      exact hj
  | @unlinked t _ x i j hf hu =>
    refine ht1.unlinked h1 hu (hg.empty_iff.mpr (hkeep j ?_))
    obtain ⟨f, hdata⟩ := hu.data
    rw [hf.ino_eq h, hdata]
    rfl
  | @renamed told tnew _ _ _ o m io im j ho hm hr =>
    have hold := hvalid told (by simp [Call.targets])
    have hnew := hvalid tnew (by simp [Call.targets])
    obtain ⟨hin, hsame | ⟨hempty, hmove⟩⟩ := hkeep
    · -- two dentries with one key are one dentry
      rw [ho.dir_eq hold, ho.name_eq hold, hm.dir_eq hnew, hm.name_eq hnew, Prod.mk.injEq] at hsame
      exact absurd (h1.cache.unique hr.old_at.child.1 hr.new_at.child.1 hsame.1 hsame.2) hr.ne
    · have hdir : s₁.IsDir (s₁.dentry m).parent im := hr.new_at.isDir
      refine ht1.renamed h1 hr (hg.inTree_iff.mpr ?_) (fun k hk => ?_) ?_
      · cases tnew with
        | entry d n =>
          rw [← hm.dir_eq hnew] at hdir
          exact hin im (hg.isDir_iff.mp hdir)
        | self d =>
          -- the target exists, so that both names are in one directory, which has an entry
          have hne : (s₁.dentry m).data ≠ none := by
            rw [show m = d from hm.leads, hg.data]
            exact hnew.2
          have hsame : (s₁.dentry o).parent = (s₁.dentry m).parent :=
            hr.target.resolve_right hne
          have hold' := hr.toExchanged.resolves_old
          rw [show (s₁.endOf o io).dir = _ from hsame] at hold'
          exact hg.inTree_iff.mp (ht1.held hdir hold')
      · refine hg.empty_iff.mpr (hempty k ?_)
        rw [hm.ino_eq h]
        exact hk
      · rw [hg.dirEdge_eq]
        refine hmove j im ?_ ?_
        · obtain ⟨f, hdata⟩ := hr.data
          rw [ho.ino_eq h, show (s₁.dentry o).data = _ from hdata]
          rfl
        · rw [hm.dir_eq hnew]
          exact hg.isDir_iff.mp hdir

theorem Changed.hasEntry (he : s.HasEntry i n j) :
    (∃ i' n', s'.HasEntry i' n' j) ∨ call.Removes H s j := by
  have he1 := hg.hasEntry_iff.mpr he
  cases hc with
  | kept => exact Or.inl ⟨i, n, he1⟩
  | made _ hs => exact Or.inl ⟨i, n, hs.hasEntry h1 he1⟩
  | linked _ _ hs => exact Or.inl ⟨i, n, hs.hasEntry h1 he1⟩
  | @unlinked t _ x i' j' hf hu =>
    by_cases hj : j = j'
    · right
      obtain ⟨f, hdata⟩ := hu.data
      rw [Call.Removes, hf.ino_eq h, hdata, hj]
      rfl
    · exact Or.inl ⟨i, n, hu.hasEntry h1 hj he1⟩
  | @renamed told tnew _ _ _ o m io im j' ho hm hr =>
    by_cases hj : j = j'
    · subst hj
      exact Or.inl ⟨_, _, hr.hasEntry_moved h1 he1.2.1.2⟩
    · by_cases hrep : s₁.Replaced (s₁.endOf m im) j
      · right
        rw [Call.Removes, hm.ino_eq h]
        exact hrep
      · exact Or.inl ⟨i, n, hr.hasEntry h1 hj hrep he1⟩

end

theorem Tree.boot (H : ℕ → Name → ℕ) : (Tmpfs.boot H).Tree where
  flags {c j f} hc _ := congrArg DentryData.flags (boot_data hc).2
  held {d i n j} hd hr := by
    obtain ⟨rfl, -⟩ := boot_data hd
    exact absurd hr boot_not_resolves

def TreeCall (H : ℕ → Name → ℕ) (s : Tmpfs) (call : Call) : Prop :=
  call.Orderly H s ∧ call.KeepsTree H s

theorem tree_invariant (hs : (machine H (TreeCall H)).Reachable s) : s.Names H ∧ s.Tree := by
  refine hs.invariant (P := fun s => s.Names H ∧ s.Tree) (fun s h0 => ?_) fun s s' h hstep => ?_
  · obtain rfl : s = Tmpfs.boot H := h0
    exact ⟨Names.boot H, Tree.boot H⟩
  · obtain ⟨call, ⟨hvalid, hc⟩, hrun⟩ := hstep
    obtain ⟨r, hcall⟩ := machine_run hrun
    obtain ⟨s₁, hg, hnames, hchanged⟩ := call_changed h.1 hvalid hc.1 hcall
    exact ⟨hchanged.names hnames, hchanged.tree h.1 hnames hg hvalid hc.2 h.2⟩

theorem Tree.not_hasEntry_root (ht : s.Tree) (h : s.Names H) : ¬ s.HasEntry i n 0 := by
  intro he
  obtain ⟨d, hd, ⟨c, f, hc, hdata⟩, hf⟩ := h.hasEntry_iff.mp he
  obtain rfl := ht.flags hdata hf
  obtain rfl := h.dir_unique hdata h.root.2
  rw [← hc.2.1, show (s.cache.dentry ROOT).parent = 0 from h.root.1, IsDir, h.droot.1] at hd
  cases hd

theorem Tree.hasEntry_unique (ht : s.Tree) (h : s.Names H) {i' : ℕ} {n' : Name}
    (he : s.HasEntry i n j) (he' : s.HasEntry i' n' j) : i = i' ∧ n = n' := by
  obtain ⟨d, hd, hr, hf⟩ := h.hasEntry_iff.mp he
  obtain ⟨d', hd', hr', -⟩ := h.hasEntry_iff.mp he'
  obtain ⟨rfl, rfl⟩ := ht.name_unique h hr hr' hf
  exact ⟨hd.ino_unique hd', rfl⟩

theorem Tree.inTree (ht : s.Tree) (h : s.Names H) (hj : s.Directory j)
    (hne : (s.inode j).entries ≠ [(DOT, j)]) : s.InTree j := by
  obtain ⟨d, hd⟩ := h.directory_iff.mp hj
  obtain ⟨m, k, hres⟩ := h.exists_resolves hd hne
  exact ht.held hd hres

/-- While the calls respect the tree, every directory but the root has exactly one parent entry, or
none if it is empty; none is below itself; one with entries is below the root; and only unlinking a
directory or renaming onto it takes its parent entry away. -/
theorem tree_of_reachable (hs : (machine H (TreeCall H)).Reachable s) :
    (∀ i n, ¬ s.HasEntry i n 0) ∧
    (∀ j i n i' n', s.HasEntry i n j → s.HasEntry i' n' j → i = i' ∧ n = n') ∧
    (∀ j, s.Directory j → j ≠ 0 →
      (∃ i n, s.HasEntry i n j) ∨ (s.inode j).entries = [(DOT, j)]) ∧
    (∀ j, ¬ TransGen s.DirEdge j j) ∧
    (∀ j, s.Directory j → (s.inode j).entries ≠ [(DOT, j)] → s.InTree j) ∧
    ∀ call s' r, (∀ t ∈ call.targets, t.Valid s) → TreeCall H s call →
      s.call H call = .ok (s', r) → ∀ i n j, s.HasEntry i n j →
        (∃ i' n', s'.HasEntry i' n' j) ∨ call.Removes H s j := by
  obtain ⟨h, ht⟩ := tree_invariant hs
  refine ⟨fun i n => ht.not_hasEntry_root h, fun j i n i' n' => ht.hasEntry_unique h,
    fun j hj hj0 => ?_, fun j hcycle => ?_, fun j => ht.inTree h, ?_⟩
  · by_cases hne : (s.inode j).entries = [(DOT, j)]
    · exact Or.inr hne
    · left
      rcases (ht.inTree h hj hne).cases_tail with heq | ⟨i, -, n, he⟩
      · exact absurd heq hj0
      · exact ⟨i, n, he⟩
  · obtain ⟨i, -, n, he⟩ := TransGen.tail'_iff.mp hcycle
    have hin : s.InTree i := ht.inTree h he.1 fun hempty => by
      have hmem := he.2.2.2
      rw [hempty, List.mem_singleton, Prod.mk.injEq] at hmem
      exact he.2.2.1 hmem.1
    refine RootedTree.not_cycle (fun {a b c} hac hbc => ?_) (fun a ha => ?_)
      (hin.tail ⟨n, he⟩) hcycle
    · obtain ⟨m, hm⟩ := hac
      obtain ⟨q, hq⟩ := hbc
      exact (ht.hasEntry_unique h hm hq).1
    · obtain ⟨m, hm⟩ := ha
      exact ht.not_hasEntry_root h hm
  · intro call s' r hvalid hc hrun i n j he
    obtain ⟨s₁, hg, hnames, hchanged⟩ := call_changed h hvalid hc.1 hrun
    exact hchanged.hasEntry h hnames hg he

theorem tree_after_rename : ∃ s : Tmpfs,
    (machine (fun parent _ => parent) (TreeCall fun parent _ => parent)).Reachable s ∧
    s.HasEntry 2 [97] 1 ∧ s.InTree 2 := by
  have h0 : (machine (fun parent _ => parent) (TreeCall fun parent _ => parent)).Reachable _ :=
    .of_init rfl
  have h1 := h0.next (.mkdirAt (.entry ROOT [97]) 0o755) ⟨by decide, trivial, fun i hi => by
    obtain rfl := hi.ino_unique (show IsDir _ ROOT 0 from rfl)
    exact ReflTransGen.refl⟩
  have h2 := h1.next (.mkdirAt (.entry ROOT [98]) 0o755) ⟨by decide, trivial, fun i hi => by
    obtain rfl := hi.ino_unique (show IsDir _ ROOT 0 from rfl)
    exact ReflTransGen.refl⟩
  have h3 := h2.next (.renameAt (.entry ROOT [97]) (.entry 3 [97]) false false)
    ⟨by decide, ⟨trivial, trivial, Or.inr (Or.inr (Or.inr rfl))⟩, fun i hi => by
      obtain rfl := hi.ino_unique (show IsDir _ 3 2 from rfl)
      exact ReflTransGen.single ⟨[98], by decide⟩,
      Or.inr ⟨fun k hk => (by cases hk), fun j i hj hi hreach => by
        -- `a` has no entries, so that `b` is not below it
        obtain rfl : 1 = j := Option.some.inj hj
        obtain rfl := hi.ino_unique (show IsDir _ 3 2 from rfl)
        obtain heq | ⟨c, ⟨n, -, -, hn, hmem⟩, -⟩ := hreach.cases_head
        · cases heq
        · have hdot : (n, c) ∈ [(DOT, 1)] := hmem
          rw [List.mem_singleton, Prod.mk.injEq] at hdot
          exact hn hdot.1⟩⟩
  exact ⟨_, h3, by decide, (tree_of_reachable h3).2.2.2.2.1 2 (by decide) (by decide)⟩

/-- A rename of `a` to a name inside of it makes `a` its own only parent. -/
theorem tree_broken : ∃ s : Tmpfs,
    (machine (fun parent _ => parent) fun _ _ => True).Reachable s ∧ s.Directory 1 ∧
    TransGen s.DirEdge 1 1 ∧ (s.inode 0).entries = [(DOT, 0)] := by
  have h0 : (machine (fun parent _ => parent) fun _ _ => True).Reachable _ := .of_init rfl
  have h2 := h0.after [.mkdirAt (.entry ROOT [97]) 0o755,
    .renameAt (.entry ROOT [97]) (.entry 2 [98]) false false]
    ⟨⟨by decide, trivial⟩, ⟨by decide, trivial⟩, trivial⟩
  exact ⟨_, h2, by decide, TransGen.single ⟨[98], by decide⟩, rfl⟩

end Tmpfs

end Dlutos.Vfs
