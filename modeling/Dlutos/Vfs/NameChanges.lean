import Dlutos.Vfs.Names

/-!
# The three ways to change a name

A creation saves an inode in the hashed negative dentry of a name (`Saved`), unlinking takes the
hashed dentry of a name out of the cache (`Unlinked`), and a rename exchanges two hashed dentries
(`Renamed`).  Each is described by what it does to the cache, to the directories and to the link
counts, and keeps `Names`.
-/

namespace Dlutos.Vfs

open Function

/-- The links of an inode that are counted when it is made. -/
def Format.ownLinks : Format → ℕ
  | .lnk => 0
  | _ => 1

namespace Tmpfs

variable {H : ℕ → Name → ℕ} {s s' : Tmpfs} {c d i j : ℕ} {n : Name} {f : DentryFlags}

/-! ### Creation -/

/-- The inode `j` was saved in the hashed negative dentry `c` and listed in the directory. -/
structure Saved (s s' : Tmpfs) (d i : ℕ) (n : Name) (c j : ℕ) (f : DentryFlags) : Prop where
  isDir : s.IsDir d i
  child : s.cache.Child d n c
  negative : (s.dentry c).data = none
  cache : s'.cache = s.cache.setDentry c { s.cache.dentry c with data := some ⟨j, f⟩ }
  entries : (s'.inode i).entries = (s.inode i).entries ++ [(n, j)]
  size : (s'.inode i).size = (s.inode i).size + 1
  other {x : ℕ} (hx : x < s.nextIno) (hxi : x ≠ i) :
    (s'.inode x).entries = (s.inode x).entries ∧ (s'.inode x).size = (s.inode x).size
  format {x : ℕ} (hx : x < s.nextIno) : (s'.inode x).format = (s.inode x).format
  ino : (j = s.nextIno ∧ s'.nextIno = j + 1) ∨
    (j < s.nextIno ∧ s'.nextIno = s.nextIno ∧ f ≠ .directory)
  new_dir (hj : j = s.nextIno) : (s'.inode j).format = .dir ↔ f = .directory
  new_entries (hf : f = .directory) :
    (s'.inode j).entries = [(DOT, j)] ∧ (s'.inode j).size = 1
  nlink {x : ℕ} (hx : x ≠ j) : (s'.inode x).nlink = (s.inode x).nlink
  nlink_self : (s'.inode j).nlink =
    (if j = s.nextIno then (s'.inode j).format.ownLinks else (s.inode j).nlink) + 1

variable {m : Name} {x y k : ℕ}

namespace Saved

section

variable (hs : s.Saved s' d i n c j f)
include hs

theorem hashed_iff (h : s.Names H) : s'.cache.Hashed x ↔ s.cache.Hashed x := by
  rw [hs.cache]
  exact (h.cache.setData c (some ⟨j, f⟩)).2 x

theorem dentry_self :
    s'.dentry c = { s.dentry c with data := some ⟨j, f⟩ } := by
  rw [dentry, hs.cache, Dcache.dentry_setDentry_self]

theorem dentry_of_ne (hx : x ≠ c) : s'.dentry x = s.dentry x := by
  rw [dentry, hs.cache, Dcache.dentry_setDentry_of_ne _ hx]

theorem key_eq (x : ℕ) :
    (s'.dentry x).parent = (s.dentry x).parent ∧ (s'.dentry x).name = (s.dentry x).name := by
  by_cases hx : x = c
  · subst hx
    rw [hs.dentry_self]
    exact ⟨rfl, rfl⟩
  · rw [hs.dentry_of_ne hx]
    exact ⟨rfl, rfl⟩

theorem child_iff (h : s.Names H) : s'.cache.Child x m y ↔ s.cache.Child x m y := by
  rw [Dcache.Child, Dcache.Child, hs.hashed_iff h,
    show (s'.cache.dentry y).parent = _ from (hs.key_eq y).1,
    show (s'.cache.dentry y).name = _ from (hs.key_eq y).2]

theorem data_iff {data : DentryData} :
    (s'.dentry x).data = some data ↔
      (s.dentry x).data = some data ∨ (x = c ∧ data = ⟨j, f⟩) := by
  by_cases hx : x = c
  · subst hx
    rw [hs.dentry_self, hs.negative]
    simp [eq_comm]
  · rw [hs.dentry_of_ne hx]
    simp [hx]

theorem isDir_iff : s'.IsDir x k ↔ s.IsDir x k ∨ (x = c ∧ k = j ∧ f = .directory) := by
  rw [IsDir, hs.data_iff, IsDir]
  simp only [DentryData.mk.injEq, eq_comm (a := DentryFlags.directory)]

theorem resolves_iff (h : s.Names H) :
    s'.Resolves x m k ↔ s.Resolves x m k ∨ (x = d ∧ m = n ∧ k = j) := by
  constructor
  · rintro ⟨y, g, hy, hyd⟩
    rw [hs.child_iff h] at hy
    rcases hs.data_iff.mp hyd with hyd | ⟨rfl, hk⟩
    · exact Or.inl ⟨y, g, hy, hyd⟩
    · cases hk
      exact Or.inr ⟨hy.2.1.symm.trans hs.child.2.1, hy.2.2.symm.trans hs.child.2.2, rfl⟩
  · rintro (⟨y, g, hy, hyd⟩ | ⟨rfl, rfl, rfl⟩)
    · exact ⟨y, g, (hs.child_iff h).mpr hy, hs.data_iff.mpr (Or.inl hyd)⟩
    · exact ⟨c, f, (hs.child_iff h).mpr hs.child, hs.data_iff.mpr (Or.inr ⟨rfl, rfl⟩)⟩

theorem no_child (h : s.Names H) : ¬ s.cache.Child c m y := by
  rintro ⟨hy, hp, -⟩
  by_cases hyr : y = ROOT
  · subst hyr
    exact h.droot.2 ((h.root.1.symm.trans hp) ▸ hs.child.1)
  · obtain ⟨k, hk⟩ := h.parent_dir hy hyr
    rw [show (s.dentry y).parent = c from hp, IsDir, hs.negative] at hk
    cases hk

theorem nextIno_le : s.nextIno ≤ s'.nextIno := by
  rcases hs.ino with ⟨rfl, hnext⟩ | ⟨-, hnext, -⟩ <;> omega

theorem ino_lt : j < s'.nextIno := by
  rcases hs.ino with ⟨rfl, hnext⟩ | ⟨hj, hnext, -⟩ <;> omega

theorem ino_eq (hf : f = .directory) : j = s.nextIno := by
  rcases hs.ino with ⟨hj, -⟩ | ⟨-, -, hne⟩
  · exact hj
  · exact absurd hf hne

theorem names (h : s.Names H) : s'.Names H := by
  have hc0 : (0 : ℕ) ≠ c := fun he => h.droot.2 (he ▸ hs.child.1)
  have hnotOld : f = .directory → ∀ {x}, ¬ s.IsDir x j := fun hf x hx => by
    have := (h.data_lt hx).2
    rw [hs.ino_eq hf] at this
    exact Nat.lt_irrefl _ this
  refine ⟨?_, ⟨?_, ?_⟩, ⟨?_, ?_⟩, ?_, ?_, ?_, ?_, ?_, ?_, ?_⟩
  · rw [hs.cache]
    exact (h.cache.setData c (some ⟨j, f⟩)).1
  · rw [hs.dentry_of_ne hc0]
    exact h.droot.1
  · rw [hs.hashed_iff h]
    exact h.droot.2
  · rw [(hs.key_eq ROOT).1]
    exact h.root.1
  · exact hs.isDir_iff.mpr (Or.inl h.root.2)
  · intro x data hx
    rw [show s'.cache.count = s.cache.count by rw [hs.cache]; rfl]
    rcases hs.data_iff.mp hx with hx | ⟨rfl, rfl⟩
    · exact ⟨(h.data_lt hx).1, ((h.data_lt hx).2).trans_le hs.nextIno_le⟩
    · exact ⟨h.cache.threads.lt hs.child.1, hs.ino_lt⟩
  · intro x hx hxr
    rw [hs.hashed_iff h] at hx
    obtain ⟨k, hk⟩ := h.parent_dir hx hxr
    refine ⟨k, hs.isDir_iff.mpr (Or.inl ?_)⟩
    rwa [(hs.key_eq x).1]
  · intro x hx
    rw [hs.hashed_iff h] at hx
    rw [(hs.key_eq x).2]
    exact h.name_ne hx
  · intro x y k hx hy
    rcases hs.isDir_iff.mp hx with hx | ⟨rfl, rfl, hf⟩
    · rcases hs.isDir_iff.mp hy with hy | ⟨rfl, rfl, hf⟩
      · exact h.dir_unique hx hy
      · exact absurd hx (hnotOld hf)
    · rcases hs.isDir_iff.mp hy with hy | ⟨rfl, -, -⟩
      · exact absurd hy (hnotOld hf)
      · rfl
  · intro k hk hkf
    by_cases hold : k < s.nextIno
    · rw [hs.format hold] at hkf
      obtain ⟨x, hx⟩ := h.dir_exists hold hkf
      exact ⟨x, hs.isDir_iff.mpr (Or.inl hx)⟩
    · rcases hs.ino with ⟨hj, hnext⟩ | ⟨-, hnext, -⟩
      · obtain rfl : k = j := by omega
        exact ⟨c, hs.isDir_iff.mpr (Or.inr ⟨rfl, rfl, (hs.new_dir hj).mp hkf⟩)⟩
      · omega
  · intro x k hx
    rcases hs.isDir_iff.mp hx with hx | ⟨-, rfl, hf⟩
    · rw [hs.format (h.data_lt hx).2]
      exact h.dir_format hx
    · exact (hs.new_dir (hs.ino_eq hf)).mpr hf
  · intro x k hx
    rcases hs.isDir_iff.mp hx with hx | ⟨rfl, rfl, hf⟩
    · by_cases hki : k = i
      · subst hki
        obtain rfl := h.dir_unique hx hs.isDir
        rw [hs.entries, hs.size]
        refine (h.listing hx).insert (List.perm_append_singleton _ _) ?_ fun m l => ?_
        · rintro l (⟨rfl, -⟩ | hl)
          · exact (h.name_ne hs.child.1).1 hs.child.2.2
          · exact h.not_resolves hs.child hs.negative hl
        · rw [Named, Named, hs.resolves_iff h]
          tauto
      · obtain ⟨hent, hsz⟩ := hs.other (h.data_lt hx).2 hki
        rw [hent, hsz]
        refine (h.listing hx).congr fun m l => ?_
        rw [Named, Named, hs.resolves_iff h]
        have hxd : x ≠ d := fun he => hki ((he ▸ hx : s.IsDir d k).ino_unique hs.isDir)
        tauto
    · obtain ⟨hent, hsz⟩ := hs.new_entries hf
      rw [hent, hsz]
      refine ⟨rfl, by simp, fun m l => ?_⟩
      have hnone : ¬ s'.Resolves x m l := by
        rw [hs.resolves_iff h]
        rintro (⟨y, -, hy, -⟩ | ⟨rfl, -, -⟩)
        · exact hs.no_child h hy
        · have hd := hs.isDir
          rw [IsDir, hs.negative] at hd
          cases hd
      simp [Named, hnone]

end

end Saved

/-! ### Changes that keep the inodes of all dentries -/

theorem Names.keep (h : s.Names H) (hcache : s'.cache.CacheInv H)
    (hcount : s'.cache.count = s.cache.count) (hnext : s'.nextIno = s.nextIno)
    (hdata : ∀ x, (s'.dentry x).data = (s.dentry x).data)
    (hformat : ∀ x, (s'.inode x).format = (s.inode x).format)
    (hdroot : ¬ s'.cache.Hashed 0) (hroot : (s'.dentry ROOT).parent = 0)
    (hkey : ∀ x, s'.cache.Hashed x → ∃ y, s.cache.Hashed y ∧ (y = ROOT → x = ROOT) ∧
      (s'.dentry x).parent = (s.dentry y).parent ∧ (s'.dentry x).name = (s.dentry y).name)
    (hlisting : ∀ d i, s.IsDir d i →
      Listing (s'.inode i).entries (s'.inode i).size (s'.Named d i)) : s'.Names H := by
  have hisDir : ∀ x k, s'.IsDir x k ↔ s.IsDir x k := fun x k => by rw [IsDir, IsDir, hdata]
  refine ⟨hcache, ⟨(hdata 0).trans h.droot.1, hdroot⟩, ⟨hroot, (hisDir _ _).mpr h.root.2⟩,
    ?_, ?_, ?_, ?_, ?_, ?_, ?_⟩
  · intro x data hx
    rw [hdata] at hx
    rw [hcount, hnext]
    exact h.data_lt hx
  · intro x hx hxr
    obtain ⟨y, hy, hyr, hp, -⟩ := hkey x hx
    obtain ⟨k, hk⟩ := h.parent_dir hy fun he => hxr (hyr he)
    refine ⟨k, (hisDir _ _).mpr ?_⟩
    rwa [hp]
  · intro x hx
    obtain ⟨y, hy, -, -, hn⟩ := hkey x hx
    rw [hn]
    exact h.name_ne hy
  · intro x y k hx hy
    exact h.dir_unique ((hisDir _ _).mp hx) ((hisDir _ _).mp hy)
  · intro k hk hf
    rw [hnext] at hk
    rw [hformat] at hf
    obtain ⟨x, hx⟩ := h.dir_exists hk hf
    exact ⟨x, (hisDir _ _).mpr hx⟩
  · intro x k hx
    rw [hformat]
    exact h.dir_format ((hisDir _ _).mp hx)
  · intro x k hx
    exact hlisting x k ((hisDir _ _).mp hx)

/-! ### Unlinking -/

/-- The hashed dentry `c` left the cache, its entry the directory, and the counters were
decremented. -/
structure Unlinked (s s' : Tmpfs) (d i : ℕ) (n : Name) (c j : ℕ) : Prop where
  isDir : s.IsDir d i
  child : s.cache.Child d n c
  data : ∃ f, (s.dentry c).data = some ⟨j, f⟩
  cache : s'.cache = s.cache.dRemove c
  nextIno : s'.nextIno = s.nextIno
  entries : (s'.inode i).entries = (s.inode i).entries.filter fun e => e.2 != j || e.1 != n
  size : (s'.inode i).size = fetchSub (s.inode i).size
  other {x : ℕ} (hx : x ≠ i) :
    (s'.inode x).entries = (s.inode x).entries ∧ (s'.inode x).size = (s.inode x).size
  format (x : ℕ) : (s'.inode x).format = (s.inode x).format
  nlink {x : ℕ} (hx : x ≠ j) : (s'.inode x).nlink = (s.inode x).nlink
  nlink_self : (s'.inode j).nlink = fetchSub (s.inode j).nlink

namespace Unlinked

section

variable (hu : s.Unlinked s' d i n c j)
include hu

theorem dentry_eq (x : ℕ) : s'.dentry x = s.dentry x := by
  rw [dentry, hu.cache]
  rfl

theorem hashed_iff (h : s.Names H) : s'.cache.Hashed x ↔ s.cache.Hashed x ∧ x ≠ c := by
  rw [hu.cache]
  exact (h.cache.dRemove hu.child.1).2 x

theorem child_iff (h : s.Names H) : s'.cache.Child x m y ↔ s.cache.Child x m y ∧ y ≠ c := by
  rw [Dcache.Child, Dcache.Child, hu.hashed_iff h,
    show s'.cache.dentry y = s.cache.dentry y from hu.dentry_eq y]
  tauto

theorem resolves_iff (h : s.Names H) :
    s'.Resolves x m k ↔ s.Resolves x m k ∧ ¬ (x = d ∧ m = n) := by
  constructor
  · rintro ⟨y, g, hy, hyd⟩
    rw [hu.child_iff h] at hy
    rw [hu.dentry_eq] at hyd
    refine ⟨⟨y, g, hy.1, hyd⟩, ?_⟩
    rintro ⟨rfl, rfl⟩
    exact hy.2 (h.cache.child_unique hy.1 hu.child)
  · rintro ⟨⟨y, g, hy, hyd⟩, hne⟩
    refine ⟨y, g, (hu.child_iff h).mpr ⟨hy, ?_⟩, by rwa [hu.dentry_eq]⟩
    rintro rfl
    exact hne ⟨hy.2.1.symm.trans hu.child.2.1, hy.2.2.symm.trans hu.child.2.2⟩

theorem resolves : s.Resolves d n j := by
  obtain ⟨f, hf⟩ := hu.data
  exact ⟨c, f, hu.child, hf⟩

theorem listing (h : s.Names H) :
    0 < (s.inode i).size ∧ Listing (s'.inode i).entries (s'.inode i).size (s'.Named d i) := by
  have hlist := h.listing hu.isDir
  have hnamed : s.Named d i n j := Or.inr hu.resolves
  have hafter : ∀ m l, s'.Named d i m l ↔ s.Named d i m l ∧ m ≠ n := by
    intro m l
    rw [Named, Named, hu.resolves_iff h]
    have hdot : m = DOT → m ≠ n := fun he hn => h.ne_dot hu.resolves (hn ▸ he)
    tauto
  obtain ⟨hpos, hrest⟩ := hlist.erase (hlist.perm_filter hnamed) hafter
  rw [hu.entries, hu.size, fetchSub_of_pos hpos]
  exact ⟨hpos, hrest⟩

theorem names (h : s.Names H) : s'.Names H := by
  refine h.keep ?_ (by rw [hu.cache]; rfl) hu.nextIno (fun x => by rw [hu.dentry_eq])
    hu.format ?_ ?_ ?_ ?_
  · rw [hu.cache]
    exact (h.cache.dRemove hu.child.1).1
  · rw [hu.hashed_iff h]
    exact fun h0 => h.droot.2 h0.1
  · rw [hu.dentry_eq]
    exact h.root.1
  · intro x hx
    rw [hu.hashed_iff h] at hx
    exact ⟨x, hx.1, id, by rw [hu.dentry_eq], by rw [hu.dentry_eq]⟩
  · intro x k hx
    by_cases hki : k = i
    · subst hki
      obtain rfl := h.dir_unique hx hu.isDir
      exact (hu.listing h).2
    · obtain ⟨hent, hsz⟩ := hu.other hki
      rw [hent, hsz]
      refine (h.listing hx).congr fun m l => ?_
      rw [Named, Named, hu.resolves_iff h]
      have hxd : x ≠ d := fun he => hki ((he ▸ hx : s.IsDir d k).ino_unique hu.isDir)
      tauto

end

end Unlinked

/-! ### Renaming -/

/-- One end of a rename: a name in a directory and its dentry. -/
structure End where
  dir : ℕ
  ino : ℕ
  name : Name
  dentry : ℕ

structure End.At (e : End) (s : Tmpfs) : Prop where
  isDir : s.IsDir e.dir e.ino
  child : s.cache.Child e.dir e.name e.dentry

/-- The hashed dentry `old` was exchanged with `new`, which was negative or in the same directory,
and then left the cache. -/
structure Exchanged (s : Tmpfs) (H : ℕ → Name → ℕ) (s' : Tmpfs) (old new : End) (j : ℕ) : Prop where
  old_at : old.At s
  new_at : new.At s
  ne : old.dentry ≠ new.dentry
  data : ∃ f, (s.dentry old.dentry).data = some ⟨j, f⟩
  target : old.dir = new.dir ∨ (s.dentry new.dentry).data = none
  cache : s'.cache.CacheInv H
  count : s'.cache.count = s.cache.count
  hashed {x : ℕ} : s'.cache.Hashed x ↔
    s.cache.Hashed x ∧ ¬ (old.dir = new.dir ∧ x = new.dentry)
  key (x : ℕ) : (s'.dentry x).parent = (s.dentry (Equiv.swap old.dentry new.dentry x)).parent ∧
    (s'.dentry x).name = (s.dentry (Equiv.swap old.dentry new.dentry x)).name ∧
    (s'.dentry x).data = (s.dentry x).data

/-- The dentries were exchanged, and the entry of `old` moved to the name `new`. -/
structure Renamed (s : Tmpfs) (H : ℕ → Name → ℕ) (s' : Tmpfs) (old new : End) (j : ℕ) : Prop
    extends s.Exchanged H s' old new j where
  nextIno : s'.nextIno = s.nextIno
  format (x : ℕ) : (s'.inode x).format = (s.inode x).format
  nlink (x : ℕ) : (s'.inode x).nlink =
    if (s.dentry new.dentry).data.map (·.ino) = some x then fetchSub (s.inode x).nlink
    else (s.inode x).nlink
  same (hdir : old.dir = new.dir) : ∃ kept rest,
    (((s.dentry new.dentry).data = none ∧ kept = (s.inode old.ino).entries ∧
        (s'.inode old.ino).size = (s.inode old.ino).size) ∨
      ∃ k g, (s.dentry new.dentry).data = some ⟨k, g⟩ ∧
        (s.inode old.ino).entries.Perm ((new.name, k) :: kept) ∧
        (s'.inode old.ino).size = fetchSub (s.inode old.ino).size) ∧
    kept.Perm ((old.name, j) :: rest) ∧ (s'.inode old.ino).entries.Perm ((new.name, j) :: rest)
  cross_old (hdir : old.dir ≠ new.dir) :
    (s.inode old.ino).entries.Perm ((old.name, j) :: (s'.inode old.ino).entries) ∧
    (s'.inode old.ino).size = fetchSub (s.inode old.ino).size
  cross_new (hdir : old.dir ≠ new.dir) :
    (s'.inode new.ino).entries.Perm ((new.name, j) :: (s.inode new.ino).entries) ∧
    (s'.inode new.ino).size = (s.inode new.ino).size + 1
  other {x : ℕ} (hold : x ≠ old.ino) (hnew : x ≠ new.ino) :
    (s'.inode x).entries = (s.inode x).entries ∧ (s'.inode x).size = (s.inode x).size

variable {old new : End}

theorem End.At.ne_root {e : End} (he : e.At s) (h : s.Names H) : e.dentry ≠ ROOT := by
  intro hroot
  have hdir := he.isDir
  rw [← he.child.2.1, hroot, show (s.cache.dentry ROOT).parent = 0 from h.root.1, IsDir,
    h.droot.1] at hdir
  cases hdir

namespace Exchanged

section

variable (hx : s.Exchanged H s' old new j)
include hx

theorem child_iff :
    s'.cache.Child x m y ↔ s.cache.Child x m (Equiv.swap old.dentry new.dentry y) ∧
      ¬ (old.dir = new.dir ∧ y = new.dentry) := by
  have hswap : s.cache.Hashed (Equiv.swap old.dentry new.dentry y) ↔ s.cache.Hashed y := by
    rcases eq_or_ne y old.dentry with rfl | hyo
    · simp [hx.old_at.child.1, hx.new_at.child.1]
    · rcases eq_or_ne y new.dentry with rfl | hyn
      · simp [hx.old_at.child.1, hx.new_at.child.1]
      · rw [Equiv.swap_apply_of_ne_of_ne hyo hyn]
  rw [Dcache.Child, Dcache.Child, hx.hashed, hswap,
    show (s'.cache.dentry y).parent = _ from (hx.key y).1,
    show (s'.cache.dentry y).name = _ from (hx.key y).2.1]
  tauto

theorem resolves_iff (h : s.Names H) :
    s'.Resolves x m k ↔ (x = new.dir ∧ m = new.name ∧ k = j) ∨
      (s.Resolves x m k ∧ ¬ (x = old.dir ∧ m = old.name) ∧ ¬ (x = new.dir ∧ m = new.name)) := by
  obtain ⟨f, hdata⟩ := hx.data
  constructor
  · rintro ⟨y, g, hy, hyd⟩
    rw [hx.child_iff] at hy
    rw [(hx.key y).2.2] at hyd
    rcases eq_or_ne y old.dentry with rfl | hyo
    · rw [Equiv.swap_apply_left] at hy
      rw [hdata] at hyd
      cases hyd
      exact Or.inl ⟨hy.1.2.1.symm.trans hx.new_at.child.2.1,
        hy.1.2.2.symm.trans hx.new_at.child.2.2, rfl⟩
    · rcases eq_or_ne y new.dentry with rfl | hyn
      · rcases hx.target with hdir | hneg
        · exact absurd ⟨hdir, rfl⟩ hy.2
        · rw [hneg] at hyd
          cases hyd
      · rw [Equiv.swap_apply_of_ne_of_ne hyo hyn] at hy
        refine Or.inr ⟨⟨y, g, hy.1, hyd⟩, ?_, ?_⟩
        · rintro ⟨rfl, rfl⟩
          exact hyo (h.cache.child_unique hy.1 hx.old_at.child)
        · rintro ⟨rfl, rfl⟩
          exact hyn (h.cache.child_unique hy.1 hx.new_at.child)
  · rintro (⟨rfl, rfl, rfl⟩ | ⟨⟨y, g, hy, hyd⟩, hold, hnew⟩)
    · refine ⟨old.dentry, f, hx.child_iff.mpr ⟨?_, fun he => hx.ne he.2⟩, ?_⟩
      · rw [Equiv.swap_apply_left]
        exact hx.new_at.child
      · rw [(hx.key _).2.2]
        exact hdata
    · have hyo : y ≠ old.dentry := by
        rintro rfl
        exact hold ⟨hy.2.1.symm.trans hx.old_at.child.2.1, hy.2.2.symm.trans hx.old_at.child.2.2⟩
      have hyn : y ≠ new.dentry := by
        rintro rfl
        exact hnew ⟨hy.2.1.symm.trans hx.new_at.child.2.1, hy.2.2.symm.trans hx.new_at.child.2.2⟩
      refine ⟨y, g, hx.child_iff.mpr ⟨?_, fun he => hyn he.2⟩, ?_⟩
      · rwa [Equiv.swap_apply_of_ne_of_ne hyo hyn]
      · rwa [(hx.key _).2.2]

theorem resolves_old : s.Resolves old.dir old.name j := by
  obtain ⟨f, hdata⟩ := hx.data
  exact ⟨old.dentry, f, hx.old_at.child, hdata⟩

theorem key_ne (h : s.Names H) (hdir : old.dir = new.dir) :
    old.name ≠ new.name := by
  intro hname
  have hc := hx.old_at.child
  rw [hdir, hname] at hc
  exact hx.ne (h.cache.child_unique hc hx.new_at.child)

theorem ne_dot (h : s.Names H) :
    old.name ≠ DOT ∧ new.name ≠ DOT := by
  refine ⟨?_, ?_⟩
  · rw [← hx.old_at.child.2.2]
    exact (h.name_ne hx.old_at.child.1).1
  · rw [← hx.new_at.child.2.2]
    exact (h.name_ne hx.new_at.child.1).1

end

end Exchanged

namespace Renamed

theorem listing_same (hr : s.Renamed H s' old new j) (h : s.Names H) (hdir : old.dir = new.dir) :
    Listing (s'.inode old.ino).entries (s'.inode old.ino).size (s'.Named old.dir old.ino) := by
  obtain ⟨kept, rest, hkept, hold, hnew⟩ := hr.same hdir
  have hlist := h.listing hr.old_at.isDir
  have hdot := hr.toExchanged.ne_dot h
  have hne := hr.toExchanged.key_ne h hdir
  -- first the entry of the new name goes, if there is one
  have hkeptList : Listing kept (s'.inode old.ino).size fun m l =>
      s.Named old.dir old.ino m l ∧ m ≠ new.name := by
    rcases hkept with ⟨hneg, rfl, hsize⟩ | ⟨k, g, hdata, hperm, hsize⟩
    · rw [hsize]
      refine hlist.congr fun m l => and_iff_left_of_imp ?_
      rintro (⟨hm, -⟩ | hres) rfl
      · exact hdot.2 hm
      · rw [hdir] at hres
        exact h.not_resolves hr.new_at.child hneg hres
    · obtain ⟨hpos, hrest⟩ := hlist.erase hperm fun m l => Iff.rfl
      rw [hsize, fetchSub_of_pos hpos]
      exact hrest
  refine hkeptList.rename hold hnew (fun y hy => hy.2 rfl) fun m l => ?_
  rw [Named, Named, hr.toExchanged.resolves_iff h]
  have hm : m = DOT → m ≠ old.name ∧ m ≠ new.name := fun he =>
    ⟨fun ho => hdot.1 (ho ▸ he), fun hn => hdot.2 (hn ▸ he)⟩
  simp only [hdir, true_and]
  tauto

theorem names (hr : s.Renamed H s' old new j) (h : s.Names H) : s'.Names H := by
  have hx := hr.toExchanged
  have hold := hr.old_at.ne_root h
  have hnew := hr.new_at.ne_root h
  have hrootSwap : Equiv.swap old.dentry new.dentry ROOT = ROOT :=
    Equiv.swap_apply_of_ne_of_ne hold.symm hnew.symm
  refine h.keep hr.cache hr.count hr.nextIno (fun x => (hr.key x).2.2) hr.format ?_ ?_ ?_ ?_
  · rw [hr.hashed]
    exact fun h0 => h.droot.2 h0.1
  · rw [(hr.key ROOT).1, hrootSwap]
    exact h.root.1
  · intro x hxh
    have hchild : s'.cache.Child (s'.dentry x).parent (s'.dentry x).name x := ⟨hxh, rfl, rfl⟩
    refine ⟨_, (hx.child_iff.mp hchild).1.1, fun hroot => ?_, (hr.key x).1, (hr.key x).2.1⟩
    rw [← hrootSwap] at hroot
    exact (Equiv.swap old.dentry new.dentry).injective hroot
  · intro d i hd
    by_cases hio : i = old.ino
    · subst hio
      obtain rfl := h.dir_unique hd hr.old_at.isDir
      by_cases hdir : old.dir = new.dir
      · exact hr.listing_same h hdir
      · obtain ⟨hperm, hsize⟩ := hr.cross_old hdir
        have hafter : ∀ m l, s'.Named old.dir old.ino m l ↔
            s.Named old.dir old.ino m l ∧ m ≠ old.name := by
          intro m l
          rw [Named, Named, hx.resolves_iff h]
          have hm : m = DOT → m ≠ old.name := fun he ho => (hx.ne_dot h).1 (ho ▸ he)
          tauto
        obtain ⟨hpos, hrest⟩ := (h.listing hd).erase hperm hafter
        rw [hsize, fetchSub_of_pos hpos]
        exact hrest
    · have hdo : d ≠ old.dir := fun he =>
        hio ((he ▸ hd : s.IsDir old.dir i).ino_unique hr.old_at.isDir)
      by_cases hin : i = new.ino
      · subst hin
        obtain rfl := h.dir_unique hd hr.new_at.isDir
        obtain ⟨hperm, hsize⟩ := hr.cross_new hdo.symm
        have hneg := hr.target.resolve_left hdo.symm
        have hfree : ∀ l, ¬ s.Resolves new.dir new.name l := fun l =>
          h.not_resolves hr.new_at.child hneg
        rw [hsize]
        refine (h.listing hd).insert hperm ?_ fun m l => ?_
        · rintro l (⟨hm, -⟩ | hres)
          · exact (hx.ne_dot h).2 hm
          · exact hfree l hres
        · rw [Named, Named, hx.resolves_iff h]
          have hm : s.Resolves new.dir m l → m ≠ new.name := fun hres he => hfree l (he ▸ hres)
          tauto
      · obtain ⟨hent, hsz⟩ := hr.other hio hin
        rw [hent, hsz]
        refine (h.listing hd).congr fun m l => ?_
        have hdn : d ≠ new.dir := fun he =>
          hin ((he ▸ hd : s.IsDir new.dir i).ino_unique hr.new_at.isDir)
        rw [Named, Named, hx.resolves_iff h]
        tauto

end Renamed

end Tmpfs

end Dlutos.Vfs
