import Dlutos.Foundation.Listing
import Dlutos.Vfs.Tmpfs

/-!
# Names: the cache and the directories agree

`Resolves` is the relation between names and inodes that the dentry cache defines.  The invariant
`Names` says that the entry list of every directory lists this relation, besides its own `.`, and
that the size of a directory counts its entries.
-/

namespace Dlutos.Vfs

open Function

namespace Tmpfs

variable {H : ℕ → Name → ℕ} {s s' : Tmpfs} {c d i j : ℕ} {n : Name}

def Resolves (s : Tmpfs) (d : ℕ) (n : Name) (j : ℕ) : Prop :=
  ∃ c f, s.cache.Child d n c ∧ (s.dentry c).data = some ⟨j, f⟩

def IsDir (s : Tmpfs) (d i : ℕ) : Prop := (s.dentry d).data = some ⟨i, .directory⟩

def Named (s : Tmpfs) (d i : ℕ) (n : Name) (j : ℕ) : Prop := (n = DOT ∧ j = i) ∨ s.Resolves d n j

structure Names (H : ℕ → Name → ℕ) (s : Tmpfs) : Prop where
  cache : s.cache.CacheInv H
  droot : (s.dentry 0).data = none ∧ ¬ s.cache.Hashed 0
  root : (s.dentry ROOT).parent = 0 ∧ s.IsDir ROOT 0
  data_lt {c : ℕ} {data : DentryData} (hc : (s.dentry c).data = some data) :
    c < s.cache.count ∧ data.ino < s.nextIno
  parent_dir {c : ℕ} (hc : s.cache.Hashed c) (hroot : c ≠ ROOT) :
    ∃ i, s.IsDir (s.dentry c).parent i
  name_ne {c : ℕ} (hc : s.cache.Hashed c) :
    (s.dentry c).name ≠ DOT ∧ (s.dentry c).name ≠ DOTDOT
  dir_unique {d d' i : ℕ} (hd : s.IsDir d i) (hd' : s.IsDir d' i) : d = d'
  dir_exists {i : ℕ} (hi : i < s.nextIno) (hf : (s.inode i).format = .dir) : ∃ d, s.IsDir d i
  dir_format {d i : ℕ} (hd : s.IsDir d i) : (s.inode i).format = .dir
  listing {d i : ℕ} (hd : s.IsDir d i) :
    Listing (s.inode i).entries (s.inode i).size (s.Named d i)

theorem IsDir.ino_unique {i' : ℕ} (hd : s.IsDir d i) (hd' : s.IsDir d i') : i = i' := by
  have heq : some (DentryData.mk i .directory) = some ⟨i', .directory⟩ := hd.symm.trans hd'
  cases heq
  rfl

theorem resolves_of_data {f : DentryFlags} (hc : s.cache.Child d n c)
    (hdata : (s.dentry c).data = some ⟨j, f⟩) : s.Resolves d n j :=
  ⟨c, f, hc, hdata⟩

theorem Names.resolves_iff (h : s.Names H) (hc : s.cache.Child d n c) :
    s.Resolves d n j ↔ ∃ f, (s.dentry c).data = some ⟨j, f⟩ := by
  constructor
  · rintro ⟨c', f, hc', hdata⟩
    rw [h.cache.child_unique hc hc']
    exact ⟨f, hdata⟩
  · rintro ⟨f, hdata⟩
    exact ⟨c, f, hc, hdata⟩

theorem Names.not_resolves (h : s.Names H) (hc : s.cache.Child d n c)
    (hneg : (s.dentry c).data = none) : ¬ s.Resolves d n j := by
  rw [h.resolves_iff hc, hneg]
  simp

theorem Names.ne_dot (h : s.Names H) (hr : s.Resolves d n j) : n ≠ DOT := by
  obtain ⟨c, -, hc, -⟩ := hr
  rw [← hc.2.2]
  exact (h.name_ne hc.1).1

/-! ### A fresh mount -/

theorem threads_boot (H : ℕ → Name → ℕ) : (Dcache.boot H).Threads fun x => x = ROOT := by
  have hempty : (⟨.empty, fun _ => .create H 0 ROOT_NAME, 1⟩ : Dcache).Threads fun _ => False :=
    ⟨fun _ => [], Links.Represents.empty, fun _ _ hc => absurd hc List.not_mem_nil,
      fun _ => by simp⟩
  have hadd := (hempty.alloc { Dentry.create H 0 ROOT_NAME with data := some ⟨0, .directory⟩ }).dAdd
    (c := ROOT) id Nat.one_lt_two
  exact hadd.congr fun x => by simp

theorem boot_data {x : ℕ} {data : DentryData} (hx : ((Tmpfs.boot H).dentry x).data = some data) :
    x = ROOT ∧ data = ⟨0, .directory⟩ := by
  by_cases hroot : x = ROOT
  · subst hroot
    exact ⟨rfl, (Option.some.inj hx).symm⟩
  · rw [show (Tmpfs.boot H).dentry x = .create H 0 ROOT_NAME from
      Dcache.dentry_alloc_of_ne _ hroot] at hx
    cases hx

theorem boot_hashed {x : ℕ} : (Tmpfs.boot H).cache.Hashed x ↔ x = ROOT :=
  (threads_boot H).hashed_iff

theorem boot_not_resolves : ¬ (Tmpfs.boot H).Resolves ROOT n j := by
  rintro ⟨y, -, ⟨hy, hp, -⟩, -⟩
  rw [boot_hashed.mp hy] at hp
  exact absurd hp Nat.zero_ne_one

theorem Names.boot (H : ℕ → Name → ℕ) : (Tmpfs.boot H).Names H := by
  have hdir : ∀ {x i}, (Tmpfs.boot H).IsDir x i → x = ROOT ∧ i = 0 := fun hx =>
    ⟨(boot_data hx).1, congrArg DentryData.ino (boot_data hx).2⟩
  refine ⟨(threads_boot H).cacheInv (fun x _ => ?_) ?_, ⟨rfl, ?_⟩, ⟨rfl, rfl⟩, ?_, ?_, ?_, ?_, ?_,
    ?_, ?_⟩
  · by_cases hx : x = ROOT
    · subst hx
      rfl
    · rw [show (Dcache.boot H).dentry x = .create H 0 ROOT_NAME from
        Dcache.dentry_alloc_of_ne _ hx]
      rfl
  · rintro x y rfl rfl - -
    rfl
  · rw [boot_hashed]
    decide
  · intro x data hx
    obtain ⟨rfl, rfl⟩ := boot_data hx
    exact ⟨Nat.one_lt_two, Nat.zero_lt_one⟩
  · intro x hx hroot
    exact absurd (boot_hashed.mp hx) hroot
  · intro x hx
    rw [boot_hashed.mp hx]
    show ROOT_NAME ≠ DOT ∧ ROOT_NAME ≠ DOTDOT
    decide
  · intro x y i hx hy
    exact (hdir hx).1.trans (hdir hy).1.symm
  · intro i hi _
    obtain rfl : i = 0 := by simpa [Tmpfs.boot] using hi
    exact ⟨ROOT, rfl⟩
  · intro x i hx
    obtain ⟨-, rfl⟩ := hdir hx
    rfl
  · intro x i hx
    obtain ⟨rfl, rfl⟩ := hdir hx
    refine ⟨rfl, by simp [Tmpfs.boot, Inode.newDirectory], fun m k => ?_⟩
    rw [Named, or_iff_left boot_not_resolves]
    show (m, k) ∈ [(DOT, 0)] ↔ _
    rw [List.mem_singleton, Prod.mk.injEq]

/-! ### Path resolution -/

/-- The second state has some more negative dentries. -/
structure Grown (s s' : Tmpfs) : Prop where
  inode : s'.inode = s.inode
  nextIno : s'.nextIno = s.nextIno
  count : s.cache.count ≤ s'.cache.count
  dentry {x : ℕ} (hx : x < s.cache.count) : s'.dentry x = s.dentry x
  hashed {x : ℕ} (hx : x < s.cache.count) : s'.cache.Hashed x ↔ s.cache.Hashed x
  data (x : ℕ) : (s'.dentry x).data = (s.dentry x).data

theorem Grown.refl (s : Tmpfs) : s.Grown s :=
  ⟨rfl, rfl, le_rfl, fun _ => rfl, fun _ => Iff.rfl, fun _ => rfl⟩

theorem Grown.trans {s'' : Tmpfs} (h : s.Grown s') (h' : s'.Grown s'') : s.Grown s'' where
  inode := h'.inode.trans h.inode
  nextIno := h'.nextIno.trans h.nextIno
  count := h.count.trans h'.count
  dentry hx := (h'.dentry (hx.trans_le h.count)).trans (h.dentry hx)
  hashed hx := (h'.hashed (hx.trans_le h.count)).trans (h.hashed hx)
  data x := (h'.data x).trans (h.data x)

theorem Grown.resolves_iff (hg : s.Grown s') (h : s.Names H) :
    s'.Resolves d n j ↔ s.Resolves d n j := by
  refine exists_congr fun c => exists_congr fun f => ?_
  rw [hg.data]
  refine and_congr_left fun hdata => ?_
  have hlt := (h.data_lt hdata).1
  rw [Dcache.Child, Dcache.Child, hg.hashed hlt, show s'.cache.dentry c = s.cache.dentry c from
    hg.dentry hlt]

theorem Grown.isDir_iff (hg : s.Grown s') : s'.IsDir d i ↔ s.IsDir d i := by
  rw [IsDir, IsDir, hg.data]

theorem Names.addNew (h : s.Names H) (hd : s.IsDir d i) (hn : n ≠ DOT ∧ n ≠ DOTDOT)
    (hfree : ∀ x, ¬ s.cache.Child d n x) :
    Names H { s with cache := (s.cache.alloc (.create H d n)).dAdd s.cache.count } ∧
      s.Grown { s with cache := (s.cache.alloc (.create H d n)).dAdd s.cache.count } := by
  obtain ⟨hcache, hhashed⟩ := h.cache.addNew hfree
  set t : Tmpfs := { s with cache := (s.cache.alloc (.create H d n)).dAdd s.cache.count } with ht
  have hself : t.dentry s.cache.count = .create H d n := Dcache.dentry_alloc_self _
  have hother : ∀ {x}, x ≠ s.cache.count → t.dentry x = s.dentry x := fun hx =>
    Dcache.dentry_alloc_of_ne _ hx
  have hnone : (s.dentry s.cache.count).data = none := by
    cases hdata : (s.dentry s.cache.count).data with
    | none => rfl
    | some data => exact absurd (h.data_lt hdata).1 (Nat.lt_irrefl _)
  have hlt : ∀ {x}, s.cache.Hashed x → x ≠ s.cache.count := fun hx he =>
    Nat.lt_irrefl _ (he ▸ h.cache.threads.lt hx)
  have hroot : ROOT ≠ s.cache.count := fun he => Nat.lt_irrefl _ (he ▸ (h.data_lt h.root.2).1)
  have hgrown : s.Grown t := by
    refine ⟨rfl, rfl, Nat.le_succ _, fun hx => hother (by omega), fun {x} hx => ?_, fun x => ?_⟩
    · rw [show t.cache.Hashed x ↔ _ from hhashed x, or_iff_left (by omega)]
    · by_cases hx : x = s.cache.count
      · rw [hx, hself, hnone]
        rfl
      · rw [hother hx]
  refine ⟨⟨hcache, ⟨(hgrown.data 0).trans h.droot.1, ?_⟩, ⟨?_, hgrown.isDir_iff.mpr h.root.2⟩,
    ?_, ?_, ?_, ?_, ?_, ?_, ?_⟩, hgrown⟩
  · rw [show t.cache.Hashed 0 ↔ _ from hhashed 0, not_or]
    refine ⟨h.droot.2, fun he => ?_⟩
    have := (h.data_lt h.root.2).1
    omega
  · rw [hother hroot]
    exact h.root.1
  · intro x data hx
    rw [hgrown.data] at hx
    exact ⟨((h.data_lt hx).1).trans_le hgrown.count, (h.data_lt hx).2⟩
  · intro x hx hxr
    rcases (hhashed x).mp hx with hx | rfl
    · obtain ⟨k, hk⟩ := h.parent_dir hx hxr
      refine ⟨k, hgrown.isDir_iff.mpr ?_⟩
      rwa [hother (hlt hx)]
    · refine ⟨i, hgrown.isDir_iff.mpr ?_⟩
      rwa [hself]
  · intro x hx
    rcases (hhashed x).mp hx with hx | rfl
    · rw [hother (hlt hx)]
      exact h.name_ne hx
    · rw [hself]
      exact hn
  · intro x y k hx hy
    exact h.dir_unique (hgrown.isDir_iff.mp hx) (hgrown.isDir_iff.mp hy)
  · intro k hk hf
    obtain ⟨x, hx⟩ := h.dir_exists hk hf
    exact ⟨x, hgrown.isDir_iff.mpr hx⟩
  · intro x k hx
    exact h.dir_format (hgrown.isDir_iff.mp hx)
  · intro x k hx
    refine (h.listing (hgrown.isDir_iff.mp hx)).congr fun m l => ?_
    rw [Named, Named, hgrown.resolves_iff h]

section

variable {cache : Dcache} (h : s.Names H) (hn : n ≠ DOT) (hn' : n ≠ DOTDOT)
  (hrun : s.cache.find H d n = .ok (cache, c))
include h hn hn' hrun

theorem Names.find_cases :
    ∃ i, s.IsDir d i ∧ ((cache = s.cache ∧ s.cache.Child d n c) ∨
      ((∀ x, ¬ s.cache.Child d n x) ∧ c = s.cache.count ∧
        cache = (s.cache.alloc (.create H d n)).dAdd s.cache.count)) := by
  unfold Dcache.find at hrun
  cases hdata : (s.cache.dentry d).data with
  | none => simp [hdata] at hrun
  | some data =>
    obtain ⟨i, f⟩ := data
    simp only [hdata] at hrun
    split_ifs at hrun with hf
    subst hf
    refine ⟨i, hdata, ?_⟩
    cases hfind : s.cache.dFindFast (.create H d n) with
    | none =>
      rw [hfind] at hrun
      cases hrun
      exact Or.inr ⟨h.cache.dFindFast_eq_none_iff.mp hfind, rfl, rfl⟩
    | some x =>
      rw [hfind] at hrun
      cases hrun
      exact Or.inl ⟨rfl, h.cache.dFindFast_iff.mp hfind⟩

theorem Names.find : Names H { s with cache } ∧ s.Grown { s with cache } ∧ cache.Child d n c := by
  obtain ⟨i, hd, ⟨rfl, hc⟩ | ⟨hfree, rfl, rfl⟩⟩ := h.find_cases hn hn' hrun
  · exact ⟨h, Grown.refl s, hc⟩
  · obtain ⟨hnames, hgrown⟩ := h.addNew hd ⟨hn, hn'⟩ hfree
    refine ⟨hnames, hgrown, ?_⟩
    obtain ⟨-, hhashed⟩ := h.cache.addNew hfree
    refine ⟨(hhashed _).mpr (Or.inr rfl), ?_, ?_⟩ <;>
      rw [Dcache.dentry_dAdd, Dcache.dentry_alloc_self] <;> rfl

end

end Tmpfs

end Dlutos.Vfs
