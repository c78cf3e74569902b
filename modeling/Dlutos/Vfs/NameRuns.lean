import Dlutos.Vfs.NameCalls

/-!
# Runs of the name space

A call is `Orderly` if the dentries that it unlinks or renames are still hashed and it does not
rename onto an existing name of another directory.  Path resolution grows the cache by negative
dentries, and then the call makes one of the changes `Saved`, `Unlinked` and `Renamed`, or fails
without any.
-/

namespace Dlutos.Vfs

open Function

namespace Tmpfs

variable {H : ℕ → Name → ℕ} {s s' s₁ : Tmpfs} {c d i j : ℕ} {n : Name} {f : DentryFlags}

/-! ### Targets -/

/-- The inode of a target before the call. -/
def Target.ino (H : ℕ → Name → ℕ) (s : Tmpfs) : Target → Option ℕ
  | .entry d n => (s.cache.dFindFast (.create H d n)).bind fun c => (s.dentry c).data.map (·.ino)
  | .self d => (s.dentry d).data.map (·.ino)

/-- The directory of a target before the call. -/
def Target.dir (s : Tmpfs) : Target → ℕ
  | .entry d _ => d
  | .self d => (s.dentry d).parent

def Target.name (s : Tmpfs) : Target → Name
  | .entry _ n => n
  | .self d => (s.dentry d).name

/-- A dentry that is already there is still hashed. -/
def Target.Cached (s : Tmpfs) : Target → Prop
  | .entry _ _ => True
  | .self d => s.cache.Hashed d

/-- Unlinked and renamed dentries are hashed, and no rename replaces an inode in another directory.
-/
def Call.Orderly (H : ℕ → Name → ℕ) (s : Tmpfs) : Call → Prop
  | .unlinkAt t => t.Cached s
  | .renameAt old new isExchange noReplace => old.Cached s ∧ new.Cached s ∧
      (isExchange = true ∨ noReplace = true ∨ old.dir s = new.dir s ∨ new.ino H s = none)
  | _ => True

/-- The resolution of the target has led from `s` to `s₁` and to the dentry `c`. -/
structure Found (H : ℕ → Name → ℕ) (s : Tmpfs) (t : Target) (s₁ : Tmpfs) (c : ℕ) : Prop where
  grown : s.Grown s₁
  names : s₁.Names H
  leads : match t with
    | .entry d n => s₁.cache.Child d n c
    | .self d => c = d

variable {t : Target}

theorem Grown.child_iff (hg : s.Grown s₁) (hlt : c < s.cache.count) :
    s₁.cache.Child d n c ↔ s.cache.Child d n c := by
  rw [Dcache.Child, Dcache.Child, hg.hashed hlt,
    show s₁.cache.dentry c = s.cache.dentry c from hg.dentry hlt]

theorem Grown.child (hg : s.Grown s₁) (h : s.Names H) (hc : s.cache.Child d n c) :
    s₁.cache.Child d n c :=
  (hg.child_iff (h.cache.threads.lt hc.1)).mpr hc

theorem Grown.valid (hg : s.Grown s₁) (ht : t.Valid s) : t.Valid s₁ := by
  cases t with
  | entry d n => exact ⟨ht.1.trans_le hg.count, ht.2⟩
  | self d => exact ⟨ht.1.trans_le hg.count, by rw [hg.data]; exact ht.2⟩

namespace Found

section

variable (hf : Found H s t s₁ c)
include hf

theorem mono {s2 : Tmpfs} (hg : s₁.Grown s2) (h : s2.Names H) :
    Found H s t s2 c := by
  refine ⟨hf.grown.trans hg, h, ?_⟩
  cases t with
  | entry d n => exact hg.child hf.names hf.leads
  | self d => exact hf.leads

theorem ino_eq (h : s.Names H) :
    t.ino H s = (s₁.dentry c).data.map (·.ino) := by
  rw [hf.grown.data]
  cases t with
  | self d => rw [show c = d from hf.leads]; rfl
  | entry d n =>
    have hc : s₁.cache.Child d n c := hf.leads
    rw [Target.ino]
    cases hfind : s.cache.dFindFast (.create H d n) with
    | some x =>
      have hx := hf.grown.child h (h.cache.dFindFast_iff.mp hfind)
      rw [hf.names.cache.child_unique hc hx]
      rfl
    | none =>
      cases hdata : (s.dentry c).data with
      | none => rfl
      | some v =>
        have hc' := (hf.grown.child_iff (h.data_lt hdata).1).mp hc
        exact absurd hc' (h.cache.dFindFast_eq_none_iff.mp hfind c)

theorem dir_eq (ht : t.Valid s) : t.dir s = (s₁.dentry c).parent := by
  cases t with
  | entry d n => exact hf.leads.2.1.symm
  | self d =>
    rw [show c = d from hf.leads, hf.grown.dentry ht.1]
    rfl

theorem name_eq (ht : t.Valid s) : t.name s = (s₁.dentry c).name := by
  cases t with
  | entry d n => exact hf.leads.2.2.symm
  | self d =>
    rw [show c = d from hf.leads, hf.grown.dentry ht.1]
    rfl

theorem hashed (ht : t.Valid s) (hc : t.Cached s) :
    s₁.cache.Hashed c := by
  cases t with
  | entry d n => exact hf.leads.1
  | self d =>
    rw [show c = d from hf.leads, hf.grown.hashed ht.1]
    exact hc

theorem child_of_negative (ht : t.Valid s) (hneg : (s₁.dentry c).data = none) :
    ∃ d n, t = .entry d n ∧ s₁.cache.Child d n c := by
  cases t with
  | entry d n => exact ⟨d, n, rfl, hf.leads⟩
  | self d =>
    rw [show c = d from hf.leads, hf.grown.data] at hneg
    exact absurd hneg ht.2

end

end Found

theorem withTarget_cases (h : s.Names H) (ht : t.Valid s) {k : Tmpfs → ℕ → Outcome}
    {r : Tmpfs × Except Errno Unit} (hrun : s.withTarget H t k = .ok r) :
    (∃ e, r = (s, .error e)) ∨ ∃ s₁ c, Found H s t s₁ c ∧ k s₁ c = .ok r := by
  cases t with
  | self d => exact Or.inr ⟨s, d, ⟨Grown.refl s, h, rfl⟩, hrun⟩
  | entry d n =>
    rw [withTarget] at hrun
    cases hfind : s.cache.find H d n with
    | error e =>
      rw [hfind] at hrun
      cases e with
      | errno e => exact Or.inl ⟨e, (Except.ok.inj hrun).symm⟩
      | crash c => cases hrun
    | ok found =>
      obtain ⟨cache, c⟩ := found
      rw [hfind] at hrun
      obtain ⟨hnames, hgrown, hchild⟩ := h.find ht.2.1 ht.2.2 hfind
      exact Or.inr ⟨_, c, ⟨hgrown, hnames, hchild⟩, hrun⟩

theorem returned_cases {op : Except Fault Tmpfs} {r : Except Errno Unit}
    (hrun : s.returned op = .ok (s', r)) :
    (r = .ok () ∧ op = .ok s') ∨ ((∃ e, r = .error e) ∧ s' = s) := by
  cases op with
  | ok t =>
    cases hrun
    exact Or.inl ⟨rfl, rfl⟩
  | error e =>
    cases e with
    | errno e =>
      cases hrun
      exact Or.inr ⟨⟨e, rfl⟩, rfl⟩
    | crash c => cases hrun

/-! ### What a call does -/

def Call.makes : Call → Option Target
  | .openAt t _ _ _ | .mkdirAt t _ | .mknodAt t _ _ | .symlinkAt t _ => some t
  | .find _ | .linkAt _ _ | .unlinkAt _ | .renameAt _ _ _ _ => none

/-- What an orderly call does after its path resolution has led from `s` to `s₁`. -/
inductive Changed (H : ℕ → Name → ℕ) (s s₁ : Tmpfs) : Call → Tmpfs → Prop
  | kept (call : Call) : Changed H s s₁ call s₁
  | made {call : Call} {s' : Tmpfs} {d i : ℕ} {n : Name} {x : ℕ} {f : DentryFlags}
      (ht : call.makes = some (.entry d n)) (hs : s₁.Saved s' d i n x s₁.nextIno f) :
      Changed H s s₁ call s'
  | linked {t : Target} {s' : Tmpfs} {d i : ℕ} {n : Name} {x y j : ℕ} {g : DentryFlags}
      (ht : Found H s t s₁ y) (hdata : (s₁.dentry y).data = some ⟨j, g⟩)
      (hs : s₁.Saved s' d i n x j .regular) : Changed H s s₁ (.linkAt t (.entry d n)) s'
  | unlinked {t : Target} {s' : Tmpfs} {x i j : ℕ} (ht : Found H s t s₁ x)
      (hu : s₁.Unlinked s' (s₁.dentry x).parent i (s₁.dentry x).name x j) :
      Changed H s s₁ (.unlinkAt t) s'
  | renamed {told tnew : Target} {isExchange noReplace : Bool} {s' : Tmpfs} {o m io im j : ℕ}
      (ho : Found H s told s₁ o) (hm : Found H s tnew s₁ m)
      (hr : s₁.Renamed H s' (s₁.endOf o io) (s₁.endOf m im) j) :
      Changed H s s₁ (.renameAt told tnew isExchange noReplace) s'

variable {call : Call} {r : Except Errno Unit}

theorem Changed.names (hc : Changed H s s₁ call s') (h : s₁.Names H) : s'.Names H := by
  cases hc with
  | kept => exact h
  | made _ hs => exact hs.names h
  | linked _ _ hs => exact hs.names h
  | unlinked _ hu => exact hu.names h
  | renamed _ _ hr => exact hr.names h

theorem Found.saved {inode : ℕ → Inode} (hf : Found H s t s₁ c) (ht : t.Valid s)
    (hneg : (s₁.dentry c).data = none)
    (hget : s₁.cache.getInode (s₁.dentry c).parent = .ok i)
    (hrun : s₁.linkNew i c inode f = .ok s')
    (hformat : (inode s₁.nextIno).format = .dir ↔ f = .directory)
    (hentries : f = .directory → (inode s₁.nextIno).entries = [(DOT, s₁.nextIno)] ∧
      (inode s₁.nextIno).size = 1)
    (hnlink : (inode s₁.nextIno).nlink = (inode s₁.nextIno).format.ownLinks) :
    ∃ d n, t = .entry d n ∧ s₁.Saved s' d i n c s₁.nextIno f := by
  obtain ⟨d, n, rfl, hchild⟩ := hf.child_of_negative ht hneg
  have hdir := hf.names.isDir_parent hchild.1 hget
  rw [show (s₁.dentry c).parent = d from hchild.2.1] at hdir
  obtain ⟨s'', hrun', hs⟩ :=
    linkNew_saved hf.names hdir hchild hneg inode hformat hentries hnlink
  obtain rfl := Except.ok.inj (hrun'.symm.trans hrun)
  exact ⟨d, n, rfl, hs⟩

theorem withTarget_made {inode : ℕ → Inode} (h : s.Names H) (ht : t.Valid s)
    (hcall : call.makes = some t)
    (hrun : s.withTarget H t (fun s d => s.returned (s.createAt d fun dir =>
      s.linkNew dir d inode f)) = .ok (s', r))
    (hformat : ∀ k, (inode k).format = .dir ↔ f = .directory)
    (hentries : f = .directory → ∀ k, (inode k).entries = [(DOT, k)] ∧ (inode k).size = 1)
    (hnlink : ∀ k, (inode k).nlink = (inode k).format.ownLinks) :
    ∃ s₁, s.Grown s₁ ∧ s₁.Names H ∧ Changed H s s₁ call s' := by
  rcases withTarget_cases h ht hrun with ⟨e, he⟩ | ⟨s₁, c, hf, hk⟩
  · cases he
    exact ⟨s, Grown.refl s, h, .kept call⟩
  · refine ⟨s₁, hf.grown, hf.names, ?_⟩
    rcases returned_cases hk with ⟨-, hop⟩ | ⟨-, rfl⟩
    · obtain ⟨hneg, i, hget, hnew⟩ := createAt_cases hop
      obtain ⟨d, n, rfl, hs⟩ := hf.saved ht hneg hget hnew (hformat _)
        (fun he => hentries he _) (hnlink _)
      exact .made hcall hs
    · exact .kept call

theorem withTargets_cases {t' : Target} (h : s.Names H) (ht : t.Valid s) (ht' : t'.Valid s)
    {k : Tmpfs → ℕ → ℕ → Outcome}
    (hrun : s.withTarget H t (fun s o => s.withTarget H t' fun s m => k s o m) = .ok (s', r)) :
    (∃ s₁, s.Grown s₁ ∧ s₁.Names H ∧ s' = s₁ ∧ ∃ e, r = .error e) ∨
      ∃ s₁ o m, Found H s t s₁ o ∧ Found H s t' s₁ m ∧ k s₁ o m = .ok (s', r) := by
  rcases withTarget_cases h ht hrun with ⟨e, he⟩ | ⟨s₁, o, ho, hk⟩
  · cases he
    exact Or.inl ⟨s, Grown.refl s, h, rfl, e, rfl⟩
  · rcases withTarget_cases ho.names (ho.grown.valid ht') hk with ⟨e, he⟩ | ⟨s2, m, hm, hk'⟩
    · cases he
      exact Or.inl ⟨_, ho.grown, ho.names, rfl, e, rfl⟩
    · refine Or.inr ⟨s2, o, m, ho.mono hm.grown hm.names, ?_, hk'⟩
      exact ⟨ho.grown.trans hm.grown, hm.names, hm.leads⟩

theorem renameAt_changed {told tnew : Target} {isExchange noReplace : Bool} (h : s.Names H)
    (ht : told.Valid s) (ht' : tnew.Valid s)
    (hord : (Call.renameAt told tnew isExchange noReplace).Orderly H s)
    (hrun : s.call H (.renameAt told tnew isExchange noReplace) = .ok (s', r)) :
    ∃ s₁, s.Grown s₁ ∧ s₁.Names H ∧ ((s' = s₁ ∧ ∃ e, r = .error e) ∨ ∃ o m,
      Found H s told s₁ o ∧ Found H s tnew s₁ m ∧ ((o = m ∧ s' = s₁) ∨
        ∃ io im j, s₁.Renamed H s' (s₁.endOf o io) (s₁.endOf m im) j)) := by
  rw [Tmpfs.call] at hrun
  split_ifs at hrun with hflags
  · cases hrun
    exact ⟨s, Grown.refl s, h, Or.inl ⟨rfl, _, rfl⟩⟩
  · rcases withTargets_cases h ht ht' hrun with ⟨s₁, hg, hnames, rfl, he⟩ | ⟨s₁, o, m, ho, hm, hk⟩
    · exact ⟨s', hg, hnames, Or.inl ⟨rfl, he⟩⟩
    · refine ⟨s₁, ho.grown, ho.names, ?_⟩
      rcases returned_cases hk with ⟨-, hop⟩ | ⟨he, rfl⟩
      · obtain ⟨hcold, hcnew, htarget⟩ := hord
        refine Or.inr ⟨o, m, ho, hm, ?_⟩
        refine rename_renamed ho.names (ho.hashed ht hcold) (hm.hashed ht' hcnew) ?_ hop
        rw [ho.dir_eq ht, hm.dir_eq ht', hm.ino_eq h, Option.map_eq_none_iff] at htarget
        exact htarget
      · exact Or.inl ⟨rfl, he⟩

theorem unlinkAt_changed (h : s.Names H) (ht : t.Valid s) (hord : t.Cached s)
    (hrun : s.call H (.unlinkAt t) = .ok (s', r)) :
    ∃ s₁, s.Grown s₁ ∧ s₁.Names H ∧ ((s' = s₁ ∧ ∃ e, r = .error e) ∨ ∃ x i j,
      Found H s t s₁ x ∧ r = .ok () ∧
        s₁.Unlinked s' (s₁.dentry x).parent i (s₁.dentry x).name x j) := by
  rw [Tmpfs.call] at hrun
  rcases withTarget_cases h ht hrun with ⟨e, he⟩ | ⟨s₁, x, hf, hk⟩
  · cases he
    exact ⟨s, Grown.refl s, h, Or.inl ⟨rfl, e, rfl⟩⟩
  · refine ⟨s₁, hf.grown, hf.names, ?_⟩
    rcases returned_cases hk with ⟨hr, hop⟩ | ⟨he, hs⟩
    · obtain ⟨i, j, hu⟩ := unlinkDentry_unlinked hf.names (hf.hashed ht hord) hop
      exact Or.inr ⟨x, i, j, hf, hr, hu⟩
    · exact Or.inl ⟨hs, he⟩

theorem call_changed (h : s.Names H) (hvalid : ∀ t ∈ call.targets, t.Valid s)
    (hord : call.Orderly H s) (hrun : s.call H call = .ok (s', r)) :
    ∃ s₁, s.Grown s₁ ∧ s₁.Names H ∧ Changed H s s₁ call s' := by
  cases call with
  | find t =>
    have ht := hvalid t (by simp [Call.targets])
    rw [Tmpfs.call] at hrun
    rcases withTarget_cases h ht hrun with ⟨e, he⟩ | ⟨s₁, c, hf, hk⟩
    · cases he
      exact ⟨s, Grown.refl s, h, .kept _⟩
    · cases hk
      exact ⟨_, hf.grown, hf.names, .kept _⟩
  | openAt t oCreat oExcl perm =>
    have ht := hvalid t (by simp [Call.targets])
    rw [Tmpfs.call] at hrun
    rcases withTarget_cases h ht hrun with ⟨e, he⟩ | ⟨s₁, c, hf, hk⟩
    · cases he
      exact ⟨s, Grown.refl s, h, .kept _⟩
    · refine ⟨s₁, hf.grown, hf.names, ?_⟩
      rcases returned_cases hk with ⟨-, hop⟩ | ⟨-, rfl⟩
      · rcases openCheck_cases hop with rfl | ⟨hneg, i, hget, hnew⟩
        · exact .kept _
        · obtain ⟨d, n, rfl, hs⟩ := hf.saved ht hneg hget hnew (by simp [Inode.newFile])
            (fun he => by cases he) rfl
          exact .made rfl hs
      · exact .kept _
  | mkdirAt t perm =>
    have ht := hvalid t (by simp [Call.targets])
    rw [Tmpfs.call] at hrun
    exact withTarget_made h ht rfl hrun (fun _ => by simp [Inode.newDirectory])
      (fun _ _ => ⟨rfl, rfl⟩) fun _ => rfl
  | mknodAt t format perm =>
    have ht := hvalid t (by simp [Call.targets])
    rw [Tmpfs.call] at hrun
    split_ifs at hrun with hformat
    · cases hrun
      exact ⟨s, Grown.refl s, h, .kept _⟩
    · simp only [mknod, if_neg hformat] at hrun
      have hnode : format = .chr ∨ format = .blk := by
        rw [not_and_or, not_ne_iff, not_ne_iff] at hformat
        exact hformat
      refine withTarget_made h ht rfl hrun (fun _ => ?_)
        (fun he => by cases he) fun _ => ?_
      · rcases hnode with rfl | rfl <;> simp [Inode.newNode]
      · rcases hnode with rfl | rfl <;> rfl
  | symlinkAt t target =>
    have ht := hvalid t (by simp [Call.targets])
    rw [Tmpfs.call] at hrun
    exact withTarget_made h ht rfl hrun (fun _ => by simp [Inode.newSymlink])
      (fun he => by cases he) fun _ => rfl
  | linkAt told tnew =>
    have ht := hvalid told (by simp [Call.targets])
    have ht' := hvalid tnew (by simp [Call.targets])
    rw [Tmpfs.call] at hrun
    rcases withTargets_cases h ht ht' hrun with ⟨s₁, hg, hnames, rfl, -⟩ | ⟨s₁, o, m, ho, hm, hk⟩
    · exact ⟨s', hg, hnames, .kept _⟩
    · refine ⟨s₁, ho.grown, ho.names, ?_⟩
      cases hdata : (s₁.dentry o).data with
      | none => simp [hdata] at hk
      | some v =>
        simp only [hdata] at hk
        rcases returned_cases hk with ⟨-, hop⟩ | ⟨-, rfl⟩
        · obtain ⟨hneg, i, hget, hnew⟩ := createAt_cases hop
          obtain ⟨d, n, rfl, hchild⟩ := hm.child_of_negative ht' hneg
          have hdir := hm.names.isDir_parent hchild.1 hget
          rw [show (s₁.dentry m).parent = d from hchild.2.1] at hdir
          obtain ⟨s'', hrun', hs⟩ := linkat_saved hdir hchild hneg (ho.names.data_lt hdata).2
          obtain rfl := Except.ok.inj (hrun'.symm.trans hnew)
          exact .linked ho hdata hs
        · exact .kept _
  | unlinkAt t =>
    have ht := hvalid t (by simp [Call.targets])
    obtain ⟨s₁, hg, hnames, ⟨rfl, -⟩ | ⟨x, i, j, hf, -, hu⟩⟩ := unlinkAt_changed h ht hord hrun
    · exact ⟨s', hg, hnames, .kept _⟩
    · exact ⟨s₁, hg, hnames, .unlinked hf hu⟩
  | renameAt told tnew isExchange noReplace =>
    have ht := hvalid told (by simp [Call.targets])
    have ht' := hvalid tnew (by simp [Call.targets])
    obtain ⟨s₁, hg, hnames, ⟨rfl, -⟩ | ⟨o, m, ho, hm, ⟨-, rfl⟩ | ⟨io, im, j, hr⟩⟩⟩ :=
      renameAt_changed h ht ht' hord hrun
    · exact ⟨s', hg, hnames, .kept _⟩
    · exact ⟨s', hg, hnames, .kept _⟩
    · exact ⟨s₁, hg, hnames, .renamed ho hm hr⟩

variable {cond : Tmpfs → Call → Prop}

theorem machine_run (hrun : (machine H cond).run s call = .ok s') :
    ∃ r, s.call H call = .ok (s', r) := by
  change (s.call H call).map Prod.fst = .ok s' at hrun
  cases hcall : s.call H call with
  | error e =>
    rw [hcall] at hrun
    cases hrun
  | ok v =>
    rw [hcall] at hrun
    exact ⟨v.2, by rw [← Except.ok.inj hrun]⟩

theorem names_of_reachable (hcond : ∀ s call, cond s call → call.Orderly H s)
    (hs : (machine H cond).Reachable s) : s.Names H := by
  refine hs.invariant (P := Names H) (fun s h0 => ?_) fun s s' h hstep => ?_
  · obtain rfl : s = Tmpfs.boot H := h0
    exact Names.boot H
  · obtain ⟨call, ⟨hvalid, hc⟩, hrun⟩ := hstep
    obtain ⟨r, hcall⟩ := machine_run hrun
    obtain ⟨s₁, -, hnames, hchanged⟩ := call_changed h hvalid (hcond s call hc) hcall
    exact hchanged.names hnames

/-! ### Looking names up -/

def lookup (H : ℕ → Name → ℕ) (s : Tmpfs) (d : ℕ) (n : Name) : Except Fault ℕ :=
  match s.cache.find H d n with
  | .ok (cache, c) => cache.getInode c
  | .error e => .error e

theorem IsDir.find_ok (hd : s.IsDir d i) (n : Name) :
    ∃ cache c, s.cache.find H d n = .ok (cache, c) := by
  have hdata : (s.cache.dentry d).data = some ⟨i, .directory⟩ := hd
  simp only [Dcache.find, hdata, if_true]
  split_ifs
  · exact ⟨_, _, rfl⟩
  · exact ⟨_, _, rfl⟩
  · split <;> exact ⟨_, _, rfl⟩

theorem Names.lookup_iff (h : s.Names H) (hd : s.IsDir d i) (hn : n ≠ DOTDOT) :
    s.lookup H d n = .ok j ↔ s.Named d i n j := by
  by_cases hdot : n = DOT
  · have hdata : (s.cache.dentry d).data = some ⟨i, .directory⟩ := hd
    have hnot : ¬ s.Resolves d n j := fun hr => h.ne_dot hr hdot
    simp [lookup, Dcache.find, hdata, hdot, Dcache.getInode, Named, hdot ▸ hnot, eq_comm]
  · obtain ⟨cache, c, hfind⟩ := hd.find_ok (H := H) n
    obtain ⟨hnames, hgrown, hchild⟩ := h.find hdot hn hfind
    rw [lookup, hfind, Named, ← hgrown.resolves_iff h, hnames.resolves_iff hchild]
    simp only [hdot, false_and, false_or]
    exact Dcache.getInode_eq_ok

theorem Names.lookup_error (h : s.Names H) (hd : s.IsDir d i) (hn : n ≠ DOTDOT)
    (hnot : ∀ j, ¬ s.Named d i n j) : s.lookup H d n = .error (.errno .ENOENT) := by
  obtain ⟨cache, c, hfind⟩ := hd.find_ok (H := H) n
  have hget : ∀ j, cache.getInode c ≠ .ok j := fun j hj =>
    hnot j ((h.lookup_iff hd hn).mp (by rw [lookup, hfind]; exact hj))
  rw [lookup, hfind]
  change cache.getInode c = _
  unfold Dcache.getInode at hget ⊢
  cases hdata : (cache.dentry c).data with
  | none => rfl
  | some v => exact absurd (by rw [hdata]) (hget v.ino)

/-- While the calls are orderly, a lookup yields an inode exactly if the directory has the entry,
names are unique and sizes count; and a rename that returns has moved the name. -/
theorem lookup_of_reachable
    (hs : (machine H fun s call => call.Orderly H s).Reachable s) :
    (∀ d i, s.IsDir d i →
      (∀ n, n ≠ DOTDOT → ∀ j, s.lookup H d n = .ok j ↔ (n, j) ∈ (s.inode i).entries) ∧
      ((s.inode i).entries.map Prod.fst).Nodup ∧
      (s.inode i).size = (s.inode i).entries.length) ∧
    (∀ i < s.nextIno, (s.inode i).format = .dir → ∃ d, s.IsDir d i) ∧
    ∀ old new isExchange noReplace s', old.Valid s → new.Valid s →
      (Call.renameAt old new isExchange noReplace).Orderly H s →
      s.call H (.renameAt old new isExchange noReplace) = .ok (s', .ok ()) →
      (old.dir s, old.name s) ≠ (new.dir s, new.name s) →
      ∃ j, s.lookup H (old.dir s) (old.name s) = .ok j ∧
        s'.lookup H (old.dir s) (old.name s) = .error (.errno .ENOENT) ∧
        s'.lookup H (new.dir s) (new.name s) = .ok j := by
  have h : s.Names H := names_of_reachable (fun _ _ hc => hc) hs
  refine ⟨fun d i hd => ⟨fun n hn j => ?_, (h.listing hd).nodup, (h.listing hd).size⟩,
    fun i hi hf => h.dir_exists hi hf, ?_⟩
  · rw [h.lookup_iff hd hn, (h.listing hd).mem_iff]
  · intro old new isExchange noReplace s' hold hnew hord hrun hkey
    obtain ⟨s₁, hg, hnames, ⟨-, e, he⟩ | ⟨o, m, ho, hm, hcase⟩⟩ :=
      renameAt_changed h hold hnew hord hrun
    · cases he
    · rw [ho.dir_eq hold, ho.name_eq hold, hm.dir_eq hnew, hm.name_eq hnew] at hkey ⊢
      rcases hcase with ⟨rfl, -⟩ | ⟨io, im, j, hr⟩
      · exact absurd rfl hkey
      · have hx := hr.toExchanged
        have hnames' := hr.names hnames
        have hdir : ∀ {x k}, s'.IsDir x k ↔ s₁.IsDir x k := fun {x k} => by
          rw [IsDir, IsDir, (hr.key x).2.2]
        have hno := hnames.name_ne hr.old_at.child.1
        have hnm := hnames.name_ne hr.new_at.child.1
        refine ⟨j, ?_, ?_, ?_⟩
        · refine (h.lookup_iff (hg.isDir_iff.mp hr.old_at.isDir) hno.2).mpr ?_
          exact Or.inr ((hg.resolves_iff h).mp hx.resolves_old)
        · refine hnames'.lookup_error (hdir.mpr hr.old_at.isDir) hno.2 fun k hk => ?_
          rcases hk with ⟨hdot, -⟩ | hk
          · exact hno.1 hdot
          · rcases (hx.resolves_iff hnames).mp hk with ⟨hd, hn, -⟩ | ⟨-, hne, -⟩
            · exact hkey (Prod.ext hd hn)
            · exact hne ⟨rfl, rfl⟩
        · refine (hnames'.lookup_iff (hdir.mpr hr.new_at.isDir) hnm.2).mpr ?_
          exact Or.inr ((hx.resolves_iff hnames).mpr (Or.inl ⟨rfl, rfl, rfl⟩))

/-- The file `f` in the directory `a` becomes `g` in the root directory. -/
theorem lookup_after_rename : ∃ s : Tmpfs,
    (machine (fun parent _ => parent) fun s call => call.Orderly (fun parent _ => parent) s).Reachable
      s ∧ s.lookup (fun parent _ => parent) ROOT [103] = .ok 2 ∧
    ∀ d i, s.IsDir d i → (s.inode i).size = (s.inode i).entries.length := by
  have h0 : (machine (fun parent _ => parent) fun s call =>
      call.Orderly (fun parent _ => parent) s).Reachable _ := .of_init rfl
  have h3 := h0.after [.mkdirAt (.entry ROOT [97]) 0o755, .openAt (.entry 2 [102]) true true 0o644,
    .renameAt (.entry 2 [102]) (.entry ROOT [103]) false false]
    ⟨⟨by decide, trivial⟩, ⟨by decide, trivial⟩,
     ⟨by decide, trivial, trivial, Or.inr (Or.inr (Or.inr rfl))⟩, trivial⟩
  exact ⟨_, h3, rfl, fun d i hd => ((lookup_of_reachable h3).1 d i hd).2.2⟩

/-- After a rename onto a name in another directory, the old name still resolves, to the replaced
inode. -/
theorem lookup_broken : ∃ s : Tmpfs,
    (machine (fun parent _ => parent) fun _ _ => True).Reachable s ∧ s.IsDir 2 1 ∧
    (s.inode 1).entries = [(DOT, 1)] ∧
    s.lookup (fun parent _ => parent) 2 [102] = .ok 4 := by
  have h0 : (machine (fun parent _ => parent) fun _ _ => True).Reachable _ := .of_init rfl
  have h5 := h0.after [.mkdirAt (.entry ROOT [97]) 0o755, .mkdirAt (.entry ROOT [98]) 0o755,
    .openAt (.entry 2 [102]) true true 0o644, .openAt (.entry 3 [103]) true true 0o644,
    .renameAt (.entry 2 [102]) (.entry 3 [103]) false false]
    ⟨⟨by decide, trivial⟩, ⟨by decide, trivial⟩, ⟨by decide, trivial⟩, ⟨by decide, trivial⟩,
     ⟨by decide, trivial⟩, trivial⟩
  exact ⟨_, h5, rfl, rfl, rfl⟩

end Tmpfs

end Dlutos.Vfs
