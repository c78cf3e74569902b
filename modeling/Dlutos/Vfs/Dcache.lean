import Dlutos.Vfs.RcuList

/-!
# Dentries and the dentry cache

`src/kernel/vfs/dentry.rs` and `src/kernel/vfs/dentry/dcache.rs`.  The cache is an array of 256
`RCUList`s, and a dentry belongs to the list that the low bits of its hash select.  Dentries are
numbered in the order of their creation.  The hash function is a parameter.
-/

namespace Dlutos.Vfs

open Function

abbrev Name := List UInt8

def DOT : Name := [46]

def DOTDOT : Name := [46, 46]

/-- The error codes of the modelled functions. -/
inductive Errno where
  | ENOENT
  | EEXIST
  | ENOTDIR
  | EISDIR
  | EINVAL
  | ENOSYS
  deriving DecidableEq, Repr

/-- The ways in which a call does not return. -/
inductive Crash where
  | assertion
  | unwrap
  /-- Waiting for a lock that the same call holds. -/
  | deadlock
  deriving DecidableEq, Repr

/-- Why a function does not succeed: it returns an error code, or it does not return. -/
inductive Fault where
  | errno (e : Errno)
  | crash (c : Crash)
  deriving DecidableEq, Repr

inductive DentryFlags where
  | directory
  | symlink
  | regular
  deriving DecidableEq, Repr

/-- `DentryData`, with the number of the inode. -/
structure DentryData where
  ino : ℕ
  flags : DentryFlags
  deriving DecidableEq, Repr

/-- `Dentry`, without the two list pointers. -/
structure Dentry where
  parent : ℕ
  name : Name
  hash : ℕ
  data : Option DentryData
  deriving DecidableEq

/-- All dentries created so far and the lists of the cache. -/
structure Dcache where
  links : Links
  dentry : ℕ → Dentry
  count : ℕ

def DCACHE_HASH_BITS : ℕ := 8

namespace Dentry

def create (H : ℕ → Name → ℕ) (parent : ℕ) (name : Name) : Dentry :=
  ⟨parent, name, H parent name, none⟩

def hashEq (d e : Dentry) : Bool := d.hash == e.hash && d.parent == e.parent && d.name == e.name

def dHinted (d : Dentry) : ℕ := d.hash &&& ((1 <<< DCACHE_HASH_BITS) - 1)

/-- The dentry with the parent and the name of `key`, and the hash of these. -/
def rekeyed (H : ℕ → Name → ℕ) (d key : Dentry) : Dentry :=
  { d with parent := key.parent, name := key.name, hash := H key.parent key.name }

end Dentry

namespace Dcache

variable (H : ℕ → Name → ℕ) (s : Dcache)

def dIterFor (d : Dentry) : List ℕ := s.links.iter s.count d.dHinted

def dAdd (d : ℕ) : Dcache := { s with links := s.links.insert (s.dentry d).dHinted d }

def dRemove (d : ℕ) : Dcache := { s with links := s.links.remove (s.dentry d).dHinted d }

def dFindFast (d : Dentry) : Option ℕ := (s.dIterFor d).find? fun cur => (s.dentry cur).hashEq d

def setDentry (d : ℕ) (v : Dentry) : Dcache := { s with dentry := update s.dentry d v }

def alloc (v : Dentry) : Dcache := { s.setDentry s.count v with count := s.count + 1 }

/-- `Dentry::rehash`, which asserts that the dentry has no predecessor. -/
def rehash (d : ℕ) : Except Fault Dcache :=
  let v := s.dentry d
  if (s.links.prev d).isSome then .error (.crash .assertion)
  else .ok (s.setDentry d { v with hash := H v.parent v.name })

/-- `RCUPointer::exchange` of the parents and of the names of two dentries. -/
def exchangeKeys (old new : ℕ) : Dcache :=
  let o := s.dentry old
  let n := s.dentry new
  (s.setDentry old { o with parent := n.parent, name := n.name }).setDentry new
    { n with parent := o.parent, name := o.name }

def dExchange (old new : ℕ) : Except Fault Dcache := do
  if old = new then
    return s
  let s := (s.dRemove old).dRemove new
  let s ← (s.exchangeKeys old new).rehash H old
  let s ← s.rehash H new
  return (s.dAdd old).dAdd new

/-- `Dentry::save_data`, which asserts that the dentry was negative. -/
def saveData (d : ℕ) (data : DentryData) : Except Fault Dcache :=
  if (s.dentry d).data.isSome then .error (.crash .assertion)
  else .ok (s.setDentry d { s.dentry d with data := some data })

def getInode (d : ℕ) : Except Fault ℕ :=
  match (s.dentry d).data with
  | some data => .ok data.ino
  | none => .error (.errno .ENOENT)

/-- `Dentry::find`.  An unknown name gets a negative dentry: `d_try_revalidate` asks the parent
inode, and the `lookup` of the modelled file system always fails. -/
def find (d : ℕ) (name : Name) : Except Fault (Dcache × ℕ) :=
  match (s.dentry d).data with
  | none => .error (.errno .ENOENT)
  | some data =>
    if data.flags = .directory then
      if name = DOT then .ok (s, d)
      else if name = DOTDOT then .ok (s, (s.dentry d).parent)
      else
        match s.dFindFast (.create H d name) with
        | some found => .ok (s, found)
        | none => .ok ((s.alloc (.create H d name)).dAdd s.count, s.count)
    else .error (.errno .ENOTDIR)

/-- The dentry is met in its own list. -/
def Hashed (d : ℕ) : Prop := d ∈ s.dIterFor (s.dentry d)

instance (d : ℕ) : Decidable (s.Hashed d) := inferInstanceAs (Decidable (d ∈ _))

/-! ### What the updates leave alone -/

variable {H s}

@[simp] theorem dentry_dAdd (d : ℕ) : (s.dAdd d).dentry = s.dentry := rfl

@[simp] theorem count_dAdd (d : ℕ) : (s.dAdd d).count = s.count := rfl

@[simp] theorem dentry_dRemove (d : ℕ) : (s.dRemove d).dentry = s.dentry := rfl

@[simp] theorem count_dRemove (d : ℕ) : (s.dRemove d).count = s.count := rfl

@[simp] theorem count_setDentry (d : ℕ) (v : Dentry) : (s.setDentry d v).count = s.count := rfl

@[simp] theorem dentry_setDentry_self (d : ℕ) (v : Dentry) :
    (s.setDentry d v).dentry d = v := by
  simp [setDentry]

@[simp] theorem dentry_setDentry_of_ne {d x : ℕ} (v : Dentry) (hx : x ≠ d) :
    (s.setDentry d v).dentry x = s.dentry x := by
  simp [setDentry, hx]

@[simp] theorem dentry_alloc_self (v : Dentry) : (s.alloc v).dentry s.count = v := by
  simp [alloc]

@[simp] theorem dentry_alloc_of_ne {x : ℕ} (v : Dentry) (hx : x ≠ s.count) :
    (s.alloc v).dentry x = s.dentry x := by
  simp [alloc, hx]

@[simp] theorem count_alloc (v : Dentry) : (s.alloc v).count = s.count + 1 := rfl

theorem getInode_eq_ok {d j : ℕ} : s.getInode d = .ok j ↔ ∃ f, (s.dentry d).data = some ⟨j, f⟩ := by
  unfold getInode
  cases hd : (s.dentry d).data with
  | none => simp
  | some data =>
    obtain ⟨i, f⟩ := data
    simp

/-! ### The hashed dentries -/

/-- The lists of the cache hold exactly the dentries of `K`, each in the list of its hash. -/
def Threads (s : Dcache) (K : ℕ → Prop) : Prop :=
  ∃ L, Links.Represents s.links L ∧ (∀ b, ∀ c ∈ L b, c < s.count ∧ (s.dentry c).dHinted = b) ∧
    ∀ c, K c ↔ ∃ b, c ∈ L b

variable {K K' : ℕ → Prop} {c : ℕ}

section

variable (h : s.Threads K)
include h

theorem Threads.hashed_iff : s.Hashed c ↔ K c := by
  obtain ⟨L, hL, hhome, hK⟩ := h
  rw [Hashed, dIterFor, hL.iter_eq (hL.length_le fun y hy => (hhome _ y hy).1), hK]
  constructor
  · exact fun hc => ⟨_, hc⟩
  · rintro ⟨b, hc⟩
    rw [(hhome b c hc).2]
    exact hc

theorem Threads.congr (hK : ∀ x, K' x ↔ K x) : s.Threads K' := by
  obtain ⟨L, hL, hhome, hKL⟩ := h
  exact ⟨L, hL, hhome, fun x => (hK x).trans (hKL x)⟩

theorem Threads.lt (hc : K c) : c < s.count := by
  obtain ⟨L, -, hhome, hK⟩ := h
  obtain ⟨b, hb⟩ := (hK c).mp hc
  exact (hhome b c hb).1

theorem Threads.prev_eq_none (hc : ¬ K c) : s.links.prev c = none := by
  obtain ⟨L, hL, -, hK⟩ := h
  exact (hL.off fun b hb => hc ((hK c).mpr ⟨b, hb⟩)).1

theorem Threads.mem_dIterFor {d : Dentry} :
    c ∈ s.dIterFor d ↔ K c ∧ (s.dentry c).dHinted = d.dHinted := by
  obtain ⟨L, hL, hhome, hK⟩ := h
  rw [dIterFor, hL.iter_eq (hL.length_le fun y hy => (hhome _ y hy).1), hK]
  constructor
  · exact fun hc => ⟨⟨_, hc⟩, (hhome _ c hc).2⟩
  · rintro ⟨⟨b, hc⟩, hd⟩
    rw [← hd, (hhome b c hc).2]
    exact hc

theorem Threads.dAdd (hc : ¬ K c) (hlt : c < s.count) :
    (s.dAdd c).Threads fun x => K x ∨ x = c := by
  obtain ⟨L, hL, hhome, hK⟩ := h
  have hfree : ∀ b, c ∉ L b := fun b hb => hc ((hK c).mpr ⟨b, hb⟩)
  have hmem : ∀ b x, x ∈ update L (s.dentry c).dHinted (c :: L (s.dentry c).dHinted) b ↔
      x ∈ L b ∨ (x = c ∧ b = (s.dentry c).dHinted) := by
    intro b x
    by_cases hb : b = (s.dentry c).dHinted
    · subst hb
      rw [update_self, List.mem_cons]
      tauto
    · rw [update_of_ne hb]
      tauto
  refine ⟨_, hL.insert hfree, fun b x hx => ?_, fun x => ?_⟩
  · obtain hx | ⟨rfl, rfl⟩ := (hmem b x).mp hx
    · exact hhome b x hx
    · exact ⟨hlt, rfl⟩
  · simp only [hK, hmem, exists_or, exists_and_left, exists_eq, and_true]

theorem Threads.dRemove (hc : K c) :
    (s.dRemove c).Threads fun x => K x ∧ x ≠ c := by
  obtain ⟨L, hL, hhome, hK⟩ := h
  obtain ⟨b0, hb0⟩ := (hK c).mp hc
  obtain rfl : (s.dentry c).dHinted = b0 := (hhome b0 c hb0).2
  have hmem : ∀ b x, x ∈ update L (s.dentry c).dHinted ((L (s.dentry c).dHinted).erase c) b ↔
      x ∈ L b ∧ x ≠ c := by
    intro b x
    by_cases hb : b = (s.dentry c).dHinted
    · subst hb
      rw [update_self, (hL.nodup _).mem_erase_iff, and_comm]
    · rw [update_of_ne hb]
      refine (and_iff_left_of_imp ?_).symm
      rintro hx rfl
      exact hb (hL.disjoint hx hb0)
  refine ⟨_, hL.remove hb0, fun b x hx => hhome b x ((hmem b x).mp hx).1, fun x => ?_⟩
  simp only [hK, hmem, exists_and_right]

theorem Threads.setDentry (hc : ¬ K c) (v : Dentry) :
    (s.setDentry c v).Threads K := by
  obtain ⟨L, hL, hhome, hK⟩ := h
  refine ⟨L, hL, fun b x hx => ?_, hK⟩
  have hxc : x ≠ c := by
    rintro rfl
    exact hc ((hK x).mpr ⟨b, hx⟩)
  rw [dentry_setDentry_of_ne v hxc]
  exact hhome b x hx

theorem Threads.setDentry_of_hash {v : Dentry}
    (hv : v.hash = (s.dentry c).hash) : (s.setDentry c v).Threads K := by
  obtain ⟨L, hL, hhome, hK⟩ := h
  refine ⟨L, hL, fun b x hx => ?_, hK⟩
  obtain ⟨hlt, hb⟩ := hhome b x hx
  refine ⟨hlt, ?_⟩
  by_cases hxc : x = c
  · subst hxc
    rw [dentry_setDentry_self, Dentry.dHinted, hv]
    exact hb
  · rw [dentry_setDentry_of_ne v hxc]
    exact hb

theorem Threads.alloc (v : Dentry) : (s.alloc v).Threads K := by
  obtain ⟨L, hL, hhome, hK⟩ := h
  refine ⟨L, hL, fun b x hx => ?_, hK⟩
  obtain ⟨hlt, hb⟩ := hhome b x hx
  rw [dentry_alloc_of_ne v (by omega), count_alloc]
  exact ⟨by omega, hb⟩

theorem Threads.rehash (hc : ¬ K c) :
    ∃ t, s.rehash H c = .ok t ∧ t.Threads K ∧ t.count = s.count ∧
      t.dentry = update s.dentry c ((s.dentry c).rekeyed H (s.dentry c)) :=
  ⟨s.setDentry c ((s.dentry c).rekeyed H (s.dentry c)),
    by simp [Dcache.rehash, h.prev_eq_none hc, Dentry.rekeyed], h.setDentry hc _, rfl, rfl⟩

theorem Threads.dExchange {old new : ℕ} (hold : K old) (hnew : K new) (hne : old ≠ new) :
    ∃ t, s.dExchange H old new = .ok t ∧ t.Threads K ∧ t.count = s.count ∧
      t.dentry = update (update s.dentry old ((s.dentry old).rekeyed H (s.dentry new))) new
        ((s.dentry new).rekeyed H (s.dentry old)) := by
  -- the two dentries leave their lists before anything is written
  have h1 := (h.dRemove hold).dRemove (c := new) ⟨hnew, hne.symm⟩
  set K1 : ℕ → Prop := fun x => (K x ∧ x ≠ old) ∧ x ≠ new with hK₁
  have hold1 : ¬ K1 old := fun hk => hk.1.2 rfl
  have hnew1 : ¬ K1 new := fun hk => hk.2 rfl
  have h2 : (((s.dRemove old).dRemove new).exchangeKeys old new).Threads K1 :=
    (h1.setDentry hold1 _).setDentry hnew1 _
  obtain ⟨t3, hrun3, h3, hcount3, hdentry3⟩ := h2.rehash (H := H) hold1
  obtain ⟨t4, hrun4, h4, hcount4, hdentry4⟩ := h3.rehash (H := H) hnew1
  have hcount : t4.count = s.count := hcount4.trans hcount3
  have h5 := (h4.dAdd hold1 (hcount ▸ h.lt hold)).dAdd (c := new) (by simp [hK₁, hne.symm])
    (show new < t4.count from hcount ▸ h.lt hnew)
  refine ⟨(t4.dAdd old).dAdd new, ?_, h5.congr fun x => ?_, hcount, ?_⟩
  · simp [Dcache.dExchange, hne, hrun3, hrun4, Bind.bind, Except.bind, Pure.pure, Except.pure]
  · simp only [hK₁]
    by_cases hxo : x = old
    · simp [hxo, hold]
    · by_cases hxn : x = new
      · simp [hxn, hnew]
      · simp [hxo, hxn]
  · rw [dentry_dAdd, dentry_dAdd, hdentry4, hdentry3]
    funext x
    by_cases hxn : x = new
    · subst hxn
      simp [exchangeKeys, Dcache.setDentry, Dentry.rekeyed, hne.symm]
    · by_cases hxo : x = old
      · subst hxo
        simp [exchangeKeys, Dcache.setDentry, Dentry.rekeyed, hne]
      · simp [exchangeKeys, Dcache.setDentry, hxn, hxo]

end

/-! ### The invariant of the cache -/

/-- The lists hold the hashed dentries, hashes are up to date, and a parent and a name identify a
hashed dentry. -/
structure CacheInv (H : ℕ → Name → ℕ) (s : Dcache) : Prop where
  threads : s.Threads s.Hashed
  hash {c : ℕ} (hc : c < s.count) : (s.dentry c).hash = H (s.dentry c).parent (s.dentry c).name
  unique {c c' : ℕ} (hc : s.Hashed c) (hc' : s.Hashed c')
    (hp : (s.dentry c).parent = (s.dentry c').parent)
    (hn : (s.dentry c).name = (s.dentry c').name) : c = c'

def Child (s : Dcache) (d : ℕ) (n : Name) (c : ℕ) : Prop :=
  s.Hashed c ∧ (s.dentry c).parent = d ∧ (s.dentry c).name = n

variable {n : Name}

theorem CacheInv.dFindFast_iff (h : s.CacheInv H) {d : ℕ} :
    s.dFindFast (.create H d n) = some c ↔ s.Child d n c := by
  have hmem : ∀ x, x ∈ s.dIterFor (.create H d n) →
      ((s.dentry x).hashEq (.create H d n) = true ↔ s.Child d n x) := by
    intro x hx
    have hxh := (h.threads.mem_dIterFor.mp hx).1
    have hxe := h.hash (h.threads.lt hxh)
    simp only [Dentry.hashEq, Dentry.create, Bool.and_eq_true, beq_iff_eq, Child]
    constructor
    · rintro ⟨⟨-, hp⟩, hn⟩
      exact ⟨hxh, hp, hn⟩
    · rintro ⟨-, hp, hn⟩
      exact ⟨⟨by rw [hxe, hp, hn], hp⟩, hn⟩
  have hlist : ∀ x, s.Child d n x → x ∈ s.dIterFor (.create H d n) := by
    rintro x ⟨hx, hp, hn⟩
    refine h.threads.mem_dIterFor.mpr ⟨hx, ?_⟩
    rw [Dentry.dHinted, h.hash (h.threads.lt hx), hp, hn]
    rfl
  have hfound : ∀ x, s.dFindFast (.create H d n) = some x → s.Child d n x := fun x hf =>
    (hmem x (List.mem_of_find?_eq_some hf)).mp
      (List.find?_some (p := fun cur => (s.dentry cur).hashEq (.create H d n)) hf)
  constructor
  · exact hfound c
  · intro hc
    cases hf : s.dFindFast (.create H d n) with
    | none =>
      have := List.find?_eq_none.mp hf c (hlist c hc)
      exact absurd ((hmem c (hlist c hc)).mpr hc) this
    | some x =>
      have hx := hfound x hf
      rw [h.unique hx.1 hc.1 (hx.2.1.trans hc.2.1.symm) (hx.2.2.trans hc.2.2.symm)]

theorem CacheInv.dFindFast_eq_none_iff (h : s.CacheInv H) {d : ℕ} :
    s.dFindFast (.create H d n) = none ↔ ∀ c, ¬ s.Child d n c := by
  rw [Option.eq_none_iff_forall_ne_some]
  exact forall_congr' fun c => not_congr h.dFindFast_iff

theorem CacheInv.child_unique (h : s.CacheInv H) {d c' : ℕ} (hc : s.Child d n c)
    (hc' : s.Child d n c') : c = c' :=
  h.unique hc.1 hc'.1 (hc.2.1.trans hc'.2.1.symm) (hc.2.2.trans hc'.2.2.symm)

/-! ### The operations keep the invariant -/

theorem Threads.cacheInv (h : s.Threads K)
    (hhash : ∀ c < s.count, (s.dentry c).hash = H (s.dentry c).parent (s.dentry c).name)
    (hunique : ∀ c c', K c → K c' → (s.dentry c).parent = (s.dentry c').parent →
      (s.dentry c).name = (s.dentry c').name → c = c') : s.CacheInv H where
  threads := h.congr fun _ => h.hashed_iff
  hash := fun {c} hc => hhash c hc
  unique := fun {c c'} hc hc' hp hn => hunique c c' (h.hashed_iff.mp hc) (h.hashed_iff.mp hc') hp hn

theorem CacheInv.addNew (h : s.CacheInv H) {d : ℕ} (hfree : ∀ c, ¬ s.Child d n c) :
    ((s.alloc (.create H d n)).dAdd s.count).CacheInv H ∧
      ∀ x, ((s.alloc (.create H d n)).dAdd s.count).Hashed x ↔ s.Hashed x ∨ x = s.count := by
  have hnot : ¬ s.Hashed s.count := fun hc => Nat.lt_irrefl _ (h.threads.lt hc)
  have hthreads := (h.threads.alloc (.create H d n)).dAdd hnot (Nat.lt_succ_self _)
  have hold : ∀ x, s.Hashed x → (s.alloc (.create H d n)).dentry x = s.dentry x := fun x hx =>
    dentry_alloc_of_ne _ (fun he => hnot (he ▸ hx))
  have hkey : ∀ x, s.Hashed x → (s.dentry x).parent = d → (s.dentry x).name = n → False :=
    fun x hx hp hn => hfree x ⟨hx, hp, hn⟩
  refine ⟨hthreads.cacheInv (fun c hc => ?_) ?_, fun x => hthreads.hashed_iff⟩
  · rw [dentry_dAdd]
    by_cases hcc : c = s.count
    · rw [hcc, dentry_alloc_self]
      rfl
    · rw [dentry_alloc_of_ne _ hcc]
      rw [count_dAdd, count_alloc] at hc
      exact h.hash (by omega)
  · intro c c' hc hc' hp hn
    simp only [dentry_dAdd] at hp hn
    rcases hc with hc | rfl <;> rcases hc' with hc' | rfl
    · rw [hold c hc, hold c' hc'] at hp hn
      exact h.unique hc hc' hp hn
    · rw [hold c hc, dentry_alloc_self] at hp hn
      exact (hkey c hc hp hn).elim
    · rw [hold c' hc', dentry_alloc_self] at hp hn
      exact (hkey c' hc' hp.symm hn.symm).elim
    · rfl

theorem CacheInv.setData (h : s.CacheInv H) (d : ℕ) (data : Option DentryData) :
    (s.setDentry d { s.dentry d with data }).CacheInv H ∧
      ∀ x, (s.setDentry d { s.dentry d with data }).Hashed x ↔ s.Hashed x := by
  have hthreads := h.threads.setDentry_of_hash (c := d) (v := { s.dentry d with data }) rfl
  have hkey : ∀ x, ((s.setDentry d { s.dentry d with data }).dentry x).hash = (s.dentry x).hash ∧
      ((s.setDentry d { s.dentry d with data }).dentry x).parent = (s.dentry x).parent ∧
      ((s.setDentry d { s.dentry d with data }).dentry x).name = (s.dentry x).name := by
    intro x
    by_cases hx : x = d
    · subst hx
      rw [dentry_setDentry_self]
      exact ⟨rfl, rfl, rfl⟩
    · rw [dentry_setDentry_of_ne _ hx]
      exact ⟨rfl, rfl, rfl⟩
  refine ⟨hthreads.cacheInv (fun c hc => ?_) fun c c' hc hc' hp hn => ?_,
    fun x => hthreads.hashed_iff⟩
  · rw [(hkey c).1, (hkey c).2.1, (hkey c).2.2]
    exact h.hash hc
  · rw [(hkey c).2.1, (hkey c').2.1] at hp
    rw [(hkey c).2.2, (hkey c').2.2] at hn
    exact h.unique hc hc' hp hn

theorem CacheInv.dRemove (h : s.CacheInv H) (hc : s.Hashed c) :
    (s.dRemove c).CacheInv H ∧ ∀ x, (s.dRemove c).Hashed x ↔ s.Hashed x ∧ x ≠ c := by
  have hthreads := h.threads.dRemove hc
  refine ⟨hthreads.cacheInv (fun x hx => h.hash hx) fun x y hx hy hp hn => ?_,
    fun x => hthreads.hashed_iff⟩
  exact h.unique hx.1 hy.1 hp hn

theorem CacheInv.dExchange (h : s.CacheInv H) {old new : ℕ} (hold : s.Hashed old)
    (hnew : s.Hashed new) (hne : old ≠ new) :
    ∃ t, s.dExchange H old new = .ok t ∧ t.CacheInv H ∧ t.count = s.count ∧
      (∀ x, t.Hashed x ↔ s.Hashed x) ∧ ∀ x,
        (t.dentry x).parent = (s.dentry (Equiv.swap old new x)).parent ∧
        (t.dentry x).name = (s.dentry (Equiv.swap old new x)).name ∧
        (t.dentry x).data = (s.dentry x).data := by
  obtain ⟨t, hrun, hthreads, hcount, hdentry⟩ := h.threads.dExchange (H := H) hold hnew hne
  have hkey : ∀ x, (t.dentry x).parent = (s.dentry (Equiv.swap old new x)).parent ∧
      (t.dentry x).name = (s.dentry (Equiv.swap old new x)).name ∧
      (t.dentry x).data = (s.dentry x).data := by
    intro x
    rw [hdentry]
    by_cases hxn : x = new
    · subst hxn
      simp [Dentry.rekeyed]
    · by_cases hxo : x = old
      · subst hxo
        simp [Dentry.rekeyed, hne]
      · simp [Equiv.swap_apply_of_ne_of_ne, hxn, hxo]
  have hhash : ∀ x < s.count, (t.dentry x).hash = H (t.dentry x).parent (t.dentry x).name := by
    intro x hx
    rw [hdentry]
    by_cases hxn : x = new
    · subst hxn
      simp [Dentry.rekeyed]
    · by_cases hxo : x = old
      · subst hxo
        simp [Dentry.rekeyed, hne]
      · simpa [hxn, hxo] using h.hash hx
  have hswap : ∀ x, s.Hashed x → s.Hashed (Equiv.swap old new x) := by
    intro x hx
    by_cases hxn : x = new
    · subst hxn
      simpa using hold
    · by_cases hxo : x = old
      · subst hxo
        simpa using hnew
      · rwa [Equiv.swap_apply_of_ne_of_ne hxo hxn]
  refine ⟨t, hrun, hthreads.cacheInv (fun c hc => hhash c (hcount ▸ hc)) ?_, hcount,
    fun x => hthreads.hashed_iff, hkey⟩
  -- two dentries with equal keys are the images of two dentries with equal keys
  intro c c' hc hc' hp hn
  rw [(hkey c).1, (hkey c').1] at hp
  rw [(hkey c).2.1, (hkey c').2.1] at hn
  exact (Equiv.swap old new).injective (h.unique (hswap c hc) (hswap c' hc') hp hn)

end Dcache

end Dlutos.Vfs
