import Dlutos.Foundation.ExceptLoop
import Dlutos.Vfs.Dcache

/-!
# Path resolution

`PathIterator` of `path.rs` and `Dentry::open_recursive` with `resolve_directory` of
`kernel/vfs/dentry.rs`, over any dentries.  Every call of one of the two functions gets the number
of calls that may still be nested in it, and `none` says that they are not enough; the loop over the
components needs no such number.

The reference resolver `refOpen` expands a link where it meets it, and not when the next component
needs a directory.
-/

namespace Dlutos.Vfs

inductive PathErrno where
  | ENOENT
  | ENOTDIR
  | ELOOP
  | ENAMETOOLONG
  | ERANGE
  deriving DecidableEq

/-- A call that may end with an error, or is still running. -/
abbrev Walk (α : Type) := ExceptT PathErrno Option α

/-! ### The components of a path -/

def SLASH : UInt8 := 47

inductive PathComponent where
  | name (n : Name)
  | trailingEmpty
  | current
  | parent
  deriving DecidableEq

def pathNew (all : Name) : Except PathErrno Name :=
  if all = [] then .error .ENOENT
  else if 255 < all.length then .error .ENAMETOOLONG
  else .ok all

def componentOf (cur : Name) : PathComponent :=
  if cur = [] then .trailingEmpty
  else if cur = DOT then .current
  else if cur = DOTDOT then .parent
  else .name cur

/-- `PathIterator::next`, with the rest of the path. -/
def nextComponent (rem : Name) : Option (PathComponent × Name) :=
  if rem = [] then none
  else
    let trimmed := rem.dropWhile (· = SLASH)
    some (componentOf (trimmed.takeWhile (· ≠ SLASH)), trimmed.dropWhile (· ≠ SLASH))

theorem head_dropWhile {p : UInt8 → Bool} {l t : Name} {a : UInt8} (h : l.dropWhile p = a :: t) :
    p a = false := by
  have hhead := List.head?_dropWhile_not p l
  rw [h] at hhead
  exact hhead

theorem length_nextComponent {rem rest : Name} {c : PathComponent}
    (h : nextComponent rem = some (c, rest)) : rest.length < rem.length := by
  unfold nextComponent at h
  split at h
  · cases h
  · next hne =>
    cases h
    have htrim := (rem.dropWhile_suffix (· = SLASH)).length_le
    cases ht : rem.dropWhile (· = SLASH) with
    | nil => exact List.length_pos_iff.mpr hne
    | cons a l =>
      rw [ht, List.length_cons] at htrim
      rw [List.dropWhile_cons_of_pos (by simpa using head_dropWhile ht)]
      exact Nat.lt_of_le_of_lt (l.dropWhile_suffix _).length_le htrim

def components (rem : Name) : List PathComponent :=
  match _h : nextComponent rem with
  | none => []
  | some (c, rest) => c :: components rest
termination_by rem.length
decreasing_by exact length_nextComponent _h

/-! ### The resolver -/

/-- The data of a dentry that has an inode. -/
inductive Node where
  | directory
  | regular
  | symlink (target : Name)
  deriving DecidableEq

/-- The dentries as path resolution sees them; `lookup` finds or makes the dentry of a name. -/
structure DentryView (δ : Type) where
  data : δ → Option Node
  parent : δ → δ
  name : δ → Name
  lookup : δ → Name → δ
  fsroot : δ

namespace DentryView

variable {δ : Type} [DecidableEq δ] (T : DentryView δ)

/-- `Dentry::hash_eq`; the hash is a function of the parent and the name. -/
def hashEq (d e : δ) : Bool := T.parent d = T.parent e ∧ T.name d = T.name e

def find (d : δ) (n : Name) : Except PathErrno δ :=
  match T.data d with
  | none => .error .ENOENT
  | some .directory =>
    .ok (if n = DOT then d else if n = DOTDOT then T.parent d else T.lookup d n)
  | some _ => .error .ENOTDIR

/-- `readlink` into a buffer of 256 bytes, and `Path::new`. -/
def linkPath (target : Name) : Except PathErrno Name := pathNew (target.take 256)

/-- The loop of `open_recursive`.  The early return for a missing dentry is in its last iteration,
after which nothing else would be done. -/
def walkItems (resolve : δ → Walk δ) : List PathComponent → δ → Walk δ
  | [], cwd => pure cwd
  | item :: items, cwd =>
    if item = .trailingEmpty ∧ T.data cwd = none then pure cwd
    else do
      let cwd ← resolve cwd
      match item with
      | .trailingEmpty | .current => walkItems resolve items cwd
      | .parent =>
        if T.hashEq cwd T.fsroot then walkItems resolve items cwd
        else do
          let parent ← resolve (T.parent cwd)
          walkItems resolve items parent
      | .name n => do
        let cwd ← ExceptT.mk (some (T.find cwd n))
        walkItems resolve items cwd

/-- The end of `open_recursive`: a link as the last component. -/
def followLink (openLink : δ → Name → Walk δ) (follow : Bool) (cwd : δ) : Walk δ :=
  match follow, T.data cwd with
  | true, some (.symlink target) => do
    let path ← ExceptT.mk (some (linkPath target))
    openLink (T.parent cwd) path
  | _, _ => pure cwd

def startOf (cwd : δ) (path : Name) : δ := if path.head? = some SLASH then T.fsroot else cwd

mutual

def resolveDirectory : ℕ → δ → ℕ → Walk δ
  | 0, _, _ => ExceptT.mk none
  | stack + 1, dentry, nrecur =>
    if 16 ≤ nrecur then throw .ELOOP
    else
      match T.data dentry with
      | none => throw .ENOENT
      | some .regular => throw .ENOTDIR
      | some .directory => pure dentry
      | some (.symlink target) => do
        let path ← ExceptT.mk (some (linkPath target))
        let dentry ← openRecursive stack (T.parent dentry) path true (nrecur + 1)
        resolveDirectory stack dentry (nrecur + 1)

def openRecursive : ℕ → δ → Name → Bool → ℕ → Walk δ
  | 0, _, _, _, _ => ExceptT.mk none
  | stack + 1, cwd, path, follow, nrecur =>
    if 16 ≤ nrecur then throw .ELOOP
    else do
      let cwd ← T.walkItems (fun d => resolveDirectory stack d nrecur) (components path)
        (T.startOf cwd path)
      T.followLink (fun parent path => openRecursive stack parent path true (nrecur + 1)) follow cwd

end

/-! ### Termination -/

section Ends

variable {α β : Type} {T}

/-- The call returns. -/
def Ends (x : Walk α) : Prop := ∃ r, x = some r

omit [DecidableEq δ] in
theorem Ends.bind {x : Walk α} {f : α → Walk β} (hx : Ends x) (hf : ∀ a, Ends (f a)) :
    Ends (x >>= f) := by
  obtain ⟨r, rfl⟩ := hx
  cases r with
  | ok a => exact hf a
  | error e => exact ⟨.error e, rfl⟩

theorem ends_walkItems {resolve : δ → Walk δ} (h : ∀ d, Ends (resolve d))
    (items : List PathComponent) (cwd : δ) : Ends (T.walkItems resolve items cwd) := by
  induction items generalizing cwd with
  | nil => exact ⟨.ok cwd, rfl⟩
  | cons item items ih =>
    unfold walkItems
    split
    · exact ⟨.ok cwd, rfl⟩
    · refine (h cwd).bind fun cwd => ?_
      cases item with
      | trailingEmpty => exact ih cwd
      | current => exact ih cwd
      | parent =>
        dsimp only
        split
        · exact ih cwd
        · exact (h _).bind ih
      | name n => exact Ends.bind ⟨_, rfl⟩ ih

/-- Each of the 16 levels nests two calls: `open_recursive` calls `resolve_directory` of its own
level, which calls both functions of the next one. -/
theorem ends_of_stack (k : ℕ) : ∀ nrecur, 16 ≤ nrecur + k →
    (∀ stack d, 2 * k + 1 ≤ stack → Ends (T.resolveDirectory stack d nrecur)) ∧
      ∀ stack cwd path follow, 2 * k + 2 ≤ stack →
        Ends (T.openRecursive stack cwd path follow nrecur) := by
  induction k with
  | zero =>
    intro nrecur hk
    refine ⟨?_, ?_⟩
    · rintro (_ | stack) d hs
      · omega
      · rw [resolveDirectory, if_pos (by omega)]
        exact ⟨_, rfl⟩
    · rintro (_ | stack) cwd path follow hs
      · omega
      · rw [openRecursive, if_pos (by omega)]
        exact ⟨_, rfl⟩
  | succ k ih =>
    intro nrecur hk
    obtain ⟨hresolve, hopen⟩ := ih (nrecur + 1) (by omega)
    have hdir : ∀ stack d, 2 * (k + 1) + 1 ≤ stack → Ends (T.resolveDirectory stack d nrecur) := by
      rintro (_ | stack) d hs
      · omega
      rw [resolveDirectory]
      split
      · exact ⟨_, rfl⟩
      split
      · exact ⟨_, rfl⟩
      · exact ⟨_, rfl⟩
      · exact ⟨_, rfl⟩
      · exact Ends.bind ⟨_, rfl⟩ fun path => (hopen _ _ path true (by omega)).bind fun dentry =>
          hresolve _ dentry (by omega)
    refine ⟨hdir, ?_⟩
    rintro (_ | stack) cwd path follow hs
    · omega
    rw [openRecursive]
    split
    · exact ⟨_, rfl⟩
    refine (ends_walkItems (fun d => hdir stack d (by omega)) _ _).bind fun cwd => ?_
    unfold followLink
    split
    · exact Ends.bind ⟨_, rfl⟩ fun path => hopen _ _ path true (by omega)
    · exact ⟨_, rfl⟩

end Ends

/-- Links whose paths begin with a name that leads to a link of the set again. -/
def LinkCycle (C : Set δ) : Prop := ∀ d ∈ C, ∃ target path n items, ∃ e ∈ C,
  T.data d = some (.symlink target) ∧ linkPath target = .ok path ∧
    components path = .name n :: items ∧
    T.data (T.startOf (T.parent d) path) = some .directory ∧
    T.find (T.startOf (T.parent d) path) n = .ok e

variable {T}

theorem LinkCycle.eloop {C : Set δ} (hC : T.LinkCycle C) (k : ℕ) : ∀ nrecur, nrecur + k = 16 →
    (∀ stack, ∀ d ∈ C, 2 * k + 1 ≤ stack → T.resolveDirectory stack d nrecur =
      some (.error .ELOOP)) ∧
    ∀ stack, ∀ d ∈ C, ∀ target path, T.data d = some (.symlink target) →
      linkPath target = .ok path → 2 * k + 2 ≤ stack →
      T.openRecursive stack (T.parent d) path true nrecur = some (.error .ELOOP) := by
  induction k with
  | zero =>
    intro nrecur hk
    refine ⟨?_, ?_⟩
    · rintro (_ | stack) d - hs
      · omega
      · rw [resolveDirectory, if_pos (by omega)]
        rfl
    · rintro (_ | stack) d - target path - - hs
      · omega
      · rw [openRecursive, if_pos (by omega)]
        rfl
  | succ k ih =>
    intro nrecur hk
    obtain ⟨-, hopen⟩ := ih (nrecur + 1) (by omega)
    have hdir : ∀ stack, ∀ d ∈ C, 2 * (k + 1) + 1 ≤ stack →
        T.resolveDirectory stack d nrecur = some (.error .ELOOP) := by
      rintro (_ | stack) d hd hs
      · omega
      obtain ⟨target, path, -, -, -, -, htarget, hpath, -⟩ := hC d hd
      rw [resolveDirectory, if_neg (by omega)]
      simp only [htarget, hpath]
      show (T.openRecursive stack (T.parent d) path true (nrecur + 1) >>= _) = _
      rw [hopen stack d hd target path htarget hpath (by omega)]
      rfl
    refine ⟨hdir, ?_⟩
    rintro (_ | stack) d hd target path htarget hpath hs
    · omega
    obtain ⟨target', path', n, items, e, he, htarget', hpath', hitems, hstart, hfind⟩ := hC d hd
    obtain rfl : target = target' := by simpa [htarget] using htarget'
    obtain rfl : path = path' := by simpa [hpath] using hpath'
    have hresolve : T.resolveDirectory stack (T.startOf (T.parent d) path) nrecur =
        pure (T.startOf (T.parent d) path) := by
      obtain ⟨stack, rfl⟩ : ∃ m, stack = m + 1 := ⟨stack - 1, by omega⟩
      rw [resolveDirectory, if_neg (by omega)]
      simp only [hstart]
    rw [openRecursive, if_neg (by omega), hitems, walkItems, if_neg (by simp)]
    simp only [hresolve, pure_bind, hfind]
    show (T.walkItems (fun d => T.resolveDirectory stack d nrecur) items e >>= _) = _
    obtain ⟨target', path', -, -, -, -, htarget', hpath', -⟩ := hC e he
    cases items with
    | nil =>
      rw [walkItems, pure_bind]
      simp only [followLink, htarget', hpath']
      exact hopen stack e he target' path' htarget' hpath' (by omega)
    | cons item items =>
      rw [walkItems, if_neg (by simp [htarget'])]
      simp only [hdir stack e he (by omega)]
      rfl

variable (T)

/-- For all dentries, also for links that refer to themselves, no more than 34 calls are nested; and
cycles of links end in `ELOOP`. -/
theorem resolution_terminates : (∀ cwd path follow nrecur,
      ∃ r, T.openRecursive 34 cwd path follow nrecur = some r) ∧
    (∀ d nrecur, ∃ r, T.resolveDirectory 34 d nrecur = some r) ∧
    ∀ C, T.LinkCycle C → ∀ d ∈ C, ∀ target path, T.data d = some (.symlink target) →
      linkPath target = .ok path → T.resolveDirectory 34 d 0 = some (.error .ELOOP) ∧
        T.openRecursive 34 (T.parent d) path true 0 = some (.error .ELOOP) := by
  refine ⟨fun cwd path follow nrecur => ?_, fun d nrecur => ?_, ?_⟩
  · exact (ends_of_stack 16 nrecur (by omega)).2 34 cwd path follow (by omega)
  · exact (ends_of_stack 16 nrecur (by omega)).1 34 d (by omega)
  · intro C hC d hd target path ht hp
    obtain ⟨hdir, hopen⟩ := hC.eloop 16 0 rfl
    exact ⟨hdir 34 d hd (by omega), hopen 34 d hd target path ht hp (by omega)⟩

def selfLink : DentryView (Fin 2) where
  data d := if d = 0 then some .directory else some (.symlink [108])
  parent _ := 0
  name d := if d = 0 then [] else [108]
  lookup _ _ := 1
  fsroot := 0

theorem resolution_self_link :
    selfLink.openRecursive 34 0 [108] true 0 = some (.error .ELOOP) := by
  refine ((resolution_terminates selfLink).2.2 {1} ?_ 1 rfl [108] [108] rfl rfl).2
  rintro d rfl
  refine ⟨[108], [108], [108], components [], 1, rfl, rfl, rfl, ?_, rfl, rfl⟩
  rw [components]
  rfl

/-! ### The reference resolver -/

/-- The non-empty segments between slashes. -/
def segments (path : Name) : List Name := (path.splitOnP (· = SLASH)).filter (· ≠ [])

def endsWithSlash (path : Name) : Bool := path.getLast? = some SLASH

def refStep (d : δ) (seg : Name) : δ :=
  if seg = DOT then d
  else if seg = DOTDOT then if d = T.fsroot then d else T.parent d
  else T.lookup d seg

def directoryOf (d : δ) : Except PathErrno δ :=
  match T.data d with
  | none => .error .ENOENT
  | some .directory => .ok d
  | some _ => .error .ENOTDIR

/-- What a link leads to; other dentries stay as they are. -/
def refExpand (expand : δ → Name → Except PathErrno δ) (d : δ) : Except PathErrno δ :=
  match T.data d with
  | some (.symlink target) => expand d target
  | _ => .ok d

/-- The segments from a directory on; `slash` says that the last one is followed by a slash. -/
def refWalk (expand : δ → Name → Except PathErrno δ) (slash follow : Bool) :
    List Name → δ → Except PathErrno δ
  | [], d => .ok d
  | seg :: segs, d =>
    let e := T.refStep d seg
    if segs = [] ∧ slash = false then if follow then T.refExpand expand e else .ok e
    else if segs = [] ∧ T.data e = none then .ok e
    else do
      let e ← T.refExpand expand e
      refWalk expand slash follow segs (← T.directoryOf e)

/-- Resolution where at most `depth - 1` links are nested. -/
def refOpen : ℕ → δ → Name → Bool → Except PathErrno δ
  | 0, _, _, _ => .error .ELOOP
  | depth + 1, cwd, path, follow =>
    T.refWalk (fun d target => do refOpen depth (T.parent d) (← linkPath target) true)
      (endsWithSlash path) follow (segments path) (T.startOf cwd path)

variable {T} in
theorem resolveDirectory_not_link {d : δ} (hd : ∀ t, T.data d ≠ some (.symlink t)) {nrecur : ℕ}
    (hn : nrecur < 16) (stack : ℕ) :
    T.resolveDirectory (stack + 1) d nrecur = some (T.directoryOf d) := by
  rw [resolveDirectory, if_neg (by omega)]
  unfold directoryOf
  cases hnode : T.data d with
  | none => rfl
  | some node =>
    cases node with
    | directory => rfl
    | regular => rfl
    | symlink t => exact (hd t hnode).elim

end DentryView

open DentryView

theorem segments_slash (l : Name) : segments (SLASH :: l) = segments l := by
  simp [segments, List.splitOnP_cons_eq_if_modifyHead]

theorem segments_append {cur : Name} (hne : cur ≠ []) (hcur : ∀ c ∈ cur, c ≠ SLASH) (l : Name) :
    segments (cur ++ SLASH :: l) = cur :: segments l := by
  unfold segments
  rw [List.splitOnP_append_cons_of_forall_mem (by simpa using hcur) SLASH (by simp)]
  simp [hne]

theorem segments_single {cur : Name} (hne : cur ≠ []) (hcur : ∀ c ∈ cur, c ≠ SLASH) :
    segments cur = [cur] := by
  unfold segments
  rw [List.splitOnP_eq_singleton (by simpa using hcur)]
  simp [hne]

theorem of_mem_takeWhile {p : UInt8 → Bool} {l : Name} {c : UInt8} (hc : c ∈ l.takeWhile p) :
    p c := List.all_eq_true.mp List.all_takeWhile c hc

/-- What the iterator cuts off: slashes, a segment without slashes, and a rest that is empty or
begins with a slash. -/
theorem nextComponent_spec {path rest : Name} {c : PathComponent}
    (h : nextComponent path = some (c, rest)) : ∃ slashes cur, path = slashes ++ (cur ++ rest) ∧
      c = componentOf cur ∧ (∀ b ∈ slashes, b = SLASH) ∧ (∀ b ∈ cur, b ≠ SLASH) ∧
      (cur = [] → rest = [] ∧ slashes ≠ []) ∧ (rest = [] ∨ ∃ l, rest = SLASH :: l) := by
  unfold nextComponent at h
  split at h
  · cases h
  next hne =>
  cases h
  have hpath := path.takeWhile_append_dropWhile (p := (· = SLASH))
  generalize htrim : path.dropWhile (· = SLASH) = trimmed at hpath
  refine ⟨path.takeWhile (· = SLASH), trimmed.takeWhile (· ≠ SLASH), ?_, rfl,
    fun b hb => by simpa using of_mem_takeWhile hb, fun b hb => by simpa using of_mem_takeWhile hb,
    ?_, ?_⟩
  · rw [List.takeWhile_append_dropWhile, hpath]
  · intro hcur
    cases trimmed with
    | nil =>
      refine ⟨rfl, fun hslashes => hne ?_⟩
      rw [← hpath, hslashes, List.append_nil]
    | cons a l =>
      rw [List.takeWhile_cons_of_pos (by simpa using head_dropWhile htrim)] at hcur
      cases hcur
  · cases hrest : trimmed.dropWhile (· ≠ SLASH) with
    | nil => exact Or.inl rfl
    | cons a l =>
      obtain rfl : a = SLASH := by simpa using head_dropWhile hrest
      exact Or.inr ⟨l, rfl⟩

theorem segments_slashes {slashes : Name} (h : ∀ b ∈ slashes, b = SLASH) (l : Name) :
    segments (slashes ++ l) = segments l := by
  induction slashes with
  | nil => rfl
  | cons b slashes ih =>
    rw [h b List.mem_cons_self, List.cons_append, segments_slash,
      ih fun b hb => h b (List.mem_cons_of_mem _ hb)]

/-- The iterator gives the segments, and one more item for a slash at the end. -/
theorem components_eq (path : Name) : components path = (segments path).map componentOf ++
    if endsWithSlash path then [.trailingEmpty] else [] := by
  induction hlen : path.length using Nat.strong_induction_on generalizing path with
  | _ len ih =>
    subst hlen
    unfold components
    split
    · next hnext =>
      have hnil : path = [] := by simpa [nextComponent] using hnext
      rw [hnil]
      rfl
    · next c rest hnext =>
      rw [ih rest.length (length_nextComponent hnext) rest rfl]
      obtain ⟨slashes, cur, rfl, rfl, hslashes, hcur, hempty, hrest⟩ := nextComponent_spec hnext
      rw [segments_slashes hslashes]
      by_cases hne : cur = []
      · obtain ⟨rfl, hpos⟩ := hempty hne
        subst hne
        have hlast := hslashes _ (List.getLast_mem hpos)
        simp [List.getLast?_eq_some_getLast hpos, hlast, segments, componentOf,
          endsWithSlash]
      obtain rfl | ⟨l, rfl⟩ := hrest
      · have hlast := hcur _ (List.getLast_mem hne)
        rw [List.append_nil, segments_single hne hcur]
        simp [List.getLast?_append, List.getLast?_eq_some_getLast hne, hlast, segments,
          endsWithSlash]
      · rw [segments_append hne hcur, segments_slash]
        simp [List.getLast?_append, List.getLast?_cons, endsWithSlash]

/-! ### The resolver meets the reference -/

/-- Dentries of a tree: what exists is in a directory, and a directory is known by its parent and
its name.  A top of the tree is its own parent. -/
structure DentryTree (δ : Type) extends DentryView δ where
  fsroot_directory : data fsroot = some .directory
  parent_directory : ∀ d, data d ≠ none → data (parent d) = some .directory
  identified : ∀ d e, data d = some .directory → data e = some .directory →
    parent d = parent e → name d = name e → d = e

namespace DentryTree

variable {δ : Type} [DecidableEq δ] {T : DentryTree δ} {expand : δ → Name → Except PathErrno δ}
  {R : δ → Walk δ} {O : δ → Name → Walk δ}

omit [DecidableEq δ] in
variable {d : δ}

theorem data_of_directoryOf {e : δ} (h : T.directoryOf d = .ok e) :
    d = e ∧ T.data e = some .directory := by
  unfold directoryOf at h
  split at h
  · cases h
  · next hd =>
    cases h
    exact ⟨rfl, hd⟩
  · cases h

omit [DecidableEq δ] in
theorem refExpand_directory (hd : T.data d = some .directory) : T.refExpand expand d = .ok d := by
  simp only [refExpand, hd]

omit [DecidableEq δ] in
theorem directoryOf_directory (hd : T.data d = some .directory) : T.directoryOf d = .ok d := by
  simp only [directoryOf, hd]

section Loop

variable (hR : ∀ d, R d = some (T.refExpand expand d >>= T.directoryOf))
include hR

omit [DecidableEq δ] in
theorem resolve_directory (hd : T.data d = some .directory) : R d = pure d := by
  rw [hR, refExpand_directory hd]
  show (some (T.directoryOf d) : Option _) = _
  rw [directoryOf_directory hd]
  rfl

theorem walkItems_segment (hd : T.data d = some .directory) {seg : Name} (hseg : seg ≠ [])
    (items : List PathComponent) : T.walkItems R (componentOf seg :: items) d =
      T.walkItems R items (T.refStep d seg) := by
  have hstart : ¬(componentOf seg = .trailingEmpty ∧ T.data d = none) := by simp [hd]
  rw [walkItems, if_neg hstart, resolve_directory hR hd, pure_bind]
  by_cases hdot : seg = DOT
  · have hitem : componentOf seg = .current := by rw [hdot]; rfl
    rw [hitem, show T.refStep d seg = d from if_pos hdot]
  by_cases hdots : seg = DOTDOT
  · have hroot : T.hashEq d T.fsroot = true ↔ d = T.fsroot := by
      simp only [hashEq, decide_eq_true_eq]
      refine ⟨fun h => T.identified d T.fsroot hd T.fsroot_directory h.1 h.2, ?_⟩
      rintro rfl
      exact ⟨rfl, rfl⟩
    have hparent := resolve_directory hR (T.parent_directory d (by simp [hd]))
    have hitem : componentOf seg = .parent := by rw [hdots]; rfl
    rw [hitem, refStep, if_neg hdot, if_pos hdots]
    by_cases hd' : d = T.fsroot
    · simp only [if_pos (hroot.mpr hd'), if_pos hd']
    · simp only [if_neg (fun h => hd' (hroot.mp h)), if_neg hd', hparent, pure_bind]
  · simp only [componentOf, refStep, if_neg hseg, if_neg hdot, if_neg hdots, find, hd]
    rfl

/-- The loop resolves its directory before it looks at the first item. -/
theorem walkItems_resolve {e : δ} {items : List PathComponent} (hne : items ≠ [])
    (he : T.data e = none → items.head? ≠ some .trailingEmpty) :
    T.walkItems R items e = R e >>= T.walkItems R items := by
  obtain ⟨item, items, rfl⟩ := List.exists_cons_of_ne_nil hne
  have hstart : ¬(item = .trailingEmpty ∧ T.data e = none) :=
    fun h => he h.2 (congrArg some h.1)
  rw [walkItems, if_neg hstart]
  cases hx : T.refExpand expand e >>= T.directoryOf with
  | error err =>
    rw [hR e, hx]
    rfl
  | ok d =>
    obtain ⟨e', -, hdir⟩ := ExceptLoop.bind_eq_ok.mp hx
    have hd := (data_of_directoryOf hdir).2
    have hRe : R e = pure d := by
      rw [hR e, hx]
      rfl
    rw [hRe, pure_bind, pure_bind]
    conv_rhs => rw [walkItems, if_neg (by simp [hd]), resolve_directory hR hd, pure_bind]

variable (hO : ∀ d target, T.data d = some (.symlink target) →
  (ExceptT.mk (some (linkPath target)) >>= O (T.parent d) : Walk δ) = some (expand d target))
include hO

omit [DecidableEq δ] hR in
theorem followLink_eq (follow : Bool) (e : δ) :
    T.followLink O follow e = some (if follow then T.refExpand expand e else .ok e) := by
  cases follow with
  | false =>
    simp only [followLink]
    rfl
  | true =>
    cases hnode : T.data e with
    | none => simp only [followLink, refExpand, hnode]; rfl
    | some node =>
      cases node with
      | symlink target =>
        simp only [followLink, refExpand, hnode]
        exact hO e target hnode
      | directory => simp only [followLink, refExpand, hnode]; rfl
      | regular => simp only [followLink, refExpand, hnode]; rfl

theorem walk_eq (slash follow : Bool) (segs : List Name) (hsegs : ∀ seg ∈ segs, seg ≠ []) (d : δ)
    (hd : T.data d = some .directory) :
    (T.walkItems R (segs.map componentOf ++ if slash then [.trailingEmpty] else []) d >>=
      T.followLink O follow) = some (T.refWalk expand slash follow segs d) := by
  have hend : ∀ e, T.data e = some .directory → T.followLink O follow e = pure e := by
    intro e he
    rw [followLink_eq hO, refExpand_directory he, ite_self]
    rfl
  induction segs generalizing d with
  | nil =>
    cases slash with
    | false => exact hend d hd
    | true =>
      show (T.walkItems R [.trailingEmpty] d >>= _) = _
      rw [walkItems, if_neg (by simp [hd]), resolve_directory hR hd]
      exact hend d hd
  | cons seg segs ih =>
    have hrest := fun seg hseg => hsegs seg (List.mem_cons_of_mem _ hseg)
    rw [List.map_cons, List.cons_append, walkItems_segment hR hd (hsegs seg List.mem_cons_self),
      refWalk]
    generalize T.refStep d seg = e
    by_cases hlast : segs = [] ∧ slash = false
    · rw [if_pos hlast]
      obtain ⟨rfl, rfl⟩ := hlast
      exact followLink_eq hO follow e
    rw [if_neg hlast]
    by_cases hmissing : segs = [] ∧ T.data e = none
    · rw [if_pos hmissing]
      obtain ⟨rfl, he⟩ := hmissing
      obtain rfl : slash = true := by simpa using hlast
      show (T.walkItems R [.trailingEmpty] e >>= _) = _
      rw [walkItems, if_pos ⟨rfl, he⟩, pure_bind, followLink_eq hO]
      simp [refExpand, he]
    rw [if_neg hmissing, walkItems_resolve hR ?_ ?_, hR e, bind_assoc]
    · cases hexpand : T.refExpand expand e with
      | error err => rfl
      | ok e' =>
        rw [ExceptLoop.ok_bind, ExceptLoop.ok_bind]
        cases hdir : T.directoryOf e' with
        | error err => rfl
        | ok d' => exact ih hrest d' (data_of_directoryOf hdir).2
    · cases segs with
      | nil => simpa using hlast
      | cons seg' segs => exact List.cons_ne_nil _ _
    · intro he
      cases segs with
      | nil => exact (hmissing ⟨rfl, he⟩).elim
      | cons seg' segs =>
        have hseg' := hrest seg' List.mem_cons_self
        simp only [List.map_cons, List.cons_append, List.head?_cons, componentOf, if_neg hseg']
        split_ifs <;> simp

end Loop

/-- With `follow` set the result is never a link. -/
theorem refWalk_not_link (hexpand : ∀ d target e, T.data d = some (.symlink target) →
      expand d target = .ok e → ∀ t, T.data e ≠ some (.symlink t)) (slash : Bool)
    (segs : List Name) (d e : δ) (hd : T.data d = some .directory)
    (h : T.refWalk expand slash true segs d = .ok e) (t : Name) : T.data e ≠ some (.symlink t) := by
  have hstep : ∀ d e, T.refExpand expand d = .ok e → ∀ t, T.data e ≠ some (.symlink t) := by
    intro d e h
    unfold refExpand at h
    split at h
    · next target htarget => exact hexpand d target e htarget h
    · next hno =>
      cases h
      exact hno
  induction segs generalizing d with
  | nil =>
    cases h
    simp [hd]
  | cons seg segs ih =>
    rw [refWalk] at h
    split at h
    · exact hstep _ e h t
    split at h
    · next hmissing =>
      cases h
      simp [hmissing.2]
    · obtain ⟨e', -, h⟩ := ExceptLoop.bind_eq_ok.mp h
      obtain ⟨d', hdir, h⟩ := ExceptLoop.bind_eq_ok.mp h
      exact ih d' (data_of_directoryOf hdir).2 h

omit [DecidableEq δ] in
theorem startOf_directory {cwd : δ} (hcwd : T.data cwd = some .directory) (path : Name) :
    T.data (T.startOf cwd path) = some .directory := by
  unfold startOf
  split
  · exact T.fsroot_directory
  · exact hcwd

theorem refOpen_not_link (depth : ℕ) (cwd : δ) (path : Name) (e : δ)
    (hcwd : T.data cwd = some .directory) (h : T.refOpen depth cwd path true = .ok e) (t : Name) :
    T.data e ≠ some (.symlink t) := by
  induction depth generalizing cwd path e t with
  | zero => cases h
  | succ depth ih =>
    refine refWalk_not_link (fun d target e hd hexpand => ?_) _ _ _ e (startOf_directory hcwd path)
      h t
    obtain ⟨path, -, hopen⟩ := ExceptLoop.bind_eq_ok.mp hexpand
    exact ih _ path e (T.parent_directory d (by simp [hd])) hopen

/-- By induction on the levels that are left; the segments of one path are `walk_eq`. -/
theorem openRecursive_eq (depth nrecur stack : ℕ) (cwd : δ) (path : Name) (follow : Bool)
    (hdepth : nrecur + depth = 16) (hcwd : T.data cwd = some .directory)
    (hstack : 2 * depth + 2 ≤ stack) :
    T.openRecursive stack cwd path follow nrecur = some (T.refOpen depth cwd path follow) := by
  induction depth generalizing nrecur stack cwd path follow with
  | zero =>
    obtain ⟨stack, rfl⟩ : ∃ m, stack = m + 1 := ⟨stack - 1, by omega⟩
    rw [openRecursive, if_pos (by omega)]
    rfl
  | succ depth ih =>
    obtain ⟨stack, rfl⟩ : ∃ m, stack = m + 2 := ⟨stack - 2, by omega⟩
    have hopen : ∀ m, 2 * depth + 2 ≤ m → ∀ d target, T.data d = some (.symlink target) →
        (ExceptT.mk (some (linkPath target)) >>=
          fun path => T.openRecursive m (T.parent d) path true (nrecur + 1) : Walk δ) =
          some (linkPath target >>= fun path => T.refOpen depth (T.parent d) path true) := by
      intro m hm d target hd
      cases linkPath target with
      | error e => rfl
      | ok path =>
        exact ih (nrecur + 1) m _ path true (by omega) (T.parent_directory d (by simp [hd])) hm
    rw [openRecursive, if_neg (by omega), components_eq, refOpen]
    refine walk_eq (R := fun d => T.resolveDirectory (stack + 1) d nrecur)
      (O := fun parent path => T.openRecursive (stack + 1) parent path true (nrecur + 1))
      (fun d => ?_) (hopen (stack + 1) (by omega)) _ follow _ ?_ _ (startOf_directory hcwd path)
    · by_cases hlink : ∃ target, T.data d = some (.symlink target)
      · obtain ⟨target, hd⟩ := hlink
        rw [resolveDirectory, if_neg (by omega)]
        simp only [hd, refExpand]
        rw [← bind_assoc, hopen stack (by omega) d target hd]
        cases hexpand : linkPath target >>= fun path => T.refOpen depth (T.parent d) path true with
        | error e => rfl
        | ok e =>
          obtain ⟨path, -, hlinked⟩ := ExceptLoop.bind_eq_ok.mp hexpand
          have hparent := T.parent_directory d (by simp [hd])
          have hpos : depth ≠ 0 := by
            rintro rfl
            cases hlinked
          obtain ⟨m, rfl⟩ : ∃ m, stack = m + 1 := ⟨stack - 1, by omega⟩
          exact resolveDirectory_not_link (refOpen_not_link depth _ path e hparent hlinked)
            (by omega) m
      · rw [resolveDirectory_not_link (fun t ht => hlink ⟨t, ht⟩) (by omega)]
        unfold refExpand
        split
        · next target htarget => exact (hlink ⟨target, htarget⟩).elim
        · rfl
    · intro seg hseg
      simpa using (List.mem_filter.mp hseg).2

/-- For every tree, directory, path and flag `open_recursive` returns what the reference returns
with 16 levels of links. -/
theorem open_meets_reference (T : DentryTree δ) (cwd : δ) (hcwd : T.data cwd = some .directory)
    (path : Name) (follow : Bool) :
    T.openRecursive 34 cwd path follow 0 = some (T.refOpen 16 cwd path follow) :=
  openRecursive_eq 16 0 34 cwd path follow rfl hcwd (by omega)

def linkTree : DentryTree (Fin 4) where
  data d := match d with
    | 0 => some .directory
    | 1 => some (.symlink [102])
    | 2 => some .regular
    | 3 => none
  parent _ := 0
  name d := match d with
    | 0 => []
    | 1 => [108]
    | 2 => [102]
    | 3 => [109]
  lookup _ n := if n = [108] then 1 else if n = [102] then 2 else 3
  fsroot := 0
  fsroot_directory := rfl
  parent_directory _ _ := rfl
  identified := by decide

theorem open_linked_file :
    linkTree.openRecursive 34 0 [47, 108] true 0 = some (.ok 2) ∧
      linkTree.openRecursive 34 0 [108, 47, 102] false 0 = some (.error .ENOTDIR) := by
  rw [open_meets_reference linkTree 0 rfl, open_meets_reference linkTree 0 rfl]
  exact ⟨rfl, rfl⟩

end DentryTree

end Dlutos.Vfs
