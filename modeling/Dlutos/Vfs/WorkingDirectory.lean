import Dlutos.FileCache.PageCache
import Dlutos.Vfs.PathResolution

/-!
# The path of the working directory

`Dentry::get_path` of `kernel/vfs/dentry.rs` climbs from a dentry to the root of the context and
writes the names that it meets.  A dentry that `find` returns has the parent and the name it was
asked for, whatever has happened to the cache before; the root of a mount has those of its
mountpoint.  So the way up is a way down that was taken, in every state of the cache.
-/

namespace Dlutos.Vfs

open DentryView FileCache

/-! ### `get_path` -/

/-- `buffer.fill(data)?.ok_or(ERANGE)?` -/
def fillOrRange (b : ByteBuffer) (data : List UInt8) : Except PathErrno ByteBuffer :=
  match b.fill data with
  | (.done _, b') => .ok b'
  | _ => .error .ERANGE

def fillItem (b : ByteBuffer) (item : Name) : Except PathErrno ByteBuffer := do
  let b ← fillOrRange b item
  fillOrRange b [SLASH]

namespace DentryView

variable {δ : Type} [DecidableEq δ] (T : DentryView δ)

/-- The loop of `get_path`; the first argument is `33 - path.len()`. -/
def climb : ℕ → δ → List Name → Except PathErrno (List Name)
  | 0, d, path => if d = T.fsroot then .ok path else .error .ELOOP
  | left + 1, d, path =>
    if d = T.fsroot then .ok path else climb left (T.parent d) (path ++ [T.name d])

def getPath (d : δ) (buffer : ByteBuffer) : Except PathErrno ByteBuffer := do
  let path ← T.climb 33 d []
  let buffer ← fillOrRange buffer [SLASH]
  let buffer ← path.reverse.foldlM fillItem buffer
  fillOrRange buffer [0]

variable {T}

theorem climb_eloop {left : ℕ} {d : δ} (h : ∀ k ≤ left, T.parent^[k] d ≠ T.fsroot)
    (path : List Name) : T.climb left d path = .error .ELOOP := by
  induction left generalizing d path with
  | zero => exact if_neg (h 0 le_rfl)
  | succ left ih =>
    have hd : d ≠ T.fsroot := h 0 (Nat.zero_le _)
    rw [climb, if_neg hd]
    exact ih (fun k hk => h (k + 1) (by omega)) _

end DentryView

/-- Put bytes into a buffer that has room for all of them. -/
def putAll (b : ByteBuffer) (data : List UInt8) : Except PathErrno ByteBuffer :=
  if data.length ≤ b.available then .ok { b with data := b.data ++ data } else .error .ERANGE

theorem fillOrRange_eq {data : List UInt8} (hne : data ≠ []) (b : ByteBuffer) :
    fillOrRange b data = putAll b data := by
  have hpos := List.length_pos_iff.mpr hne
  unfold fillOrRange ByteBuffer.fill putAll
  by_cases hroom : data.length ≤ b.available
  · rw [if_neg (by omega), if_neg (by omega), if_pos hroom]
  · rw [if_neg hroom]
    by_cases hfull : b.available = 0
    · rw [if_pos hfull]
    · rw [if_neg hfull, if_pos (by omega)]

theorem putAll_putAll (b : ByteBuffer) (x y : List UInt8) :
    (do putAll (← putAll b x) y) = putAll b (x ++ y) := by
  unfold putAll
  by_cases hx : x.length ≤ b.available
  · rw [if_pos hx, ExceptLoop.ok_bind]
    have havailable : ({ b with data := b.data ++ x } : ByteBuffer).available =
        b.available - x.length := by
      simp only [ByteBuffer.available, List.length_append]
      omega
    rw [havailable, List.length_append, List.append_assoc]
    exact if_congr (by omega) rfl rfl
  · rw [if_neg hx, if_neg (by rw [List.length_append]; omega)]
    rfl

/-! ### Paths of names -/

structure ValidName (n : Name) : Prop where
  ne_nil : n ≠ []
  no_slash : ∀ b ∈ n, b ≠ SLASH
  ne_dot : n ≠ DOT
  ne_dots : n ≠ DOTDOT

def pathOf (names : List Name) : Name := SLASH :: names.flatMap (· ++ [SLASH])

theorem fill_names {names : List Name} (h : ∀ n ∈ names, ValidName n) (b : ByteBuffer) :
    names.foldlM fillItem b = putAll b (names.flatMap (· ++ [SLASH])) := by
  induction names generalizing b with
  | nil => simp [putAll, pure, Except.pure]
  | cons n names ih =>
    have hn := (h n List.mem_cons_self).ne_nil
    have hitem : fillItem b n = putAll b (n ++ [SLASH]) := by
      rw [fillItem, fillOrRange_eq hn, ← putAll_putAll]
      simp only [fillOrRange_eq (List.cons_ne_nil SLASH [])]
    have hrest : ∀ b, names.foldlM fillItem b = putAll b (names.flatMap (· ++ [SLASH])) :=
      ih fun n hn => h n (List.mem_cons_of_mem _ hn)
    rw [List.foldlM_cons, hitem, List.flatMap_cons, ← putAll_putAll b (n ++ [SLASH])]
    simp only [hrest]

theorem DentryView.getPath_eq {δ : Type} [DecidableEq δ] {T : DentryView δ} {d : δ}
    {names : List Name} (hclimb : T.climb 33 d [] = .ok names.reverse)
    (h : ∀ n ∈ names, ValidName n) (b : ByteBuffer) :
    T.getPath d b = putAll b (pathOf names ++ [0]) := by
  have hput : ∀ (b : ByteBuffer) c, fillOrRange b [c] = putAll b [c] :=
    fun b c => fillOrRange_eq (List.cons_ne_nil c []) b
  rw [getPath, hclimb, ExceptLoop.ok_bind, List.reverse_reverse]
  simp only [fill_names h, hput, putAll_putAll]
  rfl

theorem segments_pathOf {names : List Name} (h : ∀ n ∈ names, ValidName n) :
    segments (pathOf names) = names := by
  rw [pathOf, segments_slash]
  induction names with
  | nil => rfl
  | cons n names ih =>
    have hn := h n List.mem_cons_self
    rw [List.flatMap_cons, List.append_assoc, List.singleton_append,
      segments_append hn.ne_nil hn.no_slash, ih fun n hn => h n (List.mem_cons_of_mem _ hn)]

theorem components_pathOf {names : List Name} (h : ∀ n ∈ names, ValidName n) :
    components (pathOf names) = names.map .name ++ [.trailingEmpty] := by
  have hslash : endsWithSlash (pathOf names) = true := by
    cases names using List.reverseRecOn with
    | nil => rfl
    | append_singleton names n => simp [pathOf, endsWithSlash, List.getLast?_cons]
  rw [components_eq, segments_pathOf h, if_pos hslash]
  congr 1
  refine List.map_congr_left fun n hn => ?_
  obtain ⟨hnil, -, hdot, hdots⟩ := h n hn
  rw [componentOf, if_neg hnil, if_neg hdot, if_neg hdots]

/-! ### The way down and the way up -/

namespace Dcache

variable (s : Dcache) (H : ℕ → Name → ℕ) (target : ℕ → Name) (root : ℕ)

/-- The cache as path resolution sees it, from the root of a context. -/
def view : DentryView ℕ where
  data d := (s.dentry d).data.map fun data => match data.flags with
    | .directory => .directory
    | .symlink => .symlink (target d)
    | .regular => .regular
  parent d := (s.dentry d).parent
  name d := (s.dentry d).name
  lookup d n := (s.dFindFast (.create H d n)).getD s.count
  fsroot := root

/-- Lookups of the names lead from the first dentry to the second one; the cache stays as it is. -/
def Reaches : ℕ → List Name → ℕ → Prop
  | d, [], e => d = e
  | d, n :: names, e => ValidName n ∧ ∃ c, s.find H d n = .ok (s, c) ∧ Reaches c names e

variable {s H} {d e : ℕ} {n : Name} {names : List Name}

/-- What `find` returns from a cache that it leaves alone has the right parent and name. -/
theorem found_of_find (hn : ValidName n) (h : s.find H d n = .ok (s, e)) :
    (s.view H target root).data d = some .directory ∧
      (s.view H target root).lookup d n = e ∧ (s.dentry e).parent = d ∧ (s.dentry e).name = n := by
  unfold find at h
  cases hdata : (s.dentry d).data with
  | none =>
    rw [hdata] at h
    cases h
  | some data =>
    rw [hdata] at h
    dsimp only at h
    split at h
    · next hflags =>
      rw [if_neg hn.ne_dot, if_neg hn.ne_dots] at h
      split at h
      · next found hfound =>
        cases h
        have heq := List.find?_some hfound
        simp only [Dentry.hashEq, Dentry.create, Bool.and_eq_true, beq_iff_eq] at heq
        refine ⟨?_, ?_, heq.1.2, heq.2⟩
        · simp only [view, hdata, hflags, Option.map_some]
        · simp only [view, hfound, Option.getD_some]
      · -- a new dentry changes the cache
        have hcount := congrArg (fun r => r.toOption.map fun p => p.1.count) h
        simp [Except.toOption, alloc, setDentry, dAdd] at hcount
    · cases h

variable {target root}

theorem reaches_append : s.Reaches H d (names ++ [n]) e ↔
    ∃ c, s.Reaches H d names c ∧ ValidName n ∧ s.find H c n = .ok (s, e) := by
  induction names generalizing d with
  | nil =>
    refine ⟨fun ⟨hn, c, hc, he⟩ => ⟨d, rfl, hn, he ▸ hc⟩, ?_⟩
    rintro ⟨c, rfl, hn, hc⟩
    exact ⟨hn, e, hc, rfl⟩
  | cons m names ih =>
    simp only [List.cons_append, Reaches, ih]
    refine ⟨fun ⟨hm, a, ha, c, hc, hn⟩ => ⟨c, ⟨hm, a, ha, hc⟩, hn⟩, ?_⟩
    rintro ⟨c, ⟨hm, a, ha, hc⟩, hn⟩
    exact ⟨hm, a, ha, c, hc, hn⟩

theorem Reaches.valid (h : s.Reaches H d names e) : ∀ n ∈ names, ValidName n := by
  induction names generalizing d with
  | nil => nofun
  | cons m names ih =>
    obtain ⟨hm, c, -, hc⟩ := h
    intro n hn
    obtain rfl | hn := List.mem_cons.mp hn
    · exact hm
    · exact ih hc n hn

/-- The way up ends at the last visit of the root on the way down. -/
theorem Reaches.climb (h : s.Reaches H root names d) (target : ℕ → Name) (left : ℕ)
    (hleft : names.length ≤ left) (path : List Name) : ∃ below, s.Reaches H root below d ∧
      (s.view H target root).climb left d path = .ok (path ++ below.reverse) := by
  induction names using List.reverseRecOn generalizing d left path with
  | nil =>
    obtain rfl : root = d := h
    refine ⟨[], rfl, ?_⟩
    cases left <;> simp [DentryView.climb, view]
  | append_singleton names n ih =>
    obtain ⟨c, hc, hn, hfind⟩ := reaches_append.mp h
    by_cases hroot : d = root
    · subst hroot
      refine ⟨[], rfl, ?_⟩
      cases left <;> simp [DentryView.climb, view]
    · rw [List.length_append, List.length_singleton] at hleft
      obtain ⟨left, rfl⟩ : ∃ m, left = m + 1 := ⟨left - 1, by omega⟩
      obtain ⟨-, -, hparent, hname⟩ := found_of_find target root hn hfind
      obtain ⟨below, hbelow, hclimb⟩ := ih hc left (by omega) (path ++ [n])
      refine ⟨below ++ [n], reaches_append.mpr ⟨c, hbelow, hn, hfind⟩, ?_⟩
      have hroot' : d ≠ (s.view H target root).fsroot := hroot
      rw [DentryView.climb, if_neg hroot']
      show (s.view H target root).climb left (s.dentry d).parent (path ++ [(s.dentry d).name]) = _
      rw [hparent, hname, hclimb, List.reverse_append, List.append_assoc]
      rfl

theorem Reaches.walkItems {R : ℕ → Walk ℕ}
    (hR : ∀ d, (s.view H target root).data d = some .directory → R d = pure d)
    (h : s.Reaches H d names e) (items : List PathComponent) :
    (s.view H target root).walkItems R (names.map .name ++ items) d =
      (s.view H target root).walkItems R items e := by
  induction names generalizing d with
  | nil =>
    obtain rfl : d = e := h
    rfl
  | cons n names ih =>
    obtain ⟨hn, c, hfind, hc⟩ := h
    obtain ⟨hd, hlookup, -⟩ := found_of_find target root hn hfind
    rw [List.map_cons, List.cons_append, DentryView.walkItems, if_neg (by simp), hR d hd, pure_bind]
    simp only [DentryView.find, hd, if_neg hn.ne_dot, if_neg hn.ne_dots, hlookup]
    exact ih hc

theorem Reaches.open (h : s.Reaches H root names d)
    (hd : (s.view H target root).data d = some .directory) (cwd : ℕ) (follow : Bool) :
    (s.view H target root).openRecursive 34 cwd (pathOf names) follow 0 = some (.ok d) := by
  have hR : ∀ d, (s.view H target root).data d = some .directory →
      (s.view H target root).resolveDirectory 33 d 0 = pure d := by
    intro d hd
    rw [DentryView.resolveDirectory_not_link (by simp [hd]) (by omega), DentryView.directoryOf, hd]
    rfl
  have hstart : (s.view H target root).startOf cwd (pathOf names) = root := if_pos rfl
  rw [DentryView.openRecursive, if_neg (by omega), components_pathOf h.valid, hstart,
    h.walkItems hR, DentryView.walkItems, if_neg (by simp [hd]), hR d hd, pure_bind]
  simp only [DentryView.walkItems, pure_bind]
  cases follow <;> simp only [DentryView.followLink, hd] <;> rfl

variable (s H target root)

/-- In every state of the cache and for every directory that at most 33 lookups reach, `get_path`
writes a path that leads back to it, or returns `ERANGE` if the buffer is too small; it returns
`ELOOP` for a dentry that is further from the root. -/
theorem getPath_resolves (b : ByteBuffer) :
    (∀ names d, s.Reaches H root names d → names.length ≤ 33 →
      (s.view H target root).data d = some .directory →
      ∃ path : Name, (s.view H target root).getPath d b =
          (if path.length + 1 ≤ b.available then .ok { b with data := b.data ++ (path ++ [0]) }
          else .error .ERANGE) ∧
        (path.length ≤ 255 → pathNew path = .ok path ∧ ∀ cwd follow,
          (s.view H target root).openRecursive 34 cwd path follow 0 = some (.ok d))) ∧
    ∀ d, (∀ k ≤ 33, (s.view H target root).parent^[k] d ≠ root) →
      (s.view H target root).getPath d b = .error .ELOOP := by
  refine ⟨fun names d h hlen hd => ?_, fun d hdeep => ?_⟩
  · obtain ⟨below, hbelow, hclimb⟩ := h.climb target 33 hlen []
    refine ⟨pathOf below, ?_, fun hshort => ⟨?_, fun cwd follow => hbelow.open hd cwd follow⟩⟩
    · rw [DentryView.getPath_eq hclimb hbelow.valid, putAll, List.length_append]
      rfl
    · have hne : pathOf below ≠ [] := List.cons_ne_nil _ _
      rw [pathNew, if_neg hne, if_neg (by omega)]
  · rw [DentryView.getPath, DentryView.climb_eloop hdeep]
    rfl

def oneDirectory : Dcache where
  links := Links.empty.insert 0 1
  dentry d := if d = 1 then ⟨0, [97], 0, some ⟨1, .directory⟩⟩ else ⟨0, [], 0, some ⟨0, .directory⟩⟩
  count := 2

theorem getPath_resolves_child : ∃ path : Name,
    (oneDirectory.view (fun _ _ => 0) (fun _ => []) 0).getPath 1 ⟨16, []⟩ =
      (if path.length + 1 ≤ 16 then .ok ⟨16, path ++ [0]⟩ else .error .ERANGE) ∧
    (path.length ≤ 255 → pathNew path = .ok path ∧ ∀ cwd follow,
      (oneDirectory.view (fun _ _ => 0) (fun _ => []) 0).openRecursive 34 cwd path follow 0 =
        some (.ok 1)) :=
  (getPath_resolves oneDirectory (fun _ _ => 0) (fun _ => []) 0 ⟨16, []⟩).1 [[97]] 1
    ⟨⟨nofun, by simp [SLASH], by decide, by decide⟩, 1, rfl, rfl⟩ (by decide) rfl

end Dcache

end Dlutos.Vfs
