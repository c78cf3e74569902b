import Dlutos.Foundation.Transition
import Dlutos.Vfs.Dcache

/-!
# The name space of tmpfs

`src/fs/tmpfs.rs`, the operations of `Dentry` that call into it, and the system calls above them.
Every path resolution ends by looking a name up in a directory (`Target.entry`), or with a dentry
that is already there (`Target.self`).

The modelled mount is the root mount: the parent of its root dentry is `DROOT`, which has no inode.
Time stamps, owners and device numbers are left out, and so are locks except where a call would wait
for itself.  The counters are `u64`; a decrement at zero wraps.
-/

namespace Dlutos.Vfs

open Function

inductive Format where
  | dir
  | reg
  | lnk
  | chr
  | blk
  /-- Any other value of the format bits. -/
  | other
  deriving DecidableEq, Repr

/-- An inode: its mode, the counters, and the entries if it is a directory. -/
structure Inode where
  format : Format
  perm : ℕ
  nlink : ℕ
  size : ℕ
  entries : List (Name × ℕ)
  deriving DecidableEq

/-- The greatest value of a counter. -/
def U64_MAX : ℕ := 0xffffffffffffffff

def fetchSub (n : ℕ) : ℕ := if n = 0 then U64_MAX else n - 1

theorem fetchSub_of_pos {n : ℕ} (hn : 0 < n) : fetchSub n = n - 1 := if_neg (by omega)

namespace Inode

def newDirectory (perm ino : ℕ) : Inode := ⟨.dir, perm, 1, 1, [(DOT, ino)]⟩

def newFile (perm : ℕ) : Inode := ⟨.reg, perm, 1, 0, []⟩

def newNode (format : Format) (perm : ℕ) : Inode := ⟨format, perm, 1, 0, []⟩

/-- `SymlinkInode::new`, which leaves the link count at zero. -/
def newSymlink (target : Name) : Inode := ⟨.lnk, 0o777, 0, target.length, []⟩

/-- The mode matches the pattern `Mode::DIR`, a constant whose permission bits are all clear. -/
def isModeDir (i : Inode) : Bool := i.format == .dir && i.perm == 0

end Inode

structure Tmpfs where
  cache : Dcache
  inode : ℕ → Inode
  nextIno : ℕ

def ROOT_NAME : Name := [91, 114, 111, 111, 116, 93]

/-- The number of the root dentry; `DROOT` is dentry 0. -/
def ROOT : ℕ := 1

def Dcache.boot (H : ℕ → Name → ℕ) : Dcache :=
  let droot : Dcache := ⟨.empty, fun _ => .create H 0 ROOT_NAME, 1⟩
  (droot.alloc { Dentry.create H 0 ROOT_NAME with data := some ⟨0, .directory⟩ }).dAdd ROOT

def Tmpfs.boot (H : ℕ → Name → ℕ) : Tmpfs where
  cache := .boot H
  inode := update (fun _ => .newFile 0) 0 (.newDirectory 0o755 0)
  nextIno := 1

namespace Tmpfs

variable (H : ℕ → Name → ℕ) (s : Tmpfs)

def modify (i : ℕ) (f : Inode → Inode) : Tmpfs :=
  { s with inode := update s.inode i (f (s.inode i)) }

abbrev dentry (d : ℕ) : Dentry := s.cache.dentry d

/-! ### `DirectoryInode` -/

/-- `DirectoryInode::link`. -/
def link (dir : ℕ) (name : Name) (file : ℕ) : Tmpfs :=
  (s.modify file fun i => { i with nlink := i.nlink + 1 }).modify dir fun i =>
    { i with size := i.size + 1, entries := i.entries ++ [(name, file)] }

/-- What `creat`, `mknod`, `symlink` and `mkdir` share. -/
def linkNew (dir d : ℕ) (inode : ℕ → Inode) (flags : DentryFlags) : Except Fault Tmpfs := do
  let ino := s.nextIno
  let s := { s with inode := update s.inode ino (inode ino), nextIno := ino + 1 }
  let s := s.link dir (s.dentry d).name ino
  let cache ← s.cache.saveData d ⟨ino, flags⟩
  return { s with cache }

/-- `DirectoryInode::creat`. -/
def creat (dir d perm : ℕ) : Except Fault Tmpfs :=
  s.linkNew dir d (fun _ => .newFile perm) .regular

/-- `DirectoryInode::mknod`. -/
def mknod (dir d : ℕ) (format : Format) (perm : ℕ) : Except Fault Tmpfs :=
  if format ≠ .chr ∧ format ≠ .blk then .error (.errno .EINVAL)
  else s.linkNew dir d (fun _ => .newNode format perm) .regular

/-- `DirectoryInode::symlink`. -/
def symlink (dir d : ℕ) (target : Name) : Except Fault Tmpfs :=
  s.linkNew dir d (fun _ => .newSymlink target) .symlink

def mkdir (dir d perm : ℕ) : Except Fault Tmpfs :=
  s.linkNew dir d (.newDirectory perm) .directory

/-- `DirectoryInode::linkat`, which saves every inode as a regular file. -/
def linkat (dir d inode : ℕ) : Except Fault Tmpfs := do
  let s := s.link dir (s.dentry d).name inode
  let cache ← s.cache.saveData d ⟨inode, .regular⟩
  return { s with cache }

/-- `DirectoryInode::do_unlink`. -/
def doUnlink (dir file : ℕ) (filename : Name) (decreaseSize : Bool) : Tmpfs :=
  let s := s.modify dir fun i =>
    { i with
      entries := i.entries.filter fun e => e.2 != file || e.1 != filename
      size := if decreaseSize then fetchSub i.size else i.size }
  s.modify file fun i => { i with nlink := fetchSub i.nlink }

def unlink (dir d : ℕ) : Except Fault Tmpfs := do
  let file ← s.cache.getInode d
  if file = dir then
    throw (.crash .deadlock)
  let s := s.doUnlink dir file (s.dentry d).name true
  return { s with cache := s.cache.dRemove d }

def renameIndices (oldIno : ℕ) (newIno : Option ℕ) (oldName newName : Name)
    (entries : List (Name × ℕ)) : Option ℕ × Option ℕ :=
  entries.zipIdx.foldl (fun found e =>
    if some e.1.2 = newIno ∧ e.1.1 = newName then (found.1, some e.2)
    else if e.1.2 = oldIno ∧ e.1.1 = oldName then (some e.2, found.2)
    else found) (none, none)

/-- A rename within a directory: the entry `idx` gets the new name, and the dentry with the old name
leaves the cache. -/
def renameEntry (dir old new idx : ℕ) : Except Fault Tmpfs := do
  let newName := (s.dentry new).name
  let s := s.modify dir fun i =>
    { i with entries := i.entries.modify idx fun e => (newName, e.2) }
  let cache ← s.cache.dExchange H old new
  return { s with cache := cache.dRemove new }

def renameSame (dir old new oldIno : ℕ) (newFile : Option ℕ) : Except Fault Tmpfs :=
  match renameIndices oldIno newFile (s.dentry old).name (s.dentry new).name
      (s.inode dir).entries with
  | (none, _) => .error (.errno .ENOENT)
  | (some oldIdx, none) => s.renameEntry H dir old new oldIdx
  | (some oldIdx, some newIdx) =>
    match newFile with
    | none => .error (.crash .unwrap)
    | some newIno =>
      if newIno = dir then .error (.crash .deadlock)
      else if (s.inode newIno).isModeDir then .error (.errno .EISDIR)
      else if (s.inode oldIno).isModeDir then .error (.errno .ENOTDIR)
      else
        let s := s.modify dir fun i =>
          { i with entries := i.entries.eraseIdx newIdx, size := fetchSub i.size }
        let s := s.modify newIno fun i => { i with nlink := fetchSub i.nlink }
        s.renameEntry H dir old new (if oldIdx > newIdx then oldIdx - 1 else oldIdx)

/-- Replace the entry of the new name in another directory, or count one more. -/
def replaceTarget (dir newParent oldIno : ℕ) (newFile : Option ℕ) (newName : Name) :
    Except Fault Tmpfs :=
  if (s.inode newParent).entries.any fun e => some e.2 == newFile && e.1 == newName then
    match newFile with
    | none => .error (.crash .unwrap)
    | some newIno =>
      if newIno = dir ∨ newIno = newParent then .error (.crash .deadlock)
      else if (s.inode oldIno).isModeDir && !(s.inode newIno).isModeDir then
        .error (.errno .ENOTDIR)
      else .ok (s.doUnlink newParent newIno newName false)
  else .ok (s.modify newParent fun i => { i with size := i.size + 1 })

def renameCross (dir old new oldIno : ℕ) (newFile : Option ℕ) : Except Fault Tmpfs := do
  let newParent ← s.cache.getInode (s.dentry new).parent
  if (s.inode newParent).format ≠ .dir then
    throw (.crash .assertion)
  let oldName := (s.dentry old).name
  let newName := (s.dentry new).name
  match (s.inode dir).entries.findIdx? fun e => e.2 == oldIno && e.1 == oldName with
  | none => throw (.errno .ENOENT)
  | some oldPos =>
    let s ← s.replaceTarget dir newParent oldIno newFile newName
    let s := s.modify dir fun i => { i with entries := i.entries.eraseIdx oldPos }
    let s := s.modify newParent fun i => { i with entries := i.entries ++ [(newName, oldIno)] }
    let s := s.modify dir fun i => { i with size := fetchSub i.size }
    let cache ← s.cache.dExchange H old new
    return { s with cache }

def renameInode (dir old new newParent : ℕ) (isExchange noReplace : Bool) : Except Fault Tmpfs := do
  if isExchange then
    throw (.errno .ENOSYS)
  let oldIno ← s.cache.getInode old
  let newFile := (s.dentry new).data.map (·.ino)
  if noReplace && newFile.isSome then
    throw (.errno .EEXIST)
  if newParent = dir then s.renameSame H dir old new oldIno newFile
  else s.renameCross H dir old new oldIno newFile

/-! ### `Dentry` -/

/-- The inode of the parent; operations of inodes that are no directories fail. -/
def parentDir (d : ℕ) : Except Fault ℕ := do
  let dir ← s.cache.getInode (s.dentry d).parent
  if (s.inode dir).format = .dir then
    return dir
  throw (.errno .ENOTDIR)

/-- `Dentry::mkdir`, `Dentry::symlink`, `Dentry::linkat` and `Dentry::mknod`, with the operation of
the parent inode. -/
def createAt (d : ℕ) (op : ℕ → Except Fault Tmpfs) : Except Fault Tmpfs := do
  if (s.dentry d).data.isSome then
    throw (.errno .EEXIST)
  op (← s.parentDir d)

def openCheck (d : ℕ) (oCreat oExcl : Bool) (perm : ℕ) : Except Fault Tmpfs := do
  if (s.dentry d).data.isSome then
    if oCreat && oExcl then
      throw (.errno .EEXIST)
    return s
  if !oCreat then
    throw (.errno .ENOENT)
  s.creat (← s.parentDir d) d perm

def unlinkDentry (d : ℕ) : Except Fault Tmpfs := do
  if (s.dentry d).data.isNone then
    throw (.errno .ENOENT)
  s.unlink (← s.parentDir d) d

/-- `Dentry::rename`; both parents are on the same mount. -/
def rename (old new : ℕ) (isExchange noReplace : Bool) : Except Fault Tmpfs := do
  if old = new then
    return s
  let oldParent ← s.cache.getInode (s.dentry old).parent
  let newParent ← s.cache.getInode (s.dentry new).parent
  if (s.inode oldParent).format ≠ .dir then
    throw (.errno .ENOTDIR)
  s.renameInode H oldParent old new newParent isExchange noReplace

/-! ### System calls -/

/-- Where a path resolution ends. -/
inductive Target where
  | entry (d : ℕ) (name : Name)
  /-- A dentry that is already there. -/
  | self (d : ℕ)
  deriving DecidableEq

/-- The system calls on the name space.  `find` stands for every call that only resolves a path. -/
inductive Call where
  | find (t : Target)
  | openAt (t : Target) (oCreat oExcl : Bool) (perm : ℕ)
  | mkdirAt (t : Target) (perm : ℕ)
  | mknodAt (t : Target) (format : Format) (perm : ℕ)
  | symlinkAt (t : Target) (target : Name)
  | linkAt (old new : Target)
  | unlinkAt (t : Target)
  | renameAt (old new : Target) (isExchange noReplace : Bool)

/-- The state after a call and the result that the call returns. -/
abbrev Outcome := Except Crash (Tmpfs × Except Errno Unit)

/-- A call whose path resolution has led to `s`; an operation that fails has changed nothing. -/
def returned : Except Fault Tmpfs → Outcome
  | .ok t => .ok (t, .ok ())
  | .error (.errno e) => .ok (s, .error e)
  | .error (.crash c) => .error c

/-- Resolve a target and go on with its dentry. -/
def withTarget (t : Target) (k : Tmpfs → ℕ → Outcome) : Outcome :=
  match t with
  | .self d => k s d
  | .entry d name =>
    match s.cache.find H d name with
    | .ok (cache, found) => k { s with cache } found
    | .error (.errno e) => .ok (s, .error e)
    | .error (.crash c) => .error c

def call : Call → Outcome
  | .find t => s.withTarget H t fun s _ => .ok (s, .ok ())
  | .openAt t oCreat oExcl perm =>
    s.withTarget H t fun s d => s.returned (s.openCheck d oCreat oExcl perm)
  | .mkdirAt t perm =>
    s.withTarget H t fun s d => s.returned (s.createAt d fun dir => s.mkdir dir d perm)
  | .mknodAt t format perm =>
    if format ≠ .chr ∧ format ≠ .blk then .ok (s, .error .EINVAL)
    else s.withTarget H t fun s d =>
      s.returned (s.createAt d fun dir => s.mknod dir d format perm)
  | .symlinkAt t target =>
    s.withTarget H t fun s d => s.returned (s.createAt d fun dir => s.symlink dir d target)
  | .linkAt old new =>
    s.withTarget H old fun s o => s.withTarget H new fun s n =>
      match (s.dentry o).data with
      | none => .error .unwrap
      | some data => s.returned (s.createAt n fun dir => s.linkat dir n data.ino)
  | .unlinkAt t => s.withTarget H t fun s d => s.returned (s.unlinkDentry d)
  | .renameAt old new isExchange noReplace =>
    if isExchange && noReplace then .ok (s, .error .EINVAL)
    else s.withTarget H old fun s o => s.withTarget H new fun s n =>
      s.returned (s.rename H o n isExchange noReplace)

/-- `.` and `..` are not looked up, and a dentry that is already there has an inode. -/
def Target.Valid : Target → Prop
  | .entry d name => d < s.cache.count ∧ name ≠ DOT ∧ name ≠ DOTDOT
  | .self d => d < s.cache.count ∧ (s.dentry d).data ≠ none

instance (t : Target) : Decidable (t.Valid s) :=
  match t with
  | .entry d name => inferInstanceAs (Decidable (d < s.cache.count ∧ name ≠ DOT ∧ name ≠ DOTDOT))
  | .self d => inferInstanceAs (Decidable (d < s.cache.count ∧ (s.dentry d).data ≠ none))

def Call.targets : Call → List Target
  | .find t | .openAt t _ _ _ | .mkdirAt t _ | .mknodAt t _ _ | .symlinkAt t _ | .unlinkAt t => [t]
  | .linkAt old new | .renameAt old new _ _ => [old, new]

def machine (cond : Tmpfs → Call → Prop) : Transition.System Tmpfs Call Crash where
  init s := s = .boot H
  allowed s c := (∀ t ∈ c.targets, t.Valid s) ∧ cond s c
  run s c := (s.call H c).map Prod.fst

end Tmpfs

end Dlutos.Vfs
