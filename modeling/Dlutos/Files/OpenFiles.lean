import Mathlib.Data.Finset.Card
import Dlutos.Files.FileArray

/-!
# Open files, descriptor tables and the threads that hold them

`File::dup` and `File::close` count the descriptors that hold a file.  A table lives as long as a
`Thread` holds it: `CLONE_FILES` shares it, and `ProcessList::do_exit` calls `close_all` on the
table of the exiting thread if it is the last of its process or exits the group.  A file that leaves
a table without `File::close` is dropped uncounted; `FileData::drop` then panics if no other
descriptor holds it.
-/

namespace Dlutos.Files

open ExceptLoop

/-- What `File::close` has to close: nothing, one end of a pipe, or both ends of a socket pair. -/
inductive FileKind where
  | inode
  | pipeRead
  | pipeWrite
  | socketPair
  deriving DecidableEq

/-- `FileData`, with a flag that tells whether its pipe ends are closed. -/
structure FileData where
  openCount : ℤ := 0
  kind : FileKind := .inode
  closed : Bool := false
  deriving DecidableEq

/-- The process of a thread and the table it holds. -/
structure ThreadInfo where
  pid : ℕ
  table : ℕ
  deriving DecidableEq

structure FileWorld where
  files : ℕ → FileData
  nextFile : ℕ
  tables : SortedMap ℕ (FileArray ℕ)
  nextTable : ℕ
  threads : SortedMap ℕ ThreadInfo
  /-- The tables of leaders that have exited and are not waited for. -/
  zombies : SortedMap ℕ ℕ
  nextTid : ℕ

inductive FilePanic where
  /-- "File open count underflow." -/
  | underflow
  /-- The assertion in `FileData::drop`. -/
  | droppedOpen
  | initExited
  | table (p : FdPanic)
  deriving DecidableEq

/-- The number of descriptors of a table that hold a file. -/
def FileArray.count (a : FileArray ℕ) (f : ℕ) : ℕ :=
  a.files.total fun _ o => if o.file = f then 1 else 0

namespace FileWorld

/-- The number of descriptors that hold a file. -/
def slots (w : FileWorld) (f : ℕ) : ℕ := w.tables.total fun _ a => a.count f

def Live (w : FileWorld) (t : ℕ) : Prop := ∃ e ∈ w.threads.entries, e.2.table = t

instance (w : FileWorld) (t : ℕ) : Decidable (w.Live t) :=
  inferInstanceAs (Decidable (∃ e ∈ w.threads.entries, _))

/-- Some thread, live or not yet waited for, holds the table. -/
def Held (w : FileWorld) (t : ℕ) : Prop := w.Live t ∨ ∃ e ∈ w.zombies.entries, e.2 = t

instance (w : FileWorld) (t : ℕ) : Decidable (w.Held t) := inferInstanceAs (Decidable (_ ∨ _))

/-! ### Files -/

def updateFile (w : FileWorld) (f : ℕ) (g : FileData → FileData) : FileWorld :=
  { w with files := Function.update w.files f (g (w.files f)) }

def newFile (w : FileWorld) (kind : FileKind) : ℕ × FileWorld :=
  (w.nextFile,
    { w.updateFile w.nextFile fun _ => ⟨1, kind, false⟩ with nextFile := w.nextFile + 1 })

def dupFile (w : FileWorld) (f : ℕ) : FileWorld :=
  w.updateFile f fun d => { d with openCount := d.openCount + 1 }

/-- The decrement of `File::close` and, when it reaches zero, the close of the pipe ends. -/
def release (w : FileWorld) (f : ℕ) : FileWorld :=
  w.updateFile f fun d =>
    { d with
      openCount := d.openCount - 1
      closed := d.closed || (d.openCount = 1 && d.kind ≠ .inode) }

/-- `File::close` for files taken out of a table; a file is dropped when nothing holds it. -/
def closeFiles : List ℕ → FileWorld → Except FilePanic FileWorld
  | [], w => .ok w
  | f :: rest, w => do
    assertOr (0 < (w.files f).openCount) .underflow
    let w := w.release f
    assertOr (0 < w.slots f ∨ f ∈ rest ∨ (w.files f).openCount = 0) .droppedOpen
    closeFiles rest w

/-! ### Tables -/

def setTable (w : FileWorld) (t : ℕ) (a : FileArray ℕ) : FileWorld :=
  { w with tables := w.tables.insert t a }

def withTable (w : FileWorld) (tid : ℕ) (call : ℕ → FileArray ℕ → Except FilePanic FileWorld) :
    Except FilePanic FileWorld :=
  match w.threads.get tid with
  | none => .ok w
  | some i =>
    match w.tables.get i.table with
    | none => .ok w
    | some a => call i.table a

def filesOf (l : List (ℕ × OpenFile ℕ)) : List ℕ := l.map fun e => e.2.file

def openFile (w : FileWorld) (tid : ℕ) (cloexec : Bool) : Except FilePanic FileWorld :=
  w.withTable tid fun t a => do
    let (f, w) := w.newFile .inode
    let (_, a) ← (a.openFile cloexec f).mapError FilePanic.table
    return w.setTable t a

/-- `pipe` and `socketpair`, which make two files of given kinds. -/
def openPair (w : FileWorld) (tid : ℕ) (cloexec : Bool) (left right : FileKind) :
    Except FilePanic FileWorld :=
  w.withTable tid fun t a => do
    let (f, w) := w.newFile left
    let (g, w) := w.newFile right
    let (_, a) ← (a.addPair cloexec f g).mapError FilePanic.table
    return w.setTable t a

def pipe (w : FileWorld) (tid : ℕ) (cloexec : Bool) : Except FilePanic FileWorld :=
  w.openPair tid cloexec .pipeRead .pipeWrite

def socketpair (w : FileWorld) (tid : ℕ) (cloexec : Bool) : Except FilePanic FileWorld :=
  w.openPair tid cloexec .socketPair .socketPair

def dup (w : FileWorld) (tid oldFd : ℕ) : Except FilePanic FileWorld :=
  w.withTable tid fun t a =>
    match a.files.get oldFd with
    | none => .ok w
    | some o => do
      let w := w.dupFile o.file
      let (_, a) ← (a.dup oldFd).mapError FilePanic.table
      return w.setTable t a

def fcntlDup (w : FileWorld) (tid oldFd : ℕ) (cloexec : Bool) (arg : ℕ) :
    Except FilePanic FileWorld :=
  w.withTable tid fun t a =>
    match a.files.get oldFd with
    | none => .ok w
    | some o => do
      let w := w.dupFile o.file
      let (_, a) ← (a.fcntlDup oldFd cloexec arg).mapError FilePanic.table
      return w.setTable t a

def dupTo (w : FileWorld) (tid oldFd newFd : ℕ) (cloexec : Bool) : Except FilePanic FileWorld :=
  w.withTable tid fun t a =>
    match a.files.get oldFd with
    | none => .ok w
    | some o => do
      let w := w.dupFile o.file
      let (replaced, a) ← (a.dupTo oldFd newFd cloexec).mapError FilePanic.table
      closeFiles (replaced.join.toList) (w.setTable t a)

def close (w : FileWorld) (tid fd : ℕ) : Except FilePanic FileWorld :=
  w.withTable tid fun t a => closeFiles (a.close fd).1.toList (w.setTable t (a.close fd).2)

def closeRange (w : FileWorld) (tid first last : ℕ) : Except FilePanic FileWorld :=
  w.withTable tid fun t a => do
    let (picked, a) ← (a.closeRange first last).mapError FilePanic.table
    closeFiles (filesOf picked.entries) (w.setTable t a)

def exec (w : FileWorld) (tid : ℕ) : Except FilePanic FileWorld :=
  w.withTable tid fun t a => do
    let (picked, a) ← a.onExec.mapError FilePanic.table
    closeFiles (filesOf picked.entries) (w.setTable t a)

/-! ### Threads -/

/-- `do_clone`: the table is shared with `CLONE_FILES`, the process with `CLONE_THREAD`. -/
def clone (w : FileWorld) (tid : ℕ) (cloneFiles cloneThread : Bool) : Except FilePanic FileWorld :=
  match w.threads.get tid with
  | none => .ok w
  | some i =>
    let pid := if cloneThread then i.pid else w.nextTid
    let (t, w) :=
      if cloneFiles then (i.table, w)
      else
        match w.tables.get i.table with
        | none => (i.table, w)
        | some a =>
          (w.nextTable,
            { ((filesOf a.files.entries).foldl dupFile w).setTable w.nextTable a with
              nextTable := w.nextTable + 1 })
    .ok { w with threads := w.threads.insert w.nextTid ⟨pid, t⟩, nextTid := w.nextTid + 1 }

/-- The last holder of a table is gone: the table is dropped with the files in it. -/
def dropTable (w : FileWorld) (t : ℕ) : Except FilePanic FileWorld :=
  if w.Held t then .ok w
  else
    match w.tables.get t with
    | none => .ok w
    | some a => do
      let w := { w with tables := w.tables.erase t }
      assertOr (∀ f ∈ filesOf a.files.entries, 0 < w.slots f ∨ (w.files f).openCount = 0)
        .droppedOpen
      return w

def processThreads (w : FileWorld) (pid : ℕ) : List ℕ :=
  (w.threads.entries.filter fun e => e.2.pid = pid).map Prod.fst

def exitingTids (w : FileWorld) (tid pid : ℕ) (group : Bool) : List ℕ :=
  if group then w.processThreads pid else [tid]

def EndsProcess (w : FileWorld) (pid : ℕ) (group : Bool) : Prop :=
  group = true ∨ (w.processThreads pid).length = 1

instance (w : FileWorld) (pid : ℕ) (group : Bool) : Decidable (w.EndsProcess pid group) :=
  inferInstanceAs (Decidable (_ ∨ _))

def tablesOf (w : FileWorld) (tids : List ℕ) : List ℕ :=
  tids.filterMap fun u => (w.threads.get u).map ThreadInfo.table

def closeAllOf (w : FileWorld) (t : ℕ) : Except FilePanic FileWorld :=
  match w.tables.get t with
  | none => .ok w
  | some a => closeFiles (a.closeAll.1.map OpenFile.file) (w.setTable t a.closeAll.2)

def closeIfEnds (w : FileWorld) (i : ThreadInfo) (group : Bool) : Except FilePanic FileWorld :=
  if w.EndsProcess i.pid group then w.closeAllOf i.table else .ok w

def removeThreads (w : FileWorld) (tids : List ℕ) (pid : ℕ) : FileWorld :=
  { w with
    threads := tids.foldl SortedMap.erase w.threads
    zombies :=
      match w.threads.get pid with
      | some i => if pid ∈ tids then w.zombies.insert pid i.table else w.zombies
      | none => w.zombies }

/-- `ProcessList::do_exit`, as far as it concerns files. -/
def exit (w : FileWorld) (tid : ℕ) (group : Bool) : Except FilePanic FileWorld :=
  match w.threads.get tid with
  | none => .ok w
  | some i => do
    assertOr (i.pid ≠ 1) .initExited
    let tids := w.exitingTids tid i.pid group
    let tables := w.tablesOf tids
    let w ← w.closeIfEnds i group
    tables.foldlM dropTable (w.removeThreads tids i.pid)

def wait (w : FileWorld) (pid : ℕ) : Except FilePanic FileWorld :=
  match w.zombies.get pid with
  | none => .ok w
  | some t => dropTable { w with zombies := w.zombies.erase pid } t

/-! ### Histories -/

/-- The system calls of a history. -/
inductive Op where
  | openFile (tid : ℕ) (cloexec : Bool)
  | pipe (tid : ℕ) (cloexec : Bool)
  | socketpair (tid : ℕ) (cloexec : Bool)
  | dup (tid oldFd : ℕ)
  | fcntlDup (tid oldFd : ℕ) (cloexec : Bool) (arg : ℕ)
  | dupTo (tid oldFd newFd : ℕ) (cloexec : Bool)
  | close (tid fd : ℕ)
  | closeRange (tid first last : ℕ)
  | exec (tid : ℕ)
  | clone (tid : ℕ) (cloneFiles cloneThread : Bool)
  | exit (tid : ℕ) (group : Bool)
  | wait (pid : ℕ)

def Op.run (w : FileWorld) : Op → Except FilePanic FileWorld
  | .openFile tid cloexec => w.openFile tid cloexec
  | .pipe tid cloexec => w.pipe tid cloexec
  | .socketpair tid cloexec => w.socketpair tid cloexec
  | .dup tid oldFd => w.dup tid oldFd
  | .fcntlDup tid oldFd cloexec arg => w.fcntlDup tid oldFd cloexec arg
  | .dupTo tid oldFd newFd cloexec => w.dupTo tid oldFd newFd cloexec
  | .close tid fd => w.close tid fd
  | .closeRange tid first last => w.closeRange tid first last
  | .exec tid => w.exec tid
  | .clone tid cloneFiles cloneThread => w.clone tid cloneFiles cloneThread
  | .exit tid group => w.exit tid group
  | .wait pid => w.wait pid

def boot : FileWorld where
  files := fun _ => {}
  nextFile := 0
  tables := SortedMap.empty.insert 0 .new
  nextTable := 1
  threads := SortedMap.empty.insert 1 ⟨1, 0⟩
  zombies := .empty
  nextTid := 2

end FileWorld

end Dlutos.Files
