import Mathlib.Data.List.Basic

/-!
# Interpreters of scripts

The loop of `ProgramLoader::parse` in `kernel/task/loader/mod.rs`, which follows the first lines of
scripts to an ELF file.  It puts the path of the script into the third place of the arguments,
whether or not the interpreter has got an argument.
-/

namespace Dlutos.Loader

abbrev CString := List UInt8

inductive LoadError (ε : Type) where
  | ENOEXEC
  | errno (e : ε)

/-- How files are opened and ELF files are read; a file is its bytes. -/
structure Files (ε α : Type) where
  openFile : CString → Except ε (List UInt8)
  parseElf : List UInt8 → Except ε α

def RECURSION_LIMIT : ℕ := 4

def ELF_MAGIC : List UInt8 := [0x7f, 69, 76, 70]

def isScript (file : List UInt8) : Bool := file.take 2 == [35, 33]

/-- The interpreter and its argument, from the first 256 bytes of the file. -/
def interpreterLine (file : List UInt8) : CString × Option CString :=
  let line := ((file.take 256).drop 2).takeWhile fun b => b != 10 && b != 0
  match line.findIdx? (· == 32) with
  | some pos => (line.take pos, some (line.drop (pos + 1)))
  | none => (line, none)

/-- What a script does to the arguments. -/
def replaceArgs (name : CString) (arg : Option CString) (execPath : CString)
    (args : List CString) : List CString :=
  let args := name :: args
  let args := match arg with
    | some arg => args.insertIdx 1 arg
    | none => args
  if 2 < args.length then args.set 2 execPath else args ++ [execPath]

variable {ε α : Type}

/-- The loop of `parse`, with `n` rounds left. -/
def parseLoop (fs : Files ε α) : ℕ → CString → List UInt8 → List CString →
    Except (LoadError ε) (List CString × α)
  | 0, _, _, _ => .error .ENOEXEC
  | n + 1, execPath, file, args =>
    if isScript file then
      let (name, arg) := interpreterLine file
      match fs.openFile name with
      | .error e => .error (.errno e)
      | .ok file => parseLoop fs n name file (replaceArgs name arg execPath args)
    else if file.take 4 = ELF_MAGIC then
      match fs.parseElf file with
      | .error e => .error (.errno e)
      | .ok object => .ok (args, object)
    else .error .ENOEXEC

def parse (fs : Files ε α) (execPath : CString) (file : List UInt8) (args : List CString) :
    Except (LoadError ε) (List CString × α) :=
  parseLoop fs RECURSION_LIMIT execPath file args

/-- A script with the path that it was found under. -/
structure Script where
  path : CString
  name : CString
  arg : Option CString

/-- What a script has to do to the arguments. -/
def Script.expected (args : List CString) (s : Script) : List CString :=
  s.name :: s.arg.toList ++ s.path :: args.tail

/-- The scripts between a file and the file `last`. -/
inductive Chain (fs : Files ε α) (last : List UInt8) : CString → List UInt8 → List Script → Prop
  | last (path : CString) : Chain fs last path last []
  | script {path name : CString} {arg : Option CString} {file next : List UInt8}
      {scripts : List Script} (hscript : isScript file = true)
      (hline : interpreterLine file = (name, arg)) (hopen : fs.openFile name = .ok next)
      (hnext : Chain fs last name next scripts) :
      Chain fs last path file (⟨path, name, arg⟩ :: scripts)

variable {fs : Files ε α} {last : List UInt8} {path : CString} {file : List UInt8}
  {scripts : List Script}

theorem replaceArgs_some (name arg path : CString) (args : List CString) :
    replaceArgs name (some arg) path args = name :: arg :: path :: args.tail := by
  cases args <;> simp [replaceArgs]

theorem Chain.parseLoop_of_le (h : Chain fs last path file scripts) (n : ℕ)
    (hn : n ≤ scripts.length) (args : List CString) :
    parseLoop fs n path file args = .error .ENOEXEC := by
  induction h generalizing n args with
  | last path =>
    obtain rfl : n = 0 := Nat.le_zero.1 hn
    rfl
  | script hscript hline hopen hnext ih =>
    cases n with
    | zero => rfl
    | succ n =>
      simp only [parseLoop, hscript, if_true, hline, hopen]
      exact ih n (Nat.le_of_succ_le_succ hn) _

theorem Chain.parseLoop_eq (h : Chain fs last path file scripts) {object : α}
    (helf : last.take 4 = ELF_MAGIC) (hobject : fs.parseElf last = .ok object)
    (harg : ∀ s ∈ scripts, s.arg ≠ none) (n : ℕ) (hn : scripts.length < n)
    (args : List CString) :
    parseLoop fs n path file args = .ok (scripts.foldl Script.expected args, object) := by
  induction h generalizing n args with
  | last path =>
    obtain ⟨n, rfl⟩ := Nat.exists_eq_add_one_of_ne_zero (Nat.ne_of_gt hn)
    have hscript : isScript last = false := by
      have htake : last.take 2 = ELF_MAGIC.take 2 := by
        rw [← helf, List.take_take]
        rfl
      rw [isScript, htake]
      rfl
    simp [parseLoop, hscript, helf, hobject]
  | script hscript hline hopen hnext ih =>
    obtain ⟨n, rfl⟩ := Nat.exists_eq_add_one_of_ne_zero (Nat.ne_of_gt (Nat.zero_lt_of_lt hn))
    obtain ⟨hhead, htail⟩ := List.forall_mem_cons.1 harg
    obtain ⟨arg, rfl⟩ := Option.ne_none_iff_exists'.1 hhead
    simp only [parseLoop, hscript, if_true, hline, hopen]
    rw [ih htail n (Nat.lt_of_succ_lt_succ hn), replaceArgs_some]
    rfl

end Dlutos.Loader
