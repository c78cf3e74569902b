import Dlutos.Foundation.Transition
import Mathlib.Data.List.FinRange

/-!
# Commands of an AHCI port

`send_command` of `port.rs` with the slots of `slot.rs`.  A call takes a slot from the free list,
puts it on the working list, checks that its bit in `command_issue` is clear, sets it, and waits
until the slot is no longer working.  Each of these is a step.  A write to `command_issue` sets the
bits that are ones and keeps the others.

A slot is on the working list before its bit is set, so a handler that reads the register before
that takes a command that was never issued for a finished one.
-/

namespace Dlutos.Block

open Transition Function

inductive SlotState where
  | Idle
  | Working
  | Finished
  deriving DecidableEq

inductive AhciError where
  /-- `debug_assert_eq!(inner.state, SlotState::Working)` -/
  | notWorking
  /-- `debug_assert!(cmdissue_reg.read_once() & (1 << slot_index) == 0)` -/
  | stillIssued
  deriving DecidableEq

inductive SendCommand where
  | getFreeSlot
  | prepareCommand (n : Fin 32)
  | saveWorking (n : Fin 32)
  | check (n : Fin 32)
  | issue (n : Fin 32)
  | waitFinish (n : Fin 32)
  | releaseFreeSlot (n : Fin 32)
  | done (n : Fin 32)
  deriving DecidableEq

/-- The slot a call was given. -/
def SendCommand.slot : SendCommand → Option (Fin 32)
  | .getFreeSlot => none
  | .prepareCommand n => some n
  | .saveWorking n => some n
  | .check n => some n
  | .issue n => some n
  | .waitFinish n => some n
  | .releaseFreeSlot n => some n
  | .done n => some n

inductive Handler where
  | idle
  /-- It has read `command_issue`. -/
  | read (ci : Fin 32 → Bool)
  /-- It has the lock of the lists, and these slots are left to look at. -/
  | retain (ci : Fin 32 → Bool) (todo : List (Fin 32))

/-- `AdapterPort` with the calls and the handlers. -/
structure AhciPort where
  commandIssue : Fin 32 → Bool := fun _ => false
  free : List (Fin 32) := List.finRange 32
  working : List (Fin 32) := []
  state : Fin 32 → SlotState := fun _ => .Idle
  call : ℕ → SendCommand := fun _ => .getFreeSlot
  handler : ℕ → Handler := fun _ => .idle
  /-- The handler that has the lock of the lists; calls give it back within a step. -/
  lock : Option ℕ := none
  owner : Fin 32 → ℕ := fun _ => 0
  issuer : Fin 32 → ℕ := fun _ => 0
  written : ℕ → Bool := fun _ => false
  cleared : ℕ → Bool := fun _ => false

inductive AhciOp where
  | call (t : ℕ)
  | finish (n : Fin 32)
  /-- `handle_interrupt` reads `command_issue`. -/
  | interrupt (h : ℕ)
  | lock (h : ℕ)
  /-- It looks at the next slot, or gives the lock back. -/
  | retain (h : ℕ)

namespace AhciPort

def goto (s : AhciPort) (t : ℕ) (c : SendCommand) : AhciPort :=
  { s with call := update s.call t c }

def getFreeSlot (s : AhciPort) (t : ℕ) : AhciPort :=
  match s.free with
  | [] => s
  | n :: free =>
    { s with free, owner := update s.owner n t }.goto t (.prepareCommand n)

def prepareCommand (s : AhciPort) (t : ℕ) (n : Fin 32) : AhciPort :=
  { s with state := update s.state n .Working }.goto t (.saveWorking n)

def saveWorking (s : AhciPort) (t : ℕ) (n : Fin 32) : AhciPort :=
  { s with working := s.working ++ [n] }.goto t (.check n)

def issue (s : AhciPort) (t : ℕ) (n : Fin 32) : AhciPort :=
  { s with commandIssue := update s.commandIssue n true
           issuer := update s.issuer n t
           written := update s.written t true }.goto t (.waitFinish n)

def waitFinish (s : AhciPort) (t : ℕ) (n : Fin 32) : AhciPort :=
  { s with state := update s.state n .Idle }.goto t (.releaseFreeSlot n)

def releaseFreeSlot (s : AhciPort) (t : ℕ) (n : Fin 32) : AhciPort :=
  { s with free := s.free ++ [n] }.goto t (.done n)

def sendCommand (s : AhciPort) (t : ℕ) : Except AhciError AhciPort :=
  match s.call t with
  | .getFreeSlot => .ok (s.getFreeSlot t)
  | .prepareCommand n => .ok (s.prepareCommand t n)
  | .saveWorking n => .ok (s.saveWorking t n)
  | .check n => if s.commandIssue n then .error .stillIssued else .ok (s.goto t (.issue n))
  | .issue n => .ok (s.issue t n)
  | .waitFinish n => .ok (s.waitFinish t n)
  | .releaseFreeSlot n => .ok (s.releaseFreeSlot t n)
  | .done _ => .ok s

def finish (s : AhciPort) (n : Fin 32) : AhciPort :=
  { s with commandIssue := update s.commandIssue n false
           cleared := update s.cleared (s.issuer n) true }

def setHandler (s : AhciPort) (h : ℕ) (c : Handler) : AhciPort :=
  { s with handler := update s.handler h c }

def lockLists (s : AhciPort) (h : ℕ) : AhciPort :=
  match s.handler h with
  | .read ci => { s with lock := some h }.setHandler h (.retain ci s.working)
  | _ => s

def handleIrq (s : AhciPort) (n : Fin 32) : Except AhciError AhciPort :=
  if s.state n = .Working then
    .ok { s with state := update s.state n .Finished
                 working := s.working.erase n }
  else .error .notWorking

def retain (s : AhciPort) (h : ℕ) : Except AhciError AhciPort :=
  match s.handler h with
  | .retain _ [] => .ok ({ s with lock := none }.setHandler h .idle)
  | .retain ci (n :: todo) =>
    if ci n then .ok (s.setHandler h (.retain ci todo))
    else (s.handleIrq n).map fun s => s.setHandler h (.retain ci todo)
  | _ => .ok s

def run (s : AhciPort) : AhciOp → Except AhciError AhciPort
  | .call t => s.sendCommand t
  | .finish n => .ok (s.finish n)
  | .interrupt h => .ok (s.setHandler h (.read s.commandIssue))
  | .lock h => .ok (s.lockLists h)
  | .retain h => s.retain h

def CanGoOn (s : AhciPort) (t : ℕ) : Prop :=
  match s.call t with
  | .getFreeSlot => s.lock = none ∧ s.free ≠ []
  | .saveWorking _ => s.lock = none
  | .waitFinish n => s.state n ≠ .Working
  | .releaseFreeSlot _ => s.lock = none
  | .done _ => False
  | _ => True

def Enabled (s : AhciPort) : AhciOp → Prop
  | .call t => s.CanGoOn t
  | .finish n => s.commandIssue n = true
  | .interrupt h => s.handler h = .idle
  | .lock h => (∃ ci, s.handler h = .read ci) ∧ s.lock = none
  | .retain h => ∃ ci todo, s.handler h = .retain ci todo

/-- No call is between `save_working` and its write while a handler has read the register and not
got the lock yet. -/
def Apart (s : AhciPort) : AhciOp → Prop
  | .interrupt _ => ∀ t n, s.call t ≠ .check n ∧ s.call t ≠ .issue n
  | .call t => ∀ n h ci, s.call t = .saveWorking n → s.handler h ≠ .read ci
  | _ => True

/-! ### The invariant -/

/-- The command in a slot has been issued, and the device has finished it. -/
def Over (s : AhciPort) (n : Fin 32) : Prop :=
  s.call (s.owner n) = .waitFinish n ∧ s.cleared (s.owner n) = true

def Owned (s : AhciPort) (n : Fin 32) : Prop :=
  s.call (s.owner n) = .prepareCommand n ∨ s.call (s.owner n) = .saveWorking n ∨
    s.call (s.owner n) = .check n ∨ s.call (s.owner n) = .issue n ∨
    s.call (s.owner n) = .waitFinish n ∨ s.call (s.owner n) = .releaseFreeSlot n

structure AhciInv (s : AhciPort) : Prop where
  nodup : s.free.Nodup ∧ s.working.Nodup
  owner : ∀ t n, s.call t = .prepareCommand n ∨ s.call t = .saveWorking n ∨ s.call t = .check n ∨
    s.call t = .issue n ∨ s.call t = .waitFinish n ∨ s.call t = .releaseFreeSlot n → s.owner n = t
  free : ∀ n ∈ s.free, ¬s.Owned n
  working : ∀ n ∈ s.working, s.state n = .Working ∧ (s.call (s.owner n) = .check n ∨
    s.call (s.owner n) = .issue n ∨ s.call (s.owner n) = .waitFinish n)
  prepared : ∀ n, s.call (s.owner n) = .saveWorking n ∨ s.call (s.owner n) = .check n ∨
    s.call (s.owner n) = .issue n → s.state n = .Working
  saved : ∀ n, s.call (s.owner n) = .check n ∨ s.call (s.owner n) = .issue n → n ∈ s.working
  waiting : ∀ n, s.call (s.owner n) = .waitFinish n → s.written (s.owner n) = true ∧
    (n ∈ s.working ∨ s.cleared (s.owner n) = true)
  issued : ∀ n, s.commandIssue n = true ↔
    s.call (s.owner n) = .waitFinish n ∧ s.cleared (s.owner n) = false
  issuer : ∀ n, s.call (s.owner n) = .waitFinish n → s.issuer n = s.owner n
  ended : ∀ t n, s.call t = .releaseFreeSlot n ∨ s.call t = .done n →
    s.written t = true ∧ s.cleared t = true
  fresh : ∀ t n, s.call t = .getFreeSlot ∨ s.call t = .prepareCommand n ∨
    s.call t = .saveWorking n ∨ s.call t = .check n ∨ s.call t = .issue n → s.cleared t = false
  read : ∀ h ci n, s.handler h = .read ci → n ∈ s.working → ci n = false → s.Over n
  retain : ∀ h ci todo, s.handler h = .retain ci todo → s.lock = some h ∧ todo.Nodup ∧
    ∀ n ∈ todo, n ∈ s.working ∧ (ci n = false → s.Over n)

attribute [local grind =] update_apply List.mem_append List.nodup_append List.nodup_cons
  AhciInv.issued

attribute [local grind] Over Owned

attribute [local grind →] AhciInv.nodup AhciInv.owner AhciInv.free AhciInv.working AhciInv.prepared
  AhciInv.saved AhciInv.waiting AhciInv.issuer AhciInv.ended AhciInv.fresh
  AhciInv.read AhciInv.retain

variable {s : AhciPort}

variable {t : ℕ}

variable {n : Fin 32}

section

variable (hi : s.AhciInv)
include hi

theorem AhciInv.getFreeSlot (ht : s.call t = .getFreeSlot)
    (hlock : s.lock = none) : (s.getFreeSlot t).AhciInv := by
  simp only [AhciPort.getFreeSlot]
  split
  · exact hi
  next n free hfree =>
  have hn : ¬s.Owned n := hi.free n (hfree ▸ List.mem_cons_self)
  have hnot : ∀ u, s.call u = .prepareCommand n ∨ s.call u = .saveWorking n ∨ s.call u = .check n ∨
      s.call u = .issue n ∨ s.call u = .waitFinish n ∨ s.call u = .releaseFreeSlot n → False := by
    intro u hu
    obtain rfl := hi.owner u n hu
    exact hn hu
  have hother : ∀ m, s.owner m = t → ¬s.Owned m := by grind
  constructor <;> simp only [goto] <;> grind

theorem AhciInv.prepareCommand
    (ht : s.call t = .prepareCommand n) : (s.prepareCommand t n).AhciInv := by
  have ho : s.owner n = t := hi.owner t n (by simp [ht])
  constructor <;> simp only [AhciPort.prepareCommand, goto] <;> grind

theorem AhciInv.saveWorking (ht : s.call t = .saveWorking n) (hlock : s.lock = none)
    (hread : ∀ h ci, s.handler h ≠ .read ci) : (s.saveWorking t n).AhciInv := by
  have ho : s.owner n = t := hi.owner t n (by simp [ht])
  have hn : n ∉ s.working := by grind
  constructor <;> simp only [AhciPort.saveWorking, goto] <;> grind

theorem AhciInv.check
    (ht : s.call t = .check n) : s.commandIssue n = false ∧ (s.goto t (.issue n)).AhciInv := by
  have ho : s.owner n = t := hi.owner t n (by simp [ht])
  refine ⟨by grind, ?_⟩
  constructor <;> simp only [goto] <;> grind

theorem AhciInv.issue (ht : s.call t = .issue n) : (s.issue t n).AhciInv := by
  have ho : s.owner n = t := hi.owner t n (by simp [ht])
  have hfresh : s.cleared t = false := hi.fresh t n (by simp [ht])
  constructor <;> simp only [AhciPort.issue, goto] <;> grind

theorem AhciInv.waitFinish
    (ht : s.call t = .waitFinish n) (hn : s.state n ≠ .Working) : (s.waitFinish t n).AhciInv := by
  have ho : s.owner n = t := hi.owner t n (by simp [ht])
  have hnw : n ∉ s.working := by grind
  constructor <;> simp only [AhciPort.waitFinish, goto] <;> grind

theorem AhciInv.releaseFreeSlot (ht : s.call t = .releaseFreeSlot n) (hlock : s.lock = none) :
    (s.releaseFreeSlot t n).AhciInv := by
  have ho : s.owner n = t := hi.owner t n (by simp [ht])
  constructor <;> simp only [AhciPort.releaseFreeSlot, goto] <;> grind

theorem AhciInv.finish (hn : s.commandIssue n = true) :
    (s.finish n).AhciInv := by
  constructor <;> simp only [AhciPort.finish] <;> grind

theorem AhciInv.interrupt (h : ℕ) (hapart : ∀ t n, s.call t ≠ .check n ∧ s.call t ≠ .issue n) :
    (s.setHandler h (.read s.commandIssue)).AhciInv := by
  have hover : ∀ n ∈ s.working, s.commandIssue n = false → s.Over n := by grind
  constructor <;> simp only [AhciPort.setHandler] <;> grind

theorem AhciInv.lockLists (h : ℕ) (hlock : s.lock = none) :
    (s.lockLists h).AhciInv := by
  simp only [AhciPort.lockLists]
  split
  · constructor <;> simp only [AhciPort.setHandler] <;> grind
  · exact hi

theorem AhciInv.handleIrq {h : ℕ} {ci : Fin 32 → Bool}
    {todo : List (Fin 32)} (hh : s.handler h = .retain ci (n :: todo)) (hci : ci n = false) :
    ∃ t, s.handleIrq n = .ok t ∧ (t.setHandler h (.retain ci todo)).AhciInv := by
  obtain ⟨hlock, hnodup, htodo⟩ := hi.retain h ci _ hh
  obtain ⟨hn, hover⟩ := htodo n List.mem_cons_self
  obtain ⟨hcall, hcleared⟩ := hover hci
  have hmem : ∀ m, m ∈ s.working.erase n ↔ m ≠ n ∧ m ∈ s.working := fun m =>
    hi.nodup.2.mem_erase_iff
  refine ⟨_, if_pos (hi.working n hn).1, ?_⟩
  constructor <;> simp only [AhciPort.setHandler] <;> grind

theorem AhciInv.retain_run (h : ℕ) : ∃ t, s.retain h = .ok t ∧ t.AhciInv := by
  simp only [AhciPort.retain]
  split
  next ci hh =>
    refine ⟨_, rfl, ?_⟩
    constructor <;> simp only [AhciPort.setHandler] <;> grind
  next ci n todo hh =>
    split_ifs with hci
    · refine ⟨_, rfl, ?_⟩
      constructor <;> simp only [AhciPort.setHandler] <;> grind
    · obtain ⟨t, ht, hit⟩ := hi.handleIrq hh (by simpa using hci)
      exact ⟨_, congrArg (Except.map _) ht, hit⟩
  next => exact ⟨_, rfl, hi⟩

theorem AhciInv.sendCommand (t : ℕ) (he : s.CanGoOn t)
    (hapart : ∀ n h ci, s.call t = .saveWorking n → s.handler h ≠ .read ci) :
    ∃ s', s.sendCommand t = .ok s' ∧ s'.AhciInv := by
  unfold CanGoOn at he
  unfold AhciPort.sendCommand
  cases ht : s.call t with
  | getFreeSlot =>
    rw [ht] at he
    exact ⟨_, rfl, hi.getFreeSlot ht he.1⟩
  | prepareCommand n => exact ⟨_, rfl, hi.prepareCommand ht⟩
  | saveWorking n =>
    rw [ht] at he
    exact ⟨_, rfl, hi.saveWorking ht he fun h ci => hapart n h ci ht⟩
  | check n =>
    obtain ⟨hclear, hit⟩ := hi.check ht
    exact ⟨_, if_neg (by simp [hclear]), hit⟩
  | issue n => exact ⟨_, rfl, hi.issue ht⟩
  | waitFinish n =>
    rw [ht] at he
    exact ⟨_, rfl, hi.waitFinish ht he⟩
  | releaseFreeSlot n =>
    rw [ht] at he
    exact ⟨_, rfl, hi.releaseFreeSlot ht he⟩
  | done n => exact ⟨_, rfl, hi⟩

theorem AhciInv.run (op : AhciOp) (he : s.Enabled op) (hc : s.Apart op) :
    ∃ s', s.run op = .ok s' ∧ s'.AhciInv := by
  cases op with
  | call t => exact hi.sendCommand t he hc
  | finish n => exact ⟨_, rfl, hi.finish he⟩
  | interrupt h => exact ⟨_, rfl, hi.interrupt h hc⟩
  | lock h => exact ⟨_, rfl, hi.lockLists h he.2⟩
  | retain h => exact hi.retain_run h

end

/-- Calls that have returned had their bits set by them and cleared by the device, and a slot has
one call that has not returned. -/
structure Genuine (s : AhciPort) : Prop where
  completed : ∀ t n, s.call t = .releaseFreeSlot n ∨ s.call t = .done n →
    s.written t = true ∧ s.cleared t = true
  reused : ∀ t u n, t ≠ u → (s.call t).slot = some n → (s.call u).slot = some n →
    s.call t = .done n ∨ s.call u = .done n

theorem AhciInv.slot (hi : s.AhciInv) (ht : (s.call t).slot = some n) :
    s.owner n = t ∨ s.call t = .done n := by
  cases hc : s.call t <;> rw [hc] at ht <;> cases ht
  case done => exact Or.inr rfl
  all_goals exact Or.inl (hi.owner t n (by simp [hc]))

theorem AhciInv.genuine (hi : s.AhciInv) : s.Genuine := by
  refine ⟨hi.ended, fun t u n hne ht hu => ?_⟩
  rcases hi.slot ht with ht | ht
  · rcases hi.slot hu with hu | hu
    · exact absurd (ht.symm.trans hu) hne
    · exact Or.inr hu
  · exact Or.inl ht

end AhciPort

def ahciPort (cond : AhciPort → AhciOp → Prop) : System AhciPort AhciOp AhciError where
  init s := s = {}
  allowed s op := s.Enabled op ∧ cond s op
  run s op := s.run op

open AhciPort

/-- While all steps meet the condition, completions are genuine, and no assertion fails. -/
theorem ahciGenuine_of_reachable {s : AhciPort} (hs : (ahciPort Apart).Reachable s) :
    s.Genuine ∧ ∀ op, (ahciPort Apart).allowed s op → ∃ s', (ahciPort Apart).run s op = .ok s' := by
  have hsafe := System.Reachable.safe (M := ahciPort Apart) (P := AhciInv) ?_
    (fun _ op hi h => hi.run op h.1 h.2) hs
  · exact ⟨hsafe.1.genuine, hsafe.2⟩
  · rintro _ rfl
    constructor
    case nodup => exact ⟨List.nodup_finRange 32, List.nodup_nil⟩
    case free => rintro n - (h | h | h | h | h | h) <;> cases h
    all_goals grind

/-- A call that has returned, after the device and the handler have finished its command. -/
theorem ahciGenuine_returned : ∃ s : AhciPort, s.call 0 = .done 0 ∧ s.Genuine := by
  have h0 : (ahciPort Apart).Reachable {} := .of_init rfl
  have h12 := h0.after [.call 0, .call 0, .call 0, .call 0, .call 0, .finish 0, .interrupt 0,
    .lock 0, .retain 0, .retain 0, .call 0, .call 0]
    ⟨⟨⟨rfl, nofun⟩, nofun⟩, ⟨trivial, nofun⟩, ⟨rfl, fun _ _ _ _ => nofun⟩, ⟨trivial, nofun⟩,
     ⟨trivial, nofun⟩, ⟨rfl, trivial⟩, ⟨rfl, fun t n => by cases t <;> exact ⟨nofun, nofun⟩⟩,
     ⟨⟨⟨_, rfl⟩, rfl⟩, trivial⟩, ⟨⟨_, _, rfl⟩, trivial⟩, ⟨⟨_, _, rfl⟩, trivial⟩, ⟨nofun, nofun⟩,
     ⟨rfl, nofun⟩, trivial⟩
  exact ⟨_, rfl, (ahciGenuine_of_reachable h12).1⟩

/-- The handler reads `command_issue` right before the bit is set: `wait_finish` returns too early.
-/
theorem ahciGenuine_violated : ∃ s : AhciPort, (ahciPort fun _ _ => True).Reachable s ∧
    s.call 0 = .releaseFreeSlot 0 ∧ s.commandIssue 0 = true ∧ s.cleared 0 = false := by
  have h0 : (ahciPort fun _ _ => True).Reachable {} := .of_init rfl
  have h10 := h0.after [.call 0, .call 0, .call 0, .interrupt 0, .lock 0, .retain 0, .retain 0,
    .call 0, .call 0, .call 0]
    ⟨⟨⟨rfl, nofun⟩, trivial⟩, ⟨trivial, trivial⟩, ⟨rfl, trivial⟩, ⟨rfl, trivial⟩,
     ⟨⟨⟨_, rfl⟩, rfl⟩, trivial⟩, ⟨⟨_, _, rfl⟩, trivial⟩, ⟨⟨_, _, rfl⟩, trivial⟩, ⟨trivial, trivial⟩,
     ⟨trivial, trivial⟩, ⟨nofun, trivial⟩, trivial⟩
  exact ⟨_, h10, rfl, rfl, rfl⟩

end Dlutos.Block
