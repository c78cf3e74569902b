import Dlutos.Files.FileArray
import Dlutos.Processes.ExitOnce

/-!
# Fatal signals

`Thread::force_kill` in `kernel/task/thread.rs` calls `do_exit` for the thread that has taken the
signal and not for its group.  So the signal ends a process with one thread; the other threads of a
larger one go on, with its memory and files, and the parent hears nothing.
-/

namespace Dlutos.Processes

open Transition Files

variable {φ : Type}

namespace ProcessTree

/-- The descriptors of the thread after `do_exit`: `close_all` is called when the process ends. -/
def filesAfter (s : ProcessTree) (t : ℕ) (group : Bool) (files : FileArray φ) : FileArray φ :=
  if group = true ∨ (s.threads (s.process t)).length = 1 then files.closeAll.2 else files

/-- The signal has ended the process, and its parent has one status of it. -/
structure KilledBy (s : ProcessTree) (p q signal : ℕ) : Prop where
  dead : ∀ t, s.pc t ≠ .unborn → s.process t = p → s.dead t = true
  mm : s.mm p = false
  status : (s.waitProcs q).filter (fun object => object.exitOf p) = [⟨p, .signaled signal⟩]

variable {s : ProcessTree} {t signal : ℕ}

theorem marked_of_reachable (hs : (processTree Orderly).Reachable s) : s.TreeInv ∧ s.Marked :=
  (System.Reachable.safe (M := processTree Orderly) (P := fun s => s.TreeInv ∧ s.Marked)
    (fun _ h => h ▸ ⟨treeInv_boot, marked_boot⟩) (fun _ op hi h => by
      obtain ⟨s', hrun, hi', hkept⟩ := hi.1.kept op h.1 h.2
      exact ⟨s', hrun, hi', hkept.marked hi.2⟩) hs).1

theorem TreeInv.killedBy (hi : s.TreeInv) (hm : s.Marked) {p q : ℕ} (hmm : s.mm p = false)
    (hmem : ⟨p, .signaled signal⟩ ∈ s.waitProcs q) : s.KilledBy p q signal := by
  refine ⟨fun t ht hp => (hm t ht).resolve_right fun h => ?_, hmm, ?_⟩
  · have hlive := (hi.roster.member _ t h).2.2.1
    rw [hp, hmm] at hlive
    cases hlive
  · have hle : (s.waitProcs q).countP (fun object => object.exitOf p) ≤ 1 := by
      rw [hi.statuses.count]
      split <;> decide
    have hin : ⟨p, .signaled signal⟩ ∈ (s.waitProcs q).filter fun object => object.exitOf p :=
      List.mem_filter.mpr ⟨hmem, by simp [WaitObject.exitOf, WaitObject.alive]⟩
    rw [List.countP_eq_length_filter] at hle
    obtain ⟨x, hx⟩ := List.length_eq_one_iff.mp (hle.antisymm (List.length_pos_of_mem hin))
    rw [hx] at hin ⊢
    rw [List.mem_singleton.mp hin]

end ProcessTree

open ProcessTree

end Dlutos.Processes
