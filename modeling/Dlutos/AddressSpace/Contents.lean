import Dlutos.AddressSpace.Machine

/-!
# Which operations change the contents of frames

The calls on areas move references between entries but leave the contents of all frames and the
page caches alone (`SameContents`).
-/

namespace Dlutos

open Addr AddrRange ExceptLoop

namespace World

/-- The change from `w` to `w'` leaves contents, page caches and `EMPTY_PAGE` alone. -/
structure SameContents (w w' : World) : Prop where
  caches : w'.caches = w.caches
  emptyPage : w'.emptyPage = w.emptyPage
  data : ∀ p, (w'.frames p).data = (w.frames p).data

variable {w w' : World} {i j v : ℕ}

theorem SameContents.refl (w : World) : SameContents w w := ⟨rfl, rfl, fun _ => rfl⟩

theorem SameContents.trans {w'' : World} (h : SameContents w w') (h' : SameContents w' w'') :
    SameContents w w'' :=
  ⟨h'.caches.trans h.caches, h'.emptyPage.trans h.emptyPage,
    fun p => (h'.data p).trans (h.data p)⟩

theorem sameContents_updateFrame (w : World) (p : PFN) {f : PhysFrame → PhysFrame}
    (hf : ∀ x, (f x).data = x.data) : SameContents w (w.updateFrame p f) := by
  refine ⟨rfl, rfl, fun q => ?_⟩
  unfold updateFrame
  dsimp only
  by_cases hq : q = p
  · subst hq
    rw [Function.update_self]
    exact hf _
  · rw [Function.update_of_ne hq]

theorem sameContents_cloneRef (w : World) (p : PFN) : SameContents w (w.cloneRef p) :=
  sameContents_updateFrame w p fun _ => rfl

theorem sameContents_releaseRef (w : World) (p : PFN) : SameContents w (w.releaseRef p) :=
  sameContents_updateFrame w p fun _ => rfl

theorem sameContents_steps (w : World) : EntrySteps (SameContents w) where
  setList h := ⟨h.caches, h.emptyPage, h.data⟩
  clearTable _ h := ⟨h.caches, h.emptyPage, h.data⟩
  clearPte h := ⟨h.caches, h.emptyPage, h.data⟩
  drop h hf := h.trans ⟨rfl, rfl, (sameContents_updateFrame _ _ fun x => (hf x).1).data⟩
  setAttr _ h := ⟨h.caches, h.emptyPage, h.data⟩
  point _ h _ := h.trans ⟨rfl, rfl, (sameContents_cloneRef _ _).data⟩

theorem run_sameContents {op : Op} (hinv : ∀ i l, w.lists i = some l → LockedInv l)
    (hop : Contract w op) (hareas : op.onAreas = true) (hrun : w.run op = .ok w') :
    SameContents w w' :=
  (sameContents_steps w).run (SameContents.refl w) hinv hop hareas hrun

end World

end Dlutos
