import Dlutos.AddressSpace.EntryInvariant
import Dlutos.AddressSpace.References

/-!
# Page tables respect the permissions of the areas

An entry should be writable or executable only if its area is, and not present if the area grants
nothing (`PteOk`).  An anonymous mapping without permissions gets present entries, an access of the
kernel to a page of a file that is not read yet makes the entry present or writable whatever the
area says, and `protect` keeps the write permission of a writable copy-on-write entry.  `Respects`
excludes exactly these steps.
-/

namespace Dlutos

open Addr AddrRange ExceptLoop Transition

namespace World

def grantsAny (permission : Permission) : Bool :=
  permission.read || permission.write || permission.execute

/-- An entry respects the permission of its area. -/
structure PteOk (permission : Permission) (attr : PageAttribute) : Prop where
  write : attr.write = true → permission.write = true
  execute : attr.execute = true → permission.execute = true
  present : grantsAny permission = false → attr.present = false

def PermissionsOk (w : World) : Prop :=
  ∀ i l, w.lists i = some l → ∀ a ∈ l.areas.elems, ∀ v, a.range.Contains (v * PAGE_SIZE) →
    PteOk a.permission (w.ptes i v).attr

/-- The permission of the area covers an access to a page of a file that is not read yet. -/
def Covered (area : MMArea) (t : PTE) (write : Bool) : Prop :=
  t.attr.mapped = true → grantsAny area.permission = true ∧
    (write = true → area.permission.write = true)

/-- All pages of an access of the kernel are covered. -/
def SpanCovered (w : World) (i start len : ℕ) (write : Bool) : Prop :=
  ∀ l, w.lists i = some l → ∀ a v, Visits l start len a v → Covered a (w.ptes i v) write

/-- The steps after which the entries still respect the areas. -/
def Respects (w : World) : Op → Prop
  | .mmapFixed _ _ _ mapping permission _ => mapping = .anonymous → grantsAny permission = true
  | .mmapHint _ _ _ _ mapping permission _ => mapping = .anonymous → grantsAny permission = true
  | .protect i start len permission => grantsAny permission = true → permission.write = false →
    ∀ l, w.lists i = some l → ∀ a ∈ l.areas.elems, ∀ v, a.range.Contains (v * PAGE_SIZE) →
      (maskOf start len).Contains (v * PAGE_SIZE) →
      ¬ ((w.ptes i v).attr.copyOnWrite = true ∧ (w.ptes i v).attr.write = true)
  | .kernelFault _ _ i addr write => ∀ l, w.lists i = some l →
    ∀ a, l.areas.overlappingAddr addr = some a → Covered a (w.ptes i (addr / PAGE_SIZE)) write
  | .readBytes _ _ i _ start len _ => SpanCovered w i start len false
  | .accessMut _ _ _ i _ start len => SpanCovered w i start len true
  | _ => True

/-! ### One entry -/

section Entry

variable {w w' : World} {pick : Pick} {backend : Backend} {area : MMArea} {pfn pfn' : PFN}
  {attr attr' : PageAttribute} {offset : ℕ} {write : Bool}

theorem PteOk.handle {i v : ℕ} {r : KResult Unit}
    (h : w.handle pick backend area i v offset write = .ok (r, w'))
    (hok : PteOk area.permission (w.ptes i v).attr) (hcov : Covered area (w.ptes i v) write) :
    PteOk area.permission (w'.ptes i v).attr := by
  obtain ⟨-, heq⟩ | ⟨pfn, attr, hattr, heq⟩ := handle_entry h
  · rwa [heq]
  · rw [heq]
    refine ⟨?_, ?_, ?_⟩
    · intro hw
      rcases hattr.writable hw with hw | hw | ⟨hm, hw⟩
      · exact hok.write hw
      · exact hw
      · exact (hcov hm).2 hw
    · intro he
      exact hok.execute (hattr.execute.symm.trans he)
    · intro hnone
      cases hp : attr.present with
      | false => exact hp
      | true =>
        rcases hattr.present.mp hp with hp | hm
        · rw [hok.present hnone] at hp
          cases hp
        · rw [(hcov hm).1] at hnone
          cases hnone

variable {permission : Permission}

theorem not_grantsAny (permission : Permission) :
    (!permission.read && !permission.write && !permission.execute) = !grantsAny permission := by
  unfold grantsAny
  simp only [Bool.not_or]

theorem PteOk.protect (h : grantsAny permission = true →
      permission.write = false → ¬ (attr.copyOnWrite = true ∧ attr.write = true)) :
    PteOk permission (protectAttr permission attr) := by
  unfold protectAttr
  rw [not_grantsAny]
  cases hg : grantsAny permission with
  | false =>
    rw [Bool.not_false, if_pos rfl]
    exact ⟨fun hw => absurd hw Bool.false_ne_true, fun he => absurd he Bool.false_ne_true,
      fun _ => rfl⟩
  | true =>
    rw [Bool.not_true, if_neg Bool.false_ne_true]
    refine ⟨?_, fun he => he, fun hnone => by rw [hg] at hnone; cases hnone⟩
    dsimp only
    intro hw
    cases hp : permission.write with
    | true => rfl
    | false =>
      cases hc : attr.copyOnWrite with
      | true =>
        rw [hc, if_pos rfl] at hw
        exact absurd ⟨hc, hw⟩ (h hg hp)
      | false =>
        rw [hc, if_neg Bool.false_ne_true, hp] at hw
        cases hw

theorem PteOk.fresh {mapping : Mapping} (h : mapping = .anonymous → grantsAny permission = true) :
    PteOk permission (freshAttr mapping permission) := by
  cases mapping with
  | anonymous =>
    refine ⟨fun hw => absurd hw Bool.false_ne_true, fun he => he, ?_⟩
    intro hnone
    rw [h rfl] at hnone
    cases hnone
  | file m => exact ⟨fun hw => absurd hw Bool.false_ne_true, fun he => he, fun _ => rfl⟩

theorem PteOk.null (permission : Permission) : PteOk permission ({} : PTE).attr :=
  ⟨fun hw => absurd hw Bool.false_ne_true, fun he => absurd he Bool.false_ne_true, fun _ => rfl⟩

theorem PteOk.parent {t : PTE} (isShared : Bool)
    (h : PteOk permission t.attr) : PteOk permission (parentEntry isShared t).attr := by
  unfold parentEntry
  split
  · exact h
  · exact ⟨fun hw => absurd hw Bool.false_ne_true, h.execute, h.present⟩

theorem PteOk.child {t : PTE} (isShared : Bool)
    (h : PteOk permission t.attr) : PteOk permission (childEntry isShared t).attr := by
  unfold childEntry
  split
  · exact h
  · split
    · exact ⟨fun hw => absurd hw Bool.false_ne_true, h.execute, h.present⟩
    · exact PteOk.null permission

end Entry

/-! ### Runs -/

/-- The property of single entries behind `PermissionsOk`. -/
def PermEntry (_ _ : ℕ) (a : MMArea) (t : PTE) : Prop := PteOk a.permission t.attr

theorem permEntry_rules {w : World} {op : Op} (hres : Respects w op) :
    EntryRules PermEntry w op where
  part i v x a t _ hperm h := by
    unfold PermEntry at *
    rw [hperm]
    exact h
  clone i j _ l _ a _ v _ h := ⟨PteOk.parent _ h, PteOk.child _ h⟩
  fresh mapping permission isShared hmaps _ _ range := by
    refine PteOk.fresh fun hanon => ?_
    cases op with
    | mmapFixed i addr len =>
      cases hmaps
      exact hres hanon
    | mmapHint i fuel hint len =>
      cases hmaps
      exact hres hanon
    | _ => cases hmaps
  protect i start len permission heq l hl a ha v hmask hav _ x _ hperm := by
    subst heq
    unfold PermEntry
    rw [hperm]
    exact PteOk.protect fun hany hw => hres hany hw l hl a ha v hav hmask

theorem permEntry_handle {w w' : World} {pick : Pick} {backend : Backend} {area : MMArea}
    {i v offset : ℕ} {write : Bool} {r : KResult Unit} (h : Entrywise PermEntry w)
    (harea : w.OnlyArea i v area) (hcov : Covered area (w.ptes i v) write)
    (hrun : w.handle pick backend area i v offset write = .ok (r, w')) :
    Entrywise PermEntry w' := by
  refine h.fault (handle_faults hrun) ?_
  intro l hl a ha hav hok
  obtain rfl := harea l hl a ha hav
  exact hok.handle hrun hcov

theorem permEntry_visitSpec (pick : Pick) (backend : Backend) (i : ℕ) (write : Bool) :
    VisitSpec (fun _ => True) pick backend i write (Entrywise PermEntry)
      (fun _ a _ t => Covered a t write) where
  handle harea hs hcov := ensures_of_ok fun _ hrun => permEntry_handle hs harea hcov hrun
  data _ _ hs := hs
  unmapped hmapped hm := absurd (hmapped.symm.trans hm) Bool.false_ne_true
  mono _ hu := hu
  notManaged := trivial

theorem permEntry_step {w : World} {op : Op} (h : Entrywise PermEntry w) (hop : Contract w op)
    (hres : Respects w op) : Ensures (fun _ => True) (Entrywise PermEntry) (w.run op) := by
  cases op with
  | userFault pick backend i addr access =>
    refine ensures_userFault h fun l area hl harea hgranted => ensures_of_ok fun x hhandle =>
      permEntry_handle h (.of_overlappingAddr (h i l hl).1.areas hl harea) (fun _ => ?_)
        hhandle
    unfold grantsAny
    cases access with
    | read =>
      have hp : area.permission.read = true := hgranted
      exact ⟨by rw [hp]; rfl, fun hw => nomatch hw⟩
    | write =>
      have hp : area.permission.write = true := hgranted
      exact ⟨by rw [hp]; simp, fun _ => hp⟩
    | instructionFetch =>
      have hp : area.permission.execute = true := hgranted
      exact ⟨by rw [hp]; simp, fun hw => nomatch hw⟩
  | kernelFault pick backend i addr write =>
    exact ensures_kernelFault h fun l area hl harea => ensures_of_ok fun x hhandle =>
      permEntry_handle h (.of_overlappingAddr (h i l hl).1.areas hl harea)
        (hres l hl area harea) hhandle
  | readBytes pick backend i fuel start len buffer =>
    exact ensures_readBytes h (permEntry_visitSpec pick backend i false)
      fun l hl => ⟨(h i l hl).1.areas, hres l hl⟩
  | accessMut pick backend func i fuel start len =>
    exact ensures_accessMut h (permEntry_visitSpec pick backend i true)
      fun l hl => ⟨(h i l hl).1.areas, hres l hl⟩
  | store i addr byte => exact h
  | _ => exact ensures_of_ok fun w' hrun => h.onAreas hop rfl (permEntry_rules hres) hrun

/-- In every run whose steps all respect the permissions, the entries of every area do. -/
theorem permissions_of_reachable {w : World} (h : (machine Respects).Reachable w) :
    PermissionsOk w := by
  have hentries : Entrywise PermEntry w := by
    refine h.invariant ?_ ?_
    · intro s hs i l hl
      rw [hs.lists i] at hl
      cases hl
    · rintro s t hs ⟨op, ⟨hop, hres⟩, hrun⟩
      exact (permEntry_step hs hop hres).of_ok hrun
  intro i l hl
  exact (hentries i l hl).2

/-- The property holds after one page of a read-only mapping was made writable. -/
theorem permissions_after_protect : ∃ w, (machine Respects).Reachable w ∧
    (∃ l, w.lists 0 = some l ∧ l.areas.elems.length = 2) ∧ PermissionsOk w := by
  have h0 : (machine Respects).Reachable boot := .of_init initial_boot
  have h3 := h0.after [.new 0, .mmapFixed 0 0x10000 0x2000 .anonymous ⟨true, false, false⟩ false,
    .protect 0 0x10000 0x1000 ⟨true, true, false⟩]
    ⟨⟨rfl, trivial⟩, ⟨⟨by decide, by decide, by decide, trivial⟩, fun _ => rfl⟩,
     ⟨⟨by decide, by decide, by decide⟩, fun _ hread => absurd hread (by decide)⟩, trivial⟩
  exact ⟨_, h3, ⟨_, rfl, rfl⟩, permissions_of_reachable h3⟩

/-- An anonymous mapping without permissions gets present entries. -/
theorem permissions_violated : ∃ w, (machine fun _ _ => True).Reachable w ∧ ¬ PermissionsOk w := by
  have h0 : (machine fun _ _ => True).Reachable boot := .of_init initial_boot
  have h2 := h0.after [.new 0, .mmapFixed 0 0x10000 0x1000 .anonymous ⟨false, false, false⟩ false]
    ⟨⟨rfl, trivial⟩, ⟨⟨by decide, by decide, by decide, trivial⟩, trivial⟩, trivial⟩
  refine ⟨_, h2, fun hok => ?_⟩
  have hpage := hok 0 _ rfl _ List.mem_cons_self 16 (by decide)
  exact absurd (hpage.present rfl) (by decide)

end World

end Dlutos
