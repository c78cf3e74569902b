import Dlutos.AddressSpace.MemoryCalls
import Dlutos.AddressSpace.Permissions

/-!
# A handled page fault makes the access possible

`handle_user_page_fault` looks at the permission of the area, but `MMArea::handle` repairs an entry
only through its copy-on-write and mapped flags.  The access that faulted is possible afterwards if
the entry still allows what its area grants, up to what these two flags stand for (`LiveEntry`).
`protect` without permissions takes the present flag away, and a later `protect` does not give it
back; `Restorable` excludes the second call, and mappings of length zero.
-/

namespace Dlutos

open Addr AddrRange ExceptLoop Transition Function

namespace World

def permits (attr : PageAttribute) : Access → Bool
  | .read => attr.read
  | .write => attr.write
  | .instructionFetch => attr.execute

/-- The hardware lets a user program make the access through the entry. -/
def accessible (t : PTE) (access : Access) : Bool :=
  t.attr.present && t.attr.user && permits t.attr access

/-- The entry has a page, or knows the page of a file it stands for. -/
def backed (t : PTE) : Bool := t.attr.present || t.attr.mapped

/-- The steps after which faults can still be resolved. -/
def Restorable (w : World) : Op → Prop
  | .mmapFixed _ _ len _ _ _ => len ≠ 0
  | .mmapHint _ _ _ len _ _ _ => len ≠ 0
  | .protect i start len permission => grantsAny permission = true →
    ∀ l, w.lists i = some l → ∀ a ∈ l.areas.elems, ∀ v, a.range.Contains (v * PAGE_SIZE) →
      (maskOf start len).Contains (v * PAGE_SIZE) → backed (w.ptes i v) = true
  | _ => True

/-! ### One entry -/

/-- The entry allows what the area grants; a missing write permission may be hidden behind the
copy-on-write or the mapped flag. -/
structure LiveEntry (permission : Permission) (t : PTE) : Prop where
  user : backed t = true → t.attr.user = true
  page : grantsAny permission = true → backed t = true
  read : permission.read = true → t.attr.read = true
  execute : permission.execute = true → t.attr.execute = true
  write : permission.write = true →
    t.attr.write = true ∨ t.attr.copyOnWrite = true ∨ t.attr.mapped = true

theorem grantsAny_of_granted {permission : Permission} {access : Access}
    (h : granted permission access = true) : grantsAny permission = true := by
  unfold grantsAny
  cases access with
  | read => rw [show permission.read = true from h]; rfl
  | write => rw [show permission.write = true from h]; simp
  | instructionFetch => rw [show permission.execute = true from h]; simp

theorem LiveEntry.of_not_granted {permission : Permission} {t : PTE}
    (hnone : grantsAny permission = false) (huser : backed t = true → t.attr.user = true) :
    LiveEntry permission t := by
  have hno : ∀ access, granted permission access ≠ true := by
    intro access h
    rw [grantsAny_of_granted h] at hnone
    cases hnone
  exact ⟨huser, fun h => absurd (h.symm.trans hnone) (by decide), fun h => absurd h (hno .read),
    fun h => absurd h (hno .instructionFetch), fun h => absurd h (hno .write)⟩

section Entry

variable {w w' : World} {pick : Pick} {backend : Backend} {area : MMArea} {pfn pfn' : PFN}
  {attr attr' : PageAttribute} {offset : ℕ} {write : Bool}

theorem LiveEntry.handle {i v : ℕ} {r : KResult Unit}
    (h : w.handle pick backend area i v offset write = .ok (r, w'))
    (hlive : LiveEntry area.permission (w.ptes i v)) :
    LiveEntry area.permission (w'.ptes i v) := by
  obtain ⟨-, heq⟩ | ⟨pfn, attr, hattr, heq⟩ := handle_entry h
  · rwa [heq]
  rw [heq]
  refine ⟨fun hb => ?_, fun hg => ?_, fun hp => ?_, fun hp => ?_, fun hp => ?_⟩
  · have hp : attr.present = true := by
      rcases Bool.or_eq_true_iff.mp hb with hp | hm
      · exact hp
      · exact absurd (hattr.mapped.symm.trans hm) Bool.false_ne_true
    have hb' : backed (w.ptes i v) = true := Bool.or_eq_true_iff.mpr (hattr.present.mp hp)
    exact hattr.user.trans (hlive.user hb')
  · have hp := hattr.present.mpr (Bool.or_eq_true_iff.mp (hlive.page hg))
    exact Bool.or_eq_true_iff.mpr (Or.inl hp)
  · exact hattr.read.trans (hlive.read hp)
  · exact hattr.execute.trans (hlive.execute hp)
  · exact (hattr.restored hp (hlive.write hp)).imp_right fun hc => Or.inl hc.2

theorem LiveEntry.accessible {i v : ℕ} {access : Access}
    (hgranted : granted area.permission access = true)
    (h : w.handle pick backend area i v offset (access = .write) = .ok (.ok (), w'))
    (hlive : LiveEntry area.permission (w.ptes i v)) :
    accessible (w'.ptes i v) access = true := by
  obtain ⟨hne, -⟩ | ⟨pfn, attr, hattr, heq⟩ := handle_entry h
  · exact absurd rfl hne
  have hbacked := hlive.page (grantsAny_of_granted hgranted)
  rw [heq]
  unfold World.accessible
  rw [Bool.and_eq_true, Bool.and_eq_true]
  refine ⟨⟨hattr.present.mpr (Bool.or_eq_true_iff.mp hbacked),
    hattr.user.trans (hlive.user hbacked)⟩, ?_⟩
  cases access with
  | read => exact hattr.read.trans (hlive.read hgranted)
  | instructionFetch => exact hattr.execute.trans (hlive.execute hgranted)
  | write =>
    refine (hattr.restored hgranted (hlive.write hgranted)).resolve_right ?_
    rintro ⟨hno, -⟩
    exact absurd hno (by decide)

theorem LiveEntry.fresh (permission : Permission) (mapping : Mapping) (p : PFN) :
    LiveEntry permission ⟨p, freshAttr mapping permission⟩ := by
  cases mapping with
  | anonymous =>
    exact ⟨fun _ => rfl, fun _ => rfl, fun _ => rfl, fun hp => hp, fun _ => Or.inr (Or.inl rfl)⟩
  | file m =>
    exact ⟨fun _ => rfl, fun _ => rfl, fun _ => rfl, fun hp => hp, fun _ => Or.inr (Or.inr rfl)⟩

theorem LiveEntry.protect {permission : Permission} {t : PTE}
    (huser : backed t = true → t.attr.user = true)
    (hbacked : grantsAny permission = true → backed t = true) :
    LiveEntry permission ⟨t.pfn, protectAttr permission t.attr⟩ := by
  unfold protectAttr
  rw [not_grantsAny]
  cases hg : grantsAny permission with
  | false =>
    refine LiveEntry.of_not_granted hg fun hb => huser ?_
    exact Bool.or_eq_true_iff.mpr (Or.inr hb)
  | true =>
    have hb := hbacked hg
    refine ⟨fun _ => huser hb, fun _ => hb, fun hp => hp, fun hp => hp, fun hp => ?_⟩
    dsimp only
    rw [if_neg (by decide)]
    dsimp only
    cases hc : t.attr.copyOnWrite with
    | true => exact Or.inr (Or.inl rfl)
    | false => exact Or.inl hp

section

variable {permission : Permission} {t : PTE} (isShared : Bool) (h : LiveEntry permission t)
include isShared h

theorem LiveEntry.parent : LiveEntry permission (parentEntry isShared t) := by
  unfold parentEntry
  split
  · exact h
  · exact { h with write := fun _ => Or.inr (Or.inl rfl) }

theorem LiveEntry.child : LiveEntry permission (childEntry isShared t) := by
  unfold childEntry
  split
  · exact h
  · split
    · exact { h with write := fun _ => Or.inr (Or.inl rfl) }
    · rename_i hnone
      refine LiveEntry.of_not_granted (Bool.eq_false_iff.mpr fun hg => hnone (h.page hg)) ?_
      exact fun hb => absurd hb (by decide)

end

end Entry

/-! ### Runs -/

def AreasNonempty (w : World) : Prop := ∀ i l, w.lists i = some l → l.areas.Nonempty

theorem AreasNonempty.congr {w w' : World} (h : AreasNonempty w) (hlists : w'.lists = w.lists) :
    AreasNonempty w' := by
  intro i l hl
  rw [hlists] at hl
  exact h i l hl

theorem AreasNonempty.relist {w w' : World} (h : AreasNonempty w) {i : ℕ} {o : Option MMListLocked}
    (hlists : w'.lists = update w.lists i o) (ho : ∀ l ∈ o, l.areas.Nonempty) :
    AreasNonempty w' := by
  intro k m hk
  rw [hlists] at hk
  by_cases hki : k = i
  · subst hki
    rw [update_self] at hk
    exact ho m hk
  · rw [update_of_ne hki] at hk
    exact h k m hk

theorem AreasNonempty.kept {w w' : World} (h : AreasNonempty w) {i : ℕ} {l l' : MMListLocked}
    (hl : w.lists i = some l) (hkept : Kept l l')
    (hlists : w'.lists = update w.lists i (some l')) : AreasNonempty w' := by
  refine h.relist hlists fun m hm => ?_
  cases hm
  exact hkept.nonempty (h i l hl)

theorem AreasNonempty.onAreas {w w' : World} {op : Op} (h : AreasNonempty w)
    (hinv : ∀ i l, w.lists i = some l → LockedInv l) (hop : Contract w op)
    (hareas : op.onAreas = true) (hres : Restorable w op) (hrun : w.run op = .ok w') :
    AreasNonempty w' := by
  cases op with
  | new i =>
    cases hrun
    refine h.relist rfl fun l hl a ha => ?_
    cases hl
    cases ha
  | mmapFixed i addr len mapping permission isShared =>
    obtain rfl | ⟨l, hl, hrun⟩ := onList_cases hrun
    · exact h
    unfold World.mmapFixed at hrun
    obtain ⟨⟨r, l'⟩, hmap, hrun⟩ := bind_eq_ok.mp hrun
    have hkept := mmap_kept (Nat.pos_of_ne_zero hres) hmap
    cases r with
    | error err =>
      cases hrun
      exact h.kept hl hkept rfl
    | ok u =>
      dsimp only at hrun
      rw [new_eq (Nat.le_add_right _ _), ok_bind] at hrun
      cases hrun
      exact h.kept hl hkept (populate_touches w i _ mapping permission).1.setList_lists
  | mmapHint i fuel hint len mapping permission isShared =>
    obtain rfl | ⟨l, hl, hrun⟩ := onList_cases hrun
    · exact h
    unfold World.mmapHint at hrun
    obtain ⟨r, hmap, hrun⟩ := bind_eq_ok.mp hrun
    rcases r with _ | ⟨err | addr, l'⟩
    · cases hrun
      exact h
    · cases hrun
      exact h.kept hl (mmapHint_kept (Nat.pos_of_ne_zero hres) hmap) rfl
    · have hkept := mmapHint_kept (Nat.pos_of_ne_zero hres) hmap
      dsimp only at hrun
      rw [new_eq (Nat.le_add_right _ _), ok_bind] at hrun
      cases hrun
      exact h.kept hl hkept (populate_touches w i _ mapping permission).1.setList_lists
  | unmap i start len =>
    obtain rfl | ⟨l, hl, hrun⟩ := onList_cases hrun
    · exact h
    unfold World.unmap at hrun
    obtain ⟨⟨r, l'⟩, hunmap, hrun⟩ := bind_eq_ok.mp hrun
    have hkept := unmap_kept hunmap
    cases r with
    | error err =>
      cases hrun
      exact h.kept hl hkept rfl
    | ok taken =>
      obtain ⟨w1, hloop, hrun⟩ := bind_eq_ok.mp hrun
      cases hrun
      obtain ⟨htouch, -⟩ := foldlM_entries (g := fun v => v) (e := fun _ => {}) (fun _ => rfl)
        takePage_touches hloop
      exact h.kept hl hkept htouch.setList_lists
  | protect i start len permission =>
    obtain rfl | ⟨l, hl, hrun⟩ := onList_cases hrun
    · exact h
    unfold World.protect at hrun
    obtain ⟨⟨r, mids, l'⟩, hprotect, hrun⟩ := bind_eq_ok.mp hrun
    obtain ⟨w1, hloop, hrun⟩ := bind_eq_ok.mp hrun
    cases hrun
    obtain ⟨htouch, -⟩ := foldlM_entries (g := fun v => v)
      (e := fun t => ⟨t.pfn, protectAttr permission t.attr⟩)
      (fun t => by rw [protectAttr_idem]) protectPte_touches hloop
    exact h.kept hl (protect_kept hprotect) htouch.setList_lists
  | fork i j =>
    obtain rfl | ⟨l, hl, hrun⟩ := onList_cases hrun
    · exact h
    have hforked := newCloned_forked (hinv i l hl).areas (ne_of_lists hl hop) hrun
    refine h.relist hforked.lists fun m hm => ?_
    cases hm
    exact h i l hl
  | drop i =>
    obtain rfl | ⟨l, hl, hrun⟩ := onList_cases hrun
    · exact h
    exact h.relist (dropList_rewrites hrun).lists nofun
  | userFault | kernelFault | readBytes | accessMut | store => cases hareas

/-- The entries of all areas can be resolved, and every page that is found belongs to an area. -/
structure Resolvable (w : World) : Prop where
  entries : Entrywise (fun _ _ a t => LiveEntry a.permission t) w
  nonempty : AreasNonempty w

theorem liveEntry_rules {w : World} {op : Op} (hres : Restorable w op) :
    EntryRules (fun _ _ a t => LiveEntry a.permission t) w op where
  part i v x a t _ hperm hlive := by
    rw [hperm]
    exact hlive
  clone i j _ l _ a _ v _ hlive := ⟨hlive.parent _, hlive.child _⟩
  fresh mapping permission isShared _ _ _ range := LiveEntry.fresh permission mapping _
  protect i start len permission heq l hl a ha v hmask hav hlive x _ hperm := by
    subst heq
    rw [hperm]
    exact LiveEntry.protect hlive.user fun hany => hres hany l hl a ha v hav hmask

theorem Resolvable.handle {w w' : World} {pick : Pick} {backend : Backend} {area : MMArea}
    {i v offset : ℕ} {write : Bool} {r : KResult Unit} (h : Resolvable w)
    (harea : w.OnlyArea i v area)
    (hrun : w.handle pick backend area i v offset write = .ok (r, w')) : Resolvable w' := by
  refine ⟨h.entries.fault (handle_faults hrun) ?_, h.nonempty.congr (handle_faults hrun).lists⟩
  intro l hl a ha hav hlive
  obtain rfl := harea l hl a ha hav
  exact hlive.handle hrun

theorem resolvable_visitSpec (pick : Pick) (backend : Backend) (i : ℕ) (write : Bool) :
    VisitSpec (fun _ => True) pick backend i write Resolvable (fun _ _ _ _ => True) where
  handle harea hs _ := ensures_of_ok fun _ hrun => hs.handle harea hrun
  data _ _ hs := ⟨hs.entries, hs.nonempty⟩
  unmapped _ := trivial
  mono _ _ := trivial
  notManaged := trivial

theorem Resolvable.step {w : World} {op : Op} (h : Resolvable w) (hop : Contract w op)
    (hres : Restorable w op) : Ensures (fun _ => True) Resolvable (w.run op) := by
  cases op with
  | userFault pick backend i addr access =>
    exact ensures_userFault h fun l area hl harea _ => ensures_of_ok fun x hhandle =>
      h.handle (.of_overlappingAddr (h.entries i l hl).1.areas hl harea) hhandle
  | kernelFault pick backend i addr write =>
    exact ensures_kernelFault h fun l area hl harea => ensures_of_ok fun x hhandle =>
      h.handle (.of_overlappingAddr (h.entries i l hl).1.areas hl harea) hhandle
  | readBytes pick backend i fuel start len buffer =>
    exact ensures_readBytes h (resolvable_visitSpec pick backend i false)
      fun l hl => ⟨(h.entries i l hl).1.areas, fun _ _ _ => trivial⟩
  | accessMut pick backend func i fuel start len =>
    exact ensures_accessMut h (resolvable_visitSpec pick backend i true)
      fun l hl => ⟨(h.entries i l hl).1.areas, fun _ _ _ => trivial⟩
  | store i addr byte => exact ⟨h.entries, h.nonempty⟩
  | _ =>
    refine ensures_of_ok fun w' hrun => ⟨?_, ?_⟩
    · exact h.entries.onAreas hop rfl (liveEntry_rules hres) hrun
    · exact h.nonempty.onAreas (fun i l hl => (h.entries i l hl).1) hop rfl hres hrun

theorem resolvable_of_reachable {w : World} (h : (machine Restorable).Reachable w) :
    Resolvable w := by
  refine h.invariant ?_ ?_
  · intro s hs
    refine ⟨fun i l hl => ?_, fun i l hl => ?_⟩
    · rw [hs.lists i] at hl
      cases hl
    · rw [hs.lists i] at hl
      cases hl
  · rintro s t hs ⟨op, ⟨hop, hres⟩, hrun⟩
    exact (hs.step hop hres).of_ok hrun

/-- While all steps meet the condition, a page fault that is handled leaves an entry through which
the access is possible. -/
theorem accessible_of_reachable {w w' : World} (h : (machine Restorable).Reachable w)
    {pick : Pick} {backend : Backend} {i addr : ℕ} {l : MMListLocked} {access : Access}
    (hl : w.lists i = some l)
    (hrun : w.handleUserPageFault pick backend i l addr access = .ok (true, w')) :
    accessible (w'.ptes i (addr / PAGE_SIZE)) access = true := by
  have hinv := resolvable_of_reachable h
  unfold handleUserPageFault at hrun
  split at hrun
  · cases hrun
  rename_i area harea
  split at hrun
  · cases hrun
  rename_i hgranted
  simp only [Bool.not_eq_true', Bool.not_eq_false] at hgranted
  obtain ⟨⟨r, w1⟩, hhandle, hrest⟩ := bind_eq_ok.mp hrun
  cases r with
  | error err => cases hrest
  | ok u =>
    cases hrest
    refine LiveEntry.accessible hgranted hhandle ?_
    -- no area is empty, so that the area found at the address contains its page
    obtain ⟨hmem, hcmp⟩ := OrderedSet.get_eq_some harea
    rw [cmp_point_eq_eq] at hcmp
    have hok := (hinv.entries i l hl).1.areas.ok area hmem
    have hbehind := (hinv.nonempty i l hl).overlappingAddr harea
    exact (hinv.entries i l hl).2 area hmem _ (hok.contains_page ⟨by omega, hbehind⟩)

theorem accessible_after_mmap : ∃ w w' l, (machine Restorable).Reachable w ∧
    w.lists 0 = some l ∧ w.handleUserPageFault twoFrames (fun _ _ => .behindEnd) 0 l 0x10000
      .write = .ok (true, w') ∧ accessible (w'.ptes 0 (0x10000 / PAGE_SIZE)) .write = true := by
  have h0 : (machine Restorable).Reachable boot := .of_init initial_boot
  have h2 := h0.after [.new 0, .mmapFixed 0 0x10000 0x1000 .anonymous ⟨true, true, false⟩ false]
    ⟨⟨rfl, trivial⟩, ⟨⟨by decide, by decide, by decide, trivial⟩, Nat.succ_ne_zero _⟩, trivial⟩
  refine ⟨_, _, _, h2, rfl, rfl, ?_⟩
  exact @accessible_of_reachable _ _ h2 twoFrames (fun _ _ => .behindEnd) 0 0x10000 _ .write rfl rfl

/-- A page that loses its permissions and gets them back cannot be accessed, although the fault is
handled. -/
theorem accessible_violated : ∃ w w' l, (machine fun _ _ => True).Reachable w ∧
    w.lists 0 = some l ∧ w.handleUserPageFault twoFrames (fun _ _ => .behindEnd) 0 l 0x10000
      .write = .ok (true, w') ∧ accessible (w'.ptes 0 (0x10000 / PAGE_SIZE)) .write = false := by
  have h0 : (machine fun _ _ => True).Reachable boot := .of_init initial_boot
  have h4 := h0.after [.new 0, .mmapFixed 0 0x10000 0x1000 .anonymous ⟨true, true, false⟩ false,
    .protect 0 0x10000 0x1000 ⟨false, false, false⟩, .protect 0 0x10000 0x1000 ⟨true, true, false⟩]
    ⟨⟨rfl, trivial⟩, ⟨⟨by decide, by decide, by decide, trivial⟩, trivial⟩,
     ⟨⟨by decide, by decide, by decide⟩, trivial⟩, ⟨⟨by decide, by decide, by decide⟩, trivial⟩,
     trivial⟩
  exact ⟨_, _, _, h4, rfl, rfl, by decide⟩

end World

end Dlutos
