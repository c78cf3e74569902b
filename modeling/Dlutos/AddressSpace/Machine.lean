import Dlutos.AddressSpace.Faults

/-!
# The calls on address spaces

The operations of user programs and of the kernel on a family of address spaces, as one step
function on `World`, with the arguments that the system calls pass.  For each call that changes
areas, one lemma says which areas and which entries the new state has.
-/

namespace Dlutos

open Addr AddrRange ExceptLoop Function

namespace World

inductive Op where
  | new (i : ℕ)
  | mmapFixed (i addr len : ℕ) (mapping : Mapping) (permission : Permission) (isShared : Bool)
  | mmapHint (i fuel hint len : ℕ) (mapping : Mapping) (permission : Permission) (isShared : Bool)
  | unmap (i start len : ℕ)
  | protect (i start len : ℕ) (permission : Permission)
  | fork (i j : ℕ)
  /-- The last user of an address space goes away. -/
  | drop (i : ℕ)
  | userFault (pick : Pick) (backend : Backend) (i addr : ℕ) (access : Access)
  | kernelFault (pick : Pick) (backend : Backend) (i addr : ℕ) (write : Bool)
  | readBytes (pick : Pick) (backend : Backend) (i fuel start len : ℕ) (buffer : PageData)
  | accessMut (pick : Pick) (backend : Backend) (func : ℕ → PageData → PageData)
      (i fuel start len : ℕ)
  | store (i addr : ℕ) (byte : UInt8)

/-- The allocator hands out frames that are not in use; the first physical frame is not memory. -/
def Pick.Lawful (pick : Pick) : Prop :=
  ∀ frames p, pick frames = some p → (frames p).refcount = 0 ∧ p ≠ 0

/-- Arguments are aligned and do not overflow, address spaces exist or are new, and stores happen
where the hardware lets them through. -/
def Contract (w : World) : Op → Prop
  | .new i => w.lists i = none
  | .mmapFixed _ addr len mapping _ _ =>
    IsPageAligned addr ∧ IsPageAligned len ∧ addr + len < 2 ^ 64 ∧ mapping.Covers len
  | .mmapHint _ _ hint len mapping _ _ =>
    IsPageAligned hint ∧ IsPageAligned len ∧
      (if hint = 0 then MMListLocked.randomStart else hint) + len < 2 ^ 64 ∧ mapping.Covers len
  | .unmap _ start len => IsPageAligned start ∧ ceil (start + len) < 2 ^ 64
  | .protect _ start len _ => IsPageAligned start ∧ len ≠ 0 ∧ ceil (start + len) < 2 ^ 64
  | .fork _ j => w.lists j = none
  | .drop _ => True
  | .userFault pick _ _ _ _ => Pick.Lawful pick
  | .kernelFault pick _ _ _ _ => Pick.Lawful pick
  | .readBytes pick _ _ _ _ _ _ => Pick.Lawful pick
  | .accessMut pick _ _ _ _ _ _ => Pick.Lawful pick
  | .store i addr _ => storable (w.ptes i (addr / PAGE_SIZE)) = true

def onList (w : World) (i : ℕ) (f : MMListLocked → Except MMPanic World) : Except MMPanic World :=
  match w.lists i with
  | none => .ok w
  | some l => f l

def run (w : World) : Op → Except MMPanic World
  | .new i => .ok { w with
      lists := update w.lists i (some {}),
      ptes := update w.ptes i fun _ => {} }
  | .mmapFixed i addr len mapping permission isShared =>
    w.onList i fun l => w.mmapFixed i l addr len mapping permission isShared
  | .mmapHint i fuel hint len mapping permission isShared =>
    w.onList i fun l => w.mmapHint i l fuel hint len mapping permission isShared
  | .unmap i start len => w.onList i fun l => w.unmap i l start len
  | .protect i start len permission => w.onList i fun l => w.protect i l start len permission
  | .fork i j => w.onList i fun l => w.newCloned i j l
  | .drop i => w.onList i fun l => w.dropList i l
  | .userFault pick backend i addr access => w.onList i fun l => do
    let (_, w) ← w.handleUserPageFault pick backend i l addr access
    pure w
  | .kernelFault pick backend i addr write => w.onList i fun l => do
    let (_, w) ← w.handleKernelPageFault pick backend i l addr write
    pure w
  | .readBytes pick backend i fuel start len buffer => w.onList i fun l => do
    let (w, _) ← w.readBytes pick backend i l fuel start len buffer
    pure w
  | .accessMut pick backend func i fuel start len =>
    w.onList i fun l => w.accessMut pick backend func i l fuel start len
  | .store i addr byte => .ok (w.store i addr byte)

variable {f : MMListLocked → Except MMPanic World}

theorem onList_cases {w w' : World} {i : ℕ} (h : w.onList i f = .ok w') :
    w' = w ∨ ∃ l, w.lists i = some l ∧ f l = .ok w' := by
  unfold onList at h
  split at h
  · cases h
    exact Or.inl rfl
  · rename_i l hl
    exact Or.inr ⟨l, hl, h⟩

/-- The calls that set up and change areas; the other operations access memory. -/
def Op.onAreas : Op → Bool
  | .new _ | .mmapFixed .. | .mmapHint .. | .unmap .. | .protect .. | .fork .. | .drop _ => true
  | _ => false

/-- The arguments of a call that maps an area. -/
def Op.maps : Op → Option (Mapping × Permission × Bool)
  | .mmapFixed _ _ _ mapping permission isShared => some (mapping, permission, isShared)
  | .mmapHint _ _ _ _ mapping permission isShared => some (mapping, permission, isShared)
  | _ => none

/-! ### What the calls on areas do -/

/-- The areas of an address space after a mapping was added. -/
structure Maps (l l' : MMListLocked) (a : MMArea) : Prop where
  inv : LockedInv l'
  mem : ∀ x, x ∈ l'.areas.elems ↔ x = a ∨ x ∈ l.areas.elems
  apart : ∀ b ∈ l.areas.elems, b.Before a ∨ a.Before b

theorem Maps.ok {l l' : MMListLocked} {a : MMArea} (h : Maps l l' a) : AreaOk a :=
  h.inv.areas.ok a ((h.mem a).mpr (Or.inl rfl))

theorem Maps.not_contains {l l' : MMListLocked} {a b : MMArea} (h : Maps l l' a)
    (hb : b ∈ l.areas.elems) {addr : ℕ} (haddr : b.range.Contains addr) :
    ¬ a.range.Contains addr := by
  have hapart := h.apart b hb
  unfold MMArea.Before AddrRange.Before at hapart
  unfold AddrRange.Contains at *
  omega

/-- The areas of an address space after `unmap`, or after `protect` with a permission. -/
structure Cuts (mask : AddrRange) (perm : Option Permission) (mids : List AddrRange)
    (l l' : MMListLocked) : Prop where
  inv : LockedInv l'
  result : Trims mask perm l.areas.elems l'.areas.elems mids

/-- What the two calls do to an entry. -/
def cutEntry (perm : Option Permission) (t : PTE) : PTE :=
  match perm with
  | none => {}
  | some permission => ⟨t.pfn, protectAttr permission t.attr⟩

def cutPte (i : ℕ) : Option Permission → World → ℕ → Except MMPanic World
  | none => takePage i
  | some permission => protectPte i permission

def Op.cut (i start len : ℕ) : Option Permission → Op
  | none => .unmap i start len
  | some permission => .protect i start len permission

section Calls

variable {w w' : World} {i : ℕ} {l : MMListLocked} {mapping : Mapping} {permission : Permission}
  {isShared : Bool}

def MapsInto (w w' : World) (i : ℕ) (l : MMListLocked) (mapping : Mapping)
    (permission : Permission) (isShared : Bool) : Prop :=
  ∃ range l', Maps l l' ⟨range, mapping, permission, isShared⟩ ∧
    w' = (w.populate i range mapping permission).setList i l'

section

variable {addr len : ℕ} (hl : LockedInv l) (haddr : IsPageAligned addr) (hlen : IsPageAligned len)
  (hmapping : mapping.Covers len)
include hl haddr hlen hmapping

theorem locked_mmap_cases {r : KResult Unit} {l' : MMListLocked}
    (h : l.mmap addr len mapping permission isShared = .ok (r, l')) :
    (r = .error .EEXIST ∧ l' = l) ∨ (r = .ok () ∧
      Maps l l' ⟨⟨addr, addr + len, Nat.le_add_right _ _⟩, mapping, permission, isShared⟩) := by
  obtain hrun | ⟨a, areas, hrun, hareas, rfl, hmem, hapart⟩ :=
    hl.areas.mmap permission isShared haddr hlen hmapping
  · rw [hrun] at h
    cases h
    exact Or.inl ⟨rfl, rfl⟩
  · rw [hrun] at h
    cases h
    exact Or.inr ⟨rfl, ⟨hareas, hl.breakPos⟩, hmem, hapart⟩

theorem mmapFixed_cases (h : w.mmapFixed i l addr len mapping permission isShared = .ok w') :
    w' = w.setList i l ∨ MapsInto w w' i l mapping permission isShared := by
  unfold mmapFixed at h
  obtain ⟨⟨r, l'⟩, hrun, hrest⟩ := bind_eq_ok.mp h
  obtain ⟨rfl, rfl⟩ | ⟨rfl, hmaps⟩ := locked_mmap_cases hl haddr hlen hmapping hrun
  · cases hrest
    exact Or.inl rfl
  · dsimp only at hrest
    rw [new_eq (Nat.le_add_right _ _), ok_bind] at hrest
    cases hrest
    exact Or.inr ⟨_, l', hmaps, rfl⟩

end

section

variable {hint len : ℕ} (hl : LockedInv l) (hhint : IsPageAligned hint) (hlen : IsPageAligned len)
  (hmapping : mapping.Covers len)
include hl hhint hlen hmapping

theorem locked_mmapHint_cases {fuel : ℕ} {r : Option (KResult ℕ × MMListLocked)}
    (h : l.mmapHint fuel hint len mapping permission isShared = .ok r) :
    r = none ∨ (∃ err, r = some (.error err, l)) ∨ ∃ addr l', r = some (.ok addr, l') ∧
      Maps l l' ⟨⟨addr, addr + len, Nat.le_add_right _ _⟩, mapping, permission, isShared⟩ := by
  obtain ⟨r', hrun, hr⟩ := mmapHint_spec hl.areas fuel permission isShared hhint hlen hmapping
  cases h.symm.trans hrun
  cases r with
  | none => exact Or.inl rfl
  | some y =>
    obtain ⟨err, rfl⟩ | ⟨addr, haddr, hy, hmap⟩ := hr y rfl
    · exact Or.inr (Or.inl ⟨err, rfl⟩)
    · obtain ⟨herr, -⟩ | ⟨-, hmaps⟩ := locked_mmap_cases hl haddr hlen hmapping hmap
      · cases herr
      · exact Or.inr (Or.inr ⟨addr, y.2, congrArg some (Prod.ext hy rfl), hmaps⟩)

theorem mmapHint_cases {fuel : ℕ}
    (h : w.mmapHint i l fuel hint len mapping permission isShared = .ok w') :
    w' = w ∨ w' = w.setList i l ∨ MapsInto w w' i l mapping permission isShared := by
  unfold mmapHint at h
  obtain ⟨r, hrun, h⟩ := bind_eq_ok.mp h
  obtain rfl | ⟨err, rfl⟩ | ⟨addr, l', rfl, hmaps⟩ :=
    locked_mmapHint_cases hl hhint hlen hmapping hrun
  · cases h
    exact Or.inl rfl
  · cases h
    exact Or.inr (Or.inl rfl)
  · dsimp only at h
    rw [new_eq (Nat.le_add_right _ _), ok_bind] at h
    cases h
    exact Or.inr (Or.inr ⟨_, l', hmaps, rfl⟩)

end

theorem unmap_eq (w : World) (i : ℕ) (hl : LockedInv l) {start : ℕ} (len : ℕ)
    (hstart : IsPageAligned start) :
    w.unmap i l start len = .ok (w.setList i l) ∨
      ∃ taken l', Cuts (maskOf start len) none taken l l' ∧
        w.unmap i l start len = (taken.flatMap pagesOf).foldlM (takePage i) w >>=
          fun w1 => .ok (w1.setList i l') := by
  unfold unmap
  obtain hrun | ⟨areas, taken, hrun, hareas, hres⟩ := hl.areas.unmap len hstart
  · rw [hrun]
    exact Or.inl rfl
  · rw [hrun]
    exact Or.inr ⟨taken, { l with areas := areas }, ⟨⟨hareas, hl.breakPos⟩, hres⟩, rfl⟩

theorem protect_eq (w : World) (i : ℕ) (hl : LockedInv l) {start len : ℕ} (permission : Permission)
    (hstart : IsPageAligned start) (hlen : len ≠ 0) :
    w.protect i l start len permission = .ok (w.setList i l) ∨
      ∃ mids l', Cuts (maskOf start len) (some permission) mids l l' ∧
        w.protect i l start len permission =
          (mids.flatMap pagesOf).foldlM (protectPte i permission) w >>=
            fun w1 => .ok (w1.setList i l') := by
  unfold protect
  obtain hrun | ⟨result, areas, mids, hrun, hareas, hres⟩ := hl.areas.protect permission hstart hlen
  · rw [hrun]
    exact Or.inl rfl
  · rw [hrun]
    exact Or.inr ⟨mids, { l with areas := areas }, ⟨⟨hareas, hl.breakPos⟩, hres⟩, rfl⟩

theorem mem_flatMap_pagesOf {mids : List AddrRange}
    (haligned : ∀ m ∈ mids, IsPageAligned m.start ∧ IsPageAligned m.stop) {v : ℕ} :
    v ∈ mids.flatMap pagesOf ↔ ∃ m ∈ mids, m.Contains (v * PAGE_SIZE) := by
  rw [List.mem_flatMap]
  refine exists_congr fun m => and_congr_right fun hm => ?_
  exact mem_pagesOf_aligned (haligned m hm).1 (haligned m hm).2

/-- The pages of the areas inside of the mask. -/
def PagesIn (mask : AddrRange) (l : MMListLocked) (u : ℕ) : Prop :=
  mask.Contains (u * PAGE_SIZE) ∧ ∃ a ∈ l.areas.elems, a.range.Contains (u * PAGE_SIZE)

section Rewrites

variable {l' : MMListLocked} {mask : AddrRange} {mids : List AddrRange} {w₁ : World}

theorem new_rewrites (w : World) (i : ℕ) : Rewrites i (some {}) (fun _ => True) (fun _ => {}) w
    { w with lists := update w.lists i (some {}), ptes := update w.ptes i fun _ => {} } where
  lists := rfl
  set u _ := congrFun (update_self i _ w.ptes) u
  other k u hne := congrFun (update_of_ne (fun hki => hne ⟨hki, trivial⟩) _ w.ptes) u

theorem populate_rewrites (w : World) (i : ℕ) {range : AddrRange}
    (hmaps : Maps l l' ⟨range, mapping, permission, isShared⟩) :
    Rewrites i (some l') (fun u => range.Contains (u * PAGE_SIZE))
      (fun _ => ⟨w.emptyPage, freshAttr mapping permission⟩) w
      ((w.populate i range mapping permission).setList i l') := by
  obtain ⟨htouch, hset⟩ := populate_touches w i range mapping permission
  exact htouch.rewrites hset (fun _ => hmaps.ok.mem_pagesOf) l'

theorem cutEntry_idem (perm : Option Permission) (t : PTE) :
    cutEntry perm (cutEntry perm t) = cutEntry perm t := by
  cases perm with
  | none => rfl
  | some permission => exact congrArg (PTE.mk t.pfn) (protectAttr_idem permission t.attr)

theorem cutPte_touches {perm : Option Permission} {v : ℕ} (h : cutPte i perm w v = .ok w') :
    Touches i (· = v) w w' ∧ w'.ptes i v = cutEntry perm (w.ptes i v) := by
  cases perm with
  | none => exact takePage_touches h
  | some permission => exact protectPte_touches h

theorem Cuts.rewrites {perm : Option Permission} (h : Cuts mask perm mids l l')
    (hloop : (mids.flatMap pagesOf).foldlM (cutPte i perm) w = .ok w₁) :
    Rewrites i (some l') (PagesIn mask l) (cutEntry perm) w (w₁.setList i l') := by
  obtain ⟨htouch, hset⟩ := foldlM_entries (g := fun v => v) (cutEntry_idem perm) cutPte_touches
    hloop
  refine htouch.rewrites hset (fun u => ?_) l'
  rw [List.map_id', mem_flatMap_pagesOf h.result.aligned, h.result.visited]
  rfl

theorem dropList_rewrites (h : w.dropList i l = .ok w') :
    Rewrites i none (fun _ => True) (fun _ => {}) w w' := by
  unfold dropList at h
  obtain ⟨w1, hloop, hrest⟩ := bind_eq_ok.mp h
  cases hrest
  rw [foldlM_areas dropArea_eq] at hloop
  obtain ⟨htouch, -⟩ := foldlM_entries (g := Prod.snd) (e := fun _ => {}) (fun _ => rfl)
    dropPage_touches hloop
  refine ⟨?_, fun u _ => ?_, fun k u hne => ?_⟩
  · dsimp only
    rw [htouch.lists]
  · exact congrFun (update_self i _ w1.ptes) u
  · refine (congrFun (update_of_ne (fun hki => hne ⟨hki, trivial⟩) _ w1.ptes) u).trans ?_
    exact htouch.ptes k u fun hu => hne ⟨hu.1, trivial⟩

end Rewrites

end Calls

/-! ### A rule for the calls on areas -/

/-- What has to be shown for a call on areas to ensure `P`, one field for each way it can go on. -/
structure AreaCalls (E : MMPanic → Prop) (P : World → Prop) (w : World) (op : Op) : Prop where
  same : P w
  new : ∀ i, op = .new i → P { w with
    lists := update w.lists i (some {}),
    ptes := update w.ptes i fun _ => {} }
  maps : ∀ i l range l' mapping permission isShared,
    op.maps = some (mapping, permission, isShared) → w.lists i = some l →
    Maps l l' ⟨range, mapping, permission, isShared⟩ →
    P ((w.populate i range mapping permission).setList i l')
  unmap : ∀ i start len l taken l', op = .unmap i start len → w.lists i = some l →
    Cuts (maskOf start len) none taken l l' →
    Ensures E (fun w₁ => P (w₁.setList i l')) ((taken.flatMap pagesOf).foldlM (takePage i) w)
  protect : ∀ i start len permission l mids l', op = .protect i start len permission →
    w.lists i = some l → Cuts (maskOf start len) (some permission) mids l l' →
    Ensures E (fun w₁ => P (w₁.setList i l'))
      ((mids.flatMap pagesOf).foldlM (protectPte i permission) w)
  fork : ∀ i j l, op = .fork i j → w.lists i = some l → Ensures E P (w.newCloned i j l)
  drop : ∀ i l, op = .drop i → w.lists i = some l → Ensures E P (w.dropList i l)

section Rule

variable {w : World} {op : Op} {E : MMPanic → Prop} {P : World → Prop}

theorem ensures_onList {i : ℕ} (hsame : P w) (hf : ∀ l, w.lists i = some l → Ensures E P (f l)) :
    Ensures E P (w.onList i f) := by
  unfold onList
  cases hl : w.lists i with
  | none => exact hsame
  | some l => exact hf l hl

section Accesses

variable {pick : Pick} {backend : Backend} {i addr fuel start len : ℕ}
  {C : World → MMArea → ℕ → PTE → Prop} (hsame : P w)

include hsame

theorem ensures_userFault {access : Access}
    (hfault : ∀ l area, w.lists i = some l → l.areas.overlappingAddr addr = some area →
      granted area.permission access = true → Ensures E (fun x => P x.2)
        (w.handle pick backend area i (addr / PAGE_SIZE) (floor addr - area.range.start)
          (access = .write))) :
    Ensures E P (w.run (.userFault pick backend i addr access)) := by
  refine ensures_onList hsame fun l hl => ?_
  refine Ensures.bind (P := fun x => P x.2) ?_ fun ⟨_, _⟩ hx => ensures_pure hx
  unfold handleUserPageFault
  cases harea : l.areas.overlappingAddr addr with
  | none => exact hsame
  | some area =>
    dsimp only
    cases hgranted : granted area.permission access with
    | false => exact hsame
    | true => exact (hfault l area hl harea hgranted).bind fun ⟨_, _⟩ hx => ensures_pure hx

theorem ensures_kernelFault {write : Bool}
    (hfault : ∀ l area, w.lists i = some l → l.areas.overlappingAddr addr = some area →
      Ensures E (fun x => P x.2)
        (w.handle pick backend area i (addr / PAGE_SIZE) (floor addr - area.range.start) write)) :
    Ensures E P (w.run (.kernelFault pick backend i addr write)) := by
  refine ensures_onList hsame fun l hl => ?_
  refine Ensures.bind (P := fun x => P x.2) ?_ fun ⟨_, _⟩ hx => ensures_pure hx
  unfold handleKernelPageFault
  cases harea : l.areas.overlappingAddr addr with
  | none => exact hsame
  | some area => exact (hfault l area hl harea).bind fun ⟨_, _⟩ hx => ensures_pure hx

theorem ensures_readBytes {buffer : PageData} (rule : VisitSpec E pick backend i false P C)
    (hvisit : ∀ l, w.lists i = some l →
      AreasInv l.areas ∧ ∀ a v, Visits l start len a v → C w a v (w.ptes i v)) :
    Ensures E P (w.run (.readBytes pick backend i fuel start len buffer)) := by
  refine ensures_onList hsame fun l hl => ?_
  obtain ⟨hareas, hpages⟩ := hvisit l hl
  exact (rule.readBytes hareas ⟨hl, hsame, hpages⟩).bind fun ⟨_, _⟩ hx => ensures_pure hx

theorem ensures_accessMut {func : ℕ → PageData → PageData}
    (rule : VisitSpec E pick backend i true P C)
    (hvisit : ∀ l, w.lists i = some l →
      AreasInv l.areas ∧ ∀ a v, Visits l start len a v → C w a v (w.ptes i v)) :
    Ensures E P (w.run (.accessMut pick backend func i fuel start len)) := by
  refine ensures_onList hsame fun l hl => ?_
  obtain ⟨hareas, hpages⟩ := hvisit l hl
  exact rule.accessMut hareas ⟨hl, hsame, hpages⟩

end Accesses

section Map

variable {i : ℕ} {l : MMListLocked} (hl : LockedInv l) {mapping : Mapping} {permission : Permission}
  {isShared : Bool} (hlist : w.lists i = some l) (hsame : P w)
include hl hlist hsame

theorem ensures_mmapFixed {addr len : ℕ} (haddr : IsPageAligned addr)
    (hlen : IsPageAligned len) (hmapping : mapping.Covers len)
    (hmaps : ∀ w', MapsInto w w' i l mapping permission isShared → P w') :
    Ensures E P (w.mmapFixed i l addr len mapping permission isShared) := by
  refine ensures_of_forall (fun e he => ?_) fun w' hrun => ?_
  · obtain ⟨⟨r, l'⟩, hrun, -⟩ := hl.mmap permission isShared haddr hlen hmapping
    unfold World.mmapFixed at he
    rw [hrun, ok_bind, new_eq (Nat.le_add_right _ _)] at he
    cases r with
    | error err => cases he
    | ok u => cases he
  · obtain rfl | hinto := mmapFixed_cases hl haddr hlen hmapping hrun
    · exact (setList_self hlist).symm ▸ hsame
    · exact hmaps w' hinto

theorem ensures_mmapHint {fuel hint len : ℕ} (hhint : IsPageAligned hint)
    (hlen : IsPageAligned len) (hmapping : mapping.Covers len)
    (hmaps : ∀ w', MapsInto w w' i l mapping permission isShared → P w') :
    Ensures E P (w.mmapHint i l fuel hint len mapping permission isShared) := by
  refine ensures_of_forall (fun e he => ?_) fun w' hrun => ?_
  · obtain ⟨r, hrun, -⟩ := hl.mmapHint fuel permission isShared hhint hlen hmapping
    unfold World.mmapHint at he
    rw [hrun, ok_bind] at he
    rcases r with _ | ⟨err | addr, l'⟩
    · cases he
    · cases he
    · dsimp only at he
      rw [new_eq (Nat.le_add_right _ _)] at he
      cases he
  · obtain rfl | rfl | hinto := mmapHint_cases hl hhint hlen hmapping hrun
    · exact hsame
    · exact (setList_self hlist).symm ▸ hsame
    · exact hmaps w' hinto

end Map

theorem AreaCalls.run (h : AreaCalls E P w op) (hinv : ∀ i l, w.lists i = some l → LockedInv l)
    (hop : Contract w op) (hareas : op.onAreas = true) : Ensures E P (w.run op) := by
  cases op with
  | new i => exact h.new i rfl
  | mmapFixed i addr len mapping permission isShared =>
    obtain ⟨haddr, hlen, -, hmapping⟩ := hop
    refine ensures_onList h.same fun l hl => ?_
    refine ensures_mmapFixed (hinv i l hl) hl h.same haddr hlen hmapping ?_
    rintro w' ⟨range, l', hmaps, rfl⟩
    exact h.maps i l range l' mapping permission isShared rfl hl hmaps
  | mmapHint i fuel hint len mapping permission isShared =>
    obtain ⟨hhint, hlen, -, hmapping⟩ := hop
    refine ensures_onList h.same fun l hl => ?_
    refine ensures_mmapHint (hinv i l hl) hl h.same hhint hlen hmapping ?_
    rintro w' ⟨range, l', hmaps, rfl⟩
    exact h.maps i l range l' mapping permission isShared rfl hl hmaps
  | unmap i start len =>
    refine ensures_onList h.same fun l hl => ?_
    obtain hrun | ⟨taken, l', hunmaps, hrun⟩ := unmap_eq w i (hinv i l hl) len hop.1
    · rw [hrun, setList_self hl]
      exact h.same
    · rw [hrun]
      exact (h.unmap i start len l taken l' rfl hl hunmaps).bind fun w1 hw1 => hw1
  | protect i start len permission =>
    refine ensures_onList h.same fun l hl => ?_
    obtain hrun | ⟨mids, l', hprotects, hrun⟩ :=
      protect_eq w i (hinv i l hl) permission hop.1 hop.2.1
    · rw [hrun, setList_self hl]
      exact h.same
    · rw [hrun]
      exact (h.protect i start len permission l mids l' rfl hl hprotects).bind fun w1 hw1 => hw1
  | fork i j => exact ensures_onList h.same fun l hl => h.fork i j l rfl hl
  | drop i => exact ensures_onList h.same fun l hl => h.drop i l rfl hl
  | userFault | kernelFault | readBytes | accessMut | store => cases hareas

theorem ensures_newCloned {I : World → Prop} {i j : ℕ} {l : MMListLocked}
    (hcow : ∀ a ∈ l.areas.elems, a.isShared = false → ∀ v ∈ pagesOf a.range, ∀ b, I b →
      Ensures E I (setCopyOnWrite i j b v))
    (hcopied : ∀ a ∈ l.areas.elems, a.isShared = true → ∀ v ∈ pagesOf a.range, ∀ b, I b →
      Ensures E I (setCopied i j b v))
    (h : I { w with ptes := update w.ptes j fun _ => {} }) (hend : ∀ b, I b → P (b.setList j l)) :
    Ensures E P (w.newCloned i j l) := by
  unfold newCloned
  refine (ensures_foldlM_mem (I := I) (fun a ha b hb => ?_) h).bind hend
  unfold cloneArea
  cases hs : a.isShared with
  | false => exact ensures_foldlM_mem (hcow a ha hs) hb
  | true => exact ensures_foldlM_mem (hcopied a ha hs) hb

theorem ensures_dropList {I : World → Prop} {i : ℕ} {l : MMListLocked}
    (htake : ∀ v b, I b → Ensures E I (takePage i b v))
    (hshared : ∀ v b, I b → Ensures E I (takeShared i b v)) (h : I w)
    (hend : ∀ b, I b → P { b with lists := update b.lists i none,
                                  ptes := update b.ptes i fun _ => {} }) :
    Ensures E P (w.dropList i l) := by
  unfold dropList
  refine (ensures_foldlM_mem (I := I) (fun a _ b hb => ?_) h).bind hend
  unfold dropArea
  split
  · exact ensures_foldlM_mem (fun v _ => hshared v) hb
  · exact ensures_foldlM_mem (fun v _ => htake v) hb

/-- What has to be shown for `P` to hold after a call on areas, in terms of the new page tables. -/
structure TableCalls (P : World → Prop) (w : World) (op : Op) : Prop where
  same : P w
  clear : ∀ i o w', (∀ l ∈ o, l = {}) → Rewrites i o (fun _ => True) (fun _ => {}) w w' → P w'
  maps : ∀ i l l' range mapping permission isShared w',
    op.maps = some (mapping, permission, isShared) → w.lists i = some l →
    Maps l l' ⟨range, mapping, permission, isShared⟩ →
    Rewrites i (some l') (fun u => range.Contains (u * PAGE_SIZE))
      (fun _ => ⟨w.emptyPage, freshAttr mapping permission⟩) w w' → P w'
  cut : ∀ i start len perm l mids l' w', op = .cut i start len perm → w.lists i = some l →
    Cuts (maskOf start len) perm mids l l' →
    Rewrites i (some l') (PagesIn (maskOf start len) l) (cutEntry perm) w w' → P w'
  fork : ∀ i j l w', op = .fork i j → w.lists i = some l → LockedInv l → i ≠ j →
    Forked i j l w w' → P w'

theorem TableCalls.run {w' : World} (h : TableCalls P w op)
    (hinv : ∀ i l, w.lists i = some l → LockedInv l) (hop : Contract w op)
    (hareas : op.onAreas = true) (hrun : w.run op = .ok w') : P w' := by
  have hcalls : AreaCalls (fun _ => True) P w op :=
    { same := h.same
      new := fun i _ => h.clear i (some {}) _ (fun l hl => (Option.some.inj hl).symm)
        (new_rewrites w i)
      maps := fun i l range l' mapping permission isShared hop hl hmaps =>
        h.maps i l l' range mapping permission isShared _ hop hl hmaps
          (populate_rewrites w i hmaps)
      unmap := fun i start len l taken l' hop hl hcuts => ensures_of_ok fun w1 hloop =>
        h.cut i start len none l taken l' _ hop hl hcuts (hcuts.rewrites hloop)
      protect := fun i start len permission l mids l' hop hl hcuts => ensures_of_ok fun w1 hloop =>
        h.cut i start len (some permission) l mids l' _ hop hl hcuts (hcuts.rewrites hloop)
      fork := by
        rintro i j l rfl hl
        have hij := ne_of_lists hl hop
        exact ensures_of_ok fun w1 hclone => h.fork i j l w1 rfl hl (hinv i l hl) hij
          (newCloned_forked (hinv i l hl).areas hij hclone)
      drop := fun i l _ _ => ensures_of_ok fun w1 hdrop =>
        h.clear i none w1 nofun (dropList_rewrites hdrop) }
  exact (hcalls.run hinv hop hareas).of_ok hrun

/-! ### A rule for changes of single entries -/

/-- A property that is kept by all changes that the calls on areas are made of. -/
structure EntrySteps (P : World → Prop) : Prop where
  setList : ∀ {w i l}, P w → P (w.setList i l)
  clearTable : ∀ {w : World} {i : ℕ} (lists), P w →
    P { w with lists := lists, ptes := update w.ptes i fun _ => {} }
  clearPte : ∀ {w i v}, P w → P (w.setPte i v {})
  /-- The reference of an entry is dropped with it. -/
  drop : ∀ {w i v} {f : PhysFrame → PhysFrame}, P w →
    (∀ x, (f x).data = x.data ∧ (f x).refcount = x.refcount - 1) →
    P ((w.setPte i v {}).updateFrame (w.ptes i v).pfn f)
  setAttr : ∀ {w i v} (attr), P w → P (w.setPte i v ⟨(w.ptes i v).pfn, attr⟩)
  point : ∀ {w i v p} (attr), P w → p ≠ 0 ∨ p = w.emptyPage →
    P ((w.cloneRef p).setPte i v ⟨p, attr⟩)

namespace EntrySteps

variable (steps : EntrySteps P) {w' : World} {i j v : ℕ} (h : P w)
include steps h

theorem takePage (hrun : takePage i w v = .ok w') : P w' := by
  unfold World.takePage at hrun
  dsimp only at hrun
  split at hrun
  · cases hrun
    exact steps.clearPte h
  · split at hrun
    · obtain ⟨_, -, hrest⟩ := bind_eq_ok.mp hrun
      rw [dropRef_eq hrest]
      exact steps.drop h fun _ => ⟨rfl, rfl⟩
    · cases hrun
      exact steps.clearPte h

theorem takeShared (hrun : takeShared i w v = .ok w') : P w' := by
  unfold World.takeShared at hrun
  dsimp only at hrun
  split at hrun
  · cases hrun
    exact steps.clearPte h
  · split at hrun
    · cases hrun
      exact steps.drop h fun _ => ⟨rfl, rfl⟩
    · cases hrun
      exact steps.clearPte h

theorem protectPte {permission : Permission} (hrun : protectPte i permission w v = .ok w') :
    P w' := by
  unfold World.protectPte at hrun
  dsimp only at hrun
  split at hrun
  · cases hrun
  · cases hrun
    exact steps.setAttr _ h

theorem setCopyOnWrite (hij : i ≠ j) (hrun : setCopyOnWrite i j w v = .ok w') : P w' := by
  unfold World.setCopyOnWrite at hrun
  dsimp only at hrun
  split at hrun
  · cases hrun
  · split at hrun
    · cases hrun
      exact h
    · rename_i attr _ _
      obtain ⟨_, hraw, hrest⟩ := bind_eq_ok.mp hrun
      cases hrest
      have hpoint := steps.point (i := j) (v := v)
        { attr with write := false, dirty := false, copyOnWrite := true, accessed := false } h
        (Or.inl (of_assertOr hraw))
      have hattr := steps.setAttr (i := i) (v := v)
        { attr with write := false, dirty := false, copyOnWrite := true } hpoint
      rwa [setPte_ptes_of_table_ne hij] at hattr

theorem setCopied (hrun : setCopied i j w v = .ok w') : P w' := by
  unfold World.setCopied at hrun
  obtain ⟨_, hraw, hrest⟩ := bind_eq_ok.mp hrun
  cases hrest
  exact steps.point _ h (Or.inl (of_assertOr hraw))

theorem populate (range : AddrRange) (mapping : Mapping) (permission : Permission) :
    P (w.populate i range mapping permission) := by
  -- every page takes a reference to the empty page
  have hloop : ∀ {f : World → ℕ → World}, (∀ {w v}, P w → P (f w v)) →
      ∀ (pages : List ℕ) {w : World}, P w → P (pages.foldl f w) := by
    intro f hf pages
    induction pages with
    | nil => exact fun hw => hw
    | cons v pages ih => exact fun hw => ih (hf hw)
  unfold World.populate
  cases mapping with
  | anonymous => exact hloop (fun hw => steps.point _ hw (Or.inr rfl)) _ h
  | file m => exact hloop (fun hw => steps.point _ hw (Or.inr rfl)) _ h

theorem run (hinv : ∀ i l, w.lists i = some l → LockedInv l) (hop : Contract w op)
    (hareas : op.onAreas = true) (hrun : w.run op = .ok w') : P w' := by
  have hcalls : AreaCalls (fun _ => True) P w op :=
    { same := h
      new := fun i _ => steps.clearTable _ h
      maps := fun i l range l' mapping permission _ _ _ _ =>
        steps.setList (steps.populate h range mapping permission)
      unmap := fun i start len l taken l' _ _ _ =>
        (ensures_foldlM_mem (fun v _ b hb => ensures_of_ok fun _ => steps.takePage hb) h).mono
          fun _ => steps.setList
      protect := fun i start len permission l mids l' _ _ _ =>
        (ensures_foldlM_mem (fun v _ b hb => ensures_of_ok fun _ => steps.protectPte hb) h).mono
          fun _ => steps.setList
      fork := by
        rintro i j l rfl hl
        exact ensures_newCloned
          (fun _ _ _ v _ b hb => ensures_of_ok fun _ =>
            steps.setCopyOnWrite hb (ne_of_lists hl hop))
          (fun _ _ _ v _ b hb => ensures_of_ok fun _ => steps.setCopied hb)
          (steps.clearTable w.lists h) fun _ => steps.setList
      drop := fun i l _ _ => ensures_dropList
        (fun v b hb => ensures_of_ok fun _ => steps.takePage hb)
        (fun v b hb => ensures_of_ok fun _ => steps.takeShared hb) h
        fun _ => steps.clearTable _ }
  exact (hcalls.run hinv hop hareas).of_ok hrun

end EntrySteps

end Rule

end World

end Dlutos
