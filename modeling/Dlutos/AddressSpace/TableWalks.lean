import Dlutos.AddressSpace.TableTree
import Mathlib.Tactic.IntervalCases

/-!
# Iterating over a range and walking page by page

`PageTableIterator` keeps the tables on the way to the current entry and looks up only those below
the index that it counts up.
-/

namespace Dlutos.Paging

open ExceptLoop

/-! ### Walks -/

def vpn (va k : ℕ) : ℕ := va / 2 ^ (39 - 9 * k) % 512

/-- The table of a level on the walk of an address. -/
def tableAt (s : Tables) (va : ℕ) : ℕ → Option PFN
  | 0 => some s.root
  | k + 1 => (tableAt s va k).bind fun table =>
      let pte := s.entry table (vpn va k)
      if isTable pte then some pte.getPfn else none

def leafAt (s : Tables) (va : ℕ) : Option (PFN × ℕ) :=
  (tableAt s va 3).map fun table => (table, vpn va 3)

/-- The word is read as a page. -/
def isLeaf (pte : PTE64) : Bool := pte.getAttr.asTableAttr.isNone

def Walkable (s : Tables) (va : ℕ) : Prop :=
  ∀ k < 3, ∀ table, tableAt s va k = some table → isLeaf (s.entry table (vpn va k)) = false

/-- A page table of four levels in which no table is reached in two ways. -/
structure FourLevel (s : Tables) : Prop where
  root : s.level s.root = some 0
  linked : ∀ {f l}, s.level f = some l → l < 3 → ∀ i, isTable (s.entry f i) = true →
    s.level (s.entry f i).getPfn = some (l + 1)
  unshared : ∀ {va va' k f}, k ≤ 3 → tableAt s va k = some f → tableAt s va' k = some f →
    ∀ j < k, vpn va j = vpn va' j

/-- Tables are only added; no present entry and no entry of the last level changes, and new last
tables are empty. -/
structure Extends (s s' : Tables) : Prop where
  root : s'.root = s.root
  level : ∀ {f l}, s.level f = some l → s'.level f = some l
  entry : ∀ {f l}, s.level f = some l → ∀ i, l = 3 ∨ isLeaf (s.entry f i) = true ∨
    isTable (s.entry f i) = true → s'.entry f i = s.entry f i
  empty : ∀ {f}, s.level f = none → s'.level f = some 3 → ∀ i, s'.entry f i = 0#64

def pages (range : AddrRange) : ℕ := (Addr.ceil range.stop - Addr.floor range.start) / PAGE_SIZE

def pageAddr (range : AddrRange) (i : ℕ) : ℕ := Addr.floor range.start + i * PAGE_SIZE

/-- The calls of `next` until it returns `None`, at most `calls` of them. -/
def collect (alloc : PageAlloc) (K : TableAttribute) :
    ℕ → PageTableIterator → Tables → Except TablePanic (List (PFN × ℕ) × Tables)
  | 0, _, s => .ok ([], s)
  | calls + 1, it, s => do
    match ← next alloc K it s with
    | (none, _, s') => .ok ([], s')
    | (some item, it', s') =>
      let (items, s'') ← collect alloc K calls it' s'
      pure (item :: items, s'')

def iterate (alloc : PageAlloc) (K : TableAttribute) (s : Tables) (range : AddrRange) (calls : ℕ) :
    Except TablePanic (List (PFN × ℕ) × Tables) := do
  let (it, s') ← withLevels alloc K s range
  collect alloc K calls it s'

/-! ### Indices -/

theorem indexOf_eq {level : PageTableLevel} (h : level.len = 9) (va : ℕ) :
    level.indexOf va = va / 2 ^ level.nthBit % 512 := by
  rw [PageTableLevel.indexOf, h, Nat.shiftRight_eq_div_pow]
  exact Nat.and_two_pow_sub_one_eq_mod _ 9

theorem start_indicies (root : PFN) (range : AddrRange) {k : ℕ} (hk : k ≤ 3) :
    (PageTableIterator.start root range).indicies k = vpn (Addr.floor range.start) k := by
  match k, hk with
  | 0, _ | 1, _ | 2, _ | 3, _ => exact indexOf_eq rfl _

theorem idxLevelStartUpdating_eq (it : PageTableIterator) : idxLevelStartUpdating it =
    if it.indicies 3 ≠ 511 then some 3 else if it.indicies 2 ≠ 511 then some 2
    else if it.indicies 1 ≠ 511 then some 1 else if it.indicies 0 ≠ 511 then some 0 else none := by
  have hlevels : LEVELS.zipIdx.reverse =
      [(⟨12, 9⟩, 3), (⟨21, 9⟩, 2), (⟨30, 9⟩, 1), (⟨39, 9⟩, 0)] := rfl
  have hmax : ∀ n, PageTableLevel.maxIndex ⟨n, 9⟩ = 511 := fun _ => rfl
  rw [idxLevelStartUpdating, hlevels]
  simp only [List.find?_cons, List.find?_nil, hmax]
  grind

theorem vpn_page (p : ℕ) {k : ℕ} (hk : k ≤ 3) :
    vpn (p * 4096) k = p / 512 ^ (3 - k) % 512 := by
  have hpow : 2 ^ (39 - 9 * k) = 4096 * 512 ^ (3 - k) := by interval_cases k <;> rfl
  rw [vpn, hpow, Nat.mul_comm p, Nat.mul_div_mul_left _ _ (by decide)]

theorem idxLevelStartUpdating_vpn {it : PageTableIterator} {p : ℕ}
    (hit : ∀ k ≤ 3, it.indicies k = vpn (p * 4096) k) (htop : (p + 1) % 2 ^ 36 ≠ 0) :
    ∃ j ≤ 3, idxLevelStartUpdating it = some j ∧
      (∀ k ≤ 3, followingIndex it.indicies j k = vpn ((p + 1) * 4096) k) ∧
      ∀ k < j, vpn ((p + 1) * 4096) k = vpn (p * 4096) k := by
  have hdigit : ∀ k ≤ 3, it.indicies k = p / 512 ^ (3 - k) % 512 :=
    fun k hk => (hit k hk).trans (vpn_page p hk)
  have h3 := hdigit 3 (by decide)
  have h2 := hdigit 2 (by decide)
  have h1 := hdigit 1 (by decide)
  have h0 := hdigit 0 (by decide)
  have hsome : ∃ j ≤ 3, idxLevelStartUpdating it = some j ∧ it.indicies j ≠ 511 ∧
      ∀ k ≤ 3, j < k → it.indicies k = 511 := by
    rw [idxLevelStartUpdating_eq]
    split_ifs with i3 i2 i1 i0
    · exact ⟨3, le_rfl, rfl, i3, by omega⟩
    · refine ⟨2, by omega, rfl, i2, fun k _ _ => ?_⟩
      interval_cases k
      omega
    · refine ⟨1, by omega, rfl, i1, fun k _ _ => ?_⟩
      interval_cases k <;> omega
    · refine ⟨0, by omega, rfl, i0, fun k _ _ => ?_⟩
      interval_cases k <;> omega
    · omega
  obtain ⟨j, hj, hidx, hne, hmax⟩ := hsome
  have m1 := hmax 1 (by omega)
  have m2 := hmax 2 (by omega)
  have m3 := hmax 3 (by omega)
  refine ⟨j, hj, hidx, fun k hk => ?_, fun k hk => ?_⟩
  · rw [vpn_page _ hk, followingIndex]
    interval_cases j <;> interval_cases k <;> simp <;> omega
  · rw [vpn_page _ (by omega), vpn_page _ (by omega)]
    (interval_cases j <;> interval_cases k) <;> omega
/-! ### New tables -/

section Link

variable {s s' : Tables} {table page : PFN} {va i k l : ℕ} {K : TableAttribute}

@[simp] theorem isLeaf_zero : isLeaf 0#64 = false := by decide

theorem isLeaf_set (page : PFN) (attr : TableAttribute) :
    isLeaf (PTE64.set page (PageAttribute64.ofTableAttr attr)) = false := by
  rw [isLeaf, PTE64.asTableAttr_set_ofTableAttr]
  rfl

theorem isTable_set (page : PFN) {attr : TableAttribute} (h : attr.present = true) :
    isTable (PTE64.set page (PageAttribute64.ofTableAttr attr)) = true := by
  rw [isTable, PTE64.asTableAttr_set_ofTableAttr]
  exact h

variable {f : PFN}

theorem tableAt_succ : tableAt s va (k + 1) = some f ↔
    ∃ t, tableAt s va k = some t ∧ isTable (s.entry t (vpn va k)) = true ∧
      (s.entry t (vpn va k)).getPfn = f := by
  rw [tableAt, Option.bind_eq_some_iff]
  refine exists_congr fun t => and_congr_right fun _ => ?_
  dsimp only
  split_ifs with h <;> simp [h]

theorem level_tableAt (hs : FourLevel s) (hk : k ≤ 3) (h : tableAt s va k = some f) :
    s.level f = some k := by
  induction k generalizing f with
  | zero => exact Option.some.inj h ▸ hs.root
  | succ k ih =>
    obtain ⟨t, ht, htable, rfl⟩ := tableAt_succ.mp h
    exact hs.linked (ih (by omega) ht) (by omega) _ htable

theorem tableAt_extends (hs : FourLevel s) (hext : Extends s s') (hk : k ≤ 3)
    (h : tableAt s va k = some f) : tableAt s' va k = some f := by
  induction k generalizing f with
  | zero => exact (congrArg some hext.root).trans h
  | succ k ih =>
    obtain ⟨t, ht, htable, hpfn⟩ := tableAt_succ.mp h
    have hentry := hext.entry (level_tableAt hs (by omega) ht) (vpn va k) (Or.inr (Or.inr htable))
    exact tableAt_succ.mpr ⟨t, ih (by omega) ht, hentry ▸ htable, hentry ▸ hpfn⟩

/-- What holds between the page tables before and after looking up tables. -/
structure Progress (s s' : Tables) : Prop where
  fourLevel : FourLevel s'
  added : Extends s s'
  walkable : ∀ va, Walkable s va → Walkable s' va

theorem Progress.refl (hs : FourLevel s) : Progress s s :=
  ⟨hs, ⟨rfl, id, fun _ _ _ => rfl, fun h h' => by rw [h] at h'; cases h'⟩, fun _ => id⟩

theorem Progress.trans {s'' : Tables} (h : Progress s s') (h' : Progress s' s'') :
    Progress s s'' := by
  obtain ⟨-, hext, hwalk⟩ := h
  obtain ⟨hs'', hext', hwalk'⟩ := h'
  refine ⟨hs'', ⟨hext'.root.trans hext.root, fun hl => hext'.level (hext.level hl),
    fun {f l} hl i hi => ?_, fun {f} hnone hl i => ?_⟩, fun va hva => hwalk' va (hwalk va hva)⟩
  · have hentry := hext.entry hl i hi
    exact (hext'.entry (hext.level hl) i (hentry ▸ hi)).trans hentry
  · cases hf : s'.level f with
    | none => exact hext'.empty hf hl i
    | some l =>
      have hl3 : l = 3 := Option.some.inj ((hext'.level hf).symm.trans hl)
      rw [hext'.entry hf i (Or.inl hl3)]
      exact hext.empty hnone (hl3 ▸ hf) i

theorem tableAt_linkTable (hs : FourLevel s) (hl : s.level table = some l)
    (hnew : s.level page = none) (hfit : page < 2 ^ 54) (hk : k ≤ 3)
    (h : tableAt (s.linkTable table i K page) va k = some f) :
    tableAt s va k = some f ∨
      f = page ∧ ∃ n, k = n + 1 ∧ tableAt s va n = some table ∧ vpn va n = i := by
  have hne : ∀ {f l}, s.level f = some l → f ≠ page := by
    rintro f l hl rfl
    rw [hnew] at hl
    cases hl
  induction k generalizing f with
  | zero => exact Or.inl h
  | succ k ih =>
    obtain ⟨t, ht, htable, rfl⟩ := tableAt_succ.mp h
    rw [entry_linkTable] at htable ⊢
    rcases ih (by omega) ht with hold | ⟨rfl, -⟩
    · rw [if_neg (hne (level_tableAt hs (by omega) hold))] at htable ⊢
      split_ifs at htable ⊢ with hentry
      · obtain ⟨rfl, hindex⟩ := hentry
        exact Or.inr ⟨getPfn_ofTableAttr hfit K, k, rfl, hold, hindex⟩
      · exact Or.inl (tableAt_succ.mpr ⟨t, hold, htable, rfl⟩)
    · rw [if_neg fun h => hne hl h.1.symm, if_pos rfl, isTable_zero] at htable
      cases htable

theorem progress_linkTable (hs : FourLevel s) (hl : s.level table = some l) (h3 : l < 3)
    (htable : isTable (s.entry table i) = false) (hleaf : isLeaf (s.entry table i) = false)
    (hnew : s.level page = none) (hfit : page < 2 ^ 54) :
    Progress s (s.linkTable table i K page) := by
  have hgrows : Grows s (s.linkTable table i K page) := Grows.linkTable hnew i K
  have hne : ∀ {f l}, s.level f = some l → f ≠ page := by
    rintro f l hl rfl
    rw [hnew] at hl
    cases hl
  refine ⟨⟨hgrows.level hs.root, fun hk h3 => linked_linkTable hs.linked hl hnew hfit i hk h3, ?_⟩,
    ⟨rfl, hgrows.level, fun {f k} hk j hj => ?_, fun {f} hnone hf j => ?_⟩,
    fun va hva k hk t ht => ?_⟩
  · intro va va' k f hk h h'
    rcases tableAt_linkTable hs hl hnew hfit hk h with h | ⟨rfl, n, rfl, h, hi⟩ <;>
      rcases tableAt_linkTable hs hl hnew hfit hk h' with h' | ⟨hpage, n', hn, h', hi'⟩
    · exact hs.unshared hk h h'
    · exact absurd hpage (hne (level_tableAt hs hk h))
    · exact absurd rfl (hne (level_tableAt hs hk h'))
    · cases hn
      intro j hj
      rcases Nat.lt_succ_iff_lt_or_eq.mp hj with hj | rfl
      · exact hs.unshared (by omega) h h' j hj
      · exact hi.trans hi'.symm
  · rw [entry_linkTable, if_neg, if_neg (hne hk)]
    rintro ⟨rfl, rfl⟩
    rw [htable, hleaf] at hj
    obtain rfl := Option.some.inj (hl.symm.trans hk)
    rcases hj with hj | hj | hj <;> first | omega | cases hj
  · rw [level_linkTable] at hf
    split_ifs at hf with hpage
    · rw [entry_linkTable, if_neg, if_pos hpage]
      rintro ⟨rfl, -⟩
      exact hne hl hpage
    · rw [hnone] at hf
      cases hf
  · rw [entry_linkTable]
    split_ifs with hentry hpage
    · exact isLeaf_set _ _
    · exact isLeaf_zero
    · rcases tableAt_linkTable hs hl hnew hfit (by omega) ht with hold | ⟨rfl, -⟩
      · exact hva k hk t hold
      · exact absurd rfl hpage

end Link

/-! ### Looking up the tables of a page -/

section Walks

variable {alloc : PageAlloc} {K : TableAttribute} {s : Tables} {it : PageTableIterator}

abbrev OutOfMemory (e : TablePanic) : Prop := e = .outOfMemory

theorem getPageTable_walk (halloc : alloc.Lawful) (hK : K.present = true) (hs : FourLevel s)
    {va k : ℕ} (hk : k < 3) (hva : Walkable s va) {table : PFN} (ht : tableAt s va k = some table) :
    Ensures OutOfMemory (fun r => Progress s r.2 ∧ tableAt r.2 va (k + 1) = some r.1)
      (getPageTable alloc K s table (vpn va k)) := by
  have hleaf := hva k hk table ht
  have hlevel := level_tableAt hs hk.le ht
  refine ensures_of_forall (fun e he => ?_) fun r hr => ?_
  · unfold getPageTable at he
    split at he
    · rename_i hnone
      rw [isLeaf, hnone] at hleaf
      cases hleaf
    · split_ifs at he
      split at he
      · exact (Except.error.inj he).symm
      · cases he
  · obtain ⟨p, s'⟩ := r
    obtain ⟨htable, rfl, rfl⟩ | ⟨htable, hpage, rfl⟩ := getPageTable_cases hr
    · exact ⟨Progress.refl hs, tableAt_succ.mpr ⟨table, ht, htable, rfl⟩⟩
    · obtain ⟨hnew, hfit⟩ := halloc s p hpage
      have hprog : Progress s (s.linkTable table (vpn va k) K p) :=
        progress_linkTable hs hlevel hk htable hleaf hnew hfit
      refine ⟨hprog, tableAt_succ.mpr ⟨table, tableAt_extends hs hprog.added hk.le ht, ?_⟩⟩
      rw [entry_linkTable, if_pos ⟨rfl, rfl⟩]
      exact ⟨isTable_set p hK, getPfn_ofTableAttr hfit K⟩

def Holds (it : PageTableIterator) (s : Tables) (va n : ℕ) : Prop :=
  ∀ k ≤ n, tableAt s va k = some (it.tables k)

theorem parseTables_walk (halloc : alloc.Lawful) (hK : K.present = true) {va : ℕ} {n : ℕ} :
    ∀ {idx : ℕ} {it : PageTableIterator} {s : Tables}, FourLevel s → Walkable s va →
    idx + n = 3 → Holds it s va idx → (∀ k ≤ 3, it.indicies k = vpn va k) →
    Ensures OutOfMemory (fun st => Progress s st.2 ∧ Holds st.1 st.2 va 3 ∧
      st.1.indicies = it.indicies ∧ st.1.remaining = it.remaining)
      ((List.range' idx n).foldlM (parseTable alloc K) (it, s)) := by
  induction n with
  | zero =>
    intro idx it s hs _ hidx hheld _
    obtain rfl : idx = 3 := hidx
    exact ⟨Progress.refl hs, hheld, rfl, rfl⟩
  | succ n ih =>
    intro idx it s hs hva hidx hheld hindex
    rw [List.range'_succ, List.foldlM_cons, parseTable, hindex idx (by omega), bind_assoc]
    refine (getPageTable_walk halloc hK hs (by omega) hva (hheld idx le_rfl)).bind ?_
    rintro ⟨child, s1⟩ ⟨hprog, hchild⟩
    have hheld1 : Holds { it with tables := fun k => if k = idx + 1 then child else it.tables k } s1
        va (idx + 1) := fun k hk => by
      dsimp only
      split_ifs with heq
      · exact heq ▸ hchild
      · exact tableAt_extends hs hprog.added (by omega) (hheld k (by omega))
    refine (ih hprog.fourLevel (hprog.walkable va hva) (by omega) hheld1 hindex).mono ?_
    rintro ⟨it', s'⟩ ⟨hprog', hheld', hsame⟩
    exact ⟨hprog.trans hprog', hheld', hsame⟩

structure StandsAt (it : PageTableIterator) (s : Tables) (p : ℕ) : Prop where
  holds : Holds it s (p * 4096) 3
  indicies : ∀ k ≤ 3, it.indicies k = vpn (p * 4096) k

theorem next_walk (halloc : alloc.Lawful) (hK : K.present = true) (hs : FourLevel s) {p n : ℕ}
    (hit : StandsAt it s p) (hn : it.remaining = n + 1) (htop : (p + 1) % 2 ^ 36 ≠ 0)
    (hva : Walkable s ((p + 1) * 4096)) :
    Ensures OutOfMemory (fun r => r.1 = leafAt s (p * 4096) ∧ Progress s r.2.2 ∧
      StandsAt r.2.1 r.2.2 (p + 1) ∧ r.2.1.remaining = n) (next alloc K it s) := by
  obtain ⟨j, hj, hlevel, hindex, hsame⟩ := idxLevelStartUpdating_vpn hit.indicies htop
  have hupper : Holds (it.advance j) s ((p + 1) * 4096) j := fun k hk => by
    induction k with
    | zero =>
      have hroot : some s.root = some (it.tables 0) := hit.holds 0 (by omega)
      exact hroot
    | succ k ih =>
      obtain ⟨t, ht, hrest⟩ := tableAt_succ.mp (hit.holds (k + 1) (by omega))
      have htk := Option.some.inj ((hit.holds k (by omega)).symm.trans ht)
      refine tableAt_succ.mpr ⟨t, (ih (by omega)).trans (congrArg some htk), ?_⟩
      rw [hsame k (by omega)]
      exact hrest
  rw [next, if_neg (by omega), hlevel]
  have hsum : j + (LEVELS.length - 1 - j) = 3 := by
    simp only [LEVELS, List.length_cons, List.length_nil]
    omega
  refine (parseTables_walk halloc hK hs hva hsum hupper hindex).bind ?_
  rintro ⟨it', s'⟩ ⟨hprog, hheld, hindicies, hremaining⟩
  refine ⟨?_, hprog, ⟨hheld, fun k hk => by rw [hindicies]; exact hindex k hk⟩, ?_⟩
  · rw [leafAt, hit.holds 3 le_rfl, hit.indicies 3 le_rfl]
    rfl
  · rw [hremaining]
    exact (congrArg (· - 1) hn).trans (by omega)

theorem collect_walk (halloc : alloc.Lawful) (hK : K.present = true) {calls : ℕ} :
    ∀ {p n : ℕ} {it : PageTableIterator} {s : Tables}, FourLevel s → StandsAt it s p →
    it.remaining = n → n ≤ calls → (∀ i < n, (p + i + 1) % 2 ^ 36 ≠ 0) →
    (∀ i ≤ n, Walkable s ((p + i) * 4096)) →
    Ensures OutOfMemory (fun r => Progress s r.2 ∧
      r.1.map some = (List.range n).map fun i => leafAt r.2 ((p + i) * 4096))
      (collect alloc K calls it s) := by
  induction calls with
  | zero =>
    intro p n it s hs _ _ hn _ _
    obtain rfl : n = 0 := by omega
    exact ⟨Progress.refl hs, rfl⟩
  | succ calls ih =>
    intro p n it s hs hit hremaining hn htop hva
    cases n with
    | zero =>
      rw [collect, next, if_pos hremaining]
      exact ⟨Progress.refl hs, rfl⟩
    | succ n =>
      rw [collect]
      refine (next_walk halloc hK hs hit hremaining (htop 0 (by omega)) (hva 1 (by omega))).bind ?_
      rintro ⟨e, it1, s1⟩ ⟨rfl, hprog, hit1, hremaining1⟩
      have htable := hit.holds 3 le_rfl
      rw [leafAt, htable]
      refine (ih hprog.fourLevel hit1 hremaining1 (by omega) (fun i hi => ?_)
        fun i hi => ?_).bind ?_
      · rw [Nat.add_right_comm p 1 i]
        exact htop (i + 1) (by omega)
      · rw [Nat.add_right_comm p 1 i]
        exact hprog.walkable _ (hva (i + 1) (by omega))
      · rintro ⟨items, s'⟩ ⟨hprog', hitems⟩
        refine ⟨hprog.trans hprog', ?_⟩
        have hfirst : leafAt s' ((p + 0) * 4096) = some (it.tables 3, vpn (p * 4096) 3) := by
          rw [leafAt, Nat.add_zero, tableAt_extends hs (hprog.trans hprog').added le_rfl htable]
          rfl
        rw [List.range_succ_eq_map, List.map_cons, List.map_cons, hitems, List.map_map, hfirst]
        refine congrArg _ (List.map_congr_left fun i _ => ?_)
        rw [Function.comp_apply, Nat.succ_eq_add_one, Nat.add_right_comm p 1 i, Nat.add_assoc]

theorem page_eq_of_vpn {p p' : ℕ} (h : ∀ k ≤ 3, vpn (p * 4096) k = vpn (p' * 4096) k) :
    p % 2 ^ 36 = p' % 2 ^ 36 := by
  have hdigit : ∀ k ≤ 3, p / 512 ^ (3 - k) % 512 = p' / 512 ^ (3 - k) % 512 := fun k hk => by
    rw [← vpn_page p hk, h k hk, vpn_page p' hk]
  have h0 := hdigit 0 (by decide)
  have h1 := hdigit 1 (by decide)
  have h2 := hdigit 2 (by decide)
  have h3 := hdigit 3 (by decide)
  omega

theorem leafAt_inj (hs : FourLevel s) {p p' : ℕ} {item : PFN × ℕ}
    (h : leafAt s (p * 4096) = some item) (h' : leafAt s (p' * 4096) = some item) :
    p % 2 ^ 36 = p' % 2 ^ 36 := by
  obtain ⟨t, ht, rfl⟩ := Option.map_eq_some_iff.mp h
  obtain ⟨t', ht', heq⟩ := Option.map_eq_some_iff.mp h'
  obtain ⟨rfl, hlast⟩ := Prod.mk.inj heq
  refine page_eq_of_vpn fun k hk => ?_
  rcases Nat.lt_or_eq_of_le hk with hk | rfl
  · exact hs.unshared le_rfl ht ht' k hk
  · exact hlast.symm

end Walks

/-! ### Whole iterations -/

/-- One entry for each page, in order, which the walk of the page reaches; all are different, and
tables have only been added. -/
structure Iterated (s : Tables) (range : AddrRange) (r : List (PFN × ℕ) × Tables) : Prop where
  count : r.1.length = pages range
  item : ∀ i < pages range, leafAt r.2 (pageAddr range i) = r.1[i]?
  nodup : r.1.Nodup
  added : Extends s r.2

/-- Below the top of the address space and without large pages, the iteration fails only for lack of
memory and returns the entries of the walks. -/
theorem iterate_eq_walks {alloc : PageAlloc} (halloc : alloc.Lawful) {K : TableAttribute}
    (hK : K.present = true) {s : Tables} (hs : FourLevel s) {range : AddrRange}
    (hspace : Addr.floor range.start / 2 ^ 48 = Addr.ceil range.stop / 2 ^ 48)
    (hwalks : ∀ i ≤ pages range, Walkable s (pageAddr range i)) {calls : ℕ}
    (hcalls : pages range ≤ calls) :
    Ensures OutOfMemory (Iterated s range) (iterate alloc K s range calls) := by
  have haddr : ∀ i, pageAddr range i = (range.start / 4096 + i) * 4096 := fun i =>
    (Nat.add_mul _ _ _).symm
  have hfloor : Addr.floor range.start = range.start / 4096 * 4096 := rfl
  obtain ⟨e, hceil⟩ : ∃ e, Addr.ceil range.stop = e * 4096 := ⟨_, rfl⟩
  have hpages : pages range = e - range.start / 4096 := by
    rw [pages, hceil, hfloor, ← Nat.sub_mul]
    exact Nat.mul_div_cancel _ (by decide)
  have htop : ∀ i < pages range, (range.start / 4096 + i + 1) % 2 ^ 36 ≠ 0 := by omega
  simp only [haddr] at hwalks
  have hroot : Holds (.start s.root range) s (range.start / 4096 * 4096) 0 := fun k hk => by
    obtain rfl := Nat.le_zero.mp hk
    rfl
  have hstart := parseTables_walk halloc hK (n := 3) hs (hwalks 0 (Nat.zero_le _)) rfl hroot
    fun k hk => start_indicies s.root range hk
  refine hstart.bind ?_
  rintro ⟨it, s1⟩ ⟨hprog, hheld, hindicies, hcount⟩
  have hremaining : it.remaining = pages range := hcount
  have hit : StandsAt it s1 (range.start / 4096) :=
    ⟨hheld, fun k hk => by rw [hindicies]; exact start_indicies s.root range hk⟩
  refine (collect_walk halloc hK hprog.fourLevel hit hremaining hcalls htop
    fun i hi => hprog.walkable _ (hwalks i hi)).mono ?_
  rintro ⟨items, s'⟩ ⟨hprog', hitems⟩
  have hlength : items.length = pages range := by simpa using congrArg List.length hitems
  have hitem : ∀ i < pages range, leafAt s' ((range.start / 4096 + i) * 4096) = items[i]? := by
    intro i hi
    have hget := congrArg (·[i]?) hitems
    simp only [List.getElem?_map, List.getElem?_range hi] at hget
    obtain ⟨item, hitem, hleaf⟩ := Option.map_eq_some_iff.mp hget
    exact hleaf.symm.trans hitem.symm
  refine ⟨hlength, fun i hi => (haddr i) ▸ hitem i hi, ?_, (hprog.trans hprog').added⟩
  refine List.nodup_iff_getElem?_ne_getElem?.mpr fun i j hij hj heq => ?_
  have hj' : j < pages range := hj.trans_eq hlength
  have hitem' := List.getElem?_eq_getElem hj
  have hpage := leafAt_inj (hprog.trans hprog').fourLevel
    ((hitem i (by omega)).trans (heq.trans hitem')) ((hitem j (by omega)).trans hitem')
  omega

def emptyTables : Tables where
  entry := fun _ _ => 0#64
  root := 1
  level := fun f => if f = 1 then some 0 else none
  allocated := []
  returned := []

theorem fourLevel_emptyTables : FourLevel emptyTables := by
  have hnone : ∀ f i, isTable (emptyTables.entry f i) = false := fun _ _ => isTable_zero
  refine ⟨rfl, fun {f l} _ _ i h => ?_, fun {va va' k f} _ h _ j hj => ?_⟩
  · rw [hnone] at h
    cases h
  · obtain ⟨n, rfl⟩ : ∃ n, k = n + 1 := ⟨k - 1, by omega⟩
    obtain ⟨t, -, htable, -⟩ := tableAt_succ.mp h
    rw [hnone] at htable
    cases htable

def twoPages : AddrRange := ⟨0, 8192, by decide⟩

theorem iterate_two_pages : ∃ r, iterate firstFree pageTableAttributes emptyTables twoPages 3 =
    .ok r ∧ r.1.length = 2 ∧ Iterated emptyTables twoPages r := by
  have hwalks : ∀ i ≤ pages twoPages, Walkable emptyTables (pageAddr twoPages i) :=
    fun _ _ _ _ _ _ => isLeaf_zero
  have hiterated : Ensures OutOfMemory (Iterated emptyTables twoPages)
      (iterate firstFree pageTableAttributes emptyTables twoPages 3) :=
    iterate_eq_walks firstFree_lawful rfl fourLevel_emptyTables (by decide) hwalks (by decide)
  exact ⟨_, rfl, rfl, hiterated.of_ok rfl⟩

end Dlutos.Paging
