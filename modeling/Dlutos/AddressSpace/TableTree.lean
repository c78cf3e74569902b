import Dlutos.AddressSpace.RawEntry

/-!
# The tree of page tables

The tables below a root table as `pte_iterator.rs` builds them and `page_table.rs` tears them down,
over the words of `RawEntry`.  The word written for a new table is `PageAttribute64.ofTableAttr`,
which keeps neither `USER` nor `ACCESSED`, and so it is not read back as a table of the user: the
teardown stops at the root, and the tables of the walks stay allocated for ever.
-/

namespace Dlutos.Paging

open AddrRange ExceptLoop

/-! ### The paging mode -/

structure PageTableLevel where
  nthBit : ℕ
  len : ℕ

def PageTableLevel.maxIndex (level : PageTableLevel) : ℕ := 1 <<< level.len - 1

def PageTableLevel.pageSize (level : PageTableLevel) : ℕ := 1 <<< level.nthBit

def PageTableLevel.indexOf (level : PageTableLevel) (vaddr : ℕ) : ℕ :=
  vaddr >>> level.nthBit &&& (1 <<< level.len - 1)

def FIRST_LEVEL : PageTableLevel := ⟨39, 9⟩

def LAST_LEVEL : PageTableLevel := ⟨12, 9⟩

def LEVELS : List PageTableLevel := [FIRST_LEVEL, ⟨30, 9⟩, ⟨21, 9⟩, LAST_LEVEL]

inductive TablePanic
  | notTable
  | outOfMemory
  | indexOutOfBounds
  deriving DecidableEq

/-! ### The tables in memory -/

structure Tables where
  entry : PFN → ℕ → PTE64
  root : PFN
  /-- The level of the table that a frame holds; the root tables are of level `0`. -/
  level : PFN → Option ℕ
  allocated : List PFN
  returned : List PFN

namespace Tables

def setEntry (s : Tables) (table : PFN) (i : ℕ) (word : PTE64) : Tables :=
  { s with entry := fun f j => if f = table ∧ j = i then word else s.entry f j }

def placeTable (s : Tables) (page : PFN) (level : Option ℕ) (content : ℕ → PTE64) : Tables :=
  { s with
    entry := fun f => if f = page then content else s.entry f
    level := fun f => if f = page then level else s.level f }

def returnPage (s : Tables) (page : PFN) : Tables := { s with returned := page :: s.returned }

def linkTable (s : Tables) (table : PFN) (i : ℕ) (attr : TableAttribute) (page : PFN) : Tables :=
  { (s.placeTable page ((s.level table).map (· + 1)) fun _ => 0#64).setEntry table i
      (PTE64.set page (PageAttribute64.ofTableAttr attr)) with allocated := page :: s.allocated }

end Tables

abbrev PageAlloc := Tables → Option PFN

/-- The page allocator hands out frames that hold no table, and their numbers fit into an entry. -/
def PageAlloc.Lawful (alloc : PageAlloc) : Prop :=
  ∀ s page, alloc s = some page → s.level page = none ∧ page < 2 ^ 54

def pageTableAttributes : TableAttribute := { present := true, user := true }

/-- `get_page_table`; `K` are the `page_table_attributes` of the iterator. -/
def getPageTable (alloc : PageAlloc) (K : TableAttribute) (s : Tables) (table : PFN) (i : ℕ) :
    Except TablePanic (PFN × Tables) :=
  match (s.entry table i).getAttr.asTableAttr with
  | none => .error .notTable
  | some attr =>
    if attr.present then .ok ((s.entry table i).getPfn, s)
    else
      match alloc s with
      | none => .error .outOfMemory
      | some page => .ok (page, s.linkTable table i K page)

/-! ### The iterator -/

structure PageTableIterator where
  remaining : ℕ
  indicies : ℕ → ℕ
  tables : ℕ → PFN

def parseTable (alloc : PageAlloc) (K : TableAttribute) (st : PageTableIterator × Tables)
    (idx : ℕ) : Except TablePanic (PageTableIterator × Tables) := do
  let (child, s) ← getPageTable alloc K st.2 (st.1.tables idx) (st.1.indicies idx)
  pure ({ st.1 with tables := fun k => if k = idx + 1 then child else st.1.tables k }, s)

def parseTablesStartingFrom (alloc : PageAlloc) (K : TableAttribute) (idxLevel : ℕ)
    (it : PageTableIterator) (s : Tables) : Except TablePanic (PageTableIterator × Tables) :=
  (List.range' idxLevel (LEVELS.length - 1 - idxLevel)).foldlM (parseTable alloc K) (it, s)

def PageTableIterator.start (root : PFN) (range : AddrRange) : PageTableIterator where
  remaining := (Addr.ceil range.stop - Addr.floor range.start) / LAST_LEVEL.pageSize
  indicies := fun i => (LEVELS[i]?.map fun level => level.indexOf (Addr.floor range.start)).getD 0
  tables := fun _ => root

def withLevels (alloc : PageAlloc) (K : TableAttribute) (s : Tables) (range : AddrRange) :
    Except TablePanic (PageTableIterator × Tables) :=
  parseTablesStartingFrom alloc K 0 (.start s.root range) s

/-- The deepest level whose index is not the last one. -/
def idxLevelStartUpdating (it : PageTableIterator) : Option ℕ :=
  (LEVELS.zipIdx.reverse.find? fun (level, i) => it.indicies i != level.maxIndex).map Prod.snd

/-- The indices of the following entry: one more on the level that is counted up, zero below it. -/
def followingIndex (indicies : ℕ → ℕ) (idxLevel k : ℕ) : ℕ :=
  if k = idxLevel then indicies k + 1 else if idxLevel < k then 0 else indicies k

def PageTableIterator.advance (it : PageTableIterator) (idxLevel : ℕ) : PageTableIterator :=
  { it with remaining := it.remaining - 1, indicies := followingIndex it.indicies idxLevel }

/-- `Iterator::next`: the entry, after the tables of the following entry have been looked up. -/
def next (alloc : PageAlloc) (K : TableAttribute) (it : PageTableIterator) (s : Tables) :
    Except TablePanic (Option (PFN × ℕ) × PageTableIterator × Tables) :=
  if it.remaining = 0 then .ok (none, it, s)
  else
    match idxLevelStartUpdating it with
    | none => .error .indexOutOfBounds
    | some idxLevel => do
      let st ← parseTablesStartingFrom alloc K idxLevel (it.advance idxLevel) s
      pure (some (it.tables 3, it.indicies 3), st)

/-- A walk of `iter_user`: the range, and the words that the caller writes to the entries. -/
structure Walk where
  range : AddrRange
  words : List (Option PTE64)

def Tables.visit (s : Tables) (table : PFN) (i : ℕ) : Option PTE64 → Tables
  | none => s
  | some word => s.setEntry table i word

/-- The calls of `next` in a walk. -/
def visitEntries (alloc : PageAlloc) (K : TableAttribute) :
    List (Option PTE64) → PageTableIterator → Tables → Except TablePanic Tables
  | [], _, s => .ok s
  | word :: words, it, s => do
    match ← next alloc K it s with
    | (none, _, s') => .ok s'
    | (some (table, i), it', s') => visitEntries alloc K words it' (s'.visit table i word)

def iterUser (alloc : PageAlloc) (s : Tables) (walk : Walk) : Except TablePanic Tables := do
  let (it, s') ← withLevels alloc pageTableAttributes s walk.range
  visitEntries alloc pageTableAttributes walk.words it s'

/-! ### Creation and teardown -/

def clonedRoot (global : Tables) (i : ℕ) : PTE64 :=
  if i ≤ FIRST_LEVEL.maxIndex / 2 then 0#64 else global.entry global.root i

def cloneIn (alloc : PageAlloc) (global : Tables) : Except TablePanic Tables :=
  match alloc global with
  | none => .error .outOfMemory
  | some page => .ok { global.placeTable page (some 0) (clonedRoot global) with
      root := page, allocated := [], returned := [] }

def isTable (pte : PTE64) : Bool := pte.getAttr.asTableAttr.any fun attr => attr.present

def isUserTable (pte : PTE64) : Bool :=
  pte.getAttr.asTableAttr.any fun attr => attr.present && attr.user

def dropPageTableRecursive : List PageTableLevel → PFN → Tables → Tables
  | [], _, s => s
  | [_], _, s => s
  | level :: next :: levels, table, s =>
    (List.range (level.maxIndex + 1)).foldl (fun s i =>
      let pte := s.entry table i
      let s := s.setEntry table i 0#64
      if isUserTable pte then
        (dropPageTableRecursive (next :: levels) pte.getPfn s).returnPage pte.getPfn
      else s) s

def drop (s : Tables) : Tables := (dropPageTableRecursive LEVELS s.root s).returnPage s.root

/-! ### Words of tables -/

@[simp] theorem isTable_zero : isTable 0#64 = false := by decide

@[simp] theorem isUserTable_zero : isUserTable 0#64 = false := by decide

@[simp] theorem isUserTable_set (page : PFN) (attr : TableAttribute) :
    isUserTable (PTE64.set page (PageAttribute64.ofTableAttr attr)) = false := by
  unfold isUserTable
  rw [PTE64.asTableAttr_set_ofTableAttr]
  simp

theorem getPfn_ofTableAttr {page : PFN} (hfit : page < 2 ^ 54) (attr : TableAttribute) :
    (PTE64.set page (PageAttribute64.ofTableAttr attr)).getPfn = page := by
  refine PTE64.getPfn_set hfit ?_
  obtain ⟨_ | _, _ | _, _ | _, _ | _⟩ := attr <;> decide

/-! ### What the walks keep -/

/-- Entries of a table point to tables of the next level, and no entry of the root is a table of the
user. -/
structure TreeInv (s : Tables) : Prop where
  root : s.level s.root = some 0
  linked : ∀ {f l}, s.level f = some l → l < 3 → ∀ i, isTable (s.entry f i) = true →
    s.level (s.entry f i).getPfn = some (l + 1)
  unowned : ∀ i, isUserTable (s.entry s.root i) = false
  allocated : s.root ∉ s.allocated

/-- What the walks leave alone: the root page, the tables that exist and the pages returned. -/
structure Grows (s s' : Tables) : Prop where
  root : s'.root = s.root
  returned : s'.returned = s.returned
  level : ∀ {f l}, s.level f = some l → s'.level f = some l
  allocated : s.allocated <:+ s'.allocated

theorem Grows.refl (s : Tables) : Grows s s := ⟨rfl, rfl, id, List.suffix_refl _⟩

theorem Grows.trans {s t u : Tables} (h : Grows s t) (h' : Grows t u) : Grows s u :=
  ⟨h'.root.trans h.root, h'.returned.trans h.returned, fun hl => h'.level (h.level hl),
    h.allocated.trans h'.allocated⟩

theorem entry_linkTable (s : Tables) (table : PFN) (i : ℕ) (attr : TableAttribute) (page f : PFN)
    (j : ℕ) : (s.linkTable table i attr page).entry f j =
      if f = table ∧ j = i then PTE64.set page (PageAttribute64.ofTableAttr attr)
      else if f = page then 0#64 else s.entry f j := by
  simp only [Tables.linkTable, Tables.setEntry, Tables.placeTable]
  split
  · rfl
  · split <;> rfl

theorem level_linkTable (s : Tables) (table : PFN) (i : ℕ) (attr : TableAttribute) (page f : PFN) :
    (s.linkTable table i attr page).level f =
      if f = page then (s.level table).map (· + 1) else s.level f := rfl

section Link

variable {s : Tables} {table page : PFN} {l : ℕ} {K : TableAttribute}

theorem Grows.linkTable (hnew : s.level page = none) (i : ℕ) (attr : TableAttribute) :
    Grows s (s.linkTable table i attr page) := by
  refine ⟨rfl, rfl, fun {f l} hl => ?_, List.suffix_cons _ _⟩
  have hne : f ≠ page := by
    rintro rfl
    rw [hnew] at hl
    cases hl
  rw [level_linkTable, if_neg hne]
  exact hl

theorem linked_linkTable (h : ∀ {f k}, s.level f = some k → k < 3 → ∀ i,
      isTable (s.entry f i) = true → s.level (s.entry f i).getPfn = some (k + 1))
    (hl : s.level table = some l) (hnew : s.level page = none) (hfit : page < 2 ^ 54) (i : ℕ)
    {f k : ℕ} (hk : (s.linkTable table i K page).level f = some k) (h3 : k < 3) (j : ℕ)
    (htable : isTable ((s.linkTable table i K page).entry f j) = true) :
    (s.linkTable table i K page).level ((s.linkTable table i K page).entry f j).getPfn =
      some (k + 1) := by
  have hgrows : Grows s (s.linkTable table i K page) := Grows.linkTable hnew i _
  rw [entry_linkTable] at htable ⊢
  by_cases hentry : f = table ∧ j = i
  · obtain ⟨rfl, rfl⟩ := hentry
    have hkl : k = l := Option.some.inj (hk.symm.trans (hgrows.level hl))
    rw [if_pos ⟨rfl, rfl⟩, getPfn_ofTableAttr hfit, level_linkTable, if_pos rfl, hl, hkl]
    rfl
  · rw [if_neg hentry] at htable ⊢
    by_cases hpage : f = page
    · rw [if_pos hpage, isTable_zero] at htable
      cases htable
    · rw [if_neg hpage] at htable ⊢
      rw [level_linkTable, if_neg hpage] at hk
      exact hgrows.level (h hk h3 j htable)

theorem TreeInv.linkTable (h : TreeInv s) (hl : s.level table = some l) (hnew : s.level page = none)
    (hfit : page < 2 ^ 54) (i : ℕ) : TreeInv (s.linkTable table i K page) := by
  have hgrows : Grows s (s.linkTable table i K page) := Grows.linkTable hnew i _
  refine ⟨hgrows.level h.root, fun hk h3 => linked_linkTable h.linked hl hnew hfit i hk h3,
    fun j => ?_, ?_⟩
  · rw [entry_linkTable]
    split
    · exact isUserTable_set _ _
    · split
      · exact isUserTable_zero
      · exact h.unowned j
  · refine List.not_mem_cons_of_ne_of_not_mem ?_ h.allocated
    rintro (heq : s.root = page)
    rw [← heq, h.root] at hnew
    cases hnew

theorem TreeInv.setEntry (h : TreeInv s) (hl : s.level table = some 3) (i : ℕ) (word : PTE64) :
    TreeInv (s.setEntry table i word) := by
  refine ⟨h.root, fun {f k} hk h3 j htable => ?_, fun j => ?_, h.allocated⟩
  · have hne : ¬ (f = table ∧ j = i) := by
      rintro ⟨rfl, -⟩
      have hk3 : k = 3 := Option.some.inj (hk.symm.trans hl)
      omega
    simp only [Tables.setEntry, if_neg hne] at htable ⊢
    exact h.linked hk h3 j htable
  · have hne : ¬ (s.root = table ∧ j = i) := by
      rintro ⟨rfl, -⟩
      rw [h.root] at hl
      cases hl
    simp only [Tables.setEntry, if_neg hne]
    exact h.unowned j

end Link

section Walks

variable {alloc : PageAlloc} {K : TableAttribute} {s s' : Tables} {it it' : PageTableIterator}

theorem getPageTable_cases {table p : PFN} {i : ℕ}
    (h : getPageTable alloc K s table i = .ok (p, s')) :
    (isTable (s.entry table i) = true ∧ p = (s.entry table i).getPfn ∧ s' = s) ∨
      (isTable (s.entry table i) = false ∧ alloc s = some p ∧
        s' = s.linkTable table i K p) := by
  unfold getPageTable at h
  unfold isTable
  split at h
  · cases h
  · rename_i attr hattr
    rw [hattr]
    cases hpresent : attr.present with
    | true =>
      rw [hpresent, if_pos rfl] at h
      cases h
      exact .inl ⟨hpresent, rfl, rfl⟩
    | false =>
      rw [hpresent, if_neg Bool.false_ne_true] at h
      split at h
      · cases h
      · rename_i page hpage
        cases h
        exact .inr ⟨hpresent, hpage, rfl⟩

theorem getPageTable_spec (halloc : alloc.Lawful) (hs : TreeInv s) {table p : PFN} {l i : ℕ}
    (hl : s.level table = some l) (h3 : l < 3) (h : getPageTable alloc K s table i = .ok (p, s')) :
    TreeInv s' ∧ Grows s s' ∧ s'.level p = some (l + 1) := by
  obtain ⟨htable, rfl, rfl⟩ | ⟨-, hpage, rfl⟩ := getPageTable_cases h
  · exact ⟨hs, Grows.refl s', hs.linked hl h3 i htable⟩
  · obtain ⟨hnew, hfit⟩ := halloc s p hpage
    refine ⟨hs.linkTable hl hnew hfit i, Grows.linkTable hnew i _, ?_⟩
    rw [level_linkTable, if_pos rfl, hl]
    rfl

def PathTo (it : PageTableIterator) (s : Tables) (n : ℕ) : Prop :=
  ∀ k ≤ n, s.level (it.tables k) = some k

theorem parseTable_spec (halloc : alloc.Lawful) (hs : TreeInv s) {idx : ℕ} (hidx : idx < 3)
    (hpath : PathTo it s idx) (h : parseTable alloc K (it, s) idx = .ok (it', s')) :
    TreeInv s' ∧ Grows s s' ∧ PathTo it' s' (idx + 1) := by
  obtain ⟨⟨child, t⟩, hget, hret⟩ := bind_eq_ok.mp h
  cases hret
  obtain ⟨hinv, hgrows, hchild⟩ := getPageTable_spec halloc hs (hpath idx le_rfl) hidx hget
  refine ⟨hinv, hgrows, fun k hk => ?_⟩
  dsimp only
  split
  · rename_i heq
    rw [heq]
    exact hchild
  · exact hgrows.level (hpath k (by omega))

theorem parseTables_spec (halloc : alloc.Lawful) {n : ℕ} : ∀ {idx : ℕ} {it : PageTableIterator}
    {s : Tables}, TreeInv s → idx + n ≤ 3 → PathTo it s idx →
    (List.range' idx n).foldlM (parseTable alloc K) (it, s) = .ok (it', s') →
    TreeInv s' ∧ Grows s s' ∧ PathTo it' s' (idx + n) := by
  induction n with
  | zero =>
    intro idx it s hs _ hpath h
    cases h
    exact ⟨hs, Grows.refl s', hpath⟩
  | succ n ih =>
    intro idx it s hs hle hpath h
    rw [List.range'_succ, List.foldlM_cons] at h
    obtain ⟨⟨it1, s1⟩, hstep, hrest⟩ := bind_eq_ok.mp h
    obtain ⟨hs1, hgrows1, hpath1⟩ := parseTable_spec halloc hs (by omega) hpath hstep
    obtain ⟨hs', hgrows', hpath'⟩ := ih hs1 (by omega) hpath1 hrest
    refine ⟨hs', hgrows1.trans hgrows', ?_⟩
    rw [Nat.add_right_comm] at hpath'
    exact hpath'

theorem parseTablesStartingFrom_spec (halloc : alloc.Lawful) (hs : TreeInv s) {idxLevel : ℕ}
    (hidx : idxLevel ≤ 3) (hpath : PathTo it s idxLevel)
    (h : parseTablesStartingFrom alloc K idxLevel it s = .ok (it', s')) :
    TreeInv s' ∧ Grows s s' ∧ PathTo it' s' 3 := by
  have hsum : idxLevel + (LEVELS.length - 1 - idxLevel) = 3 := by
    simp only [LEVELS, List.length_cons, List.length_nil]
    omega
  have hspec := parseTables_spec halloc hs hsum.le hpath h
  rw [hsum] at hspec
  exact hspec

theorem withLevels_spec (halloc : alloc.Lawful) (hs : TreeInv s) {range : AddrRange}
    (h : withLevels alloc K s range = .ok (it, s')) : TreeInv s' ∧ Grows s s' ∧ PathTo it s' 3 := by
  refine parseTablesStartingFrom_spec halloc hs (Nat.zero_le 3) (fun k hk => ?_) h
  obtain rfl := Nat.le_zero.mp hk
  exact hs.root

theorem idxLevelStartUpdating_le {idxLevel : ℕ} (h : idxLevelStartUpdating it = some idxLevel) :
    idxLevel ≤ 3 := by
  obtain ⟨⟨level, i⟩, hfind, rfl⟩ := Option.map_eq_some_iff.mp h
  have hmem := List.mem_of_find?_eq_some hfind
  rw [List.mem_reverse] at hmem
  have hlt := (List.mem_zipIdx hmem).2.1
  simp only [LEVELS, List.length_cons, List.length_nil] at hlt
  dsimp only
  omega

theorem next_spec (halloc : alloc.Lawful) (hs : TreeInv s) (hpath : PathTo it s 3)
    {e : Option (PFN × ℕ)} (h : next alloc K it s = .ok (e, it', s')) :
    TreeInv s' ∧ Grows s s' ∧ PathTo it' s' 3 ∧
      ∀ table i, e = some (table, i) → s'.level table = some 3 := by
  unfold next at h
  split at h
  · cases h
    exact ⟨hs, Grows.refl s, hpath, nofun⟩
  · split at h
    · cases h
    · rename_i idxLevel hidx
      obtain ⟨st, hparse, hret⟩ := bind_eq_ok.mp h
      cases hret
      have hle := idxLevelStartUpdating_le hidx
      have hupper : PathTo (it.advance idxLevel) s idxLevel := fun k hk => hpath k (hk.trans hle)
      obtain ⟨hs', hgrows, hpath'⟩ := parseTablesStartingFrom_spec halloc hs hle hupper hparse
      refine ⟨hs', hgrows, hpath', fun table i he => ?_⟩
      cases he
      exact hgrows.level (hpath 3 le_rfl)

theorem TreeInv.visit (hs : TreeInv s) {table : PFN} (hl : s.level table = some 3) (i : ℕ)
    (word : Option PTE64) : TreeInv (s.visit table i word) ∧ Grows s (s.visit table i word) ∧
      (s.visit table i word).level = s.level := by
  cases word with
  | none => exact ⟨hs, Grows.refl s, rfl⟩
  | some word => exact ⟨hs.setEntry hl i word, ⟨rfl, rfl, id, List.suffix_refl _⟩, rfl⟩

theorem visitEntries_spec (halloc : alloc.Lawful) {words : List (Option PTE64)} :
    ∀ {it : PageTableIterator} {s : Tables}, TreeInv s → PathTo it s 3 →
    visitEntries alloc K words it s = .ok s' → TreeInv s' ∧ Grows s s' := by
  induction words with
  | nil =>
    intro it s hs _ h
    cases h
    exact ⟨hs, Grows.refl s'⟩
  | cons word words ih =>
    intro it s hs hpath h
    obtain ⟨⟨e, it1, s1⟩, hnext, hrest⟩ := bind_eq_ok.mp h
    obtain ⟨hs1, hgrows1, hpath1, hleaf⟩ := next_spec halloc hs hpath hnext
    cases e with
    | none =>
      cases hrest
      exact ⟨hs1, hgrows1⟩
    | some e =>
      obtain ⟨table, i⟩ := e
      obtain ⟨hs2, hgrows2, hlevel⟩ := hs1.visit (hleaf table i rfl) i word
      obtain ⟨hs', hgrows'⟩ := ih hs2 (fun k hk => by rw [hlevel]; exact hpath1 k hk) hrest
      exact ⟨hs', (hgrows1.trans hgrows2).trans hgrows'⟩

theorem iterUser_spec (halloc : alloc.Lawful) (hs : TreeInv s) {walk : Walk}
    (h : iterUser alloc s walk = .ok s') : TreeInv s' ∧ Grows s s' := by
  obtain ⟨⟨it, s1⟩, hlevels, hvisit⟩ := bind_eq_ok.mp h
  obtain ⟨hs1, hgrows1, hpath⟩ := withLevels_spec halloc hs hlevels
  obtain ⟨hs', hgrows'⟩ := visitEntries_spec halloc hs1 hpath hvisit
  exact ⟨hs', hgrows1.trans hgrows'⟩

theorem walks_spec (halloc : alloc.Lawful) {walks : List Walk} : ∀ {s : Tables}, TreeInv s →
    walks.foldlM (iterUser alloc) s = .ok s' → TreeInv s' ∧ Grows s s' := by
  induction walks with
  | nil =>
    intro s hs h
    cases h
    exact ⟨hs, Grows.refl s'⟩
  | cons walk walks ih =>
    intro s hs h
    rw [List.foldlM_cons] at h
    obtain ⟨s1, hwalk, hrest⟩ := bind_eq_ok.mp h
    obtain ⟨hs1, hgrows1⟩ := iterUser_spec halloc hs hwalk
    obtain ⟨hs', hgrows'⟩ := ih hs1 hrest
    exact ⟨hs', hgrows1.trans hgrows'⟩

/-! ### The first walk -/

theorem indexOf_user {vaddr : ℕ} (h : vaddr < USER_SPACE_MEMORY_TOP) :
    FIRST_LEVEL.indexOf vaddr ≤ FIRST_LEVEL.maxIndex / 2 := by
  have hshift : vaddr >>> 39 ≤ 255 := by
    rw [Nat.shiftRight_eq_div_pow]
    unfold USER_SPACE_MEMORY_TOP at h
    omega
  exact Nat.and_le_left.trans hshift

theorem allocated_of_parseTable {idx : ℕ}
    (hnull : isTable (s.entry (it.tables idx) (it.indicies idx)) = false)
    (h : parseTable alloc K (it, s) idx = .ok (it', s')) : s'.allocated ≠ [] := by
  obtain ⟨⟨child, t⟩, hget, hret⟩ := bind_eq_ok.mp h
  cases hret
  obtain ⟨htable, -, -⟩ | ⟨-, -, rfl⟩ := getPageTable_cases hget
  · exact absurd (hnull.symm.trans htable) Bool.false_ne_true
  · exact List.cons_ne_nil _ _

theorem Grows.allocated_ne_nil (h : Grows s s') (hs : s.allocated ≠ []) : s'.allocated ≠ [] := by
  intro hnil
  have hsuffix := h.allocated
  rw [hnil, List.suffix_nil] at hsuffix
  exact hs hsuffix

theorem allocated_of_iterUser (halloc : alloc.Lawful) (hs : TreeInv s)
    (hnull : ∀ i ≤ FIRST_LEVEL.maxIndex / 2, s.entry s.root i = 0#64) {walk : Walk}
    (huser : walk.range.isUser = true) (h : iterUser alloc s walk = .ok s') :
    s'.allocated ≠ [] := by
  obtain ⟨⟨it, s1⟩, hlevels, hvisit⟩ := bind_eq_ok.mp h
  obtain ⟨hs1, -, hpath⟩ := withLevels_spec halloc hs hlevels
  obtain ⟨-, hgrows2⟩ := visitEntries_spec halloc hs1 hpath hvisit
  obtain ⟨⟨it0, s0⟩, hparse, hrest⟩ := bind_eq_ok.mp hlevels
  have hstart : PathTo (.start s.root walk.range) s 0 := by
    intro k hk
    obtain rfl := Nat.le_zero.mp hk
    exact hs.root
  obtain ⟨hs0, -, hpath0⟩ := parseTable_spec halloc hs (by decide) hstart hparse
  obtain ⟨-, hgrows1, -⟩ := parseTables_spec halloc hs0 (by decide) hpath0 hrest
  have hindex := indexOf_user (lt_of_le_of_lt (Addr.floor_le walk.range.start)
    ((isUser_iff _).mp huser).2)
  refine (hgrows1.trans hgrows2).allocated_ne_nil (allocated_of_parseTable ?_ hparse)
  exact (congrArg isTable (hnull _ hindex)).trans isTable_zero

end Walks

/-! ### The teardown -/

theorem cloneIn_spec {alloc : PageAlloc} (halloc : alloc.Lawful) {global s : Tables}
    (hglobal : TreeInv global) (h : cloneIn alloc global = .ok s) :
    TreeInv s ∧ global.level s.root = none ∧ s.allocated = [] ∧ s.returned = [] ∧
      ∀ i ≤ FIRST_LEVEL.maxIndex / 2, s.entry s.root i = 0#64 := by
  unfold cloneIn at h
  split at h
  · cases h
  · rename_i page hpage
    cases h
    have hnew := (halloc global page hpage).1
    have hne : ∀ {f l}, global.level f = some l → f ≠ page := by
      rintro f l hl rfl
      rw [hnew] at hl
      cases hl
    have hentry : ∀ i, isTable (clonedRoot global i) = true →
        global.level (clonedRoot global i).getPfn = some 1 := by
      intro i htable
      unfold clonedRoot at htable ⊢
      split at htable
      · cases htable
      · rename_i hupper
        rw [if_neg hupper]
        exact hglobal.linked hglobal.root (by decide) i htable
    refine ⟨⟨if_pos rfl, fun {f l} hl h3 i htable => ?_, fun i => ?_, List.not_mem_nil⟩,
      hnew, rfl, rfl, fun i hi => ?_⟩
    · dsimp only [Tables.placeTable] at hl htable ⊢
      by_cases hf : f = page
      · rw [if_pos hf] at hl htable ⊢
        cases hl
        rw [if_neg (hne (hentry i htable))]
        exact hentry i htable
      · rw [if_neg hf] at hl htable ⊢
        have hchild := hglobal.linked hl h3 i htable
        rw [if_neg (hne hchild)]
        exact hchild
    · dsimp only [Tables.placeTable]
      rw [if_pos rfl]
      unfold clonedRoot
      split
      · exact isUserTable_zero
      · exact hglobal.unowned i
    · dsimp only [Tables.placeTable]
      rw [if_pos rfl]
      exact if_pos hi

theorem returned_dropPageTableRecursive (levels : List PageTableLevel) {table : PFN} {s : Tables}
    (h : ∀ i, isUserTable (s.entry table i) = false) :
    (dropPageTableRecursive levels table s).returned = s.returned := by
  match levels with
  | [] => rfl
  | [_] => rfl
  | level :: next :: levels =>
    unfold dropPageTableRecursive
    -- Taking an entry keeps the others, and the null entry left behind is no table.
    refine (List.foldlRecOn (motive := fun t : Tables => t.returned = s.returned ∧
      ∀ i, isUserTable (t.entry table i) = false) _ _ ⟨rfl, h⟩ ?_).1
    rintro t ⟨hreturned, hentries⟩ i -
    dsimp only
    rw [if_neg (ne_true_of_eq_false (hentries i))]
    refine ⟨hreturned, fun j => ?_⟩
    dsimp only [Tables.setEntry]
    split
    · exact isUserTable_zero
    · exact hentries j

theorem returned_drop {s : Tables} (hs : TreeInv s) : (drop s).returned = s.root :: s.returned :=
  congrArg (s.root :: ·) (returned_dropPageTableRecursive LEVELS hs.unowned)

/-- Every table that the walks allocated is returned exactly once, and no global table is. -/
structure TornDown (global s : Tables) : Prop where
  returned : ∀ page ∈ s.allocated, (drop s).returned.count page = 1
  shared : ∀ page, global.level page ≠ none → page ∉ (drop s).returned

/-- The teardown is right if and only if there was no walk; the global tables are never returned. -/
theorem tornDown_iff {alloc : PageAlloc} (halloc : alloc.Lawful) {global s₀ s : Tables}
    (hglobal : TreeInv global) (hclone : cloneIn alloc global = .ok s₀) (walks : List Walk)
    (huser : ∀ walk ∈ walks, walk.range.isUser = true)
    (hwalks : walks.foldlM (iterUser alloc) s₀ = .ok s) :
    (TornDown global s ↔ walks = []) ∧
      ∀ page, global.level page ≠ none → page ∉ (drop s).returned := by
  obtain ⟨hs0, hroot, hallocated, hreturned, hnull⟩ := cloneIn_spec halloc hglobal hclone
  obtain ⟨hs, hgrows⟩ := walks_spec halloc hs0 hwalks
  have hdrop : (drop s).returned = [s.root] := by
    rw [returned_drop hs, hgrows.returned, hreturned]
  have hshared : ∀ page, global.level page ≠ none → page ∉ (drop s).returned := by
    rintro page hpage hmem
    rw [hdrop, List.mem_singleton, hgrows.root] at hmem
    exact hpage (hmem ▸ hroot)
  refine ⟨⟨fun htorn => ?_, ?_⟩, hshared⟩
  · cases walks with
    | nil => rfl
    | cons walk walks =>
      rw [List.foldlM_cons] at hwalks
      obtain ⟨s1, hwalk, hrest⟩ := bind_eq_ok.mp hwalks
      have hfirst := allocated_of_iterUser halloc hs0 hnull (huser walk List.mem_cons_self) hwalk
      have hs1 := (iterUser_spec halloc hs0 hwalk).1
      obtain ⟨page, hpage⟩ := List.exists_mem_of_ne_nil _
        ((walks_spec halloc hs1 hrest).2.allocated_ne_nil hfirst)
      have hcount := htorn.returned page hpage
      have hmem : page ∈ (drop s).returned := List.count_pos_iff.mp (by omega)
      rw [hdrop, List.mem_singleton] at hmem
      exact absurd (hmem ▸ hpage) hs.allocated
  · rintro rfl
    cases hwalks
    refine ⟨fun page hpage => ?_, hshared⟩
    rw [hallocated] at hpage
    cases hpage

/-! ### The boot page table -/

def BOOT_PAGE_TABLE (i : ℕ) : PTE64 :=
  if i = 0 then 0x2f#64 else if i = 510 then 0x2f#64
  else if i = 511 then 0x80202#64 <<< 10 ||| 0x21#64 else 0#64

def PT1 (i : ℕ) : PTE64 := if i = 510 then 0x80000#64 <<< 10 ||| 0x2f#64 else 0#64

/-- The global page table as the kernel is booted: `BOOT_PAGE_TABLE` with `PT1` below its last
entry. -/
def bootTables : Tables where
  entry := fun f => if f = 0x80201 then BOOT_PAGE_TABLE else if f = 0x80202 then PT1 else fun _ => 0#64
  root := 0x80201
  level := fun f => if f = 0x80201 then some 0 else if f = 0x80202 then some 1 else none
  allocated := []
  returned := []

theorem getPfn_BOOT_PAGE_TABLE {i : ℕ} (h : isTable (BOOT_PAGE_TABLE i) = true) :
    (BOOT_PAGE_TABLE i).getPfn = 0x80202 := by
  unfold BOOT_PAGE_TABLE at h ⊢
  split_ifs at h ⊢
  · cases h
  · cases h
  · decide
  · cases h

theorem isTable_PT1 (i : ℕ) : isTable (PT1 i) = false := by
  unfold PT1
  split_ifs <;> decide

theorem TreeInv.bootTables : TreeInv bootTables := by
  refine ⟨rfl, fun {f l} hl _ i htable => ?_, fun i => ?_, List.not_mem_nil⟩
  · dsimp only [Paging.bootTables] at hl htable ⊢
    by_cases hroot : f = 0x80201
    · rw [if_pos hroot] at hl htable ⊢
      cases hl
      rw [getPfn_BOOT_PAGE_TABLE htable]
      rfl
    · rw [if_neg hroot] at hl htable
      split_ifs at hl htable
      rw [isTable_PT1] at htable
      cases htable
  · change isUserTable (BOOT_PAGE_TABLE i) = false
    unfold BOOT_PAGE_TABLE
    split_ifs <;> decide

def firstFree : PageAlloc := fun s =>
  [0x90000, 0x90001, 0x90002, 0x90003].find? fun page => s.level page = none

theorem firstFree_lawful : PageAlloc.Lawful firstFree := by
  intro s page h
  have hfree := List.find?_some h
  have hmem := List.mem_of_find?_eq_some h
  refine ⟨of_decide_eq_true hfree, ?_⟩
  simp only [List.mem_cons, List.not_mem_nil, or_false] at hmem
  obtain rfl | rfl | rfl | rfl := hmem <;> decide

theorem tornDown_unused : ∃ s₀, cloneIn firstFree bootTables = .ok s₀ ∧ TornDown bootTables s₀ :=
  ⟨_, rfl, (tornDown_iff firstFree_lawful TreeInv.bootTables rfl [] nofun rfl).1.mpr rfl⟩

/-- The walk of a fault at the first address: the three tables it allocates are not returned. -/
theorem tornDown_violated : ∃ s₀ s, cloneIn firstFree bootTables = .ok s₀ ∧
    iterUser firstFree s₀ ⟨⟨0, 4096, by decide⟩, [none]⟩ = .ok s ∧
    s.allocated = [0x90003, 0x90002, 0x90001] ∧ (drop s).returned = [0x90000] ∧
    ¬ TornDown bootTables s := by
  obtain ⟨s₀, hclone⟩ : ∃ s₀, cloneIn firstFree bootTables = .ok s₀ := ⟨_, rfl⟩
  obtain ⟨s, hwalk, hallocated, hroot⟩ : ∃ s, iterUser firstFree s₀ ⟨⟨0, 4096, by decide⟩, [none]⟩ =
      .ok s ∧ s.allocated = [0x90003, 0x90002, 0x90001] ∧ s.root = 0x90000 := by
    cases hclone
    exact ⟨_, rfl, rfl, rfl⟩
  obtain ⟨hs0, -, -, hreturned, -⟩ := cloneIn_spec firstFree_lawful TreeInv.bootTables hclone
  obtain ⟨hs, hgrows⟩ := iterUser_spec firstFree_lawful hs0 hwalk
  have hdrop : (drop s).returned = [0x90000] := by
    rw [returned_drop hs, hgrows.returned, hreturned, hroot]
  refine ⟨s₀, s, hclone, hwalk, hallocated, hdrop, fun h => ?_⟩
  have hcount := h.returned 0x90003 (by rw [hallocated]; exact List.mem_cons_self)
  rw [hdrop] at hcount
  cases hcount

end Dlutos.Paging
