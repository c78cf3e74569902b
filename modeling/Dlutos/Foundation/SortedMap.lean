import Mathlib.Algebra.Order.Ring.Nat
import Mathlib.Data.List.Basic

/-!
# Ordered maps as sorted association lists

A `SortedMap` carries the proof that its keys are strictly increasing.  `get_insert`, `get_erase`
and `get_map` say what a lookup returns after each operation; `mem_entries` connects the traversal
with the lookups.  A cursor is a key: `first` and `next` move it, and `above` counts how many
entries it has still to pass.
-/

/-- A finite map, as the list of its entries in increasing order of the keys. -/
structure SortedMap (κ ν : Type*) [LinearOrder κ] where
  entries : List (κ × ν)
  sorted : entries.Pairwise fun a b => a.1 < b.1

namespace SortedMap

variable {κ ν : Type*} [LinearOrder κ]

def empty : SortedMap κ ν := ⟨[], List.Pairwise.nil⟩

/-- The value of the first entry with the key. -/
def find (k : κ) : List (κ × ν) → Option ν
  | [] => none
  | e :: rest => if e.1 = k then some e.2 else find k rest

/-- The value stored under a key. -/
def get (m : SortedMap κ ν) (k : κ) : Option ν := find k m.entries

/-- Put an entry in its place, over an entry with the same key. -/
def place (k : κ) (v : ν) : List (κ × ν) → List (κ × ν)
  | [] => [(k, v)]
  | e :: rest =>
    if k < e.1 then (k, v) :: e :: rest
    else if e.1 < k then e :: place k v rest
    else (k, v) :: rest

variable {k : κ} {v : ν} {l : List (κ × ν)}

theorem mem_place {e : κ × ν} (h : e ∈ place k v l) :
    e = (k, v) ∨ e ∈ l := by
  induction l with
  | nil => exact Or.inl (List.mem_singleton.mp h)
  | cons a rest ih =>
    unfold place at h
    split at h
    · exact List.mem_cons.mp h
    · split at h
      · rcases List.mem_cons.mp h with rfl | h
        · exact Or.inr List.mem_cons_self
        · exact (ih h).imp id (List.mem_cons_of_mem a)
      · rcases List.mem_cons.mp h with rfl | h
        · exact Or.inl rfl
        · exact Or.inr (List.mem_cons_of_mem a h)

theorem sorted_place (k : κ) (v : ν) (hl : l.Pairwise fun a b => a.1 < b.1) :
    (place k v l).Pairwise fun a b => a.1 < b.1 := by
  induction l with
  | nil => exact List.pairwise_singleton _ _
  | cons a rest ih =>
    obtain ⟨ha, hrest⟩ := List.pairwise_cons.mp hl
    unfold place
    split
    · next hk =>
      refine List.pairwise_cons.mpr ⟨fun e he => ?_, hl⟩
      rcases List.mem_cons.mp he with rfl | he
      · exact hk
      · exact lt_trans hk (ha e he)
    · next hk =>
      split
      · next hlt =>
        refine List.pairwise_cons.mpr ⟨fun e he => ?_, ih hrest⟩
        rcases mem_place he with rfl | he
        · exact hlt
        · exact ha e he
      · next hge =>
        have hkey : k = a.1 := le_antisymm (not_lt.mp hge) (not_lt.mp hk)
        exact List.pairwise_cons.mpr ⟨fun e he => hkey ▸ ha e he, hrest⟩

/-- Insert an entry, over an entry with the same key. -/
def insert (m : SortedMap κ ν) (k : κ) (v : ν) : SortedMap κ ν :=
  ⟨place k v m.entries, sorted_place k v m.sorted⟩

/-- Remove the entry of a key. -/
def erase (m : SortedMap κ ν) (k : κ) : SortedMap κ ν :=
  ⟨m.entries.filter fun e => e.1 ≠ k, m.sorted.filter _⟩

/-- Apply a function to every value. -/
def map (m : SortedMap κ ν) (f : ν → ν) : SortedMap κ ν :=
  ⟨m.entries.map fun e => (e.1, f e.2), m.sorted.map _ fun _ _ h => h⟩

@[simp] theorem get_empty (k : κ) : (empty : SortedMap κ ν).get k = none := rfl

theorem find_eq_none_of_lt (h : ∀ e ∈ l, k < e.1) : find k l = none := by
  induction l with
  | nil => rfl
  | cons a rest ih =>
    have hne : a.1 ≠ k := ne_of_gt (h a List.mem_cons_self)
    rw [find, if_neg hne]
    exact ih fun e he => h e (List.mem_cons_of_mem a he)

theorem find_place (k k' : κ) (v : ν) (l : List (κ × ν)) :
    find k' (place k v l) = if k' = k then some v else find k' l := by
  induction l with
  | nil => simp only [place, find, eq_comm]
  | cons a rest ih =>
    unfold place
    split
    · simp only [find, eq_comm (a := k)]
    · next hk =>
      split
      · next hlt =>
        rw [find, ih, find]
        split
        · next ha => rw [if_neg (ha ▸ ne_of_lt hlt)]
        · rfl
      · next hge =>
        have hkey : k = a.1 := le_antisymm (not_lt.mp hge) (not_lt.mp hk)
        simp only [find, eq_comm (a := k), ← hkey]
        split <;> rfl

@[simp] theorem get_insert (m : SortedMap κ ν) (k k' : κ) (v : ν) :
    (m.insert k v).get k' = if k' = k then some v else m.get k' := find_place k k' v m.entries

@[simp] theorem get_erase (m : SortedMap κ ν) (k k' : κ) :
    (m.erase k).get k' = if k' = k then none else m.get k' := by
  show find k' (m.entries.filter fun e => e.1 ≠ k) = if k' = k then none else find k' m.entries
  induction m.entries with
  | nil => simp only [List.filter_nil, find, ite_self]
  | cons a rest ih =>
    by_cases ha : a.1 = k
    · rw [List.filter_cons_of_neg (by simpa using ha), ih]
      split
      · rfl
      · next hk => rw [find, if_neg fun h => hk (h.symm.trans ha)]
    · rw [List.filter_cons_of_pos (by simpa using ha), find, ih, find]
      split
      · next hak => rw [if_neg fun h => ha (hak.trans h)]
      · rfl

theorem get_insert_iff {m : SortedMap κ ν} {k k' : κ} {v v' : ν} (h : m.get k = none) :
    (m.insert k v).get k' = some v' ↔ m.get k' = some v' ∨ (k' = k ∧ v' = v) := by
  rw [get_insert]
  by_cases hk : k' = k
  · simp [hk, h, eq_comm]
  · simp [hk]

theorem get_foldl_erase (l : List κ) (m : SortedMap κ ν) (k : κ) :
    (l.foldl erase m).get k = if k ∈ l then none else m.get k := by
  induction l generalizing m with
  | nil => rfl
  | cons a rest ih =>
    rw [List.foldl_cons, ih, get_erase]
    by_cases hrest : k ∈ rest
    · rw [if_pos hrest, if_pos (List.mem_cons_of_mem a hrest)]
    · rw [if_neg hrest]
      exact if_congr (by simp only [List.mem_cons, hrest, or_false]) rfl rfl

@[simp] theorem get_map (m : SortedMap κ ν) (f : ν → ν) (k : κ) :
    (m.map f).get k = (m.get k).map f := by
  show find k (m.entries.map fun e => (e.1, f e.2)) = (find k m.entries).map f
  induction m.entries with
  | nil => rfl
  | cons a rest ih =>
    rw [List.map_cons, find, ih, find]
    split <;> rfl

variable {m : SortedMap κ ν}

theorem mem_entries : (k, v) ∈ m.entries ↔ m.get k = some v := by
  obtain ⟨l, hl⟩ := m
  show (k, v) ∈ l ↔ find k l = some v
  induction l with
  | nil => simp only [List.not_mem_nil, find, reduceCtorEq]
  | cons a rest ih =>
    obtain ⟨ha, hrest⟩ := List.pairwise_cons.mp hl
    rw [List.mem_cons, find, ih hrest]
    constructor
    · rintro (rfl | h)
      · exact if_pos rfl
      · rw [if_neg fun hak => ?_]
        · exact h
        · exact lt_irrefl k (hak ▸ ha (k, v) ((ih hrest).mpr h))
    · intro h
      split at h
      · next hak => exact Or.inl (Prod.ext hak.symm (Option.some.inj h).symm)
      · exact Or.inr h

theorem mem_keys : k ∈ m.entries.map Prod.fst ↔ m.get k ≠ none := by
  rw [List.mem_map, Option.ne_none_iff_exists']
  constructor
  · rintro ⟨e, he, rfl⟩
    exact ⟨e.2, mem_entries.mp he⟩
  · rintro ⟨v, hv⟩
    exact ⟨(k, v), mem_entries.mpr hv, rfl⟩

theorem sorted_keys (m : SortedMap κ ν) : (m.entries.map Prod.fst).Pairwise (· < ·) :=
  m.sorted.map _ fun _ _ h => h

/-! ### Sums over the entries -/

def total (m : SortedMap κ ν) (w : κ → ν → ℕ) : ℕ := (m.entries.map fun e => w e.1 e.2).sum

theorem sum_place (w : κ → ν → ℕ) (k : κ) (v : ν) (hl : l.Pairwise fun a b => a.1 < b.1) :
    ((place k v l).map fun e => w e.1 e.2).sum + (find k l).elim 0 (w k) =
      (l.map fun e => w e.1 e.2).sum + w k v := by
  induction l with
  | nil => simp only [place, find, List.map_cons, List.map_nil, List.sum_cons, List.sum_nil,
      Option.elim, Nat.add_zero, Nat.zero_add]
  | cons a rest ih =>
    obtain ⟨ha, hrest⟩ := List.pairwise_cons.mp hl
    unfold place
    split
    · next hk =>
      have hnone : find k (a :: rest) = none :=
        find_eq_none_of_lt fun e he => (List.mem_cons.mp he).elim (fun h => h ▸ hk)
          fun h => lt_trans hk (ha e h)
      rw [hnone, List.map_cons, List.sum_cons, Option.elim, Nat.add_zero, Nat.add_comm]
    · next hk =>
      split
      · next hlt =>
        have := ih hrest
        rw [find, if_neg (ne_of_lt hlt), List.map_cons, List.sum_cons, List.map_cons, List.sum_cons]
        omega
      · next hge =>
        have hkey : a.1 = k := le_antisymm (not_lt.mp hk) (not_lt.mp hge)
        rw [find, if_pos hkey, List.map_cons, List.sum_cons, List.map_cons, List.sum_cons,
          Option.elim, hkey]
        dsimp only
        omega

theorem total_insert (m : SortedMap κ ν) (w : κ → ν → ℕ) (k : κ) (v : ν) :
    (m.insert k v).total w + (m.get k).elim 0 (w k) = m.total w + w k v :=
  sum_place w k v m.sorted

theorem total_erase (m : SortedMap κ ν) (w : κ → ν → ℕ) (k : κ) :
    (m.erase k).total w + (m.get k).elim 0 (w k) = m.total w := by
  obtain ⟨l, hl⟩ := m
  show ((l.filter fun e => e.1 ≠ k).map fun e => w e.1 e.2).sum + (find k l).elim 0 (w k) =
    (l.map fun e => w e.1 e.2).sum
  induction l with
  | nil => rfl
  | cons a rest ih =>
    obtain ⟨ha, hrest⟩ := List.pairwise_cons.mp hl
    by_cases hk : a.1 = k
    · -- the keys behind `a` are larger, so nothing else is removed
      have hkeep : rest.filter (fun e => e.1 ≠ k) = rest :=
        List.filter_eq_self.mpr fun e he => by
          simpa using (ne_of_gt (hk ▸ ha e he))
      rw [List.filter_cons_of_neg (by simpa using hk), hkeep, find, if_pos hk, List.map_cons,
        List.sum_cons, Option.elim, hk, Nat.add_comm]
    · have := ih hrest
      rw [List.filter_cons_of_pos (by simpa using hk), find, if_neg hk, List.map_cons,
        List.sum_cons, List.map_cons, List.sum_cons]
      omega

theorem total_congr {w w' : κ → ν → ℕ}
    (h : ∀ k v, m.get k = some v → w k v = w' k v) : m.total w = m.total w' := by
  unfold total
  exact congrArg List.sum (List.map_congr_left fun e he => h e.1 e.2 (mem_entries.mp he))

theorem le_total (w : κ → ν → ℕ) (h : m.get k = some v) :
    w k v ≤ m.total w := by
  have := total_erase m w k
  rw [h, Option.elim] at this
  omega

/-! ### Cursors -/

def first (m : SortedMap κ ν) : Option κ := m.entries.head?.map Prod.fst

/-- The smallest key above a key. -/
def next (m : SortedMap κ ν) (k : κ) : Option κ :=
  (m.entries.find? fun e => k < e.1).map Prod.fst

theorem get_first_ne_none (h : m.first = some k) : m.get k ≠ none := by
  obtain ⟨e, he, rfl⟩ := Option.map_eq_some_iff.mp h
  exact mem_keys.mp (List.mem_map_of_mem (List.mem_of_mem_head? he))

theorem first_le (h : m.get k ≠ none) : ∃ c, m.first = some c ∧ c ≤ k := by
  obtain ⟨v, hv⟩ := Option.ne_none_iff_exists'.mp h
  have hmem := mem_entries.mpr hv
  have hs := m.sorted
  unfold first
  cases hl : m.entries with
  | nil => simp [hl] at hmem
  | cons e rest =>
    rw [hl] at hmem hs
    refine ⟨e.1, rfl, ?_⟩
    obtain rfl | hmem := List.mem_cons.mp hmem
    · exact le_rfl
    · exact (List.rel_of_pairwise_cons hs hmem).le

theorem lt_of_next {c : κ} (h : m.next k = some c) : k < c ∧ m.get c ≠ none := by
  obtain ⟨e, he, rfl⟩ := Option.map_eq_some_iff.mp h
  have hlt := List.find?_some he
  exact ⟨by simpa using hlt, mem_keys.mp (List.mem_map_of_mem (List.mem_of_find?_eq_some he))⟩

theorem next_le {x : κ} (h : m.get x ≠ none) (hlt : k < x) : ∃ c, m.next k = some c ∧ c ≤ x := by
  obtain ⟨v, hv⟩ := Option.ne_none_iff_exists'.mp h
  have hmem := mem_entries.mpr hv
  cases hf : m.entries.find? fun e => k < e.1 with
  | none => exact absurd hlt (by simpa using List.find?_eq_none.mp hf _ hmem)
  | some e =>
    refine ⟨e.1, by rw [next, hf, Option.map_some], ?_⟩
    obtain ⟨-, front, back, hl, hfront⟩ := List.find?_eq_some_iff_append.mp hf
    have hs := m.sorted
    rw [hl] at hmem hs
    rcases List.mem_append.mp hmem with hmem | hmem
    · exact absurd hlt (by simpa using hfront _ hmem)
    · obtain rfl | hmem := List.mem_cons.mp hmem
      · exact le_rfl
      · exact (List.rel_of_pairwise_cons (List.pairwise_append.mp hs).2.1 hmem).le

/-- The number of entries that a cursor at a key has not passed. -/
def above (m : SortedMap κ ν) (k : κ) : ℕ := m.entries.countP fun e => k ≤ e.1

theorem above_le_length (m : SortedMap κ ν) (k : κ) : m.above k ≤ m.entries.length :=
  List.countP_le_length

theorem above_next_lt {k' : κ} (hk : m.get k ≠ none)
    (hnext : m.next k = some k') : m.above k' < m.above k := by
  obtain ⟨e, he, rfl⟩ := Option.map_eq_some_iff.mp hnext
  have hlt : k < e.1 := by simpa using List.find?_some he
  obtain ⟨v, hv⟩ := Option.ne_none_iff_exists'.mp hk
  have hmem := mem_entries.mpr hv
  unfold above
  generalize m.entries = l at hmem
  -- every entry counted on the left is counted on the right, and the entry of `k` only there
  have hle : ∀ l : List (κ × ν), l.countP (fun a => e.1 ≤ a.1) ≤ l.countP fun a => k ≤ a.1 :=
    fun l => List.countP_mono_left fun a _ ha => by
      simp only [decide_eq_true_eq] at ha ⊢
      exact hlt.le.trans ha
  induction l with
  | nil => exact absurd hmem List.not_mem_nil
  | cons a rest ih =>
    rw [List.countP_cons, List.countP_cons]
    rcases List.mem_cons.mp hmem with rfl | hmem
    · have := hle rest
      rw [if_neg (by simpa using hlt), if_pos (by simp)]
      omega
    · have := ih hmem
      have hhead : (if decide (e.1 ≤ a.1) = true then 1 else 0) ≤
          if decide (k ≤ a.1) = true then 1 else 0 := by
        have := hle [a]
        simpa only [List.countP_cons, List.countP_nil, Nat.zero_add] using this
      omega

theorem length_erase_lt (hk : m.get k ≠ none) :
    (m.erase k).entries.length < m.entries.length := by
  obtain ⟨v, hv⟩ := Option.ne_none_iff_exists'.mp hk
  exact List.length_filter_lt_length_iff_exists.mpr ⟨(k, v), mem_entries.mpr hv, by simp⟩

end SortedMap
