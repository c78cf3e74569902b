import Dlutos.Vfs.RcuListCalls

/-!
# Updates one at a time

What the locks of `RCUList` were meant to give is assumed here: a call starts only when no other is
under way, and a node is not cleared while an iterator points to it.  Then the rest of a call in
progress, running alone, ends with the right list (`UpdatePc.finish`).
-/

namespace Dlutos.Vfs

open Function Transition

namespace Links

variable {l l' : Links} {b : ℕ} {L : List ℕ}

/-- The family in which only the list `b` has nodes. -/
def single (b : ℕ) (L : List ℕ) : ℕ → List ℕ := update (fun _ => []) b L

@[simp] theorem single_self (b : ℕ) (L : List ℕ) : single b L b = L := update_self ..

theorem update_single (b : ℕ) (L L' : List ℕ) : update (single b L) b L' = single b L' :=
  update_idem ..

theorem notMem_single {x : ℕ} (hx : x ∉ L) (c : ℕ) : x ∉ single b L c := by
  by_cases hc : c = b
  · rwa [hc, single_self]
  · rw [single, update_of_ne hc]
    exact List.not_mem_nil

structure Threads (l : Links) (b : ℕ) (L : List ℕ) : Prop where
  nodup : L.Nodup
  head : l.head b = L.head?
  next : ∀ y ys, y :: ys <:+ L → l.next y = ys.head?

theorem Represents.threads (hl : Represents l (single b L)) : Threads l b L := by
  have hhead := hl.head_eq b
  have hnodup := hl.nodup b
  rw [single_self] at hhead hnodup
  refine ⟨hnodup, hhead, fun y ys h => ?_⟩
  obtain ⟨front, rfl⟩ := h
  have hc := hl.chain b
  rw [single_self, List.map_append, List.map_cons] at hc
  have hnext := hc.next_of_append
  rw [List.head?_map] at hnext
  exact Option.map_injective (fun _ _ h => Place.node.inj h) hnext

theorem Threads.congr (h : Threads l b L) (hhead : l'.head b = l.head b)
    (hnext : ∀ y ∈ L, l'.next y = l.next y) : Threads l' b L :=
  ⟨h.nodup, hhead.trans h.head, fun y ys hys =>
    (hnext y (hys.subset List.mem_cons_self)).trans (h.next y ys hys)⟩

theorem Represents.prev_ne_self (hl : Represents l (single b L)) {x : ℕ} (hx : x ∈ L) :
    l.prev x ≠ some x := by
  intro h
  obtain ⟨front, back, rfl⟩ := List.append_of_mem hx
  have hc := hl.chain b
  have hnd := hl.nodup b
  rw [single_self] at hc hnd
  rw [List.map_append, List.map_cons] at hc
  obtain ⟨p, hp, hpx⟩ := hc.prev_mem
  obtain rfl : p = .node x := by simpa [linkPrev, h] using hpx.symm
  have hfront : x ∈ front := by simpa using hp
  exact (List.nodup_append.mp hnd).2.2 x hfront x List.mem_cons_self rfl

end Links

namespace UpdatePc

variable {b : ℕ} {l : Links} {L : List ℕ} {pc : UpdatePc}

/-- The memory after the rest of the call, which takes eight steps at most. -/
def finish (b : ℕ) (l : Links) (pc : UpdatePc) : Links :=
  ((fun c : UpdatePc × Links => c.1.step b c.2)^[8] (pc, l)).2

/-- The members after the rest of the call. -/
def final (L : List ℕ) : UpdatePc → List ℕ
  | insertLoad x | insertPrev x _ | insertNext x _ | insertBack x _ | insertHead x => x :: L
  | removePrev x | removeNext x _ | removeBack x _ _ | removeForth x _ _ => L.erase x
  | replacePrev x y | replaceNext x y _ | replaceSetPrev x y _ _ | replaceSetNext x y _ _
  | replaceForth x y _ _ => Links.substitute x y L
  | idle | replaceBack _ _ _ | clearPrev _ | clearNext _ => L

/-- The node that has been taken out of the list and not been cleared yet. -/
def stale : UpdatePc → Option ℕ
  | replaceBack x _ _ | clearPrev x | clearNext x => some x
  | idle | insertLoad _ | insertPrev _ _ | insertNext _ _ | insertBack _ _ | insertHead _
  | removePrev _ | removeNext _ _ | removeBack _ _ _ | removeForth _ _ _ | replacePrev _ _
  | replaceNext _ _ _ | replaceSetPrev _ _ _ _ | replaceSetNext _ _ _ _
  | replaceForth _ _ _ _ => none

/-- Which nodes are members during a call. -/
def Ready (b : ℕ) (l : Links) (L : List ℕ) : UpdatePc → Prop
  | idle => True
  | insertLoad x | insertPrev x _ | insertNext x _ | insertBack x _ | insertHead x => x ∉ L
  | removePrev x => x ∈ L ∧ l.Represents (Links.single b L)
  | removeNext x prev | removeBack x prev _ | removeForth x prev _ => x ∈ L ∧ prev ≠ some x
  | replacePrev x y => x ∈ L ∧ y ∉ L ∧ l.Represents (Links.single b L)
  | replaceNext x y prev | replaceSetPrev x y prev _ | replaceSetNext x y prev _
  | replaceForth x y prev _ => x ∈ L ∧ y ∉ L ∧ prev ≠ some x
  | replaceBack x _ _ | clearPrev x | clearNext x => x ∉ L

theorem finish_step (b : ℕ) (l : Links) (pc : UpdatePc) :
    finish b (pc.step b l).2 (pc.step b l).1 = finish b l pc := by
  cases pc <;> rfl

theorem final_step (b : ℕ) (l : Links) (L : List ℕ) (pc : UpdatePc) :
    (pc.step b l).1.final (pc.members L) = pc.final L := by
  cases pc <;> rfl

theorem finish_insertLoad (b : ℕ) (l : Links) (x : ℕ) :
    finish b l (insertLoad x) = l.insert b x := by
  cases h : l.head b <;> simp [finish, step, Links.insert, Links.storePrev, h]

theorem finish_removePrev (b : ℕ) (l : Links) (x : ℕ) :
    finish b l (removePrev x) = l.remove b x := by
  cases hp : l.prev x <;> cases hn : l.next x <;>
    simp [finish, step, Links.remove, Links.storePrev, Links.storePrevNext, hp, hn]

theorem finish_replacePrev (b : ℕ) (l : Links) (x y : ℕ) :
    finish b l (replacePrev x y) = l.replace b x y := by
  cases hp : l.prev x <;> cases hn : l.next x <;>
    simp [finish, step, Links.replace, Links.storePrev, Links.storePrevNext, hp, hn]

theorem Ready.step (h : pc.Ready b l L) (hL : l.Threads b L) :
    (pc.step b l).1.Ready b (pc.step b l).2 (pc.members L) := by
  cases pc with
  | idle | insertHead | clearNext => trivial
  | removePrev x => exact ⟨h.1, h.2.prev_ne_self h.1⟩
  | replacePrev x y => exact ⟨h.1, h.2.1, h.2.2.prev_ne_self h.1⟩
  | removeForth x prev next => exact hL.nodup.not_mem_erase
  | replaceForth x y prev next =>
    intro hx
    obtain rfl | hx := (Links.mem_substitute h.1).mp hx
    · exact h.2.1 h.1
    · exact hx.2 rfl
  | insertLoad | insertPrev | insertNext | insertBack | removeNext | removeBack | replaceNext
  | replaceSetPrev | replaceSetNext | replaceBack | clearPrev => exact h

theorem finish_of_stale {x : ℕ} (h : pc.stale = some x) (b : ℕ) (l : Links) :
    (finish b l pc).head = l.head ∧ (finish b l pc).next = update l.next x none := by
  cases pc with
  | replaceBack x' y node =>
    cases h
    cases node <;> exact ⟨rfl, rfl⟩
  | clearPrev x' | clearNext x' =>
    cases h
    exact ⟨rfl, rfl⟩
  | _ => cases h

theorem threads_of_stale {x : ℕ} (h : pc.stale = some x) (hx : x ∉ L)
    (hl : (finish b l pc).Represents (Links.single b L)) : l.Threads b L := by
  obtain ⟨hhead, hnext⟩ := finish_of_stale h b l
  refine hl.threads.congr (by rw [hhead]) fun y hy => ?_
  have hne : y ≠ x := fun he => hx (he ▸ hy)
  rw [hnext, update_of_ne hne]

theorem Ready.threads_step (h : pc.Ready b l L) (hL : l.Threads b L)
    (hl : (finish b l pc).Represents (Links.single b (pc.final L))) :
    (pc.step b l).2.Threads b (pc.members L) := by
  have hready := h.step hL
  rw [← finish_step, ← final_step b l] at hl
  have hne : ∀ {x y : ℕ}, x ∉ L → y ∈ L → y ≠ x := fun hx hy he => hx (he ▸ hy)
  cases pc with
  | idle | insertLoad | insertPrev | removePrev | removeNext | replacePrev | replaceNext
  | replaceSetPrev | clearPrev => exact ⟨hL.nodup, hL.head, hL.next⟩
  | insertBack x node | removeBack x _ node | replaceBack x _ node =>
    cases node <;> exact ⟨hL.nodup, hL.head, hL.next⟩
  | insertNext x _ | clearNext x =>
    exact hL.congr rfl fun y hy => update_of_ne (hne h hy) _ _
  | replaceSetNext x y prev next =>
    exact hL.congr rfl fun z hz => update_of_ne (hne h.2.1 hz) _ _
  | insertHead x => exact hl.threads
  | removeForth | replaceForth => exact threads_of_stale rfl hready hl

end UpdatePc

/-! ### Readers -/

/-- The reader is at some point of the list, or on a node that has been taken out and points into
it. -/
def Follows (l : Links) (L : List ℕ) (stale cur : Option ℕ) (visited expected : List ℕ) : Prop :=
  ∃ rest, rest <:+ L ∧ (∀ z ∈ expected, z ∈ visited ∨ z ∈ rest) ∧
    (cur = rest.head? ∨ ∃ x, stale = some x ∧ cur = some x ∧ l.next x = rest.head?)

theorem suffix_cases {x : ℕ} {front back rest : List ℕ} (h : rest <:+ front ++ x :: back) :
    (∃ f, f ≠ [] ∧ f <:+ front ∧ rest = f ++ x :: back) ∨ rest = x :: back ∨ rest <:+ back := by
  induction front with
  | nil =>
    rcases List.suffix_cons_iff.mp h with rfl | h
    · exact Or.inr (Or.inl rfl)
    · exact Or.inr (Or.inr h)
  | cons y front ih =>
    rcases List.suffix_cons_iff.mp h with rfl | h
    · exact Or.inl ⟨y :: front, List.cons_ne_nil _ _, List.suffix_refl _, rfl⟩
    · refine (ih h).imp_left ?_
      rintro ⟨f, hf, hsuffix, rfl⟩
      exact ⟨f, hf, hsuffix.trans (List.suffix_cons _ _), rfl⟩

variable {b : ℕ} {l : Links} {L : List ℕ} {pc : UpdatePc} {cur : Option ℕ}
  {visited expected : List ℕ}

theorem Links.Threads.follows_iter (hL : l.Threads b L) (stale : Option ℕ) :
    Follows l L stale (l.head b) [] L :=
  ⟨L, List.suffix_refl _, fun _ hz => Or.inr hz, Or.inl hL.head⟩

theorem Follows.next {y : ℕ} {stale : Option ℕ} (h : Follows l L stale (some y) visited expected)
    (hL : l.Threads b L) : Follows l L stale (l.next y) (y :: visited) expected := by
  obtain ⟨rest, hrest, hmeets, hcur | ⟨x, -, hcur, hx⟩⟩ := h
  · cases rest with
    | nil => cases hcur
    | cons z zs =>
      cases hcur
      refine ⟨zs, (List.suffix_cons y zs).trans hrest, fun w hw => ?_, Or.inl (hL.next y zs hrest)⟩
      rcases hmeets w hw with h | h
      · exact Or.inl (List.mem_cons_of_mem _ h)
      · refine (List.mem_cons.mp h).imp_left ?_
        rintro rfl
        exact List.mem_cons_self
  · cases hcur
    exact ⟨rest, hrest, fun w hw => (hmeets w hw).imp_left (List.mem_cons_of_mem _), Or.inl hx⟩

theorem Follows.unlink {x : ℕ} {l' : Links} {front back : List ℕ}
    (h : Follows l (front ++ x :: back) none cur visited expected) (mid : List ℕ)
    (hx : l'.next x = back.head?) :
    Follows l' (front ++ (mid ++ back)) (some x) cur visited
      (expected.filter fun z => some z ≠ some x) := by
  obtain ⟨rest, hrest, hmeets, hcur | ⟨x, hstale, -⟩⟩ := h
  swap
  · cases hstale
  have hfilter : ∀ {z}, z ∈ expected.filter (fun z => some z ≠ some x) → z ∈ expected ∧ z ≠ x := by
    simp
  rcases suffix_cases hrest with ⟨f, hf, hsuffix, rfl⟩ | rfl | hback
  · refine ⟨f ++ (mid ++ back), ?_, fun z hz => ?_, Or.inl ?_⟩
    · obtain ⟨t, rfl⟩ := hsuffix
      exact ⟨t, (List.append_assoc ..).symm⟩
    · obtain ⟨hz, hne⟩ := hfilter hz
      refine (hmeets z hz).imp_right fun h => ?_
      simp only [List.mem_append, List.mem_cons] at h ⊢
      tauto
    · cases f with
      | nil => exact absurd rfl hf
      | cons y ys => exact hcur
  · refine ⟨back, ?_, fun z hz => ?_, Or.inr ⟨x, rfl, hcur, hx⟩⟩
    · exact ⟨front ++ mid, (List.append_assoc ..)⟩
    · obtain ⟨hz, hne⟩ := hfilter hz
      exact (hmeets z hz).imp_right fun h => (List.mem_cons.mp h).resolve_left hne
  · refine ⟨rest, hback.trans ⟨front ++ mid, List.append_assoc ..⟩, fun z hz => ?_, Or.inl hcur⟩
    exact hmeets z (hfilter hz).1

theorem notMem_of_nodup {x : ℕ} {front back : List ℕ} (h : (front ++ x :: back).Nodup) :
    x ∉ front ∧ x ∉ back := by
  simpa using (List.nodup_middle.mp h).notMem

theorem Links.Threads.next_storePrevNext {x : ℕ} {front back : List ℕ} {prev : Option ℕ}
    (hL : l.Threads b (front ++ x :: back)) (hprev : prev ≠ some x) (value : Option ℕ) :
    (l.storePrevNext b prev value).next x = back.head? := by
  refine Eq.trans ?_ (hL.next x back ⟨front, rfl⟩)
  cases prev with
  | none => rfl
  | some p => exact update_of_ne (fun he => hprev (congrArg some he.symm)) _ _

theorem Follows.congr {stale : Option ℕ} (h : Follows l L stale cur visited expected) (l' : Links)
    (hnext : ∀ x, stale = some x → l'.next x = l.next x) :
    Follows l' L stale cur visited (expected.filter fun z => some z ≠ none) := by
  obtain ⟨rest, hrest, hmeets, hcur⟩ := h
  refine ⟨rest, hrest, fun z hz => hmeets z (List.mem_of_mem_filter hz), hcur.imp_right ?_⟩
  rintro ⟨x, hstale, hx, hxrest⟩
  exact ⟨x, hstale, hx, (hnext x hstale).trans hxrest⟩

theorem Follows.step (h : Follows l L pc.stale cur visited expected) (hL : l.Threads b L)
    (hready : pc.Ready b l L) (hclear : ∀ x, pc = .clearNext x → cur ≠ some x) :
    Follows (pc.step b l).2 (pc.members L) (pc.step b l).1.stale cur visited
      (expected.filter fun z => some z ≠ pc.unlinks) := by
  cases pc with
  | insertHead x =>
    obtain ⟨rest, hrest, hmeets, hcur⟩ := h.congr l fun _ _ => rfl
    refine ⟨rest, hrest.trans (List.suffix_cons x L), hmeets, hcur.imp_right ?_⟩
    rintro ⟨x, hstale, -⟩
    cases hstale
  | removeForth x prev next =>
    obtain ⟨hx, hprev⟩ := hready
    obtain ⟨front, back, rfl⟩ := List.append_of_mem hx
    obtain ⟨hfront, -⟩ := notMem_of_nodup hL.nodup
    rw [UpdatePc.members, List.erase_append_right _ hfront, List.erase_cons_head]
    exact h.unlink [] (hL.next_storePrevNext hprev next)
  | replaceForth x y prev next =>
    obtain ⟨hx, -, hprev⟩ := hready
    obtain ⟨front, back, rfl⟩ := List.append_of_mem hx
    obtain ⟨hfront, hback⟩ := notMem_of_nodup hL.nodup
    rw [UpdatePc.members, Links.substitute_append y hfront hback]
    exact h.unlink [y] (hL.next_storePrevNext hprev (some y))
  | clearNext x =>
    obtain ⟨rest, hrest, hmeets, hcur | ⟨x', hstale, hx, -⟩⟩ := h
    · exact ⟨rest, hrest, fun z hz => hmeets z (List.mem_of_mem_filter hz), Or.inl hcur⟩
    · cases hstale
      exact absurd hx (hclear x rfl)
  | replaceBack x y node =>
    refine h.congr _ fun _ _ => ?_
    cases node <;> rfl
  | clearPrev x => exact h.congr _ fun _ _ => rfl
  | _ => exact h.congr _ nofun

/-! ### Runs -/

namespace RcuCalls

/-- No calls overlap, and no node is cleared while a reader stands on it. -/
def Exclusive (s : RcuCalls) : RcuListOp → Prop
  | .insert _ _ | .remove _ _ | .replace _ _ _ => ∀ c, s.update c = .idle
  | .advance c => ∀ x, s.update c = .clearNext x →
      ∀ t visited expected, s.reader t ≠ .iterating (some x) visited expected
  | .iter _ | .next _ | .drop _ => True

/-- The invariant, with the CPU that may have a call under way. -/
structure CallInv (b : ℕ) (s : RcuCalls) (c : ℕ) : Prop where
  alone : ∀ c', c' ≠ c → s.update c' = .idle
  finish : ((s.update c).finish b s.links).Represents (Links.single b ((s.update c).final s.members))
  threads : s.links.Threads b s.members
  ready : (s.update c).Ready b s.links s.members
  reader : ∀ t cur visited expected, s.reader t = .iterating cur visited expected →
    Follows s.links s.members (s.update c).stale cur visited expected

variable {s : RcuCalls} {c : ℕ}

theorem CallInv.represents (hi : s.CallInv b c) (hidle : s.update c = .idle) :
    s.links.Represents (Links.single b s.members) := by
  have h := hi.finish
  rw [hidle] at h
  exact h

theorem CallInv.call (hi : s.CallInv b c) (hidle : ∀ c, s.update c = .idle) (c' : ℕ)
    {pc : UpdatePc} (hstale : pc.stale = none) (hready : pc.Ready b s.links s.members)
    (hfinish : (pc.finish b s.links).Represents (Links.single b (pc.final s.members))) :
    (s.call c' pc).CallInv b c' := by
  have hself : (s.call c' pc).update c' = pc := update_self ..
  refine ⟨fun c'' hne => ?_, ?_, hi.threads, ?_, fun t cur visited expected ht => ?_⟩
  · exact (update_of_ne hne _ _).trans (hidle c'')
  · rw [hself]
    exact hfinish
  · rw [hself]
    exact hready
  · have h := hi.reader t cur visited expected ht
    rw [hidle c] at h
    rw [hself, hstale]
    exact h

theorem CallInv.advance (hi : s.CallInv b c) (hc : s.Exclusive (.advance c)) :
    (s.advance b c).CallInv b c := by
  have hself : (s.advance b c).update c = ((s.update c).step b s.links).1 := update_self ..
  refine ⟨fun c' hne => ?_, ?_, hi.ready.threads_step hi.threads hi.finish, ?_,
    fun t cur visited expected ht => ?_⟩
  · exact (update_of_ne hne _ _).trans (hi.alone c' hne)
  · rw [hself]
    rw [RcuCalls.advance, UpdatePc.finish_step, UpdatePc.final_step]
    exact hi.finish
  · rw [hself]
    exact hi.ready.step hi.threads
  · rw [hself]
    have ht : (s.reader t).forget (s.update c).unlinks = .iterating cur visited expected := ht
    cases hr : s.reader t with
    | idle =>
      rw [hr] at ht
      cases ht
    | iterating cur' visited' expected' =>
      rw [hr] at ht
      cases ht
      refine (hi.reader t _ _ _ hr).step hi.threads hi.ready fun x hx hcur => ?_
      exact hc x hx t _ _ (hcur ▸ hr)

theorem CallInv.setReader (hi : s.CallInv b c) (t : ℕ) {r : ListReader}
    (hr : ∀ cur visited expected, r = .iterating cur visited expected →
      Follows s.links s.members (s.update c).stale cur visited expected) :
    (s.setReader t r).CallInv b c := by
  refine ⟨hi.alone, hi.finish, hi.threads, hi.ready, fun t' cur visited expected ht => ?_⟩
  have ht : Function.update s.reader t r t' = .iterating cur visited expected := ht
  by_cases heq : t' = t
  · rw [heq, update_self] at ht
    exact hr cur visited expected ht
  · rw [update_of_ne heq] at ht
    exact hi.reader t' cur visited expected ht

theorem CallInv.run (hi : s.CallInv b c) (op : RcuListOp) (he : s.Enabled op)
    (hc : s.Exclusive op) : ∃ c', (s.run b op).CallInv b c' := by
  cases op with
  | insert c' x =>
    refine ⟨c', hi.call hc c' rfl he.2.1 ?_⟩
    rw [UpdatePc.finish_insertLoad]
    have h := (hi.represents (hc c)).insert (b := b) (Links.notMem_single he.2.1)
    rwa [Links.single_self, Links.update_single] at h
  | remove c' x =>
    have hl := hi.represents (hc c)
    refine ⟨c', hi.call hc c' rfl ⟨he.2.1, hl⟩ ?_⟩
    rw [UpdatePc.finish_removePrev]
    have h := hl.remove (b := b) (x := x) (by rw [Links.single_self]; exact he.2.1)
    rwa [Links.single_self, Links.update_single] at h
  | replace c' x y =>
    have hl := hi.represents (hc c)
    refine ⟨c', hi.call hc c' rfl ⟨he.2.1, he.2.2.1, hl⟩ ?_⟩
    rw [UpdatePc.finish_replacePrev]
    have h := hl.replace (b := b) (x := x) (by rw [Links.single_self]; exact he.2.1)
      (Links.notMem_single he.2.2.1)
    rwa [Links.single_self, Links.update_single] at h
  | advance c' =>
    obtain rfl : c' = c := by
      by_contra hne
      exact he (hi.alone c' hne)
    exact ⟨c', hi.advance hc⟩
  | iter t =>
    refine ⟨c, hi.setReader t fun cur visited expected h => ?_⟩
    cases h
    exact hi.threads.follows_iter _
  | next t =>
    obtain ⟨y, visited, expected, ht⟩ := he
    simp only [RcuCalls.run, RcuCalls.next, ht]
    refine ⟨c, hi.setReader t fun _ _ _ h => ?_⟩
    cases h
    exact (hi.reader t _ _ _ ht).next hi.threads
  | drop t => exact ⟨c, hi.setReader t nofun⟩

end RcuCalls

open RcuCalls

/-- While all steps meet the condition, the memory represents the members when no update is under
way, and a reader at the end has met all nodes that were members since it began. -/
theorem rcuList_of_reachable {b : ℕ} {s : RcuCalls} (hs : (rcuCalls b Exclusive).Reachable s) :
    ((∀ c, s.update c = .idle) → s.links.Represents (Links.single b s.members)) ∧
    ∀ t visited expected, s.reader t = .iterating none visited expected →
      ∀ x ∈ expected, x ∈ visited := by
  obtain ⟨c, hi⟩ : ∃ c, s.CallInv b c := by
    refine Transition.Reachable.invariant (P := fun s => ∃ c, s.CallInv b c) ?_
      (fun s t hi hst => ?_) hs
    · rintro _ rfl
      have hempty : Links.empty.Represents (Links.single b []) := by
        rw [Links.single, update_eq_self]
        exact Links.Represents.empty
      exact ⟨0, fun _ _ => rfl, hempty, hempty.threads, trivial, nofun⟩
    · obtain ⟨op, ⟨he, hc⟩, hrun⟩ := hst
      obtain rfl : s.run b op = t := Except.ok.inj hrun
      obtain ⟨c, hi⟩ := hi
      exact hi.run op he hc
  refine ⟨fun hidle => hi.represents (hidle c), fun t visited expected ht x hx => ?_⟩
  obtain ⟨rest, -, hmeets, hcur | ⟨y, -, hcur, -⟩⟩ := hi.reader t _ _ _ ht
  · obtain rfl := List.head?_eq_none_iff.mp hcur.symm
    exact (hmeets x hx).resolve_right List.not_mem_nil
  · cases hcur

/-- The first node is removed while a reader stands on it, which then goes on. -/
theorem rcuList_removed : ∃ s : RcuCalls, s.members = [0] ∧
    s.links.Represents (Links.single 0 [0]) ∧ s.reader 0 = .iterating none [0, 1] [0] ∧
    ∀ x ∈ [0], x ∈ [0, 1] := by
  have h0 : (rcuCalls 0 Exclusive).Reachable {} := .of_init rfl
  have h20 := h0.after [.insert 0 0, .advance 0, .advance 0, .advance 0, .advance 0, .advance 0,
    .insert 0 1, .advance 0, .advance 0, .advance 0, .advance 0, .advance 0, .iter 0, .remove 0 1,
    .advance 0, .advance 0, .advance 0, .advance 0, .next 0, .advance 0]
    ⟨⟨⟨rfl, nofun, nofun⟩, fun _ => rfl⟩, ⟨nofun, nofun⟩, ⟨nofun, nofun⟩, ⟨nofun, nofun⟩,
     ⟨nofun, nofun⟩, ⟨nofun, nofun⟩,
     ⟨⟨rfl, show 1 ∉ [0] by decide, fun c => by cases c <;> nofun⟩, fun c => by cases c <;> rfl⟩,
     ⟨nofun, nofun⟩, ⟨nofun, nofun⟩, ⟨nofun, nofun⟩, ⟨nofun, nofun⟩, ⟨nofun, nofun⟩, ⟨rfl, trivial⟩,
     ⟨⟨rfl, show 1 ∈ [1, 0] by decide, fun c => by cases c <;> nofun⟩, fun c => by cases c <;> rfl⟩,
     ⟨nofun, nofun⟩, ⟨nofun, nofun⟩, ⟨nofun, nofun⟩, ⟨nofun, nofun⟩, ⟨⟨_, _, _, rfl⟩, trivial⟩,
     ⟨nofun, nofun⟩, trivial⟩
  have h21 := h20.next (.advance 0) ⟨nofun, fun x hx t _ _ => by
    cases hx
    cases t <;> nofun⟩
  have h22 := h21.next (.next 0) ⟨⟨_, _, _, rfl⟩, trivial⟩
  obtain ⟨hlist, hreader⟩ := rcuList_of_reachable h22
  exact ⟨_, rfl, hlist fun c => by cases c <;> rfl, rfl, hreader 0 _ _ rfl⟩

/-- Two calls of `insert` load the same head, and a node is lost. A node is cleared while a reader
stands on it, and the reader misses another one. -/
theorem rcuList_violated :
    (∃ s : RcuCalls, (rcuCalls 0 fun _ _ => True).Reachable s ∧ (∀ c, s.update c = .idle) ∧
      s.members = [1, 0] ∧ s.links.head 0 = some 1 ∧ s.links.next 1 = none) ∧
    ∃ s : RcuCalls, (rcuCalls 0 fun _ _ => True).Reachable s ∧
      s.reader 0 = .iterating none [1] [0] := by
  have h0 : (rcuCalls 0 fun _ _ => True).Reachable {} := .of_init rfl
  have h2 := h0.after [.insert 0 0, .advance 0]
    ⟨⟨⟨rfl, nofun, nofun⟩, trivial⟩, ⟨nofun, trivial⟩, trivial⟩
  constructor
  · have h3 := h2.next (.insert 1 1)
      ⟨⟨rfl, nofun, fun c => by
        cases c with
        | zero => exact show 1 ∉ [0] by decide
        | succ c => nofun⟩, trivial⟩
    have h4 := h3.next (.advance 1) ⟨nofun, trivial⟩
    have h5 := h4.next (.advance 0) ⟨nofun, trivial⟩
    have h6 := h5.next (.advance 0) ⟨nofun, trivial⟩
    have h7 := h6.next (.advance 0) ⟨nofun, trivial⟩
    have h8 := h7.next (.advance 0) ⟨nofun, trivial⟩
    have h9 := h8.next (.advance 1) ⟨nofun, trivial⟩
    have h10 := h9.next (.advance 1) ⟨nofun, trivial⟩
    have h11 := h10.next (.advance 1) ⟨nofun, trivial⟩
    have h12 := h11.next (.advance 1) ⟨nofun, trivial⟩
    refine ⟨_, h12, fun c => ?_, rfl, rfl, rfl⟩
    match c with
    | 0 => rfl
    | 1 => rfl
    | _ + 2 => rfl
  · have h21 := h2.after [.advance 0, .advance 0, .advance 0, .advance 0, .insert 0 1, .advance 0,
      .advance 0, .advance 0, .advance 0, .advance 0, .iter 0, .remove 0 1, .advance 0, .advance 0,
      .advance 0, .advance 0, .advance 0, .advance 0, .next 0]
      ⟨⟨nofun, trivial⟩, ⟨nofun, trivial⟩, ⟨nofun, trivial⟩, ⟨nofun, trivial⟩,
       ⟨⟨rfl, show 1 ∉ [0] by decide, fun c => by cases c <;> nofun⟩, trivial⟩, ⟨nofun, trivial⟩,
       ⟨nofun, trivial⟩, ⟨nofun, trivial⟩, ⟨nofun, trivial⟩, ⟨nofun, trivial⟩, ⟨rfl, trivial⟩,
       ⟨⟨rfl, show 1 ∈ [1, 0] by decide, fun c => by cases c <;> nofun⟩, trivial⟩, ⟨nofun, trivial⟩,
       ⟨nofun, trivial⟩, ⟨nofun, trivial⟩, ⟨nofun, trivial⟩, ⟨nofun, trivial⟩, ⟨nofun, trivial⟩,
       ⟨⟨_, _, _, rfl⟩, trivial⟩, trivial⟩
    exact ⟨_, h21, rfl⟩

end Dlutos.Vfs
