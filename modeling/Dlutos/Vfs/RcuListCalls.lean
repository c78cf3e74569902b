import Dlutos.Foundation.Transition
import Dlutos.Vfs.RcuList

/-!
# Calls on one list

`RCUList::insert`, `remove` and `replace` of `rcu.rs`, called by several CPUs on one list, with
readers that iterate over it.  Every load, store and swap of a pointer is a step.  The updates begin
with `self.update_lock.lock()` and clear a node after `self.reader_lock.write()`, but these are
`async` functions whose futures are never polled, so that neither lock is taken.  Reference counts
and debug assertions are left out.
-/

namespace Dlutos.Vfs

open Function Transition

namespace Links

/-- Store into the `next` pointer of the predecessor, or into the head if there is none. -/
def storePrevNext (l : Links) (b : ℕ) (prev value : Option ℕ) : Links :=
  match prev with
  | some p => { l with next := update l.next p value }
  | none => { l with head := update l.head b value }

def storePrev (l : Links) (node value : Option ℕ) : Links :=
  match node with
  | some n => { l with prev := update l.prev n value }
  | none => l

end Links

inductive UpdatePc where
  | idle
  | insertLoad (x : ℕ)
  | insertPrev (x : ℕ) (oldHead : Option ℕ)
  | insertNext (x : ℕ) (oldHead : Option ℕ)
  | insertBack (x : ℕ) (oldHead : Option ℕ)
  | insertHead (x : ℕ)
  | removePrev (x : ℕ)
  | removeNext (x : ℕ) (prev : Option ℕ)
  /-- about to swap the `prev` pointer of the successor -/
  | removeBack (x : ℕ) (prev next : Option ℕ)
  /-- about to swap the pointer to the node -/
  | removeForth (x : ℕ) (prev next : Option ℕ)
  | replacePrev (x y : ℕ)
  | replaceNext (x y : ℕ) (prev : Option ℕ)
  | replaceSetPrev (x y : ℕ) (prev next : Option ℕ)
  | replaceSetNext (x y : ℕ) (prev next : Option ℕ)
  /-- about to swap the pointer to the old node -/
  | replaceForth (x y : ℕ) (prev next : Option ℕ)
  /-- about to swap the `prev` pointer of the successor -/
  | replaceBack (x y : ℕ) (next : Option ℕ)
  | clearPrev (x : ℕ)
  | clearNext (x : ℕ)
  deriving DecidableEq

namespace UpdatePc

def step (b : ℕ) (l : Links) : UpdatePc → UpdatePc × Links
  | idle => (idle, l)
  | insertLoad x => (insertPrev x (l.head b), l)
  | insertPrev x oldHead => (insertNext x oldHead, { l with prev := update l.prev x none })
  | insertNext x oldHead => (insertBack x oldHead, { l with next := update l.next x oldHead })
  | insertBack x oldHead => (insertHead x, l.storePrev oldHead (some x))
  | insertHead x => (idle, { l with head := update l.head b (some x) })
  | removePrev x => (removeNext x (l.prev x), l)
  | removeNext x prev => (removeBack x prev (l.next x), l)
  | removeBack x prev next => (removeForth x prev next, l.storePrev next prev)
  | removeForth x prev next => (clearPrev x, l.storePrevNext b prev next)
  | replacePrev x y => (replaceNext x y (l.prev x), l)
  | replaceNext x y prev => (replaceSetPrev x y prev (l.next x), l)
  | replaceSetPrev x y prev next =>
    (replaceSetNext x y prev next, { l with prev := update l.prev y prev })
  | replaceSetNext x y prev next =>
    (replaceForth x y prev next, { l with next := update l.next y next })
  | replaceForth x y prev next => (replaceBack x y next, l.storePrevNext b prev (some y))
  | replaceBack x y next => (clearPrev x, l.storePrev next (some y))
  | clearPrev x => (clearNext x, { l with prev := update l.prev x none })
  | clearNext x => (idle, { l with next := update l.next x none })

def unlinks : UpdatePc → Option ℕ
  | removeForth x _ _ | replaceForth x _ _ _ => some x
  | idle | insertLoad _ | insertPrev _ _ | insertNext _ _ | insertBack _ _ | insertHead _
  | removePrev _ | removeNext _ _ | removeBack _ _ _ | replacePrev _ _ | replaceNext _ _ _
  | replaceSetPrev _ _ _ _ | replaceSetNext _ _ _ _ | replaceBack _ _ _ | clearPrev _
  | clearNext _ => none

def members (L : List ℕ) : UpdatePc → List ℕ
  | insertHead x => x :: L
  | removeForth x _ _ => L.erase x
  | replaceForth x y _ _ => Links.substitute x y L
  | idle | insertLoad _ | insertPrev _ _ | insertNext _ _ | insertBack _ _
  | removePrev _ | removeNext _ _ | removeBack _ _ _ | replacePrev _ _ | replaceNext _ _ _
  | replaceSetPrev _ _ _ _ | replaceSetNext _ _ _ _ | replaceBack _ _ _ | clearPrev _
  | clearNext _ => L

def nodes : UpdatePc → List ℕ
  | idle => []
  | insertLoad x | insertPrev x _ | insertNext x _ | insertBack x _ | insertHead x
  | removePrev x | removeNext x _ | removeBack x _ _ | removeForth x _ _ | clearPrev x
  | clearNext x => [x]
  | replacePrev x y | replaceNext x y _ | replaceSetPrev x y _ _ | replaceSetNext x y _ _
  | replaceForth x y _ _ | replaceBack x y _ => [x, y]

end UpdatePc

/-- An `RCUIterator`, with the nodes it has yielded. -/
inductive ListReader where
  | idle
  | iterating (cur : Option ℕ) (visited expected : List ℕ)

/-- The reader need not meet the node any more. -/
def ListReader.forget (x : Option ℕ) : ListReader → ListReader
  | idle => idle
  | iterating cur visited expected =>
    iterating cur visited (expected.filter fun z => some z ≠ x)

structure RcuCalls where
  links : Links := .empty
  update : ℕ → UpdatePc := fun _ => .idle
  reader : ℕ → ListReader := fun _ => .idle
  members : List ℕ := []

inductive RcuListOp where
  | insert (c x : ℕ)
  | remove (c x : ℕ)
  | replace (c x y : ℕ)
  /-- The CPU takes the next step of its call. -/
  | advance (c : ℕ)
  | iter (t : ℕ)
  | next (t : ℕ)
  | drop (t : ℕ)

namespace RcuCalls

def call (s : RcuCalls) (c : ℕ) (pc : UpdatePc) : RcuCalls :=
  { s with update := Function.update s.update c pc }

def setReader (s : RcuCalls) (t : ℕ) (r : ListReader) : RcuCalls :=
  { s with reader := Function.update s.reader t r }

def advance (b : ℕ) (s : RcuCalls) (c : ℕ) : RcuCalls :=
  let pc := s.update c
  { links := (pc.step b s.links).2
    update := Function.update s.update c (pc.step b s.links).1
    reader := fun t => (s.reader t).forget pc.unlinks
    members := pc.members s.members }

def next (s : RcuCalls) (t : ℕ) : RcuCalls :=
  match s.reader t with
  | .iterating (some y) visited expected =>
    s.setReader t (.iterating (s.links.next y) (y :: visited) expected)
  | _ => s

def run (b : ℕ) (s : RcuCalls) : RcuListOp → RcuCalls
  | .insert c x => s.call c (.insertLoad x)
  | .remove c x => s.call c (.removePrev x)
  | .replace c x y => s.call c (.replacePrev x y)
  | .advance c => s.advance b c
  | .iter t => s.setReader t (.iterating (s.links.head b) [] s.members)
  | .next t => s.next t
  | .drop t => s.setReader t .idle

/-- Calls under way are about different nodes, and nodes are inserted or removed that are not or are
members. -/
def Enabled (s : RcuCalls) : RcuListOp → Prop
  | .insert c x => s.update c = .idle ∧ x ∉ s.members ∧ ∀ c', x ∉ (s.update c').nodes
  | .remove c x => s.update c = .idle ∧ x ∈ s.members ∧ ∀ c', x ∉ (s.update c').nodes
  | .replace c x y => s.update c = .idle ∧ x ∈ s.members ∧ y ∉ s.members ∧
      ∀ c', x ∉ (s.update c').nodes ∧ y ∉ (s.update c').nodes
  | .advance c => s.update c ≠ .idle
  | .iter t => s.reader t = .idle
  | .next t => ∃ y visited expected, s.reader t = .iterating (some y) visited expected
  | .drop t => ∃ cur visited expected, s.reader t = .iterating cur visited expected

end RcuCalls

def rcuCalls (b : ℕ) (cond : RcuCalls → RcuListOp → Prop) : System RcuCalls RcuListOp Empty where
  init s := s = {}
  allowed s op := s.Enabled op ∧ cond s op
  run s op := .ok (s.run b op)

end Dlutos.Vfs
