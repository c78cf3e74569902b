import Dlutos.AddressSpace.World

/-!
# Raw page-table entries

The entries of `arch/riscv64/mm.rs` as words of 64 bits, read as a page or as a pointer to a table;
the hardware takes a present entry without any of the permissions for a table.  `PTE64.ofEntry` is
the word of an entry of `World`, and reading it back is `PageAttribute.asPageAttr`.
-/

namespace Dlutos

abbrev PageAttribute64 := BitVec 64

abbrev PTE64 := BitVec 64

def PA_V : BitVec 64 := 1 <<< 0
def PA_R : BitVec 64 := 1 <<< 1
def PA_W : BitVec 64 := 1 <<< 2
def PA_X : BitVec 64 := 1 <<< 3
def PA_U : BitVec 64 := 1 <<< 4
def PA_G : BitVec 64 := 1 <<< 5
def PA_A : BitVec 64 := 1 <<< 6
def PA_D : BitVec 64 := 1 <<< 7
def PA_COW : BitVec 64 := 1 <<< 8
def PA_MMAP : BitVec 64 := 1 <<< 9
def PA_SHIFT : ℕ := 10
def PA_FLAGS_MASK : BitVec 64 := 0x3FF#64

structure TableAttribute where
  present : Bool := false
  user : Bool := false
  accessed : Bool := false
  global : Bool := false
  deriving DecidableEq

namespace PTE64

def set (pfn : PFN) (attr : PageAttribute64) : PTE64 := BitVec.ofNat 64 (pfn <<< PA_SHIFT) ||| attr

def getAttr (pte : PTE64) : PageAttribute64 := pte &&& PA_FLAGS_MASK

def getPfn (pte : PTE64) : PFN := (pte >>> PA_SHIFT).toNat

end PTE64

namespace PageAttribute64

def has (raw : PageAttribute64) (mask : BitVec 64) : Bool := raw &&& mask != 0#64

def asTableAttr (raw : PageAttribute64) : Option TableAttribute :=
  let present := raw.has PA_V
  if present && raw.has (PA_R ||| PA_W ||| PA_X) then none
  else some { present := present, global := raw.has PA_G, user := raw.has PA_U,
              accessed := raw.has PA_A }

def asPageAttr (raw : PageAttribute64) : Option PageAttribute :=
  let present := raw.has PA_V
  if present && !raw.has (PA_R ||| PA_W ||| PA_X) then none
  else some { present := present, read := raw.has PA_R, write := raw.has PA_W,
              execute := raw.has PA_X, user := raw.has PA_U, accessed := raw.has PA_A,
              dirty := raw.has PA_D, global := raw.has PA_G, copyOnWrite := raw.has PA_COW,
              mapped := raw.has PA_MMAP }

def flag (b : Bool) (mask : BitVec 64) : BitVec 64 := if b then mask else 0#64

def ofPageAttr (attr : PageAttribute) : PageAttribute64 :=
  flag attr.present PA_V ||| flag attr.read PA_R ||| flag attr.write PA_W |||
    flag attr.execute PA_X ||| flag attr.user PA_U ||| flag attr.accessed PA_A |||
    flag attr.dirty PA_D ||| flag attr.global PA_G ||| flag attr.copyOnWrite PA_COW |||
    flag attr.mapped PA_MMAP

/-- `From<TableAttribute>`: `USER` and `ACCESSED` are dropped. -/
def ofTableAttr (attr : TableAttribute) : PageAttribute64 :=
  flag attr.present PA_V ||| flag attr.global PA_G

/-! ### Single flags -/

theorem has_shiftLeft (raw : PageAttribute64) {k : ℕ} (hk : k < 64) :
    raw.has (1 <<< k) = raw.getLsbD k := by
  have hmask : (1 <<< k : BitVec 64) = BitVec.twoPow 64 k := rfl
  unfold has
  rw [hmask, BitVec.and_twoPow]
  cases raw.getLsbD k with
  | false => rfl
  | true =>
    rw [if_pos rfl, bne_iff_ne]
    intro hzero
    have hbit := congrArg (fun x => x.getLsbD k) hzero
    simp [hk] at hbit

theorem has_or (raw : PageAttribute64) (m m' : BitVec 64) :
    raw.has (m ||| m') = (raw.has m || raw.has m') := by
  unfold has
  rw [BitVec.and_or_distrib_left, Bool.eq_iff_iff]
  simp only [bne_iff_ne, ne_eq, Bool.or_eq_true, BitVec.or_eq_zero_iff]
  tauto

theorem getLsbD_flag (b : Bool) {i : ℕ} (hi : i < 64) (k : ℕ) :
    (flag b (1 <<< i)).getLsbD k = (b && decide (i = k)) := by
  have hmask : (1 <<< i : BitVec 64) = BitVec.twoPow 64 i := rfl
  unfold flag
  rw [hmask]
  cases b with
  | false => simp
  | true => simp [BitVec.getLsbD_twoPow, hi]

theorem getLsbD_ofPageAttr (attr : PageAttribute) (k : ℕ) : (ofPageAttr attr).getLsbD k =
    [attr.present, attr.read, attr.write, attr.execute, attr.user, attr.global, attr.accessed,
      attr.dirty, attr.copyOnWrite, attr.mapped].getD k false := by
  unfold ofPageAttr PA_V PA_R PA_W PA_X PA_U PA_A PA_D PA_G PA_COW PA_MMAP
  simp only [BitVec.getLsbD_or]
  iterate 10 rw [getLsbD_flag _ (by decide)]
  rcases k with _ | _ | _ | _ | _ | _ | _ | _ | _ | _ | k
  all_goals simp

theorem has_ofPageAttr (attr : PageAttribute) {k : ℕ} (hk : k < 64) :
    (ofPageAttr attr).has (1 <<< k) =
      [attr.present, attr.read, attr.write, attr.execute, attr.user, attr.global, attr.accessed,
        attr.dirty, attr.copyOnWrite, attr.mapped].getD k false := by
  rw [has_shiftLeft _ hk, getLsbD_ofPageAttr]

theorem asPageAttr_ofPageAttr (attr : PageAttribute) :
    (ofPageAttr attr).asPageAttr = attr.asPageAttr := by
  unfold asPageAttr PageAttribute.asPageAttr PA_V PA_R PA_W PA_X PA_U PA_A PA_D PA_G PA_COW PA_MMAP
  simp only [has_or]
  iterate 10 rw [has_ofPageAttr attr (by decide)]
  rfl

theorem asTableAttr_ofPageAttr (attr : PageAttribute) : (ofPageAttr attr).asTableAttr =
    if attr.present && (attr.read || attr.write || attr.execute) then none
    else some { present := attr.present, global := attr.global, user := attr.user,
                accessed := attr.accessed } := by
  unfold asTableAttr PA_V PA_R PA_W PA_X PA_U PA_A PA_G
  simp only [has_or]
  iterate 7 rw [has_ofPageAttr attr (by decide)]
  rfl

theorem ofPageAttr_ofTableAttr (attr : TableAttribute) :
    ofPageAttr { present := attr.present, global := attr.global } = ofTableAttr attr := by
  simp [ofPageAttr, ofTableAttr, flag]

end PageAttribute64

/-! ### Whole entries -/

namespace PTE64

def ofEntry (t : PTE) : PTE64 := set t.pfn (PageAttribute64.ofPageAttr t.attr)

theorem getAttr_ofEntry (t : PTE) : (ofEntry t).getAttr = PageAttribute64.ofPageAttr t.attr := by
  unfold ofEntry set getAttr PA_FLAGS_MASK PA_SHIFT
  refine BitVec.eq_of_getLsbD_eq fun k hk => ?_
  have hmask : (0x3FF#64).getLsbD k = decide (k < 10) := by
    rw [BitVec.getLsbD_ofNat, decide_eq_true hk, Bool.true_and]
    exact Nat.testBit_two_pow_sub_one 10 k
  rw [BitVec.getLsbD_and, BitVec.getLsbD_or, hmask, BitVec.getLsbD_ofNat, Nat.testBit_shiftLeft]
  by_cases hlow : k < 10
  · have hge : ¬ k ≥ 10 := Nat.not_le.mpr hlow
    simp [hlow, hge]
  · have hnone : (PageAttribute64.ofPageAttr t.attr).getLsbD k = false := by
      rw [PageAttribute64.getLsbD_ofPageAttr, List.getD_eq_getElem?_getD,
        List.getElem?_eq_none (Nat.not_lt.mp hlow)]
      rfl
    rw [hnone]
    simp [hlow]

theorem asPageAttr_getAttr_ofEntry (t : PTE) :
    (ofEntry t).getAttr.asPageAttr = t.attr.asPageAttr := by
  rw [getAttr_ofEntry]
  exact PageAttribute64.asPageAttr_ofPageAttr t.attr

theorem getPfn_set {pfn : PFN} (hfit : pfn < 2 ^ 54) {attr : PageAttribute64}
    (hattr : attr.toNat >>> PA_SHIFT = 0) : (set pfn attr).getPfn = pfn := by
  have hlt : pfn <<< PA_SHIFT < 2 ^ 64 := by
    rw [Nat.shiftLeft_eq]
    exact Nat.mul_lt_mul_of_pos_right hfit (by decide)
  unfold getPfn set
  rw [BitVec.toNat_ushiftRight, BitVec.toNat_or, BitVec.toNat_ofNat, Nat.mod_eq_of_lt hlt,
    Nat.shiftRight_or_distrib, hattr, Nat.shiftLeft_shiftRight, Nat.or_zero]

theorem asTableAttr_set_ofTableAttr (pfn : PFN) (attr : TableAttribute) :
    (set pfn (PageAttribute64.ofTableAttr attr)).getAttr.asTableAttr =
      some { present := attr.present, global := attr.global } := by
  have hword := getAttr_ofEntry ⟨pfn, { present := attr.present, global := attr.global }⟩
  unfold ofEntry at hword
  rw [PageAttribute64.ofPageAttr_ofTableAttr] at hword
  rw [hword, ← PageAttribute64.ofPageAttr_ofTableAttr, PageAttribute64.asTableAttr_ofPageAttr]
  simp

theorem not_present_of_asTableAttr {t : PTE} {attr : PageAttribute} {table : TableAttribute}
    (hpage : (ofEntry t).getAttr.asPageAttr = some attr)
    (htable : (ofEntry t).getAttr.asTableAttr = some table) : table.present = false := by
  rw [asPageAttr_getAttr_ofEntry] at hpage
  rw [getAttr_ofEntry, PageAttribute64.asTableAttr_ofPageAttr] at htable
  unfold PageAttribute.asPageAttr at hpage
  cases hp : t.attr.present with
  | false =>
    rw [hp, Bool.false_and, if_neg Bool.false_ne_true] at htable
    cases htable
    rfl
  | true =>
    rw [hp, Bool.true_and] at hpage htable
    cases hrwx : (t.attr.read || t.attr.write || t.attr.execute) with
    | false =>
      rw [hrwx, Bool.not_false, if_pos rfl] at hpage
      cases hpage
    | true =>
      rw [hrwx, if_pos rfl] at htable
      cases htable

end PTE64

end Dlutos
