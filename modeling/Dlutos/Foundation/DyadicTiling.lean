import Mathlib.Data.Nat.Bitwise

/-!
# Tilings by aligned power-of-two blocks

A block of order `o` at `p` is the interval `[p, p + 2 ^ o)`.  A partial map `B` from heads to
orders tiles a set `S` when every block is aligned to its own size, distinct blocks are disjoint,
and the blocks cover exactly `S`.  Tilings are stable under adding a block outside of `S`, halving a
block, and joining a block with its buddy `p ^^^ 2 ^ o`.
-/

namespace DyadicTiling

open Function

/-- `x` lies in the block of order `o` at `p`. -/
def InBlock (p o x : ℕ) : Prop := p ≤ x ∧ x < p + 2 ^ o

theorem inBlock_self (p o : ℕ) : InBlock p o p :=
  ⟨le_rfl, Nat.lt_add_of_pos_right (Nat.two_pow_pos o)⟩

theorem inBlock_succ {p o x : ℕ} :
    InBlock p (o + 1) x ↔ InBlock p o x ∨ InBlock (p + 2 ^ o) o x := by
  unfold InBlock
  rw [pow_succ]
  omega

theorem not_inBlock_both_halves {p o x : ℕ} (h1 : InBlock p o x) (h2 : InBlock (p + 2 ^ o) o x) :
    False := by
  unfold InBlock at h1 h2
  omega

/-! ### The bit arithmetic of buddies -/

private theorem xor_one_cases (m : ℕ) :
    (m % 2 = 0 ∧ m ^^^ 1 = m + 1 ∧ m &&& (m ^^^ 1) = m) ∨
      (m % 2 = 1 ∧ (m ^^^ 1) + 1 = m ∧ m &&& (m ^^^ 1) = m ^^^ 1) := by
  have hdiv : (m ^^^ 1) / 2 = m / 2 := by rw [Nat.xor_div_two]; simp
  have hmod : (m ^^^ 1) % 2 = (m + 1) % 2 := Nat.xor_mod_two_eq
  have hadiv : (m &&& (m ^^^ 1)) / 2 = m / 2 := by rw [Nat.and_div_two, hdiv, Nat.and_self]
  have hamod : (m &&& (m ^^^ 1)) % 2 ≠ 1 := by
    rw [Ne, Nat.and_mod_two_eq_one]
    omega
  omega

theorem buddy_cases {p o : ℕ} (hp : 2 ^ o ∣ p) :
    (2 ^ (o + 1) ∣ p ∧ p ^^^ 2 ^ o = p + 2 ^ o ∧ p &&& (p ^^^ 2 ^ o) = p) ∨
      (2 ^ (o + 1) ∣ p ^^^ 2 ^ o ∧ (p ^^^ 2 ^ o) + 2 ^ o = p ∧
        p &&& (p ^^^ 2 ^ o) = p ^^^ 2 ^ o) := by
  obtain ⟨m, rfl⟩ := hp
  have hshift : ∀ k, 2 ^ o * k = k <<< o := fun k => by rw [Nat.shiftLeft_eq, mul_comm]
  have hxor : 2 ^ o * m ^^^ 2 ^ o = 2 ^ o * (m ^^^ 1) := by
    have hone : 2 ^ o = 1 <<< o := by rw [Nat.shiftLeft_eq, one_mul]
    calc 2 ^ o * m ^^^ 2 ^ o = m <<< o ^^^ 1 <<< o := by rw [hshift, ← hone]
      _ = (m ^^^ 1) <<< o := Nat.shiftLeft_xor_distrib.symm
      _ = 2 ^ o * (m ^^^ 1) := (hshift _).symm
  have hand : 2 ^ o * m &&& 2 ^ o * (m ^^^ 1) = 2 ^ o * (m &&& (m ^^^ 1)) := by
    rw [hshift, hshift, hshift, Nat.shiftLeft_and_distrib]
  rw [hxor, hand, pow_succ]
  rcases xor_one_cases m with ⟨heven, hx, ha⟩ | ⟨hodd, hx, ha⟩
  · left
    refine ⟨Nat.mul_dvd_mul_left _ (Nat.dvd_of_mod_eq_zero heven), ?_, by rw [ha]⟩
    rw [hx, mul_add, mul_one]
  · right
    refine ⟨Nat.mul_dvd_mul_left _ (by omega), ?_, by rw [ha]⟩
    calc 2 ^ o * (m ^^^ 1) + 2 ^ o = 2 ^ o * ((m ^^^ 1) + 1) := by rw [mul_add, mul_one]
      _ = 2 ^ o * m := by rw [hx]

theorem buddy_ne {p o : ℕ} (hp : 2 ^ o ∣ p) : p ^^^ 2 ^ o ≠ p := by
  have hpos : 0 < 2 ^ o := Nat.two_pow_pos o
  rcases buddy_cases hp with ⟨-, h, -⟩ | ⟨-, h, -⟩ <;> omega

theorem inBlock_of_buddy_aligned {p o k : ℕ} (hp : 2 ^ o ∣ p) (hk : o < k)
    (hb : 2 ^ k ∣ p ^^^ 2 ^ o) : InBlock (p ^^^ 2 ^ o) k p := by
  have hpos : 0 < 2 ^ o := Nat.two_pow_pos o
  have hlt : 2 ^ o < 2 ^ k := Nat.pow_lt_pow_right Nat.one_lt_two hk
  have hb' : 2 ^ (o + 1) ∣ p ^^^ 2 ^ o := (pow_dvd_pow 2 hk).trans hb
  unfold InBlock
  rcases buddy_cases hp with ⟨hal, h, -⟩ | ⟨-, h, -⟩
  · rw [h] at hb'
    have hle := Nat.le_of_dvd hpos ((Nat.dvd_add_right hal).mp hb')
    rw [pow_succ] at hle
    omega
  · omega

/-! ### Tilings -/

/-- The partial map `B` from heads to orders tiles the set `S`. -/
structure Tiling (B : ℕ → Option ℕ) (S : ℕ → Prop) : Prop where
  aligned : ∀ p o, B p = some o → 2 ^ o ∣ p
  disjoint : ∀ p o q k x, B p = some o → B q = some k → InBlock p o x → InBlock q k x → p = q
  cover : ∀ x, S x ↔ ∃ p o, B p = some o ∧ InBlock p o x

variable {B : ℕ → Option ℕ} {S : ℕ → Prop} {p q o k x : ℕ}

theorem Tiling.empty : Tiling (fun _ => none) fun _ => False where
  aligned _ _ h := nomatch h
  disjoint _ _ _ _ _ h := nomatch h
  cover _ := ⟨False.elim, fun ⟨_, _, h, _⟩ => nomatch h⟩

section

variable (ht : Tiling B S)
include ht

theorem Tiling.head_eq (hp : B p = some o) (hq : B q = some k) (hx : InBlock p o q) : p = q :=
  ht.disjoint p o q k q hp hq hx (inBlock_self q k)

theorem Tiling.eq_none_of_interior (hp : B p = some o) (hx : InBlock p o x)
    (hne : p ≠ x) : B x = none := by
  cases hk : B x with
  | none => rfl
  | some k => exact absurd (ht.head_eq hp hk hx) hne

theorem Tiling.mem_of_inBlock (hp : B p = some o) (hx : InBlock p o x) : S x :=
  (ht.cover x).mpr ⟨p, o, hp, hx⟩

theorem Tiling.eq_none_of_not_mem (hx : ¬ S x) : B x = none := by
  cases hk : B x with
  | none => rfl
  | some k => exact absurd (ht.mem_of_inBlock hk (inBlock_self x k)) hx

theorem Tiling.insert (hal : 2 ^ o ∣ p) (hout : ∀ x, InBlock p o x → ¬ S x) :
    Tiling (update B p (some o)) fun x => S x ∨ InBlock p o x := by
  have hcase : ∀ q k, update B p (some o) q = some k →
      (q = p ∧ k = o) ∨ (q ≠ p ∧ B q = some k) := by
    intro q k hq
    by_cases hqp : q = p
    · subst hqp
      rw [update_self] at hq
      exact Or.inl ⟨rfl, (Option.some.inj hq).symm⟩
    · rw [update_of_ne hqp] at hq
      exact Or.inr ⟨hqp, hq⟩
  refine ⟨?_, ?_, fun x => ⟨?_, ?_⟩⟩
  · intro q k hq
    rcases hcase q k hq with ⟨rfl, rfl⟩ | ⟨-, hq⟩
    · exact hal
    · exact ht.aligned q k hq
  · intro q k q' k' x hq hq' hx hx'
    rcases hcase q k hq with ⟨hqp, hk⟩ | ⟨-, hB⟩ <;>
      rcases hcase q' k' hq' with ⟨hqp', hk'⟩ | ⟨-, hB'⟩
    · rw [hqp, hqp']
    · exact absurd (ht.mem_of_inBlock hB' hx') (hout x (hqp ▸ hk ▸ hx))
    · exact absurd (ht.mem_of_inBlock hB hx) (hout x (hqp' ▸ hk' ▸ hx'))
    · exact ht.disjoint q k q' k' x hB hB' hx hx'
  · rintro (hS | hx)
    · obtain ⟨q, k, hq, hx⟩ := (ht.cover x).mp hS
      have hne : q ≠ p := by
        rintro rfl
        exact hout q (inBlock_self q o) (ht.mem_of_inBlock hq (inBlock_self q k))
      exact ⟨q, k, by rw [update_of_ne hne]; exact hq, hx⟩
    · exact ⟨p, o, by rw [update_self], hx⟩
  · rintro ⟨q, k, hq, hx⟩
    rcases hcase q k hq with ⟨rfl, rfl⟩ | ⟨-, hq⟩
    · exact Or.inr hx
    · exact Or.inl (ht.mem_of_inBlock hq hx)

theorem Tiling.erase (hp : B p = some o) :
    Tiling (update B p none) fun x => S x ∧ ¬ InBlock p o x := by
  have hcase : ∀ q k, update B p none q = some k → q ≠ p ∧ B q = some k := by
    intro q k hq
    by_cases hqp : q = p
    · subst hqp
      rw [update_self] at hq
      exact nomatch hq
    · rw [update_of_ne hqp] at hq
      exact ⟨hqp, hq⟩
  refine ⟨fun q k hq => ht.aligned q k (hcase q k hq).2, ?_, fun x => ⟨?_, ?_⟩⟩
  · intro q k q' k' x hq hq' hx hx'
    exact ht.disjoint q k q' k' x (hcase q k hq).2 (hcase q' k' hq').2 hx hx'
  · rintro ⟨hS, hx⟩
    obtain ⟨q, k, hq, hxq⟩ := (ht.cover x).mp hS
    have hne : q ≠ p := by
      rintro rfl
      obtain rfl : o = k := Option.some.inj (hp.symm.trans hq)
      exact hx hxq
    exact ⟨q, k, by rw [update_of_ne hne]; exact hq, hxq⟩
  · rintro ⟨q, k, hq, hx⟩
    obtain ⟨hne, hq⟩ := hcase q k hq
    refine ⟨ht.mem_of_inBlock hq hx, fun hx' => hne ?_⟩
    exact (ht.disjoint p o q k x hp hq hx' hx).symm

theorem Tiling.congr {S' : ℕ → Prop} (hS : ∀ x, S x ↔ S' x) : Tiling B S' where
  aligned := ht.aligned
  disjoint := ht.disjoint
  cover x := (hS x).symm.trans (ht.cover x)

theorem Tiling.split (hp : B p = some (o + 1)) :
    Tiling (update (update B p (some o)) (p + 2 ^ o) (some o)) S := by
  have hal : 2 ^ (o + 1) ∣ p := ht.aligned p (o + 1) hp
  have hal1 : 2 ^ o ∣ p := (pow_dvd_pow 2 (Nat.le_succ o)).trans hal
  have h1 := (ht.erase hp).insert hal1 fun x hx hx' => hx'.2 (inBlock_succ.mpr (Or.inl hx))
  have h2 := h1.insert (p := p + 2 ^ o) (o := o) (Nat.dvd_add hal1 (dvd_refl _)) (by
    rintro x hx (hx' | hx')
    · exact hx'.2 (inBlock_succ.mpr (Or.inr hx))
    · exact not_inBlock_both_halves hx' hx)
  rw [update_idem] at h2
  refine h2.congr fun x => ⟨?_, fun hS => ?_⟩
  · rintro ((⟨hS, -⟩ | hx) | hx)
    · exact hS
    · exact ht.mem_of_inBlock hp (inBlock_succ.mpr (Or.inl hx))
    · exact ht.mem_of_inBlock hp (inBlock_succ.mpr (Or.inr hx))
  · by_cases hx : InBlock p (o + 1) x
    · exact (inBlock_succ.mp hx).imp (fun h => Or.inr h) id
    · exact Or.inl (Or.inl ⟨hS, hx⟩)

private theorem Tiling.join (hp : B p = some o) (hq : B (p + 2 ^ o) = some o)
    (hal : 2 ^ (o + 1) ∣ p) :
    Tiling (update (update B (p + 2 ^ o) none) p (some (o + 1))) S := by
  have hne : p ≠ p + 2 ^ o := by
    have := Nat.two_pow_pos o
    omega
  have h1 := ht.erase hq
  have h2 := h1.erase (p := p) (o := o) (by rw [update_of_ne hne]; exact hp)
  have h3 := h2.insert hal fun x hx hx' => by
    rcases inBlock_succ.mp hx with h | h
    · exact hx'.2 h
    · exact hx'.1.2 h
  rw [update_idem] at h3
  refine h3.congr fun x => ⟨?_, fun hS => ?_⟩
  · rintro (⟨⟨hS, -⟩, -⟩ | hx)
    · exact hS
    · rcases inBlock_succ.mp hx with h | h
      · exact ht.mem_of_inBlock hp h
      · exact ht.mem_of_inBlock hq h
  · by_cases hx : InBlock p (o + 1) x
    · exact Or.inr hx
    · rw [inBlock_succ, not_or] at hx
      exact Or.inl ⟨⟨hS, hx.2⟩, hx.1⟩

theorem Tiling.merge (hp : B p = some o) (hq : B (p ^^^ 2 ^ o) = some o) :
    Tiling (update (update (update B p none) (p ^^^ 2 ^ o) none)
      (p &&& (p ^^^ 2 ^ o)) (some (o + 1))) S := by
  rcases buddy_cases (ht.aligned p o hp) with ⟨hal, hx, ha⟩ | ⟨hal, hx, ha⟩
  · have hne : p ≠ p + 2 ^ o := by
      have := Nat.two_pow_pos o
      omega
    rw [hx] at hq
    rw [ha, hx, update_comm hne, update_idem]
    exact ht.join hp hq hal
  · generalize hb : p ^^^ 2 ^ o = b at *
    subst hx
    rw [ha, update_idem]
    exact ht.join hq hp hal

end

end DyadicTiling
