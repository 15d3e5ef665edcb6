/-
Module: Jcl.Lib.WordAlign
Layer: Library
Purpose: Rounding 64-bit words up to powers of two. C code tests a power of two with `(a - 1) & a` and
  rounds with `(n + a - 1) & ~(a - 1)`; both are related here to `Nat.isPowerOfTwo` and to the unbounded
  `roundUp`, the least multiple of `a` at or above `n`. The mask form may wrap: it is the unbounded result
  modulo the word size, and the unbounded result itself as soon as that fits in a word.
Trusted boundary: none (fully proved)
Main exports: roundUp, roundUp_least, toNat_maskDown, maskUp_ofNat, toNat_maskUp, testPow2_iff, ceilPow2,
  ceilPow2_least, dvd_toNat_add
-/
import Mathlib.Tactic.Linarith
import Mathlib.Tactic.Ring
import Mathlib.Algebra.Order.Group.Nat

namespace WordAlign

/-- The least multiple of `a` at or above `n`, in unbounded arithmetic. -/
def roundUp (n a : Nat) : Nat := (n + a - 1) / a * a

theorem dvd_roundUp (n a : Nat) : a ∣ roundUp n a := Dvd.intro_left _ rfl

theorem le_roundUp (n : Nat) {a : Nat} (ha : 0 < a) : n ≤ roundUp n a := by
  have hdiv := Nat.div_add_mod (n + a - 1) a
  have hmod := Nat.mod_lt (n + a - 1) ha
  have hcomm : (n + a - 1) / a * a = a * ((n + a - 1) / a) := Nat.mul_comm _ _
  unfold roundUp
  omega

theorem roundUp_lt (n : Nat) {a : Nat} (ha : 0 < a) : roundUp n a < n + a := by
  have hle : (n + a - 1) / a * a ≤ n + a - 1 := Nat.div_mul_le_self _ _
  unfold roundUp
  omega

/-- Any multiple of `a` at or above `n` is at or above `roundUp n a`. -/
theorem roundUp_least {n a m : Nat} (hdvd : a ∣ m) (hle : n ≤ m) : roundUp n a ≤ m := by
  obtain ⟨q, rfl⟩ := hdvd
  rcases Nat.eq_zero_or_pos a with rfl | ha
  · simp [roundUp]
  · by_contra hlt
    have hq : q < (n + a - 1) / a := by
      unfold roundUp at hlt
      rw [Nat.mul_comm a q] at hlt
      exact Nat.lt_of_mul_lt_mul_right (Nat.lt_of_not_le hlt)
    have hstep : (q + 1) * a ≤ n + a - 1 := (Nat.le_div_iff_mul_le ha).1 hq
    rw [Nat.add_mul, Nat.one_mul, Nat.mul_comm q a] at hstep
    omega

theorem roundUp_eq_self {n a : Nat} (ha : 0 < a) (hdvd : a ∣ n) : roundUp n a = n :=
  Nat.le_antisymm (roundUp_least hdvd (Nat.le_refl n)) (le_roundUp n ha)

theorem toNat_pred {a : UInt64} (ha : 0 < a.toNat) : (a - 1).toNat = a.toNat - 1 := by
  rw [UInt64.toNat_sub_of_le _ _ (by rw [UInt64.le_iff_toNat_le]; simp; omega)]
  rfl

/-- The `(a - 1) & a` test of C code recognises exactly the powers of two. -/
theorem testPow2_iff (a : UInt64) :
    (a ≠ 0 ∧ (a - 1) &&& a = 0) ↔ a.toNat.isPowerOfTwo := by
  rw [← Nat.ne_zero_and_sub_one_eq_zero_iff_isPowerOfTwo]
  have hzero : a ≠ 0 ↔ a.toNat ≠ 0 := by
    rw [← UInt64.toNat_inj.ne]
    rfl
  rw [hzero]
  refine and_congr_right fun hpos => ?_
  rw [← UInt64.toNat_inj, UInt64.toNat_and, toNat_pred (Nat.pos_of_ne_zero hpos), Nat.and_comm]
  rfl

/-- Masking with `~(a - 1)` rounds down to a multiple of the power of two `a`. -/
theorem toNat_maskDown (x : UInt64) {a : UInt64} (ha : a.toNat.isPowerOfTwo) :
    (x &&& ~~~(a - 1)).toNat = x.toNat / a.toNat * a.toNat := by
  obtain ⟨k, hk⟩ := ha
  have hpred : (a - 1).toNat = 2 ^ k - 1 := by
    rw [toNat_pred (hk ▸ Nat.two_pow_pos k), hk]
  rw [hk, ← Nat.shiftRight_eq_div_pow, ← Nat.shiftLeft_eq]
  apply Nat.eq_of_testBit_eq
  intro i
  rw [UInt64.toNat_and, UInt64.toNat_not, hpred, Nat.testBit_and, Nat.testBit_shiftLeft,
    Nat.testBit_shiftRight]
  have hsize : UInt64.size - 1 - (2 ^ k - 1) = 2 ^ 64 - ((2 ^ k - 1) + 1) := by
    simp [UInt64.size]
  have hlt : 2 ^ k - 1 < 2 ^ 64 := hpred ▸ (a - 1).toNat_lt
  rw [hsize, Nat.testBit_two_pow_sub_succ hlt, Nat.testBit_two_pow_sub_one]
  by_cases hi : i < 64
  · by_cases hki : k ≤ i
    · simp [hi, hki]
    · simp [hi, hki]
      omega
  · have hx : x.toNat.testBit i = false := by
      refine Nat.testBit_lt_two_pow (Nat.lt_of_lt_of_le x.toNat_lt ?_)
      exact Nat.pow_le_pow_right (by omega) (by omega)
    by_cases hki : k ≤ i
    · simp [hi, hx, hki]
    · simp [hi, hx, hki]

theorem isPowerOfTwo_dvd_word {a : UInt64} (ha : a.toNat.isPowerOfTwo) : a.toNat ∣ 2 ^ 64 := by
  obtain ⟨k, hk⟩ := ha
  have hlt : 2 ^ k < 2 ^ 64 := hk ▸ a.toNat_lt
  rw [hk]
  exact Nat.pow_dvd_pow 2 (Nat.le_of_lt ((Nat.pow_lt_pow_iff_right (by omega)).1 hlt))

/-- Rounding down to a multiple of a divisor of the modulus commutes with reducing. -/
theorem mod_div_mul {w a : Nat} (ha : a ∣ w) (m : Nat) : m % w / a * a = m / a * a % w := by
  obtain ⟨q, rfl⟩ := ha
  rw [Nat.mod_mul_right_div_self, ← Nat.mul_mod_mul_right, Nat.mul_comm q a]

/-- On a word that stands for `n` modulo the word size, `(x + a - 1) & ~(a - 1)` stands for the unbounded
    round-up of `n`, whether or not anything wraps. -/
theorem maskUp_ofNat (n : Nat) {a : UInt64} (ha : a.toNat.isPowerOfTwo) :
    (UInt64.ofNat n + a - 1) &&& ~~~(a - 1) = UInt64.ofNat (roundUp n a.toNat) := by
  have hpos : 0 < a.toNat := Nat.pos_of_isPowerOfTwo ha
  have hsum : UInt64.ofNat n + a - 1 = UInt64.ofNat (n + a.toNat - 1) := by
    have hassoc : UInt64.ofNat n + a - 1 = UInt64.ofNat n + (a - 1) := by
      rw [UInt64.sub_eq_add_neg, UInt64.sub_eq_add_neg, UInt64.add_assoc]
    have hpred : a - 1 = UInt64.ofNat (a.toNat - 1) := by
      rw [← toNat_pred hpos, UInt64.ofNat_toNat]
    rw [hassoc, hpred, ← UInt64.ofNat_add]
    congr 1
    omega
  rw [← UInt64.toNat_inj, toNat_maskDown _ ha, hsum, UInt64.toNat_ofNat', UInt64.toNat_ofNat']
  exact mod_div_mul (isPowerOfTwo_dvd_word ha) _

/-- `(x + a - 1) & ~(a - 1)` is the unbounded round-up whenever that fits in a word: the intermediate sum
    cannot wrap without the rounded result leaving the word as well. -/
theorem toNat_maskUp (x : UInt64) {a : UInt64} (ha : a.toNat.isPowerOfTwo)
    (hfit : roundUp x.toNat a.toNat < 2 ^ 64) :
    ((x + a - 1) &&& ~~~(a - 1)).toNat = roundUp x.toNat a.toNat := by
  have hmask := maskUp_ofNat x.toNat ha
  rw [UInt64.ofNat_toNat] at hmask
  rw [hmask, UInt64.toNat_ofNat', Nat.mod_eq_of_lt hfit]

/-- The least power of two at or above `n`. -/
def ceilPow2 (n : Nat) : Nat := if n ≤ 1 then 1 else 2 ^ (Nat.log2 (n - 1) + 1)

theorem isPowerOfTwo_ceilPow2 (n : Nat) : (ceilPow2 n).isPowerOfTwo := by
  unfold ceilPow2
  split
  · exact Nat.isPowerOfTwo_one
  · exact ⟨_, rfl⟩

theorem le_ceilPow2 (n : Nat) : n ≤ ceilPow2 n := by
  unfold ceilPow2
  split
  · case isTrue h => exact h
  · case isFalse h =>
      have hlt := Nat.lt_log2_self (n := n - 1)
      omega

/-- Any power of two at or above `n` is at or above `ceilPow2 n`. -/
theorem ceilPow2_least {n m : Nat} (hm : m.isPowerOfTwo) (hle : n ≤ m) : ceilPow2 n ≤ m := by
  unfold ceilPow2
  split
  · exact Nat.pos_of_isPowerOfTwo hm
  · case isFalse h =>
      obtain ⟨k, rfl⟩ := hm
      have hlog : Nat.log2 (n - 1) < k := (Nat.log2_lt (by omega)).2 (by omega)
      exact Nat.pow_le_pow_right (by omega) hlog

/-- The larger of two powers of two is a multiple of the other. -/
theorem isPowerOfTwo_dvd_of_le {a b : Nat} (ha : a.isPowerOfTwo) (hb : b.isPowerOfTwo) (hle : a ≤ b) :
    a ∣ b := by
  obtain ⟨i, rfl⟩ := ha
  obtain ⟨j, rfl⟩ := hb
  exact Nat.pow_dvd_pow 2 ((Nat.pow_le_pow_iff_right (by omega)).1 hle)

/-! ### Multiples of a divisor of the word size -/

/-- Reducing to a word keeps the multiples of a divisor of the word size. -/
theorem dvd_toNat_ofNat {d n : Nat} (hd : d ∣ 2 ^ 64) : d ∣ (UInt64.ofNat n).toNat ↔ d ∣ n := by
  rw [UInt64.toNat_ofNat']
  exact Nat.dvd_mod_iff hd

theorem dvd_toNat_add {d : Nat} {x y : UInt64} (hd : d ∣ 2 ^ 64) (hx : d ∣ x.toNat) (hy : d ∣ y.toNat) :
    d ∣ (x + y).toNat := by
  rw [UInt64.toNat_add]
  exact (Nat.dvd_mod_iff hd).2 (Nat.dvd_add hx hy)

theorem dvd_toNat_mul {d : Nat} {y : UInt64} (hd : d ∣ 2 ^ 64) (x : UInt64) (hy : d ∣ y.toNat) :
    d ∣ (x * y).toNat := by
  rw [UInt64.toNat_mul]
  exact (Nat.dvd_mod_iff hd).2 (Dvd.dvd.mul_left hy x.toNat)

end WordAlign
