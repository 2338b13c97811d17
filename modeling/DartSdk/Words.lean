import Mathlib

/-!
Integers in machine words: the bitwise operations on two's complement of unbounded width, what fits
a signed word and what a word keeps of a larger number, and classical facts about powers of two.
-/

namespace DartSdk.TwosComplement

open Nat

lemma land_zero_left (y : ℤ) : Int.land 0 y = 0 := by
  cases y with
  | ofNat n => exact congrArg Int.ofNat (zero_and n)
  | negSucc n =>
    refine congrArg Int.ofNat (eq_of_testBit_eq fun i => ?_)
    rw [testBit_ldiff, zero_testBit, Bool.false_and]

lemma land_comm (x y : ℤ) : Int.land x y = Int.land y x := by
  cases x <;> cases y <;> simp only [Int.land, Nat.and_comm, Nat.or_comm]

lemma lor_zero_left (y : ℤ) : Int.lor 0 y = y := by
  cases y with
  | ofNat n => exact congrArg Int.ofNat (zero_or n)
  | negSucc n =>
    refine congrArg Int.negSucc (eq_of_testBit_eq fun i => ?_)
    rw [testBit_ldiff, zero_testBit, Bool.not_false, Bool.and_true]

lemma lor_comm (x y : ℤ) : Int.lor x y = Int.lor y x := by
  cases x <;> cases y <;> simp only [Int.lor, Nat.and_comm, Nat.or_comm]

lemma lxor_zero_left (y : ℤ) : Int.xor 0 y = y := by
  cases y with
  | ofNat n => exact congrArg Int.ofNat (Nat.zero_xor n)
  | negSucc n => exact congrArg Int.negSucc (Nat.zero_xor n)

lemma lxor_comm (x y : ℤ) : Int.xor x y = Int.xor y x := by
  cases x <;> cases y <;> simp only [Int.xor, Nat.xor_comm]

lemma negSucc_emod_two_pow (m n : ℕ) :
    Int.negSucc m % (2 ^ n : ℕ) = (2 ^ n - (m % 2 ^ n + 1) : ℕ) := by
  rw [Int.emod_negSucc, Int.natAbs_natCast, Int.subNatNat_of_le (by omega)]

/-- The low bits of a number in two's complement are its residue. -/
lemma land_two_pow_sub_one (x : ℤ) (n : ℕ) : x.land (2 ^ n - 1 : ℕ) = x % (2 ^ n : ℕ) := by
  cases x with
  | ofNat m => exact congrArg Int.ofNat (and_two_pow_sub_one_eq_mod m n)
  | negSucc m =>
    have hbits : (2 ^ n - 1).ldiff m = 2 ^ n - (m % 2 ^ n + 1) := by
      refine Nat.eq_of_testBit_eq fun i => ?_
      rw [Nat.testBit_ldiff, Nat.testBit_two_pow_sub_succ (Nat.mod_lt m (Nat.two_pow_pos n)),
        Nat.testBit_two_pow_sub_one, Nat.testBit_mod_two_pow]
      by_cases hi : i < n <;> simp [hi]
    rw [negSucc_emod_two_pow, ← hbits]
    rfl

lemma land_two_pow (x : ℤ) (n : ℕ) :
    x.land (2 ^ n : ℕ) = x % (2 ^ (n + 1) : ℕ) - x % (2 ^ n : ℕ) := by
  cases x with
  | ofNat m =>
    have hbit : (Int.ofNat m).land (2 ^ n : ℕ) = ((m.testBit n).toNat * 2 ^ n : ℕ) :=
      congrArg Int.ofNat (and_two_pow m n)
    have hsucc : m % 2 ^ (n + 1) = m % 2 ^ n + 2 ^ n * (m.testBit n).toNat := by
      rw [mod_pow_succ, toNat_testBit]
    rw [hbit, Int.ofNat_eq_natCast, ← Int.natCast_emod, ← Int.natCast_emod, hsucc]
    push_cast
    ring
  | negSucc m =>
    have hbit : (2 ^ n).ldiff m = if m.testBit n then 0 else 2 ^ n := by
      refine eq_of_testBit_eq fun i => ?_
      rw [testBit_ldiff, testBit_two_pow]
      by_cases hi : n = i
      · subst hi
        cases m.testBit n <;> simp
      · cases m.testBit n <;> simp [hi]
    have hland : (Int.negSucc m).land (2 ^ n : ℕ) = ((2 ^ n).ldiff m : ℕ) := rfl
    have hsucc : m % 2 ^ (n + 1) = m % 2 ^ n + 2 ^ n * (m.testBit n).toNat := by
      rw [mod_pow_succ, toNat_testBit]
    rw [hland, hbit, negSucc_emod_two_pow, negSucc_emod_two_pow, hsucc, pow_succ]
    cases m.testBit n with
    | false =>
      simp only [Bool.false_eq_true, if_false, Bool.toNat_false]
      omega
    | true =>
      simp only [if_true, Bool.toNat_true]
      omega

/-- The sign bit counts negatively. -/
lemma bmod_two_pow (x : ℤ) (n : ℕ) :
    x.bmod (2 ^ (n + 1)) = x.land (2 ^ n - 1 : ℕ) - x.land (2 ^ n : ℕ) := by
  have hbit := land_two_pow x n
  have hlow := land_two_pow_sub_one x n
  have hdvd : x % (2 ^ (n + 1) : ℕ) % (2 ^ n : ℕ) = x % (2 ^ n : ℕ) :=
    Int.emod_emod_of_dvd x (Int.natCast_dvd_natCast.mpr (Nat.pow_dvd_pow 2 (le_succ n)))
  have hnonneg' := Int.emod_nonneg x (b := (2 ^ (n + 1) : ℕ)) (by positivity)
  have hlt' := Int.emod_lt_of_pos x (b := (2 ^ (n + 1) : ℕ)) (by positivity)
  rw [Int.bmod_def, hbit, hlow, ← hdvd]
  rw [pow_succ] at *
  generalize x % (2 ^ n * 2 : ℕ) = r at *
  by_cases hsmall : r < (2 ^ n : ℕ)
  · rw [Int.emod_eq_of_lt hnonneg' hsmall, if_pos (by omega)]
    omega
  · have hhigh : r % (2 ^ n : ℕ) = r - (2 ^ n : ℕ) := by
      rw [← Int.sub_emod_right, Int.emod_eq_of_lt (by omega) (by omega)]
    omega

end DartSdk.TwosComplement

namespace DartSdk.SignedWords

open Nat

/-- A two's complement word of `n + 1` bits holds the number. -/
def Fits (n : ℕ) (x : ℤ) : Prop := -2 ^ n ≤ x ∧ x < 2 ^ n

/-- The number a word of `n + 1` bits keeps. -/
def wrap (n : ℕ) (x : ℤ) : ℤ := x.bmod (2 ^ (n + 1))

variable {m n : ℕ} {x : ℤ}

lemma Fits.mono (h : Fits n x) (hle : n ≤ m) : Fits m x := by
  have hpow : (2 : ℤ) ^ n ≤ 2 ^ m := pow_le_pow_right₀ (by norm_num) hle
  unfold Fits at *
  omega

lemma wrap_of_fits (h : Fits n x) : wrap n x = x := by
  obtain ⟨hlo, hhi⟩ := h
  have hpow : ((2 ^ (n + 1) : ℕ) : ℤ) = 2 * 2 ^ n := by
    push_cast
    ring
  apply Int.bmod_eq_of_le
  · rw [hpow]
    omega
  · rw [hpow]
    omega

lemma fits_wrap (n : ℕ) (x : ℤ) : Fits n (wrap n x) := by
  have hpow : ((2 ^ (n + 1) : ℕ) : ℤ) = 2 * 2 ^ n := by
    push_cast
    ring
  have hpos : 0 < 2 ^ (n + 1) := Nat.two_pow_pos (n + 1)
  have hlo := @Int.le_bmod x _ hpos
  have hhi := @Int.bmod_lt x _ hpos
  unfold Fits wrap
  omega

/-- A word keeps a number up to a multiple of its modulus. -/
lemma exists_wrap_eq (n : ℕ) (x : ℤ) : ∃ k : ℤ, wrap n x = x + k * 2 ^ (n + 1) := by
  obtain ⟨k, hk⟩ : ((2 ^ (n + 1) : ℕ) : ℤ) ∣ wrap n x - x :=
    Int.dvd_bmod_sub_self
  refine ⟨k, ?_⟩
  push_cast at hk
  linarith

lemma wrap_eq_of_fits {n : ℕ} {x y k : ℤ} (hy : Fits n y) (h : y = x + k * 2 ^ (n + 1)) :
    wrap n x = y := by
  have hshift : wrap n x = wrap n y := by
    rw [h, show x + k * 2 ^ (n + 1) = x + ((2 ^ (n + 1) : ℕ) : ℤ) * k by push_cast; ring]
    exact (Int.add_mul_bmod_self_left x _ k).symm
  rw [hshift, wrap_of_fits hy]

lemma fits_natCast : Fits n (Int.ofNat m) ↔ m < 2 ^ n := by
  have hcast : ((2 ^ n : ℕ) : ℤ) = 2 ^ n := by push_cast; rfl
  unfold Fits
  rw [Int.ofNat_eq_natCast]
  omega

lemma fits_negSucc : Fits n (Int.negSucc m) ↔ m < 2 ^ n := by
  have hcast : ((2 ^ n : ℕ) : ℤ) = 2 ^ n := by push_cast; rfl
  unfold Fits
  omega

lemma ldiff_le (m n : ℕ) : m.ldiff n ≤ m := by
  have hsub : m.ldiff n &&& m = m.ldiff n := by
    refine eq_of_testBit_eq fun i => ?_
    rw [testBit_and, testBit_ldiff]
    cases m.testBit i <;> simp
  rw [← hsub]
  exact and_le_right

variable {y : ℤ}

section

variable (hx : Fits n x) (hy : Fits n y)

include hx hy

lemma Fits.land : Fits n (x.land y) := by
  cases x with
  | ofNat a =>
    cases y with
    | ofNat b => exact fits_natCast.mpr (and_lt_two_pow a (fits_natCast.mp hy))
    | negSucc b => exact fits_natCast.mpr ((ldiff_le a b).trans_lt (fits_natCast.mp hx))
  | negSucc a =>
    cases y with
    | ofNat b => exact fits_natCast.mpr ((ldiff_le b a).trans_lt (fits_natCast.mp hy))
    | negSucc b =>
      exact fits_negSucc.mpr (or_lt_two_pow (fits_negSucc.mp hx) (fits_negSucc.mp hy))

lemma Fits.lor : Fits n (x.lor y) := by
  cases x with
  | ofNat a =>
    cases y with
    | ofNat b => exact fits_natCast.mpr (or_lt_two_pow (fits_natCast.mp hx) (fits_natCast.mp hy))
    | negSucc b => exact fits_negSucc.mpr ((ldiff_le b a).trans_lt (fits_negSucc.mp hy))
  | negSucc a =>
    cases y with
    | ofNat b => exact fits_negSucc.mpr ((ldiff_le a b).trans_lt (fits_negSucc.mp hx))
    | negSucc b => exact fits_negSucc.mpr (and_lt_two_pow a (fits_negSucc.mp hy))

lemma Fits.xor : Fits n (x.xor y) := by
  cases x with
  | ofNat a =>
    cases y with
    | ofNat b =>
      exact fits_natCast.mpr (xor_lt_two_pow (fits_natCast.mp hx) (fits_natCast.mp hy))
    | negSucc b =>
      exact fits_negSucc.mpr (xor_lt_two_pow (fits_natCast.mp hx) (fits_negSucc.mp hy))
  | negSucc a =>
    cases y with
    | ofNat b =>
      exact fits_negSucc.mpr (xor_lt_two_pow (fits_negSucc.mp hx) (fits_natCast.mp hy))
    | negSucc b =>
      exact fits_natCast.mpr (xor_lt_two_pow (fits_negSucc.mp hx) (fits_negSucc.mp hy))

end

/-- A mask that is not negative bounds what it selects. -/
lemma land_nonneg_le (x : ℤ) (hy : 0 ≤ y) : 0 ≤ x.land y ∧ x.land y ≤ y := by
  obtain ⟨b, rfl⟩ := Int.eq_ofNat_of_zero_le hy
  cases x with
  | ofNat a =>
    refine ⟨Int.natCast_nonneg _, ?_⟩
    exact Int.ofNat_le.mpr and_le_right
  | negSucc a =>
    refine ⟨Int.natCast_nonneg _, ?_⟩
    exact Int.ofNat_le.mpr (ldiff_le b a)

lemma lor_nonneg (hx : 0 ≤ x) (hy : 0 ≤ y) : 0 ≤ x.lor y := by
  obtain ⟨a, rfl⟩ := Int.eq_ofNat_of_zero_le hx
  obtain ⟨b, rfl⟩ := Int.eq_ofNat_of_zero_le hy
  exact Int.natCast_nonneg _

lemma xor_nonneg (hx : 0 ≤ x) (hy : 0 ≤ y) : 0 ≤ x.xor y := by
  obtain ⟨a, rfl⟩ := Int.eq_ofNat_of_zero_le hx
  obtain ⟨b, rfl⟩ := Int.eq_ofNat_of_zero_le hy
  exact Int.natCast_nonneg _

lemma fits_ediv (h : Fits n x) (k : ℕ) : Fits n (x / 2 ^ k) := by
  obtain ⟨hlo, hhi⟩ := h
  have hk : (0 : ℤ) < 2 ^ k := by positivity
  constructor
  · rw [Int.le_ediv_iff_mul_le hk]
    nlinarith
  · rw [Int.ediv_lt_iff_lt_mul hk]
    nlinarith

variable {k : ℕ}

/-- Shifting a positive number further right makes it smaller. -/
lemma ediv_two_pow_anti (hx : 0 ≤ x) {j : ℕ} (h : j ≤ k) : x / 2 ^ k ≤ x / 2 ^ j := by
  have hj : (0 : ℤ) < 2 ^ j := by positivity
  have hk : (0 : ℤ) < 2 ^ k := by positivity
  have hle : (2 : ℤ) ^ j ≤ 2 ^ k := pow_le_pow_right₀ (by norm_num) h
  have hq : 0 ≤ x / 2 ^ k := Int.ediv_nonneg hx hk.le
  rw [Int.le_ediv_iff_mul_le hj]
  calc x / 2 ^ k * 2 ^ j ≤ x / 2 ^ k * 2 ^ k := mul_le_mul_of_nonneg_left hle hq
    _ ≤ x := Int.ediv_mul_le x (ne_of_gt hk)

/-- Shifting a negative number further right brings it nearer to zero. -/
lemma ediv_two_pow_mono (hx : x < 0) {j : ℕ} (h : j ≤ k) : x / 2 ^ j ≤ x / 2 ^ k := by
  have hk : (0 : ℤ) < 2 ^ k := by positivity
  have hj : (0 : ℤ) < 2 ^ j := by positivity
  have hle : (2 : ℤ) ^ j ≤ 2 ^ k := pow_le_pow_right₀ (by norm_num) h
  have hq : x / 2 ^ j < 0 := Int.ediv_neg_of_neg_of_pos hx hj
  rw [Int.le_ediv_iff_mul_le hk]
  calc x / 2 ^ j * 2 ^ k ≤ x / 2 ^ j * 2 ^ j := by nlinarith
    _ ≤ x := Int.ediv_mul_le x (ne_of_gt hj)

/-- A shift by the width of the word or more leaves only the sign. -/
lemma ediv_two_pow_of_fits (h : Fits n x) (hk : n ≤ k) : x / 2 ^ k = if x < 0 then -1 else 0 := by
  obtain ⟨hlo, hhi⟩ := h
  have hle : (2 : ℤ) ^ n ≤ 2 ^ k := pow_le_pow_right₀ (by norm_num) hk
  split_ifs with hx
  · rw [Int.ediv_eq_neg_one_of_neg_of_le hx (by omega)]
  · exact Int.ediv_eq_zero_of_lt (by omega) (by omega)

/-- Truncation maps an interval into itself only when it keeps every number of the interval or the
interval covers the word. -/
lemma wrap_mapsTo_iff (n : ℕ) {lo hi : ℤ} (hle : lo ≤ hi) :
    (∀ x, lo ≤ x → x ≤ hi → lo ≤ wrap n x ∧ wrap n x ≤ hi) ↔
      Fits n lo ∧ Fits n hi ∨ lo ≤ -2 ^ n ∧ 2 ^ n - 1 ≤ hi := by
  have hpos : (0 : ℤ) < 2 ^ n := by positivity
  have hdouble : (2 : ℤ) ^ (n + 1) = 2 * 2 ^ n := by ring
  constructor
  · intro h
    by_cases hlo : 2 ^ n ≤ lo
    · -- Nothing in the word reaches the interval.
      have hkeep := h lo le_rfl hle
      have hw := fits_wrap n lo
      unfold Fits at hw
      omega
    · by_cases hhi : hi < -2 ^ n
      · have hkeep := h lo le_rfl hle
        have hw := fits_wrap n lo
        unfold Fits at hw
        omega
      · by_cases habove : 2 ^ n ≤ hi
        · -- The first number above the word becomes its least one.
          have hfirst : wrap n (2 ^ n) = -2 ^ n :=
            wrap_eq_of_fits (k := -1) ⟨le_rfl, by omega⟩ (by rw [hdouble]; ring)
          have hkeep := h (2 ^ n) (by omega) habove
          omega
        · by_cases hbelow : lo < -2 ^ n
          · have hlast : wrap n (-2 ^ n - 1) = 2 ^ n - 1 :=
              wrap_eq_of_fits (k := 1) ⟨by omega, by omega⟩ (by rw [hdouble]; ring)
            have hkeep := h (-2 ^ n - 1) (by omega) (by omega)
            omega
          · left
            unfold Fits
            omega
  · intro h x hx1 hx2
    rcases h with ⟨hlo, hhi⟩ | ⟨hlo, hhi⟩
    · have hx : Fits n x := ⟨hlo.1.trans hx1, hx2.trans_lt hhi.2⟩
      rw [wrap_of_fits hx]
      exact ⟨hx1, hx2⟩
    · have hw := fits_wrap n x
      unfold Fits at hw
      omega

lemma emod_mapsTo_iff (n : ℕ) {lo hi : ℤ} (hle : lo ≤ hi) (hlo : 0 ≤ lo) :
    (∀ x, lo ≤ x → x ≤ hi → lo ≤ x % 2 ^ n ∧ x % 2 ^ n ≤ hi) ↔
      hi < 2 ^ n ∨ lo = 0 ∧ 2 ^ n - 1 ≤ hi := by
  have hpos : (0 : ℤ) < 2 ^ n := by positivity
  constructor
  · intro h
    by_cases hhi : hi < 2 ^ n
    · exact Or.inl hhi
    · by_cases hstart : lo < 2 ^ n
      · have hkeep := h (2 ^ n) (by omega) (by omega)
        rw [Int.emod_self] at hkeep
        omega
      · have hkeep := h lo le_rfl hle
        omega
  · intro h x hx1 hx2
    have hx : 0 ≤ x := hlo.trans hx1
    rcases h with hhi | ⟨rfl, hhi⟩
    · rw [Int.emod_eq_of_lt hx (hx2.trans_lt hhi)]
      exact ⟨hx1, hx2⟩
    · have hlt := Int.emod_lt_of_pos x hpos
      exact ⟨Int.emod_nonneg x (ne_of_gt hpos), by omega⟩

end DartSdk.SignedWords

namespace DartSdk.PowersOfTwo

open Nat

/-- One step of the spread: every set bit also sets the bit `s` places below. -/
def smear (x s : ℕ) : ℕ := x ||| (x >>> s)

/-- The bits from `L - s` up to `L` are set and no bit above. -/
structure TopBits (x L s : ℕ) : Prop where
  lt : x < 2 ^ L
  set : ∀ i < L, L ≤ i + s → x.testBit i = true

lemma TopBits.smear {x L s : ℕ} (h : TopBits x L s) : TopBits (smear x s) L (2 * s) where
  lt := or_lt_two_pow h.lt ((shiftRight_le x s).trans_lt h.lt)
  set i hi hs := by
    rw [PowersOfTwo.smear, testBit_or, testBit_shiftRight]
    by_cases htop : L ≤ i + s
    · rw [h.set i hi htop, Bool.true_or]
    · rw [add_comm s i, h.set (i + s) (by omega) (by omega), Bool.or_true]

lemma topBits_one (x : ℕ) : TopBits x x.size 1 where
  lt := lt_size_self x
  set i hi hs := by
    have hle : 2 ^ i ≤ x := lt_size.mp hi
    have hlt : x < 2 ^ (i + 1) := by
      have := lt_size_self x
      rwa [show x.size = i + 1 by omega] at this
    rw [Nat.testBit_eq_decide_div_mod_eq, decide_eq_true_iff]
    have hdiv : x / 2 ^ i = 1 := by
      apply Nat.div_eq_of_lt_le
      · omega
      · rw [pow_succ] at hlt
        omega
    rw [hdiv]

lemma TopBits.eq_pred {x L s : ℕ} (h : TopBits x L s) (hs : L ≤ s) : x = 2 ^ L - 1 := by
  apply eq_of_testBit_eq
  intro i
  rw [testBit_two_pow_sub_one]
  by_cases hi : i < L
  · rw [h.set i hi (by omega), decide_eq_true hi]
  · rw [decide_eq_false hi]
    exact Nat.testBit_lt_two_pow (h.lt.trans_le (Nat.pow_le_pow_right (by decide) (by omega)))

/-- Clearing the lowest set bit of a number keeps its top bit, unless that is its only bit. -/
lemma eq_or_le_and_pred {x k : ℕ} (hle : 2 ^ k ≤ x) (hlt : x < 2 ^ (k + 1)) :
    x = 2 ^ k ∨ 2 ^ k ≤ x &&& (x - 1) := by
  rcases hle.eq_or_lt with heq | hless
  · exact Or.inl heq.symm
  · right
    have hx : x.testBit k = true := testBit_of_two_pow_le_and_two_pow_add_one_gt hle hlt
    have hpred : (x - 1).testBit k = true :=
      testBit_of_two_pow_le_and_two_pow_add_one_gt (by omega) (by omega)
    apply ge_two_pow_of_testBit
    rw [testBit_and, hx, hpred, Bool.and_self]

/-- The `i`-th slot of the triangular walk from `start` among `2 ^ m` slots. -/
def triangularSlot (m start i : ℕ) : ℕ := (start + i * (i + 1) / 2) % 2 ^ m

lemma triangularSlot_lt (m start i : ℕ) : triangularSlot m start i < 2 ^ m :=
  Nat.mod_lt _ (Nat.two_pow_pos m)

lemma triangularSlot_zero (m start : ℕ) : triangularSlot m start 0 = start % 2 ^ m := by
  simp [triangularSlot]

lemma triangular_succ (i : ℕ) : (i + 1) * (i + 2) / 2 = i * (i + 1) / 2 + (i + 1) := by
  have h : (i + 1) * (i + 2) = i * (i + 1) + 2 * (i + 1) := by ring
  omega

lemma triangularSlot_succ (m start i : ℕ) :
    triangularSlot m start (i + 1) = (triangularSlot m start i + (i + 1)) % 2 ^ m := by
  rw [triangularSlot, triangularSlot, mod_add_mod, triangular_succ, add_assoc]

lemma two_mul_triangular (i : ℕ) : 2 * (i * (i + 1) / 2) = i * (i + 1) :=
  Nat.mul_div_cancel' (Nat.even_mul_succ_self i).two_dvd

lemma triangularSlot_injective (m start i j : ℕ) (hij : i < j) (hj : j < 2 ^ m) :
    triangularSlot m start i ≠ triangularSlot m start j := by
  intro h
  obtain ⟨d, rfl⟩ : ∃ d, j = i + d := ⟨j - i, by omega⟩
  -- The difference of the two triangular numbers is d (2 i + d + 1) / 2.
  have hmod : i * (i + 1) / 2 ≡ (i + d) * (i + d + 1) / 2 [MOD 2 ^ m] :=
    Nat.ModEq.add_left_cancel' start h
  have hdvd : 2 ^ m ∣ (i + d) * (i + d + 1) / 2 - i * (i + 1) / 2 :=
    (Nat.modEq_iff_dvd' (Nat.div_le_div_right (by nlinarith))).mp hmod
  have hprod : 2 ^ (m + 1) ∣ d * (2 * i + d + 1) := by
    have htwice := Nat.mul_dvd_mul_left 2 hdvd
    rw [Nat.mul_sub, two_mul_triangular, two_mul_triangular, ← pow_succ'] at htwice
    have hdiff : (i + d) * (i + d + 1) - i * (i + 1) = d * (2 * i + d + 1) := by
      have : (i + d) * (i + d + 1) = d * (2 * i + d + 1) + i * (i + 1) := by ring
      omega
    rwa [hdiff] at htwice
  -- One of the factors is odd, so the power divides the other, which is too small.
  rcases even_or_odd d with heven | hodd
  · have hcop : Nat.Coprime (2 ^ (m + 1)) (2 * i + d + 1) := by
      apply Nat.Coprime.pow_left
      rw [coprime_two_left]
      obtain ⟨e, he⟩ := heven
      exact ⟨i + e, by omega⟩
    have hle := le_of_dvd (by omega) (hcop.dvd_of_dvd_mul_right hprod)
    omega
  · have hcop : Nat.Coprime (2 ^ (m + 1)) d := by
      apply Nat.Coprime.pow_left
      rwa [coprime_two_left]
    have hle := le_of_dvd (by omega) (hcop.dvd_of_dvd_mul_left hprod)
    omega

lemma triangularSlot_surjective (m start s : ℕ) (hs : s < 2 ^ m) :
    ∃ i < 2 ^ m, triangularSlot m start i = s := by
  let walk : Fin (2 ^ m) → Fin (2 ^ m) :=
    fun i => ⟨triangularSlot m start i.val, triangularSlot_lt m start i.val⟩
  have hinj : Function.Injective walk := by
    intro i j h
    have hval : triangularSlot m start i.val = triangularSlot m start j.val := congrArg Fin.val h
    rcases lt_trichotomy i.val j.val with hlt | heq | hgt
    · exact absurd hval (triangularSlot_injective m start _ _ hlt j.isLt)
    · exact Fin.ext heq
    · exact absurd hval.symm (triangularSlot_injective m start _ _ hgt i.isLt)
  obtain ⟨i, hi⟩ := (Finite.injective_iff_surjective.mp hinj) ⟨s, hs⟩
  exact ⟨i.val, i.isLt, congrArg Fin.val hi⟩

end DartSdk.PowersOfTwo
