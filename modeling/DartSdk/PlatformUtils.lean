import DartSdk.Words

/-!
The integer helpers of `runtime/platform/utils.h` that range analysis rests on. A value of type
`int64_t` is an integer between `minInt64` and `maxInt64`.
-/

namespace DartSdk.PlatformUtils

open SignedWords Nat Int

def minInt64 : ℤ := -2 ^ 63
def maxInt64 : ℤ := 2 ^ 63 - 1
def minInt32 : ℤ := -2 ^ 31
def maxInt32 : ℤ := 2 ^ 31 - 1
def maxUint32 : ℤ := 2 ^ 32 - 1

/-- The smallest and the largest small integer of a 64-bit machine. -/
def smiMin : ℤ := -2 ^ 62
def smiMax : ℤ := 2 ^ 62 - 1

abbrev IsInt64 (x : ℤ) : Prop := minInt64 ≤ x ∧ x ≤ maxInt64

abbrev IsSmi (x : ℤ) : Prop := smiMin ≤ x ∧ x ≤ smiMax

variable {x : ℤ}

lemma isInt64_iff_fits : IsInt64 x ↔ Fits 63 x := by
  unfold IsInt64 Fits minInt64 maxInt64
  omega

def willAddOverflow (a b : ℤ) : Bool :=
  (decide (b > 0) && decide (a > maxInt64 - b)) || (decide (b < 0) && decide (a < minInt64 - b))

def willSubOverflow (a b : ℤ) : Bool :=
  (decide (b > 0) && decide (a < minInt64 + b)) || (decide (b < 0) && decide (a > maxInt64 + b))

lemma isInt64_add_of_not_willAddOverflow {a b : ℤ} (ha : IsInt64 a)
    (h : willAddOverflow a b = false) : IsInt64 (a + b) := by
  simp only [willAddOverflow, Bool.or_eq_false_iff, Bool.and_eq_false_iff,
    decide_eq_false_iff_not] at h
  omega

lemma isInt64_sub_of_not_willSubOverflow {a b : ℤ} (ha : IsInt64 a)
    (h : willSubOverflow a b = false) : IsInt64 (a - b) := by
  simp only [willSubOverflow, Bool.or_eq_false_iff, Bool.and_eq_false_iff,
    decide_eq_false_iff_not] at h
  omega

def absWithSaturation (x : ℤ) : ℤ :=
  if x < 0 then
    if x = minInt64 then maxInt64 else -x
  else x

lemma absWithSaturation_nonneg (x : ℤ) : 0 ≤ absWithSaturation x := by
  unfold absWithSaturation maxInt64
  split_ifs <;> omega

lemma absWithSaturation_le (h : IsInt64 x) : absWithSaturation x ≤ maxInt64 := by
  unfold absWithSaturation
  unfold IsInt64 minInt64 maxInt64 at *
  split_ifs <;> omega

/-- Below the saturated value the absolute value is exact. -/
lemma absWithSaturation_eq_abs (hlt : absWithSaturation x < maxInt64) :
    absWithSaturation x = |x| := by
  unfold absWithSaturation at *
  split_ifs at * with hneg hmin
  · omega
  · exact (abs_of_neg hneg).symm
  · exact (abs_of_nonneg (by omega)).symm

/-- One halving of the search: the upper part of `s` bits, when there is one. -/
def highestBitStep (s : ℕ) (p : ℕ × ℕ) : ℕ × ℕ :=
  if p.1 >>> s ≠ 0 then (p.1 >>> s, p.2 + s) else p

def highestBit (v : ℤ) : ℕ :=
  let p := [32, 16, 8, 4, 2].foldl (fun p s => highestBitStep s p) (v.natAbs, 0)
  if p.1 > 1 then p.2 + 1 else p.2

def bitLength (value : ℤ) : ℕ :=
  -- Flip bits if negative (-1 becomes 0).
  let value := value.xor (value >>> (63 : ℕ))
  if value = 0 then 0 else highestBit value + 1

/-- The search has shifted `x` right by the second component, and less than `k` bits remain. -/
structure Searched (x k : ℕ) (p : ℕ × ℕ) : Prop where
  shifted : p.1 = x / 2 ^ p.2
  pos : 0 < p.1
  lt : p.1 < 2 ^ k

lemma Searched.step {x s : ℕ} {p : ℕ × ℕ} (h : Searched x (s + s) p) :
    Searched x s (highestBitStep s p) := by
  have hdiv : p.1 >>> s = p.1 / 2 ^ s := shiftRight_eq_div_pow p.1 s
  unfold highestBitStep
  split_ifs with hs
  · constructor
    · show p.1 >>> s = x / 2 ^ (p.2 + s)
      rw [hdiv, h.shifted, Nat.div_div_eq_div_mul, pow_add]
    · exact Nat.pos_of_ne_zero hs
    · show p.1 >>> s < 2 ^ s
      rw [hdiv, Nat.div_lt_iff_lt_mul (Nat.two_pow_pos s), ← pow_add]
      exact h.lt
  · constructor
    · exact h.shifted
    · exact h.pos
    · rw [not_not, hdiv, Nat.div_eq_zero_iff] at hs
      rcases hs with hzero | hlt
      · exact absurd hzero (Nat.two_pow_pos s).ne'
      · exact hlt

lemma highestBit_spec {v : ℤ} (hpos : v.natAbs ≠ 0) (hlt : v.natAbs < 2 ^ 64) :
    2 ^ highestBit v ≤ v.natAbs ∧ v.natAbs < 2 ^ (highestBit v + 1) := by
  have h0 : Searched v.natAbs (32 + 32) (v.natAbs, 0) :=
    ⟨by simp, Nat.pos_of_ne_zero hpos, hlt⟩
  have h1 : Searched v.natAbs (16 + 16) _ := h0.step
  have h2 : Searched v.natAbs (8 + 8) _ := h1.step
  have h3 : Searched v.natAbs (4 + 4) _ := h2.step
  have h4 : Searched v.natAbs (2 + 2) _ := h3.step
  have h5 := h4.step
  have hdef : highestBit v =
      let p := highestBitStep 2 (highestBitStep 4 (highestBitStep 8 (highestBitStep 16
        (highestBitStep 32 (v.natAbs, 0)))))
      if p.1 > 1 then p.2 + 1 else p.2 := rfl
  rw [hdef]
  generalize highestBitStep 2 _ = p at h5 ⊢
  obtain ⟨hshift, hp, hlt4⟩ := h5
  have hmod := div_add_mod v.natAbs (2 ^ p.2)
  rw [← hshift] at hmod
  simp only
  split_ifs with hone
  · have htop : p.1 = 2 ∨ p.1 = 3 := by omega
    rcases htop with htop | htop <;> rw [htop] at hmod <;> omega
  · have htop : p.1 = 1 := by omega
    rw [htop] at hmod
    omega

lemma xor_sign (h : IsInt64 x) : x.xor (x >>> (63 : ℕ)) = if x < 0 then -x - 1 else x := by
  have hsign : x >>> (63 : ℕ) = if x < 0 then -1 else 0 := by
    rw [Int.shiftRight_eq_div_pow]
    exact_mod_cast ediv_two_pow_of_fits (isInt64_iff_fits.mp h) le_rfl
  rw [hsign]
  cases x with
  | ofNat m =>
    exact congrArg Int.ofNat (Nat.xor_zero m)
  | negSucc m =>
    rw [if_pos (negSucc_lt_zero m), if_pos (negSucc_lt_zero m)]
    have hflip : (Int.negSucc m).xor (-1) = ((m ^^^ 0 : ℕ) : ℤ) := rfl
    rw [hflip, Nat.xor_zero, negSucc_eq]
    ring

lemma natAbs_flip_lt (h : IsInt64 x) : (if x < 0 then -x - 1 else x).natAbs < 2 ^ 63 := by
  unfold IsInt64 minInt64 maxInt64 at h
  split_ifs <;> omega

lemma bitLength_le (h : IsInt64 x) : bitLength x ≤ 63 := by
  have hlt := natAbs_flip_lt h
  simp only [bitLength, xor_sign h]
  generalize (if x < 0 then -x - 1 else x) = y at hlt ⊢
  split_ifs with hzero
  · omega
  · have hspec := highestBit_spec (natAbs_ne_zero.mpr hzero) (by omega)
    have hbits : 2 ^ highestBit y < 2 ^ 63 := by omega
    have hexp := (Nat.pow_lt_pow_iff_right (by norm_num)).mp hbits
    omega

lemma fits_bitLength (h : IsInt64 x) : Fits (bitLength x) x := by
  have hlt := natAbs_flip_lt h
  simp only [bitLength, xor_sign h]
  generalize hflip : (if x < 0 then -x - 1 else x) = y at hlt ⊢
  split_ifs with hzero
  · unfold Fits
    split_ifs at hflip <;> omega
  · have hspec := (highestBit_spec (natAbs_ne_zero.mpr hzero) (by omega)).2
    generalize highestBit y + 1 = n at hspec ⊢
    have hcast : ((2 ^ n : ℕ) : ℤ) = 2 ^ n := by push_cast; rfl
    unfold Fits
    split_ifs at hflip <;> omega

/-- Check whether an `n`-bit two's-complement representation can hold the value. -/
def isInt (n : ℕ) (value : ℤ) : Bool :=
  decide (-2 ^ (n - 1) ≤ value) && decide (value < 2 ^ (n - 1))

end DartSdk.PlatformUtils
