import Mathlib

/-!
Natural numbers written with digits: the number that consecutive digits of a sequence denote, lists
of digits as they are read and printed, and one step of a long division. Its quotient is estimated
from leading digits; adding `q` times `d - y` writes the estimate and subtracts its multiple of the
divisor `y` at once.
-/

namespace DartSdk.Numerals

open Nat Finset

variable {b : ℕ} {f g : ℕ → ℕ}

/-- The number with the digits `f s, …, f (s + n - 1)`. -/
def segment (b : ℕ) (f : ℕ → ℕ) (s n : ℕ) : ℕ := ∑ k ∈ Finset.range n, f (s + k) * b ^ k

@[simp] lemma segment_zero (b : ℕ) (f : ℕ → ℕ) (s : ℕ) : segment b f s 0 = 0 := rfl

lemma segment_succ (b : ℕ) (f : ℕ → ℕ) (s n : ℕ) :
    segment b f s (n + 1) = segment b f s n + f (s + n) * b ^ n := sum_range_succ ..

@[simp] lemma segment_one (b : ℕ) (f : ℕ → ℕ) (s : ℕ) : segment b f s 1 = f s := by
  simp [segment_succ]

variable {s t n m : ℕ}

lemma segment_congr (h : ∀ k < n, f (s + k) = g (t + k)) : segment b f s n = segment b g t n :=
  sum_congr rfl fun k hk => by rw [h k (mem_range.mp hk)]

lemma segment_add (b : ℕ) (f : ℕ → ℕ) (s m n : ℕ) :
    segment b f s (m + n) = segment b f s m + b ^ m * segment b f (s + m) n := by
  induction n with
  | zero => simp
  | succ n ih =>
    rw [← add_assoc, segment_succ, ih, segment_succ, ← add_assoc]
    ring

lemma segment_lt (h : ∀ k < n, f (s + k) < b) : segment b f s n < b ^ n := by
  induction n with
  | zero => simp
  | succ n ih =>
    have hrest := ih fun k hk => h k (by omega)
    have htop : (f (s + n) + 1) * b ^ n ≤ b * b ^ n :=
      Nat.mul_le_mul_right _ (h n (by omega))
    rw [segment_succ]
    calc segment b f s n + f (s + n) * b ^ n < b ^ n + f (s + n) * b ^ n := by omega
      _ = (f (s + n) + 1) * b ^ n := by ring
      _ ≤ b * b ^ n := htop
      _ = b ^ (n + 1) := by ring

lemma segment_eq_zero (h : ∀ k < n, f (s + k) = 0) : segment b f s n = 0 :=
  sum_eq_zero fun k hk => by rw [h k (mem_range.mp hk), zero_mul]

lemma segment_of_zeros (hmn : m ≤ n) (h : ∀ k, m ≤ k → k < n → f (s + k) = 0) :
    segment b f s n = segment b f s m := by
  obtain ⟨k, rfl⟩ := Nat.exists_eq_add_of_le hmn
  have hzero : segment b f (s + m) k = 0 := by
    apply segment_eq_zero
    intro i hi
    rw [add_assoc]
    exact h (m + i) (by omega) (by omega)
  rw [segment_add, hzero, mul_zero, add_zero]

/-- A segment without leading zeros is at least the weight of its top digit. -/
lemma pow_le_segment (h : f (s + n) ≠ 0) : b ^ n ≤ segment b f s (n + 1) := by
  rw [segment_succ]
  have htop : 1 * b ^ n ≤ f (s + n) * b ^ n := Nat.mul_le_mul_right _ (Nat.pos_of_ne_zero h)
  omega

/-- Digits moved up by `m` positions, with zeros below. -/
lemma segment_shifted (hlow : ∀ k < m, g (t + k) = 0)
    (hhigh : ∀ k < n, g (t + m + k) = f (s + k)) :
    segment b g t (m + n) = b ^ m * segment b f s n := by
  rw [segment_add, segment_congr hhigh, segment_eq_zero hlow, zero_add]

lemma segment_div (h : ∀ k < m, f (s + k) < b) :
    segment b f s (m + n) / b ^ m = segment b f (s + m) n := by
  have hlt := segment_lt h
  rw [segment_add, add_mul_div_left _ _ (by omega), div_eq_of_lt hlt, zero_add]

lemma testBit_segment {w : ℕ} (hw : 0 < w) (h : ∀ k < n, f k < 2 ^ w) (i : ℕ) :
    (segment (2 ^ w) f 0 n).testBit i = if i / w < n then (f (i / w)).testBit (i % w)
      else false := by
  induction n with
  | zero => simp
  | succ n ih =>
    have hlow : segment (2 ^ w) f 0 n < 2 ^ (w * n) := by
      rw [Nat.pow_mul]
      exact segment_lt fun k hk => by rw [zero_add]; exact h k (by omega)
    have hdiv := div_add_mod i w
    have hmod := mod_lt i hw
    rw [segment_succ, zero_add, ← Nat.pow_mul, add_comm, mul_comm,
      testBit_two_pow_mul_add _ hlow, ih fun k hk => h k (by omega)]
    rcases Nat.lt_trichotomy (i / w) n with hlt | heq | hgt
    · have hlt' : i < w * n := by
        have := Nat.mul_le_mul_left w (show i / w + 1 ≤ n by omega)
        rw [mul_add] at this
        omega
      rw [if_pos hlt', if_pos hlt, if_pos (by omega)]
    · rw [heq] at hdiv ⊢
      rw [if_neg (by omega), if_pos (by omega), show i - w * n = i % w by omega]
    · have hge := Nat.mul_le_mul_left w (show n + 1 ≤ i / w by omega)
      rw [mul_add] at hge
      rw [if_neg (by omega), if_neg (by omega)]
      exact Nat.testBit_lt_two_pow (lt_of_lt_of_le (h n (by omega))
        (Nat.pow_le_pow_right (by omega) (by omega)))

end DartSdk.Numerals

namespace DartSdk.DigitStrings

open List Nat

def value (b : ℕ) (l : List ℕ) : ℕ := l.foldl (fun n d => n * b + d) 0

def numeral (b n : ℕ) : List ℕ := if n = 0 then [0] else (Nat.digits b n).reverse

def padded (b : ℕ) : ℕ → ℕ → List ℕ
  | 0, _ => []
  | k + 1, n => padded b k (n / b) ++ [n % b]

variable {b : ℕ}

@[simp] lemma value_nil : value b [] = 0 := rfl

lemma value_concat (l : List ℕ) (d : ℕ) : value b (l ++ [d]) = value b l * b + d := by
  rw [value, foldl_concat]
  rfl

lemma value_append (l m : List ℕ) : value b (l ++ m) = value b l * b ^ m.length + value b m := by
  induction m using List.reverseRecOn with
  | nil => simp
  | append_singleton m d ih =>
    rw [← append_assoc, value_concat, ih, value_concat, length_append]
    simp only [length_singleton, pow_succ]
    ring

lemma value_lt {l : List ℕ} (h : ∀ d ∈ l, d < b) : value b l < b ^ l.length := by
  induction l using List.reverseRecOn with
  | nil => simp
  | append_singleton l d ih =>
    have hl := ih fun d hd => h d (mem_append_left _ hd)
    have hd := h d (mem_append_right _ mem_cons_self)
    rw [value_concat, length_append, length_singleton, pow_succ]
    calc value b l * b + d < value b l * b + b := by omega
      _ = (value b l + 1) * b := by ring
      _ ≤ b ^ l.length * b := Nat.mul_le_mul_right _ hl

variable {n m r k : ℕ}

lemma numeral_of_lt (h : n < b) : numeral b n = [n] := by
  rw [numeral]
  split_ifs with hn
  · rw [hn]
  · rw [digits_of_lt b n hn h, reverse_singleton]

lemma numeral_of_le (hb : 1 < b) (h : b ≤ n) : numeral b n = numeral b (n / b) ++ [n % b] := by
  have hdiv : n / b ≠ 0 := (Nat.div_pos h (by omega)).ne'
  rw [numeral, numeral, if_neg (by omega), if_neg hdiv, digits_def' hb (by omega), reverse_cons]

lemma numeral_ne_nil (hb : 1 < b) (n : ℕ) : numeral b n ≠ [] := by
  by_cases h : n < b
  · rw [numeral_of_lt h]
    exact cons_ne_nil _ _
  · rw [numeral_of_le hb (by omega)]
    exact append_ne_nil_of_right_ne_nil _ (cons_ne_nil _ _)

lemma value_numeral (hb : 1 < b) (n : ℕ) : value b (numeral b n) = n := by
  induction n using Nat.strong_induction_on with
  | _ n ih =>
    by_cases h : n < b
    · rw [numeral_of_lt h]
      exact (value_concat [] n).trans (by rw [value_nil, zero_mul, zero_add])
    · rw [numeral_of_le hb (by omega), value_concat, ih _ (Nat.div_lt_self (by omega) hb),
        mul_comm, div_add_mod]

lemma lt_of_mem_numeral (hb : 1 < b) {d : ℕ} (h : d ∈ numeral b n) : d < b := by
  rw [numeral] at h
  split at h
  · rw [mem_singleton.mp h]
    omega
  · exact digits_lt_base hb (mem_reverse.mp h)

@[simp] lemma length_padded (k n : ℕ) : (padded b k n).length = k := by
  induction k generalizing n with
  | zero => rfl
  | succ k ih => rw [padded, length_append, ih, length_singleton]

/-- The last digits of a number after the others. -/
lemma numeral_padded (hb : 1 < b) (hm : 0 < m) (k : ℕ) (hr : r < b ^ k) :
    numeral b (m * b ^ k + r) = numeral b m ++ padded b k r := by
  induction k generalizing r with
  | zero =>
    obtain rfl : r = 0 := by simpa using hr
    simp [padded]
  | succ k ih =>
    have hpow : m * b ^ (k + 1) = b * (m * b ^ k) := by ring
    have hle : 1 ≤ m * b ^ k := Nat.mul_pos hm (Nat.pow_pos (by omega))
    have hge : b * 1 ≤ b * (m * b ^ k) := Nat.mul_le_mul_left b hle
    rw [numeral_of_le hb (by omega), hpow, Nat.mul_add_div (by omega), Nat.mul_add_mod, padded,
      ← append_assoc, ih (Nat.div_lt_of_lt_mul (by rwa [pow_succ, mul_comm] at hr))]

lemma padded_append (hb : 0 < b) (j : ℕ) (hr : r < b ^ k) :
    padded b (j + k) (m * b ^ k + r) = padded b j m ++ padded b k r := by
  induction k generalizing r with
  | zero =>
    obtain rfl : r = 0 := by simpa using hr
    simp [padded]
  | succ k ih =>
    have hpow : m * b ^ (k + 1) = b * (m * b ^ k) := by ring
    rw [← add_assoc, padded, padded, hpow, Nat.mul_add_div hb, Nat.mul_add_mod,
      ← append_assoc, ih (Nat.div_lt_of_lt_mul (by rwa [pow_succ, mul_comm] at hr))]

lemma padded_zero (k : ℕ) : padded b k 0 = List.replicate k 0 := by
  induction k with
  | zero => rfl
  | succ k ih => rw [padded, Nat.zero_div, zero_mod, ih, replicate_succ']

lemma length_numeral (hb : 1 < b) (hle : b ^ k ≤ n) (hlt : n < b ^ (k + 1)) :
    (numeral b n).length = k + 1 := by
  induction k generalizing n with
  | zero => rw [numeral_of_lt (by rwa [zero_add, pow_one] at hlt), length_singleton]
  | succ k ih =>
    have hpos : 0 < b := by omega
    have hpow : 1 ≤ b ^ k := Nat.pow_pos hpos
    rw [pow_succ, mul_comm] at hle hlt
    have hb' : b * 1 ≤ b * b ^ k := Nat.mul_le_mul_left b hpow
    rw [numeral_of_le hb (by omega), length_append, length_singleton,
      ih ((Nat.le_div_iff_mul_le hpos).mpr (by rwa [mul_comm])) (Nat.div_lt_of_lt_mul hlt)]

/-- Zeros fill up the digits of a number. -/
lemma replicate_append_numeral (hb : 1 < b) (hk : 0 < k) (hn : n < b ^ k) :
    List.replicate (k - (numeral b n).length) 0 ++ numeral b n = padded b k n := by
  induction k generalizing n with
  | zero => omega
  | succ k ih =>
    rw [padded]
    by_cases h : n < b
    · rw [numeral_of_lt h, Nat.mod_eq_of_lt h, Nat.div_eq_of_lt h, padded_zero,
        length_singleton, Nat.add_sub_cancel]
    · have hdiv : n / b < b ^ k := Nat.div_lt_of_lt_mul (by rwa [pow_succ, mul_comm] at hn)
      have hpos : 0 < k := by
        by_contra hzero
        obtain rfl : k = 0 := by omega
        rw [zero_add, pow_one] at hn
        omega
      rw [numeral_of_le hb (by omega), length_append, length_singleton,
        Nat.add_sub_add_right, ← append_assoc, ih hpos hdiv]

end DartSdk.DigitStrings

namespace DartSdk.QuotientSteps

open Nat

/-- The quotient by leading digits is never too small. -/
lemma div_le_leading {r y n t w : ℕ} (hr : r < (n + 1) * w) (hy : t * w ≤ y) (ht : 0 < t) :
    r / y ≤ n / t := by
  rw [Nat.le_div_iff_mul_le ht]
  have hlt : r / y * t * w < (n + 1) * w := by
    calc r / y * t * w = r / y * (t * w) := by ring
      _ ≤ r / y * y := Nat.mul_le_mul_left _ hy
      _ ≤ r := div_mul_le_self r y
      _ < (n + 1) * w := hr
  have := Nat.lt_of_mul_lt_mul_right hlt
  omega

/-- Dropping the lowest bit of both leading digits does not make the estimate smaller. -/
lemma div_le_halves {n t : ℕ} (ht : 2 ≤ t) : n / t ≤ n / 2 / (t / 2) := by
  have hhalf : 0 < t / 2 := by omega
  rw [Nat.le_div_iff_mul_le hhalf, Nat.le_div_iff_mul_le (by omega)]
  calc n / t * (t / 2) * 2 = n / t * (t / 2 * 2) := by ring
    _ ≤ n / t * t := Nat.mul_le_mul_left _ (div_mul_le_self t 2)
    _ ≤ n := div_mul_le_self n t

section

variable {r y d q : ℕ}

/-- What stands in the digits after `q` has been written at weight `d`. -/
def written (r y d q : ℕ) : ℕ := r + q * (d - y)

lemma written_add (hy : y ≤ d) : written r y d q + q * y = r + q * d := by
  unfold written
  have hsplit : q * (d - y) + q * y = q * d := by
    rw [← mul_add, Nat.sub_add_cancel hy]
  omega

/-- The digit read back is at most the estimate. -/
lemma written_lt (hy : y ≤ d) (hpos : 0 < y) (hq : r / y ≤ q) :
    written r y d q < (q + 1) * d := by
  have hlt : r < (q + 1) * y := by
    rw [← Nat.div_lt_iff_lt_mul hpos]
    omega
  have hadd := written_add (r := r) (q := q) hy
  have hmul : (q + 1) * y = q * y + y := by ring
  have hmul' : (q + 1) * d = q * d + d := by ring
  omega

/-- The digit read back is smaller than the estimate exactly when the estimate is too large. -/
lemma written_div_lt_iff (hy : y ≤ d) (hpos : 0 < y) : written r y d q / d < q ↔ r / y < q := by
  have hadd := written_add (r := r) (q := q) hy
  rw [Nat.div_lt_iff_lt_mul (by omega), Nat.div_lt_iff_lt_mul hpos]
  omega

/-- Taking back one divisor corrects the estimate by one. -/
lemma written_pred (hq : 0 < q) : written r y d q - (d - y) = written r y d (q - 1) := by
  unfold written
  obtain ⟨p, rfl⟩ := Nat.exists_eq_add_of_lt hq
  rw [zero_add, Nat.add_sub_cancel, add_mul, one_mul]
  omega

/-- With the right digit the rest is the remainder. -/
lemma written_quotient (hy : y ≤ d) : written r y d (r / y) = r / y * d + r % y := by
  have hadd := written_add (r := r) (q := r / y) hy
  have hdiv := div_add_mod' r y
  omega

end

end DartSdk.QuotientSteps
