import Mathlib
import DartSdk.Checked

/-!
Fixed length bit sets over words of `2 ^ k` bits (runtime/vm/bit_set.h). A bit is tested and
set with a mask of its word, the next set bit is found by a scan for a word with trailing
zeros, and the last one by a scan backwards for a word with leading zeros.
-/

namespace DartSdk.BitSets

open Checked List Nat

def lengthInWords (k n : ℕ) : ℕ := 1 + (n - 1) / 2 ^ k

structure BitSet (k n : ℕ) where
  data : List (BitVec (2 ^ k))
  length_data : data.length = lengthInWords k n

variable {k n : ℕ}

def bitMask (k i : ℕ) : BitVec (2 ^ k) := 1#(2 ^ k) <<< (i &&& (2 ^ k - 1))

def lowestBit (w : ℕ) (bits : BitVec (2 ^ k)) : ℤ := ((w <<< k : ℕ) : ℤ) + bits.ctz.toNat

def highestBit (w : ℕ) (bits : BitVec (2 ^ k)) : ℤ :=
  (((w + 1) <<< k : ℕ) : ℤ) - bits.clz.toNat - 1

namespace BitSet

def reset (k n : ℕ) : BitSet k n where
  data := List.replicate (lengthInWords k n) 0
  length_data := length_replicate

def wordAt (b : BitSet k n) (w : ℕ) : BitVec (2 ^ k) := b.data.getD w 0

def setWord (b : BitSet k n) (w : ℕ) (bits : BitVec (2 ^ k)) : BitSet k n where
  data := b.data.set w bits
  length_data := by rw [List.length_set, b.length_data]

def set (b : BitSet k n) (i : ℕ) (value : Bool) : Result (BitSet k n) := do
  check (i < n)
  let w := i >>> k
  if value then .ok (b.setWord w (b.wordAt w ||| bitMask k i))
  else .ok (b.setWord w (b.wordAt w &&& ~~~bitMask k i))

def test (b : BitSet k n) (i : ℕ) : Result Bool := do
  check (i < n)
  .ok (b.wordAt (i >>> k) &&& bitMask k i != 0)

/-- The scan of so many words from `w` on, in `Next`. -/
def nextFrom (b : BitSet k n) : ℕ → ℕ → ℤ
  | 0, _ => -1
  | words + 1, w =>
    if b.wordAt w ≠ 0 then lowestBit w (b.wordAt w) else nextFrom b words (w + 1)

def next (b : BitSet k n) (i : ℕ) : Result ℤ := do
  check (i < n)
  let w := i >>> k
  let mask := BitVec.allOnes (2 ^ k) <<< (i &&& (2 ^ k - 1))
  if b.wordAt w &&& mask ≠ 0 then .ok (lowestBit w (b.wordAt w &&& mask))
  else .ok (b.nextFrom (lengthInWords k n - (w + 1)) (w + 1))

/-- The scan of the words below `w`, in `Last`. -/
def lastBelow (b : BitSet k n) : ℕ → ℤ
  | 0 => -1
  | w + 1 => if b.wordAt w ≠ 0 then highestBit w (b.wordAt w) else lastBelow b w

def last (b : BitSet k n) : ℤ := b.lastBelow (lengthInWords k n)

/-- The scan backwards from word `w`, in `ClearLastAndFindPrevious`. -/
def previousFrom (b : BitSet k n) : ℕ → ℤ
  | 0 => if b.wordAt 0 = 0 then -1 else highestBit 0 (b.wordAt 0)
  | w + 1 =>
    if b.wordAt (w + 1) = 0 then previousFrom b w else highestBit (w + 1) (b.wordAt (w + 1))

def clearLastAndFindPrevious (b : BitSet k n) (currentLast : ℕ) : Result (BitSet k n × ℤ) := do
  let found ← b.test currentLast
  check found
  check (b.last = currentLast)
  let w := currentLast >>> k
  let b := b.setWord w (b.wordAt w ^^^ bitMask k currentLast)
  .ok (b, b.previousFrom w)

def mem (b : BitSet k n) (i : ℕ) : Bool := (b.wordAt (i / 2 ^ k)).getLsbD (i % 2 ^ k)

lemma mem_reset (i : ℕ) : (reset k n).mem i = false := by
  have hword : (reset k n).wordAt (i / 2 ^ k) = 0 := by
    rw [wordAt, reset, getD_eq_getElem?_getD, List.getElem?_replicate]
    split_ifs <;> rfl
  rw [mem, hword]
  exact BitVec.getLsbD_zero

lemma mem_word (b : BitSet k n) {w t : ℕ} (ht : t < 2 ^ k) :
    b.mem (w * 2 ^ k + t) = (b.wordAt w).getLsbD t := by
  rw [mem, add_comm, Nat.add_mul_div_right _ _ (Nat.two_pow_pos k), Nat.div_eq_of_lt ht,
    zero_add, Nat.add_mul_mod_self_right, Nat.mod_eq_of_lt ht]

lemma wordAt_setWord (b : BitSet k n) {w : ℕ} (hw : w < lengthInWords k n)
    (bits : BitVec (2 ^ k)) (v : ℕ) :
    (b.setWord w bits).wordAt v = if v = w then bits else b.wordAt v := by
  unfold wordAt setWord
  rw [getD_eq_getElem?_getD, getD_eq_getElem?_getD, List.getElem?_set, b.length_data, if_pos hw]
  by_cases h : v = w
  · rw [if_pos h, if_pos h.symm, Option.getD_some]
  · rw [if_neg h, if_neg (Ne.symm h)]

lemma wordAt_of_le (b : BitSet k n) {w : ℕ} (hw : lengthInWords k n ≤ w) : b.wordAt w = 0 := by
  rw [wordAt, getD_eq_default _ _ (by rw [b.length_data]; exact hw)]

end BitSet

variable {i : ℕ}

lemma shiftRight_lt_lengthInWords (hi : i < n) : i >>> k < lengthInWords k n := by
  rw [Nat.shiftRight_eq_div_pow, lengthInWords]
  have := Nat.div_le_div_right (c := 2 ^ k) (show i ≤ n - 1 by omega)
  omega

lemma getLsbD_bitMask (i : ℕ) {j : ℕ} (hj : j < 2 ^ k) :
    (bitMask k i).getLsbD j = decide (j = i % 2 ^ k) := by
  rw [bitMask, Nat.and_two_pow_sub_one_eq_mod, BitVec.getLsbD_shiftLeft, BitVec.getLsbD_one]
  simp only [hj, decide_true, Bool.true_and, Nat.two_pow_pos]
  by_cases h : j < i % 2 ^ k
  · simp [h, show j ≠ i % 2 ^ k by omega]
  · simp only [h, decide_false, Bool.not_false, Bool.true_and, decide_eq_decide]
    omega

lemma getLsbD_lowMask (i : ℕ) {j : ℕ} (hj : j < 2 ^ k) :
    (BitVec.allOnes (2 ^ k) <<< (i &&& (2 ^ k - 1))).getLsbD j = decide (i % 2 ^ k ≤ j) := by
  rw [and_two_pow_sub_one_eq_mod, BitVec.getLsbD_shiftLeft, BitVec.getLsbD_allOnes]
  simp only [hj, decide_true, Bool.true_and, show j - i % 2 ^ k < 2 ^ k by omega, Bool.and_true]
  rw [← decide_not, decide_eq_decide, not_lt]

lemma lowestBit_spec (w : ℕ) {bits : BitVec (2 ^ k)} (h : bits ≠ 0) :
    ∃ t < 2 ^ k, lowestBit w bits = ((w * 2 ^ k + t : ℕ) : ℤ) ∧ bits.getLsbD t = true ∧
      ∀ t' < t, bits.getLsbD t' = false := by
  have htrue := BitVec.getLsbD_true_ctz_of_ne_zero h
  refine ⟨bits.ctz.toNat, BitVec.lt_of_getLsbD htrue, ?_, htrue,
    fun t' ht' => BitVec.getLsbD_false_of_lt_ctz ht'⟩
  rw [lowestBit, shiftLeft_eq]
  rfl

lemma highestBit_spec (w : ℕ) {bits : BitVec (2 ^ k)} (h : bits ≠ 0) :
    ∃ t < 2 ^ k, highestBit w bits = ((w * 2 ^ k + t : ℕ) : ℤ) ∧ bits.getLsbD t = true ∧
      ∀ t', t < t' → bits.getLsbD t' = false := by
  have hpos := Nat.two_pow_pos k
  have htrue := BitVec.getLsbD_true_clz_of_ne_zero hpos h
  have hlt : bits.clz.toNat < 2 ^ k := by
    have hlarge := BitVec.toNat_lt_two_pow_sub_clz (x := bits)
    by_contra hge
    rw [show 2 ^ k - bits.clz.toNat = 0 by omega, pow_zero] at hlarge
    exact h (BitVec.eq_of_toNat_eq (by simpa using hlarge))
  refine ⟨2 ^ k - 1 - bits.clz.toNat, by omega, ?_, htrue, fun t' ht' => ?_⟩
  · rw [highestBit, shiftLeft_eq, add_mul, one_mul]
    omega
  · have hlarge := BitVec.toNat_lt_two_pow_sub_clz (x := bits)
    exact Nat.testBit_lt_two_pow
      (lt_of_lt_of_le hlarge (Nat.pow_le_pow_right (by decide) (by omega)))

lemma and_bitMask_ne_zero (bits : BitVec (2 ^ k)) (i : ℕ) :
    (bits &&& bitMask k i != 0) = bits.getLsbD (i % 2 ^ k) := by
  have hlt := Nat.mod_lt i (Nat.two_pow_pos k)
  rw [Bool.eq_iff_iff, bne_iff_ne]
  constructor
  · intro hne
    by_contra hbit
    refine hne (BitVec.eq_of_getLsbD_eq fun j hj => ?_)
    rw [BitVec.getLsbD_and, getLsbD_bitMask i hj]
    by_cases h : j = i % 2 ^ k
    · rw [h, Bool.eq_false_of_not_eq_true hbit]
      exact BitVec.getLsbD_zero.symm
    · rw [decide_eq_false h, Bool.and_false]
      exact BitVec.getLsbD_zero.symm
  · intro hbit hzero
    have hboth : (bits &&& bitMask k i).getLsbD (i % 2 ^ k) = true := by
      rw [BitVec.getLsbD_and, getLsbD_bitMask i hlt, hbit]
      simp
    rw [hzero] at hboth
    exact absurd hboth (by simp)

namespace BitSet

variable (b : BitSet k n)

lemma test_eq (hi : i < n) : b.test i = .ok (b.mem i) := by
  rw [test, check_of (decide_eq_true hi), ok_bind, and_bitMask_ne_zero, mem, shiftRight_eq_div_pow]

lemma mem_setWord (hi : i < n) {bits : BitVec (2 ^ k)} {value : Bool}
    (hbits : ∀ j < 2 ^ k, bits.getLsbD j =
      if j = i % 2 ^ k then value else (b.wordAt (i >>> k)).getLsbD j) (j : ℕ) :
    (b.setWord (i >>> k) bits).mem j = if j = i then value else b.mem j := by
  rw [mem, b.wordAt_setWord (shiftRight_lt_lengthInWords hi)]
  by_cases hword : j / 2 ^ k = i >>> k
  · rw [if_pos hword, hbits _ (Nat.mod_lt j (Nat.two_pow_pos k))]
    by_cases hij : j = i
    · rw [if_pos hij, if_pos (by rw [hij])]
    · have hmod : j % 2 ^ k ≠ i % 2 ^ k := by
        intro hmod
        rw [shiftRight_eq_div_pow] at hword
        exact hij (by rw [← div_add_mod j (2 ^ k), hword, hmod, div_add_mod])
      rw [if_neg hij, if_neg hmod, mem, hword]
  · have hij : j ≠ i := by
      rintro rfl
      exact hword (shiftRight_eq_div_pow j k).symm
    rw [if_neg hword, if_neg hij, mem]

lemma set_spec (hi : i < n) (value : Bool) :
    ∃ b', b.set i value = .ok b' ∧ ∀ j, b'.mem j = if j = i then value else b.mem j := by
  rw [set, check_of (decide_eq_true hi), ok_bind]
  cases value with
  | true =>
    refine ⟨_, if_pos rfl, b.mem_setWord hi fun j hj => ?_⟩
    rw [BitVec.getLsbD_or, getLsbD_bitMask i hj]
    by_cases h : j = i % 2 ^ k <;> simp [h]
  | false =>
    refine ⟨_, if_neg Bool.false_ne_true, b.mem_setWord hi fun j hj => ?_⟩
    rw [BitVec.getLsbD_and, BitVec.getLsbD_not, getLsbD_bitMask i hj]
    by_cases h : j = i % 2 ^ k <;> simp [h, hj]

/-- The first member from `i` on, or -1. -/
def IsNext (i : ℕ) (r : ℤ) : Prop :=
  (r = -1 ∧ ∀ j, i ≤ j → b.mem j = false) ∨
    ∃ m : ℕ, r = m ∧ i ≤ m ∧ b.mem m = true ∧ ∀ j, i ≤ j → j < m → b.mem j = false

variable {b}

lemma IsNext.extend {i i' : ℕ} {r : ℤ} (h : b.IsNext i' r) (hle : i ≤ i')
    (hnone : ∀ j, i ≤ j → j < i' → b.mem j = false) : b.IsNext i r := by
  have hall : ∀ j, i ≤ j → (i' ≤ j → b.mem j = false) → b.mem j = false := by
    intro j hj hlater
    rcases lt_or_ge j i' with hlt | hge
    · exact hnone j hj hlt
    · exact hlater hge
  rcases h with ⟨rfl, hrest⟩ | ⟨m, rfl, him, hm, hpre⟩
  · exact Or.inl ⟨rfl, fun j hj => hall j hj (hrest j)⟩
  · refine Or.inr ⟨m, rfl, hle.trans him, hm, fun j hj hlt => hall j hj fun hge => ?_⟩
    exact hpre j hge hlt

lemma mem_of_wordAt_eq_zero {w j : ℕ} (hzero : b.wordAt w = 0) (hj : j / 2 ^ k = w) :
    b.mem j = false := by
  rw [mem, hj, hzero]
  exact BitVec.getLsbD_zero

lemma isNext_lowestBit {i w : ℕ} (hw : i / 2 ^ k = w) {bits : BitVec (2 ^ k)} (hne : bits ≠ 0)
    (hbits : ∀ t < 2 ^ k, bits.getLsbD t = ((b.wordAt w).getLsbD t && decide (i % 2 ^ k ≤ t))) :
    b.IsNext i (lowestBit w bits) := by
  obtain ⟨t, ht, hpos, htrue, hbelow⟩ := lowestBit_spec w hne
  have hi := div_add_mod i (2 ^ k)
  rw [hw, mul_comm] at hi
  rw [hbits t ht, Bool.and_eq_true, decide_eq_true_iff] at htrue
  refine Or.inr ⟨w * 2 ^ k + t, hpos, by omega, by rw [mem_word b ht, htrue.1], ?_⟩
  intro j hij hjt
  obtain ⟨t', ht', rfl⟩ : ∃ t' < 2 ^ k, j = w * 2 ^ k + t' :=
    ⟨j - w * 2 ^ k, by omega, by omega⟩
  have hfalse := hbelow t' (by omega)
  rw [hbits t' ht', decide_eq_true (by omega), Bool.and_true] at hfalse
  rw [mem_word b ht', hfalse]

lemma isNext_nextFrom (words w : ℕ) (hend : words + w = lengthInWords k n) :
    b.IsNext (w * 2 ^ k) (b.nextFrom words w) := by
  induction words generalizing w with
  | zero =>
    refine Or.inl ⟨rfl, fun j hj => ?_⟩
    have hword : w ≤ j / 2 ^ k := (Nat.le_div_iff_mul_le (Nat.two_pow_pos k)).mpr hj
    exact mem_of_wordAt_eq_zero (b.wordAt_of_le (by omega)) rfl
  | succ words ih =>
    rw [nextFrom]
    split_ifs with hne
    · refine isNext_lowestBit (Nat.mul_div_cancel _ (Nat.two_pow_pos k)) hne fun t ht => ?_
      rw [Nat.mul_mod_left, decide_eq_true (zero_le t), Bool.and_true]
    · refine (ih (w + 1) (by omega)).extend ?_ fun j hj hlt => ?_
      · exact Nat.mul_le_mul_right _ (Nat.le_succ w)
      · refine mem_of_wordAt_eq_zero (not_not.mp hne) ?_
        exact Nat.div_eq_of_lt_le hj hlt

lemma next_spec (b : BitSet k n) (hi : i < n) : ∃ r, b.next i = .ok r ∧ b.IsNext i r := by
  have hword := shiftRight_lt_lengthInWords (k := k) hi
  have hdiv := shiftRight_eq_div_pow i k
  rw [next, check_of (decide_eq_true hi), ok_bind]
  have hbits : ∀ t < 2 ^ k, (b.wordAt (i >>> k) &&&
      BitVec.allOnes (2 ^ k) <<< (i &&& (2 ^ k - 1))).getLsbD t =
        ((b.wordAt (i >>> k)).getLsbD t && decide (i % 2 ^ k ≤ t)) := by
    intro t ht
    rw [BitVec.getLsbD_and, getLsbD_lowMask i ht]
  dsimp only
  split_ifs with hne
  · exact ⟨_, rfl, isNext_lowestBit hdiv.symm hne hbits⟩
  · refine ⟨_, rfl, (isNext_nextFrom _ _ (by omega)).extend ?_ fun j hj hlt => ?_⟩
    · rw [hdiv]
      exact (Nat.lt_mul_div_succ i (Nat.two_pow_pos k)).le.trans_eq (mul_comm _ _)
    · have hfalse := hbits (j % 2 ^ k) (Nat.mod_lt j (Nat.two_pow_pos k))
      have hjw : j / 2 ^ k = i >>> k := by
        rw [hdiv] at hlt ⊢
        exact Nat.le_antisymm (Nat.lt_succ_iff.mp (Nat.div_lt_of_lt_mul
          (hlt.trans_eq (mul_comm _ _)))) (Nat.div_le_div_right hj)
      have hmod : i % 2 ^ k ≤ j % 2 ^ k := by
        have hi' := Nat.div_add_mod i (2 ^ k)
        have hj' := Nat.div_add_mod j (2 ^ k)
        rw [hjw] at hj'
        rw [← hdiv] at hi'
        omega
      rw [not_not.mp hne, decide_eq_true hmod, Bool.and_true] at hfalse
      rw [mem, hjw, ← hfalse]
      exact BitVec.getLsbD_zero

def IsLast (b : BitSet k n) (r : ℤ) : Prop :=
  (r = -1 ∧ ∀ j, b.mem j = false) ∨
    ∃ m : ℕ, r = m ∧ b.mem m = true ∧ ∀ j, m < j → b.mem j = false

lemma IsLast.unique {r r' : ℤ} (h : b.IsLast r) (h' : b.IsLast r') : r = r' := by
  rcases h with ⟨rfl, hnone⟩ | ⟨m, rfl, hm, hafter⟩
  · rcases h' with ⟨rfl, -⟩ | ⟨m', rfl, hm', -⟩
    · rfl
    · rw [hnone] at hm'
      cases hm'
  · rcases h' with ⟨rfl, hnone⟩ | ⟨m', rfl, hm', hafter'⟩
    · rw [hnone] at hm
      cases hm
    · rcases lt_trichotomy m m' with hlt | rfl | hgt
      · rw [hafter m' hlt] at hm'
        cases hm'
      · rfl
      · rw [hafter' m hgt] at hm
        cases hm

lemma isLast_highestBit {w : ℕ} (hne : b.wordAt w ≠ 0) (habove : ∀ v, w < v → b.wordAt v = 0) :
    b.IsLast (highestBit w (b.wordAt w)) := by
  obtain ⟨t, ht, hpos, htrue, hafter⟩ := highestBit_spec w hne
  refine Or.inr ⟨w * 2 ^ k + t, hpos, by rw [mem_word b ht, htrue], fun j hj => ?_⟩
  have hword : w ≤ j / 2 ^ k := (Nat.le_div_iff_mul_le (Nat.two_pow_pos k)).mpr (by omega)
  rcases lt_or_eq_of_le hword with hlt | heq
  · exact mem_of_wordAt_eq_zero (habove _ hlt) rfl
  · have hj' := Nat.div_add_mod j (2 ^ k)
    rw [← heq, mul_comm] at hj'
    rw [mem, ← heq, hafter _ (by omega)]

lemma isLast_none (h : ∀ w, b.wordAt w = 0) : b.IsLast (-1) :=
  Or.inl ⟨rfl, fun _ => mem_of_wordAt_eq_zero (h _) rfl⟩

lemma isLast_lastBelow (w : ℕ) (habove : ∀ v, w ≤ v → b.wordAt v = 0) :
    b.IsLast (b.lastBelow w) := by
  induction w with
  | zero => exact isLast_none fun v => habove v (zero_le v)
  | succ w ih =>
    rw [lastBelow]
    split_ifs with hne
    · exact isLast_highestBit hne habove
    · refine ih fun v hv => ?_
      rcases lt_or_eq_of_le hv with hlt | rfl
      · exact habove v hlt
      · exact not_not.mp hne

lemma isLast_previousFrom (w : ℕ) (habove : ∀ v, w < v → b.wordAt v = 0) :
    b.IsLast (b.previousFrom w) := by
  induction w with
  | zero =>
    rw [previousFrom]
    split_ifs with hzero
    · refine isLast_none fun v => ?_
      rcases Nat.eq_zero_or_pos v with rfl | hpos
      · exact hzero
      · exact habove v hpos
    · exact isLast_highestBit hzero habove
  | succ w ih =>
    rw [previousFrom]
    split_ifs with hzero
    · refine ih fun v hv => ?_
      rcases Nat.lt_or_eq_of_le hv with hlt | rfl
      · exact habove v hlt
      · exact hzero
    · exact isLast_highestBit hzero habove

lemma isLast_last (b : BitSet k n) : b.IsLast b.last :=
  isLast_lastBelow _ fun _ hv => b.wordAt_of_le hv

lemma clearLastAndFindPrevious_spec (b : BitSet k n) (hi : i < n) (hlast : b.IsLast i) :
    ∃ b' r, b.clearLastAndFindPrevious i = .ok (b', r) ∧
      (∀ j, b'.mem j = if j = i then false else b.mem j) ∧ b'.IsLast r := by
  obtain ⟨hmem, hafter⟩ : b.mem i = true ∧ ∀ j, i < j → b.mem j = false := by
    rcases hlast with ⟨hneg, -⟩ | ⟨m, hm, hrest⟩
    · omega
    · obtain rfl : i = m := by omega
      exact hrest
  have hbits : ∀ j < 2 ^ k, (b.wordAt (i >>> k) ^^^ bitMask k i).getLsbD j =
      if j = i % 2 ^ k then false else (b.wordAt (i >>> k)).getLsbD j := by
    intro j hj
    rw [BitVec.getLsbD_xor, getLsbD_bitMask i hj]
    by_cases h : j = i % 2 ^ k
    · rw [if_pos h, decide_eq_true h, h]
      rw [mem, ← shiftRight_eq_div_pow] at hmem
      rw [hmem]
      rfl
    · rw [if_neg h, decide_eq_false h, Bool.xor_false]
  have hmem' := b.mem_setWord hi hbits
  refine ⟨_, _, ?_, hmem', isLast_previousFrom (i >>> k) fun v hv => ?_⟩
  · rw [clearLastAndFindPrevious, b.test_eq hi, ok_bind, check_of hmem, ok_bind,
      check_of (decide_eq_true (b.isLast_last.unique hlast)), ok_bind]
  · refine BitVec.eq_of_getLsbD_eq fun t ht => ?_
    have hbig : i < v * 2 ^ k + t := by
      rw [Nat.shiftRight_eq_div_pow] at hv
      have := (Nat.div_lt_iff_lt_mul (Nat.two_pow_pos k)).mp hv
      omega
    rw [← mem_word _ ht, hmem', if_neg (by omega), hafter _ hbig]
    exact BitVec.getLsbD_zero.symm

end BitSet

end DartSdk.BitSets
