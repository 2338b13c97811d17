import DartSdk.BigIntDigits

/-!
The long division of digits. The operands are shifted so that the divisor has an even number of
digits and its top bit is set, and the first step is made explicitly. The estimate of the next digit
or pair of the quotient is never too small. After it has been written into the digits above the
remainder, the whole array denotes `value` of the estimate, and taking back one divisor leads to the
value of the preceding estimate, so that the correction stops at the quotient.
-/

namespace DartSdk.BigInts

open Checked Numerals QuotientSteps Nat

section

section

variable {a nyDigits : Digits} {s n low high fuel : ℕ}

/-- Numbers below the weight and above it can be read off their sum. -/
lemma seg_unique {m : ℕ}
    (h : seg a s (m + n) = low + digitBase ^ m * high) (hlow : low < digitBase ^ m) :
    seg a s m = low ∧ seg a (s + m) n = high := by
  rw [seg_add] at h
  have hlt := seg_lt a s m
  have hpos : 0 < digitBase ^ m := by omega
  constructor
  · have hmod := congrArg (· % digitBase ^ m) h
    rwa [add_mul_mod_self_left, add_mul_mod_self_left, mod_eq_of_lt hlt, mod_eq_of_lt hlow] at hmod
  · have hdiv := congrArg (· / digitBase ^ m) h
    rwa [add_mul_div_left _ _ hpos, add_mul_div_left _ _ hpos, div_eq_of_lt hlt,
      div_eq_of_lt hlow, zero_add, zero_add] at hdiv

/-- A step that divides `part`, of `size + width` digits, by a divisor of `size` digits. -/
structure DivisionStep where
  divisor : ℕ
  size : ℕ
  width : ℕ
  /-- The digits of the array that are in use. -/
  used : ℕ
  position : ℕ
  /-- The remainder below `position`. -/
  low : ℕ
  part : ℕ
  /-- The quotient found before. -/
  above : ℕ
  divisor_pos : 0 < divisor
  divisor_lt : divisor < digitBase ^ size
  low_lt : low < digitBase ^ position
  part_lt : part < divisor * digitBase ^ width
  used_ge : position + (size + width) ≤ used

namespace DivisionStep

variable {c : DivisionStep} {q : ℕ} {r tmp : Digits}

def quotient (c : DivisionStep) : ℕ := c.part / c.divisor

/-- The part and the estimate above it. -/
def block (c : DivisionStep) (q : ℕ) : ℕ := written c.part c.divisor (digitBase ^ c.size) q

/-- What the whole array denotes after the estimate has been written. -/
def value (c : DivisionStep) (q : ℕ) : ℕ :=
  c.low + digitBase ^ c.position * (c.block q + digitBase ^ (c.size + c.width) * c.above)

lemma size_pos (c : DivisionStep) : 0 < c.size := by
  have hpos := c.divisor_pos
  have hlt := c.divisor_lt
  by_contra hzero
  rw [show c.size = 0 by omega, pow_zero] at hlt
  omega

lemma block_lt (hq : c.quotient ≤ q) (hlt : q < digitBase ^ c.width) :
    c.block q < digitBase ^ (c.size + c.width) := by
  calc c.block q < (q + 1) * digitBase ^ c.size := written_lt c.divisor_lt.le c.divisor_pos hq
    _ ≤ digitBase ^ c.width * digitBase ^ c.size := Nat.mul_le_mul_right _ hlt
    _ = digitBase ^ (c.size + c.width) := by rw [add_comm, pow_add]

/-- The array holds the estimate `q`. -/
structure Holds (c : DivisionStep) (q : ℕ) (r : Digits) : Prop where
  bound : c.used ≤ r.length
  eq : seg r 0 c.used = c.value q
  quotient_le : c.quotient ≤ q
  lt : q < digitBase ^ c.width

section

variable (h : c.Holds q r)

include h

lemma Holds.parts :
    seg r 0 c.position = c.low ∧ seg r c.position (c.size + c.width) = c.block q ∧
      seg r (c.position + (c.size + c.width)) (c.used - (c.position + (c.size + c.width))) =
        c.above := by
  obtain ⟨rest, hrest⟩ := Nat.exists_eq_add_of_le c.used_ge
  have hval := h.eq
  rw [hrest, add_assoc] at hval
  obtain ⟨hlow, hhigh⟩ := seg_unique hval c.low_lt
  obtain ⟨hblock, habove⟩ := seg_unique hhigh (block_lt h.quotient_le h.lt)
  rw [zero_add] at hblock habove
  refine ⟨hlow, hblock, ?_⟩
  rw [show c.used - (c.position + (c.size + c.width)) = rest by omega]
  exact habove

lemma Holds.top : seg r (c.position + c.size) c.width = c.block q / digitBase ^ c.size := by
  rw [← h.parts.2.1]
  exact (segment_div fun _ _ => digit_lt ..).symm

lemma Holds.top_le : seg r (c.position + c.size) c.width ≤ q := by
  rw [h.top, ← Nat.lt_succ_iff, Nat.div_lt_iff_lt_mul (Nat.pow_pos digitBase_pos)]
  exact written_lt c.divisor_lt.le c.divisor_pos h.quotient_le

lemma Holds.top_lt_iff : seg r (c.position + c.size) c.width < q ↔ c.quotient < q := by
  rw [h.top]
  exact written_div_lt_iff c.divisor_lt.le c.divisor_pos

/-- The array holds the negated divisor, shifted to the position of the step. -/
structure Negated (c : DivisionStep) (tmp : Digits) : Prop where
  bound : c.position + c.size ≤ tmp.length
  eq : seg tmp 0 (c.position + c.size) =
    digitBase ^ c.position * (digitBase ^ c.size - c.divisor)

lemma Holds.takeBack (hq : c.quotient < q) (htmp : c.Negated tmp) :
    ∃ r', absSub r c.used tmp (c.position + c.size) r = .ok r' ∧ r'.length = r.length ∧
      c.Holds (q - 1) r' := by
  have hsize := c.size_pos
  have hused := c.used_ge
  have hblock : c.block q = c.block (q - 1) + (digitBase ^ c.size - c.divisor) := by
    have hpred : c.block q - (digitBase ^ c.size - c.divisor) = c.block (q - 1) :=
      written_pred (by omega)
    have hle : digitBase ^ c.size - c.divisor ≤ c.block q :=
      (Nat.le_mul_of_pos_left _ (by omega)).trans (Nat.le_add_left _ _)
    omega
  have hval : c.value q =
      c.value (q - 1) + digitBase ^ c.position * (digitBase ^ c.size - c.divisor) := by
    rw [value, value, hblock]
    ring
  have heq := h.eq
  obtain ⟨r', hr', hlen, hseg, -⟩ := absSub_spec h.bound htmp.bound (by omega)
    (by omega) h.bound (by rw [htmp.eq]; omega)
  refine ⟨r', hr', hlen, by rw [hlen]; exact h.bound, ?_, by omega, by have := h.lt; omega⟩
  rw [hseg, htmp.eq]
  omega

end

end DivisionStep

/-- What a correction keeps: the sizes of the arrays and the digits of the divisor. -/
structure SameShape (s s' : Arrays) : Prop where
  result : s'.result.length = s.result.length
  args : Changed s.args s'.args 2 2
  tmp : s'.tmp.length = s.tmp.length

lemma SameShape.refl (s : Arrays) : SameShape s s := ⟨rfl, .refl .., rfl⟩

lemma Changed.trans {a' a'' : Digits} (h : Changed a a' s n)
    (h' : Changed a' a'' s n) : Changed a a'' s n :=
  ⟨by rw [h'.length, h.length], fun k hk => by rw [h'.others k hk, h.others k hk]⟩

lemma SameShape.trans {s s' s'' : Arrays} (h : SameShape s s') (h' : SameShape s' s'') :
    SameShape s s'' :=
  ⟨by rw [h'.result, h.result], h.args.trans h'.args, by rw [h'.tmp, h.tmp]⟩

variable {c : DivisionStep} {s : Arrays} {q : ℕ}

lemma correctDigit_spec (hwidth : c.width = 1) (hfuel : q < fuel)
    (hholds : c.Holds q s.result) (hargs : s.args.length = 4)
    (hq : digit s.args quotientDigit = q + 1) (htmp : c.Negated s.tmp) :
    ∃ s', correctDigit c.used (c.position + c.size) (c.position + c.size) fuel s = .ok s' ∧
      c.Holds c.quotient s'.result ∧ SameShape s s' := by
  induction fuel generalizing s q with
  | zero => omega
  | succ fuel ih =>
    have hused := c.used_ge
    have hlt := hholds.lt
    have hiff := hholds.top_lt_iff
    have hbound := hholds.bound
    rw [hwidth, seg_one] at hiff
    rw [hwidth, pow_one] at hlt
    obtain ⟨args, hstore, hstored⟩ := store_digit (a := s.args) (i := quotientDigit)
      (by rw [hargs]; decide) hlt
    have hshape : Changed s.args args 2 2 :=
      ⟨hstored.length, fun k hk => hstored.other k (by simp only [quotientDigit]; omega)⟩
    rw [correctDigit, load_eq (by omega), ok_bind, load_eq (by rw [hargs]; decide), ok_bind, hq,
      show ((q + 1 : ℕ) : ℤ) - 1 = q by omega, hstore, ok_bind]
    by_cases hsmall : digit s.result (c.position + c.size) < q
    · have hquot := hiff.mp hsmall
      obtain ⟨r, hr, hlen, hnext⟩ := hholds.takeBack hquot htmp
      obtain ⟨s', hs', hdone, hshape'⟩ := ih (s := ⟨r, args, s.tmp⟩) (q := q - 1) (by omega) hnext
        (by rw [hstored.length, hargs]) (by rw [hstored.here]; omega) htmp
      have hfirst : SameShape s ⟨r, args, s.tmp⟩ := ⟨hlen, hshape, rfl⟩
      refine ⟨s', ?_, hdone, hfirst.trans hshape'⟩
      rw [if_pos (by exact_mod_cast hsmall), hr, ok_bind, hs']
    · have hquot : c.quotient = q := by
        have := hholds.quotient_le
        omega
      rw [if_neg (by exact_mod_cast hsmall), hquot]
      exact ⟨_, rfl, hholds, rfl, hshape, rfl⟩

lemma pair_lt_iff {d d' : ℕ} (hd' : d' < digitBase) (hlow : low < digitBase)
    (hle : d' + d * digitBase ≤ low + high * digitBase) :
    d ≤ high ∧ (d < high ∨ d' < low ↔ d' + d * digitBase < low + high * digitBase) := by
  unfold digitBase at *
  omega

lemma seg_two (a : Digits) (i : ℕ) : seg a i 2 = digit a i + digit a (i + 1) * digitBase := by
  rw [seg_succ, seg_one, pow_one]

section

variable (hwidth : c.width = 2) (hholds : c.Holds q s.result)

include hwidth hholds

lemma Holds.pair (hq : seg s.args quotientDigit 2 = q) :
    digit s.result (c.position + c.size + 1) ≤ digit s.args quotientHighDigit ∧
      (digit s.result (c.position + c.size + 1) < digit s.args quotientHighDigit ∨
        digit s.result (c.position + c.size) < digit s.args quotientDigit ↔ c.quotient < q) := by
  have hle := hholds.top_le
  rw [hwidth, seg_two, ← hq, seg_two] at hle
  have hiff := hholds.top_lt_iff
  rw [hwidth] at hiff
  obtain ⟨hhigh, hpair⟩ := pair_lt_iff (digit_lt ..) (digit_lt ..) hle
  refine ⟨hhigh, hpair.trans ?_⟩
  rw [← hiff, ← hq, seg_two, seg_two]

lemma pairTooSmall_spec (hargs : s.args.length = 4) (hq : seg s.args quotientDigit 2 = q) :
    pairTooSmall s (c.position + c.size + 1) = .ok (decide (c.quotient < q)) := by
  have hused := c.used_ge
  have hbound := hholds.bound
  rw [pairTooSmall, load_eq (by omega), ok_bind, load_eq (by rw [hargs]; decide), ok_bind,
    minus_eq (by omega), ok_bind, Nat.add_sub_cancel, load_eq (by omega), ok_bind,
    load_eq (by rw [hargs]; decide), ok_bind]
  congr 1
  rw [← Bool.decide_or]
  exact decide_eq_decide.mpr (Holds.pair hwidth hholds hq).2

omit hwidth hholds in
lemma decrementPair_spec {args : Digits} (hargs : args.length = 4)
    (hq : seg args quotientDigit 2 = q) (hpos : 0 < q) :
    ∃ args', decrementPair args = .ok args' ∧ Changed args args' 2 2 ∧
      seg args' quotientDigit 2 = q - 1 := by
  have hlow := digit_lt args quotientDigit
  have hhigh := digit_lt args quotientHighDigit
  rw [seg_two, show quotientDigit + 1 = quotientHighDigit from rfl] at hq
  rw [decrementPair, load_eq (by rw [hargs]; decide), ok_bind]
  by_cases hzero : digit args quotientDigit = 0
  · have hne : digit args quotientHighDigit ≠ 0 := by
      intro h
      rw [hzero, h] at hq
      omega
    obtain ⟨args1, hargs1, hstored1⟩ := store_digit (a := args) (i := quotientHighDigit)
      (v := digit args quotientHighDigit - 1) (by rw [hargs]; decide) (by omega)
    obtain ⟨args2, hargs2, hstored2⟩ := store_int (a := args1) (i := quotientDigit)
      (by rw [hstored1.length, hargs]; decide) (-1)
    refine ⟨args2, ?_, ⟨by rw [hstored2.length, hstored1.length], ?_⟩, ?_⟩
    · rw [if_pos hzero, load_eq (by rw [hargs]; decide), ok_bind, hzero,
        show (digit args quotientHighDigit : ℤ) - 1 =
          (digit args quotientHighDigit - 1 : ℕ) by omega,
        hargs1, ok_bind, cast_zero, zero_sub]
      exact hargs2
    · intro k hk
      rw [hstored2.other k (by simp only [quotientDigit]; omega),
        hstored1.other k (by simp only [quotientHighDigit]; omega)]
    · rw [seg_two, show quotientDigit + 1 = quotientHighDigit from rfl, hstored2.here,
        hstored2.other _ (by decide), hstored1.here, ← hq, hzero,
        show ((-1 : ℤ) % digitBase).toNat = digitBase - 1 by decide]
      unfold digitBase at *
      omega
  · obtain ⟨args', hargs', hstored⟩ := store_digit (a := args) (i := quotientDigit)
      (v := digit args quotientDigit - 1) (by rw [hargs]; decide) (by omega)
    refine ⟨args', ?_, ⟨hstored.length, ?_⟩, ?_⟩
    · rw [if_neg hzero, ok_bind,
        show (digit args quotientDigit : ℤ) - 1 = (digit args quotientDigit - 1 : ℕ) by omega]
      exact hargs'
    · intro k hk
      exact hstored.other k (by simp only [quotientDigit]; omega)
    · rw [seg_two, hstored.here, hstored.other _ (by decide)]
      change _ + digit args quotientHighDigit * _ = _
      omega

lemma takeBackPair_spec (hargs : s.args.length = 4) (hq : seg s.args quotientDigit 2 = q)
    (hquot : c.quotient < q) (htmp : c.Negated s.tmp) :
    ∃ s', takeBackPair c.used (c.position + c.size) (c.position + c.size + 1) s = .ok s' ∧
      c.Holds (q - 1) s'.result ∧ s'.args.length = 4 ∧ seg s'.args quotientDigit 2 = q - 1 ∧
      s'.tmp = s.tmp ∧ SameShape s s' := by
  have hused := c.used_ge
  obtain ⟨r, hr, hlen, hnext⟩ := hholds.takeBack hquot htmp
  obtain ⟨args, hdecrement, hchg, hpair⟩ := decrementPair_spec hargs hq (by omega)
  have hbound := hnext.bound
  have hle := (Holds.pair (s := ⟨r, args, s.tmp⟩) hwidth hnext hpair).1
  refine ⟨⟨r, args, s.tmp⟩, ?_, hnext, by rw [hchg.length, hargs], hpair, rfl, hlen, hchg,
    rfl⟩
  rw [takeBackPair, hr, ok_bind, hdecrement, ok_bind, load_eq (by omega), ok_bind,
    load_eq (by rw [hchg.length, hargs]; decide), ok_bind, check_of (by simpa using hle), ok_bind]

end

lemma correctPair_spec (hwidth : c.width = 2) (hfuel : q < fuel)
    (hholds : c.Holds q s.result) (hargs : s.args.length = 4)
    (hq : seg s.args quotientDigit 2 = q) (htmp : c.Negated s.tmp) :
    ∃ s', correctPair c.used (c.position + c.size) (c.position + c.size + 1) fuel s = .ok s' ∧
      c.Holds c.quotient s'.result ∧ SameShape s s' := by
  induction fuel generalizing s q with
  | zero => omega
  | succ fuel ih =>
    rw [correctPair, pairTooSmall_spec hwidth hholds hargs hq, ok_bind]
    by_cases hquot : c.quotient < q
    · obtain ⟨s1, hs1, hnext, hargs1, hq1, htmp1, hshape1⟩ :=
        takeBackPair_spec hwidth hholds hargs hq hquot htmp
      obtain ⟨s', hs', hdone, hshape'⟩ := ih (by omega) hnext hargs1 hq1 (by rwa [htmp1])
      refine ⟨s', ?_, hdone, hshape1.trans hshape'⟩
      rw [if_pos (by simpa using hquot), hs1, ok_bind, hs']
    · have heq : c.quotient = q := by
        have := hholds.quotient_le
        omega
      rw [if_neg (by simpa using hquot), heq]
      exact ⟨s, rfl, hholds, .refl s⟩

/-- What the corrections need of the arrays that do not change. -/
structure Correctable (c : DivisionStep) (nyDigits : Digits) (s : Arrays) : Prop where
  args : s.args.length = 4
  negated : seg nyDigits 0 c.size = digitBase ^ c.size - c.divisor
  bound : c.size ≤ nyDigits.length
  tmp : c.size + c.position + (c.size + c.position) % 2 ≤ s.tmp.length

lemma Correctable.shift (h : Correctable c nyDigits s) :
    ∃ tmp, dlShiftDigits nyDigits c.size c.position s.tmp = .ok (c.position + c.size, tmp) ∧
      tmp.length = s.tmp.length ∧ c.Negated tmp := by
  obtain ⟨tmp, htmp, hlen, hseg, -⟩ := dlShiftDigits_spec s.tmp c.size_pos h.bound h.tmp
  have hbound := h.tmp
  rw [add_comm c.size c.position] at *
  refine ⟨tmp, htmp, hlen, by omega, ?_⟩
  rw [hseg, h.negated]

lemma correctionDigit_spec (hwidth : c.width = 1)
    (hholds : c.Holds q s.result) (h : Correctable c nyDigits s)
    (hq : digit s.args quotientDigit = q) :
    ∃ s', correctionDigit nyDigits c.size c.used (c.position + c.size) c.position s = .ok s' ∧
      c.Holds c.quotient s'.result ∧ SameShape s s' := by
  have hused := c.used_ge
  have hbound := hholds.bound
  have hiff := hholds.top_lt_iff
  rw [hwidth, seg_one] at hiff
  rw [correctionDigit, load_eq (by omega), ok_bind, load_eq (by rw [h.args]; decide), ok_bind, hq]
  split_ifs with hsmall
  · have hquot := hiff.mp hsmall
    obtain ⟨tmp, htmp, hlen, hnegated⟩ := h.shift
    obtain ⟨r, hr, hrlen, hnext⟩ := hholds.takeBack hquot hnegated
    obtain ⟨s', hs', hdone, hshape⟩ := correctDigit_spec (s := ⟨r, s.args, tmp⟩) hwidth
      (show q - 1 < q + 1 by omega) hnext h.args (by rw [hq]; omega) hnegated
    have hfirst : SameShape s ⟨r, s.args, tmp⟩ := ⟨hrlen, .refl .., hlen⟩
    refine ⟨s', ?_, hdone, hfirst.trans hshape⟩
    rw [htmp, ok_bind]
    dsimp only
    rw [hr, ok_bind, hs']
  · have heq : c.quotient = q := by
      have := hholds.quotient_le
      omega
    rw [heq]
    exact ⟨s, rfl, hholds, .refl s⟩

lemma correctionPair_spec (hwidth : c.width = 2)
    (hholds : c.Holds q s.result) (h : Correctable c nyDigits s)
    (hq : seg s.args quotientDigit 2 = q) :
    ∃ s', correctionPair nyDigits c.size c.used (c.position + c.size + 1) c.position s = .ok s' ∧
      c.Holds c.quotient s'.result ∧ SameShape s s' := by
  have hused := c.used_ge
  have hbound := hholds.bound
  rw [correctionPair, load_eq (by omega), ok_bind, load_eq (by rw [h.args]; decide), ok_bind,
    check_of (by simpa using (Holds.pair hwidth hholds hq).1), ok_bind,
    pairTooSmall_spec hwidth hholds h.args hq, ok_bind]
  by_cases hquot : c.quotient < q
  · obtain ⟨tmp, htmp, hlen, hnegated⟩ := h.shift
    obtain ⟨s1, hs1, hnext, hargs1, hq1, htmp1, hshape1⟩ :=
      takeBackPair_spec (s := ⟨s.result, s.args, tmp⟩) hwidth hholds h.args hq hquot hnegated
    obtain ⟨s', hs', hdone, hshape'⟩ := correctPair_spec hwidth (show q - 1 < q + 1 by omega)
      hnext hargs1 hq1 (by rwa [htmp1])
    have hfirst : SameShape s ⟨s.result, s.args, tmp⟩ := ⟨rfl, .refl .., hlen⟩
    refine ⟨s', ?_, hdone, hfirst.trans (hshape1.trans hshape')⟩
    rw [if_pos (by simpa using hquot), htmp, ok_bind]
    dsimp only
    rw [loadPair_eq (by rw [h.args]; decide), ok_bind, hq, hs1, ok_bind, hs']
  · have heq : c.quotient = q := by
      have := hholds.quotient_le
      omega
    rw [if_neg (by simpa using hquot), heq]
    exact ⟨s, rfl, hholds, .refl s⟩

end

/-- A normalized divisor of `n` digits and its negation. -/
structure Divisor (y ny : Digits) (n : ℕ) : Prop where
  even : n % 2 = 0
  two_le : 2 ≤ n
  normalized : 2 ^ 31 ≤ digit y (n - 1)
  bound : n ≤ ny.length
  negated : seg ny 0 n = digitBase ^ n - seg y 0 n

variable {mode : Mode} {y ny : Digits} {n : ℕ}

lemma Mode.width_pos (mode : Mode) : 0 < mode.width := by
  cases mode <;> decide

lemma Mode.width_le_two (mode : Mode) : mode.width ≤ 2 := by
  cases mode <;> decide

/-- The divisor begins with the digits that the estimate divides by. -/
lemma leading_bounds {w : ℕ} (hw : w ≤ n) :
    seg y (n - w) w * digitBase ^ (n - w) ≤ seg y 0 n ∧
      seg y 0 n < (seg y (n - w) w + 1) * digitBase ^ (n - w) := by
  have hsplit := seg_add y 0 (n - w) w
  rw [Nat.sub_add_cancel hw, zero_add] at hsplit
  have hlt := seg_lt y 0 (n - w)
  rw [hsplit, add_mul, one_mul, mul_comm (digitBase ^ (n - w))]
  omega

variable {p : ℕ}

/-- The estimate from the leading digits of the dividend and the divisor is not too small. -/
lemma part_div_le {r : Digits} {w t : ℕ} (hw : w ≤ n)
    (ht : t * digitBase ^ (n - w) ≤ seg y 0 n) (hpos : 0 < t) :
    seg r p (n + w) / seg y 0 n ≤ seg r (p + (n - w)) (w + w) / t := by
  apply div_le_leading (w := digitBase ^ (n - w)) _ ht hpos
  have hsplit := seg_add r p (n - w) (w + w)
  rw [show n - w + (w + w) = n + w by omega] at hsplit
  have hlt := seg_lt r p (n - w)
  rw [hsplit, add_mul, one_mul, mul_comm (digitBase ^ (n - w))]
  omega

/-- What the loop knows of the digits of the divisor in `args`. -/
structure DivisorDigits (y : Digits) (n : ℕ) (args : Digits) : Prop where
  length : args.length = 4
  lowTop : digit args divisorLowTopDigit = digit y (n - 2)
  top : digit args divisorTopDigit = digit y (n - 1)

variable {args : Digits}

lemma DivisorDigits.changed {args' : Digits} (h : DivisorDigits y n args)
    (hchg : Changed args args' 2 2) : DivisorDigits y n args' :=
  ⟨by rw [hchg.length, h.length], by rw [hchg.others _ (by decide), h.lowTop],
    by rw [hchg.others _ (by decide), h.top]⟩

variable {result : Digits}

lemma estimateDigit_spec (h : Divisor y ny n)
    (hargs : DivisorDigits y n args) (hlen : 4 ≤ result.length) (hbound : p + n < result.length)
    (hpart : seg result p (n + 1) < seg y 0 n * digitBase) :
    ∃ args', estimateDigit args result (p + n) = .ok (1, args') ∧ Changed args args' 2 2 ∧
      seg result p (n + 1) / seg y 0 n ≤ digit args' quotientDigit := by
  have htwo := h.two_le
  have hnormalized := h.normalized
  have hlt : seg result p (n + 1) / seg y 0 n < digitBase := Nat.div_lt_of_lt_mul hpart
  have hstore : ∀ v, v < digitBase → seg result p (n + 1) / seg y 0 n ≤ v →
      ∃ args', store args quotientDigit (v : ℤ) = .ok args' ∧ Changed args args' 2 2 ∧
        seg result p (n + 1) / seg y 0 n ≤ digit args' quotientDigit := by
    intro v hv hle
    obtain ⟨args', hargs', hstored⟩ := store_digit (a := args) (i := quotientDigit)
      (by rw [hargs.length]; decide) hv
    refine ⟨args', hargs', ⟨hstored.length, fun k hk => hstored.other k ?_⟩, by rwa [hstored.here]⟩
    simp only [quotientDigit]
    omega
  rw [estimateDigit, check_of (by simpa using hlen), ok_bind, load_eq hbound, ok_bind,
    load_eq (by rw [hargs.length]; decide), ok_bind, hargs.top]
  split
  · obtain ⟨args', hargs', hchg, hle⟩ := hstore digitMask (by decide)
      (by unfold digitMask digitBase at *; omega)
    exact ⟨args', by rw [hargs', ok_bind], hchg, hle⟩
  · -- The estimate halves both numbers, which does not make it smaller.
    have hhalves : (digit result (p + n) <<< (digitBits - 1) ||| digit result (p + n - 1) >>> 1) /
        (digit y (n - 1) >>> 1) = seg result (p + (n - 1)) 2 / 2 / (digit y (n - 1) / 2) := by
      have hd := digit_lt result (p + n - 1)
      rw [show digitBits - 1 = 31 from rfl,
        or_eq_add (by rw [shiftRight_eq_div_pow]; unfold digitBase at hd; omega),
        shiftRight_eq_div_pow, shiftRight_eq_div_pow, pow_one, seg_two,
        show p + (n - 1) = p + n - 1 by omega, show p + n - 1 + 1 = p + n by omega]
      congr 1
      unfold digitBase
      omega
    have hle : seg result p (n + 1) / seg y 0 n ≤
        seg result (p + (n - 1)) 2 / 2 / (digit y (n - 1) / 2) := by
      have hleading := (leading_bounds (y := y) (show 1 ≤ n by omega)).1
      rw [seg_one] at hleading
      exact (part_div_le (by omega) hleading (by omega)).trans (div_le_halves (by omega))
    rw [minus_eq (by omega), ok_bind, load_eq (by omega), ok_bind]
    dsimp only
    rw [hhalves]
    obtain ⟨args', hargs', hchg, hle'⟩ := hstore
      (if seg result (p + (n - 1)) 2 / 2 / (digit y (n - 1) / 2) > digitMask then digitMask
        else seg result (p + (n - 1)) 2 / 2 / (digit y (n - 1) / 2))
      (by unfold digitMask digitBase at *; split <;> omega)
      (by unfold digitMask digitBase at *; split <;> omega)
    exact ⟨args', by rw [hargs', ok_bind], hchg, hle'⟩

lemma estimatePair_spec (h : Divisor y ny n)
    (hargs : DivisorDigits y n args) (hbound : p + n + 1 < result.length)
    (hpart : seg result p (n + 2) < seg y 0 n * digitBase ^ 2) :
    ∃ args', estimatePair args result (p + n + 1) = .ok (2, args') ∧ Changed args args' 2 2 ∧
      seg result p (n + 2) / seg y 0 n ≤ seg args' quotientDigit 2 := by
  have htwo := h.two_le
  have hnormalized := h.normalized
  have hlt : seg result p (n + 2) / seg y 0 n < digitBase ^ 2 := Nat.div_lt_of_lt_mul hpart
  have hyt : seg args divisorLowTopDigit 2 = seg y (n - 2) 2 := by
    rw [seg_two, seg_two, show divisorLowTopDigit + 1 = divisorTopDigit from rfl, hargs.lowTop,
      hargs.top, show n - 2 + 1 = n - 1 by omega]
  obtain ⟨hleading, hleading'⟩ := leading_bounds (y := y) htwo
  have hpos : 0 < seg y (n - 2) 2 := by
    rw [seg_two, show n - 2 + 1 = n - 1 by omega]
    unfold digitBase
    omega
  have hstore : ∀ v, v < 2 ^ 64 → seg result p (n + 2) / seg y 0 n ≤ v →
      ∃ args', storePair args quotientDigit v = .ok args' ∧ Changed args args' 2 2 ∧
        seg result p (n + 2) / seg y 0 n ≤ seg args' quotientDigit 2 := by
    intro v hv hle
    obtain ⟨args', hargs', hchg, hpair⟩ := storePair_spec (a := args) (i := quotientDigit)
      (by rw [hargs.length]; decide) hv
    exact ⟨args', hargs', hchg, by rwa [hpair]⟩
  -- The pair above the divisor is at most the top pair of the divisor.
  have hdh : seg result (p + n) 2 ≤ seg y (n - 2) 2 := by
    rw [← Nat.lt_succ_iff]
    refine Nat.lt_of_mul_lt_mul_right (a := digitBase ^ n) ?_
    calc seg result (p + n) 2 * digitBase ^ n ≤ seg result p (n + 2) := by
          rw [seg_add, mul_comm]
          omega
      _ < seg y 0 n * digitBase ^ 2 := hpart
      _ ≤ (seg y (n - 2) 2 + 1) * digitBase ^ (n - 2) * digitBase ^ 2 :=
          Nat.mul_le_mul_right _ hleading'.le
      _ = (seg y (n - 2) 2 + 1) * digitBase ^ n := by
          rw [mul_assoc, ← pow_add, Nat.sub_add_cancel htwo]
  rw [estimatePair, loadPair_eq (by rw [hargs.length]; decide), ok_bind, minus_eq (by omega),
    ok_bind, Nat.add_sub_cancel, loadPair_eq hbound, ok_bind, hyt]
  split
  · rw [digitBase_sq] at hlt
    obtain ⟨args', hargs', hchg, hle⟩ := hstore (2 ^ 64 - 1) (by omega) (by omega)
    exact ⟨args', by rw [hargs', ok_bind], hchg, hle⟩
  · rename_i hne
    have hquad : seg result (p + n) 2 * 2 ^ 64 + seg result (p + (n - 2)) 2 =
        seg result (p + (n - 2)) (2 + 2) := by
      rw [seg_add, show p + (n - 2) + 2 = p + n by omega, digitBase_sq]
      omega
    have hfits : seg result (p + (n - 2)) (2 + 2) / seg y (n - 2) 2 < 2 ^ 64 := by
      have hdl := seg_lt result (p + (n - 2)) 2
      rw [digitBase_sq] at hdl
      rw [Nat.div_lt_iff_lt_mul hpos, ← hquad]
      omega
    rw [minus_eq (by omega), ok_bind, show p + n + 1 - 3 = p + (n - 2) by omega,
      loadPair_eq (by omega), ok_bind, if_neg (by omega), hquad]
    obtain ⟨args', hargs', hchg, hle⟩ := hstore _ hfits (part_div_le htwo hleading hpos)
    exact ⟨args', by rw [hargs', ok_bind], hchg, hle⟩

lemma estimate_spec (mode : Mode) (h : Divisor y ny n)
    (hargs : DivisorDigits y n args) (hlen : 4 ≤ result.length)
    (hbound : p + n + mode.width ≤ result.length)
    (hpart : seg result p (n + mode.width) < seg y 0 n * digitBase ^ mode.width) :
    ∃ args', estimateQuotientDigit mode args result (p + n + mode.width - 1) =
        .ok (mode.width, args') ∧ Changed args args' 2 2 ∧
      seg result p (n + mode.width) / seg y 0 n ≤ seg args' quotientDigit mode.width := by
  cases mode with
  | digit =>
    obtain ⟨args', hargs', hchg, hle⟩ := estimateDigit_spec h hargs hlen hbound
      (by rwa [Mode.width, pow_one] at hpart)
    exact ⟨args', hargs', hchg, by rwa [Mode.width, seg_one]⟩
  | pair => exact estimatePair_spec h hargs hbound hpart

/-- The state of the loop at `j`: the dividend is the remainder below `n + j` plus the shifted
divisor times the quotient above. -/
structure Divided (y : Digits) (n used x j : ℕ) (s : Arrays) : Prop where
  args : DivisorDigits y n s.args
  four_le : 4 ≤ s.result.length
  used_le : used ≤ s.result.length
  bound : n + j ≤ used
  tmp : n + j + (n + j) % 2 ≤ s.tmp.length
  remainder : seg s.result 0 (n + j) < seg y 0 n * digitBase ^ j
  value : x = seg s.result 0 (n + j) +
    seg y 0 n * digitBase ^ j * seg s.result (n + j) (used - (n + j))

lemma Divisor.pos (h : Divisor y ny n) : 0 < seg y 0 n := by
  have htwo := h.two_le
  have hnormalized := h.normalized
  exact lt_of_lt_of_le (Nat.pow_pos digitBase_pos) (pow_le_seg (by omega) (by omega))

/-- The step of the loop from `p + width` to `p`, as the correction sees it. -/
def stepOf (mode : Mode) {y ny : Digits} {n used x p : ℕ} {s : Arrays} (h : Divisor y ny n)
    (hs : Divided y n used x (p + mode.width) s) : DivisionStep where
  divisor := seg y 0 n
  size := n
  width := mode.width
  used := used
  position := p
  low := seg s.result 0 p
  part := seg s.result p (n + mode.width)
  above := seg s.result (p + (n + mode.width)) (used - (p + (n + mode.width)))
  divisor_pos := h.pos
  divisor_lt := seg_lt ..
  low_lt := seg_lt ..
  part_lt := by
    have hremainder := hs.remainder
    rw [show n + (p + mode.width) = p + (n + mode.width) by omega, seg_add, Nat.zero_add,
      Nat.pow_add] at hremainder
    refine Nat.lt_of_mul_lt_mul_left (a := digitBase ^ p) ?_
    calc digitBase ^ p * seg s.result p (n + mode.width)
        ≤ seg s.result 0 p + digitBase ^ p * seg s.result p (n + mode.width) := by omega
      _ < seg y 0 n * (digitBase ^ p * digitBase ^ mode.width) := hremainder
      _ = digitBase ^ p * (seg y 0 n * digitBase ^ mode.width) := by ring
  used_ge := by
    have := hs.bound
    omega

variable {used : ℕ}

lemma seg_used {r : Digits} {m : ℕ} (h : p + m ≤ used) :
    seg r 0 used = seg r 0 p + digitBase ^ p * (seg r p m + digitBase ^ m *
      seg r (p + m) (used - (p + m))) := by
  rw [← seg_add, show m + (used - (p + m)) = used - p by omega]
  nth_rewrite 1 [show used = p + (used - p) by omega]
  rw [seg_add, zero_add]

variable {x : ℕ} {s : Arrays}

section

variable (h : Divisor y ny n) (hs : Divided y n used x (p + mode.width) s)

include h hs

lemma Divided.next {s' : Arrays} (hshape : SameShape s s')
    (hholds : (stepOf mode h hs).Holds (stepOf mode h hs).quotient s'.result) :
    Divided y n used x p s' := by
  obtain ⟨hlow, hblock, habove⟩ := hholds.parts
  have hpos := h.pos
  have hbound := hs.bound
  have htmp := hs.tmp
  have hpart : (stepOf mode h hs).block (stepOf mode h hs).quotient =
      seg s.result p (n + mode.width) % seg y 0 n +
        digitBase ^ n * (seg s.result p (n + mode.width) / seg y 0 n) := by
    rw [DivisionStep.block, DivisionStep.quotient,
      written_quotient (stepOf mode h hs).divisor_lt.le, add_comm, mul_comm]
    rfl
  rw [hpart] at hblock
  have hmod := mod_lt (seg s.result p (n + mode.width)) hpos
  obtain ⟨hrem, hquo⟩ := seg_unique hblock (hmod.trans (seg_lt ..))
  change seg s'.result 0 p = seg s.result 0 p at hlow
  change seg s'.result p n = _ at hrem
  change seg s'.result (p + n) mode.width = _ at hquo
  change seg s'.result (p + (n + mode.width)) (used - (p + (n + mode.width))) =
    seg s.result (p + (n + mode.width)) (used - (p + (n + mode.width))) at habove
  have hremainder : seg s'.result 0 (n + p) =
      seg s.result 0 p + digitBase ^ p * (seg s.result p (n + mode.width) % seg y 0 n) := by
    rw [add_comm n p, seg_add, zero_add, hlow, hrem]
  have hquot : seg s'.result (n + p) (used - (n + p)) =
      seg s.result p (n + mode.width) / seg y 0 n + digitBase ^ mode.width *
        seg s.result (p + (n + mode.width)) (used - (p + (n + mode.width))) := by
    rw [show used - (n + p) = mode.width + (used - (p + (n + mode.width))) by omega, seg_add,
      add_comm n p, hquo, add_assoc p n, habove]
  refine ⟨hs.args.changed hshape.args, ?_, ?_, by omega, ?_, ?_, ?_⟩
  · rw [hshape.result]
    exact hs.four_le
  · rw [hshape.result]
    exact hs.used_le
  · have := mode.width_pos
    rw [hshape.tmp]
    omega
  · have hlt := seg_lt s.result 0 p
    rw [hremainder]
    calc seg s.result 0 p + digitBase ^ p * (seg s.result p (n + mode.width) % seg y 0 n)
        < digitBase ^ p * (seg s.result p (n + mode.width) % seg y 0 n + 1) := by
          rw [mul_add, mul_one]
          omega
      _ ≤ digitBase ^ p * seg y 0 n := Nat.mul_le_mul_left _ hmod
      _ = seg y 0 n * digitBase ^ p := mul_comm ..
  · rw [hs.value, hremainder, hquot, show n + (p + mode.width) = p + (n + mode.width) by omega,
      seg_add, zero_add, pow_add]
    nth_rewrite 1 [← div_add_mod (seg s.result p (n + mode.width)) (seg y 0 n)]
    ring

lemma divisionStep_spec :
    ∃ s', divisionStep mode ny n used (p + n + mode.width - 1) (p + mode.width) s =
        .ok (mode.width, s') ∧ Divided y n used x p s' := by
  let c := stepOf mode h hs
  have hwidth := mode.width_le_two
  have hbound := hs.bound
  have hused := hs.used_le
  obtain ⟨args, hestimate, hchg, hle⟩ := estimate_spec mode h hs.args hs.four_le
    (show p + n + mode.width ≤ s.result.length by omega) c.part_lt
  have hargs := hs.args.changed hchg
  have hlt : seg args quotientDigit mode.width < digitBase ^ mode.width := seg_lt ..
  have hwr : seg s.result p (n + mode.width) + seg args quotientDigit mode.width * seg ny 0 n =
      c.block (seg args quotientDigit mode.width) := by
    rw [h.negated]
    rfl
  have hadd := @mulAdd_carry_spec mode 1 args ny s.result _ 0 p n
    (show quotientDigit + mode.width ≤ args.length by rw [hargs.length, quotientDigit]; omega)
  rw [mode.padded_of_even h.even, mul_one] at hadd
  obtain ⟨result, hmul, hres, hval⟩ := hadd
    (show 0 + n ≤ ny.length by have := h.bound; omega)
    (show p + (n + mode.width) ≤ s.result.length by omega)
    (by rw [hwr]; exact c.block_lt hle hlt)
  have hholds : c.Holds (seg args quotientDigit mode.width) result := by
    refine ⟨by rw [hres.length]; exact hused, ?_, hle, hlt⟩
    have hsplit := seg_used (r := result) (show p + (n + mode.width) ≤ used by omega)
    rw [hval, hwr, hres.seg_eq (t := 0) (m := p) (.inl (by omega)),
      hres.seg_eq (.inr le_rfl)] at hsplit
    exact hsplit
  have hcorrectable : Correctable c ny ⟨result, args, s.tmp⟩ := by
    refine ⟨hargs.length, h.negated, h.bound, ?_⟩
    have htmp := hs.tmp
    change n + p + (n + p) % 2 ≤ s.tmp.length
    omega
  have hshape : SameShape s ⟨result, args, s.tmp⟩ := ⟨hres.length, hchg, rfl⟩
  rw [divisionStep, hestimate, ok_bind]
  dsimp only
  rw [minus_eq (by omega), ok_bind, Nat.add_sub_cancel, hmul, ok_bind]
  rw [check_of (by simp), ok_bind]
  cases mode with
  | digit =>
    obtain ⟨s', hs', hdone, hshape'⟩ := correctionDigit_spec (s := ⟨result, args, s.tmp⟩) rfl hholds
      hcorrectable (seg_one ..).symm
    refine ⟨s', ?_, Divided.next h hs (hshape.trans hshape') hdone⟩
    exact congrArg (· >>= _) hs'
  | pair =>
    obtain ⟨s', hs', hdone, hshape'⟩ := correctionPair_spec (s := ⟨result, args, s.tmp⟩) rfl hholds
      hcorrectable rfl
    refine ⟨s', ?_, Divided.next h hs (hshape.trans hshape') hdone⟩
    rw [if_neg (by decide), check_of (by decide), ok_bind]
    exact congrArg (· >>= _) hs'

end

lemma divisionLoop_spec (mode : Mode) {fuel j k : ℕ} (h : Divisor y ny n)
    (hj : j = k * mode.width) (hfuel : k < fuel) (hs : Divided y n used x j s) :
    ∃ s', divisionLoop mode ny n used fuel (n + j - 1) j s = .ok s' ∧ Divided y n used x 0 s' := by
  subst hj
  induction k generalizing fuel s with
  | zero =>
    obtain ⟨fuel, rfl⟩ := Nat.exists_eq_add_of_lt hfuel
    rw [zero_mul] at *
    refine ⟨s, ?_, hs⟩
    rw [divisionLoop, if_pos rfl]
  | succ k ih =>
    obtain ⟨fuel, rfl⟩ : ∃ fuel', fuel = fuel' + 1 := ⟨fuel - 1, by omega⟩
    have hwidth := mode.width_pos
    have htwo := h.two_le
    rw [add_mul, one_mul] at hs
    obtain ⟨s1, hs1, hdivided⟩ := divisionStep_spec h hs
    obtain ⟨s', hs', hdone⟩ := ih (show k < fuel by omega) hdivided
    refine ⟨s', ?_, hdone⟩
    rw [divisionLoop, add_mul, one_mul, if_neg (by omega),
      show n + (k * mode.width + mode.width) - 1 = k * mode.width + n + mode.width - 1 by omega,
        hs1,
      ok_bind]
    dsimp only
    rw [minus_eq (by omega), ok_bind, minus_eq (by omega), ok_bind, Nat.add_sub_cancel,
      show k * mode.width + n + mode.width - 1 - mode.width = n + k * mode.width - 1 by omega, hs']

end

variable {a : Digits} {u : ℕ}

lemma used_eq {k : ℕ} (hu : 0 < u) (htop : digit a (u - 1) ≠ 0)
    (hlow : digitBase ^ (k - 1) ≤ seg a 0 u) (hhigh : seg a 0 u < digitBase ^ k) : u = k := by
  have hle := pow_le_seg hu htop
  have hlt := seg_lt a 0 u
  have hone : 1 < digitBase := by decide
  have h1 : u - 1 < k := (Nat.pow_lt_pow_iff_right hone).mp (hle.trans_lt hhigh)
  have h2 : k - 1 < u := (Nat.pow_lt_pow_iff_right hone).mp (hlow.trans_lt hlt)
  omega

lemma seg_top_bounds (hu : 0 < u) :
    digit a (u - 1) * digitBase ^ (u - 1) ≤ seg a 0 u ∧
      seg a 0 u < (digit a (u - 1) + 1) * digitBase ^ (u - 1) := by
  obtain ⟨m, rfl⟩ := Nat.exists_eq_add_of_lt hu
  have hlt := seg_lt a 0 m
  rw [zero_add, Nat.add_sub_cancel, seg_succ, zero_add, add_mul, one_mul]
  omega

lemma top_of_le {t : ℕ} (hu : 0 < u) (h : t * digitBase ^ (u - 1) ≤ seg a 0 u) :
    t ≤ digit a (u - 1) := by
  have hlt := h.trans_lt (seg_top_bounds hu).2
  have := Nat.lt_of_mul_lt_mul_right hlt
  omega

/-- How far a divisor with the given top digit is shifted. -/
def shiftOf (used top : ℕ) : ℕ := digitBits - top.size + if used % 2 = 1 then digitBits else 0

variable {b : Digits} {used : ℕ}

lemma shiftOf_bounds (hused : 0 < used) (htop : digit b (used - 1) ≠ 0) :
    2 ^ 31 * digitBase ^ (used + used % 2 - 1) ≤
        2 ^ shiftOf used (digit b (used - 1)) * seg b 0 used ∧
      2 ^ shiftOf used (digit b (used - 1)) * seg b 0 used < digitBase ^ (used + used % 2) := by
  obtain ⟨hle, hlt⟩ := seg_top_bounds (a := b) hused
  have hsize : (digit b (used - 1)).size ≤ 32 := size_le.mpr (digit_lt ..)
  have hpos : 0 < (digit b (used - 1)).size := Nat.size_pos.mpr (Nat.pos_of_ne_zero htop)
  have hlow : 2 ^ ((digit b (used - 1)).size - 1) ≤ digit b (used - 1) := lt_size.mp (by omega)
  have hhigh : digit b (used - 1) + 1 ≤ 2 ^ (digit b (used - 1)).size := lt_size_self _
  have hshift : 2 ^ shiftOf used (digit b (used - 1)) =
      2 ^ (32 - (digit b (used - 1)).size) * digitBase ^ (used % 2) := by
    rw [shiftOf, pow_add]
    rcases mod_two_eq_zero_or_one used with h | h
    · rw [h, if_neg (by omega), pow_zero, pow_zero]
    · rw [h, if_pos rfl, pow_one]
      rfl
  generalize digit b (used - 1) = top at *
  have hsplit : used + used % 2 - 1 = used % 2 + (used - 1) := by omega
  have hbase : 2 ^ (32 - top.size) * 2 ^ top.size = digitBase := by
    rw [← pow_add, Nat.sub_add_cancel hsize, digitBase]
  have hhalf : 2 ^ (32 - top.size) * 2 ^ (top.size - 1) = 2 ^ 31 := by
    rw [← pow_add, show 32 - top.size + (top.size - 1) = 31 by omega]
  rw [hshift]
  constructor
  · rw [hsplit, pow_add, ← hhalf]
    calc 2 ^ (32 - top.size) * 2 ^ (top.size - 1) *
        (digitBase ^ (used % 2) * digitBase ^ (used - 1))
        = 2 ^ (32 - top.size) * digitBase ^ (used % 2) *
            (2 ^ (top.size - 1) * digitBase ^ (used - 1)) := by ring
      _ ≤ 2 ^ (32 - top.size) * digitBase ^ (used % 2) * (top * digitBase ^ (used - 1)) := by gcongr
      _ ≤ 2 ^ (32 - top.size) * digitBase ^ (used % 2) * seg b 0 used := by gcongr
  · rw [show used + used % 2 = used % 2 + (used - 1) + 1 by omega, pow_succ, pow_add]
    nth_rewrite 4 [← hbase]
    calc 2 ^ (32 - top.size) * digitBase ^ (used % 2) * seg b 0 used
        < 2 ^ (32 - top.size) * digitBase ^ (used % 2) * ((top + 1) * digitBase ^ (used - 1)) := by
          apply Nat.mul_lt_mul_of_pos_left hlt
          exact Nat.mul_pos (Nat.two_pow_pos _) (Nat.pow_pos digitBase_pos)
      _ ≤ 2 ^ (32 - top.size) * digitBase ^ (used % 2) *
            (2 ^ top.size * digitBase ^ (used - 1)) := by gcongr
      _ = digitBase ^ (used % 2) * digitBase ^ (used - 1) *
            (2 ^ (32 - top.size) * 2 ^ top.size) := by ring

/-- What normalization achieves for a dividend `x` and a divisor `y`. -/
structure NormalizedBy (x y nsh : ℕ) (n : Normalized) : Prop where
  even : n.yUsed % 2 = 0
  two_le : 2 ≤ n.yUsed
  yBound : n.yUsed ≤ n.yDigits.length
  top : 2 ^ 31 ≤ digit n.yDigits (n.yUsed - 1)
  divisor : seg n.yDigits 0 n.yUsed = 2 ^ nsh * y
  trimmed : Trimmed n.resultDigits n.resultUsed
  dividend : seg n.resultDigits 0 n.resultUsed = 2 ^ nsh * x
  le : n.yUsed ≤ n.resultUsed
  /-- The explicit first step may append a digit and a leading zero. -/
  room : n.resultUsed + (n.resultUsed + 1) % 2 < n.resultDigits.length

/-- The shift of an operand into a new array with some extra digits. -/
lemma shift_spec (nsh : ℕ) {x : Digits} (hx : Trimmed x used) (hpos : 0 < used) :
    ∃ u r, lShiftDigits x used nsh (newDigits (used + ((nsh + digitBits - 1) / digitBits + 1))) =
        .ok (u, r) ∧ 0 < u ∧ Trimmed r u ∧ seg r 0 u = 2 ^ nsh * seg x 0 used ∧
      u + (u + 1) % 2 < r.length := by
  obtain ⟨u, r, hshift, hlen, hval, hu, htop, hle⟩ := lShiftDigits_spec (n := nsh)
    (newDigits (used + ((nsh + digitBits - 1) / digitBits + 1))) hpos hx.bound (hx.top hpos)
    (by rw [length_newDigits]; simp only [digitBits]; split <;> omega)
  rw [length_newDigits] at hlen
  have hroom : u + (u + 1) % 2 < r.length := by
    simp only [digitBits] at hlen
    split at hle <;> omega
  exact ⟨u, r, hshift, hu, ⟨by omega, fun _ => htop⟩, hval, hroom⟩

lemma normalizeOperands_spec {otherUsed : ℕ} (ha : Trimmed a used)
    (hb : Trimmed b otherUsed) (hpos : 0 < otherUsed) (hle : otherUsed ≤ used) :
    ∃ n, normalizeOperands a used b otherUsed (shiftOf otherUsed (digit b (otherUsed - 1))) =
      .ok n ∧
      NormalizedBy (seg a 0 used) (seg b 0 otherUsed)
        (shiftOf otherUsed (digit b (otherUsed - 1))) n := by
  obtain ⟨hlow, hhigh⟩ := shiftOf_bounds hpos (hb.top hpos)
  have hone : 1 < digitBase := by decide
  have hparity : otherUsed % 2 = 1 → 32 ≤ shiftOf otherUsed (digit b (otherUsed - 1)) := by
    intro hodd
    rw [shiftOf, if_pos hodd]
    exact Nat.le_add_left ..
  -- The dividend has at least as many digits as the divisor before the shift, and after it.
  have hdividend : digitBase ^ (otherUsed + otherUsed % 2 - 1) ≤
      2 ^ shiftOf otherUsed (digit b (otherUsed - 1)) * seg a 0 used := by
    have hA : digitBase ^ (otherUsed - 1) ≤ seg a 0 used :=
      (Nat.pow_le_pow_right digitBase_pos (by omega)).trans
        (pow_le_seg (by omega) (ha.top (by omega)))
    have hshift : digitBase ^ (otherUsed % 2) ≤
        2 ^ shiftOf otherUsed (digit b (otherUsed - 1)) := by
      rcases Nat.mod_two_eq_zero_or_one otherUsed with h | h
      · rw [h, pow_zero]
        exact Nat.two_pow_pos _
      · rw [h, pow_one, digitBase]
        exact Nat.pow_le_pow_right (by decide) (hparity h)
    rw [show otherUsed + otherUsed % 2 - 1 = otherUsed % 2 + (otherUsed - 1) by omega, pow_add]
    exact Nat.mul_le_mul hshift hA
  have hlow' : digitBase ^ (otherUsed + otherUsed % 2 - 1) ≤
      2 ^ shiftOf otherUsed (digit b (otherUsed - 1)) * seg b 0 otherUsed :=
    (Nat.le_mul_of_pos_left _ (by decide)).trans hlow
  generalize hnsh : shiftOf otherUsed (digit b (otherUsed - 1)) = nsh at *
  have hres : ∀ {r : Digits} {u : ℕ}, seg r 0 u = 2 ^ nsh * seg a 0 used →
      otherUsed + otherUsed % 2 ≤ u := by
    intro r u hr
    have hlt := seg_lt r 0 u
    rw [hr] at hlt
    have := (Nat.pow_lt_pow_iff_right hone).mp (hdividend.trans_lt hlt)
    omega
  rw [normalizeOperands]
  split_ifs with hzero
  · obtain ⟨yUsed, y, hy, hyPos, hyTrimmed, hyValue, -⟩ := shift_spec nsh hb hpos
    obtain ⟨rUsed, r, hr, hrPos, hrTrimmed, hrValue, hroom⟩ :=
      shift_spec nsh ha (by omega)
    have hyUsed : yUsed = otherUsed + otherUsed % 2 :=
      used_eq hyPos (hyTrimmed.top hyPos) (by rw [hyValue]; exact hlow')
        (by rw [hyValue]; exact hhigh)
    have hrUsed := hres hrValue
    refine ⟨⟨y, yUsed, r, rUsed⟩, ?_, by dsimp only; omega, by dsimp only; omega, hyTrimmed.bound,
      ?_, hyValue, hrTrimmed, hrValue, by dsimp only; omega, hroom⟩
    · dsimp only
      rw [hy, ok_bind]
      rw [hr, ok_bind]
    · apply top_of_le hyPos
      rw [hyValue, hyUsed]
      exact hlow
  · obtain rfl : nsh = 0 := by omega
    rw [pow_zero, one_mul] at *
    have heven : otherUsed % 2 = 0 := by omega
    rw [heven, add_zero] at hlow
    obtain ⟨r, hr, hlen, hcopied, -⟩ := cloneDigits_spec (used + 1) (zero_le used) ha.bound
      (by omega)
    have hval : seg r 0 used = seg a 0 used := segment_congr fun k hk => by
      rw [zero_add, hcopied k hk, zero_add]
    have htrimmed : Trimmed r used := by
      refine ⟨by omega, fun hused => ?_⟩
      rw [hcopied _ (by omega), zero_add]
      exact ha.top hused
    exact ⟨⟨b, otherUsed, r, used⟩, by rw [hr, ok_bind], heven, by dsimp only; omega, hb.bound,
      top_of_le hpos hlow, by simp, htrimmed, by simpa using hval, hle, by dsimp only; omega⟩

variable {nsh x y : ℕ} {n : Normalized}

section

variable (h : NormalizedBy x y nsh n)

include h

lemma NormalizedBy.half_le {i : ℕ} (hi : n.yUsed ≤ i) :
    digitBase ^ i ≤ 2 * (digitBase ^ (i - n.yUsed) * seg n.yDigits 0 n.yUsed) := by
  have htwo := h.two_le
  have hle := (seg_top_bounds (a := n.yDigits) (show 0 < n.yUsed by omega)).1
  calc digitBase ^ i
      = digitBase ^ (i - n.yUsed) * (2 * (2 ^ 31 * digitBase ^ (n.yUsed - 1))) := by
        rw [← mul_assoc 2, show 2 * 2 ^ 31 = digitBase from rfl, ← Nat.pow_succ', ← pow_add]
        congr 1
        omega
    _ ≤ digitBase ^ (i - n.yUsed) * (2 * (digit n.yDigits (n.yUsed - 1) *
          digitBase ^ (n.yUsed - 1))) := by
        have := h.top
        gcongr
    _ ≤ digitBase ^ (i - n.yUsed) * (2 * seg n.yDigits 0 n.yUsed) := by gcongr
    _ = 2 * (digitBase ^ (i - n.yUsed) * seg n.yDigits 0 n.yUsed) := by ring

variable {i : ℕ} (heq : i = n.resultUsed + n.resultUsed % 2)

include heq

/-- The invariant of the loop at its start. -/
lemma NormalizedBy.divided {rem quo : ℕ} {r tmp args : Digits}
    (hargs : DivisorDigits n.yDigits n.yUsed args) (htmp : tmp.length = i)
    (hlen : r.length = n.resultDigits.length) (hrem : seg r 0 i = rem)
    (hquo : seg r i (n.resultUsed + 1 - i) = quo)
    (hlt : rem < digitBase ^ (i - n.yUsed) * seg n.yDigits 0 n.yUsed)
    (hval : 2 ^ nsh * x = rem + digitBase ^ (i - n.yUsed) * seg n.yDigits 0 n.yUsed * quo) :
    Divided n.yDigits n.yUsed (n.resultUsed + 1) (2 ^ nsh * x) (i - n.yUsed) ⟨r, args, tmp⟩ := by
  have htwo := h.two_le
  have hle := h.le
  have hroom := h.room
  have hi : n.yUsed + (i - n.yUsed) = i := by omega
  refine ⟨hargs, by dsimp only; omega, by dsimp only; omega, by omega, by rw [hi, htmp]; omega, ?_,
    ?_⟩
  · rw [hi, mul_comm, hrem]
    exact hlt
  · rw [hi, hrem, hquo, hval]
    ring

lemma firstStep_spec {tmp args : Digits} (hargs : DivisorDigits n.yDigits n.yUsed args)
    (htmp : tmp.length = i) (htmpTop : digit tmp (i - 1) ≠ 0)
    (htmpValue : seg tmp 0 i = digitBase ^ (i - n.yUsed) * seg n.yDigits 0 n.yUsed) :
    ∃ r r', firstStep i i tmp n.resultDigits n.resultUsed = .ok (r, n.resultUsed + 1) ∧
      leadingZero r (n.resultUsed + 1) = .ok r' ∧
      Divided n.yDigits n.yUsed (n.resultUsed + 1) (2 ^ nsh * x) (i - n.yUsed)
        ⟨r', args, tmp⟩ := by
  have htwo := h.two_le
  have hle := h.le
  have hroom := h.room
  have hX := seg_lt n.resultDigits 0 n.resultUsed
  have hdividend := h.dividend
  have hhalf := h.half_le (i := i) (by omega)
  have hpow := pow_le_seg (by omega) htmpTop
  obtain ⟨order, horder, hneg, -⟩ := compareDigits_spec h.trimmed
    (show Trimmed tmp i from ⟨by omega, fun _ => htmpTop⟩)
  rw [← htmpValue] at hhalf
  rw [firstStep, horder, ok_bind]
  split
  · rename_i hge
    -- Otherwise the shifted divisor has one more digit than the dividend.
    obtain rfl : i = n.resultUsed := by
      by_contra hodd
      rw [show i - 1 = n.resultUsed by omega] at hpow
      omega
    obtain ⟨r1, hr1, hstored1⟩ := store_digit (a := n.resultDigits) (i := n.resultUsed) (v := 1)
      (by omega) (by decide)
    have hvalue1 : seg r1 0 (n.resultUsed + 1) =
        seg n.resultDigits 0 n.resultUsed + digitBase ^ n.resultUsed := by
      rw [seg_succ, zero_add, hstored1.here, one_mul, hstored1.seg_eq (.inr (by omega))]
    obtain ⟨r2, hr2, hlen2, hvalue2, -⟩ := absSub_spec (a := r1) (b := tmp)
      (show n.resultUsed + 1 ≤ r1.length by rw [hstored1.length]; omega)
      (show n.resultUsed ≤ tmp.length by omega) (by omega) (by omega)
      (show n.resultUsed + 1 ≤ r1.length by rw [hstored1.length]; omega) (by omega)
    obtain ⟨r3, hr3, hstored3⟩ := store_digit (a := r2) (i := n.resultUsed + 1) (v := 0)
      (by rw [hlen2, hstored1.length]; omega) (by decide)
    have hsplit : seg r3 0 (n.resultUsed + 1) =
        seg n.resultDigits 0 n.resultUsed - seg tmp 0 n.resultUsed + digitBase ^ n.resultUsed *
          1 := by
      rw [hstored3.seg_eq (.inr (by omega)), hvalue2, hvalue1]
      omega
    obtain ⟨hrem, hquo⟩ := seg_unique hsplit (by omega)
    rw [zero_add] at hquo
    refine ⟨r2, r3, ?_, by rw [leadingZero, if_pos (by omega), ← hr3, cast_zero],
      h.divided heq hargs htmp (by rw [hstored3.length, hlen2, hstored1.length]) hrem
        (by rw [Nat.add_sub_cancel_left, hquo]) ?_ ?_⟩
    · rw [check_of (by simp), ok_bind]
      rw [cast_one] at hr1
      rw [hr1, ok_bind, hr2, ok_bind]
    · omega
    · rw [← htmpValue, ← hdividend]
      omega
  · rename_i hlt
    obtain ⟨r1, hr1, hstored1⟩ := store_digit (a := n.resultDigits) (i := n.resultUsed) (v := 0)
      (by omega) (by decide)
    rw [cast_zero] at hr1
    have hfirst : (do
        let resultDigits ← store n.resultDigits n.resultUsed 0
        Except.ok (resultDigits, n.resultUsed + 1)) = Except.ok (r1, n.resultUsed + 1) := by
      rw [hr1, ok_bind]
    by_cases hodd : n.resultUsed % 2 = 1
    · obtain rfl : i = n.resultUsed + 1 := by omega
      refine ⟨r1, r1, hfirst, if_neg (by omega), h.divided heq hargs htmp hstored1.length rfl
        (by rw [Nat.sub_self, seg_zero]) ?_ ?_⟩
      all_goals
        rw [seg_succ, zero_add, hstored1.here, zero_mul, add_zero,
          hstored1.seg_eq (.inr (by omega))]
        omega
    · obtain rfl : i = n.resultUsed := by omega
      obtain ⟨r2, hr2, hstored2⟩ := store_digit (a := r1) (i := n.resultUsed + 1) (v := 0)
        (by rw [hstored1.length]; omega) (by decide)
      refine ⟨r1, r2, hfirst, by rw [leadingZero, if_pos (by omega), ← hr2, cast_zero],
        h.divided heq hargs htmp (by rw [hstored2.length, hstored1.length])
          (by rw [hstored2.seg_eq (.inr (by omega)), hstored1.seg_eq (.inr (by omega))])
          (by rw [Nat.add_sub_cancel_left, seg_one, hstored2.other _ (by omega), hstored1.here])
          ?_ ?_⟩
      · rw [← htmpValue]
        omega
      · rw [← hdividend, mul_zero, add_zero]

end

lemma negated_spec {y : Digits} {n : ℕ} (hy : n ≤ y.length) (hpos : 0 < n) (hval : 0 < seg y 0 n) :
    ∃ ny1 ny, store (newDigits (n + 2)) n 1 = .ok ny1 ∧ absSub ny1 (n + 1) y n ny1 = .ok ny ∧
      n ≤ ny.length ∧ seg ny 0 n = digitBase ^ n - seg y 0 n := by
  have hlt := seg_lt y 0 n
  obtain ⟨ny1, hny1, hstored⟩ := store_digit (a := newDigits (n + 2)) (i := n) (v := 1)
    (by rw [length_newDigits]; omega) (by decide)
  have hlen : ny1.length = n + 2 + (n + 2) % 2 := by rw [hstored.length, length_newDigits]
  have hone : seg ny1 0 (n + 1) = digitBase ^ n := by
    rw [seg_succ, zero_add, hstored.here, one_mul, hstored.seg_eq (.inr (by omega))]
    have hzero : seg (newDigits (n + 2)) 0 n = 0 :=
      segment_eq_zero fun k _ => digit_newDigits ..
    omega
  obtain ⟨ny, hny, hlen', hdiff, -⟩ := absSub_spec (a := ny1) (b := y)
    (show n + 1 ≤ ny1.length by omega) hy (by omega) hpos
    (show n + 1 ≤ ny1.length by omega) (by omega)
  refine ⟨ny1, ny, by rw [← hny1, cast_one], hny, by omega, ?_⟩
  have hsplit : seg ny 0 (n + 1) = (digitBase ^ n - seg y 0 n) + digitBase ^ n * 0 := by
    rw [hdiff, hone, mul_zero, add_zero]
  exact (seg_unique hsplit (by omega)).1

lemma divRemDigits_spec (mode : Mode) {otherUsed : ℕ} (ha : Trimmed a used)
    (hb : Trimmed b otherUsed) (hpos : 0 < otherUsed) (hle : otherUsed ≤ used) :
    ∃ qr, divRemDigits mode a used b otherUsed = .ok qr ∧ qr.used ≤ qr.digits.length ∧
      qr.remUsed < qr.used ∧ qr.nsh = shiftOf otherUsed (digit b (otherUsed - 1)) ∧
      seg qr.digits 0 qr.remUsed = 2 ^ qr.nsh * (seg a 0 used % seg b 0 otherUsed) ∧
      seg qr.digits qr.remUsed (qr.used - qr.remUsed) = seg a 0 used / seg b 0 otherUsed := by
  obtain ⟨n, hn, h⟩ := normalizeOperands_spec ha hb hpos hle
  have htwo := h.two_le
  have heven := h.even
  have hleUsed := h.le
  have htop := h.top
  obtain ⟨args1, hargs1, hstored1⟩ := store_digit (a := newDigits 4) (i := divisorLowTopDigit)
    (by decide) (digit_lt n.yDigits (n.yUsed - 2))
  obtain ⟨args2, hargs2, hstored2⟩ := store_digit (a := args1) (i := divisorTopDigit)
    (by rw [hstored1.length]; decide) (digit_lt n.yDigits (n.yUsed - 1))
  have hargs : DivisorDigits n.yDigits n.yUsed args2 :=
    ⟨by rw [hstored2.length, hstored1.length, length_newDigits],
      by rw [hstored2.other _ (by decide), hstored1.here], hstored2.here⟩
  obtain ⟨i, heq⟩ : ∃ i, i = n.resultUsed + n.resultUsed % 2 := ⟨_, rfl⟩
  have hi : n.yUsed + (i - n.yUsed) = i := by omega
  obtain ⟨tmp, htmp, htmpLen, htmpValue, htmpTop⟩ := dlShiftDigits_spec (newDigits i)
    (n := i - n.yUsed) (show 0 < n.yUsed by omega) h.yBound (by rw [hi, length_newDigits])
  rw [hi] at htmp htmpValue htmpTop
  rw [length_newDigits] at htmpLen
  obtain ⟨r, r', hfirst, hodd, hdivided⟩ := firstStep_spec h heq hargs (by omega)
    (by rw [htmpTop]; omega) htmpValue
  have hYpos : 0 < seg n.yDigits 0 n.yUsed :=
    lt_of_lt_of_le (Nat.pow_pos digitBase_pos) (pow_le_seg (by omega) (by omega))
  obtain ⟨ny1, ny, hny1, hny, hnyBound, hnyValue⟩ := negated_spec h.yBound (by omega) hYpos
  have hdivisor : Divisor n.yDigits ny n.yUsed := ⟨heven, htwo, htop, hnyBound, hnyValue⟩
  obtain ⟨k, hk⟩ : ∃ k, i - n.yUsed = k * mode.width := by
    cases mode with
    | digit => exact ⟨_, (mul_one _).symm⟩
    | pair => exact ⟨(i - n.yUsed) / 2, by simp only [Mode.width]; omega⟩
  have hfuel : k < i - n.yUsed + 1 := by
    have := Nat.le_mul_of_pos_right k mode.width_pos
    omega
  obtain ⟨s, hs, hdone⟩ := divisionLoop_spec mode hdivisor hk hfuel hdivided
  have hval := hdone.value
  have hremainder := hdone.remainder
  rw [add_zero, pow_zero, mul_one, h.divisor] at hval hremainder
  obtain ⟨hquo, hrem⟩ :=
    (Nat.div_mod_unique (Nat.zero_lt_of_lt hremainder)).mpr ⟨hval.symm, hremainder⟩
  rw [Nat.mul_div_mul_left _ _ (Nat.two_pow_pos _)] at hquo
  rw [Nat.mul_mod_mul_left] at hrem
  refine ⟨⟨s.result, n.resultUsed + 1, n.yUsed, shiftOf otherUsed (digit b (otherUsed - 1))⟩, ?_,
    hdone.used_le, by dsimp only; omega, rfl, hrem.symm, hquo.symm⟩
  rw [divRemDigits, check_of (by simpa using hle), ok_bind, minus_eq (by omega), ok_bind,
    load_eq (by have := hb.bound; omega), ok_bind]
  change (do
    let n ← normalizeOperands a used b otherUsed (shiftOf otherUsed (digit b (otherUsed - 1)))
    _ : Result QuoRem) = _
  rw [hn, ok_bind, minus_eq htwo, ok_bind, load_eq (by have := h.yBound; omega), ok_bind,
    load_eq (by have := h.yBound; omega), ok_bind, hargs1, ok_bind, hargs2, ok_bind,
    check_of (by simpa using heven), ok_bind]
  dsimp only
  rw [← heq, minus_eq (by omega), ok_bind, htmp, ok_bind, hfirst, ok_bind]
  rw [hodd, ok_bind, hny1, ok_bind, hny, ok_bind, minus_eq (by omega), ok_bind]
  rw [hi] at hs
  rw [hs, ok_bind]
  rfl

end DartSdk.BigInts
