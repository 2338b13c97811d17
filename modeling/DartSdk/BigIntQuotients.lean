import DartSdk.BigIntSums
import DartSdk.Words

/-!
The operators of big integers, and programs over them. The right shift rounds down. The cache of
the last division holds the quotient and the remainder of the absolute values, so it serves operands
of any signs that refer to the same arrays. A number with an odd number of digits has a zero above
them, so that its last pair is correct. The bitwise operators are those of two's complement numbers
of unbounded width. A program is a list of operations on the results of earlier ones.
-/

namespace DartSdk.BigInts

open Checked Executions Numerals Nat Returns Yields

section

section

variable {w : World} {a : BigIntImpl} {x : ℤ} {d : Digits}

lemma signed_mul (isNegative : Bool) (m n : ℕ) :
    signed isNegative (m * n) = signed isNegative n * m := by
  cases isNegative <;> simp [signed, mul_comm]

lemma dlShift_spec (hw : Consistent w) (ha : Denotes w a x) (n : ℕ) :
    Yields (dlShift a n) w (x * (digitBase ^ n : ℕ)) := by
  have hx := ha.used_eq_zero_iff
  rw [dlShift]
  split_ifs with hzero
  · rw [hx.mp hzero, zero_mul]
    exact Yields.pure hw (zero_denotes hw)
  · obtain ⟨d, hd, rfl⟩ := ha
    have hbound := hd.normal.trimmed.bound
    obtain ⟨r, hr, hlen, hhigh, hlow⟩ := forDown_spec (fun i result => do
        let v ← load d i
        store result (i + n) v)
      (fun i r => r.length = (newDigits (a.used + n)).length ∧
        (∀ k, i ≤ k → k < a.used → digit r (n + k) = digit d k) ∧
        ∀ k, k < n + i ∨ n + a.used ≤ k → digit r k = 0)
      a.used (s := newDigits (a.used + n))
      ⟨rfl, by omega, fun _ _ => digit_newDigits ..⟩ (by
        rintro i hi r ⟨hlen, hhigh, hlow⟩
        rw [length_newDigits] at hlen
        obtain ⟨r', hr', hstored⟩ := store_digit (a := r) (i := i + n) (by omega) (digit_lt d i)
        refine ⟨r', by rw [load_eq (by omega), ok_bind, hr'],
          by rw [hstored.length, hlen, length_newDigits], fun k hk hk' => ?_, fun k hk => ?_⟩
        · by_cases heq : k = i
          · rw [heq, add_comm, hstored.here]
          · rw [hstored.other _ (by omega), hhigh k (by omega) hk']
        · rw [hstored.other _ (by omega), hlow k (by omega)])
    rw [length_newDigits] at hlen
    have hval : seg r 0 (a.used + n) = digitBase ^ n * seg d 0 a.used := by
      rw [add_comm]
      refine segment_shifted (fun k hk => hlow _ (by omega)) fun k hk => ?_
      rw [zero_add, zero_add, hhigh k (by omega) hk]
    rw [← signed_mul, ← hval]
    exact Returns.readDigits hd.digits (Returns.digitwise hr
      (create_spec hw (by omega) (by omega) fun _ => hlow _ (by omega)))

lemma shiftLeft_spec (hw : Consistent w) (ha : Denotes w a x) (n : ℕ) :
    Yields (shiftLeft a n) w (x * (2 ^ n : ℕ)) := by
  have hx := ha.used_eq_zero_iff
  rw [shiftLeft, if_neg (by omega)]
  split
  · rename_i hzero
    rw [hx.mp hzero, zero_mul]
    exact Yields.pure hw (hx.mp hzero ▸ ha)
  · rename_i hused
    dsimp only
    split_ifs with hbits
    · have hpow : 2 ^ n = digitBase ^ (n / digitBits) := by
        have h := two_pow_eq n
        rwa [show n % 32 = 0 from hbits, pow_zero, mul_one] at h
      rw [hpow]
      exact dlShift_spec hw ha _
    · obtain ⟨d, hd, rfl⟩ := ha
      have hlen : (newDigits (a.used + n / 32 + 1 + 1)).length =
          a.used + n / 32 + 1 + 1 + (a.used + n / 32 + 1 + 1) % 2 := length_newDigits _
      obtain ⟨r, hr, hrlen, hval, hrest⟩ := lsh_spec (n := n) (pos_of_ne_zero hused)
        hd.normal.trimmed.bound
        (show a.used + n / 32 < (newDigits (a.used + n / 32 + 1 + 1)).length by omega)
      have hscaled : seg r 0 (a.used + n / 32 + 1) = 2 ^ n * seg d 0 a.used := by
        rw [show a.used + n / 32 + 1 = n / 32 + (a.used + 1) by omega, seg_add, zero_add,
          hval, two_pow_eq n, mul_assoc, add_eq_right]
        refine segment_eq_zero fun k hk => ?_
        rw [hrest _ (by omega), digit_newDigits]
      rw [← signed_mul, ← hscaled]
      refine Returns.readDigits hd.digits (Returns.digitwise hr
        (@create_spec _ _ hw _ (a.used + n / 32 + 1) (by omega) (by omega) fun _ => ?_))
      rw [hrest _ (by omega), digit_newDigits]

lemma someNonZero_spec {n : ℕ} (h : n ≤ d.length) :
    someNonZero d n = .ok (decide (seg d 0 n ≠ 0)) := by
  induction n with
  | zero => rfl
  | succ n ih =>
    rw [someNonZero, ih (by omega), ok_bind, seg_succ, zero_add]
    by_cases hzero : seg d 0 n = 0
    · rw [hzero, if_neg (by decide), load_eq (by omega), ok_bind]
      simp [digitBase_pos.ne']
    · rw [decide_eq_true hzero, if_pos rfl, decide_eq_true (by omega)]

/-- Division that rounds down, from the division of the absolute value. -/
lemma signed_div (isNegative : Bool) (m : ℕ) {n : ℕ} (hn : 0 < n) :
    signed isNegative m / (n : ℤ) =
      signed isNegative (m / n) - if isNegative = true ∧ m % n ≠ 0 then 1 else 0 := by
  have hdiv := div_add_mod m n
  have hmod := mod_lt m hn
  cases isNegative with
  | false => simp [signed]
  | true =>
    simp only [signed, if_true, true_and]
    have hsum : (m : ℤ) = n * (m / n : ℕ) + (m % n : ℕ) := by exact_mod_cast hdiv.symm
    by_cases hzero : m % n = 0
    · rw [if_neg (by omega), hsum, hzero, cast_zero, add_zero, sub_zero, ← mul_neg,
        Int.mul_ediv_cancel_left _ (by omega)]
    · rw [if_pos hzero]
      refine ((Int.ediv_emod_unique (r := (n : ℤ) - (m % n : ℕ)) (by omega)).mpr
        ⟨?_, by omega, by omega⟩).1
      rw [hsum]
      ring

/-- What is left of a number all of whose digits are dropped. -/
lemma signed_div_of_lt (isNegative : Bool) {m n : ℕ} (h : m < n) (hm : m ≠ 0) :
    signed isNegative m / (n : ℤ) = if isNegative then -1 else 0 := by
  rw [signed_div _ _ (by omega), div_eq_of_lt h, mod_eq_of_lt h, signed_zero]
  cases isNegative <;> simp [hm]

lemma dropped_denotes (hw : Consistent w) (hd : Object w a d) (hused : a.used ≠ 0) {n : ℕ}
    (hlt : seg d 0 a.used < n) :
    Yields (pure (if a.isNegative then minusOne else zero)) w
      (signed a.isNegative (seg d 0 a.used) / n) := by
  rw [signed_div_of_lt _ hlt (hd.used_eq_zero_iff.not.mp hused)]
  refine pure hw ?_
  split
  · exact minusOne_denotes hw
  · exact zero_denotes hw

/-- The last step of a right shift. -/
lemma round_spec (hw : Consistent w) {isNegative dropped : Bool} {m n : ℕ} (hn : 0 < n)
    (hdropped : dropped = decide (m % n ≠ 0)) {r : BigIntImpl}
    (hr : Denotes w r (signed isNegative (m / n))) (hneg : isNegative = true) :
    Yields (if dropped then minusOp r one else pure r) w (signed isNegative m / (n : ℤ)) := by
  rw [signed_div _ _ hn]
  subst hdropped hneg
  by_cases hzero : m % n = 0
  · rw [if_neg (by simpa using hzero), if_neg (by simpa using hzero), sub_zero]
    exact pure hw hr
  · rw [if_pos (by simpa using hzero), if_pos (by simpa using hzero)]
    exact minusOp_spec hw hr (one_denotes hw)

lemma Yields.bind {m : Exec BigIntImpl} {f : BigIntImpl → Exec BigIntImpl} {y : ℤ}
    (h : Yields m w y) (hf : ∀ a w', Grows w w' → Denotes w' a y → Yields (f a) w' x) :
    Yields (m >>= f) w x := by
  refine Returns.bind h ?_
  rintro a w' ⟨hgrows, ha⟩
  refine (hf a w' hgrows ha).mono ?_
  rintro b w'' ⟨hgrows', hb⟩
  exact ⟨hgrows.trans hgrows', hb⟩

lemma seg_mod (d : Digits) {m n : ℕ} (h : m ≤ n) : seg d 0 n % digitBase ^ m = seg d 0 m := by
  obtain ⟨k, rfl⟩ := Nat.exists_eq_add_of_le h
  rw [seg_add, Nat.add_mul_mod_self_left, Nat.mod_eq_of_lt (seg_lt ..)]

lemma seg_div (d : Digits) {m n : ℕ} (h : m ≤ n) :
    seg d 0 n / digitBase ^ m = seg d m (n - m) := by
  obtain ⟨k, rfl⟩ := Nat.exists_eq_add_of_le h
  rw [Nat.add_sub_cancel_left]
  have hdiv := segment_div (b := digitBase) (f := digit d) (s := 0) (m := m) (n := k)
    fun _ _ => digit_lt ..
  rwa [zero_add] at hdiv

lemma drShift_spec (hw : Consistent w) (ha : Denotes w a x) (n : ℕ) :
    Yields (drShift a n) w (x / (digitBase ^ n : ℕ)) := by
  have hx := ha.used_eq_zero_iff
  have hpos := Nat.pow_pos (n := n) digitBase_pos
  rw [drShift]
  split
  · rename_i hzero
    rw [hx.mp hzero, Int.zero_ediv]
    exact Yields.pure hw (zero_denotes hw)
  rename_i hused
  obtain ⟨d, hd, rfl⟩ := ha
  split
  · rename_i hle
    exact dropped_denotes hw hd hused
      (lt_of_lt_of_le (seg_lt ..) (Nat.pow_le_pow_right digitBase_pos hle))
  have hbound := hd.normal.trimmed.bound
  obtain ⟨r, hr, hlen, hcopied, hrest⟩ := forUp_spec (fun i result => do
      let v ← load d (n + i)
      store result i v)
    (fun i r => r.length = (newDigits (a.used - n)).length ∧
      (∀ k < i, digit r k = digit d (n + k)) ∧ ∀ k, i ≤ k → digit r k = 0)
    (a.used - n) (s := newDigits (a.used - n))
    ⟨rfl, by omega, fun _ _ => digit_newDigits ..⟩ (by
      rintro i hi r ⟨hlen, hcopied, hrest⟩
      rw [length_newDigits] at hlen
      obtain ⟨r', hr', hstored⟩ := store_digit (a := r) (i := i) (by omega) (digit_lt d (n + i))
      refine ⟨r', by rw [load_eq (by omega), ok_bind, hr'],
        by rw [hstored.length, hlen, length_newDigits],
        fun k hk => ?_, fun k hk => by rw [hstored.other _ (by omega), hrest k (by omega)]⟩
      by_cases heq : k = i
      · rw [heq, hstored.here]
      · rw [hstored.other _ heq, hcopied k (by omega)])
  rw [length_newDigits] at hlen
  have hval : seg r 0 (a.used - n) = seg d 0 a.used / digitBase ^ n := by
    rw [seg_div d (by omega)]
    refine segment_congr fun k hk => ?_
    rw [zero_add, hcopied k hk]
  refine Returns.readDigits hd.digits (Returns.digitwise hr (Yields.bind
    (create_spec hw (by omega) (by omega) fun _ => hrest _ le_rfl) ?_))
  intro b w' hgrows hb
  rw [hval] at hb
  split_ifs with hneg
  · refine Returns.digitwise (someNonZero_spec (by omega))
      (round_spec hgrows.consistent hpos ?_ hb hneg)
    rw [seg_mod d (by omega)]
  · convert Yields.pure hgrows.consistent hb using 1
    rw [signed_div _ _ hpos, if_neg (by simp [hneg]), sub_zero]

lemma dropped_iff (d : Digits) {used n : ℕ} (h : n / 32 < used) :
    seg d 0 used % 2 ^ n = 0 ↔ digit d (n / 32) % 2 ^ (n % 32) = 0 ∧ seg d 0 (n / 32) = 0 := by
  obtain ⟨k, rfl⟩ := Nat.exists_eq_add_of_lt h
  have hlow := seg_lt d 0 (n / 32)
  have hbase := digitBase_eq_mul (show n % 32 ≤ 32 by omega)
  rw [two_pow_eq, show n / 32 + k + 1 = n / 32 + (k + 1) by omega, seg_add, zero_add,
    Nat.mod_mul, add_mul_mod_self_left, mod_eq_of_lt hlow, add_mul_div_left _ _ (by omega),
    Nat.div_eq_of_lt hlow, zero_add, seg_cons, hbase, mul_assoc, Nat.add_mul_mod_self_left]
  have hpos : 0 < (2 ^ (n % 32) * 2 ^ (32 - n % 32)) ^ (n / 32) := by positivity
  rw [Nat.add_eq_zero_iff, Nat.mul_eq_zero]
  constructor
  · rintro ⟨h, h'⟩
    exact ⟨by omega, h⟩
  · rintro ⟨h, h'⟩
    exact ⟨h', .inr h⟩

lemma shiftRight_spec (hw : Consistent w) (ha : Denotes w a x) (n : ℕ) :
    Yields (shiftRight a n) w (x / (2 ^ n : ℕ)) := by
  have hx := ha.used_eq_zero_iff
  rw [shiftRight, if_neg (by omega)]
  split
  · rename_i hzero
    rw [hx.mp hzero, Int.zero_ediv]
    exact Yields.pure hw (hx.mp hzero ▸ ha)
  rename_i hused
  rw [Int.toNat_natCast]
  dsimp only
  split
  · rename_i hbits
    have hpow : 2 ^ n = digitBase ^ (n / digitBits) := by
      have h := two_pow_eq n
      rwa [show n % 32 = 0 from hbits, pow_zero, mul_one] at h
    rw [hpow]
    exact drShift_spec hw ha _
  obtain ⟨d, hd, rfl⟩ := ha
  split
  · rename_i hle
    refine dropped_denotes hw hd hused (lt_of_lt_of_le (seg_lt ..) ?_)
    rw [digitBase, ← Nat.pow_mul]
    refine Nat.pow_le_pow_right (by omega) ?_
    have hle' : a.used ≤ n / 32 := hle
    omega
  rename_i hlt
  have hlt' : n / 32 < a.used := by
    change ¬a.used ≤ n / 32 at hlt
    omega
  have hbound := hd.normal.trimmed.bound
  obtain ⟨r, hr, hlen, hval, hrest⟩ := rsh_spec (n := n) hlt' hbound
    (show a.used - n / 32 ≤ (newDigits (a.used - n / 32)).length by rw [length_newDigits]; omega)
  rw [length_newDigits] at hlen
  refine Returns.readDigits hd.digits (Returns.digitwise hr (Yields.bind
    (@create_spec _ _ hw _ (a.used - n / 32) (by omega) (by omega) fun _ => ?_) ?_))
  · rw [hrest _ le_rfl, digit_newDigits]
  intro b w' hgrows hb
  rw [hval] at hb
  have hpos := Nat.two_pow_pos n
  split_ifs with hneg
  · have hmask : ∀ v : ℕ, v &&& (1 <<< (n % 32) - 1) = v % 2 ^ (n % 32) := by
      intro v
      rw [one_shiftLeft, and_two_pow_sub_one_eq_mod]
    refine Returns.digitwise (load_eq (i := n / 32) (by omega)) ?_
    have hdropped := dropped_iff d hlt'
    split_ifs with h
    · have hround := @round_spec _ hgrows.consistent _ true _ _ hpos ?_ _ hb hneg
      · exact hround
      · rw [hmask] at h
        simp [hdropped, h]
    · refine Returns.digitwise (someNonZero_spec (n := n / 32) (by omega))
        (round_spec hgrows.consistent hpos ?_ hb hneg)
      rw [hmask, not_not] at h
      simp [hdropped, h]
  · convert Yields.pure hgrows.consistent hb using 1
    rw [signed_div _ _ hpos, if_neg (by simp [hneg]), sub_zero]

end

variable {w : World} {a b : BigIntImpl} {x y : ℤ} {mode : Mode}

section

variable (hw : Consistent w) (ha : Denotes w a x) (hb : Denotes w b y)

include hw ha hb

lemma divRemCompute_spec (hpos : 0 < b.used) (hle : b.used ≤ a.used) :
    Returns (divRem.divRemCompute mode a b) w fun qr w' =>
      Grows w w' ∧ Divides x.natAbs y.natAbs qr := by
  obtain ⟨d, hd, rfl⟩ := ha
  obtain ⟨e, he, rfl⟩ := hb
  obtain ⟨qr, hqr, hbound, hused, -, hrem, hquo⟩ := divRemDigits_spec mode hd.normal.trimmed
    he.normal.trimmed hpos hle
  have hdvd : Divides (seg d 0 a.used) (seg e 0 b.used) qr := ⟨hbound, hused, hrem, hquo⟩
  rw [natAbs_signed, natAbs_signed]
  refine Returns.readDigits hd.digits (Returns.readDigits he.digits (Returns.digitwise hqr
    ⟨_, _, rfl, ⟨List.prefix_refl _, hw.zero, hw.one, hw.oneBillion, ?_⟩, hdvd⟩))
  rintro c hc
  cases hc
  exact ⟨d, e, hd.digits, he.digits, hdvd⟩

lemma divRem_spec (hpos : 0 < b.used) (hle : b.used ≤ a.used) :
    Returns (divRem mode a b) w fun qr w' => Grows w w' ∧ Divides x.natAbs y.natAbs qr := by
  have hcompute := @divRemCompute_spec _ _ _ _ _ mode hw ha hb hpos hle
  refine (get (P := fun w' w'' => w' = w ∧ w'' = w) ⟨rfl, rfl⟩).bind ?_
  rintro _ _ ⟨rfl, rfl⟩
  rename_i w
  cases hcache : w.cache with
  | none => exact hcompute
  | some c =>
    dsimp only
    split
    · rename_i hsame
      obtain ⟨hused, hotherUsed, hdigs, hotherDigits⟩ := hsame
      obtain ⟨d', e', hd', he', hdvd⟩ := hw.cache c hcache
      obtain ⟨d, hd, rfl⟩ := ha
      obtain ⟨e, he, rfl⟩ := hb
      -- the arrays of the operands are those of the cache, whatever the signs
      rw [← hdigs, hd.digits] at hd'
      rw [← hotherDigits, he.digits] at he'
      cases hd'
      cases he'
      rw [natAbs_signed, natAbs_signed, hused, hotherUsed]
      exact pure ⟨.refl hw, hdvd⟩
    · exact hcompute

omit hw ha hb in
lemma natAbs_lt_of_used_lt (ha : Denotes w a x) (hb : Denotes w b y) (h : a.used < b.used) :
    x.natAbs < y.natAbs := by
  obtain ⟨d, hd, rfl⟩ := ha
  obtain ⟨e, he, rfl⟩ := hb
  rw [natAbs_signed, natAbs_signed]
  exact he.normal.trimmed.seg_lt_of_used_lt h

omit hw ha hb in
lemma cloneDigits_create_spec (hw : Consistent w) {d : Digits} {lo hi : ℕ} (hlo : lo ≤ hi)
    (hhi : hi ≤ d.length) {f : BigIntImpl → Exec BigIntImpl}
    (hf : ∀ a w', Grows w w' → Denotes w' a (seg d lo (hi - lo)) → Yields (f a) w' x) :
    Yields (do
      let digits ← digitwise (cloneDigits d lo hi (hi - lo))
      let a ← create false (hi - lo) digits
      f a) w x := by
  obtain ⟨r, hr, hlen, hcopied, hrest⟩ := cloneDigits_spec (hi - lo) hlo hhi (by omega)
  have hval : seg r 0 (hi - lo) = seg d lo (hi - lo) := by
    refine segment_congr fun k hk => ?_
    rw [zero_add, hcopied k hk]
  refine Returns.digitwise hr (Yields.bind
    (create_spec hw (by omega) (by omega) fun _ => hrest _ le_rfl) fun a w' hgrows ha => ?_)
  rw [hval] at ha
  exact hf a w' hgrows ha

omit hw ha hb in
/-- The last step of a division: the sign of the result. -/
lemma negate_if_spec (hw : Consistent w) {n : ℕ} (ha : Denotes w a n) {c : Prop} [Decidable c] :
    Yields (if c ∧ 0 < a.used then negate a else pure a) w (signed (decide c) n) := by
  have hx := ha.used_eq_zero_iff
  by_cases hc : c
  · rw [decide_eq_true hc]
    by_cases hused : a.used = 0
    · rw [if_neg (by omega), cast_eq_zero.mp (hx.mp hused), signed_zero]
      exact Yields.pure hw (hx.mp hused ▸ ha)
    · rw [if_pos ⟨hc, pos_of_ne_zero hused⟩, show signed true n = -(n : ℤ) from rfl]
      exact negate_spec hw ha
  · rw [if_neg (by tauto), decide_eq_false hc]
    exact Yields.pure hw ha

omit hw ha hb in
lemma signed_tdiv (s t : Bool) (m n : ℕ) :
    (signed s m).tdiv (signed t n) = signed (decide (s ≠ t)) (m / n) := by
  cases s <;> cases t <;> simp [signed, Int.neg_tdiv, Int.tdiv_neg]

omit hw ha hb in
lemma signed_tmod (s t : Bool) (m n : ℕ) : (signed s m).tmod (signed t n) = signed s (m % n) := by
  have h : (m : ℤ).tmod n = (m % n : ℕ) := (Int.ofNat_tmod m n).symm
  cases s <;> cases t <;> simp [signed, Int.neg_tmod, Int.tmod_neg, h]

lemma div_spec (hy : y ≠ 0) : Yields (div mode a b) w (x.tdiv y) := by
  have hpos : 0 < b.used := pos_of_ne_zero (hb.used_eq_zero_iff.not.mpr hy)
  refine Returns.digitwise (check_of (by simpa using hpos)) ?_
  split
  · rename_i hlt
    have hlt' := natAbs_lt_of_used_lt ha hb hlt
    rw [← ha.signed_eq, ← hb.signed_eq, signed_tdiv, div_eq_of_lt hlt', signed_zero]
    exact Yields.pure hw (zero_denotes hw)
  · rename_i hle
    refine Returns.bind (divRem_spec hw ha hb hpos (by omega)) ?_
    rintro qr w' ⟨hgrows, hdvd⟩
    have hyields := cloneDigits_create_spec (x := x.tdiv y) hgrows.consistent hdvd.remUsed.le
      hdvd.bound (f := fun quo =>
        if a.isNegative ≠ b.isNegative ∧ 0 < quo.used then negate quo else pure quo) ?_
    · exact hyields.mono fun _ _ h => ⟨hgrows.trans h.1, h.2⟩
    · intro quo w'' hgrows' hquo
      rw [hdvd.quotient] at hquo
      rw [← ha.signed_eq, ← hb.signed_eq, signed_tdiv]
      exact negate_if_spec hgrows'.consistent hquo

omit hw ha hb in
lemma denormalize_spec (hw : Consistent w) {n nsh : ℕ} (ha : Denotes w a (2 ^ nsh * n : ℕ)) :
    Yields (rem.denormalize a nsh) w n := by
  rw [rem.denormalize]
  split
  · have hshift := shiftRight_spec hw ha nsh
    rwa [← Int.natCast_div, Nat.mul_div_cancel_left _ (Nat.two_pow_pos _)] at hshift
  · rename_i hzero
    obtain rfl : nsh = 0 := by omega
    rw [pow_zero, one_mul] at ha
    exact pure hw ha

lemma rem_spec (hy : y ≠ 0) : Yields (rem mode a b) w (x.tmod y) := by
  have hpos : 0 < b.used := Nat.pos_of_ne_zero (hb.used_eq_zero_iff.not.mpr hy)
  refine Returns.digitwise (check_of (by simpa using hpos)) ?_
  split
  · rename_i hlt
    have hlt' := natAbs_lt_of_used_lt ha hb hlt
    have hmod : x.tmod y = x := by
      rw [← ha.signed_eq, ← hb.signed_eq, signed_tmod, mod_eq_of_lt hlt']
    rw [hmod]
    exact Yields.pure hw ha
  · rename_i hle
    refine Returns.bind (divRem_spec hw ha hb hpos (by omega)) ?_
    rintro qr w' ⟨hgrows, hdvd⟩
    have hbound := hdvd.bound
    have hused := hdvd.remUsed
    have hyields := @cloneDigits_create_spec _ (x.tmod y) hgrows.consistent qr.digits 0 qr.remUsed
      (zero_le _) (by omega) (fun r => do
        let r ← rem.denormalize r qr.nsh
        if a.isNegative ∧ 0 < r.used then negate r else pure r) ?_
    · exact hyields.mono fun _ _ h => ⟨hgrows.trans h.1, h.2⟩
    · intro r w'' hgrows' hr
      rw [Nat.sub_zero, hdvd.remainder] at hr
      refine Yields.bind (denormalize_spec hgrows'.consistent hr) fun r' w''' hgrows'' hr' => ?_
      rw [← ha.signed_eq, ← hb.signed_eq, signed_tmod]
      have hsigned := negate_if_spec (c := a.isNegative = true) hgrows''.consistent hr'
      rwa [Bool.decide_coe] at hsigned

lemma quotient_spec (hy : y ≠ 0) : Yields (quotient mode a b) w (x.tdiv y) := by
  rw [quotient, if_neg (hb.used_eq_zero_iff.not.mpr hy)]
  exact div_spec hw ha hb hy

lemma remainder_spec (hy : y ≠ 0) : Yields (remainder mode a b) w (x - y * x.tdiv y) := by
  rw [remainder, if_neg (hb.used_eq_zero_iff.not.mpr hy), ← Int.tmod_def]
  exact rem_spec hw ha hb hy

omit hw ha hb in
lemma emod_eq_of_tmod (x y : ℤ) : x % y = if x.tmod y < 0 then x.tmod y + |y| else x.tmod y := by
  rw [Int.emod_eq_tmod]
  split
  · rename_i h
    rcases h with h | h
    · have := Int.tmod_nonneg y h
      omega
    · have := Int.tmod_eq_zero_of_dvd h
      omega
  · rename_i h
    have hneg := Int.tmod_nonneg y (show 0 ≤ -x by omega)
    have hne : x.tmod y ≠ 0 := fun hzero => h (.inr (Int.dvd_of_tmod_eq_zero hzero))
    rw [Int.neg_tmod] at hneg
    rw [if_pos (by omega), Int.natCast_natAbs]

lemma modulo_spec (hy : y ≠ 0) : Yields (modulo mode a b) w (x % y) := by
  rw [modulo, if_neg (hb.used_eq_zero_iff.not.mpr hy)]
  refine bind (rem_spec hw ha hb hy) fun r w' hgrows hr => ?_
  have hb' := hb.grows hgrows
  have hneg := hr.isNegative_iff
  have hbneg := hb'.isNegative_iff
  rw [emod_eq_of_tmod]
  split
  · rename_i h
    rw [if_pos (hneg.mp h)]
    split
    · rename_i h'
      rw [abs_of_neg (hbneg.mp h')]
      exact minusOp_spec hgrows.consistent hr hb'
    · rename_i h'
      rw [hbneg, not_lt] at h'
      rw [abs_of_nonneg h']
      exact plus_spec hgrows.consistent hr hb'
  · rename_i h
    rw [hneg] at h
    rw [if_neg h]
    exact pure hgrows.consistent hr

end

end

section

open Yields Returns

section

open Checked Executions Numerals Nat

/-- Digits that may be read in pairs. -/
structure Paired (d : Digits) (used : ℕ) : Prop where
  bound : used + used % 2 ≤ d.length
  padded : used % 2 = 1 → digit d used = 0

variable {d : Digits} {used : ℕ}

lemma Normal.paired (h : Normal d used) : Paired d used :=
  ⟨by have := h.trimmed.bound; have := h.even; omega, h.padded⟩

section

variable (mode : Mode) (n : ℕ)

lemma Mode.le_padded : n ≤ mode.padded n := by
  cases mode <;> simp only [Mode.padded] <;> omega

lemma Mode.padded_le : mode.padded n ≤ n + n % 2 := by
  cases mode <;> simp only [Mode.padded] <;> omega

lemma Mode.padded_mod : mode.padded n % mode.width = 0 := by
  cases mode <;> simp only [Mode.padded, Mode.width] <;> omega

lemma Mode.width_dvd_padded : mode.width ∣ mode.padded n :=
  dvd_of_mod_eq_zero (mode.padded_mod n)

end

variable {n : ℕ}

lemma Mode.width_dvd_even (mode : Mode) (h : n % 2 = 0) : mode.width ∣ n := by
  cases mode <;> simp only [Mode.width] <;> omega

/-- The next block ends within the blocks that hold `n` digits. -/
lemma Mode.add_width_le (mode : Mode) {i : ℕ} (hi : mode.width ∣ i) (h : i < n) :
    i + mode.width ≤ mode.padded n := by
  cases mode <;> simp only [Mode.padded, Mode.width] at * <;> omega

lemma Paired.seg_eq (h : Paired d used) (hle : used ≤ n)
    (hn : n ≤ used + used % 2) : seg d 0 n = seg d 0 used := by
  refine segment_of_zeros hle fun k hk hk' => ?_
  obtain rfl : k = used := by omega
  rw [zero_add]
  exact h.padded (by omega)

lemma Paired.seg_padded (h : Paired d used) (mode : Mode) :
    seg d 0 (mode.padded used) = seg d 0 used := h.seg_eq (mode.le_padded _) (mode.padded_le _)

/-- Every part of a number is less than its weight. -/
lemma Paired.seg_le (h : Paired d used) (mode : Mode)
    (hn : n ≤ mode.padded used) : seg d 0 n ≤ seg d 0 used := by
  rw [← h.seg_padded mode]
  obtain ⟨k, hk⟩ := Nat.exists_eq_add_of_le hn
  rw [hk, seg_add]
  omega

lemma mulAdd_partial_spec (mode : Mode) {x other result : Digits} {xUsed otherUsed total i : ℕ}
    (hx : Paired x xUsed) (hother : Paired other otherUsed) (heven : total % 2 = 0)
    (htotal : xUsed + otherUsed ≤ total) (hres : total ≤ result.length) (hi : mode.width ∣ i)
    (hlt : i < otherUsed) (hval : seg result 0 total = seg x 0 xUsed * seg other 0 i) :
    ∃ r, mulAdd mode other i x 0 result i xUsed = .ok (mode.width, r) ∧
      Changed result r 0 total ∧ seg r 0 total = seg x 0 xUsed * seg other 0 (i + mode.width) := by
  have hbound := hother.bound
  have hxbound := hx.bound
  have hpad := mode.add_width_le hi hlt
  have hpadded := mode.padded_le otherUsed
  have hxpadded := mode.padded_le xUsed
  -- the blocks above the product within the result
  obtain ⟨r, hr⟩ : mode.width ∣ total - i - mode.padded xUsed :=
    Nat.dvd_sub (Nat.dvd_sub (mode.width_dvd_even heven) hi) (mode.width_dvd_padded xUsed)
  have hsum : mode.padded xUsed + mode.width * r = total - i := by
    omega
  have hsplit : ∀ d : Digits, seg d 0 total = seg d 0 i + digitBase ^ i * seg d i (total - i) := by
    intro d
    conv_lhs => rw [show total = i + (total - i) by omega]
    rw [seg_add, zero_add]
  have hother' : seg other 0 (i + mode.width) =
      seg other 0 i + digitBase ^ i * seg other i mode.width := by rw [seg_add, zero_add]
  have hproduct : seg result 0 i + digitBase ^ i *
      (seg result i (total - i) + seg other i mode.width * seg x 0 xUsed) =
        seg x 0 xUsed * seg other 0 (i + mode.width) := by
    rw [hother', mul_add (seg x 0 xUsed), ← hval, hsplit result]
    ring
  have hlt' : seg x 0 xUsed * seg other 0 (i + mode.width) < digitBase ^ total := by
    calc seg x 0 xUsed * seg other 0 (i + mode.width)
        ≤ seg x 0 xUsed * seg other 0 otherUsed := Nat.mul_le_mul_left _ (hother.seg_le mode hpad)
      _ < digitBase ^ xUsed * digitBase ^ otherUsed :=
        Nat.mul_lt_mul'' (seg_lt ..) (seg_lt ..)
      _ ≤ digitBase ^ total := by
        rw [← pow_add]
        exact Nat.pow_le_pow_right digitBase_pos htotal
  have hfits : seg result i (total - i) + seg other i mode.width * seg x 0 xUsed <
      digitBase ^ (total - i) := by
    refine Nat.lt_of_mul_lt_mul_left (a := digitBase ^ i) ?_
    rw [← pow_add, show i + (total - i) = total by omega]
    omega
  have hspec := @mulAdd_carry_spec mode r other x result i 0 i xUsed (by omega) (by omega)
  rw [hsum, hx.seg_padded mode] at hspec
  obtain ⟨acc, hacc, hchg, hsum'⟩ := hspec (by omega) hfits
  refine ⟨acc, hacc, ⟨hchg.length, fun k hk => hchg.others k (by omega)⟩, ?_⟩
  rw [hsplit acc, hsum', hchg.seg_eq (.inl (by omega)), hproduct]

lemma mulLoop_spec (mode : Mode) {x other result : Digits} {xUsed otherUsed total i fuel : ℕ}
    (hx : Paired x xUsed) (hother : Paired other otherUsed) (heven : total % 2 = 0)
    (htotal : xUsed + otherUsed ≤ total) (hres : total ≤ result.length) (hi : mode.width ∣ i)
    (hle : i ≤ mode.padded otherUsed)
    (hval : seg result 0 total = seg x 0 xUsed * seg other 0 i) (hfuel : otherUsed - i < fuel) :
    ∃ r, mulLoop mode x xUsed other otherUsed fuel i result = .ok r ∧ Changed result r 0 total ∧
      seg r 0 total = seg x 0 xUsed * seg other 0 otherUsed := by
  induction fuel generalizing i result with
  | zero => omega
  | succ fuel ih =>
    rw [mulLoop]
    split
    · rename_i hlt
      obtain ⟨r, hr, hchg, hvalue'⟩ := mulAdd_partial_spec mode hx hother heven htotal hres hi
        hlt hval
      have hpos := mode.width_pos
      obtain ⟨r', hr', hchanged', hdone⟩ := ih (by rw [hchg.length]; exact hres)
        (dvd_add hi (dvd_refl _)) (mode.add_width_le hi hlt) hvalue' (by omega)
      refine ⟨r', ?_, ⟨by rw [hchanged'.length, hchg.length], fun k hk => ?_⟩, hdone⟩
      · rw [hr, ok_bind]
        exact hr'
      · rw [hchanged'.others k hk, hchg.others k hk]
    · rename_i hge
      refine ⟨result, rfl, .refl .., ?_⟩
      rw [hval, hother.seg_eq (by omega) (hle.trans (mode.padded_le _))]

variable {w : World} {a b : BigIntImpl} {x y : ℤ} {mode : Mode}

lemma signed_mul_signed (s t : Bool) (m n : ℕ) :
    signed s m * signed t n = signed (s != t) (m * n) := by
  cases s <;> cases t <;> simp [signed]

section

variable (hw : Consistent w) (ha : Denotes w a x)

include hw ha

lemma times_spec (hb : Denotes w b y) : Yields (times mode a b) w (x * y) := by
  have hx := ha.used_eq_zero_iff
  have hy := hb.used_eq_zero_iff
  rw [times]
  split_ifs with hzero
  · rw [show x * y = 0 by rw [hx, hy] at hzero; exact mul_eq_zero.mpr hzero]
    exact Yields.pure hw (zero_denotes hw)
  · obtain ⟨d, hd, rfl⟩ := ha
    obtain ⟨e, he, rfl⟩ := hb
    have hlen := length_newDigits (a.used + b.used)
    have hzeros : seg (newDigits (a.used + b.used)) 0 (a.used + b.used + (a.used + b.used) % 2) =
        0 :=
      segment_eq_zero fun k _ => digit_newDigits ..
    obtain ⟨r, hr, hchg, hval⟩ := @mulLoop_spec mode _ _ _ _ _ _ 0 (b.used + 1)
      hd.normal.paired he.normal.paired (by omega) (Nat.le_add_right ..) hlen.ge (dvd_zero _)
      (zero_le _) (by rw [hzeros, seg_zero, mul_zero]) (by omega)
    have hlt : seg d 0 a.used * seg e 0 b.used < digitBase ^ (a.used + b.used) := by
      rw [pow_add]
      exact Nat.mul_lt_mul'' (seg_lt ..) (seg_lt ..)
    obtain ⟨hlow, hhigh⟩ := @seg_unique _ _ _ _ 0 _
      (hval.trans (by rw [mul_zero, add_zero])) hlt
    rw [signed_mul_signed, ← hlow]
    refine Returns.readDigits hd.digits (Returns.readDigits he.digits (Returns.digitwise hr
      (create_spec hw ?_ ?_ fun hodd => ?_)))
    · rw [hchg.length, hlen]
      omega
    · rw [hchg.length, hlen]
      omega
    · rwa [hodd, seg_one, zero_add] at hhigh

lemma multiplyOdd_spec (hb : Denotes w b y) (e : ℕ) :
    Yields (powLoop.multiplyOdd mode e a b) w (x * y ^ (e % 2)) := by
  rw [powLoop.multiplyOdd, and_one_is_mod]
  split
  · rename_i hodd
    rw [hodd, pow_one]
    exact times_spec hw ha hb
  · rename_i heven
    rw [show e % 2 = 0 by omega, pow_zero, mul_one]
    exact pure hw ha

omit hw ha in
/-- Without the last squaring the remaining power is the same. -/
lemma square_spec (hw : Consistent w) (hb : Denotes w b y) (e : ℕ) :
    ∃ z, Yields (powLoop.square mode e b) w z ∧ z ^ e = (y * y) ^ e := by
  rw [powLoop.square]
  split_ifs with hzero
  · exact ⟨_, times_spec hw hb hb, rfl⟩
  · exact ⟨_, Yields.pure hw hb, by rw [not_not.mp hzero, pow_zero, pow_zero]⟩

lemma powLoop_spec (hb : Denotes w b y) {e fuel : ℕ} (hfuel : e < fuel) :
    Yields (powLoop mode fuel e a b) w (x * y ^ e) := by
  induction fuel generalizing w a b x y e with
  | zero => omega
  | succ fuel ih =>
    rw [powLoop]
    split
    · rename_i hzero
      rw [hzero, pow_zero, mul_one]
      exact pure hw ha
    · rename_i hpos
      refine bind (multiplyOdd_spec hw ha hb e) fun a' w' hgrows ha' => ?_
      obtain ⟨z, hz, hpow⟩ := @square_spec _ _ _ mode hgrows.consistent (hb.grows hgrows) (e >>> 1)
      refine bind hz fun b' w'' hgrows' hb' => ?_
      have hhalf : e >>> 1 = e / 2 := shiftRight_eq_div_pow e 1
      have h := ih hgrows'.consistent (ha'.grows hgrows') hb' (show e >>> 1 < fuel by omega)
      have hval : x * y ^ (e % 2) * z ^ (e >>> 1) = x * y ^ e := by
        rw [hpow, hhalf]
        conv_rhs => rw [← mod_add_div e 2, pow_add, pow_mul, pow_two]
        ring
      rwa [hval] at h

lemma pow_spec (e : ℕ) : Yields (pow mode a e) w (x ^ e) := by
  rw [pow, if_neg (by omega)]
  split_ifs with hzero
  · rw [show e = 0 by omega, pow_zero]
    exact pure hw (one_denotes hw)
  · have h := @powLoop_spec _ _ _ _ _ mode hw (one_denotes hw) ha _ _ (lt_succ_self e)
    rwa [one_mul] at h

end

end

open Checked Executions Numerals TwosComplement Int

lemma testBit_seg (d : Digits) (n i : ℕ) :
    (seg d 0 n).testBit i = if i / 32 < n then (digit d (i / 32)).testBit (i % 32) else false :=
  testBit_segment (by omega) (fun k _ => digit_lt d k) i

lemma combineDigits_spec {f : ℕ → ℕ → ℕ} {a b : Digits} {n : ℕ} (result : Digits)
    (hf : ∀ d e, d < digitBase → e < digitBase → f d e < digitBase)
    (ha : n ≤ a.length) (hb : n ≤ b.length) (hres : n ≤ result.length) :
    ∃ r, combineDigits f a b n result = .ok r ∧ Changed result r 0 n ∧
      ∀ k < n, digit r k = f (digit a k) (digit b k) := by
  refine forUp_spec _ (fun i r => Changed result r 0 i ∧
    ∀ k < i, digit r k = f (digit a k) (digit b k)) n ⟨.refl .., by omega⟩ ?_
  rintro i hi r ⟨hchg, hdigs⟩
  obtain ⟨r', hr', hstored⟩ := store_digit (a := r) (i := i) (by rw [hchg.length]; omega)
    (hf _ _ (digit_lt a i) (digit_lt b i))
  refine ⟨r', ?_, hchg.append (by rw [zero_add]; exact hstored.changed), fun k hk => ?_⟩
  · rw [load_eq (by omega), ok_bind, load_eq (by omega), ok_bind, hr']
  · by_cases heq : k = i
    · rw [heq, hstored.here]
    · rw [hstored.other k heq, hdigs k (by omega)]

lemma copyDigits_spec {a result : Digits} {m used : ℕ} (ha : used ≤ a.length)
    (hres : used ≤ result.length) :
    ∃ r, copyDigits a m used result = .ok r ∧ Changed result r m (used - m) ∧
      ∀ k, m ≤ k → k < used → digit r k = digit a k := by
  obtain ⟨r, hr, hchg, hdigs⟩ := forUp_spec (fun k result => do
      let d ← load a (m + k)
      store result (m + k) d)
    (fun i r => Changed result r m i ∧ ∀ k, m ≤ k → k < m + i → digit r k = digit a k) (used - m)
    (s := result) ⟨.refl .., by omega⟩ (by
      rintro i hi r ⟨hchg, hdigs⟩
      obtain ⟨r', hr', hstored⟩ := store_digit (a := r) (i := m + i)
        (by rw [hchg.length]; omega) (digit_lt a (m + i))
      refine ⟨r', by rw [load_eq (by omega), ok_bind, hr'], hchg.append hstored.changed,
        fun k hk hk' => ?_⟩
      by_cases heq : k = m + i
      · rw [heq, hstored.here]
      · rw [hstored.other k heq, hdigs k hk (by omega)])
  exact ⟨r, hr, hchg, fun k hk hk' => hdigs k hk (by omega)⟩

variable {w : World} {a b : BigIntImpl} {x y : ℤ}

section

variable (hw : Consistent w) (ha : Denotes w a x)

include hw ha

lemma absAndSetSign_spec (hb : Denotes w b y) (isNegative : Bool) :
    Yields (absAndSetSign a b isNegative) w (signed isNegative (x.natAbs &&& y.natAbs)) := by
  obtain ⟨d, hd, rfl⟩ := ha
  obtain ⟨e, he, rfl⟩ := hb
  have hbound := hd.normal.trimmed.bound
  have hbound' := he.normal.trimmed.bound
  have hlen := length_newDigits (min a.used b.used)
  obtain ⟨r, hr, hchg, hdigs⟩ := combineDigits_spec (f := (· &&& ·)) (a := d) (b := e)
    (n := min a.used b.used) (newDigits (min a.used b.used))
    (fun _ _ _ h => Nat.and_lt_two_pow _ h) (by omega) (by omega) (by omega)
  have hval : seg r 0 (min a.used b.used) = seg d 0 a.used &&& seg e 0 b.used := by
    refine Nat.eq_of_testBit_eq fun i => ?_
    rw [Nat.testBit_land, testBit_seg, testBit_seg, testBit_seg]
    split
    · rename_i h
      rw [hdigs _ h, Nat.testBit_land, if_pos (by omega), if_pos (by omega)]
    · rename_i h
      rcases lt_or_ge (i / 32) a.used with h' | h'
      · rw [if_neg (show ¬i / 32 < b.used by omega), Bool.and_false]
      · rw [if_neg (show ¬i / 32 < a.used by omega), Bool.false_and]
  rw [natAbs_signed, natAbs_signed, ← hval]
  refine Returns.readDigits hd.digits (Returns.readDigits he.digits (Returns.digitwise hr
    (create_spec hw ?_ ?_ fun _ => ?_)))
  · rw [hchg.length, hlen]
    omega
  · rw [hchg.length, hlen]
    omega
  · rw [hchg.others _ (by omega), digit_newDigits]

lemma absAndNotSetSign_spec (hb : Denotes w b y) (isNegative : Bool) :
    Yields (absAndNotSetSign a b isNegative) w (signed isNegative (x.natAbs.ldiff y.natAbs)) := by
  obtain ⟨d, hd, rfl⟩ := ha
  obtain ⟨e, he, rfl⟩ := hb
  have hbound := hd.normal.trimmed.bound
  have hbound' := he.normal.trimmed.bound
  have hlen := length_newDigits a.used
  obtain ⟨r1, hr1, hchanged1, hdigits1⟩ := combineDigits_spec (f := Nat.ldiff) (a := d) (b := e)
    (n := min a.used b.used) (newDigits a.used)
    (fun _ _ h h' => Nat.bitwise_lt_two_pow h h') (by omega) (by omega) (by omega)
  have hlen1 := hchanged1.length
  obtain ⟨r, hr, hchg, hdigs⟩ := @copyDigits_spec d r1
    (min a.used b.used) a.used (by omega) (by omega)
  have hval : seg r 0 a.used = (seg d 0 a.used).ldiff (seg e 0 b.used) := by
    refine Nat.eq_of_testBit_eq fun i => ?_
    rw [Nat.testBit_ldiff, testBit_seg, testBit_seg, testBit_seg]
    split
    · rename_i h
      split_ifs with h'
      · rw [hchg.others _ (by omega), hdigits1 _ (by omega), Nat.testBit_ldiff]
      · rw [hdigs _ (by omega) h, Bool.not_false, Bool.and_true]
    · rw [Bool.false_and]
  rw [natAbs_signed, natAbs_signed, ← hval]
  refine Returns.readDigits hd.digits (Returns.readDigits he.digits (Returns.digitwise hr1
    (Returns.digitwise hr (create_spec hw ?_ ?_ fun _ => ?_))))
  · rw [hchg.length]
    omega
  · rw [hchg.length]
    omega
  · rw [hchg.others _ (by omega), hchanged1.others _ (by omega), digit_newDigits]

omit hw ha in
/-- The operations that keep the digits of the longer operand. -/
lemma absCombineSetSign_spec {f : ℕ → ℕ → ℕ} {g : Bool → Bool → Bool}
    (hf : ∀ m n i, (f m n).testBit i = g (m.testBit i) (n.testBit i))
    (hlt : ∀ d e, d < digitBase → e < digitBase → f d e < digitBase)
    (hleft : ∀ c, g c false = c) (hright : ∀ c, g false c = c)
    (hw : Consistent w) (ha : Denotes w a x) (hb : Denotes w b y) (isNegative : Bool) :
    Yields (absCombineSetSign f a b isNegative) w (signed isNegative (f x.natAbs y.natAbs)) := by
  obtain ⟨d, hd, rfl⟩ := ha
  obtain ⟨e, he, rfl⟩ := hb
  have hbound := hd.normal.trimmed.bound
  have hbound' := he.normal.trimmed.bound
  have hlen := length_newDigits (max a.used b.used)
  have hmin : (if a.used < b.used then a.used else b.used) = min a.used b.used := by
    split <;> omega
  obtain ⟨r1, hr1, hchanged1, hdigits1⟩ := combineDigits_spec (a := d) (b := e)
    (n := if a.used < b.used then a.used else b.used) (newDigits (max a.used b.used)) hlt
    (by omega) (by omega) (by omega)
  have hlen1 := hchanged1.length
  obtain ⟨r, hr, hchg, hdigs⟩ := @copyDigits_spec (if a.used < b.used then e else d) r1
    (if a.used < b.used then a.used else b.used) (max a.used b.used)
    (by split <;> omega) (by omega)
  rw [hmin] at hchg hchanged1 hdigs hdigits1
  have hval : seg r 0 (max a.used b.used) = f (seg d 0 a.used) (seg e 0 b.used) := by
    refine eq_of_testBit_eq fun i => ?_
    rw [hf, testBit_seg, testBit_seg, testBit_seg]
    rcases lt_or_ge (i / 32) (min a.used b.used) with h | h
    · rw [if_pos (by omega), if_pos (by omega), if_pos (by omega), hchg.others _ (by omega),
        hdigits1 _ h, hf]
    · by_cases hmax : i / 32 < max a.used b.used
      · rw [if_pos hmax, hdigs _ h hmax]
        by_cases hused : a.used < b.used
        · rw [if_pos hused, if_neg (by omega), if_pos (by omega), hright]
        · rw [if_neg hused, if_pos (by omega), if_neg (by omega), hleft]
      · rw [if_neg hmax, if_neg (by omega), if_neg (by omega), hleft]
  rw [natAbs_signed, natAbs_signed, ← hval]
  refine Returns.readDigits hd.digits (Returns.readDigits he.digits (Returns.digitwise hr1
    (Returns.digitwise hr (create_spec hw ?_ ?_ fun _ => ?_))))
  · rw [hchg.length]
    omega
  · rw [hchg.length]
    omega
  · rw [hchg.others _ (by omega), hchanged1.others _ (by omega), digit_newDigits]

lemma absOrSetSign_spec (hb : Denotes w b y) (isNegative : Bool) :
    Yields (absOrSetSign a b isNegative) w (signed isNegative (x.natAbs ||| y.natAbs)) :=
  absCombineSetSign_spec testBit_lor (fun _ _ h h' => or_lt_two_pow h h') Bool.or_false
    Bool.false_or hw ha hb isNegative

lemma absXorSetSign_spec (hb : Denotes w b y) (isNegative : Bool) :
    Yields (absXorSetSign a b isNegative) w (signed isNegative (x.natAbs ^^^ y.natAbs)) :=
  absCombineSetSign_spec testBit_xor (fun _ _ h h' => xor_lt_two_pow h h') Bool.xor_false
    Bool.false_xor hw ha hb isNegative

omit hw ha in
lemma Denotes.isNegative_natCast {n : ℕ} (h : Denotes w a n) : a.isNegative = false := by
  rw [← Bool.not_eq_true, h.isNegative_iff]
  omega

omit hw ha in
lemma Denotes.isNegative_negSucc {n : ℕ} (h : Denotes w a (.negSucc n)) : a.isNegative = true :=
  h.isNegative_iff.mpr (negSucc_lt_zero n)

omit hw ha in
lemma complement_spec (hw : Consistent w) {n : ℕ} (ha : Denotes w a (.negSucc n))
    (isNegative : Bool) : Yields (absSubSetSign a one isNegative) w (signed isNegative n) := by
  have h := @absSubSetSign_spec _ _ _ _ _ hw ha (one_denotes hw)
    isNegative (by rw [natAbs_negSucc]; omega) (fun h => absurd h (negSucc_ne_zero n))
  rwa [natAbs_negSucc, natAbs_one, succ_sub_one] at h

omit hw ha in
lemma complement_of_signed_spec (hw : Consistent w) {n : ℕ} {isNegative : Bool}
    (ha : Denotes w a (signed isNegative n)) :
    Yields (absAddSetSign a one true) w (.negSucc n) := by
  have h := @absAddSetSign_spec _ _ _ _ _ hw ha (one_denotes hw) true
    (fun _ h => absurd h one_ne_zero)
  rwa [natAbs_signed, natAbs_one] at h

omit hw ha in
/-- The branches of the bitwise operators for two negative numbers. -/
lemma complements_spec (hw : Consistent w) {m n : ℕ} (ha : Denotes w a (.negSucc m))
    (hb : Denotes w b (.negSucc n)) {f : BigIntImpl → BigIntImpl → Exec BigIntImpl}
    (hf : ∀ p q w', Consistent w' → Denotes w' p (signed true m) → Denotes w' q (signed true n) →
      Yields (f p q) w' x) :
    Yields (do
      let this1 ← absSubSetSign a one true
      let other1 ← absSubSetSign b one true
      f this1 other1) w x := by
  refine Yields.bind (complement_spec hw ha true) fun p w1 hgrows1 hp => ?_
  refine Yields.bind (complement_spec hgrows1.consistent (hb.grows hgrows1) true)
    fun q w2 hgrows2 hq => ?_
  exact hf p q w2 hgrows2.consistent (hp.grows hgrows2) hq

lemma and_spec (hb : Denotes w b y) : Yields (and a b) w (x.land y) := by
  have hx := ha.used_eq_zero_iff
  have hy := hb.used_eq_zero_iff
  have hmixed : ∀ {p q : BigIntImpl} {m n : ℕ}, Denotes w p m → Denotes w q (.negSucc n) →
      Yields (do
        let n1 ← absSubSetSign q one false
        absAndNotSetSign p n1 false) w (m.ldiff n : ℕ) := by
    intro p q m n hp hq
    refine bind (complement_spec hw hq false) fun n1 w' hgrows hn1 => ?_
    have h := absAndNotSetSign_spec hgrows.consistent (hp.grows hgrows) hn1 false
    rwa [natAbs_natCast, natAbs_signed] at h
  rw [and]
  split
  · rename_i hzero
    have hland : x.land y = 0 := by
      rw [hx, hy] at hzero
      rcases hzero with rfl | rfl
      · exact land_zero_left y
      · rw [land_comm x, land_zero_left]
    rw [hland]
    exact pure hw (zero_denotes hw)
  rcases x with m | m <;> rcases y with n | n
  · rw [ha.isNegative_natCast, hb.isNegative_natCast, if_pos rfl, if_neg (by decide)]
    exact absAndSetSign_spec hw ha hb false
  · rw [ha.isNegative_natCast, hb.isNegative_negSucc, if_neg (by decide)]
    exact hmixed ha hb
  · rw [ha.isNegative_negSucc, hb.isNegative_natCast, if_neg (by decide)]
    exact hmixed hb ha
  · rw [ha.isNegative_negSucc, hb.isNegative_negSucc, if_pos rfl, if_pos rfl]
    refine complements_spec hw ha hb fun p q w' hw' hp hq => ?_
    refine bind (absOrSetSign_spec hw' hp hq true) fun r w'' hgrows hr => ?_
    rw [natAbs_signed, natAbs_signed] at hr
    exact complement_of_signed_spec hgrows.consistent hr

lemma or_spec (hb : Denotes w b y) : Yields (or a b) w (x.lor y) := by
  have hx := ha.used_eq_zero_iff
  have hy := hb.used_eq_zero_iff
  have hmixed : ∀ {p q : BigIntImpl} {m n : ℕ}, Denotes w p m → Denotes w q (.negSucc n) →
      Yields (do
        let n1 ← absSubSetSign q one true
        let result ← absAndNotSetSign n1 p true
        absAddSetSign result one true) w (.negSucc (n.ldiff m)) := by
    intro p q m n hp hq
    refine bind (complement_spec hw hq true) fun n1 w' hgrows hn1 => ?_
    refine bind (absAndNotSetSign_spec hgrows.consistent hn1 (hp.grows hgrows) true)
      fun r w'' hgrows' hr => ?_
    rw [natAbs_natCast, natAbs_signed] at hr
    exact complement_of_signed_spec hgrows'.consistent hr
  rw [or]
  split
  · rename_i hzero
    rw [hx.mp hzero, lor_zero_left]
    exact pure hw hb
  split
  · rename_i hzero
    rw [hy.mp hzero, lor_comm x, lor_zero_left]
    exact pure hw ha
  rcases x with m | m <;> rcases y with n | n
  · rw [ha.isNegative_natCast, hb.isNegative_natCast, if_pos rfl, if_neg (by decide)]
    exact absOrSetSign_spec hw ha hb false
  · rw [ha.isNegative_natCast, hb.isNegative_negSucc, if_neg (by decide)]
    exact hmixed ha hb
  · rw [ha.isNegative_negSucc, hb.isNegative_natCast, if_neg (by decide)]
    exact hmixed hb ha
  · rw [ha.isNegative_negSucc, hb.isNegative_negSucc, if_pos rfl, if_pos rfl]
    refine complements_spec hw ha hb fun p q w' hw' hp hq => ?_
    refine bind (absAndSetSign_spec hw' hp hq true) fun r w'' hgrows hr => ?_
    rw [natAbs_signed, natAbs_signed] at hr
    exact complement_of_signed_spec hgrows.consistent hr

lemma xor_spec (hb : Denotes w b y) : Yields (xor a b) w (x.xor y) := by
  have hx := ha.used_eq_zero_iff
  have hy := hb.used_eq_zero_iff
  have hmixed : ∀ {p q : BigIntImpl} {m n : ℕ}, Denotes w p m → Denotes w q (.negSucc n) →
      Yields (do
        let n1 ← absSubSetSign q one true
        let result ← absXorSetSign p n1 true
        absAddSetSign result one true) w (.negSucc (m ^^^ n)) := by
    intro p q m n hp hq
    refine bind (complement_spec hw hq true) fun n1 w' hgrows hn1 => ?_
    refine bind (absXorSetSign_spec hgrows.consistent (hp.grows hgrows) hn1 true)
      fun r w'' hgrows' hr => ?_
    rw [natAbs_natCast, natAbs_signed] at hr
    exact complement_of_signed_spec hgrows'.consistent hr
  rw [xor]
  split
  · rename_i hzero
    rw [hx.mp hzero, lxor_zero_left]
    exact pure hw hb
  split
  · rename_i hzero
    rw [hy.mp hzero, lxor_comm, lxor_zero_left]
    exact pure hw ha
  rcases x with m | m <;> rcases y with n | n
  · rw [ha.isNegative_natCast, hb.isNegative_natCast, if_pos rfl, if_neg (by decide)]
    exact absXorSetSign_spec hw ha hb false
  · rw [ha.isNegative_natCast, hb.isNegative_negSucc, if_neg (by decide)]
    exact hmixed ha hb
  · rw [ha.isNegative_negSucc, hb.isNegative_natCast, if_neg (by decide)]
    have h := hmixed hb ha
    rwa [Nat.xor_comm] at h
  · rw [ha.isNegative_negSucc, hb.isNegative_negSucc, if_pos rfl, if_pos rfl]
    refine complements_spec hw ha hb fun p q w' hw' hp hq => ?_
    have h := absXorSetSign_spec hw' hp hq false
    rwa [natAbs_signed, natAbs_signed] at h

lemma not_spec : Yields (not a) w x.lnot := by
  rw [not]
  split
  · rename_i hzero
    rw [ha.used_eq_zero_iff.mp hzero]
    exact pure hw (minusOne_denotes hw)
  rcases x with m | m
  · rw [if_neg (by simp [ha.isNegative_natCast])]
    exact @complement_of_signed_spec _ _ hw _ false ha
  · rw [if_pos ha.isNegative_negSucc]
    exact complement_spec hw ha false

lemma toUnsigned_spec (n : ℕ) : Yields (toUnsigned a n) w (x % (2 ^ n : ℕ)) := by
  refine bind (shiftLeft_spec hw (one_denotes hw) n) fun power w1 hgrows1 hpower => ?_
  refine bind (minusOp_spec hgrows1.consistent hpower (one_denotes hgrows1.consistent))
    fun mask w2 hgrows2 hmask => ?_
  have hval : 1 * ((2 ^ n : ℕ) : ℤ) - 1 = (2 ^ n - 1 : ℕ) := by
    have := Nat.two_pow_pos n
    omega
  rw [hval] at hmask
  rw [← land_two_pow_sub_one]
  exact and_spec hgrows2.consistent ((ha.grows hgrows1).grows hgrows2) hmask

lemma toSigned_spec (n : ℕ) : Yields (toSigned a (n + 1)) w (x.bmod (2 ^ (n + 1))) := by
  rw [toSigned, add_sub_cancel_right]
  refine bind (shiftLeft_spec hw (one_denotes hw) n) fun signMask w1 hgrows1 hsign => ?_
  refine bind (minusOp_spec hgrows1.consistent hsign (one_denotes hgrows1.consistent))
    fun mask w2 hgrows2 hmask => ?_
  have hval : 1 * ((2 ^ n : ℕ) : ℤ) - 1 = (2 ^ n - 1 : ℕ) := by
    have := Nat.two_pow_pos n
    omega
  rw [hval] at hmask
  rw [one_mul] at hsign
  have ha2 := (ha.grows hgrows1).grows hgrows2
  refine bind (and_spec hgrows2.consistent ha2 hmask) fun low w3 hgrows3 hlow => ?_
  refine bind (and_spec hgrows3.consistent (ha2.grows hgrows3)
    ((hsign.grows hgrows2).grows hgrows3)) fun sign w4 hgrows4 hsign' => ?_
  rw [bmod_two_pow]
  exact minusOp_spec hgrows4.consistent (hlow.grows hgrows4) hsign'

end

end

open Checked Executions Numerals List Int

/-- A normalized big integer. -/
structure Literal where
  isNegative : Bool
  used : ℕ
  digits : Digits
  normal : Normal digits used
  sign : used = 0 → isNegative = false

def Literal.value (n : Literal) : ℤ := signed n.isNegative (seg n.digits 0 n.used)

def Literal.allocate (n : Literal) : Exec BigIntImpl := do
  let reference ← newArray n.digits
  pure ⟨n.isNegative, n.used, reference⟩

/-- An operation on the results with the given numbers. -/
inductive Command
  | literal (n : Literal)
  | negate (i : ℕ)
  | abs (i : ℕ)
  | plus (i j : ℕ)
  | minus (i j : ℕ)
  | times (i j : ℕ)
  | quotient (i j : ℕ)
  | remainder (i j : ℕ)
  | modulo (i j : ℕ)
  | shiftLeft (i : ℕ) (amount : ℤ)
  | shiftRight (i : ℕ) (amount : ℤ)
  | and (i j : ℕ)
  | or (i j : ℕ)
  | xor (i j : ℕ)
  | not (i : ℕ)
  | pow (i : ℕ) (exponent : ℤ)
  | toUnsigned (i : ℕ) (width : ℤ)
  | toSigned (i : ℕ) (width : ℤ)

def Command.execute (mode : Mode) (operand : ℕ → BigIntImpl) : Command → Exec BigIntImpl
  | .literal n => n.allocate
  | .negate i => BigInts.negate (operand i)
  | .abs i => BigInts.abs (operand i)
  | .plus i j => BigInts.plus (operand i) (operand j)
  | .minus i j => minusOp (operand i) (operand j)
  | .times i j => BigInts.times mode (operand i) (operand j)
  | .quotient i j => BigInts.quotient mode (operand i) (operand j)
  | .remainder i j => BigInts.remainder mode (operand i) (operand j)
  | .modulo i j => BigInts.modulo mode (operand i) (operand j)
  | .shiftLeft i n => BigInts.shiftLeft (operand i) n
  | .shiftRight i n => BigInts.shiftRight (operand i) n
  | .and i j => BigInts.and (operand i) (operand j)
  | .or i j => BigInts.or (operand i) (operand j)
  | .xor i j => BigInts.xor (operand i) (operand j)
  | .not i => BigInts.not (operand i)
  | .pow i e => BigInts.pow mode (operand i) e
  | .toUnsigned i n => BigInts.toUnsigned (operand i) n
  | .toSigned i n => BigInts.toSigned (operand i) n

/-- A result that needs an argument of at least a certain size. -/
def unlessLess (n least : ℤ) (x : ℤ) : Except Error ℤ :=
  if n < least then .error .argumentError else .ok x

def unlessZero (y x : ℤ) : Except Error ℤ :=
  if y = 0 then .error .integerDivisionByZero else .ok x

/-- The operation on integers. Bitwise operations are those of two's complement. -/
def Command.value (operand : ℕ → ℤ) : Command → Except Error ℤ
  | .literal n => .ok n.value
  | .negate i => .ok (-operand i)
  | .abs i => .ok |operand i|
  | .plus i j => .ok (operand i + operand j)
  | .minus i j => .ok (operand i - operand j)
  | .times i j => .ok (operand i * operand j)
  | .quotient i j => unlessZero (operand j) ((operand i).tdiv (operand j))
  | .remainder i j =>
    unlessZero (operand j) (operand i - operand j * (operand i).tdiv (operand j))
  | .modulo i j => unlessZero (operand j) (operand i % operand j)
  | .shiftLeft i n => unlessLess n 0 (operand i * (2 ^ n.toNat : ℕ))
  | .shiftRight i n => unlessLess n 0 (operand i / (2 ^ n.toNat : ℕ))
  | .and i j => .ok ((operand i).land (operand j))
  | .or i j => .ok ((operand i).lor (operand j))
  | .xor i j => .ok ((operand i).xor (operand j))
  | .not i => .ok (operand i).lnot
  | .pow i e => unlessLess e 0 (operand i ^ e.toNat)
  | .toUnsigned i n => unlessLess n 0 (operand i % (2 ^ n.toNat : ℕ))
  | .toSigned i n => unlessLess n 1 ((operand i).bmod (2 ^ n.toNat))

/-- The operation ends with the number or the exception. -/
def Exact (m : Exec BigIntImpl) (w : World) : Except Error ℤ → Prop
  | .ok x => Yields m w x
  | .error e => m w = .error e

variable {w : World} {a b : BigIntImpl} {x y : ℤ} {mode : Mode}

lemma allocate_spec (hw : Consistent w) (n : Literal) : Yields n.allocate w n.value := by
  have hgrows := newArray_grows hw n.digits
  refine ⟨_, _, rfl, hgrows, n.digits, ⟨?_, n.normal, n.sign⟩, rfl⟩
  simp

lemma unlessZero_spec {f : BigIntImpl → BigIntImpl → Exec BigIntImpl} (hb : Denotes w b y)
    (hzero : b.used = 0 → f a b = throw .integerDivisionByZero)
    (h : y ≠ 0 → Yields (f a b) w x) : Exact (f a b) w (unlessZero y x) := by
  rw [unlessZero]
  split_ifs with hy
  · rw [hzero (hb.used_eq_zero_iff.mpr hy)]
    rfl
  · exact h hy

lemma unlessLess_spec {m : Exec BigIntImpl} {n least : ℤ}
    (hless : n < least → m w = .error .argumentError) (h : least ≤ n → Yields m w x) :
    Exact m w (unlessLess n least x) := by
  rw [unlessLess]
  split_ifs with hn
  · exact hless hn
  · exact h (by omega)

section

variable (hw : Consistent w) (ha : Denotes w a x)

include hw ha

lemma shiftLeft_exact (n : ℤ) :
    Exact (shiftLeft a n) w (unlessLess n 0 (x * (2 ^ n.toNat : ℕ))) := by
  refine unlessLess_spec (fun h => ?_) fun h => ?_
  · rw [shiftLeft, if_pos h]
    rfl
  · have hspec := shiftLeft_spec hw ha n.toNat
    rwa [toNat_of_nonneg h] at hspec

lemma shiftRight_exact (n : ℤ) :
    Exact (shiftRight a n) w (unlessLess n 0 (x / (2 ^ n.toNat : ℕ))) := by
  refine unlessLess_spec (fun h => ?_) fun h => ?_
  · rw [shiftRight, if_pos h]
    rfl
  · have hspec := shiftRight_spec hw ha n.toNat
    rwa [toNat_of_nonneg h] at hspec

lemma pow_exact (e : ℤ) : Exact (pow mode a e) w (unlessLess e 0 (x ^ e.toNat)) := by
  refine unlessLess_spec (fun h => ?_) fun h => ?_
  · rw [pow, if_pos h]
    rfl
  · have hspec := @pow_spec _ _ _ mode hw ha e.toNat
    rwa [toNat_of_nonneg h] at hspec

lemma toUnsigned_exact (n : ℤ) :
    Exact (toUnsigned a n) w (unlessLess n 0 (x % (2 ^ n.toNat : ℕ))) := by
  refine unlessLess_spec (fun h => ?_) fun h => ?_
  · rw [toUnsigned, shiftLeft, if_pos h]
    rfl
  · have hspec := toUnsigned_spec hw ha n.toNat
    rwa [toNat_of_nonneg h] at hspec

lemma toSigned_exact (n : ℤ) :
    Exact (toSigned a n) w (unlessLess n 1 (x.bmod (2 ^ n.toNat))) := by
  refine unlessLess_spec (fun h => ?_) fun h => ?_
  · rw [toSigned, shiftLeft, if_pos (by omega)]
    rfl
  · have hspec := toSigned_spec hw ha (n - 1).toNat
    rwa [toNat_of_nonneg (by omega), sub_add_cancel,
      show (n - 1).toNat + 1 = n.toNat by omega] at hspec

end

/-- Every operation on denoted numbers is exact. -/
lemma Command.exact (mode : Mode) (hw : Consistent w) {operand : ℕ → BigIntImpl}
    {value : ℕ → ℤ} (h : ∀ i, Denotes w (operand i) (value i)) (c : Command) :
    Exact (c.execute mode operand) w (c.value value) := by
  cases c with
  | literal n => exact allocate_spec hw n
  | negate i => exact negate_spec hw (h i)
  | abs i => exact abs_spec hw (h i)
  | plus i j => exact plus_spec hw (h i) (h j)
  | minus i j => exact minusOp_spec hw (h i) (h j)
  | times i j => exact times_spec hw (h i) (h j)
  | quotient i j =>
    exact unlessZero_spec (f := BigInts.quotient mode) (h j) (fun hzero => if_pos hzero)
      (quotient_spec hw (h i) (h j))
  | remainder i j =>
    exact unlessZero_spec (f := BigInts.remainder mode) (h j) (fun hzero => if_pos hzero)
      (remainder_spec hw (h i) (h j))
  | modulo i j =>
    exact unlessZero_spec (f := BigInts.modulo mode) (h j) (fun hzero => if_pos hzero)
      (modulo_spec hw (h i) (h j))
  | shiftLeft i n => exact shiftLeft_exact hw (h i) n
  | shiftRight i n => exact shiftRight_exact hw (h i) n
  | and i j => exact and_spec hw (h i) (h j)
  | or i j => exact or_spec hw (h i) (h j)
  | xor i j => exact xor_spec hw (h i) (h j)
  | not i => exact not_spec hw (h i)
  | pow i e => exact pow_exact hw (h i) e
  | toUnsigned i n => exact toUnsigned_exact hw (h i) n
  | toSigned i n => exact toSigned_exact hw (h i) n

/-- The result with the given number. A missing one, or an exception, counts as zero. -/
def resultOr {α : Type} (default : α) (results : List (Except Error α)) (i : ℕ) : α :=
  match results[i]? with
  | some (.ok a) => a
  | _ => default

def execute (mode : Mode) (s : World × List (Except Error BigIntImpl)) (c : Command) :
    World × List (Except Error BigIntImpl) :=
  match c.execute mode (resultOr zero s.2) s.1 with
  | .ok (a, w) => (w, s.2 ++ [.ok a])
  | .error e => (s.1, s.2 ++ [.error e])

def run (mode : Mode) (commands : List Command) : World × List (Except Error BigIntImpl) :=
  commands.foldl (execute mode) (initial, [])

def evaluate (values : List (Except Error ℤ)) (c : Command) : List (Except Error ℤ) :=
  values ++ [c.value (resultOr 0 values)]

/-- The program over the integers. -/
def values (commands : List Command) : List (Except Error ℤ) := commands.foldl evaluate []

/-- The object denotes the number, or the exceptions are the same. -/
def Agrees (w : World) : Except Error BigIntImpl → Except Error ℤ → Prop
  | .ok a, .ok x => Denotes w a x
  | .error e, .error e' => e = e'
  | _, _ => False

lemma Agrees.grows {w' : World} {r : Except Error BigIntImpl} {v : Except Error ℤ}
    (h : Agrees w r v) (hw : Grows w w') : Agrees w' r v := by
  cases r with
  | error e => cases v with
    | error e' => exact h
    | ok x => exact h
  | ok a => cases v with
    | error e' => exact h
    | ok x => exact Denotes.grows h hw

lemma resultOr_denotes (hw : Consistent w) {results : List (Except Error BigIntImpl)}
    {values : List (Except Error ℤ)} (h : List.Forall₂ (Agrees w) results values) (i : ℕ) :
    Denotes w (resultOr zero results i) (resultOr 0 values i) := by
  induction h generalizing i with
  | nil => exact zero_denotes hw
  | @cons r v results values hagrees _ ih =>
    cases i with
    | succ i => exact ih i
    | zero =>
      cases r with
      | error e => cases v with
        | error e' => exact zero_denotes hw
        | ok x => exact hagrees.elim
      | ok a => cases v with
        | error e' => exact hagrees.elim
        | ok x => exact hagrees

lemma execute_spec {s : World × List (Except Error BigIntImpl)} {values : List (Except Error ℤ)}
    (hw : Consistent s.1) (h : List.Forall₂ (Agrees s.1) s.2 values) (c : Command) :
    Consistent (execute mode s c).1 ∧
      List.Forall₂ (Agrees (execute mode s c).1) (execute mode s c).2 (evaluate values c) := by
  have hexact := c.exact mode hw (resultOr_denotes hw h)
  rw [execute, evaluate]
  cases hv : c.value (resultOr 0 values) with
  | ok x =>
    rw [hv] at hexact
    obtain ⟨a, w', hrun, hgrows, ha⟩ := hexact
    rw [hrun]
    exact ⟨hgrows.consistent, rel_append (h.imp fun _ _ h => h.grows hgrows)
      (.cons ha .nil)⟩
  | error e =>
    rw [hv] at hexact
    rw [show c.execute mode (resultOr zero s.2) s.1 = .error e from hexact]
    exact ⟨hw, rel_append h (.cons rfl .nil)⟩

lemma run_spec (mode : Mode) (commands : List Command) :
    Consistent (run mode commands).1 ∧
      List.Forall₂ (Agrees (run mode commands).1) (run mode commands).2 (values commands) := by
  induction commands using List.reverseRecOn with
  | nil => exact ⟨initial_consistent, .nil⟩
  | append_singleton commands c ih =>
    rw [run, values, foldl_concat, foldl_concat]
    exact execute_spec ih.1 ih.2 c

/-- A program leads to the world. -/
def Reachable (mode : Mode) (w : World) : Prop := ∃ commands, (run mode commands).1 = w

lemma Reachable.consistent (h : Reachable mode w) : Consistent w := by
  obtain ⟨commands, rfl⟩ := h
  exact (run_spec mode commands).1

lemma reachable_initial (mode : Mode) : Reachable mode initial := ⟨[], rfl⟩

theorem division_exact (hw : Reachable mode w) (ha : Denotes w a x) (hb : Denotes w b y)
    (hy : y ≠ 0) :
    Yields (quotient mode a b) w (x.tdiv y) ∧
      Yields (remainder mode a b) w (x - y * x.tdiv y) ∧
      Yields (modulo mode a b) w (x % y) ∧ 0 ≤ x % y ∧ x % y < |y| :=
  ⟨quotient_spec hw.consistent ha hb hy, remainder_spec hw.consistent ha hb hy,
    modulo_spec hw.consistent ha hb hy, emod_nonneg x hy, emod_lt_abs x hy⟩

/-- The division of 2 ^ 100 by -(2 ^ 40 + 1), a number of two digits. -/
def divisions : List Command :=
  [.literal ⟨false, 4, [0, 0, 0, 16], ⟨⟨by decide, by decide⟩, rfl, nofun⟩, nofun⟩,
    .literal ⟨true, 2, [1, 256], ⟨⟨by decide, by decide⟩, rfl, nofun⟩, nofun⟩, .quotient 0 1]

/-- After a division the cache is filled, and it serves the numbers of that division only. -/
theorem division_exact_cached :
    (run .pair divisions).1.cache.isSome = true ∧
      Yields (remainder .pair (resultOr zero (run .pair divisions).2 0)
        (resultOr zero (run .pair divisions).2 1)) (run .pair divisions).1 (2 ^ 20) ∧
      Yields (quotient .pair (resultOr zero (run .pair divisions).2 1)
        (resultOr zero (run .pair divisions).2 2)) (run .pair divisions).1 0 := by
  have hdenotes := resultOr_denotes (run_spec .pair divisions).1 (run_spec .pair divisions).2
  have hvalues : resultOr 0 (values divisions) 0 = 2 ^ 100 ∧
      resultOr 0 (values divisions) 1 = -2 ^ 40 - 1 ∧
      resultOr 0 (values divisions) 2 = -1152921504605798400 := by
    decide +kernel
  have ha := hvalues.1 ▸ hdenotes 0
  have hb := hvalues.2.1 ▸ hdenotes 1
  have hc := hvalues.2.2 ▸ hdenotes 2
  obtain ⟨-, hrem, -⟩ := division_exact ⟨divisions, rfl⟩ ha hb (by decide)
  obtain ⟨hquo, -⟩ := division_exact ⟨divisions, rfl⟩ hb hc (by decide)
  exact ⟨by decide +kernel, hrem, hquo⟩

/-- The other operators give the exact results, or throw for a negative amount. -/
theorem arithmetic_exact (hw : Reachable mode w) (ha : Denotes w a x) (hb : Denotes w b y) :
    Yields (plus a b) w (x + y) ∧ Yields (minusOp a b) w (x - y) ∧ Yields (negate a) w (-x) ∧
      Yields (times mode a b) w (x * y) ∧
      (∀ n, Exact (shiftLeft a n) w (unlessLess n 0 (x * (2 ^ n.toNat : ℕ)))) ∧
      (∀ n, Exact (shiftRight a n) w (unlessLess n 0 (x / (2 ^ n.toNat : ℕ)))) ∧
      Yields (and a b) w (x.land y) ∧ Yields (or a b) w (x.lor y) ∧ Yields (xor a b) w (x.xor y) ∧
      Yields (not a) w x.lnot ∧
      Returns (compareTo a b) w (fun c w' => w' = w ∧ (c < 0 ↔ x < y) ∧ (c = 0 ↔ x = y)) ∧
      (∀ e, Exact (pow mode a e) w (unlessLess e 0 (x ^ e.toNat))) ∧
      (∀ n, Exact (toUnsigned a n) w (unlessLess n 0 (x % (2 ^ n.toNat : ℕ)))) ∧
      ∀ n, Exact (toSigned a n) w (unlessLess n 1 (x.bmod (2 ^ n.toNat))) :=
  have hw := hw.consistent
  ⟨plus_spec hw ha hb, minusOp_spec hw ha hb, negate_spec hw ha, times_spec hw ha hb,
    shiftLeft_exact hw ha, shiftRight_exact hw ha, and_spec hw ha hb, or_spec hw ha hb,
    xor_spec hw ha hb, not_spec hw ha, compareTo_spec ha hb, pow_exact hw ha,
    toUnsigned_exact hw ha, toSigned_exact hw ha⟩

theorem arithmetic_exact_billion :
    Yields (times .digit oneBillion minusOne) initial (-1000000000) ∧
      Yields (plus oneBillion minusOne) initial 999999999 := by
  obtain ⟨hplus, -, -, htimes, -⟩ := arithmetic_exact (reachable_initial .digit)
    (oneBillion_denotes initial_consistent) (minusOne_denotes initial_consistent)
  exact ⟨htimes, hplus⟩

end DartSdk.BigInts
