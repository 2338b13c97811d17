import DartSdk.BigIntLiterals

/-!
The strings that `toString` and `toRadixString` return. A radix from 2 to 36 gives the digits of
the number, which `parse` reads back. A radix below 2 is only refused for numbers of one digit:
zero is printed, and for larger numbers the loop runs on, divides by zero or returns digits of a
negative radix.
-/

namespace DartSdk.BigInts

section

open Checked Executions Integers DigitStrings Numerals List Nat

variable {w : World} {a b : BigIntImpl} {x y : ℤ} {mode : Mode}

lemma Denotes.natAbs_lt (h : Denotes w a x) : x.natAbs < digitBase ^ a.used := by
  obtain ⟨d, -, rfl⟩ := h
  rw [natAbs_signed]
  exact seg_lt d 0 a.used

lemma Denotes.pow_le (h : Denotes w a x) (hused : 0 < a.used) :
    digitBase ^ (a.used - 1) ≤ x.natAbs := by
  obtain ⟨d, hd, rfl⟩ := h
  rw [natAbs_signed]
  exact pow_le_seg hused (hd.normal.trimmed.top hused)

lemma Denotes.used_eq_one_iff (h : Denotes w a x) :
    a.used = 1 ↔ x ≠ 0 ∧ x.natAbs < digitBase := by
  constructor
  · intro hused
    have hlt := h.natAbs_lt
    rw [hused, pow_one] at hlt
    refine ⟨fun hzero => ?_, hlt⟩
    have := h.used_eq_zero_iff.mpr hzero
    omega
  · rintro ⟨hne, hlt⟩
    have hused : a.used ≠ 0 := fun hzero => hne (h.used_eq_zero_iff.mp hzero)
    by_contra hone
    have hle := h.pow_le (by omega)
    have hpow : digitBase ^ 1 ≤ digitBase ^ (a.used - 1) :=
      Nat.pow_le_pow_right digitBase_pos (by omega)
    rw [pow_one] at hpow
    omega

variable {α : Type}

lemma onlyDigit_run {f : ℕ → Exec α} (ha : Denotes w a x) (hused : a.used = 1) :
    (do
      let digits ← readDigits a.digits
      let d ← digitwise (load digits 0)
      f d : Exec α) w = f x.natAbs w := by
  obtain ⟨d, hd, rfl⟩ := ha
  have hbound := hd.normal.trimmed.bound
  have hval : digit d 0 = seg d 0 a.used := by
    rw [hused, seg_succ, seg_zero, pow_zero, mul_one, zero_add]
  have hload : digitwise (load d 0) w = .ok (seg d 0 a.used, w) := by
    rw [load_eq (by omega), hval]
    rfl
  rw [run_bind (readDigits_eq hd.digits), run_bind hload, natAbs_signed]

lemma onlyDigit_spec {f : ℕ → Exec α} {P : α → World → Prop} (ha : Denotes w a x)
    (hused : a.used = 1) (hf : Returns (f x.natAbs) w P) :
    Returns (do
      let digits ← readDigits a.digits
      let d ← digitwise (load digits 0)
      f d) w P := by
  rw [Returns, onlyDigit_run ha hused]
  exact hf

lemma toInt_spec (ha : Denotes w a x) (hlow : minInt ≤ x) (hhigh : x ≤ maxInt) :
    Returns (toInt a) w fun v w' => w' = w ∧ v = x := by
  have hle := ha.pow_le
  have hzero := ha.used_eq_zero_iff
  obtain ⟨d, hd, hx⟩ := ha
  have hbound := hd.normal.trimmed.bound
  unfold minInt at hlow
  unfold maxInt at hhigh
  rw [toInt]
  split
  · rename_i hused
    exact Returns.pure ⟨rfl, (hzero.mp hused).symm⟩
  · rename_i hused
    refine Returns.readDigits hd.digits (Returns.digitwise (load_eq (by omega)) ?_)
    split
    · rename_i hone
      refine Returns.pure ⟨rfl, ?_⟩
      rw [hx, hone, seg_succ, seg_zero, pow_zero, mul_one, zero_add, signed]
    · rename_i hone
      refine Returns.digitwise (load_eq (by omega)) ?_
      have hthree : a.used = 2 := by
        by_contra htwo
        have hmono : digitBase ^ 2 ≤ digitBase ^ (a.used - 1) :=
          Nat.pow_le_pow_right digitBase_pos (by omega)
        unfold digitBase at *
        omega
      have hval : seg d 0 a.used = digit d 0 + digit d 1 * digitBase := by
        rw [hthree, seg_succ, seg_succ, seg_zero, pow_zero, mul_one, zero_add, pow_one]
      rw [hval] at hx
      have hlt := digit_lt d 0
      split
      · rename_i hhigh'
        have hor : digit d 1 <<< digitBits ||| digit d 0 = digit d 0 + digit d 1 * digitBase := by
          rw [← shiftLeft_add_eq_or_of_lt hlt, shiftLeft_eq]
          exact add_comm _ _
        refine Returns.pure ⟨rfl, ?_⟩
        rw [hor, hx, signed]
      · rename_i hhigh'
        refine Returns.pure ⟨rfl, ?_⟩
        rw [signed] at hx
        unfold digitBase at hx
        unfold minInt maxInt
        cases hsign : a.isNegative <;> simp only [hsign, if_true, if_false,
          Bool.false_eq_true] at hx ⊢ <;>
          omega

lemma toRadixCodeUnit_eq (d : ℕ) : toRadixCodeUnit d = (unit d : ℕ) := by
  rw [toRadixCodeUnit, unit]
  split_ifs <;> push_cast <;> omega

lemma fromCharCodes_spec {l : CodeUnits} (h : ∀ c ∈ l, c ≤ 0xffff) :
    fromCharCodes (l.map fun c : ℕ => (c : ℤ)) = pure l := by
  have hrange : ∀ c ∈ l.map fun c : ℕ => (c : ℤ), 0 ≤ c ∧ c ≤ 0x10ffff := by
    intro c hc
    obtain ⟨d, hd, rfl⟩ := mem_map.mp hc
    have := h d hd
    omega
  rw [fromCharCodes, if_pos hrange, flatMap_map]
  congr 1
  calc l.flatMap (fun c : ℕ => fromCharCode (c : ℤ).toNat) = l.flatMap fun c => [c] :=
        flatMap_congr fun c hc => by rw [Int.toNat_natCast, fromCharCode, if_pos (h c hc)]
    _ = l := flatMap_singleton' l

variable {n radix : ℕ}

lemma unit_lt {c : ℕ} (hr : 1 < radix) (hle : radix ≤ 36) (hc : c ∈ text radix n) :
    c ≤ 0xffff := by
  obtain ⟨d, hd, rfl⟩ := mem_map.mp hc
  have := lt_of_mem_numeral hr hd
  rw [unit]
  split <;> omega

/-- The code units of the digits, the last one first. -/
def reversedUnits (radix n : ℕ) : List ℤ := (Nat.digits radix n).map fun d => ((unit d : ℕ) : ℤ)

lemma reverse_reversedUnits (hn : n ≠ 0) :
    (reversedUnits radix n).reverse = (text radix n).map fun c : ℕ => (c : ℤ) := by
  rw [reversedUnits, text, numeral, if_neg hn, map_reverse, map_reverse, map_map]
  rfl

lemma radixLoop_spec (hr : 1 < radix) (hle : radix ≤ 36) (fuel : ℕ)
    (hw : Consistent w) (ha : Denotes w a n) (hb : Denotes w b radix) (hfuel : n < fuel)
    (l : List ℤ) :
    Returns (radixLoop mode b fuel a l) w fun r w' => Grows w w' ∧
      r = l ++ reversedUnits radix n := by
  induction fuel generalizing w a n l with
  | zero => omega
  | succ fuel ih =>
    rw [radixLoop]
    split
    · rename_i hused
      have hn : n = 0 := by exact_mod_cast ha.used_eq_zero_iff.mp hused
      refine Returns.pure ⟨.refl hw, ?_⟩
      rw [hn, reversedUnits, digits_zero, map_nil, append_nil]
    · rename_i hused
      have hn : n ≠ 0 := fun hzero => hused (ha.used_eq_zero_iff.mpr (by exact_mod_cast hzero))
      have hradix : (radix : ℤ) ≠ 0 := by omega
      have hrem : (n : ℤ) - radix * (n : ℤ).tdiv radix = (n % radix : ℕ) := by
        rw [← Int.ofNat_tdiv]
        have := div_add_mod n radix
        omega
      refine Returns.bind (remainder_spec hw ha hb hradix) ?_
      rintro last w1 ⟨hw1, hlast⟩
      rw [hrem] at hlast
      have hlt := mod_lt n (show 0 < radix by omega)
      refine Returns.bind (toInt_spec hlast (by unfold minInt; omega) (by unfold maxInt; omega)) ?_
      rintro _ _ ⟨rfl, rfl⟩
      refine Returns.bind (quotient_spec hw1.consistent (ha.grows hw1) (hb.grows hw1) hradix) ?_
      rintro rest w2 ⟨hw2, hrest⟩
      have hdiv := Nat.div_lt_self (Nat.pos_of_ne_zero hn) hr
      refine (ih hw2.consistent hrest ((hb.grows hw1).grows hw2) (by omega) _).mono ?_
      rintro r w3 ⟨hw3, rfl⟩
      refine ⟨(hw1.trans hw2).trans hw3, ?_⟩
      rw [toRadixCodeUnit_eq, reversedUnits, reversedUnits, digits_def' hr (Nat.pos_of_ne_zero hn),
        map_cons, append_assoc, singleton_append]

lemma hexChunk_eq (k n : ℕ) :
    hexChunk k n = ((padded 16 k n).map unit).reverse.map fun c : ℕ => (c : ℤ) := by
  induction k generalizing n with
  | zero => rfl
  | succ k ih =>
    have hmask : n &&& 0xF = n % 16 := and_two_pow_sub_one_eq_mod n 4
    have hshift : n >>> 4 = n / 16 := shiftRight_eq_div_pow n 4
    rw [hexChunk, ih, padded, hmask, hshift, toRadixCodeUnit_eq, map_append, reverse_append]
    rfl

lemma topChunk_eq (hn : n ≠ 0) : topChunk n = (text 16 n).reverse.map fun c : ℕ => (c : ℤ) := by
  induction n using Nat.strong_induction_on with
  | _ n ih =>
    have hmask : n &&& 0xF = n % 16 := Nat.and_two_pow_sub_one_eq_mod n 4
    have hshift : n >>> 4 = n / 16 := Nat.shiftRight_eq_div_pow n 4
    rw [topChunk, if_neg hn, hmask, hshift, toRadixCodeUnit_eq]
    by_cases hlt : n < 16
    · rw [div_eq_of_lt hlt, topChunk, if_pos rfl, mod_eq_of_lt hlt, text_of_lt hlt]
      rfl
    · rw [ih _ (by omega) (by omega), text_of_le (n := n) (by decide) (by omega), reverse_append]
      rfl

section

variable (hw : Consistent w) (ha : Denotes w a x)

include hw ha

lemma toHexString_spec (hused : 0 < a.used) :
    Returns (toHexString a) w fun s w' =>
      Grows w w' ∧ s = signText a.isNegative ++ text 16 x.natAbs := by
  obtain ⟨d, hd, rfl⟩ := ha
  rw [natAbs_signed]
  have hbound := hd.normal.trimmed.bound
  have htop := hd.normal.trimmed.top hused
  obtain ⟨k, hk⟩ : ∃ k, a.used = k + 1 := ⟨a.used - 1, by omega⟩
  rw [hk, Nat.add_sub_cancel] at htop
  have hloop := forUp_spec (fun i chars => do
      let chunk ← load d i
      .ok (chars ++ hexChunk 8 chunk))
    (fun i chars => chars = ((padded 16 (8 * i) (seg d 0 i)).map unit).reverse.map
      fun c : ℕ => (c : ℤ)) k (s := []) rfl ?_
  · obtain ⟨chars, hchars, rfl⟩ := hloop
    refine Returns.readDigits hd.digits ?_
    rw [hk, Nat.add_sub_cancel]
    refine Returns.digitwise hchars (Returns.digitwise (load_eq (by omega)) ?_)
    have hpow : digitBase ^ k = 16 ^ (8 * k) := by
      rw [pow_mul]
      rfl
    have hlt := seg_lt d 0 k
    rw [hpow] at hlt
    have htext : text 16 (seg d 0 (k + 1)) = text 16 (digit d k) ++
        (padded 16 (8 * k) (seg d 0 k)).map unit := by
      rw [seg_succ, zero_add, hpow, add_comm, text,
        numeral_padded (by decide) (Nat.pos_of_ne_zero htop) _ hlt, map_append]
      rfl
    have hchars : (if a.isNegative then
        ((padded 16 (8 * k) (seg d 0 k)).map unit).reverse.map (fun c : ℕ => (c : ℤ)) ++
          topChunk (digit d k) ++ [45]
        else ((padded 16 (8 * k) (seg d 0 k)).map unit).reverse.map (fun c : ℕ => (c : ℤ)) ++
          topChunk (digit d k)).reverse =
        (signText a.isNegative ++ text 16 (seg d 0 (k + 1))).map fun c : ℕ => (c : ℤ) := by
      rw [topChunk_eq htop, htext]
      cases a.isNegative <;> simp [signText]
    dsimp only
    rw [hchars, fromCharCodes_spec]
    · exact Returns.pure ⟨.refl hw, rfl⟩
    · intro c hc
      rcases mem_append.mp hc with hc | hc
      · rw [signText] at hc
        split at hc
        · rw [mem_singleton.mp hc]
          decide
        · exact absurd hc not_mem_nil
      · exact unit_lt (by decide) (by decide) hc
  · rintro i hi _ rfl
    refine ⟨_, by rw [load_eq (by omega), ok_bind], ?_⟩
    have hpow : digitBase ^ i = 16 ^ (8 * i) := by
      rw [pow_mul]
      rfl
    have hlt := seg_lt d 0 i
    rw [hpow] at hlt
    rw [hexChunk_eq, seg_succ, zero_add, hpow, add_comm (seg d 0 i),
      Nat.mul_add_one, add_comm (8 * i), padded_append (by decide) 8 hlt, map_append,
      reverse_append, map_append]

omit hw ha in
lemma zeroChunks_eq (k : ℕ) (hk : k < 9) :
    (zeroChunks k).reverse.flatten = List.replicate k 48 := by
  revert k
  decide +kernel

/-- Numbers of at most one digit. -/
lemma toString_small (hused : a.used ≤ 1) (fuel : ℕ) :
    Returns (toString mode (fuel + 1) a) w fun s w' =>
      Grows w w' ∧ s = signText (decide (x < 0)) ++ text 10 x.natAbs := by
  rw [toString]
  split
  · rename_i hzero
    have hx := ha.used_eq_zero_iff.mp hzero
    refine Returns.pure ⟨.refl hw, ?_⟩
    rw [hx, Int.natAbs_zero, text_of_lt (by decide)]
    rfl
  · rename_i hzero
    have hone : a.used = 1 := by omega
    have hval : (if a.isNegative then -(x.natAbs : ℤ) else x.natAbs) = x := ha.signed_eq
    rw [if_pos hone]
    refine onlyDigit_spec ha hone ?_
    rw [hval]
    exact Returns.lift (Integers.toString_spec x) ⟨.refl hw, rfl⟩

omit hw ha in
lemma text_part (hn : 1000000000 ≤ n) :
    text 10 (n / 1000000000) ++ (text 10 (n % 1000000000) ::
      zeroChunks (9 - (text 10 (n % 1000000000)).length)).reverse.flatten = text 10 n := by
  have hlt : n % 10 ^ 9 < 10 ^ 9 := mod_lt n (by decide)
  have hpos := length_pos_of_ne_nil (numeral_ne_nil (b := 10) (by decide) (n % 10 ^ 9))
  have hzeros := zeroChunks_eq (9 - (numeral 10 (n % 10 ^ 9)).length) (by omega)
  have hpadded := congrArg (List.map unit)
    (replicate_append_numeral (b := 10) (by decide) (by decide) hlt)
  rw [map_append, map_replicate] at hpadded
  have hsplit := congrArg (List.map unit) (numeral_padded (b := 10) (m := n / 10 ^ 9) (by decide)
    (by omega) 9 hlt)
  rw [div_add_mod', map_append, ← hpadded] at hsplit
  have hlen : (text 10 (n % 1000000000)).length = (numeral 10 (n % 10 ^ 9)).length :=
    length_map _
  rw [reverse_cons, flatten_append, hlen]
  refine Eq.trans ?_ hsplit.symm
  rw [hzeros, flatten_singleton]
  rfl

omit hw ha in
lemma decimalChunks_spec (fuel : ℕ) (hw : Consistent w) (ha : Denotes w a n)
    (hn : n ≠ 0) (hfuel : n < fuel) (chunks : List CodeUnits) :
    Returns (decimalChunks mode fuel a chunks) w fun r w' => Grows w w' ∧
      ∃ m : ℕ, Denotes w' r.2 m ∧ r.2.used = 1 ∧
        text 10 m ++ r.1.reverse.flatten = text 10 n ++ chunks.reverse.flatten := by
  induction fuel generalizing w a n chunks with
  | zero => omega
  | succ fuel ih =>
    have hpos : a.used ≠ 0 := fun h => hn (by exact_mod_cast ha.used_eq_zero_iff.mp h)
    rw [decimalChunks]
    split_ifs with hused
    · have hle : digitBase ≤ n := by
        have hpow := ha.pow_le (by omega)
        have hone : digitBase ^ 1 ≤ digitBase ^ (a.used - 1) :=
          Nat.pow_le_pow_right digitBase_pos (by omega)
        rw [pow_one] at hone
        omega
      unfold digitBase at hle
      have hrem : (n : ℤ) - 1000000000 * (n : ℤ).tdiv 1000000000 = (n % 1000000000 : ℕ) := by
        have hdiv : (n : ℤ).tdiv 1000000000 = (n / 1000000000 : ℕ) := (Int.ofNat_tdiv ..).symm
        omega
      refine Returns.bind (remainder_spec hw ha (oneBillion_denotes hw) (by decide)) ?_
      rintro last w1 ⟨hw1, hlast⟩
      rw [hrem] at hlast
      have hsmall : last.used ≤ 1 := by
        by_contra hlarge
        have hpow := hlast.pow_le (by omega)
        have hone : digitBase ^ 1 ≤ digitBase ^ (last.used - 1) :=
          Nat.pow_le_pow_right digitBase_pos (by omega)
        unfold digitBase at hpow hone
        omega
      obtain ⟨f, rfl⟩ : ∃ f, fuel = f + 1 := ⟨fuel - 1, by omega⟩
      refine Returns.bind (toString_small hw1.consistent hlast hsmall f) ?_
      rintro _ w2 ⟨hw2, rfl⟩
      refine Returns.bind (quotient_spec hw2.consistent ((ha.grows hw1).grows hw2)
        (oneBillion_denotes hw2.consistent) (by decide)) ?_
      rintro rest w3 ⟨hw3, hrest⟩
      rw [show (n : ℤ).tdiv 1000000000 =
        (n / 1000000000 : ℕ) from (Int.ofNat_tdiv ..).symm] at hrest
      refine (ih hw3.consistent hrest (by omega) (by omega) _).mono ?_
      rintro r w4 ⟨hw4, m, hm, hone, htext⟩
      refine ⟨((hw1.trans hw2).trans hw3).trans hw4, m, hm, hone, htext.trans ?_⟩
      have hpart := text_part (n := n) (by omega)
      have hnn : signText (decide (((n % 1000000000 : ℕ) : ℤ) < 0)) = [] := by
        rfl
      rw [hnn, nil_append, Int.natAbs_natCast, reverse_append, flatten_append,
        ← append_assoc, hpart]
    · have hone : a.used = 1 := by omega
      exact Returns.pure ⟨.refl hw, n, ha, hone, rfl⟩

lemma toString_spec {fuel : ℕ} (hfuel : x.natAbs + 1 < fuel) :
    Returns (toString mode fuel a) w fun s w' =>
      Grows w w' ∧ s = signText (decide (x < 0)) ++ text 10 x.natAbs := by
  obtain ⟨fuel, rfl⟩ : ∃ f, fuel = f + 1 := ⟨fuel - 1, by omega⟩
  by_cases hused : a.used ≤ 1
  · exact toString_small hw ha hused fuel
  · have hsign : a.isNegative = decide (x < 0) := by
      rw [Bool.eq_iff_iff, ha.isNegative_iff, decide_eq_true_iff]
    have hx : x ≠ 0 := fun h => by
      have := ha.used_eq_zero_iff.mpr h
      omega
    rw [toString, if_neg (by omega), if_neg (by omega)]
    have habs : Yields (negateIf a.isNegative a) w (x.natAbs : ℕ) := by
      have h := abs_spec hw ha
      rw [Int.abs_eq_natAbs] at h
      exact h
    refine Returns.bind habs ?_
    rintro rest w1 ⟨hw1, hrest⟩
    refine Returns.bind (decimalChunks_spec fuel hw1.consistent hrest (Int.natAbs_ne_zero.mpr hx)
      (by omega) []) ?_
    rintro ⟨chunks, top⟩ w2 ⟨hw2, m, hm, hone, htext⟩
    refine onlyDigit_spec hm hone (Returns.digitwise (Integers.toString_spec _) ?_)
    refine Returns.pure ⟨hw1.trans hw2, ?_⟩
    have hnn : signText (decide (((m : ℤ).natAbs : ℤ) < 0)) = [] := by
      rfl
    rw [hnn, nil_append, Int.natAbs_natCast, Int.natAbs_natCast, hsign]
    cases decide (x < 0) with
    | true =>
      rw [if_pos rfl, reverse_append, reverse_append, show codeUnits "-" = [45] from rfl]
      simpa [signText] using htext
    | false =>
      simpa [signText] using htext

omit hw ha in
lemma lift_spec {β : Type} {f : α → Exec β} {r : Except Error α} {v : α} {P : β → World → Prop}
    (hr : r = .ok v) (h : Returns (f v) w P) : Returns (lift id r >>= f) w P := by
  subst hr
  exact h

lemma toRadixString_spec {radix : ℤ} (hle : 2 ≤ radix) (hge : radix ≤ 36) {fuel : ℕ}
    (hfuel : x.natAbs < fuel) :
    Returns (toRadixString mode fuel a radix) w fun s w' =>
      Grows w w' ∧ s = signText (decide (x < 0)) ++ text radix.toNat x.natAbs := by
  have hsign : a.isNegative = decide (x < 0) := by
    rw [Bool.eq_iff_iff, ha.isNegative_iff, decide_eq_true_iff]
  have hprepend : ∀ t : CodeUnits, (if a.isNegative then codeUnits "-" ++ t else t) =
      signText (decide (x < 0)) ++ t := by
    intro t
    rw [hsign, signText]
    split <;> rfl
  rw [toRadixString, if_neg (by omega)]
  split
  · rename_i hzero
    have hx := ha.used_eq_zero_iff.mp hzero
    refine Returns.pure ⟨.refl hw, ?_⟩
    rw [hx, Int.natAbs_zero, text_of_lt (by omega)]
    rfl
  · rename_i hzero
    split
    · rename_i hone
      refine onlyDigit_spec ha hone (lift_spec (Integers.toRadixString_spec _ hle hge) ?_)
      exact Returns.pure ⟨.refl hw, hprepend _⟩
    · rename_i hone
      split
      · rename_i hsixteen
        rw [hsixteen, ← hsign]
        exact toHexString_spec hw ha (by omega)
      · have hne : x.natAbs ≠ 0 := fun h =>
          hzero (ha.used_eq_zero_iff.mpr (Int.natAbs_eq_zero.mp h))
        have hcast : radix = (radix.toNat : ℤ) := (Int.toNat_of_nonneg (by omega)).symm
        refine Returns.bind (fromInt_spec hw (x := radix) (by unfold minInt; omega)
          (by unfold maxInt; omega)) ?_
        rintro base w1 ⟨hw1, hbase⟩
        refine Returns.bind (abs_spec hw1.consistent (ha.grows hw1)) ?_
        rintro rest w2 ⟨hw2, hrest⟩
        rw [Int.abs_eq_natAbs] at hrest
        rw [hcast] at hbase
        refine Returns.bind (radixLoop_spec (by omega) (by omega) fuel hw2.consistent hrest
          (hbase.grows hw2) hfuel []) ?_
        rintro _ w3 ⟨hw3, rfl⟩
        rw [nil_append, reverse_reversedUnits hne,
          fromCharCodes_spec fun c hc => unit_lt (by omega) (by omega) hc]
        exact Returns.pure ⟨(hw1.trans hw2).trans hw3, hprepend _⟩

end

end

open Checked Executions Integers DigitStrings List

variable {w : World} {a b : BigIntImpl} {x y : ℤ} {mode : Mode}

lemma digitValue_unit (d : ℕ) (hd : d < 36) : digitValue (unit d) = d := by
  revert d
  decide +kernel

lemma number_text {radix : ℕ} (hr : 1 < radix) (hle : radix ≤ 36) (n : ℕ) :
    Valid radix (text radix n) ∧ number radix (text radix n) = n := by
  have hdigs : ∀ d ∈ numeral radix n, digitValue (unit d) = d ∧ d < radix := fun d hd =>
    have hlt := lt_of_mem_numeral hr hd
    ⟨digitValue_unit d (by omega), hlt⟩
  constructor
  · intro c hc
    obtain ⟨d, hd, rfl⟩ := mem_map.mp hc
    obtain ⟨hval, hlt⟩ := hdigs d hd
    rwa [hval]
  · have hmap : (text radix n).map digitValue = numeral radix n := by
      rw [text, map_map]
      exact (map_congr_left fun d hd => (hdigs d hd).1).trans (map_id _)
    rw [number, hmap, value_numeral hr]

lemma numeral_text {radix : ℕ} (hr : 1 < radix) (hle : radix ≤ 36) (x : ℤ) :
    Numeral [] radix (signText (decide (x < 0)) ++ text radix x.natAbs) x := by
  obtain ⟨hok, hnumber⟩ := number_text hr hle x.natAbs
  refine ⟨[], signText (decide (x < 0)), text radix x.natAbs, [], ?_, rfl, rfl, ?_, ?_, hok, ?_⟩
  · simp
  · cases decide (x < 0) with
    | true => exact .inr (.inr rfl)
    | false => exact .inl rfl
  · rw [text, ne_eq, map_eq_nil_iff]
    exact numeral_ne_nil hr _
  · rw [hnumber]
    by_cases hx : x < 0
    · rw [decide_eq_true hx, signText, if_pos rfl, decide_eq_true rfl, signed, if_pos rfl]
      omega
    · rw [decide_eq_false hx, signText, if_neg Bool.false_ne_true, decide_eq_false (by decide),
        signed, if_neg Bool.false_ne_true]
      omega

lemma radixLoop_ne_rangeError (fuel : ℕ) (hw : Consistent w) (ha : Denotes w a x)
    (hb : Denotes w b y) (hlow : minInt ≤ y) (hhigh : y ≤ maxInt) (l : List ℤ) :
    radixLoop mode b fuel a l w ≠ .error .rangeError := by
  induction fuel generalizing w a x l with
  | zero =>
    intro h
    cases h
  | succ fuel ih =>
    rw [radixLoop]
    split
    · intro h
      cases h
    · by_cases hy : y = 0
      · have hthrow : remainder mode a b = throw .integerDivisionByZero :=
          if_pos (hb.used_eq_zero_iff.mpr hy)
        rw [hthrow]
        intro h
        cases h
      · obtain ⟨last, w1, hlast, hw1, hval⟩ := @remainder_spec _ _ _ _ _ mode hw ha hb hy
        have hbound : (x - y * x.tdiv y).natAbs < y.natAbs := by
          rw [← Int.tmod_def, Int.natAbs_tmod]
          exact Nat.mod_lt _ (Int.natAbs_pos.mpr hy)
        unfold minInt at hlow
        unfold maxInt at hhigh
        obtain ⟨_, _, hdigit, rfl, rfl⟩ := toInt_spec hval (by unfold minInt; omega)
          (by unfold maxInt; omega)
        obtain ⟨rest, w2, hrest, hw2, hquot⟩ := @quotient_spec _ _ _ _ _ mode hw1.consistent
          (ha.grows hw1) (hb.grows hw1) hy
        rw [run_bind hlast, run_bind hdigit, run_bind hrest]
        exact ih hw2.consistent hquot ((hb.grows hw1).grows hw2) _

section

variable (hw : Consistent w) (ha : Denotes w a x)

include hw ha

lemma toRadixString_ne_rangeError {radix : ℤ} (hlow : minInt ≤ radix) (hhigh : radix < 2)
    (hused : a.used ≠ 1) (fuel : ℕ) : toRadixString mode fuel a radix w ≠ .error .rangeError := by
  rw [toRadixString, if_neg (by omega)]
  by_cases hzero : a.used = 0
  · rw [if_pos hzero]
    intro h
    cases h
  · rw [if_neg hzero, if_neg hused, if_neg (by omega)]
    obtain ⟨base, w1, hbase, hw1, hradix⟩ := fromInt_spec hw hlow (by unfold maxInt; omega)
    obtain ⟨rest, w2, hrest, hw2, hx⟩ := abs_spec hw1.consistent (ha.grows hw1)
    rw [run_bind hbase, run_bind hrest]
    have hloop := @radixLoop_ne_rangeError _ _ _ _ _ mode fuel hw2.consistent hx
      (hradix.grows hw2) hlow (by unfold maxInt; omega) []
    cases hres : radixLoop mode base fuel rest [] w2 with
    | error e =>
      rw [hres] at hloop
      rw [run_bind_error hres]
      intro h
      cases h
      exact hloop rfl
    | ok r =>
      rw [run_bind hres, fromCharCodes]
      split <;> intro h <;> cases h

omit hw ha in
/-- Dividing by one does not end. -/
lemma radixLoop_one_diverges (fuel : ℕ) (hw : Consistent w) (ha : Denotes w a x) (hx : x ≠ 0)
    (hb : Denotes w b 1) (l : List ℤ) :
    radixLoop mode b fuel a l w = .error (.failure .diverges) := by
  induction fuel generalizing w a l with
  | zero => rfl
  | succ fuel ih =>
    have hused : a.used ≠ 0 := fun h => hx (ha.used_eq_zero_iff.mp h)
    obtain ⟨last, w1, hlast, hw1, hval⟩ := @remainder_spec _ _ _ _ _ mode hw ha hb one_ne_zero
    rw [Int.tdiv_one, one_mul, sub_self] at hval
    obtain ⟨_, _, hdigit, rfl, rfl⟩ := toInt_spec hval (by decide) (by decide)
    obtain ⟨rest, w2, hrest, hw2, hquot⟩ := @quotient_spec _ _ _ _ _ mode hw1.consistent
      (ha.grows hw1) (hb.grows hw1) one_ne_zero
    rw [Int.tdiv_one] at hquot
    rw [radixLoop, if_neg hused, run_bind hlast, run_bind hdigit, run_bind hrest]
    exact ih hw2.consistent hquot ((hb.grows hw1).grows hw2) _

lemma toRadixString_one_diverges (hused : 1 < a.used) (fuel : ℕ) :
    toRadixString mode fuel a 1 w = .error (.failure .diverges) := by
  have hx : x ≠ 0 := fun h => by
    have := ha.used_eq_zero_iff.mpr h
    omega
  obtain ⟨base, w1, hbase, hw1, hone⟩ := fromInt_spec hw (x := 1) (by decide) (by decide)
  obtain ⟨rest, w2, hrest, hw2, habs⟩ := abs_spec hw1.consistent (ha.grows hw1)
  rw [toRadixString, if_neg (by decide), if_neg (by omega), if_neg (by omega), if_neg (by decide),
    run_bind hbase, run_bind hrest, run_bind_error (radixLoop_one_diverges fuel hw2.consistent habs
      (abs_ne_zero.mpr hx) (hone.grows hw2) [])]

/-- `toRadixString` ends, with a string that is read back or with a `RangeError`. -/
def Converts (mode : Mode) (w : World) (a : BigIntImpl) (x radix : ℤ) : Prop :=
  if 2 ≤ radix ∧ radix ≤ 36 then
    ∃ fuel, Returns (toRadixString mode fuel a radix) w fun s w' => Grows w w' ∧
      Returns (parse mode s (some radix)) w' fun b w'' => Grows w' w'' ∧ Denotes w'' b x
  else ∃ fuel, toRadixString mode fuel a radix w = .error .rangeError

/-- The conversion is right exactly for the radices from 2 on and for the numbers of one digit. -/
lemma converts_iff {radix : ℤ} (hlow : minInt ≤ radix) :
    Converts mode w a x radix ↔ 2 ≤ radix ∨ x ≠ 0 ∧ x.natAbs < 2 ^ 32 := by
  rw [Converts]
  split_ifs with hrange
  · refine iff_of_true ?_ (.inl hrange.1)
    refine ⟨x.natAbs + 1, (toRadixString_spec hw ha hrange.1 hrange.2 (Nat.lt_succ_self _)).mono ?_⟩
    rintro s w' ⟨hw', rfl⟩
    exact ⟨hw', parse_spec hw'.consistent ⟨hrange.1, hrange.2,
      numeral_text (by omega) (by omega) x⟩⟩
  · constructor
    · rintro ⟨fuel, herror⟩
      by_contra hnot
      rw [not_or] at hnot
      have hused : a.used ≠ 1 := fun h => hnot.2 (ha.used_eq_one_iff.mp h)
      exact toRadixString_ne_rangeError hw ha hlow (by omega) hused fuel herror
    · intro hcondition
      refine ⟨0, ?_⟩
      rw [toRadixString]
      by_cases hlarge : 36 < radix
      · rw [if_pos hlarge]
        rfl
      · have hone := ha.used_eq_one_iff.mpr (hcondition.resolve_left (by omega))
        rw [if_neg hlarge, if_neg (by omega), if_pos hone]
        rw [onlyDigit_run ha hone, Integers.toRadixString, if_pos (.inl (by omega))]
        rfl

end

/-- What text conversion guarantees. Reading is right for every string, and printing for every
radix from 2 on. -/
theorem text_conversion (hw : Consistent w) (ha : Denotes w a x) :
    (∀ radix, minInt ≤ radix → radix ≤ maxInt →
      (Converts mode w a x radix ↔ 2 ≤ radix ∨ x ≠ 0 ∧ x.natAbs < 2 ^ 32)) ∧
    (∃ fuel, Returns (toString mode fuel a) w fun s w' => Grows w w' ∧
      Returns (parse mode s none) w' fun b w'' => Grows w' w'' ∧ Denotes w'' b x) ∧
    ∀ radix source,
      (∀ n, Parsable radix source n →
        Returns (parse mode source radix) w fun b w' => Grows w w' ∧ Denotes w' b n) ∧
      ((∀ n, ¬Parsable radix source n) →
        parse mode source radix w = .error .formatException ∨
          (∃ r, radix = some r ∧ (r < 2 ∨ 36 < r)) ∧
            parse mode source radix w = .error (.error .rangeError)) := by
  refine ⟨fun radix hlow _ => converts_iff hw ha hlow, ?_, fun radix source =>
    ⟨fun n h => parse_spec hw h, fun h => ?_⟩⟩
  · refine ⟨x.natAbs + 2, (toString_spec hw ha (Nat.lt_succ_self _)).mono ?_⟩
    rintro s w' ⟨hw', rfl⟩
    exact ⟨hw', parse_spec hw'.consistent (.inl (numeral_text (by decide) (by decide) x))⟩
  · by_cases hradix : ∃ r, radix = some r ∧ (r < 2 ∨ 36 < r)
    · obtain ⟨r, rfl, hr⟩ := hradix
      rcases parse_radix_out_of_range hr source with herror | herror
      · exact .inl herror
      · exact .inr ⟨⟨r, rfl, hr⟩, herror⟩
    · refine .inl (parse_refuses hw (fun r hr => ?_) h)
      by_contra hnot
      exact hradix ⟨r, hr, by omega⟩

theorem text_conversion_billion :
    Converts .pair initial oneBillion 1000000000 36 ∧
      Converts .digit initial oneBillion 1000000000 1 :=
  ⟨((text_conversion initial_consistent (oneBillion_denotes initial_consistent)).1 36 (by decide)
      (by decide)).mpr (.inl (by decide)),
    ((text_conversion initial_consistent (oneBillion_denotes initial_consistent)).1 1 (by decide)
      (by decide)).mpr (.inr (by decide))⟩

/-- A world with the number 2 ^ 32. -/
def twoDigitWorld : World := { initial with heap := initial.heap ++ [[0, 1]] }

def twoDigitNumber : BigIntImpl := ⟨false, 2, 3⟩

/-- In the radix 1, zero is printed and a number of two digits is printed forever. -/
theorem radix_one_not_refused :
    toRadixString .digit 1 zero 1 initial = .ok ([48], initial) ∧
      ∀ fuel, toRadixString .digit fuel twoDigitNumber 1 twoDigitWorld =
        .error (.failure .diverges) := by
  refine ⟨rfl, fun fuel => toRadixString_one_diverges (x := 2 ^ 32)
    (newArray_grows initial_consistent [0, 1]).consistent ?_ (by decide) fuel⟩
  exact ⟨[0, 1], ⟨rfl, ⟨⟨by decide, by decide⟩, rfl, by decide⟩, by decide⟩, by decide⟩

end DartSdk.BigInts
