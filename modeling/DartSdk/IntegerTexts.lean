import DartSdk.BigIntSums

/-!
`toString` of small integers and `toRadixString` of nonnegative ones, from
runtime/lib/integers.dart. A string is the list of its code units, and a one byte string is
filled from its end.
-/

namespace DartSdk.Integers

open Checked DigitStrings List Nat

abbrev CodeUnits := List ℕ

def codeUnits (s : String) : CodeUnits := s.toList.map Char.toNat

def setAt (s : CodeUnits) (i : ℤ) (c : ℕ) : Result CodeUnits :=
  if 0 ≤ i ∧ i < s.length then .ok (s.set i.toNat c) else .error .outOfBounds

def codeUnitAt (s : CodeUnits) (i : ℤ) : Result ℕ :=
  if 0 ≤ i ∧ i < s.length then .ok (s.getD i.toNat 0) else .error .outOfBounds

def digitTable : CodeUnits := [
  0x30, 0x30, 0x30, 0x31, 0x30, 0x32, 0x30, 0x33, 0x30, 0x34, 0x30, 0x35, 0x30, 0x36, 0x30, 0x37,
  0x30, 0x38, 0x30, 0x39, 0x31, 0x30, 0x31, 0x31, 0x31, 0x32, 0x31, 0x33, 0x31, 0x34, 0x31, 0x35,
  0x31, 0x36, 0x31, 0x37, 0x31, 0x38, 0x31, 0x39, 0x32, 0x30, 0x32, 0x31, 0x32, 0x32, 0x32, 0x33,
  0x32, 0x34, 0x32, 0x35, 0x32, 0x36, 0x32, 0x37, 0x32, 0x38, 0x32, 0x39, 0x33, 0x30, 0x33, 0x31,
  0x33, 0x32, 0x33, 0x33, 0x33, 0x34, 0x33, 0x35, 0x33, 0x36, 0x33, 0x37, 0x33, 0x38, 0x33, 0x39,
  0x34, 0x30, 0x34, 0x31, 0x34, 0x32, 0x34, 0x33, 0x34, 0x34, 0x34, 0x35, 0x34, 0x36, 0x34, 0x37,
  0x34, 0x38, 0x34, 0x39, 0x35, 0x30, 0x35, 0x31, 0x35, 0x32, 0x35, 0x33, 0x35, 0x34, 0x35, 0x35,
  0x35, 0x36, 0x35, 0x37, 0x35, 0x38, 0x35, 0x39, 0x36, 0x30, 0x36, 0x31, 0x36, 0x32, 0x36, 0x33,
  0x36, 0x34, 0x36, 0x35, 0x36, 0x36, 0x36, 0x37, 0x36, 0x38, 0x36, 0x39, 0x37, 0x30, 0x37, 0x31,
  0x37, 0x32, 0x37, 0x33, 0x37, 0x34, 0x37, 0x35, 0x37, 0x36, 0x37, 0x37, 0x37, 0x38, 0x37, 0x39,
  0x38, 0x30, 0x38, 0x31, 0x38, 0x32, 0x38, 0x33, 0x38, 0x34, 0x38, 0x35, 0x38, 0x36, 0x38, 0x37,
  0x38, 0x38, 0x38, 0x39, 0x39, 0x30, 0x39, 0x31, 0x39, 0x32, 0x39, 0x33, 0x39, 0x34, 0x39, 0x35,
  0x39, 0x36, 0x39, 0x37, 0x39, 0x38, 0x39, 0x39]

def smallLookupTable : List String := [
  "-99", "-98", "-97", "-96", "-95", "-94", "-93", "-92", "-91", "-90",
  "-89", "-88", "-87", "-86", "-85", "-84", "-83", "-82", "-81", "-80",
  "-79", "-78", "-77", "-76", "-75", "-74", "-73", "-72", "-71", "-70",
  "-69", "-68", "-67", "-66", "-65", "-64", "-63", "-62", "-61", "-60",
  "-59", "-58", "-57", "-56", "-55", "-54", "-53", "-52", "-51", "-50",
  "-49", "-48", "-47", "-46", "-45", "-44", "-43", "-42", "-41", "-40",
  "-39", "-38", "-37", "-36", "-35", "-34", "-33", "-32", "-31", "-30",
  "-29", "-28", "-27", "-26", "-25", "-24", "-23", "-22", "-21", "-20",
  "-19", "-18", "-17", "-16", "-15", "-14", "-13", "-12", "-11", "-10",
  "-9", "-8", "-7", "-6", "-5", "-4", "-3", "-2", "-1", "0",
  "1", "2", "3", "4", "5", "6", "7", "8", "9", "10",
  "11", "12", "13", "14", "15", "16", "17", "18", "19", "20",
  "21", "22", "23", "24", "25", "26", "27", "28", "29", "30",
  "31", "32", "33", "34", "35", "36", "37", "38", "39", "40",
  "41", "42", "43", "44", "45", "46", "47", "48", "49", "50",
  "51", "52", "53", "54", "55", "56", "57", "58", "59", "60",
  "61", "62", "63", "64", "65", "66", "67", "68", "69", "70",
  "71", "72", "73", "74", "75", "76", "77", "78", "79", "80",
  "81", "82", "83", "84", "85", "86", "87", "88", "89", "90",
  "91", "92", "93", "94", "95", "96", "97", "98", "99"]

/-- `_positiveBase10Length` for the sign 1 and `_negativeBase10Length` for the sign -1. -/
def base10Length (sign smi : ℤ) : ℕ :=
  if sign * smi < 1000 then 3
  else if sign * smi < 10000 then 4
  else if sign * smi < 10000000 then
    if sign * smi < 100000 then 5
    else if sign * smi < 1000000 then 6
    else 7
  else if sign * smi < 100000000 then 8
  else if sign * smi < 1000000000 then 9
  else
    let smi' := smi.tdiv 1000000000
    if sign * smi' < 10 then 10
    else if sign * smi' < 100 then 11
    else 9 + base10Length sign smi'
  termination_by smi.natAbs
  decreasing_by
    have hne : smi ≠ 0 := by
      rintro rfl
      simp at *
    rw [Int.natAbs_tdiv]
    exact Nat.div_lt_self (Int.natAbs_pos.mpr hne) (by decide)

/-- `do … while` of `toString` and, for the sign -1, of `_negativeToString`: two digits at a time.
-/
def writePairs (sign smi index : ℤ) (result : CodeUnits) : Result (ℤ × ℤ × CodeUnits) := do
  let twoDigits := smi.tmod 100
  let smi' := smi.tdiv 100
  let digitIndex := sign * twoDigits * 2
  let low ← codeUnitAt digitTable (digitIndex + 1)
  let result ← setAt result index low
  let high ← codeUnitAt digitTable digitIndex
  let result ← setAt result (index - 1) high
  if h : 100 ≤ sign * smi' then writePairs sign smi' (index - 2) result
  else .ok (smi', index - 2, result)
  termination_by smi.natAbs
  decreasing_by
    have hne : smi ≠ 0 := by
      rintro rfl
      simp [smi'] at h
    rw [Int.natAbs_tdiv]
    exact Nat.div_lt_self (Int.natAbs_pos.mpr hne) (by decide)

/-- The one or two digits that remain after the loop. -/
def writeTop (sign smi index : ℤ) (result : CodeUnits) : Result CodeUnits :=
  if sign * smi < 10 then setAt result index (0x30 + sign * smi).toNat
  else do
    let digitIndex := sign * smi * 2
    let low ← codeUnitAt digitTable (digitIndex + 1)
    let result ← setAt result index low
    let high ← codeUnitAt digitTable digitIndex
    setAt result (index - 1) high

def writeDigits (sign smi index : ℤ) (result : CodeUnits) : Result CodeUnits := do
  let (smi, index, result) ← writePairs sign smi index result
  writeTop sign smi index result

/-- `_negativeToString` below -99. The other cases are in the table. -/
def negativeToString (negSmi : ℤ) : Result CodeUnits := do
  let digitCount := base10Length (-1) negSmi
  let result ← setAt (List.replicate (digitCount + 1) 0) 0 0x2d
  writeDigits (-1) negSmi digitCount result

def toString (n : ℤ) : Result CodeUnits :=
  if n < 100 ∧ -100 < n then
    match smallLookupTable[(n + 99).toNat]? with
    | some s => .ok (codeUnits s)
    | none => .error .outOfBounds
  else if n < 0 then negativeToString n
  else
    let length := base10Length 1 n
    writeDigits 1 n (length - 1) (List.replicate length 0)

@[irreducible] def digits : CodeUnits := codeUnits "0123456789abcdefghijklmnopqrstuvwxyz"

def bitLength (n : ℕ) : ℕ := if n = 0 then 0 else Nat.log2 n + 1

/-- `do … while` of `_toPow2String`. The radix is at least 2. -/
def writePow2 (radix bitsPerDigit value : ℕ) (length : ℤ) (string : CodeUnits) :
    Result CodeUnits := do
  let d ← codeUnitAt digits (value &&& (radix - 1) : ℕ)
  let string ← setAt string (length - 1) d
  if h : 0 < value >>> bitsPerDigit ∧ 0 < bitsPerDigit then
    writePow2 radix bitsPerDigit (value >>> bitsPerDigit) (length - 1) string
  else .ok string
  termination_by value
  decreasing_by
    rw [Nat.shiftRight_eq_div_pow] at h ⊢
    have hpos : 0 < value := Nat.pos_of_ne_zero fun hzero => by simp [hzero] at h
    exact Nat.div_lt_self hpos (Nat.one_lt_two_pow h.2.ne')

def toPow2String (value radix : ℕ) : Result CodeUnits :=
  if value = 0 then .ok (codeUnits "0")
  else do
    let bitsPerDigit := bitLength radix - 1
    let length := (bitLength value + bitsPerDigit - 1) / bitsPerDigit
    let string ← setAt (List.replicate length 0) 0 0x2d
    writePow2 radix bitsPerDigit value length string

/-- `do … while` of `toRadixString`: the code units from the last one. The radix is at
least 2. -/
def radixDigits (radix value : ℕ) (temp : CodeUnits) : Result CodeUnits := do
  let d ← codeUnitAt digits (value % radix : ℕ)
  if _h : 0 < value / radix ∧ 1 < radix then radixDigits radix (value / radix) (temp ++ [d])
  else .ok (temp ++ [d])
  termination_by value
  decreasing_by
    have hpos : 0 < value := Nat.pos_of_ne_zero fun hzero => by simp [hzero] at _h
    exact Nat.div_lt_self hpos _h.2

def toRadixString (value : ℕ) (radix : ℤ) : Except BigInts.Error CodeUnits :=
  if radix < 2 ∨ 36 < radix then .error .rangeError
  else
    let result := if radix.toNat &&& (radix.toNat - 1) = 0 then toPow2String value radix.toNat
      else if radix = 10 then toString value
      else (radixDigits radix.toNat value []).map List.reverse
    result.mapError .failure

def unit (d : ℕ) : ℕ := if d < 10 then 48 + d else 87 + d

def text (radix n : ℕ) : CodeUnits := (numeral radix n).map unit

def signText (isNegative : Bool) : CodeUnits := if isNegative then [45] else []

lemma setAt_append (l m : CodeUnits) (a c : ℕ) {i : ℤ} (hi : i = l.length) :
    setAt (l ++ a :: m) i c = .ok (l ++ c :: m) := by
  subst hi
  rw [setAt, if_pos (by simp), Int.toNat_natCast, set_append_right _ _ le_rfl, Nat.sub_self]
  rfl

lemma digitTable_pair (k : ℕ) (hk : k < 100) :
    codeUnitAt digitTable (k * 2 : ℕ) = .ok (unit (k / 10)) ∧
      codeUnitAt digitTable (k * 2 + 1 : ℕ) = .ok (unit (k % 10)) := by
  revert k
  decide +kernel

lemma smallLookupTable_text (k : ℕ) (hk : k < 199) :
    (smallLookupTable[k]?).map codeUnits =
      some (signText (decide (k < 99)) ++ text 10 (if k < 99 then 99 - k else k - 99)) := by
  revert k
  decide +kernel

variable {n : ℕ}

variable {radix : ℕ}

lemma text_of_lt (h : n < radix) : text radix n = [unit n] := by
  rw [text, numeral_of_lt h, map_singleton]

lemma text_of_le (hr : 1 < radix) (h : radix ≤ n) :
    text radix n = text radix (n / radix) ++ [unit (n % radix)] := by
  rw [text, numeral_of_le hr h, map_append, map_singleton]
  rfl

lemma text_pair (h : 100 ≤ n) :
    text 10 n = text 10 (n / 100) ++ [unit (n % 100 / 10), unit (n % 100 % 10)] := by
  rw [text_of_le (by decide) (by omega), text_of_le (by decide) (by omega), Nat.div_div_eq_div_mul,
    append_assoc, Nat.mod_mul_right_div_self n 10 10, Nat.mod_mul_right_mod n 10 10]
  rfl

lemma text_length {k : ℕ} (hle : 10 ^ k ≤ n) (hlt : n < 10 ^ (k + 1)) :
    (text 10 n).length = k + 1 := by
  rw [text, length_map, length_numeral (by decide) hle hlt]

section

variable {sign : ℤ} (hsign : sign * sign = 1)

include hsign

lemma sign_mul_cancel (n : ℤ) : sign * (sign * n) = n := by
  rw [← mul_assoc, hsign, one_mul]

lemma sign_mul_tdiv (n k : ℕ) : (sign * n).tdiv k = sign * (n / k : ℕ) := by
  rcases mul_self_eq_one_iff.mp hsign with rfl | rfl
  · rw [one_mul, one_mul, Int.ofNat_tdiv]
  · rw [neg_one_mul, neg_one_mul, Int.neg_tdiv, Int.ofNat_tdiv]

lemma sign_mul_tmod (n k : ℕ) : (sign * n).tmod k = sign * (n % k : ℕ) := by
  rcases mul_self_eq_one_iff.mp hsign with rfl | rfl
  · rw [one_mul, one_mul, Int.ofNat_tmod]
  · rw [neg_one_mul, neg_one_mul, Int.neg_tmod, Int.ofNat_tmod]

variable {n : ℕ}

lemma base10Length_eq (h : 100 ≤ n) : base10Length sign (sign * n) = (text 10 n).length := by
  induction n using Nat.strong_induction_on with
  | _ n ih =>
    have hdiv := sign_mul_tdiv hsign n 1000000000
    rw [base10Length]
    simp only [sign_mul_cancel hsign, cast_ofNat] at hdiv ⊢
    rw [hdiv, sign_mul_cancel hsign]
    split_ifs with h1 h2 h3 h4 h5 h6 h7 h8 h9
    · exact (text_length (k := 2) (by omega) (by omega)).symm
    · exact (text_length (k := 3) (by omega) (by omega)).symm
    · exact (text_length (k := 4) (by omega) (by omega)).symm
    · exact (text_length (k := 5) (by omega) (by omega)).symm
    · exact (text_length (k := 6) (by omega) (by omega)).symm
    · exact (text_length (k := 7) (by omega) (by omega)).symm
    · exact (text_length (k := 8) (by omega) (by omega)).symm
    · exact (text_length (k := 9) (by omega) (by omega)).symm
    · exact (text_length (k := 10) (by omega) (by omega)).symm
    · rw [ih _ (by omega) (by omega)]
      conv_rhs => rw [← div_add_mod' n (10 ^ 9)]
      rw [text, text, numeral_padded (by decide) (by omega) 9 (mod_lt _ (by decide))]
      simp only [length_map, length_append, length_padded]
      exact add_comm _ _

variable {index : ℤ}

lemma writePairs_step (pre mid suf : CodeUnits) (a b : ℕ)
    (hidx : index = (pre ++ mid).length + 1) :
    writePairs sign (sign * n) index (pre ++ mid ++ a :: b :: suf) =
      (let result := pre ++ mid ++ unit (n % 100 / 10) :: unit (n % 100 % 10) :: suf
      if 100 ≤ n / 100 then writePairs sign (sign * (n / 100 : ℕ)) (index - 2) result
      else .ok (sign * (n / 100 : ℕ), index - 2, result)) := by
  have hdiv := sign_mul_tdiv hsign n 100
  have hmod := sign_mul_tmod hsign n 100
  obtain ⟨hhigh, hlow⟩ := digitTable_pair (n % 100) (mod_lt _ (by decide))
  push_cast at hhigh hlow
  rw [writePairs]
  simp only [cast_ofNat] at hdiv hmod
  simp only [hdiv, hmod, sign_mul_cancel hsign]
  push_cast
  rw [hlow, ok_bind, append_cons (pre ++ mid),
    setAt_append _ _ _ _ (by rw [hidx]; simp; ring), ok_bind, hhigh, ok_bind,
      ← append_cons (pre ++ mid),
    setAt_append _ _ _ _ (by rw [hidx]; simp), ok_bind]
  by_cases h : 100 ≤ n / 100
  · rw [if_pos h, dif_pos (by omega)]
  · rw [if_neg h, dif_neg (by omega)]

lemma writeTop_spec (h : n < 100) (pre mid suf : CodeUnits)
    (hmid : mid.length = (text 10 n).length) (hidx : index = (pre ++ mid).length - 1) :
    writeTop sign (sign * n) index (pre ++ mid ++ suf) = .ok (pre ++ text 10 n ++ suf) := by
  rw [writeTop, sign_mul_cancel hsign]
  by_cases hlt : n < 10
  · rw [text_of_lt hlt] at hmid ⊢
    obtain ⟨c, rfl⟩ := length_eq_one_iff.mp hmid
    have hunit : (0x30 + (n : ℤ)).toNat = unit n := by
      rw [unit, if_pos hlt]
      omega
    rw [if_pos (by omega), hunit, append_assoc, singleton_append,
      setAt_append _ _ _ _ (by rw [hidx]; simp), append_assoc, singleton_append]
  · rw [text_of_le (by decide) (by omega), text_of_lt (show n / 10 < 10 by omega)] at hmid ⊢
    obtain ⟨a, b, rfl⟩ := length_eq_two.mp hmid
    obtain ⟨hhigh, hlow⟩ := digitTable_pair n h
    push_cast at hhigh hlow
    rw [if_neg (by omega)]
    dsimp only
    rw [hlow, ok_bind, show pre ++ [a, b] ++ suf = pre ++ [a] ++ b :: suf by simp,
      setAt_append _ _ _ _ (by rw [hidx]; simp; ring), ok_bind, hhigh, ok_bind,
      append_assoc, singleton_append, setAt_append _ _ _ _ (by rw [hidx]; simp; ring)]
    simp

/-- The digits of a number fill their place in the string. -/
lemma writeDigits_spec (h : 100 ≤ n) (pre mid suf : CodeUnits)
    (hmid : mid.length = (text 10 n).length) (hidx : index = (pre ++ mid).length - 1) :
    writeDigits sign (sign * n) index (pre ++ mid ++ suf) = .ok (pre ++ text 10 n ++ suf) := by
  induction n using Nat.strong_induction_on generalizing mid suf index with
  | _ n ih =>
    have htext := text_pair h
    rw [htext, length_append] at hmid
    obtain ⟨mid, last, rfl, hlen⟩ : ∃ mid' last, mid = mid' ++ last ∧ last.length = 2 :=
      ⟨mid.take (mid.length - 2), mid.drop (mid.length - 2), (take_append_drop ..).symm,
        by rw [length_drop, hmid]; simp⟩
    obtain ⟨a, b, rfl⟩ := length_eq_two.mp hlen
    have hmid' : mid.length = (text 10 (n / 100)).length := by
      simpa using hmid
    have hstep := writePairs_step (n := n) hsign pre mid suf a b
      (show index = (pre ++ mid).length + 1 by rw [hidx]; simp; ring)
    rw [writeDigits, show pre ++ (mid ++ [a, b]) ++ suf = pre ++ mid ++ a :: b :: suf by simp,
      hstep]
    dsimp only
    by_cases hge : 100 ≤ n / 100
    · rw [if_pos hge]
      have hrest := ih _ (by omega) hge mid
        (unit (n % 100 / 10) :: unit (n % 100 % 10) :: suf) hmid'
        (show index - 2 = (pre ++ mid).length - 1 by rw [hidx]; simp; ring)
      rw [writeDigits] at hrest
      rw [hrest, htext]
      simp
    · rw [if_neg hge, ok_bind]
      have htop := writeTop_spec hsign (n := n / 100) (by omega) pre mid
        (unit (n % 100 / 10) :: unit (n % 100 % 10) :: suf) hmid'
        (show index - 2 = (pre ++ mid).length - 1 by rw [hidx]; simp; ring)
      rw [htop, htext]
      simp

end

lemma neg_one_mul_neg_one : (-1 : ℤ) * -1 = 1 := rfl

lemma toString_spec (n : ℤ) :
    toString n = .ok (signText (decide (n < 0)) ++ text 10 n.natAbs) := by
  rw [toString]
  split
  · rename_i h
    have hsmall := smallLookupTable_text (n + 99).toNat (by omega)
    obtain ⟨s, hs, htext⟩ := Option.map_eq_some_iff.mp hsmall
    rw [hs]
    dsimp only
    rw [htext]
    by_cases hneg : n < 0
    · rw [decide_eq_true (by omega), decide_eq_true hneg, if_pos (by omega),
        show 99 - (n + 99).toNat = n.natAbs by omega]
    · rw [decide_eq_false (by omega), decide_eq_false hneg, if_neg (by omega),
        show (n + 99).toNat - 99 = n.natAbs by omega]
  · rename_i h
    obtain ⟨k, rfl | rfl⟩ := n.eq_nat_or_neg
    · rw [if_neg (by omega), decide_eq_false (by omega), Int.natAbs_natCast]
      have hlen := base10Length_eq (one_mul 1) (n := k) (by omega)
      rw [one_mul] at hlen
      have hwrite := writeDigits_spec (one_mul 1) (n := k) (by omega) []
        (List.replicate (text 10 k).length 0) [] (by simp) rfl
      rw [hlen]
      simpa [signText] using hwrite
    · rw [if_pos (by omega), decide_eq_true (by omega), Int.natAbs_neg, Int.natAbs_natCast,
        negativeToString]
      have hlen := base10Length_eq (neg_one_mul_neg_one) (n := k) (by omega)
      rw [neg_one_mul] at hlen
      have hwrite := writeDigits_spec (neg_one_mul_neg_one) (n := k) (by omega) [0x2d]
        (List.replicate (text 10 k).length 0) [] (by simp) rfl
      rw [hlen, replicate_succ, show setAt (0 :: List.replicate (text 10 k).length 0) 0 0x2d =
          .ok (0x2d :: List.replicate (text 10 k).length 0) from setAt_append [] _ _ _ rfl, ok_bind]
      simpa [signText] using hwrite

lemma codeUnitAt_digits (d : ℕ) (hd : d < 36) : codeUnitAt digits d = .ok (unit d) := by
  revert d
  decide +kernel

lemma radixDigits_spec (hr : 1 < radix) (hle : radix ≤ 36) (value : ℕ) (temp : CodeUnits) :
    radixDigits radix value temp = .ok (temp ++ (text radix value).reverse) := by
  induction value using Nat.strong_induction_on generalizing temp with
  | _ value ih =>
    have hunit := codeUnitAt_digits (value % radix)
      ((Nat.mod_lt value (Nat.zero_lt_of_lt hr)).trans_le hle)
    rw [radixDigits, hunit, ok_bind]
    by_cases h : value < radix
    · rw [dif_neg (by rw [div_eq_of_lt h]; omega), mod_eq_of_lt h, text_of_lt h]
      rfl
    · have hpos := Nat.div_pos (not_lt.mp h) (show 0 < radix by omega)
      rw [dif_pos ⟨hpos, hr⟩, ih _ (Nat.div_lt_self (by omega) hr),
        text_of_le hr (not_lt.mp h), reverse_append]
      simp

variable {bits value : ℕ}

lemma writePow2_spec (hbits : 0 < bits) (hle : 2 ^ bits ≤ 36)
    (mid suf : CodeUnits) (hmid : mid.length = (text (2 ^ bits) value).length) :
    writePow2 (2 ^ bits) bits value mid.length (mid ++ suf) =
      .ok (text (2 ^ bits) value ++ suf) := by
  have hr : 1 < 2 ^ bits := Nat.one_lt_two_pow hbits.ne'
  induction value using Nat.strong_induction_on generalizing mid suf with
  | _ value ih =>
    have hunit := codeUnitAt_digits (value % 2 ^ bits)
      ((Nat.mod_lt value (Nat.zero_lt_of_lt hr)).trans_le hle)
    rw [writePow2, and_two_pow_sub_one_eq_mod, hunit, ok_bind, shiftRight_eq_div_pow]
    by_cases h : value < 2 ^ bits
    · rw [text_of_lt h] at hmid ⊢
      obtain ⟨a, rfl⟩ := length_eq_one_iff.mp hmid
      rw [show [a] ++ suf = [] ++ a :: suf from rfl, setAt_append _ _ _ _ (by simp), ok_bind,
        dif_neg (by rw [div_eq_of_lt h]; omega), mod_eq_of_lt h]
      rfl
    · have htext := text_of_le hr (not_lt.mp h)
      rw [htext, length_append, length_singleton] at hmid
      obtain ⟨mid, a, rfl⟩ : ∃ mid' a, mid = mid' ++ [a] :=
        ⟨mid.dropLast, mid.getLast (ne_nil_of_length_eq_add_one hmid),
          (dropLast_append_getLast _).symm⟩
      rw [length_append, length_singleton] at hmid ⊢
      have hpos := Nat.div_pos (not_lt.mp h) (show 0 < 2 ^ bits by omega)
      rw [append_assoc, singleton_append, setAt_append _ _ _ _ (by push_cast; ring), ok_bind,
        dif_pos ⟨hpos, hbits⟩, show ((mid.length + 1 : ℕ) : ℤ) - 1 = mid.length by push_cast; ring,
        ih _ (Nat.div_lt_self (by omega) hr) mid _ (by omega), htext, append_assoc]
      rfl

lemma pow2_length (hbits : 0 < bits) (hval : value ≠ 0) :
    (bitLength value + bits - 1) / bits = (text (2 ^ bits) value).length := by
  have hr : 1 < 2 ^ bits := Nat.one_lt_two_pow hbits.ne'
  have hlow := Nat.log2_self_le hval
  have hhigh := Nat.lt_log2_self (n := value)
  have hk : (bitLength value + bits - 1) / bits = value.log2 / bits + 1 := by
    rw [bitLength, if_neg hval, show value.log2 + 1 + bits - 1 = value.log2 + bits by omega,
      add_div_right _ hbits]
  have hdiv := div_add_mod value.log2 bits
  have hmod := mod_lt value.log2 hbits
  rw [hk, text, length_map, length_numeral hr]
  · rw [← pow_mul]
    exact (Nat.pow_le_pow_right (by decide) (by omega)).trans hlow
  · rw [← pow_mul, Nat.mul_add_one]
    exact hhigh.trans_le (Nat.pow_le_pow_right (by decide) (by omega))

lemma powerOfTwo_radix (radix : ℕ) (hlt : radix < 37) (hle : 2 ≤ radix)
    (h : radix &&& (radix - 1) = 0) :
    radix = 2 ^ (bitLength radix - 1) ∧ 0 < bitLength radix - 1 := by
  revert radix
  decide +kernel

lemma toPow2String_spec (hbits : bitLength radix - 1 = bits) (hpos : 0 < bits)
    (hradix : radix = 2 ^ bits) (hle : radix ≤ 36) :
    toPow2String value radix = .ok (text radix value) := by
  subst hradix
  rw [toPow2String]
  split
  · rename_i hzero
    rw [hzero, text_of_lt (Nat.two_pow_pos bits)]
    rfl
  · rename_i hne
    have htext : 0 < (text (2 ^ bits) value).length := by
      rw [text, length_map]
      exact length_pos_of_ne_nil (numeral_ne_nil (Nat.one_lt_two_pow hpos.ne') value)
    obtain ⟨k, hk⟩ := Nat.exists_eq_add_of_lt htext
    rw [zero_add] at hk
    have hwrite := writePow2_spec hpos hle (45 :: List.replicate k 0) [] (by rw [hk]; simp)
    dsimp only
    rw [hbits, pow2_length hpos hne, hk, replicate_succ,
      show setAt (0 :: List.replicate k 0) 0 0x2d = .ok (0x2d :: List.replicate k 0) from
        setAt_append [] _ _ _ rfl, ok_bind]
    simpa using hwrite

lemma toRadixString_spec (value : ℕ) {radix : ℤ} (hle : 2 ≤ radix) (hge : radix ≤ 36) :
    toRadixString value radix = .ok (text radix.toNat value) := by
  rw [toRadixString, if_neg (by omega)]
  split
  · rename_i hpow
    obtain ⟨hradix, hbits⟩ := powerOfTwo_radix radix.toNat (by omega) (by omega) hpow
    rw [toPow2String_spec rfl hbits hradix (by omega)]
    rfl
  · split
    · rename_i hten
      rw [toString_spec, hten]
      rfl
    · rw [radixDigits_spec (by omega) (by omega)]
      simp [Except.map, Except.mapError]

end DartSdk.Integers
