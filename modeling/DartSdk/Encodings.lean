import Mathlib

/-!
Three encodings as plain arithmetic: code points in UTF-8 and UTF-16, where UTF-8 is the shortest
form over the whole range, surrogates included; base64 of RFC 4648 over any alphabet, with readers
that allow several characters for a value; and little-endian base-128 sequences whose last byte
carries an end mark and holds the quotient that remains, in a window of 128 integers from `lo` on.
-/

namespace DartSdk.CodePoints

open List

def maxCodePoint : ℕ := 0x10FFFF

/-- The shortest UTF-8 form of a code point. -/
def utf8Bytes (c : ℕ) : List UInt8 :=
  if c ≤ 0x7F then [UInt8.ofNat c]
  else if c ≤ 0x7FF then [UInt8.ofNat (0xC0 + c / 64), UInt8.ofNat (0x80 + c % 64)]
  else if c ≤ 0xFFFF then
    [UInt8.ofNat (0xE0 + c / 4096), UInt8.ofNat (0x80 + c / 64 % 64), UInt8.ofNat (0x80 + c % 64)]
  else
    [UInt8.ofNat (0xF0 + c / 262144), UInt8.ofNat (0x80 + c / 4096 % 64),
      UInt8.ofNat (0x80 + c / 64 % 64), UInt8.ofNat (0x80 + c % 64)]

/-- The bytes are a concatenation of shortest forms of code points. -/
def WellFormed (bytes : List UInt8) : Prop :=
  ∃ points : List ℕ, (∀ c ∈ points, c ≤ maxCodePoint) ∧ bytes = points.flatMap utf8Bytes

def utf16Units (c : ℕ) : List UInt16 :=
  if c ≤ 0xFFFF then [UInt16.ofNat c]
  else [UInt16.ofNat (0xD800 + (c - 0x10000) / 1024), UInt16.ofNat (0xDC00 + (c - 0x10000) % 1024)]

def IsLead (u : ℕ) : Prop := 0xD800 ≤ u ∧ u < 0xDC00

def IsTrail (u : ℕ) : Prop := 0xDC00 ≤ u ∧ u < 0xE000

instance (u : ℕ) : Decidable (IsLead u) := inferInstanceAs (Decidable (_ ∧ _))

instance (u : ℕ) : Decidable (IsTrail u) := inferInstanceAs (Decidable (_ ∧ _))

/-- The supplementary code point of a surrogate pair. -/
def pairPoint (lead trail : ℕ) : ℕ := 0x10000 + (lead - 0xD800) * 1024 + (trail - 0xDC00)

/-- Greedy reading of UTF-16 units. -/
def pairUnits : List UInt16 → List ℕ
  | [] => []
  | [u] => [u.toNat]
  | u :: v :: rest =>
    if IsLead u.toNat ∧ IsTrail v.toNat then
      pairPoint u.toNat v.toNat :: pairUnits rest
    else u.toNat :: pairUnits (v :: rest)

/-- No lead surrogate code point stands directly before a trail surrogate. -/
def NoSplitPair (points : List ℕ) : Prop :=
  points.IsChain fun a b => ¬ (IsLead a ∧ IsTrail b)

lemma utf8Bytes_ne_nil (c : ℕ) : utf8Bytes c ≠ [] := by
  unfold utf8Bytes
  split_ifs <;> simp

lemma utf16Units_length (c : ℕ) : (utf16Units c).length = if c ≤ 0xFFFF then 1 else 2 := by
  unfold utf16Units
  split_ifs <;> rfl

lemma utf16Units_unit (u : UInt16) : utf16Units u.toNat = [u] := by
  have hu := u.toNat_lt
  rw [utf16Units, if_pos (by omega), UInt16.ofNat_toNat]

lemma utf16Units_pairPoint (u v : UInt16) (hu : IsLead u.toNat) (hv : IsTrail v.toNat) :
    utf16Units (pairPoint u.toNat v.toNat) = [u, v] := by
  unfold IsLead at hu
  unfold IsTrail at hv
  have hlead : 0xD800 + (pairPoint u.toNat v.toNat - 0x10000) / 1024 = u.toNat := by
    unfold pairPoint
    omega
  have htrail : 0xDC00 + (pairPoint u.toNat v.toNat - 0x10000) % 1024 = v.toNat := by
    unfold pairPoint
    omega
  rw [utf16Units, if_neg (by unfold pairPoint; omega), hlead, htrail, UInt16.ofNat_toNat,
    UInt16.ofNat_toNat]

lemma flatMap_pairUnits (units : List UInt16) : (pairUnits units).flatMap utf16Units = units := by
  induction units using pairUnits.induct with
  | case1 => rfl
  | case2 u => simp [pairUnits, utf16Units_unit]
  | case3 u v rest hpair ih =>
    rw [pairUnits, if_pos hpair, flatMap_cons, ih, utf16Units_pairPoint u v hpair.1 hpair.2]
    rfl
  | case4 u v rest hpair ih =>
    rw [pairUnits, if_neg hpair, flatMap_cons, ih, utf16Units_unit]
    rfl

lemma pairUnits_le (units : List UInt16) : ∀ c ∈ pairUnits units, c ≤ maxCodePoint := by
  induction units using pairUnits.induct with
  | case1 => simp [pairUnits]
  | case2 u =>
    have hu := u.toNat_lt
    simp only [pairUnits, mem_singleton, forall_eq, maxCodePoint]
    omega
  | case3 u v rest hpair ih =>
    rw [pairUnits, if_pos hpair]
    simp only [mem_cons, forall_eq_or_imp]
    refine ⟨?_, ih⟩
    obtain ⟨⟨_, hlead⟩, _, htrail⟩ := hpair
    unfold pairPoint maxCodePoint
    omega
  | case4 u v rest hpair ih =>
    have hu := u.toNat_lt
    rw [pairUnits, if_neg hpair]
    simp only [mem_cons, forall_eq_or_imp]
    refine ⟨?_, ih⟩
    unfold maxCodePoint
    omega

lemma toNat_ofNat_unit (c : ℕ) (h : c ≤ 0xFFFF) : (UInt16.ofNat c).toNat = c := by
  rw [UInt16.toNat_ofNat']
  omega

lemma utf16Units_cases (c : ℕ) (hc : c ≤ maxCodePoint) :
    (c ≤ 0xFFFF ∧ utf16Units c = [UInt16.ofNat c] ∧ (UInt16.ofNat c).toNat = c) ∨
    (0xFFFF < c ∧ ∃ u v : UInt16, utf16Units c = [u, v] ∧ IsLead u.toNat ∧ IsTrail v.toNat ∧
      pairPoint u.toNat v.toNat = c) := by
  unfold maxCodePoint at hc
  by_cases h : c ≤ 0xFFFF
  · exact Or.inl ⟨h, if_pos h, toNat_ofNat_unit c h⟩
  · refine Or.inr ⟨by omega, _, _, if_neg h, ?_⟩
    rw [toNat_ofNat_unit _ (by omega), toNat_ofNat_unit _ (by omega)]
    unfold IsLead IsTrail pairPoint
    omega

lemma pairUnits_single (u : UInt16) (rest : List UInt16)
    (h : ∀ v tail, rest = v :: tail → ¬ (IsLead u.toNat ∧ IsTrail v.toNat)) :
    pairUnits (u :: rest) = u.toNat :: pairUnits rest := by
  cases rest with
  | nil => rfl
  | cons v tail => rw [pairUnits, if_neg (h v tail rfl)]

lemma pairUnits_flatMap (points : List ℕ) (hle : ∀ c ∈ points, c ≤ maxCodePoint)
    (hsplit : NoSplitPair points) : pairUnits (points.flatMap utf16Units) = points := by
  induction points with
  | nil => rfl
  | cons c rest ih =>
    have hrest := ih (fun d hd => hle d (mem_cons_of_mem c hd)) hsplit.tail
    rw [flatMap_cons]
    rcases utf16Units_cases c (hle c (mem_cons_self ..)) with
      ⟨_, hunits, hval⟩ | ⟨_, u, v, hunits, hu, hv, hpair⟩
    · rw [hunits, singleton_append, pairUnits_single, hval, hrest]
      intro v tail htail
      rw [hval]
      cases rest with
      | nil => simp at htail
      | cons d rest =>
        have hcd : ¬ (IsLead c ∧ IsTrail d) := (isChain_cons_cons.mp hsplit).1
        rintro ⟨hlead, htrail⟩
        rw [flatMap_cons] at htail
        rcases utf16Units_cases d (hle d (by simp)) with
          ⟨_, hd, hdval⟩ | ⟨_, a, b, hd, ha, _, _⟩
        · rw [hd, singleton_append, List.cons.injEq] at htail
          rw [← htail.1, hdval] at htrail
          exact hcd ⟨hlead, htrail⟩
        · rw [hd, cons_append, List.cons.injEq] at htail
          rw [← htail.1] at htrail
          unfold IsLead at ha
          unfold IsTrail at htrail
          omega
    · rw [hunits, cons_append, singleton_append, pairUnits, if_pos ⟨hu, hv⟩, hpair, hrest]

/-- Greedy reading never leaves a lead before a trail. -/
lemma noSplitPair_pairUnits (units : List UInt16) : NoSplitPair (pairUnits units) := by
  unfold NoSplitPair
  induction units using pairUnits.induct with
  | case1 => simp [pairUnits]
  | case2 u => simp [pairUnits]
  | case3 u v rest hpair ih =>
    rw [pairUnits, if_pos hpair]
    refine isChain_cons.mpr ⟨?_, ih⟩
    intro d _ hlead
    have := hlead.1
    unfold IsLead pairPoint at this
    omega
  | case4 u v rest hpair ih =>
    rw [pairUnits, if_neg hpair]
    refine isChain_cons.mpr ⟨?_, ih⟩
    intro d hd hsplit
    cases rest with
    | nil =>
      simp only [pairUnits, List.head?_cons, Option.mem_some_iff] at hd
      subst hd
      exact hpair hsplit
    | cons w rest =>
      rw [pairUnits] at hd
      split at hd
      · simp only [List.head?_cons, Option.mem_some_iff] at hd
        have htrail := hsplit.2
        rw [← hd] at htrail
        unfold IsTrail pairPoint at htrail
        omega
      · simp only [List.head?_cons, Option.mem_some_iff] at hd
        subst hd
        exact hpair hsplit

end DartSdk.CodePoints

namespace DartSdk.Base64Format

open List

/-- The six bit groups of three bytes. -/
def sextets (a b c : ℕ) : List ℕ := [a / 4, a % 4 * 16 + b / 16, b % 16 * 4 + c / 64, c % 64]

/-- The encoding with an alphabet and a padding character. -/
def encode (alphabet : ℕ → ℕ) (padding : ℕ) : List ℕ → List ℕ
  | [] => []
  | [a] => [alphabet (a / 4), alphabet (a % 4 * 16), padding, padding]
  | [a, b] => [alphabet (a / 4), alphabet (a % 4 * 16 + b / 16), alphabet (b % 16 * 4), padding]
  | a :: b :: c :: rest => (sextets a b c).map alphabet ++ encode alphabet padding rest

def fullGroups (alphabet : ℕ → ℕ) : List ℕ → List ℕ
  | a :: b :: c :: rest => (sextets a b c).map alphabet ++ fullGroups alphabet rest
  | _ => []

/-- The bytes after the full groups. -/
def leftOver : List ℕ → List ℕ
  | _ :: _ :: _ :: rest => leftOver rest
  | bytes => bytes

section

variable (alphabet : ℕ → ℕ) (padding : ℕ)

lemma leftOver_length (bytes : List ℕ) : (leftOver bytes).length = bytes.length % 3 := by
  induction bytes using encode.induct with
  | case1 => rfl
  | case2 a => rfl
  | case3 a b => rfl
  | case4 a b c rest ih =>
    rw [leftOver, ih]
    simp only [length_cons]
    omega

lemma leftOver_length_lt (bytes : List ℕ) : (leftOver bytes).length < 3 := by
  rw [leftOver_length]
  exact Nat.mod_lt _ (by decide)

lemma fullGroups_length (bytes : List ℕ) :
    (fullGroups alphabet bytes).length = 4 * (bytes.length / 3) := by
  induction bytes using encode.induct with
  | case1 => rfl
  | case2 a => simp [fullGroups]
  | case3 a b => simp [fullGroups]
  | case4 a b c rest ih =>
    simp only [fullGroups, sextets, length_append, length_map, length_cons, length_nil, ih]
    omega

variable {bytes : List ℕ}

lemma mem_of_mem_leftOver {b : ℕ} (h : b ∈ leftOver bytes) : b ∈ bytes := by
  induction bytes using encode.induct with
  | case1 => exact h
  | case2 a => exact h
  | case3 a b => exact h
  | case4 a b c rest ih =>
    simp [ih h]

/-- The full groups of the whole are those of the first part and those of its rest with the second.
-/
lemma fullGroups_append (first second : List ℕ) :
    fullGroups alphabet (first ++ second) =
      fullGroups alphabet first ++ fullGroups alphabet (leftOver first ++ second) := by
  induction first using encode.induct with
  | case1 => rfl
  | case2 a => rfl
  | case3 a b => rfl
  | case4 a b c rest ih =>
    simp only [cons_append, fullGroups, leftOver, ih, append_assoc]

lemma leftOver_append (first second : List ℕ) :
    leftOver (first ++ second) = leftOver (leftOver first ++ second) := by
  induction first using encode.induct with
  | case1 => rfl
  | case2 a => rfl
  | case3 a b => rfl
  | case4 a b c rest ih => simp only [cons_append, leftOver, ih]

lemma encode_eq_fullGroups (bytes : List ℕ) :
    encode alphabet padding bytes =
      fullGroups alphabet bytes ++ encode alphabet padding (leftOver bytes) := by
  induction bytes using encode.induct with
  | case1 => rfl
  | case2 a => rfl
  | case3 a b => rfl
  | case4 a b c rest ih =>
    rw [encode, fullGroups, leftOver, append_assoc, ← ih]

lemma encode_append (first second : List ℕ) :
    encode alphabet padding (first ++ second) =
      fullGroups alphabet first ++ encode alphabet padding (leftOver first ++ second) := by
  rw [encode_eq_fullGroups, fullGroups_append, leftOver_append, append_assoc,
    ← encode_eq_fullGroups]

lemma fullGroups_of_lt (h : bytes.length < 3) : fullGroups alphabet bytes = [] := by
  rw [← length_eq_zero_iff, fullGroups_length]
  omega

lemma leftOver_of_lt (h : bytes.length < 3) : leftOver bytes = bytes := by
  match bytes, h with
  | [], _ => rfl
  | [a], _ => rfl
  | [a, b], _ => rfl

end

/-- The bytes of four groups of six bits. -/
def octets (p q r s : ℕ) : List ℕ := [p * 4 + q / 16, q % 16 * 16 + r / 4, r % 4 * 64 + s]

section

variable (value : ℕ → Option ℕ) (Pad : List ℕ → Prop)

/-- A padded encoding: every character has its value, the padding is complete, and the fill bits are
zero. -/
inductive Encodes : List ℕ → List ℕ → Prop
  | nil : Encodes [] []
  | one {c d : ℕ} {p q : ℕ} {pad₁ pad₂ : List ℕ} (hc : value c = some p) (hd : value d = some q)
      (h₁ : Pad pad₁) (h₂ : Pad pad₂) (hzero : q % 16 = 0) :
      Encodes (c :: d :: (pad₁ ++ pad₂)) [p * 4 + q / 16]
  | two {c d e : ℕ} {p q r : ℕ} {pad : List ℕ} (hc : value c = some p) (hd : value d = some q)
      (he : value e = some r) (hpad : Pad pad) (hzero : r % 4 = 0) :
      Encodes (c :: d :: e :: pad) [p * 4 + q / 16, q % 16 * 16 + r / 4]
  | cons {c d e f : ℕ} {p q r s : ℕ} {chars bytes : List ℕ} (hc : value c = some p)
      (hd : value d = some q) (he : value e = some r) (hf : value f = some s)
      (h : Encodes chars bytes) :
      Encodes (c :: d :: e :: f :: chars) (octets p q r s ++ bytes)

variable {value Pad}

lemma Encodes.first_two {c d : ℕ} {rest bytes : List ℕ}
    (h : Encodes value Pad (c :: d :: rest) bytes) :
    (∃ p, value c = some p) ∧ ∃ q, value d = some q := by
  generalize hchars : c :: d :: rest = chars at h
  cases h with
  | nil => cases hchars
  | one hc hd =>
    cases hchars
    exact ⟨⟨_, hc⟩, _, hd⟩
  | two hc hd =>
    cases hchars
    exact ⟨⟨_, hc⟩, _, hd⟩
  | cons hc hd =>
    cases hchars
    exact ⟨⟨_, hc⟩, _, hd⟩

lemma encodes_encode {alphabet : ℕ → ℕ} {padding : ℕ}
    (hval : ∀ v < 64, value (alphabet v) = some v) (hpad : Pad [padding])
    (bytes : List ℕ) (hbytes : ∀ b ∈ bytes, b < 256) :
    Encodes value Pad (encode alphabet padding bytes) bytes := by
  induction bytes using encode.induct with
  | case1 => exact .nil
  | case2 a =>
    have ha := hbytes a (by simp)
    have h := Encodes.one (hval (a / 4) (by omega)) (hval (a % 4 * 16) (by omega)) hpad hpad
      (by omega)
    rwa [show a / 4 * 4 + a % 4 * 16 / 16 = a by omega] at h
  | case3 a b =>
    have ha := hbytes a (by simp)
    have hb := hbytes b (by simp)
    have h := Encodes.two (hval (a / 4) (by omega)) (hval (a % 4 * 16 + b / 16) (by omega))
      (hval (b % 16 * 4) (by omega)) hpad (by omega)
    rwa [show a / 4 * 4 + (a % 4 * 16 + b / 16) / 16 = a by omega,
      show (a % 4 * 16 + b / 16) % 16 * 16 + b % 16 * 4 / 4 = b by omega] at h
  | case4 a b c rest ih =>
    have ha := hbytes a (by simp)
    have hb := hbytes b (by simp)
    have hc := hbytes c (by simp)
    have hrest := ih fun x hx => hbytes x (by simp [hx])
    have h := Encodes.cons (hval (a / 4) (by omega)) (hval (a % 4 * 16 + b / 16) (by omega))
      (hval (b % 16 * 4 + c / 64) (by omega)) (hval (c % 64) (by omega)) hrest
    have hoctets : octets (a / 4) (a % 4 * 16 + b / 16) (b % 16 * 4 + c / 64) (c % 64) =
        [a, b, c] := by
      simp only [octets, List.cons.injEq, and_true]
      omega
    rwa [hoctets] at h

end

end DartSdk.Base64Format

namespace DartSdk.EndMarkedGroups

/-- `bytes` spells the integer `v`; the last group lies in [lo, lo + 128), and no byte is wasted. -/
inductive EndMarked (lo : ℤ) : ℤ → List UInt8 → Prop
  | last {v : ℤ} : lo ≤ v → v < lo + 128 →
      EndMarked lo v [UInt8.ofNat (v + (128 - lo)).toNat]
  | more {v : ℤ} {bytes : List UInt8} : ¬ (lo ≤ v ∧ v < lo + 128) →
      EndMarked lo (v / 128) bytes → EndMarked lo v (UInt8.ofNat (v % 128).toNat :: bytes)

lemma lastByte_toNat (lo v : ℤ) (hlo : lo ≤ v) (hhi : v < lo + 128) :
    (UInt8.ofNat (v + (128 - lo)).toNat).toNat = (v + (128 - lo)).toNat := by
  rw [UInt8.toNat_ofNat']
  omega

lemma groupByte_toNat (v : ℤ) : (UInt8.ofNat (v % 128).toNat).toNat = (v % 128).toNat := by
  rw [UInt8.toNat_ofNat']
  omega

lemma EndMarked.length_le {lo v : ℤ} {bytes : List UInt8} (h : EndMarked lo v bytes)
    (n : ℕ) (hlow : lo * 128 ^ n ≤ v) (hhigh : v < (lo + 128) * 128 ^ n) :
    bytes.length ≤ n + 1 := by
  induction h generalizing n with
  | last hlo hhi => simp
  | @more v bytes hout hrest ih =>
    cases n with
    | zero =>
      simp only [pow_zero, mul_one] at hlow hhigh
      exact absurd ⟨hlow, hhigh⟩ hout
    | succ n =>
      have hlow' : lo * 128 ^ n ≤ v / 128 := by
        apply Int.le_ediv_of_mul_le (by omega)
        calc lo * 128 ^ n * 128 = lo * 128 ^ (n + 1) := by ring
          _ ≤ v := hlow
      have hhigh' : v / 128 < (lo + 128) * 128 ^ n := by
        apply Int.ediv_lt_of_lt_mul (by omega)
        calc v < (lo + 128) * 128 ^ (n + 1) := hhigh
          _ = (lo + 128) * 128 ^ n * 128 := by ring
      simpa only [List.length_cons, Nat.add_le_add_iff_right] using ih n hlow' hhigh'

lemma twoPow_eq_ofInt (w s : ℕ) : BitVec.twoPow w s = BitVec.ofInt w (2 ^ s) := by
  have hcast : (2 ^ s : ℤ) = ((2 ^ s : ℕ) : ℤ) := by push_cast; rfl
  rw [hcast, BitVec.ofInt_natCast]
  apply BitVec.eq_of_toNat_eq
  rw [BitVec.toNat_twoPow, BitVec.toNat_ofNat]

lemma and_shiftLeft_eq_zero (w s : ℕ) (x : ℤ) (y : BitVec w)
    (hx : 0 ≤ x) (hxs : x < 2 ^ s) : BitVec.ofInt w x &&& (y <<< s) = 0#w := by
  obtain ⟨n, rfl⟩ := Int.eq_ofNat_of_zero_le hx
  have hn : n < 2 ^ s := by exact_mod_cast hxs
  apply BitVec.eq_of_getLsbD_eq
  intro i hi
  by_cases his : i < s
  · simp [his]
  · have hbit : n.testBit i = false := by
      apply Nat.testBit_lt_two_pow
      exact lt_of_lt_of_le hn (Nat.pow_le_pow_right (by omega) (by omega))
    simp [BitVec.ofInt_natCast, BitVec.getLsbD_ofNat, hbit]

/-- An OR above the bits already collected is an addition, whatever falls off the top. -/
lemma or_shiftLeft_ofInt (w s : ℕ) (x y : ℤ) (hx : 0 ≤ x) (hxs : x < 2 ^ s) :
    BitVec.ofInt w x ||| (BitVec.ofInt w y <<< s) = BitVec.ofInt w (x + y * 2 ^ s) := by
  rw [← BitVec.add_eq_or_of_and_eq_zero _ _ (and_shiftLeft_eq_zero w s x _ hx hxs),
    BitVec.shiftLeft_eq_mul_twoPow, twoPow_eq_ofInt, BitVec.ofInt_add, BitVec.ofInt_mul]

lemma ofInt_sub (w : ℕ) (x y : ℤ) :
    BitVec.ofInt w (x - y) = BitVec.ofInt w x - BitVec.ofInt w y := by
  rw [sub_eq_add_neg, BitVec.ofInt_add, BitVec.ofInt_neg, sub_eq_add_neg]

lemma group_lt_pow (x g : ℤ) (s : ℕ) (hxs : x < 2 ^ s) (hg : g < 128) :
    x + g * 2 ^ s < 2 ^ (s + 7) := by
  have hpow : (2 : ℤ) ^ (s + 7) = 128 * 2 ^ s := by ring
  have hpos : (0 : ℤ) < 2 ^ s := by positivity
  nlinarith

end DartSdk.EndMarkedGroups
