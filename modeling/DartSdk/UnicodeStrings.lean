import DartSdk.Unicode

/-!
The encoder of strings, and strings through UTF-8 and back. The bit masks of the source are the
divisions and remainders of the encoding forms, and the iterator over a two-byte string visits the
greedy reading of its code units. Masking a word keeps the high bits of its bytes, so that the word
loops over one-byte data are the per-character loops. The decoder that the count selects undoes the
encoder, and the encoder undoes the decoder up to surrogates that were encoded apart.
-/

namespace DartSdk.Unicode

section

section

open CodePoints List Nat

lemma charLength_eq (ch : ℕ) : charLength ch = (utf8Bytes ch).length := by
  simp only [charLength, utf8Bytes, kMaxOneByteChar, kMaxTwoByteChar, kMaxThreeByteChar]
  norm_cast
  split_ifs <;> rfl

lemma trail_byte (x : ℕ) :
    UInt8.ofNat (0x80 ||| (x &&& kMask)) = UInt8.ofNat (0x80 + x % 64) := by
  have hall : ∀ i : Fin 256, (0x80 ||| (i.val &&& kMask % 2 ^ 8)) = 0x80 + i.val % 64 := by
    decide +kernel
  apply UInt8.toNat_inj.mp
  rw [UInt8.toNat_ofNat', UInt8.toNat_ofNat', or_mod_two_pow, and_mod_two_pow]
  have h : 0x80 ||| (x % 2 ^ 8 &&& kMask % 2 ^ 8) = 0x80 + x % 2 ^ 8 % 64 :=
    hall ⟨x % 2 ^ 8, mod_lt _ (by decide)⟩
  rw [show 0x80 % 2 ^ 8 = 0x80 from rfl, h]
  omega

lemma lead_byte (marker bound : ℕ) (x : ℕ) (hx : x < bound)
    (hall : ∀ i : Fin bound, marker ||| i.val = marker + i.val) :
    marker ||| x = marker + x := hall ⟨x, hx⟩

lemma encodeChar_eq (ch : ℕ) (hmax : ch ≤ maxCodePoint) : encodeChar ch = utf8Bytes ch := by
  unfold maxCodePoint at hmax
  simp only [encodeChar, utf8Bytes, kMaxOneByteChar, kMaxTwoByteChar, kMaxThreeByteChar, trail_byte,
    shiftRight_eq_div_pow]
  norm_cast
  split_ifs
  · rfl
  · rw [lead_byte 0xC0 32 _ (by omega) (by decide)]
  · rw [lead_byte 0xE0 16 _ (by omega) (by decide)]
  · rw [lead_byte 0xF0 8 _ (by omega) (by decide)]

lemma and_high (x : ℕ) (hx : x < 2 ^ 32) : x &&& 0xFFFFFC00 = x / 1024 * 1024 := by
  have hhigh : (x &&& 0xFFFFFC00) / 1024 = x / 1024 := by
    have h := shiftRight_and_distrib (a := x) (b := 0xFFFFFC00) (i := 10)
    rw [shiftRight_eq_div_pow, shiftRight_eq_div_pow] at h
    rw [show (1024 : ℕ) = 2 ^ 10 from rfl, h, show 0xFFFFFC00 >>> 10 = 2 ^ 22 - 1 from rfl,
      and_two_pow_sub_one_eq_mod]
    omega
  have hlow : (x &&& 0xFFFFFC00) % 1024 = 0 := by
    have h := and_mod_two_pow (a := x) (b := 0xFFFFFC00) (n := 10)
    rw [show 0xFFFFFC00 % 2 ^ 10 = 0 from rfl, and_zero] at h
    exact h
  omega

lemma isLeadSurrogate_iff (u : UInt16) : isLeadSurrogate u.toNat = true ↔ IsLead u.toNat := by
  have hu := u.toNat_lt
  rw [isLeadSurrogate, and_high _ (by omega), beq_iff_eq]
  unfold IsLead
  omega

lemma isTrailSurrogate_iff (u : UInt16) : isTrailSurrogate u.toNat = true ↔ IsTrail u.toNat := by
  have hu := u.toNat_lt
  rw [isTrailSurrogate, and_high _ (by omega), beq_iff_eq]
  unfold IsTrail
  omega

lemma utf16_decode_eq (u v : UInt16) (hu : IsLead u.toNat) (hv : IsTrail v.toNat) :
    Utf16.decode u.toNat v.toNat = pairPoint u.toNat v.toNat := by
  have hlead : u.toNat &&& 0x3FF = u.toNat % 1024 := and_two_pow_sub_one_eq_mod _ 10
  have htrail : v.toNat &&& 0x3FF = v.toNat % 1024 := and_two_pow_sub_one_eq_mod _ 10
  obtain ⟨hu, hu'⟩ := hu
  obtain ⟨hv, hv'⟩ := hv
  unfold Utf16.decode pairPoint
  omega

namespace CodePointIterator

def position (it : CodePointIterator) : ℤ := it.index + Utf16.length it.ch

lemma utf16Length_unit (u : UInt16) : Utf16.length u.toNat = 1 := by
  have hu := u.toNat_lt
  rw [Utf16.length, if_pos (by unfold kMaxCodeUnit; omega)]

lemma utf16Length_pair (a b : ℕ) : Utf16.length (pairPoint a b) = 2 := by
  rw [Utf16.length, if_neg (by unfold kMaxCodeUnit pairPoint; omega)]

lemma visit_none {str : List UInt16} {it : CodePointIterator} (h : it.next str = none) :
    it.visit str = [] := by
  rw [visit]
  split
  · rfl
  · rename_i it' h'
    rw [h] at h'
    cases h'

lemma visit_some {str : List UInt16} {it it' : CodePointIterator} (h : it.next str = some it') :
    it.visit str = it'.ch :: it'.visit str := by
  rw [visit]
  split
  · rename_i h'
    rw [h] at h'
    cases h'
  · rename_i it'' h'
    rw [h] at h'
    cases h'
    rfl

lemma next_end (str : List UInt16) (it : CodePointIterator) (hpos : it.position = str.length) :
    it.next str = none := by
  unfold position at hpos
  rw [next, if_neg (by omega)]

lemma next_unit (before : List UInt16) (u : UInt16) (rest : List UInt16) (it : CodePointIterator)
    (hpos : it.position = before.length)
    (h : ∀ v tail, rest = v :: tail → ¬ (IsLead u.toNat ∧ IsTrail v.toNat)) :
    it.next (before ++ u :: rest) = some ⟨u.toNat, before.length⟩ := by
  unfold position at hpos
  have hunit : (before ++ u :: rest).getD (it.index + Utf16.length it.ch).toNat 0 = u := by
    rw [hpos]
    simp
  rw [next, if_pos (by simp only [length_append, length_cons]; omega)]
  simp only [hunit]
  rw [hpos]
  split
  · rename_i hlead
    rw [Bool.and_eq_true, isLeadSurrogate_iff, decide_eq_true_iff] at hlead
    rw [if_neg]
    intro htrail
    cases rest with
    | nil => simp at hlead
    | cons v tail =>
      refine h v tail rfl ⟨hlead.1, ?_⟩
      rw [← isTrailSurrogate_iff]
      simpa using htrail
  · rfl

lemma next_pair (before : List UInt16) (u v : UInt16) (rest : List UInt16)
    (it : CodePointIterator) (hpos : it.position = before.length) (hu : IsLead u.toNat)
    (hv : IsTrail v.toNat) :
    it.next (before ++ u :: v :: rest) = some ⟨pairPoint u.toNat v.toNat, before.length⟩ := by
  unfold position at hpos
  have hunit : (before ++ u :: v :: rest).getD (it.index + Utf16.length it.ch).toNat 0 = u := by
    rw [hpos]
    simp
  have hnext : (before ++ u :: v :: rest).getD ((it.index + Utf16.length it.ch).toNat + 1) 0 =
      v := by
    rw [hpos]
    simp
  rw [next, if_pos (by simp only [length_append, length_cons]; omega)]
  simp only [hunit, hnext]
  rw [if_pos, if_pos ((isTrailSurrogate_iff v).mpr hv), utf16_decode_eq u v hu hv, hpos]
  rw [Bool.and_eq_true, isLeadSurrogate_iff, decide_eq_true_iff, hpos]
  refine ⟨hu, ?_⟩
  simp only [length_append, length_cons]
  omega

lemma visit_eq_pairUnits (before rest : List UInt16) (it : CodePointIterator)
    (hpos : it.position = before.length) : it.visit (before ++ rest) = pairUnits rest := by
  induction rest using pairUnits.induct generalizing before it with
  | case1 =>
    rw [append_nil, visit_none (next_end before it hpos)]
    rfl
  | case2 u =>
    rw [visit_some (next_unit before u [] it hpos (by simp)), visit_none (next_end _ _ _)]
    · rfl
    · simp [position, utf16Length_unit]
  | case3 u v rest hpair ih =>
    rw [visit_some (next_pair before u v rest it hpos hpair.1 hpair.2), pairUnits, if_pos hpair]
    have htail := ih (before ++ [u, v]) ⟨pairPoint u.toNat v.toNat, before.length⟩
      (by rw [position, utf16Length_pair]; simp)
    rw [← htail, append_assoc, cons_append, singleton_append]
  | case4 u v rest hpair ih =>
    rw [visit_some (next_unit before u (v :: rest) it hpos (by
      intro w tail h
      obtain ⟨rfl, -⟩ := List.cons.inj h
      exact hpair)), pairUnits, if_neg hpair]
    have htail := ih (before ++ [u]) ⟨u.toNat, before.length⟩ (by simp [position, utf16Length_unit])
    rw [← htail, append_assoc, singleton_append]

end CodePointIterator

lemma codePoints_eq (str : List UInt16) : codePoints str = pairUnits str :=
  CodePointIterator.visit_eq_pairUnits [] str CodePointIterator.start rfl

/-- What `Length` and `Encode` assert of a character holds of every code point of a string. -/
lemma codePoints_le (str : List UInt16) : ∀ ch ∈ codePoints str, (ch : ℤ) ≤ kMaxFourByteChar := by
  intro ch hch
  rw [codePoints_eq] at hch
  have hle := pairUnits_le str ch hch
  unfold maxCodePoint at hle
  unfold kMaxFourByteChar kMaxCodePoint
  omega

end

section

open List Nat

lemma loadWord_and (data mask : List UInt8) (h : data.length = mask.length) :
    loadWord data &&& loadWord mask = loadWord (List.zipWith (· &&& ·) data mask) := by
  induction data generalizing mask with
  | nil => simp [loadWord]
  | cons b data ih =>
    cases mask with
    | nil => simp at h
    | cons m mask =>
      have hb := b.toNat_lt
      have hm := m.toNat_lt
      have htail := ih mask (by simpa using h)
      simp only [loadWord, zipWith_cons_cons, ← htail, UInt8.toNat_and]
      have hlow := and_mod_two_pow (a := b.toNat + 256 * loadWord data)
        (b := m.toNat + 256 * loadWord mask) (n := 8)
      have hhigh := shiftRight_and_distrib (a := b.toNat + 256 * loadWord data)
        (b := m.toNat + 256 * loadWord mask) (i := 8)
      simp only [shiftRight_eq_div_pow] at hhigh
      rw [show (b.toNat + 256 * loadWord data) % 2 ^ 8 = b.toNat by omega,
        show (m.toNat + 256 * loadWord mask) % 2 ^ 8 = m.toNat by omega] at hlow
      rw [show (b.toNat + 256 * loadWord data) / 2 ^ 8 = loadWord data by omega,
        show (m.toNat + 256 * loadWord mask) / 2 ^ 8 = loadWord mask by omega] at hhigh
      omega

def highByte (high : Bool) : UInt8 := if high then 0x80 else 0

def isHigh (c : UInt8) : Bool := 0x80 ≤ c.toNat

lemma and_highBit (b : UInt8) : b &&& 0x80 = highByte (isHigh b) := by
  have hall : ∀ i : Fin 256, UInt8.ofNat i.val &&& 0x80 =
      highByte (isHigh (UInt8.ofNat i.val)) := by
    decide +kernel
  have h := hall ⟨b.toNat, b.toNat_lt⟩
  simpa only [UInt8.ofNat_toNat] using h

lemma kAsciiWordMask_eq (W : WordSize) :
    W.kAsciiWordMask = loadWord (List.replicate W.bytes 0x80) := by
  cases W <;> rfl

lemma zipWith_and_replicate (data : List UInt8) :
    List.zipWith (· &&& ·) data (List.replicate data.length 0x80) =
      (data.map isHigh).map highByte := by
  induction data with
  | nil => rfl
  | cons b data ih =>
    rw [length_cons, replicate_succ, zipWith_cons_cons, ih, and_highBit]
    rfl

lemma masked_word (W : WordSize) (data : List UInt8) (h : data.length = W.bytes) :
    loadWord data &&& W.kAsciiWordMask = loadWord ((data.map isHigh).map highByte) := by
  rw [kAsciiWordMask_eq, loadWord_and _ _ (by simpa using h), ← h, zipWith_and_replicate]

lemma loadWord_highBytes_eq_zero (highs : List Bool) :
    loadWord (highs.map highByte) = 0 ↔ highs.count true = 0 := by
  induction highs with
  | nil => simp [loadWord]
  | cons high highs ih =>
    cases high with
    | false => simpa [loadWord, highByte] using ih
    | true => simp [loadWord, highByte]

lemma countHighBits_eq (W : WordSize) (highs : List Bool) (h : highs.length = W.bytes) :
    countHighBits W (loadWord (highs.map highByte)) = highs.count true := by
  cases W with
  | word32 =>
    have hall : ∀ a b c d : Bool, countHighBits .word32 (loadWord ([a, b, c, d].map highByte)) =
        [a, b, c, d].count true := by decide +kernel
    match highs, h with
    | [a, b, c, d], _ => exact hall a b c d
  | word64 =>
    have hall : ∀ a b c d e f g i : Bool,
        countHighBits .word64 (loadWord ([a, b, c, d, e, f, g, i].map highByte)) =
          [a, b, c, d, e, f, g, i].count true := by decide +kernel
    match highs, h with
    | [a, b, c, d, e, f, g, i], _ => exact hall a b c d e f g i

lemma wordBytes_loadWord (data : List UInt8) : wordBytes data.length (loadWord data) = data := by
  induction data with
  | nil => rfl
  | cons b data ih =>
    have hb := b.toNat_lt
    rw [length_cons, wordBytes, loadWord,
      show (b.toNat + 256 * loadWord data) % 256 = b.toNat by omega,
      show (b.toNat + 256 * loadWord data) / 256 = loadWord data by omega, ih, UInt8.ofNat_toNat]

lemma lengthChars_eq (data : List UInt8) (n : ℕ) :
    lengthChars data n = n + (data.map isHigh).count true := by
  unfold lengthChars
  induction data generalizing n with
  | nil => rfl
  | cons c data ih =>
    rw [foldl_cons, ih, map_cons, count_cons]
    by_cases h : 0x80 ≤ c.toNat
    · rw [if_pos (by unfold kMaxOneByteChar; omega)]
      simp [isHigh, h]
      omega
    · rw [if_neg (by unfold kMaxOneByteChar; omega)]
      simp [isHigh, h]

lemma countHighBits_masked (W : WordSize) (word : List UInt8) (h : word.length = W.bytes) (n : ℕ) :
    (if loadWord word &&& W.kAsciiWordMask ≠ 0 then
      n + countHighBits W (loadWord word &&& W.kAsciiWordMask) else n) = lengthChars word n := by
  rw [masked_word W word h, countHighBits_eq W _ (by simpa using h), lengthChars_eq]
  have hzero := loadWord_highBytes_eq_zero (word.map isHigh)
  split_ifs <;> omega

lemma lengthWords_eq_lengthChars (W : WordSize) (data : List UInt8) (n : ℕ) :
    lengthWords W data n = lengthChars data n := by
  induction hk : data.length using Nat.strong_induction_on generalizing data n with
  | _ k ih =>
  rw [lengthWords]
  split_ifs with hword
  · have hpos := W.bytes_pos
    rw [ih (data.drop W.bytes).length (by rw [length_drop]; omega) _ _ rfl,
      countHighBits_masked W _ (by rw [length_take]; omega)]
    unfold lengthChars
    rw [← foldl_append, take_append_drop]
  · rfl

end

open CodePoints Buffers List Option

lemma length_utf8Bytes_byte (c : UInt8) :
    (utf8Bytes c.toNat).length = if isHigh c then 2 else 1 := by
  have hc := c.toNat_lt
  unfold utf8Bytes isHigh
  by_cases h : 0x80 ≤ c.toNat
  · rw [if_neg (by omega), if_pos (by omega), if_pos (by simpa using h)]
    rfl
  · rw [if_pos (by omega), if_neg (by simpa using h)]
    rfl

/-- The UTF-8 form of one-byte data. -/
def oneByteUtf8 (data : List UInt8) : List UInt8 := data.flatMap fun c => utf8Bytes c.toNat

lemma length_oneByteUtf8 (data : List UInt8) :
    (oneByteUtf8 data).length = data.length + (data.map isHigh).count true := by
  unfold oneByteUtf8
  induction data with
  | nil => rfl
  | cons c data ih =>
    rw [flatMap_cons, length_append, ih, length_utf8Bytes_byte, map_cons, count_cons, length_cons]
    cases isHigh c <;> simp <;> omega

lemma foldl_charLength (points : List ℕ) (n : ℕ) :
    points.foldl (fun (length ch : ℕ) => length + charLength ch) n =
      n + (points.flatMap utf8Bytes).length := by
  induction points generalizing n with
  | nil => rfl
  | cons c points ih =>
    rw [foldl_cons, ih, charLength_eq, flatMap_cons, length_append, add_assoc]

/-- The UTF-8 form of a string: the shortest forms of its greedily read code points. -/
def utf8 (s : DartString) : List UInt8 := (pairUnits s.codeUnits).flatMap utf8Bytes

lemma pairUnits_oneByte (data : List UInt8) :
    pairUnits (DartString.oneByte data).codeUnits = data.map UInt8.toNat := by
  unfold DartString.codeUnits
  induction data with
  | nil => rfl
  | cons c data ih =>
    have hc := c.toNat_lt
    have hunit : (UInt16.ofNat c.toNat).toNat = c.toNat := toNat_ofNat_unit _ (by omega)
    simp only [map_cons] at ih ⊢
    rw [pairUnits_single, ih, hunit]
    rintro v tail - ⟨⟨hlead, -⟩, -⟩
    omega

lemma utf8_oneByte (data : List UInt8) : utf8 (.oneByte data) = oneByteUtf8 data := by
  rw [utf8, pairUnits_oneByte, flatMap_map]
  rfl

lemma length_eq (W : WordSize) (s : DartString) : length W s = (utf8 s).length := by
  cases s with
  | oneByte data =>
    rw [length, lengthWords_eq_lengthChars, lengthChars_eq, utf8_oneByte, length_oneByteUtf8]
  | twoByte data =>
    rw [length, codePoints_eq, foldl_charLength, zero_add]
    rfl

/-- Continue after a loop that may have returned. -/
def Flow.andThen (flow : Flow) (next : List UInt8 → ℕ → Option Flow) : Option Flow :=
  match flow with
  | .returned dst pos => some (.returned dst pos)
  | .done dst pos => next dst pos

lemma encodeChars_append (data data' dst : List UInt8) (pos : ℕ) :
    encodeChars (data ++ data') dst pos =
      (encodeChars data dst pos).bind fun flow => flow.andThen (encodeChars data') := by
  induction data generalizing dst pos with
  | nil => rfl
  | cons c data ih =>
    simp only [cons_append, encodeChars]
    split
    · rfl
    · cases store dst pos (encodeChar c.toNat) with
      | none => rfl
      | some dst' => exact ih dst' _

lemma encodeChar_ascii (c : UInt8) (h : isHigh c = false) : encodeChar c.toNat = [c] := by
  have hc : c.toNat < 0x80 := by simpa [isHigh] using h
  rw [encodeChar, if_pos (by unfold kMaxOneByteChar; omega), UInt8.ofNat_toNat]

/-- A run of ASCII bytes is written as by one store of the whole run. -/
lemma encodeChars_ascii (data dst : List UInt8) (pos : ℕ) (h : ∀ c ∈ data, isHigh c = false)
    (hroom : pos + data.length ≤ dst.length) :
    encodeChars data dst pos = some (.done (overwrite dst pos data) (pos + data.length)) := by
  induction data generalizing dst pos with
  | nil => rw [overwrite_nil]; rfl
  | cons c data ih =>
    have hc := h c (mem_cons_self ..)
    have hchar : charLength c.toNat = 1 := by
      rw [charLength_eq, length_utf8Bytes_byte, hc]
      rfl
    rw [length_cons] at hroom
    have hone : pos + [c].length ≤ dst.length := by
      rw [length_singleton]
      omega
    have htail := ih (overwrite dst pos [c]) (pos + 1)
      (fun d hd => h d (mem_cons_of_mem c hd)) (by rw [length_overwrite _ _ _ hone]; omega)
    have hjoin := overwrite_overwrite dst pos [c] data hone
    rw [length_singleton, singleton_append] at hjoin
    simp only [encodeChars, hchar, encodeChar_ascii c hc]
    rw [if_neg (by omega), store, if_pos hone, bind_some, htail, hjoin, length_cons,
      add_assoc, add_comm 1]

lemma encodeWords_eq_encodeChars (W : WordSize) (data dst : List UInt8) (pos : ℕ) :
    encodeWords W data dst pos = encodeChars data dst pos := by
  induction hk : data.length using Nat.strong_induction_on generalizing data dst pos with
  | _ k ih =>
  have hpos := W.bytes_pos
  rw [encodeWords]
  by_cases hnil : data = []
  · rw [if_pos hnil, hnil]
    rfl
  have hdata := length_pos_iff.mpr hnil
  have hnext : ∀ dst pos, encodeWords W (data.drop W.bytes) dst pos =
      encodeChars (data.drop W.bytes) dst pos :=
    fun dst pos => ih (data.drop W.bytes).length (by rw [length_drop]; omega) _ _ _ rfl
  have hsplit : encodeChars data dst pos = (encodeChars (data.take W.bytes) dst pos).bind
      fun flow => flow.andThen (encodeChars (data.drop W.bytes)) := by
    rw [← encodeChars_append, take_append_drop]
  rw [if_neg hnil, hsplit]
  split_ifs with hascii
  · obtain ⟨hword, hmask, hroom⟩ := hascii
    have hlen : (data.take W.bytes).length = W.bytes := by rw [length_take]; omega
    have hhigh : ∀ c ∈ data.take W.bytes, isHigh c = false := by
      rw [masked_word W _ hlen, loadWord_highBytes_eq_zero, count_eq_zero] at hmask
      intro c hc
      cases hch : isHigh c with
      | false => rfl
      | true => exact absurd (mem_map.mpr ⟨c, hc, hch⟩) hmask
    have hbytes := wordBytes_loadWord (data.take W.bytes)
    rw [hlen] at hbytes
    rw [hbytes, store, if_pos (by omega), encodeChars_ascii _ _ _ hhigh (by omega), hlen,
      bind_some, bind_some, hnext]
    rfl
  · congr 1
    funext flow
    cases flow with
    | returned dst pos => rfl
    | done dst pos => exact hnext dst pos

lemma encodeChars_fill (data dst written : List UInt8) (hwr : written <+: dst)
    (hroom : written.length + (oneByteUtf8 data).length ≤ dst.length) :
    ∃ dst', encodeChars data dst written.length =
        some (.done dst' (written.length + (oneByteUtf8 data).length)) ∧
      written ++ oneByteUtf8 data <+: dst' ∧ dst'.length = dst.length := by
  induction data generalizing dst written with
  | nil => exact ⟨dst, rfl, by simpa [oneByteUtf8] using hwr, rfl⟩
  | cons c data ih =>
    have hc := c.toNat_lt
    have hbytes : encodeChar c.toNat = utf8Bytes c.toNat :=
      encodeChar_eq _ (by unfold maxCodePoint; omega)
    have hcons : oneByteUtf8 (c :: data) = utf8Bytes c.toNat ++ oneByteUtf8 data :=
      flatMap_cons
    rw [hcons, length_append] at hroom
    obtain ⟨dst', hstore, hpre, hlen⟩ :=
      store_prefix dst written (utf8Bytes c.toNat) hwr (by omega)
    obtain ⟨dst'', hloop, hpre', hlen'⟩ := ih dst' (written ++ utf8Bytes c.toNat) hpre
      (by rw [length_append]; omega)
    refine ⟨dst'', ?_, by rwa [hcons, ← append_assoc], by omega⟩
    rw [length_append] at hloop
    simp only [encodeChars, charLength_eq, hbytes]
    rw [if_neg (by omega), hstore, bind_some, hloop, hcons, length_append, add_assoc]

lemma encodePoints_fill (points : List ℕ) (dst written : List UInt8)
    (hle : ∀ c ∈ points, c ≤ maxCodePoint) (hwr : written <+: dst)
    (hroom : written.length + (points.flatMap utf8Bytes).length ≤ dst.length) :
    ∃ dst', encodePoints points dst written.length =
        some (dst', written.length + (points.flatMap utf8Bytes).length) ∧
      written ++ points.flatMap utf8Bytes <+: dst' ∧ dst'.length = dst.length := by
  induction points generalizing dst written with
  | nil => exact ⟨dst, rfl, by simpa using hwr, rfl⟩
  | cons c points ih =>
    have hbytes := encodeChar_eq c (hle c (mem_cons_self ..))
    rw [flatMap_cons, length_append] at hroom
    obtain ⟨dst', hstore, hpre, hlen⟩ := store_prefix dst written (utf8Bytes c) hwr (by omega)
    obtain ⟨dst'', hloop, hpre', hlen'⟩ := ih dst' (written ++ utf8Bytes c)
      (fun d hd => hle d (mem_cons_of_mem c hd)) hpre (by rw [length_append]; omega)
    refine ⟨dst'', ?_, by rwa [flatMap_cons, ← append_assoc], by omega⟩
    rw [length_append] at hloop
    simp only [encodePoints, charLength_eq, hbytes]
    rw [if_neg (by omega), hstore, bind_some, hloop, flatMap_cons, length_append, add_assoc]

/-- The number `Utf8::Encode` returns when the buffer is large enough. -/
def encodedCount : DartString → ℕ
  | .oneByte _ => 0
  | .twoByte data => (utf8 (.twoByte data)).length

/-- A buffer of the right size is filled with the UTF-8 form, whatever it held. -/
lemma encode_eq (W : WordSize) (s : DartString) (dst : List UInt8)
    (hdst : dst.length = length W s) : encode W s dst = some (utf8 s, encodedCount s) := by
  rw [encode, if_pos (by omega)]
  rw [length_eq] at hdst
  cases s with
  | oneByte data =>
    rw [utf8_oneByte] at hdst ⊢
    obtain ⟨dst', hloop, hpre, hlen⟩ := encodeChars_fill data dst [] nil_prefix
      (by simp only [length_nil]; omega)
    simp only [encodeWords_eq_encodeChars]
    rw [length_nil] at hloop
    rw [hloop, eq_of_prefix_full dst' _ hpre (by simp only [nil_append]; omega)]
    rfl
  | twoByte data =>
    obtain ⟨dst', hloop, hpre, hlen⟩ := encodePoints_fill (pairUnits data) dst []
      (pairUnits_le data) nil_prefix (by
        simp only [length_nil, zero_add]
        exact hdst.ge)
    rw [length_nil] at hloop
    simp only [codePoints_eq]
    rw [hloop, eq_of_prefix_full dst' _ hpre (by
      rw [hlen, hdst]
      rfl), zero_add]
    rfl

end

open CodePoints List Option

/-- The decoder `String::FromUTF8` picks for a representation, on a buffer of either kind. -/
def decodeAs (charType : CharType) (utf8Array cells : List UInt8) (units : List UInt16) :
    Option (Bool × DartString) :=
  match charType with
  | .latin1 => (decodeToLatin1 utf8Array cells).map fun r => (r.1, .oneByte r.2)
  | _ => (decodeToUTF16 utf8Array units).map fun r => (r.1, .twoByte r.2)

/-- What the decoder produces for the code points of an array. -/
def decoded (points : List ℕ) : DartString :=
  match points.foldl widen .latin1 with
  | .latin1 => .oneByte (points.map UInt8.ofNat)
  | _ => .twoByte (points.flatMap utf16Units)

lemma map_latin1_units (points : List ℕ) (h : ∀ c ∈ points, c ≤ 0xFF) :
    (DartString.oneByte (points.map UInt8.ofNat)).codeUnits = points.flatMap utf16Units := by
  unfold DartString.codeUnits
  induction points with
  | nil => rfl
  | cons c points ih =>
    have hc := h c (mem_cons_self ..)
    have htail := ih fun d hd => h d (mem_cons_of_mem c hd)
    simp only [map_cons] at htail ⊢
    rw [htail, toNat_ofNat_byte c (by omega), flatMap_cons, utf16Units, if_pos (by omega),
      singleton_append]

lemma codeUnits_decoded (points : List ℕ) :
    (decoded points).codeUnits = points.flatMap utf16Units := by
  unfold decoded
  split
  · rename_i htype
    exact map_latin1_units points (foldl_widen_eq_latin1 points .latin1 htype).2
  · rfl

/-- The decoder for the counted type fills a buffer of the counted size, whatever it held. -/
lemma decodeAs_flatMap (points : List ℕ) (hle : ∀ c ∈ points, c ≤ maxCodePoint)
    (cells : List UInt8) (units : List UInt16)
    (hcells : cells.length = (points.flatMap utf16Units).length)
    (hunits : units.length = (points.flatMap utf16Units).length) :
    decodeAs (points.foldl widen .latin1) (points.flatMap utf8Bytes) cells units =
      some (true, decoded points) := by
  unfold decodeAs decoded
  cases htype : points.foldl widen .latin1 with
  | latin1 =>
    have hlow := (foldl_widen_eq_latin1 points .latin1 htype).2
    have hcnt : cells.length = points.length := by
      rw [hcells, ← map_latin1_units points hlow]
      simp [DartString.codeUnits]
    have hloop := decodeToLatin1Loop_flatMap points cells [] hlow nil_prefix
      (by rw [length_nil]; omega)
    simp only [decodeToLatin1]
    rw [length_nil] at hloop
    rw [hloop, nil_append]
    rfl
  | bmp =>
    have hloop := decodeToUTF16Loop_flatMap points units [] hle nil_prefix
      (by rw [length_nil]; omega)
    simp only [decodeToUTF16]
    rw [length_nil] at hloop
    rw [hloop, nil_append]
    rfl
  | supplementary =>
    have hloop := decodeToUTF16Loop_flatMap points units [] hle nil_prefix
      (by rw [length_nil]; omega)
    simp only [decodeToUTF16]
    rw [length_nil] at hloop
    rw [hloop, nil_append]
    rfl

/-- The decoder for the counted type stays inside its buffer and succeeds only on well formed input.
-/
lemma decodeAs_total (bytes cells : List UInt8) (units : List UInt16) :
    ∃ ok s, decodeAs (codeUnitCount bytes).2 bytes cells units = some (ok, s) ∧
      (ok = true → WellFormed bytes) := by
  have hutf16 := decodeToUTF16Loop_total bytes 0 units (Nat.zero_le _)
  unfold decodeAs
  cases htype : (codeUnitCount bytes).2 with
  | latin1 =>
    obtain ⟨ok, dst, hloop, -, hok⟩ := decodeToLatin1Loop_total bytes 0 cells
      (latin1_of_foldl_countStep bytes _ htype).2 (Nat.zero_le _)
    exact ⟨ok, .oneByte dst, by simp only [decodeToLatin1, hloop, map_some], hok⟩
  | bmp =>
    obtain ⟨ok, dst, hloop, -, hok⟩ := hutf16
    exact ⟨ok, .twoByte dst, by simp only [decodeToUTF16, hloop, map_some], hok⟩
  | supplementary =>
    obtain ⟨ok, dst, hloop, -, hok⟩ := hutf16
    exact ⟨ok, .twoByte dst, by simp only [decodeToUTF16, hloop, map_some], hok⟩

/-- `Utf8::Encode` fills a buffer of `Utf8::Length` bytes and returns `count`, and the decoder for
the counted type gives back the code units. The word loops are the per-character loops. -/
structure RoundTrips (W : WordSize) (s : DartString) (count : ℕ) : Prop where
  encoded : ∃ bytes : List UInt8, bytes.length = length W s ∧
    (∀ dst : List UInt8, dst.length = length W s → encode W s dst = some (bytes, count)) ∧
    ∀ (cells : List UInt8) (units : List UInt16), cells.length = (codeUnitCount bytes).1 →
      units.length = (codeUnitCount bytes).1 →
      ∃ s', decodeAs (codeUnitCount bytes).2 bytes cells units = some (true, s') ∧
        s'.codeUnits = s.codeUnits
  lengthLoops : ∀ data, s = .oneByte data → ∀ n, lengthWords W data n = lengthChars data n
  encodeLoops : ∀ data, s = .oneByte data → ∀ dst pos,
    encodeWords W data dst pos = encodeChars data dst pos

lemma roundTrips_encodedCount (W : WordSize) (s : DartString) :
    RoundTrips W s (encodedCount s) where
  encoded := by
    have hle := pairUnits_le s.codeUnits
    refine ⟨utf8 s, (length_eq W s).symm, encode_eq W s, ?_⟩
    rw [utf8, codeUnitCount_flatMap _ hle]
    intro cells units hcells hunits
    refine ⟨_, decodeAs_flatMap _ hle cells units hcells hunits, ?_⟩
    rw [codeUnits_decoded, flatMap_pairUnits]
  lengthLoops data _ := lengthWords_eq_lengthChars W data
  encodeLoops data _ := encodeWords_eq_encodeChars W data

lemma RoundTrips.count_eq {W : WordSize} {s : DartString} {count : ℕ}
    (h : RoundTrips W s count) : count = encodedCount s := by
  obtain ⟨bytes, hlen, hencode, -⟩ := h.encoded
  have hsame := hencode bytes hlen
  rw [encode_eq W s bytes hlen, Option.some.injEq, Prod.mk.injEq] at hsame
  exact hsame.2.symm

lemma length_eq_encodedCount_iff (W : WordSize) (s : DartString) :
    length W s = encodedCount s ↔ (∃ data, s = .twoByte data) ∨ s.codeUnits = [] := by
  rw [length_eq]
  cases s with
  | oneByte data =>
    rw [utf8_oneByte, length_oneByteUtf8, encodedCount]
    cases data <;> simp [DartString.codeUnits]
  | twoByte data => simp [encodedCount]

/-- `Utf8::Encode` returns `Utf8::Length` for two-byte and for empty strings only. The rest of the
round trip holds for every string. -/
theorem roundTrips_length_iff (W : WordSize) (s : DartString) :
    (RoundTrips W s (length W s) ↔ (∃ data, s = .twoByte data) ∨ s.codeUnits = []) ∧
      RoundTrips W s (encodedCount s) := by
  refine ⟨?_, roundTrips_encodedCount W s⟩
  rw [← length_eq_encodedCount_iff W s]
  constructor
  · exact RoundTrips.count_eq
  · intro h
    rw [h]
    exact roundTrips_encodedCount W s

/-- The one-byte string of a single letter is encoded with the result 0. -/
theorem not_roundTrips_oneByte :
    encode .word64 (.oneByte [0x61]) [0] = some ([0x61], 0) ∧
      ¬ RoundTrips .word64 (.oneByte [0x61]) (length .word64 (.oneByte [0x61])) := by
  refine ⟨?_, fun h => ?_⟩
  · rw [encode_eq _ _ _ (by rw [length_eq]; rfl)]
    rfl
  · have hcount := h.count_eq
    rw [length_eq] at hcount
    cases hcount

lemma flatMap_utf8Bytes_injective (points points' : List ℕ)
    (hle : ∀ c ∈ points, c ≤ maxCodePoint) (hle' : ∀ c ∈ points', c ≤ maxCodePoint)
    (h : points.flatMap utf8Bytes = points'.flatMap utf8Bytes) : points = points' := by
  induction points generalizing points' with
  | nil =>
    cases points' with
    | nil => rfl
    | cons d points' =>
      exact absurd (append_eq_nil_iff.mp h.symm).1 (utf8Bytes_ne_nil d)
  | cons c points ih =>
    cases points' with
    | nil =>
      exact absurd (append_eq_nil_iff.mp h).1 (utf8Bytes_ne_nil c)
    | cons d points' =>
      obtain ⟨first, more, hc⟩ := exists_cons_of_ne_nil (utf8Bytes_ne_nil c)
      obtain ⟨first', more', hd⟩ := exists_cons_of_ne_nil (utf8Bytes_ne_nil d)
      rw [flatMap_cons, flatMap_cons, hc, hd, cons_append, cons_append, List.cons.injEq] at h
      obtain ⟨rfl, hmore⟩ := h
      -- Both sides start with the sequence that the scan finds.
      have hseq := sequence_of_utf8Bytes first more (points.flatMap utf8Bytes) c
        (hle c (mem_cons_self ..)) hc
      rw [hmore, sequence_of_utf8Bytes first more' _ d (hle' d (mem_cons_self ..)) hd,
        Option.some.injEq, Prod.mk.injEq] at hseq
      obtain ⟨-, rfl⟩ := hseq
      obtain rfl : more = more' := (List.cons.inj (hc.symm.trans hd)).2
      rw [ih points' (fun x hx => hle x (mem_cons_of_mem d hx))
        (fun x hx => hle' x (mem_cons_of_mem d hx)) (append_cancel_left hmore)]

/-- Re-encoding joins surrogates that were encoded apart, and changes nothing else. -/
lemma utf8_decoded_eq_iff (points : List ℕ) (hle : ∀ c ∈ points, c ≤ maxCodePoint) :
    utf8 (decoded points) = points.flatMap utf8Bytes ↔ NoSplitPair points := by
  rw [utf8, codeUnits_decoded]
  constructor
  · intro h
    have hpoints := flatMap_utf8Bytes_injective _ points (pairUnits_le _) hle h
    rw [← hpoints]
    exact noSplitPair_pairUnits _
  · intro h
    rw [pairUnits_flatMap points hle h]

/-- Validation, measuring and decoding agree on every array. The decoder succeeds exactly on
concatenations of shortest forms, where it fills the buffer, and re-encoding gives back the array
exactly when no encoded lead surrogate is directly followed by an encoded trail surrogate. -/
theorem isValid_decodeAs_agree (bytes : List UInt8) :
    (isValid bytes = true ↔ WellFormed bytes) ∧
      (∀ (cells : List UInt8) (units : List UInt16), cells.length = (codeUnitCount bytes).1 →
        units.length = (codeUnitCount bytes).1 →
        ∃ ok s, decodeAs (codeUnitCount bytes).2 bytes cells units = some (ok, s) ∧
          (ok = true ↔ isValid bytes = true)) ∧
      ∀ points : List ℕ, (∀ c ∈ points, c ≤ maxCodePoint) → bytes = points.flatMap utf8Bytes →
        ∃ s : DartString, s.codeUnits.length = (codeUnitCount bytes).1 ∧
          (∀ (cells : List UInt8) (units : List UInt16), cells.length = (codeUnitCount bytes).1 →
            units.length = (codeUnitCount bytes).1 →
            decodeAs (codeUnitCount bytes).2 bytes cells units = some (true, s)) ∧
          ∀ (W : WordSize) (dst : List UInt8), dst.length = length W s →
            ((encode W s dst).map Prod.fst = some bytes ↔ NoSplitPair points) := by
  refine ⟨isValid_iff_wellFormed bytes, ?_, ?_⟩
  · intro cells units hcells hunits
    obtain ⟨ok, s, hdecode, hok⟩ := decodeAs_total bytes cells units
    refine ⟨ok, s, hdecode, ?_⟩
    rw [isValid_iff_wellFormed]
    refine ⟨hok, ?_⟩
    rintro ⟨points, hle, rfl⟩
    rw [codeUnitCount_flatMap points hle] at hcells hunits hdecode
    rw [decodeAs_flatMap points hle cells units hcells hunits, Option.some.injEq,
      Prod.mk.injEq] at hdecode
    exact hdecode.1.symm
  · rintro points hle rfl
    rw [codeUnitCount_flatMap points hle]
    refine ⟨decoded points, by rw [codeUnits_decoded], decodeAs_flatMap points hle, ?_⟩
    intro W dst hdst
    rw [encode_eq W _ dst hdst, map_some, Option.some.injEq]
    exact utf8_decoded_eq_iff points hle

/-- Two surrogates encoded one after the other come back as one four-byte sequence. -/
theorem reencoded_surrogates :
    isValid [0xED, 0xA0, 0x80, 0xED, 0xB0, 0x80] = true ∧
      codeUnitCount [0xED, 0xA0, 0x80, 0xED, 0xB0, 0x80] = (2, .bmp) ∧
      decodeToUTF16 [0xED, 0xA0, 0x80, 0xED, 0xB0, 0x80] [0, 0] = some (true, [0xD800, 0xDC00]) ∧
      encode .word64 (.twoByte [0xD800, 0xDC00]) [0, 0, 0, 0] =
        some ([0xF0, 0x90, 0x80, 0x80], 4) := by
  have hle : ∀ c ∈ [0xD800, 0xDC00], c ≤ maxCodePoint := by decide
  refine ⟨isValid_flatMap [0xD800, 0xDC00] hle, rfl, ?_, ?_⟩
  · exact decodeToUTF16Loop_flatMap [0xD800, 0xDC00] [0, 0] [] hle nil_prefix rfl
  · rw [encode_eq _ _ _ (by rw [length_eq]; rfl)]
    rfl

end DartSdk.Unicode
