import DartSdk.Checked
import DartSdk.Encodings

/-!
The UTF-8 and UTF-16 routines of runtime/platform/unicode.cc, runtime/platform/unicode.h
and runtime/vm/unicode.cc, with the code point iterator of runtime/vm/object.cc.
An array argument together with an index is the list of its elements from that index on;
an output buffer is the list of its cells, and a store outside it yields `none`, as does a
failed ASSERT. uint32_t and uintptr_t arithmetic is reduced modulo the word size. A scanned sequence
is the shortest form of its code point. On well formed input the count is the number of UTF-16 units
and the decoders append them; on any other input they stay inside the buffer and report failure.
-/

namespace DartSdk.Unicode

open Buffers List

def kTrailBytes : List ℕ := [
  1, 1, 1, 1, 1, 1, 1, 1, 1, 1, 1, 1, 1, 1, 1, 1,
  1, 1, 1, 1, 1, 1, 1, 1, 1, 1, 1, 1, 1, 1, 1, 1,
  1, 1, 1, 1, 1, 1, 1, 1, 1, 1, 1, 1, 1, 1, 1, 1,
  1, 1, 1, 1, 1, 1, 1, 1, 1, 1, 1, 1, 1, 1, 1, 1,
  1, 1, 1, 1, 1, 1, 1, 1, 1, 1, 1, 1, 1, 1, 1, 1,
  1, 1, 1, 1, 1, 1, 1, 1, 1, 1, 1, 1, 1, 1, 1, 1,
  1, 1, 1, 1, 1, 1, 1, 1, 1, 1, 1, 1, 1, 1, 1, 1,
  1, 1, 1, 1, 1, 1, 1, 1, 1, 1, 1, 1, 1, 1, 1, 1,
  0, 0, 0, 0, 0, 0, 0, 0, 0, 0, 0, 0, 0, 0, 0, 0,
  0, 0, 0, 0, 0, 0, 0, 0, 0, 0, 0, 0, 0, 0, 0, 0,
  0, 0, 0, 0, 0, 0, 0, 0, 0, 0, 0, 0, 0, 0, 0, 0,
  0, 0, 0, 0, 0, 0, 0, 0, 0, 0, 0, 0, 0, 0, 0, 0,
  2, 2, 2, 2, 2, 2, 2, 2, 2, 2, 2, 2, 2, 2, 2, 2,
  2, 2, 2, 2, 2, 2, 2, 2, 2, 2, 2, 2, 2, 2, 2, 2,
  3, 3, 3, 3, 3, 3, 3, 3, 3, 3, 3, 3, 3, 3, 3, 3,
  4, 4, 4, 4, 4, 4, 4, 4, 5, 5, 5, 5, 6, 6, 0, 0]

def kMagicBits : List ℕ :=
  [0, 0x00000000, 0x00003080, 0x000E2080, 0x03C82080, 0xFA082080, 0x82082080]

def kOverlongMinimum : List ℕ :=
  [0, 0x0, 0x80, 0x800, 0x10000, 0xFFFFFFFF, 0xFFFFFFFF]

def kMaxCodePoint : ℤ := 0x10FFFF
def kMaxOneByteChar : ℤ := 0x7F
def kMaxTwoByteChar : ℤ := 0x7FF
def kMaxThreeByteChar : ℤ := 0xFFFF
def kMaxFourByteChar : ℤ := kMaxCodePoint
def kMaxCodeUnit : ℤ := 0xFFFF

/-- Conversion of a uint32_t to int32_t. -/
def toInt32 (x : ℕ) : ℤ := if x < 2 ^ 31 then x else x - 2 ^ 32

def isLatin1 (codePoint : ℤ) : Bool := codePoint ≥ 0 && codePoint ≤ 0xFF

def isOutOfRange (codePoint : ℤ) : Bool := codePoint < 0 || codePoint > kMaxCodePoint

def isTrailByte (codeUnit : UInt8) : Bool := codeUnit &&& 0xC0 == 0x80

def isNonShortestForm (codePoint numCodeUnits : ℕ) : Bool :=
  codePoint < kOverlongMinimum.getD numCodeUnits 0

def isLatin1SequenceStart (codeUnit : UInt8) : Bool := codeUnit ≤ 0xC3

def isSupplementarySequenceStart (codeUnit : UInt8) : Bool := codeUnit ≥ 0xF0

def isLeadSurrogate (ch : ℕ) : Bool := ch &&& 0xFFFFFC00 == 0xD800

def isTrailSurrogate (ch : ℕ) : Bool := ch &&& 0xFFFFFC00 == 0xDC00

namespace Utf16

def length (ch : ℤ) : ℕ := if ch ≤ kMaxCodeUnit then 1 else 2

def decode (lead trail : ℕ) : ℕ := 0x10000 + ((lead &&& 0x3FF) <<< 10) + (trail &&& 0x3FF)

def kLeadSurrogateOffset : ℕ := 0xD800 - (0x10000 >>> 10)

/-- The two units `Utf16::Encode` writes. -/
def encode (codepoint : ℕ) : List UInt16 :=
  [UInt16.ofNat (kLeadSurrogateOffset + (codepoint >>> 10)),
    UInt16.ofNat (0xDC00 + (codepoint &&& 0x3FF))]

end Utf16

/-- The loop over the trail bytes: `n` of them are still to come. `none` when the
array ends first. -/
def trailLoop : ℕ → List UInt8 → ℕ → Bool → Option (ℕ × Bool)
  | 0, _, ch, isMalformed => some (ch, isMalformed)
  | _ + 1, [], _, _ => none
  | n + 1, codeUnit :: rest, ch, isMalformed =>
    trailLoop n rest (((ch <<< 6) + codeUnit.toNat) % 2 ^ 32)
      (isMalformed || !isTrailByte codeUnit)

/-- The body shared by `IsValid` and `Decode`: the length and the code point of a sequence, unless
it is rejected. -/
def sequence (first : UInt8) (rest : List UInt8) : Option (ℕ × ℕ) :=
  if first.toNat < 0x80 then some (1, first.toNat)
  else
    let numTrailBytes := kTrailBytes.getD first.toNat 0
    -- j starts at 1 and stops at num_trail_bytes, or at once when that is 0.
    let j := 1 + (numTrailBytes - 1)
    match trailLoop (numTrailBytes - 1) rest first.toNat false with
    | none => none
    | some (ch, isMalformed) =>
      let ch := (ch + (2 ^ 32 - kMagicBits.getD numTrailBytes 0)) % 2 ^ 32
      if isMalformed = false && j == numTrailBytes && !isOutOfRange (toInt32 ch) &&
          !isNonShortestForm ch j then some (j, ch)
      else none

/-- `Utf8::Decode` on a nonempty array: the number of bytes and what `*dst` receives. -/
def decode (first : UInt8) (rest : List UInt8) : ℕ × ℤ :=
  match sequence first rest with
  | none => (0, -1)
  | some (i, ch) => (i, toInt32 ch)

def isValid : List UInt8 → Bool
  | [] => true
  | first :: rest =>
    match sequence first rest with
    | none => false
    | some (j, _) => isValid (rest.drop (j - 1))
termination_by bytes => bytes.length
decreasing_by simp only [length_cons, length_drop]; omega

inductive CharType
  | latin1 | bmp | supplementary
  deriving DecidableEq

def countStep (state : ℕ × CharType) (codeUnit : UInt8) : ℕ × CharType :=
  let (len, charType) := state
  if !isTrailByte codeUnit then
    if !isLatin1SequenceStart codeUnit then
      if isSupplementarySequenceStart codeUnit then (len + 2, .supplementary)
      else if charType = .latin1 then (len + 1, .bmp)
      else (len + 1, charType)
    else (len + 1, charType)
  else (len, charType)

def codeUnitCount (utf8Array : List UInt8) : ℕ × CharType :=
  utf8Array.foldl countStep (0, .latin1)

/-- The loop of `DecodeToLatin1`; the buffer `dst` has `len` cells. -/
def decodeToLatin1Loop (utf8Array : List UInt8) (j : ℕ) (dst : List UInt8) :
    Option (Bool × List UInt8) :=
  match utf8Array with
  | [] => some (true, dst)
  | first :: rest =>
    if j < dst.length then
      if isLatin1SequenceStart first then
        let (numBytes, ch) := decode first rest
        if ch = -1 then some (false, dst)
        else if isLatin1 ch then
          (store dst j [UInt8.ofNat ch.toNat]).bind fun dst =>
            decodeToLatin1Loop (rest.drop (numBytes - 1)) (j + 1) dst
        else none
      else none
    else some (!(j == dst.length), dst)
termination_by utf8Array.length
decreasing_by simp only [length_cons, length_drop]; omega

def decodeToLatin1 (utf8Array dst : List UInt8) : Option (Bool × List UInt8) :=
  decodeToLatin1Loop utf8Array 0 dst

def decodeToUTF16Loop (utf8Array : List UInt8) (j : ℕ) (dst : List UInt16) :
    Option (Bool × List UInt16) :=
  match utf8Array with
  | [] => some (true, dst)
  | first :: rest =>
    if j < dst.length then
      let (numBytes, ch) := decode first rest
      if ch = -1 then some (false, dst)
      else if isSupplementarySequenceStart first then
        if j == dst.length - 1 then some (false, dst)
        else if ch > kMaxCodeUnit then
          (store dst j (Utf16.encode ch.toNat)).bind fun dst =>
            decodeToUTF16Loop (rest.drop (numBytes - 1)) (j + 1 + 1) dst
        else none
      else
        (store dst j [UInt16.ofNat ch.toNat]).bind fun dst =>
          decodeToUTF16Loop (rest.drop (numBytes - 1)) (j + 1) dst
    else some (!(j == dst.length), dst)
termination_by utf8Array.length
decreasing_by
  all_goals simp only [length_cons, length_drop]; omega

def decodeToUTF16 (utf8Array : List UInt8) (dst : List UInt16) : Option (Bool × List UInt16) :=
  decodeToUTF16Loop utf8Array 0 dst

/-- `Utf8::Length(int32_t)`. -/
def charLength (ch : ℤ) : ℕ :=
  if ch ≤ kMaxOneByteChar then 1
  else if ch ≤ kMaxTwoByteChar then 2
  else if ch ≤ kMaxThreeByteChar then 3
  else 4

/-- `~(1 << 6)` as a 32-bit mask. -/
def kMask : ℕ := 2 ^ 32 - 1 - (1 <<< 6)

/-- The bytes `Utf8::Encode(int32_t, char*)` writes for a nonnegative `ch`. -/
def encodeChar (ch : ℕ) : List UInt8 :=
  if (ch : ℤ) ≤ kMaxOneByteChar then [UInt8.ofNat ch]
  else if (ch : ℤ) ≤ kMaxTwoByteChar then
    [UInt8.ofNat (0xC0 ||| (ch >>> 6)), UInt8.ofNat (0x80 ||| (ch &&& kMask))]
  else if (ch : ℤ) ≤ kMaxThreeByteChar then
    [UInt8.ofNat (0xE0 ||| (ch >>> 12)), UInt8.ofNat (0x80 ||| ((ch >>> 6) &&& kMask)),
      UInt8.ofNat (0x80 ||| (ch &&& kMask))]
  else
    [UInt8.ofNat (0xF0 ||| (ch >>> 18)), UInt8.ofNat (0x80 ||| ((ch >>> 12) &&& kMask)),
      UInt8.ofNat (0x80 ||| ((ch >>> 6) &&& kMask)), UInt8.ofNat (0x80 ||| (ch &&& kMask))]

/-- A Dart string, by the width of its code units. External strings have the same data. -/
inductive DartString
  | oneByte (data : List UInt8)
  | twoByte (data : List UInt16)

def DartString.codeUnits : DartString → List UInt16
  | .oneByte data => data.map fun c => UInt16.ofNat c.toNat
  | .twoByte data => data

/-- The state of `String::CodePointIterator`; `end_` is the length of the string. -/
structure CodePointIterator where
  ch : ℕ
  index : ℤ

namespace CodePointIterator

def start : CodePointIterator := ⟨0, -1⟩

/-- `Next` over the code units `str`; `none` when it returns false. -/
def next (str : List UInt16) (it : CodePointIterator) : Option CodePointIterator :=
  let length : ℤ := Utf16.length it.ch
  if it.index < str.length - length then
    let index := it.index + length
    let ch := (str.getD index.toNat 0).toNat
    if isLeadSurrogate ch && index < str.length - 1 then
      let ch2 := (str.getD (index.toNat + 1) 0).toNat
      if isTrailSurrogate ch2 then some ⟨Utf16.decode ch ch2, index⟩ else some ⟨ch, index⟩
    else some ⟨ch, index⟩
  else none

lemma next_index {str : List UInt16} {it it' : CodePointIterator} (h : it.next str = some it') :
    it.index < it'.index ∧ it.index < str.length := by
  have hpos : 1 ≤ Utf16.length it.ch := by
    unfold Utf16.length
    split <;> omega
  simp only [next] at h
  split at h
  · rename_i hlt
    have hidx : it'.index = it.index + Utf16.length it.ch := by
      split at h
      · split at h <;> (cases h; rfl)
      · cases h
        rfl
    omega
  · cases h

/-- The code points that successive calls of `Next` make current. -/
def visit (str : List UInt16) (it : CodePointIterator) : List ℕ :=
  match _hnext : it.next str with
  | none => []
  | some it' => it'.ch :: visit str it'
termination_by (str.length - it.index).toNat
decreasing_by
  have := next_index _hnext
  omega

end CodePointIterator

def codePoints (str : List UInt16) : List ℕ := CodePointIterator.start.visit str

/-- sizeof(uintptr_t). -/
inductive WordSize
  | word32 | word64

def WordSize.bytes : WordSize → ℕ
  | .word32 => 4
  | .word64 => 8

lemma WordSize.bytes_pos (W : WordSize) : 0 < W.bytes := by
  cases W <;> decide

def WordSize.kAsciiWordMask : WordSize → ℕ
  | .word32 => 0x80808080
  | .word64 => 0x8080808080808080

/-- A little-endian word load and store. -/
def loadWord : List UInt8 → ℕ
  | [] => 0
  | b :: rest => b.toNat + 256 * loadWord rest

def wordBytes : ℕ → ℕ → List UInt8
  | 0, _ => []
  | n + 1, word => UInt8.ofNat (word % 256) :: wordBytes n (word / 256)

/-- The shuffle that leaves the number of high bits of a masked word in its low nibble. -/
def countHighBits (W : WordSize) (chunk : ℕ) : ℕ :=
  let modulus := 2 ^ (8 * W.bytes)
  let chunk := match W with
    | .word64 => (chunk + (chunk >>> 32)) % modulus
    | .word32 => chunk
  let chunk := (chunk + (chunk >>> 16)) % modulus
  let chunk := (chunk + (chunk >>> 8)) % modulus
  (chunk >>> 7) &&& 0xF

/-- The per-character loop of `Utf8::Length` over one-byte data. -/
def lengthChars (data : List UInt8) (length : ℕ) : ℕ :=
  data.foldl (fun length c => if (c.toNat : ℤ) > kMaxOneByteChar then length + 1 else length) length

/-- The word loop of `Utf8::Length`, followed by its tail. -/
def lengthWords (W : WordSize) (data : List UInt8) (length : ℕ) : ℕ :=
  if W.bytes ≤ data.length then
    let chunk := loadWord (data.take W.bytes) &&& W.kAsciiWordMask
    lengthWords W (data.drop W.bytes)
      (if chunk ≠ 0 then length + countHighBits W chunk else length)
  else lengthChars data length
termination_by data.length
decreasing_by
  have := W.bytes_pos
  simp only [length_drop]
  omega

/-- `Utf8::Length(const String&)`. -/
def length (W : WordSize) : DartString → ℕ
  | .oneByte data => lengthWords W data data.length
  | .twoByte data => (codePoints data).foldl (fun (length ch : ℕ) => length + charLength ch) 0

/-- Where a loop of `Utf8::Encode` ends: after its last iteration, or at a `return`. -/
inductive Flow
  | done (dst : List UInt8) (pos : ℕ)
  | returned (dst : List UInt8) (pos : ℕ)

/-- The byte loop of `Utf8::Encode` over one-byte data. -/
def encodeChars : List UInt8 → List UInt8 → ℕ → Option Flow
  | [], dst, pos => some (.done dst pos)
  | c :: data, dst, pos =>
    let bytes := charLength c.toNat
    if pos + bytes > dst.length then some (.returned dst pos)
    else (store dst pos (encodeChar c.toNat)).bind fun dst => encodeChars data dst (pos + bytes)

def encodeWords (W : WordSize) (data dst : List UInt8) (pos : ℕ) : Option Flow :=
  if data = [] then some (.done dst pos)
  else if W.bytes ≤ data.length ∧ loadWord (data.take W.bytes) &&& W.kAsciiWordMask = 0 ∧
      pos + W.bytes ≤ dst.length then
    (store dst pos (wordBytes W.bytes (loadWord (data.take W.bytes)))).bind fun dst =>
      encodeWords W (data.drop W.bytes) dst (pos + W.bytes)
  else
    (encodeChars (data.take W.bytes) dst pos).bind fun flow =>
      match flow with
      | .returned dst pos => some (.returned dst pos)
      | .done dst pos => encodeWords W (data.drop W.bytes) dst pos
termination_by data.length
decreasing_by
  all_goals
    have := W.bytes_pos
    have := length_pos_iff.mpr ‹_›
    simp only [length_drop]
    omega

/-- The code point loop of `Utf8::Encode` over two-byte data. -/
def encodePoints : List ℕ → List UInt8 → ℕ → Option (List UInt8 × ℕ)
  | [], dst, pos => some (dst, pos)
  | ch :: points, dst, pos =>
    let numBytes := charLength ch
    if pos + numBytes > dst.length then some (dst, pos)
    else (store dst pos (encodeChar ch)).bind fun dst => encodePoints points dst (pos + numBytes)

/-- `Utf8::Encode(const String&, char*, intptr_t)`. The one-byte branch counts in a `pos` of its own
block, so that falling out of the loop returns the outer `pos`, still 0. -/
def encode (W : WordSize) (src : DartString) (dst : List UInt8) : Option (List UInt8 × ℕ) :=
  if dst.length ≥ length W src then
    let pos := 0
    match src with
    | .oneByte data =>
      (encodeWords W data dst 0).map fun flow =>
        match flow with
        | .returned dst innerPos => (dst, innerPos)
        | .done dst _ => (dst, pos)
    | .twoByte data => encodePoints (codePoints data) dst pos
  else none

open CodePoints Nat

lemma kTrailBytes_getD (b : ℕ) (h : b < 256) :
    kTrailBytes.getD b 0 =
      if b < 0x80 then 1 else if b < 0xC0 then 0 else if b < 0xE0 then 2 else if b < 0xF0 then 3
      else if b < 0xF8 then 4 else if b < 0xFC then 5 else if b < 0xFE then 6 else 0 := by
  have hall : ∀ i : Fin 256, kTrailBytes.getD i.val 0 =
      if i.val < 0x80 then 1 else if i.val < 0xC0 then 0 else if i.val < 0xE0 then 2
      else if i.val < 0xF0 then 3 else if i.val < 0xF8 then 4 else if i.val < 0xFC then 5
      else if i.val < 0xFE then 6 else 0 := by decide +kernel
  exact hall ⟨b, h⟩

lemma kTrailBytes_lead (b n : ℕ) (hb : b < 256) (h : 0x80 ≤ b) (hn : kTrailBytes.getD b 0 = n + 1) :
    (n = 1 ∧ 0xC0 ≤ b ∧ b < 0xE0) ∨ (n = 2 ∧ 0xE0 ≤ b ∧ b < 0xF0) ∨
      (n = 3 ∧ 0xF0 ≤ b ∧ b < 0xF8) ∨ n = 4 ∨ n = 5 := by
  rw [kTrailBytes_getD b hb] at hn
  split_ifs at hn <;> omega

lemma isTrailByte_iff (b : UInt8) : isTrailByte b = true ↔ 0x80 ≤ b.toNat ∧ b.toNat < 0xC0 := by
  have hall : ∀ i : Fin 256, isTrailByte (UInt8.ofNat i.val) = true ↔
      0x80 ≤ i.val ∧ i.val < 0xC0 := by decide +kernel
  have h := hall ⟨b.toNat, b.toNat_lt⟩
  simpa only [UInt8.ofNat_toNat] using h

lemma isLatin1SequenceStart_iff (b : UInt8) :
    isLatin1SequenceStart b = true ↔ b.toNat ≤ 0xC3 := by
  rw [isLatin1SequenceStart, decide_eq_true_iff, UInt8.le_iff_toNat_le]
  rfl

lemma isSupplementarySequenceStart_iff (b : UInt8) :
    isSupplementarySequenceStart b = true ↔ 0xF0 ≤ b.toNat := by
  rw [isSupplementarySequenceStart, decide_eq_true_iff, ge_iff_le, UInt8.le_iff_toNat_le]
  rfl

lemma toNat_ofNat_byte (b : ℕ) (h : b < 256) : (UInt8.ofNat b).toNat = b := by
  rw [UInt8.toNat_ofNat']
  omega

lemma trailLoop_malformed (n : ℕ) (rest : List UInt8) (acc acc' : ℕ) :
    trailLoop n rest acc true ≠ some (acc', false) := by
  induction n generalizing rest acc with
  | zero => simp [trailLoop]
  | succ n ih =>
    cases rest with
    | nil => simp [trailLoop]
    | cons b rest => exact ih rest _

lemma trailLoop_eq_some_iff (n : ℕ) (rest : List UInt8) (acc acc' : ℕ) :
    trailLoop n rest acc false = some (acc', false) ↔
      ∃ trail tail, rest = trail ++ tail ∧ trail.length = n ∧ (∀ b ∈ trail, isTrailByte b = true) ∧
        acc' = trail.foldl (fun acc b => (acc * 64 + b.toNat) % 2 ^ 32) acc := by
  induction n generalizing rest acc with
  | zero =>
    constructor
    · intro h
      simp only [trailLoop, Option.some.injEq, Prod.mk.injEq, and_true] at h
      exact ⟨[], rest, rfl, rfl, by simp, h.symm⟩
    · rintro ⟨trail, tail, -, hlen, -, rfl⟩
      rw [length_eq_zero_iff.mp hlen]
      rfl
  | succ n ih =>
    cases rest with
    | nil =>
      simp only [trailLoop, reduceCtorEq, false_iff]
      rintro ⟨trail, tail, h, hlen, -⟩
      rw [(append_eq_nil_iff.mp h.symm).1] at hlen
      simp at hlen
    | cons b rest =>
      rw [trailLoop, shiftLeft_eq]
      cases hb : isTrailByte b with
      | false =>
        constructor
        · intro h
          exact absurd h (trailLoop_malformed n rest _ acc')
        · rintro ⟨trail, tail, h, hlen, htrail, -⟩
          cases trail with
          | nil => simp at hlen
          | cons c trail =>
            rw [cons_append, List.cons.injEq] at h
            have hc := htrail c (mem_cons_self ..)
            rw [← h.1, hb] at hc
            cases hc
      | true =>
        rw [Bool.not_true, Bool.or_false, ih]
        constructor
        · rintro ⟨trail, tail, rfl, rfl, htrail, rfl⟩
          exact ⟨b :: trail, tail, rfl, rfl, by simpa [hb] using htrail, rfl⟩
        · rintro ⟨trail, tail, h, hlen, htrail, hacc⟩
          cases trail with
          | nil => simp at hlen
          | cons c trail =>
            obtain ⟨rfl, rfl⟩ := h
            exact ⟨trail, tail, rfl, succ_inj.mp hlen,
              fun d hd => htrail d (mem_cons_of_mem b hd), hacc⟩

/-- What the checks after the trail bytes let through. -/
def Accepts (numTrailBytes ch : ℕ) : Prop :=
  ch ≤ maxCodePoint ∧ kOverlongMinimum.getD numTrailBytes 0 ≤ ch

lemma isOutOfRange_toInt32 (x : ℕ) (hx : x < 2 ^ 32) :
    isOutOfRange (toInt32 x) = true ↔ maxCodePoint < x := by
  unfold isOutOfRange toInt32 kMaxCodePoint maxCodePoint
  split
  · simp
  · simp
    omega

section

variable (first : UInt8) (rest : List UInt8)

lemma sequence_multibyte (n : ℕ) (hn : kTrailBytes.getD first.toNat 0 = n + 1)
    (hfirst : 0x80 ≤ first.toNat) (j ch : ℕ) :
    sequence first rest = some (j, ch) ↔
      j = n + 1 ∧ ∃ acc, trailLoop n rest first.toNat false = some (acc, false) ∧
        ch = (acc + (2 ^ 32 - kMagicBits.getD (n + 1) 0)) % 2 ^ 32 ∧ Accepts (n + 1) ch := by
  rw [sequence, if_neg (by omega)]
  simp only [hn, Nat.add_sub_cancel, add_comm 1 n]
  cases trailLoop n rest first.toNat false with
  | none => simp
  | some result =>
    obtain ⟨acc, isMalformed⟩ := result
    cases isMalformed with
    | true => simp
    | false =>
      have hrange := isOutOfRange_toInt32 ((acc + (2 ^ 32 - kMagicBits.getD (n + 1) 0)) % 2 ^ 32)
        (mod_lt _ (by decide))
      simp only [Accepts, isNonShortestForm, Option.some.injEq, Prod.mk.injEq, and_true,
        exists_eq_left']
      simp only [decide_true, beq_self_eq_true, Bool.true_and, Bool.and_eq_true,
        Bool.not_eq_true', ← Bool.not_eq_true, hrange, decide_eq_true_iff, not_lt,
        Option.ite_none_right_eq_some, Option.some.injEq, Prod.mk.injEq]
      constructor
      · rintro ⟨⟨hmax, hmin⟩, rfl, rfl⟩
        exact ⟨rfl, rfl, hmax, hmin⟩
      · rintro ⟨rfl, rfl, hmax, hmin⟩
        exact ⟨⟨hmax, hmin⟩, rfl, rfl⟩

lemma sequence_ascii (h : first.toNat < 0x80) :
    sequence first rest = some (1, first.toNat) := if_pos h

lemma sequence_no_lead (h : 0x80 ≤ first.toNat) (hn : kTrailBytes.getD first.toNat 0 = 0) :
    sequence first rest = none := by
  rw [sequence, if_neg (by omega)]
  simp only [hn]
  simp [trailLoop]

lemma eq_ofNat (b : UInt8) (n : ℕ) (h : b.toNat = n) : b = UInt8.ofNat n := by
  rw [← h, UInt8.ofNat_toNat]

lemma utf8Bytes_of_multibyte (n acc ch : ℕ) (hn : kTrailBytes.getD first.toNat 0 = n + 1)
    (hfirst : 0x80 ≤ first.toNat) (hloop : trailLoop n rest first.toNat false = some (acc, false))
    (hch : ch = (acc + (2 ^ 32 - kMagicBits.getD (n + 1) 0)) % 2 ^ 32)
    (haccept : Accepts (n + 1) ch) :
    n + 1 = (utf8Bytes ch).length ∧ ∃ tail, first :: rest = utf8Bytes ch ++ tail := by
  obtain ⟨trail, tail, rfl, hlen, htrail, rfl⟩ := (trailLoop_eq_some_iff ..).mp hloop
  obtain ⟨hmax, hmin⟩ := haccept
  have hbyte := first.toNat_lt
  unfold maxCodePoint at hmax
  suffices hbytes : utf8Bytes ch = first :: trail by
    rw [hbytes]
    exact ⟨by rw [length_cons, hlen], tail, rfl⟩
  rcases kTrailBytes_lead first.toNat n hbyte hfirst hn with
    ⟨rfl, hlead⟩ | ⟨rfl, hlead⟩ | ⟨rfl, hlead⟩ | rfl | rfl
  · obtain ⟨b, rfl⟩ := length_eq_one_iff.mp hlen
    have hb := (isTrailByte_iff b).mp (htrail b (by simp))
    simp only [foldl_cons, foldl_nil, kMagicBits, kOverlongMinimum,
      getD_cons_succ, getD_cons_zero] at hch hmin
    rw [utf8Bytes, if_neg (by omega), if_pos (by omega),
      eq_ofNat first (0xC0 + ch / 64) (by omega), eq_ofNat b (0x80 + ch % 64) (by omega)]
  · obtain ⟨b, c, rfl⟩ := length_eq_two.mp hlen
    have hb := (isTrailByte_iff b).mp (htrail b (by simp))
    have hc := (isTrailByte_iff c).mp (htrail c (by simp))
    simp only [foldl_cons, foldl_nil, kMagicBits, kOverlongMinimum,
      getD_cons_succ, getD_cons_zero] at hch hmin
    rw [utf8Bytes, if_neg (by omega), if_neg (by omega), if_pos (by omega),
      eq_ofNat first (0xE0 + ch / 4096) (by omega), eq_ofNat b (0x80 + ch / 64 % 64) (by omega),
      eq_ofNat c (0x80 + ch % 64) (by omega)]
  · obtain ⟨b, c, d, rfl⟩ := length_eq_three.mp hlen
    have hb := (isTrailByte_iff b).mp (htrail b (by simp))
    have hc := (isTrailByte_iff c).mp (htrail c (by simp))
    have hd := (isTrailByte_iff d).mp (htrail d (by simp))
    simp only [foldl_cons, foldl_nil, kMagicBits, kOverlongMinimum,
      getD_cons_succ, getD_cons_zero] at hch hmin
    rw [utf8Bytes, if_neg (by omega), if_neg (by omega), if_neg (by omega),
      eq_ofNat first (0xF0 + ch / 262144) (by omega),
      eq_ofNat b (0x80 + ch / 4096 % 64) (by omega), eq_ofNat c (0x80 + ch / 64 % 64) (by omega),
      eq_ofNat d (0x80 + ch % 64) (by omega)]
  -- Five and six byte forms have a minimum above every code point.
  · simp only [kOverlongMinimum, getD_cons_succ, getD_cons_zero] at hmin
    omega
  · simp only [kOverlongMinimum, getD_cons_succ, getD_cons_zero] at hmin
    omega

lemma utf8Bytes_of_sequence (j ch : ℕ) (h : sequence first rest = some (j, ch)) :
    ch ≤ maxCodePoint ∧ j = (utf8Bytes ch).length ∧ ∃ tail, first :: rest =
      utf8Bytes ch ++ tail := by
  rcases lt_or_ge first.toNat 0x80 with hascii | hfirst
  · rw [sequence_ascii first rest hascii, Option.some.injEq, Prod.mk.injEq] at h
    obtain ⟨rfl, rfl⟩ := h
    have hbytes : utf8Bytes first.toNat = [first] := by
      rw [utf8Bytes, if_pos (by omega), UInt8.ofNat_toNat]
    rw [hbytes]
    exact ⟨by unfold maxCodePoint; omega, rfl, rest, rfl⟩
  · cases hn : kTrailBytes.getD first.toNat 0 with
    | zero =>
      rw [sequence_no_lead first rest hfirst hn] at h
      cases h
    | succ n =>
      obtain ⟨rfl, acc, hloop, hch, haccept⟩ :=
        (sequence_multibyte first rest n hn hfirst j ch).mp h
      exact ⟨haccept.1, utf8Bytes_of_multibyte first rest n acc ch hn hfirst hloop hch haccept⟩

end

lemma ofNat_isTrailByte (k : ℕ) (hk : k < 64) : isTrailByte (UInt8.ofNat (0x80 + k)) = true := by
  rw [isTrailByte_iff, toNat_ofNat_byte _ (by omega)]
  omega

lemma sequence_of_trail (first : ℕ) (ks : List ℕ) (tail : List UInt8) (ch : ℕ)
    (hfirst : 0x80 ≤ first ∧ first < 256) (hks : ∀ k ∈ ks, k < 64)
    (hn : kTrailBytes.getD first 0 = ks.length + 1)
    (hch : ch = ((ks.foldl (fun acc k => (acc * 64 + (0x80 + k)) % 2 ^ 32) first) +
      (2 ^ 32 - kMagicBits.getD (ks.length + 1) 0)) % 2 ^ 32)
    (haccept : Accepts (ks.length + 1) ch) :
    sequence (UInt8.ofNat first) (ks.map (fun k => UInt8.ofNat (0x80 + k)) ++ tail) =
      some (ks.length + 1, ch) := by
  have hbyte := toNat_ofNat_byte first hfirst.2
  refine (sequence_multibyte _ _ ks.length (by rw [hbyte]; exact hn) (by omega) _ _).mpr
    ⟨rfl, _, (trailLoop_eq_some_iff ..).mpr ⟨_, tail, rfl, length_map _, ?_, rfl⟩, ?_, haccept⟩
  · simp only [mem_map, forall_exists_index, and_imp, forall_apply_eq_imp_iff₂]
    exact fun k hk => ofNat_isTrailByte k (hks k hk)
  · rw [hch, hbyte, foldl_map]
    congr 2
    refine foldl_ext _ _ _ fun acc k hk => ?_
    rw [toNat_ofNat_byte _ (by have := hks k hk; omega)]

lemma sequence_of_utf8Bytes (first : UInt8) (more tail : List UInt8) (ch : ℕ)
    (hmax : ch ≤ maxCodePoint) (h : utf8Bytes ch = first :: more) :
    sequence first (more ++ tail) = some (more.length + 1, ch) := by
  unfold maxCodePoint at hmax
  unfold utf8Bytes at h
  split_ifs at h
  · obtain ⟨rfl, rfl⟩ := List.cons.inj h
    have hbyte := toNat_ofNat_byte ch (by omega)
    rw [sequence_ascii _ _ (by omega), hbyte]
    rfl
  · obtain ⟨rfl, rfl⟩ := List.cons.inj h
    refine sequence_of_trail _ [ch % 64] tail ch (by omega) (by simp; omega) ?_ ?_ ?_
    · rw [kTrailBytes_getD _ (by omega), if_neg (by omega), if_neg (by omega), if_pos (by omega)]
      rfl
    · simp only [foldl_cons, foldl_nil, length_cons, length_nil, kMagicBits,
        getD_cons_succ, getD_cons_zero]
      omega
    · exact ⟨by unfold maxCodePoint; omega, by change 0x80 ≤ ch; omega⟩
  · obtain ⟨rfl, rfl⟩ := List.cons.inj h
    refine sequence_of_trail _ [ch / 64 % 64, ch % 64] tail ch (by omega) (by simp; omega) ?_ ?_ ?_
    · rw [kTrailBytes_getD _ (by omega), if_neg (by omega), if_neg (by omega), if_neg (by omega),
        if_pos (by omega)]
      rfl
    · simp only [foldl_cons, foldl_nil, length_cons, length_nil, kMagicBits,
        getD_cons_succ, getD_cons_zero]
      omega
    · exact ⟨by unfold maxCodePoint; omega, by change 0x800 ≤ ch; omega⟩
  · obtain ⟨rfl, rfl⟩ := List.cons.inj h
    refine sequence_of_trail _ [ch / 4096 % 64, ch / 64 % 64, ch % 64] tail ch (by omega)
      (by simp; omega) ?_ ?_ ?_
    · rw [kTrailBytes_getD _ (by omega), if_neg (by omega), if_neg (by omega), if_neg (by omega),
        if_neg (by omega), if_pos (by omega)]
      rfl
    · simp only [foldl_cons, foldl_nil, length_cons, length_nil, kMagicBits,
        getD_cons_succ, getD_cons_zero]
      omega
    · exact ⟨by unfold maxCodePoint; omega, by change 0x10000 ≤ ch; omega⟩

lemma isValid_flatMap (points : List ℕ) (hle : ∀ c ∈ points, c ≤ maxCodePoint) :
    isValid (points.flatMap utf8Bytes) = true := by
  induction points with
  | nil => rw [flatMap_nil, isValid]
  | cons c points ih =>
    obtain ⟨first, more, hbytes⟩ := exists_cons_of_ne_nil (utf8Bytes_ne_nil c)
    rw [flatMap_cons, hbytes, cons_append, isValid,
      sequence_of_utf8Bytes first more _ c (hle c (mem_cons_self ..)) hbytes]
    simp only [Nat.add_sub_cancel, drop_left]
    exact ih fun d hd => hle d (mem_cons_of_mem c hd)

lemma wellFormed_cons (first : UInt8) (rest : List UInt8) (j ch : ℕ)
    (h : sequence first rest = some (j, ch)) (hrest : WellFormed (rest.drop (j - 1))) :
    WellFormed (first :: rest) := by
  obtain ⟨hch, hj, tail, hbytes⟩ := utf8Bytes_of_sequence first rest j ch h
  obtain ⟨points, hle, hpoints⟩ := hrest
  have htail : rest.drop (j - 1) = tail := by
    have hdrop : (first :: rest).drop j = tail := by rw [hbytes, hj, drop_left]
    have hpos : 0 < j := hj ▸ length_pos_iff.mpr (utf8Bytes_ne_nil ch)
    obtain ⟨k, rfl⟩ := Nat.exists_eq_add_of_lt hpos
    simpa using hdrop
  refine ⟨ch :: points, ?_, ?_⟩
  · simpa [hch] using hle
  · rw [hbytes, flatMap_cons, ← hpoints, htail]

lemma isValid_iff_wellFormed (bytes : List UInt8) : isValid bytes = true ↔ WellFormed bytes := by
  constructor
  · intro h
    induction bytes using isValid.induct with
    | case1 => exact ⟨[], by simp, rfl⟩
    | case2 first rest hseq =>
      rw [isValid, hseq] at h
      cases h
    | case3 first rest j ch hseq ih =>
      rw [isValid, hseq] at h
      exact wellFormed_cons first rest j ch hseq (ih h)
  · rintro ⟨points, hle, rfl⟩
    exact isValid_flatMap points hle

open Buffers Option

lemma countStep_eq (len : ℕ) (t : CharType) (b : UInt8) :
    countStep (len, t) b =
      if 0x80 ≤ b.toNat ∧ b.toNat < 0xC0 then (len, t)
      else if b.toNat ≤ 0xC3 then (len + 1, t)
      else if 0xF0 ≤ b.toNat then (len + 2, .supplementary)
      else (len + 1, if t = .latin1 then .bmp else t) := by
  simp only [countStep, Bool.not_eq_true', ← Bool.not_eq_true, isTrailByte_iff,
    isLatin1SequenceStart_iff, isSupplementarySequenceStart_iff]
  split_ifs <;> rfl

/-- The representation after a further code point. -/
def widen (t : CharType) (c : ℕ) : CharType :=
  if c ≤ 0xFF then t
  else if c ≤ 0xFFFF then (if t = .latin1 then .bmp else t)
  else .supplementary

lemma countStep_trail (state : ℕ × CharType) (k : ℕ) (hk : k < 64) :
    countStep state (UInt8.ofNat (0x80 + k)) = state := by
  rw [countStep_eq, toNat_ofNat_byte _ (by omega), if_pos (by omega)]

lemma countStep_lead (len b : ℕ) (t : CharType) (hb : b < 256) (h : ¬ (0x80 ≤ b ∧ b < 0xC0)) :
    countStep (len, t) (UInt8.ofNat b) =
      if b ≤ 0xC3 then (len + 1, t)
      else if 0xF0 ≤ b then (len + 2, .supplementary)
      else (len + 1, if t = .latin1 then .bmp else t) := by
  rw [countStep_eq, toNat_ofNat_byte _ hb, if_neg h]

lemma countStep_utf8Bytes (c len : ℕ) (t : CharType) (hc : c ≤ maxCodePoint) :
    (utf8Bytes c).foldl countStep (len, t) = (len + (utf16Units c).length, widen t c) := by
  have htrail : ∀ state k, countStep state (UInt8.ofNat (0x80 + k % 64)) = state :=
    fun state k => countStep_trail state (k % 64) (mod_lt k (by decide))
  unfold maxCodePoint at hc
  rw [utf16Units_length]
  unfold utf8Bytes widen
  by_cases h1 : c ≤ 0x7F
  · rw [if_pos h1, if_pos (by omega), if_pos (by omega), foldl_cons, foldl_nil,
      countStep_lead _ _ _ (by omega) (by omega), if_pos (by omega)]
  rw [if_neg h1]
  by_cases h2 : c ≤ 0x7FF
  · rw [if_pos h2, if_pos (by omega), foldl_cons, foldl_cons, foldl_nil, htrail,
      countStep_lead _ _ _ (by omega) (by omega)]
    by_cases h3 : c ≤ 0xFF
    · rw [if_pos (by omega), if_pos h3]
    · rw [if_neg (by omega), if_neg (by omega), if_neg h3, if_pos (by omega : c ≤ 0xFFFF)]
  rw [if_neg h2, if_neg (by omega : ¬ c ≤ 0xFF)]
  by_cases h3 : c ≤ 0xFFFF
  · rw [if_pos h3, if_pos h3, if_pos h3, foldl_cons, foldl_cons, foldl_cons,
      foldl_nil, htrail, htrail, countStep_lead _ _ _ (by omega) (by omega),
      if_neg (by omega), if_neg (by omega)]
  · rw [if_neg h3, if_neg h3, if_neg h3, foldl_cons, foldl_cons, foldl_cons,
      foldl_cons, foldl_nil, htrail, htrail, htrail,
      countStep_lead _ _ _ (by omega) (by omega), if_neg (by omega), if_pos (by omega)]

lemma foldl_countStep_flatMap (points : List ℕ) (len : ℕ) (t : CharType)
    (hle : ∀ c ∈ points, c ≤ maxCodePoint) :
    (points.flatMap utf8Bytes).foldl countStep (len, t) =
      (len + (points.flatMap utf16Units).length, points.foldl widen t) := by
  induction points generalizing len t with
  | nil => rfl
  | cons c points ih =>
    rw [flatMap_cons, foldl_append, countStep_utf8Bytes c len t (hle c (mem_cons_self ..)),
      ih _ _ fun d hd => hle d (mem_cons_of_mem c hd), flatMap_cons,
      length_append, add_assoc, foldl_cons]

lemma codeUnitCount_flatMap (points : List ℕ) (hle : ∀ c ∈ points, c ≤ maxCodePoint) :
    codeUnitCount (points.flatMap utf8Bytes) =
      ((points.flatMap utf16Units).length, points.foldl widen .latin1) := by
  rw [codeUnitCount, foldl_countStep_flatMap points 0 .latin1 hle, zero_add]

lemma widen_eq_latin1 (t : CharType) (c : ℕ) (h : widen t c = .latin1) :
    t = .latin1 ∧ c ≤ 0xFF := by
  unfold widen at h
  split_ifs at h <;> simp_all

lemma foldl_widen_eq_latin1 (points : List ℕ) (t : CharType)
    (h : points.foldl widen t = .latin1) : t = .latin1 ∧ ∀ c ∈ points, c ≤ 0xFF := by
  induction points generalizing t with
  | nil => exact ⟨h, by simp⟩
  | cons c points ih =>
    obtain ⟨hwiden, hpoints⟩ := ih _ h
    obtain ⟨ht, hc⟩ := widen_eq_latin1 t c hwiden
    exact ⟨ht, by simpa [hc] using hpoints⟩

lemma latin1_of_foldl_countStep (bytes : List UInt8) (state : ℕ × CharType)
    (h : (bytes.foldl countStep state).2 = .latin1) :
    state.2 = .latin1 ∧ ∀ b ∈ bytes, isLatin1SequenceStart b = true := by
  induction bytes generalizing state with
  | nil => exact ⟨h, by simp⟩
  | cons b bytes ih =>
    obtain ⟨hstep, hbytes⟩ := ih _ h
    obtain ⟨len, t⟩ := state
    rw [countStep_eq] at hstep
    have hb : t = .latin1 ∧ b.toNat ≤ 0xC3 := by
      split_ifs at hstep with htrail hlow
      · exact ⟨hstep, by omega⟩
      · exact ⟨hstep, hlow⟩
      · simp_all
    refine ⟨hb.1, ?_⟩
    simpa [(isLatin1SequenceStart_iff b).mpr hb.2] using hbytes

lemma decode_of_sequence (first : UInt8) (rest : List UInt8) (j ch : ℕ)
    (h : sequence first rest = some (j, ch)) : decode first rest = (j, (ch : ℤ)) := by
  have hmax := (utf8Bytes_of_sequence first rest j ch h).1
  unfold maxCodePoint at hmax
  simp only [decode, h, toInt32]
  rw [if_pos (by omega)]

lemma lead_of_utf8Bytes (first : UInt8) (more : List UInt8) (ch : ℕ) (hmax : ch ≤ maxCodePoint)
    (h : utf8Bytes ch = first :: more) :
    (isLatin1SequenceStart first = true ↔ ch ≤ 0xFF) ∧
      (isSupplementarySequenceStart first = true ↔ 0xFFFF < ch) := by
  unfold maxCodePoint at hmax
  rw [isLatin1SequenceStart_iff, isSupplementarySequenceStart_iff]
  unfold utf8Bytes at h
  split_ifs at h <;>
    (obtain ⟨rfl, -⟩ := List.cons.inj h
     rw [toNat_ofNat_byte _ (by omega)]
     omega)

lemma lead_of_sequence (first : UInt8) (rest : List UInt8) (j ch : ℕ)
    (h : sequence first rest = some (j, ch)) :
    (isLatin1SequenceStart first = true ↔ ch ≤ 0xFF) ∧
      (isSupplementarySequenceStart first = true ↔ 0xFFFF < ch) := by
  obtain ⟨hmax, -, tail, hbytes⟩ := utf8Bytes_of_sequence first rest j ch h
  obtain ⟨first', more, hcons⟩ := exists_cons_of_ne_nil (utf8Bytes_ne_nil ch)
  rw [hcons, cons_append, List.cons.injEq] at hbytes
  exact hbytes.1 ▸ lead_of_utf8Bytes first' more ch hmax hcons

lemma utf16_encode_eq (ch : ℕ) (hlow : 0xFFFF < ch) (hmax : ch ≤ maxCodePoint) :
    Utf16.encode ch = utf16Units ch := by
  unfold maxCodePoint at hmax
  have hlead : Utf16.kLeadSurrogateOffset + ch >>> 10 = 0xD800 + (ch - 0x10000) / 1024 := by
    rw [shiftRight_eq_div_pow, show Utf16.kLeadSurrogateOffset = 0xD7C0 from rfl]
    omega
  have htrail : 0xDC00 + (ch &&& 0x3FF) = 0xDC00 + (ch - 0x10000) % 1024 := by
    rw [show ch &&& 0x3FF = ch % 1024 from and_two_pow_sub_one_eq_mod ch 10]
    omega
  rw [Utf16.encode, hlead, htrail, utf16Units, if_neg (by omega)]

lemma decodeToLatin1Loop_flatMap (points : List ℕ) (dst written : List UInt8)
    (hle : ∀ c ∈ points, c ≤ 0xFF) (hwr : written <+: dst)
    (hlen : dst.length = written.length + points.length) :
    decodeToLatin1Loop (points.flatMap utf8Bytes) written.length dst =
      some (true, written ++ points.map UInt8.ofNat) := by
  induction points generalizing dst written with
  | nil =>
    rw [flatMap_nil, decodeToLatin1Loop, eq_of_prefix_full dst written hwr hlen,
      map_nil, append_nil]
  | cons c points ih =>
    have hc : c ≤ 0xFF := hle c (mem_cons_self ..)
    have hmax : c ≤ maxCodePoint := by unfold maxCodePoint; omega
    obtain ⟨first, more, hbytes⟩ := exists_cons_of_ne_nil (utf8Bytes_ne_nil c)
    rw [length_cons] at hlen
    obtain ⟨dst', hstore, hpre, hlen'⟩ := store_prefix dst written [UInt8.ofNat c] hwr
      (by simp only [length_cons, length_nil]; omega)
    have hdec := decode_of_sequence first (more ++ points.flatMap utf8Bytes) _ c
      (sequence_of_utf8Bytes first more _ c hmax hbytes)
    have hlatin1 : isLatin1 (c : ℤ) = true := by simp [isLatin1]; omega
    rw [flatMap_cons, hbytes, cons_append, decodeToLatin1Loop, if_pos (by omega),
      if_pos ((lead_of_utf8Bytes first more c hmax hbytes).1.mpr hc)]
    simp only [hdec, hlatin1, Int.toNat_natCast, hstore, bind_some, if_true,
      Nat.add_sub_cancel, drop_left]
    rw [if_neg (by omega)]
    have hnext := ih dst' (written ++ [UInt8.ofNat c])
      (fun d hd => hle d (mem_cons_of_mem c hd)) hpre (by simp; omega)
    simpa using hnext

lemma decodeToUTF16Loop_flatMap (points : List ℕ) (dst written : List UInt16)
    (hle : ∀ c ∈ points, c ≤ maxCodePoint) (hwr : written <+: dst)
    (hlen : dst.length = written.length + (points.flatMap utf16Units).length) :
    decodeToUTF16Loop (points.flatMap utf8Bytes) written.length dst =
      some (true, written ++ points.flatMap utf16Units) := by
  induction points generalizing dst written with
  | nil =>
    rw [flatMap_nil, decodeToUTF16Loop, eq_of_prefix_full dst written hwr hlen,
      flatMap_nil, append_nil]
  | cons c points ih =>
    have hmax : c ≤ maxCodePoint := hle c (mem_cons_self ..)
    obtain ⟨first, more, hbytes⟩ := exists_cons_of_ne_nil (utf8Bytes_ne_nil c)
    rw [flatMap_cons, length_append] at hlen
    obtain ⟨dst', hstore, hpre, hlen'⟩ := store_prefix dst written (utf16Units c) hwr
      (by omega)
    have hdec := decode_of_sequence first (more ++ points.flatMap utf8Bytes) _ c
      (sequence_of_utf8Bytes first more _ c hmax hbytes)
    have hstart := (lead_of_utf8Bytes first more c hmax hbytes).2
    have hnext := ih dst' (written ++ utf16Units c)
      (fun d hd => hle d (mem_cons_of_mem c hd)) hpre (by rw [length_append]; omega)
    have hunits := utf16Units_length c
    rw [append_assoc, length_append, ← flatMap_cons] at hnext
    have hroom : written.length < dst.length := by split at hunits <;> omega
    rw [flatMap_cons, hbytes, cons_append, decodeToUTF16Loop, if_pos hroom]
    simp only [hdec, Int.toNat_natCast, Nat.add_sub_cancel, drop_left]
    rw [if_neg (by omega)]
    by_cases hsup : 0xFFFF < c
    · rw [if_neg (by omega)] at hunits
      rw [if_pos (hstart.mpr hsup), if_neg (by simp; omega),
        if_pos (by unfold kMaxCodeUnit; omega), utf16_encode_eq c hsup hmax, hstore,
        bind_some, ← hnext, hunits]
    · rw [if_pos (by omega)] at hunits
      rw [show [UInt16.ofNat c] = utf16Units c from (if_pos (by omega)).symm,
        if_neg (by rw [hstart]; exact hsup), hstore, bind_some, ← hnext, hunits]

lemma decode_cases (first : UInt8) (rest : List UInt8) :
    (decode first rest).2 = -1 ∨ ∃ j ch, sequence first rest = some (j, ch) := by
  unfold decode
  cases sequence first rest with
  | none => exact .inl rfl
  | some result => exact .inr ⟨result.1, result.2, rfl⟩

/-- On any array counted as Latin-1 the decoder stays inside its buffer and succeeds only on well
formed input. -/
lemma decodeToLatin1Loop_total (bytes : List UInt8) (j : ℕ) (dst : List UInt8)
    (hbytes : ∀ b ∈ bytes, isLatin1SequenceStart b = true) (hj : j ≤ dst.length) :
    ∃ ok dst', decodeToLatin1Loop bytes j dst = some (ok, dst') ∧ dst'.length = dst.length ∧
      (ok = true → WellFormed bytes) := by
  induction hn : bytes.length using Nat.strong_induction_on generalizing bytes j dst with
  | _ n ih =>
  cases bytes with
  | nil =>
    rw [decodeToLatin1Loop]
    exact ⟨true, dst, rfl, rfl, fun _ => ⟨[], by simp, rfl⟩⟩
  | cons first rest =>
    have hfirst := hbytes first (mem_cons_self ..)
    rw [decodeToLatin1Loop, if_pos hfirst]
    by_cases hroom : j < dst.length
    · rw [if_pos hroom]
      rcases decode_cases first rest with hbad | ⟨len, ch, hseq⟩
      · simp only [hbad, if_true]
        exact ⟨false, dst, rfl, rfl, by simp⟩
      · have hch : ch ≤ 0xFF := (lead_of_sequence first rest len ch hseq).1.mp hfirst
        have hlatin1 : isLatin1 (ch : ℤ) = true := by simp [isLatin1]; omega
        obtain ⟨dst', hstore, hlen'⟩ := store_inside dst [UInt8.ofNat ch] j hroom
        simp only [decode_of_sequence first rest len ch hseq, hlatin1, Int.toNat_natCast, hstore,
          bind_some, if_true]
        rw [if_neg (by omega)]
        rw [length_cons] at hn
        obtain ⟨ok, dst'', hloop, hlen'', hok⟩ := ih (rest.drop (len - 1)).length
          (by rw [length_drop]; omega) (rest.drop (len - 1)) (j + 1) dst'
          (fun b hb => hbytes b (mem_cons_of_mem first (mem_of_mem_drop hb)))
          (by omega) rfl
        exact ⟨ok, dst'', hloop, by omega, fun h => wellFormed_cons first rest len ch hseq (hok h)⟩
    · rw [if_neg hroom]
      exact ⟨_, dst, rfl, rfl, by simp; omega⟩

lemma decodeToUTF16Loop_total (bytes : List UInt8) (j : ℕ) (dst : List UInt16)
    (hj : j ≤ dst.length) :
    ∃ ok dst', decodeToUTF16Loop bytes j dst = some (ok, dst') ∧ dst'.length = dst.length ∧
      (ok = true → WellFormed bytes) := by
  induction hn : bytes.length using Nat.strong_induction_on generalizing bytes j dst with
  | _ n ih =>
  cases bytes with
  | nil =>
    rw [decodeToUTF16Loop]
    exact ⟨true, dst, rfl, rfl, fun _ => ⟨[], by simp, rfl⟩⟩
  | cons first rest =>
    rw [decodeToUTF16Loop]
    by_cases hroom : j < dst.length
    · rw [if_pos hroom]
      rcases decode_cases first rest with hbad | ⟨len, ch, hseq⟩
      · simp only [hbad, if_true]
        exact ⟨false, dst, rfl, rfl, by simp⟩
      · have hstart := (lead_of_sequence first rest len ch hseq).2
        rw [length_cons] at hn
        have hstep : ∀ units : List UInt16, j + units.length ≤ dst.length →
            ∃ ok dst', ((store dst j units).bind fun dst =>
              decodeToUTF16Loop (rest.drop (len - 1)) (j + units.length) dst) = some (ok, dst') ∧
              dst'.length = dst.length ∧ (ok = true → WellFormed (first :: rest)) := by
          intro units hunits
          obtain ⟨dst', hstore, hlen'⟩ := store_inside dst units j hunits
          obtain ⟨ok, dst'', hloop, hlen'', hok⟩ := ih (rest.drop (len - 1)).length
            (by rw [length_drop]; omega) (rest.drop (len - 1)) (j + units.length) dst'
            (by omega) rfl
          refine ⟨ok, dst'', ?_, by omega, fun h => wellFormed_cons first rest len ch hseq (hok h)⟩
          rw [hstore, bind_some, hloop]
        simp only [decode_of_sequence first rest len ch hseq, Int.toNat_natCast]
        rw [if_neg (by omega)]
        by_cases hsup : isSupplementarySequenceStart first = true
        · rw [if_pos hsup]
          have hch := hstart.mp hsup
          by_cases hlast : j = dst.length - 1
          · rw [if_pos (by simpa using hlast)]
            exact ⟨false, dst, rfl, rfl, by simp⟩
          · rw [if_neg (by simpa using hlast), if_pos (by unfold kMaxCodeUnit; omega)]
            exact hstep (Utf16.encode ch) (by change j + 2 ≤ _; omega)
        · rw [if_neg hsup]
          exact hstep [UInt16.ofNat ch] hroom
    · rw [if_neg hroom]
      exact ⟨_, dst, rfl, rfl, by simp; omega⟩

end DartSdk.Unicode
