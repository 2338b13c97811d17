import DartSdk.Checked
import DartSdk.Encodings

/-!
The classes `_Base64Encoder` and `_Base64Decoder` of sdk/lib/convert/base64.dart. A string is the
list of its code units, and an output buffer is the list of its bytes; a null buffer has no
place for any byte. An access out of bounds or a failed assertion stops the run, the exceptions
that the code throws itself are results. The state of the encoder holds the bytes left over.
-/

namespace DartSdk.Base64

open Checked Buffers

/-- A slice of a list of bytes or of a string. -/
structure Slice where
  input : List ℕ
  first : ℕ
  last : ℕ
  first_le : first ≤ last
  last_le : last ≤ input.length

def Slice.items (s : Slice) : List ℕ := (s.input.drop s.first).take (s.last - s.first)

def read {α : Type} (list : List α) (i : ℕ) : Result α :=
  match list[i]? with
  | some element => .ok element
  | none => .error .outOfBounds

/-- `output[i] = byte` in a `Uint8List`. -/
def write (output : List ℕ) (i byte : ℕ) : Result (List ℕ) :=
  match store output i [byte &&& 0xFF] with
  | some output => .ok output
  | none => .error .outOfBounds

/-- Stores to consecutive places, one after another, with the index after them. -/
def writeAll (output : List ℕ) (i : ℕ) : List ℕ → Result (List ℕ × ℕ)
  | [] => .ok (output, i)
  | byte :: bytes => do
      let output ← write output i byte
      writeAll output (i + 1) bytes

/-- `A` to `Z`, `a` to `z`, `0` to `9`. -/
def lettersAndDigits : List ℕ := List.range' 65 26 ++ List.range' 97 26 ++ List.range' 48 10

/-- The alphabet with `+` and `/`. -/
def base64Alphabet : List ℕ := lettersAndDigits ++ [43, 47]

/-- The alphabet with `-` and `_`. -/
def base64UrlAlphabet : List ℕ := lettersAndDigits ++ [45, 95]

def alphabetOf (urlSafe : Bool) : List ℕ := if urlSafe then base64UrlAlphabet else base64Alphabet

/-- `=`. -/
def paddingChar : ℕ := 0x3D

def encodeState (count bits : ℕ) : Result ℕ := do
  check (count ≤ 3)
  .ok (bits <<< 2 ||| count)

def stateBits (state : ℕ) : ℕ := state >>> 2

def stateCount (state : ℕ) : ℕ := state &&& 3

/-- `alphabet.codeUnitAt(value & _sixBitMask)` for several values. -/
def characters (alphabet : List ℕ) (values : List ℕ) : Result (List ℕ) :=
  values.mapM fun value => read alphabet (value &&& 0x3F)

structure EncodeLocals where
  bits : ℕ
  expectedChars : ℕ
  byteOr : ℕ
  output : List ℕ
  outputIndex : ℕ

def encodeByte (alphabet : List ℕ) (l : EncodeLocals) (byte : ℕ) : Result EncodeLocals := do
  let bits := (l.bits <<< 8 ||| byte) &&& 0xFFFFFF
  let l := { l with byteOr := l.byteOr ||| byte, bits, expectedChars := l.expectedChars - 1 }
  if l.expectedChars = 0 then do
    let chars ← characters alphabet [bits >>> 18, bits >>> 12, bits >>> 6, bits]
    let (output, outputIndex) ← writeAll l.output l.outputIndex chars
    .ok { l with output, outputIndex, expectedChars := 3, bits := 0 }
  else .ok l

/-- `writeFinalChunk` for one or two bytes. -/
def writeFinalChunk (alphabet output : List ℕ) (outputIndex count bits : ℕ) : Result (List ℕ) := do
  check (0 < count)
  if count = 1 then do
    let chars ← characters alphabet [bits >>> 2, bits <<< 4]
    let (output, _) ← writeAll output outputIndex (chars ++ [paddingChar, paddingChar])
    .ok output
  else do
    check (count = 2)
    let chars ← characters alphabet [bits >>> 10, bits >>> 4, bits <<< 2]
    let (output, _) ← writeAll output outputIndex (chars ++ [paddingChar])
    .ok output

/-- The `ArgumentError` for an element that is not a byte, with its index. -/
structure NotAByte where
  index : ℕ

/-- `encodeChunk`: the output and the new state. -/
def encodeChunk (alphabet : List ℕ) (s : Slice) (isLast : Bool) (output : List ℕ) (state : ℕ) :
    Result (Except NotAByte (List ℕ × ℕ)) := do
  let l ← s.items.foldlM (encodeByte alphabet)
    ⟨stateBits state, 3 - stateCount state, 0, output, 0⟩
  if l.byteOr ≤ 255 then
    if isLast ∧ l.expectedChars < 3 then do
      let output ← writeFinalChunk alphabet l.output l.outputIndex (3 - l.expectedChars) l.bits
      .ok (.ok (output, 0))
    else do
      let state ← encodeState (3 - l.expectedChars) l.bits
      .ok (.ok (l.output, state))
  else .ok (.error ⟨s.first + s.items.findIdx fun byte => 255 < byte⟩)

/-- `encode`: the characters, or `none` for null, and the new state. -/
def encode (alphabet : List ℕ) (s : Slice) (isLast : Bool) (state : ℕ) :
    Result (Except NotAByte (Option (List ℕ) × ℕ)) := do
  let length := s.last - s.first
  let byteCount := stateCount state + length
  let fullChunks := byteCount / 3
  let partialChunkLength := byteCount - fullChunks * 3
  let bufferLength := fullChunks * 4 + if isLast ∧ 0 < partialChunkLength then 4 else 0
  match ← encodeChunk alphabet s isLast (List.replicate bufferLength 0) state with
  | .error e => .ok (.error e)
  | .ok (output, state) => .ok (.ok (if 0 < bufferLength then some output else none, state))

inductive Message
  | missingPadding
  | invalidLength
  | invalidEncoding
  | invalidCharacter
  | invalidPadding
  deriving DecidableEq

def Message.text : Message → String
  | .missingPadding => "Missing padding character"
  | .invalidLength => "Invalid length, must be multiple of four"
  | .invalidEncoding => "Invalid encoding before padding"
  | .invalidCharacter => "Invalid character"
  | .invalidPadding => "Invalid padding character"

structure FormatException where
  message : Message
  source : List ℕ
  offset : ℕ
  deriving DecidableEq

abbrev Thrown (α : Type) := Except FormatException α

/-- The values of the characters below 128: -2 is invalid, -1 is padding. -/
def inverseAlphabet : List ℤ := [
  -2, -2, -2, -2, -2, -2, -2, -2, -2, -2, -2, -2, -2, -2, -2, -2,
  -2, -2, -2, -2, -2, -2, -2, -2, -2, -2, -2, -2, -2, -2, -2, -2,
  -2, -2, -2, -2, -2, -1, -2, -2, -2, -2, -2, 62, -2, 62, -2, 63,
  52, 53, 54, 55, 56, 57, 58, 59, 60, 61, -2, -2, -2, -1, -2, -2,
  -2, 0, 1, 2, 3, 4, 5, 6, 7, 8, 9, 10, 11, 12, 13, 14,
  15, 16, 17, 18, 19, 20, 21, 22, 23, 24, 25, -2, -2, -2, -2, 63,
  -2, 26, 27, 28, 29, 30, 31, 32, 33, 34, 35, 36, 37, 38, 39, 40,
  41, 42, 43, 44, 45, 46, 47, 48, 49, 50, 51, -2, -2, -2, -2, -2]

/-- `%`. -/
def charPercent : ℕ := 0x25
/-- `3`. -/
def char3 : ℕ := 0x33
/-- `d`. -/
def charD : ℕ := 0x64

def encodeCharacterState (count bits : ℕ) : Result ℤ := do
  check (count = count &&& 3)
  .ok ((bits <<< 2 ||| count : ℕ) : ℤ)

def encodePaddingState (expectedPadding : ℕ) : Result ℤ := do
  check (expectedPadding ≤ 5)
  .ok (-(expectedPadding : ℤ) - 1)

def hasSeenPadding (state : ℤ) : Bool := state < 0

/-- One round of the loop of `_checkPadding` at the rest of an escape for `=`: on with what is still
expected, or out. -/
def expectD (rest : List ℕ) (expected : ℕ) : (List ℕ × ℕ) ⊕ (List ℕ × ℕ) :=
  match rest with
  | [] => .inr ([], expected)
  | char :: rest' =>
    if char ||| 0x20 ≠ charD then .inr (rest, expected)
    else if rest' = [] then .inr ([], expected - 1)
    else .inl (rest', expected - 1)

def expectEscape (rest : List ℕ) (expected : ℕ) : (List ℕ × ℕ) ⊕ (List ℕ × ℕ) :=
  match rest with
  | [] => .inr ([], expected)
  | char :: rest' =>
    let expectedPartialPadding := if 3 < expected then expected - 3 else expected
    if expectedPartialPadding = 2 then
      if char ≠ char3 then .inr (rest, expected) else expectD rest' (expected - 1)
    else expectD rest expected

/-- One round of the loop of `_checkPadding`, on the characters that are left. -/
def checkPaddingRound : List ℕ × ℕ → Result ((List ℕ × ℕ) ⊕ (List ℕ × ℕ))
  | (rest, expected) =>
    if expected = 0 then .ok (.inr (rest, 0))
    else
      match rest with
      | [] => .error .outOfBounds
      | char :: rest' =>
        if expected = 3 then
          if char = paddingChar then .ok (.inr (rest', 0))
          else if char = charPercent then .ok (expectEscape rest' 2)
          else .ok (.inr (rest, 3))
        else .ok (expectEscape rest expected)

/-- `_checkPadding` on the characters from an index to the end of the slice. -/
def checkPadding (input : List ℕ) (rest : List ℕ) (last : ℕ) (state : ℤ) : Result (Thrown ℤ) := do
  check (hasSeenPadding state)
  if rest = [] then .ok (.ok state)
  else do
    let expectedPadding := (-state - 1).toNat
    check (expectedPadding < 6)
    let (rest, expectedPadding) ← loop checkPaddingRound 6 (rest, expectedPadding)
    if rest ≠ [] then .ok (.error ⟨.invalidPadding, input, last - rest.length⟩)
    else do
      let state ← encodePaddingState expectedPadding
      .ok (.ok state)

/-- The loop of `_trimPaddingChars` after the optional `d` or `3`; it breaks at the start of the
slice. -/
def skip (matching : ℕ → Bool) : List ℕ → Option (List ℕ)
  | [] => some []
  | char :: before => if matching char then if before = [] then none else some before
      else some (char :: before)

/-- `_trimPaddingChars` on the reversed slice, with the padding characters that may still be
counted: the number of characters before the padding. -/
def trimPaddingChars : ℕ → List ℕ → ℕ → ℕ
  | 0, _, newEnd => newEnd
  | _, [], newEnd => newEnd
  | padding + 1, char :: before, newEnd =>
    if char = paddingChar then trimPaddingChars padding before before.length
    else
      match skip (fun c => c ||| 0x20 == charD) (char :: before) with
      | none => newEnd
      | some chars =>
        match skip (fun c => c == char3) chars with
        | none => newEnd
        | some [] => newEnd
        | some (char :: before) =>
          if char = charPercent then trimPaddingChars padding before before.length
          else newEnd

/-- The length of the buffer that `_allocateBuffer` makes; 0 is null. -/
def bufferLength (s : Slice) (state : ℤ) : Result ℕ := do
  check (0 ≤ state)
  let size := s.last - s.first
  let paddingStart := trimPaddingChars 2 s.items.reverse size
  let length := stateCount state.toNat + paddingStart
  let remainderLength := length &&& 3
  .ok ((length >>> 2) * 3 +
    if remainderLength ≠ 0 ∧ paddingStart < size then remainderLength - 1 else 0)

structure DecodeLocals where
  bits : ℕ
  count : ℕ
  charOr : ℕ
  output : List ℕ
  outIndex : ℕ

/-- How the loop of `decodeChunk` is left early. -/
inductive DecodeExit
  | thrown (e : FormatException)
  | returned (output : List ℕ) (state : ℤ)
  | broken

/-- The padding at index `i`, after two or three characters of a group. -/
def decodePadding (s : Slice) (i char : ℕ) (rest : List ℕ) (l : DecodeLocals) :
    Result DecodeExit := do
  if l.count = 3 ∧ l.bits &&& 0x03 ≠ 0 ∨ l.count ≠ 3 ∧ l.bits &&& 0x0F ≠ 0 then
    .ok (.thrown ⟨.invalidEncoding, s.input, i⟩)
  else do
    let bytes := if l.count = 3 then [l.bits >>> 10, l.bits >>> 2] else [l.bits >>> 4]
    let (output, _) ← writeAll l.output l.outIndex bytes
    let expectedPadding := (3 - l.count) * 3 + if char = charPercent then 2 else 0
    let state ← encodePaddingState expectedPadding
    match ← checkPadding s.input rest s.last state with
    | .error e => .ok (.thrown e)
    | .ok state => .ok (.returned output state)

/-- The loop of `decodeChunk` from index `i` on. -/
def decodeLoop (s : Slice) : ℕ → List ℕ → DecodeLocals → Result (DecodeLocals ⊕ DecodeExit)
  | _, [], l => .ok (.inl l)
  | i, char :: rest, l => do
      let l := { l with charOr := l.charOr ||| char }
      let code ← read inverseAlphabet (char &&& 127)
      if 0 ≤ code then do
        let bits := (l.bits <<< 6 ||| code.toNat) &&& 0xFFFFFF
        let count := (l.count + 1) &&& 3
        if count = 0 then do
          check (l.outIndex + 3 ≤ l.output.length)
          let (output, outIndex) ← writeAll l.output l.outIndex [bits >>> 16, bits >>> 8, bits]
          decodeLoop s (i + 1) rest { l with bits := 0, count, output, outIndex }
        else decodeLoop s (i + 1) rest { l with bits, count }
      else if code = -1 ∧ 1 < l.count then
        if 127 < l.charOr then .ok (.inr .broken)
        else do
          let exit ← decodePadding s i char rest l
          .ok (.inr exit)
      else .ok (.inr (.thrown ⟨.invalidCharacter, s.input, i⟩))

/-- `decodeChunk`: the output and the new state. -/
def decodeChunk (s : Slice) (output : List ℕ) (state : ℤ) : Result (Thrown (List ℕ × ℤ)) := do
  check (!hasSeenPadding state)
  let notAscii : FormatException :=
    ⟨.invalidCharacter, s.input, s.first + s.items.findIdx fun char => 127 < char⟩
  match ← decodeLoop s s.first s.items
    ⟨stateBits state.toNat, stateCount state.toNat, 0, output, 0⟩ with
  | .inr (.thrown e) => .ok (.error e)
  | .inr (.returned output state) => .ok (.ok (output, state))
  | .inr .broken => .ok (.error notAscii)
  | .inl l =>
    if l.charOr ≤ 127 then do
      let state ← encodeCharacterState l.count l.bits
      .ok (.ok (l.output, state))
    else .ok (.error notAscii)

/-- `decode`: the bytes, or `none` for null, and the new state. -/
def decode (s : Slice) (state : ℤ) : Result (Thrown (Option (List ℕ) × ℤ)) := do
  if hasSeenPadding state then
    match ← checkPadding s.input s.items s.last state with
    | .error e => .ok (.error e)
    | .ok state => .ok (.ok (none, state))
  else if s.first = s.last then .ok (.ok (some [], state))
  else do
    let length ← bufferLength s state
    match ← decodeChunk s (List.replicate length 0) state with
    | .error e => .ok (.error e)
    | .ok (output, state) => .ok (.ok (if 0 < length then some output else none, state))

def close (input : List ℕ) (last : ℕ) (state : ℤ) : Thrown Unit :=
  if state < -1 then .error ⟨.missingPadding, input, last⟩
  else if 0 < state then .error ⟨.invalidLength, input, last⟩
  else .ok ()

/-- The chunks in order, the last one with `isLast`: the buffers that are returned. -/
def encodeChunks (alphabet : List ℕ) (last : Slice) :
    List Slice → ℕ → Result (Except NotAByte (List (Option (List ℕ))))
  | [], state => do
      match ← encode alphabet last true state with
      | .error e => .ok (.error e)
      | .ok (buffer, _) => .ok (.ok [buffer])
  | s :: slices, state => do
      match ← encode alphabet s false state with
      | .error e => .ok (.error e)
      | .ok (buffer, state) =>
        match ← encodeChunks alphabet last slices state with
        | .error e => .ok (.error e)
        | .ok buffers => .ok (.ok (buffer :: buffers))

/-- The chunks in order, and then `close`: the buffers that are returned. -/
def decodeChunks (input : List ℕ) (last : ℕ) :
    List Slice → ℤ → Result (Thrown (List (Option (List ℕ))))
  | [], state =>
    match close input last state with
    | .error e => .ok (.error e)
    | .ok () => .ok (.ok [])
  | s :: slices, state => do
      match ← decode s state with
      | .error e => .ok (.error e)
      | .ok (buffer, state) =>
        match ← decodeChunks input last slices state with
        | .error e => .ok (.error e)
        | .ok buffers => .ok (.ok (buffer :: buffers))

/-- The bytes or characters in the buffers; null has none. -/
def contents (buffers : List (Option (List ℕ))) : List ℕ :=
  (buffers.map fun buffer => buffer.getD []).flatten

open Base64Format List Nat

lemma byte_mask (byte : ℕ) : byte &&& 0xFF = byte % 256 := and_two_pow_sub_one_eq_mod byte 8

lemma sextet_mask (value : ℕ) : value &&& 0x3F = value % 64 :=
  and_two_pow_sub_one_eq_mod value 6

variable {output written : List ℕ}

/-- Stores after the written part of a buffer that has room for them. -/
lemma writeAll_spec (bytes : List ℕ) (hwr : written <+: output)
    (hroom : written.length + bytes.length ≤ output.length) :
    ∃ output', writeAll output written.length bytes =
        .ok (output', written.length + bytes.length) ∧
      written ++ bytes.map (· % 256) <+: output' ∧ output'.length = output.length := by
  induction bytes generalizing output written with
  | nil => exact ⟨output, rfl, by simpa using hwr, rfl⟩
  | cons byte bytes ih =>
    rw [length_cons] at hroom
    obtain ⟨output1, hstore, hshared1, hlength1⟩ :=
      store_prefix output written [byte &&& 0xFF] hwr (by simp; omega)
    have hlen : (written ++ [byte &&& 0xFF]).length = written.length + 1 := by simp
    obtain ⟨output2, hwrite, hshared2, hlength2⟩ := ih hshared1 (by omega)
    refine ⟨output2, ?_, ?_, hlength2.trans hlength1⟩
    · rw [hlen] at hwrite
      rw [writeAll, write, hstore]
      simp only [ok_bind]
      rw [hwrite, length_cons, add_assoc, add_comm 1]
    · rw [byte_mask] at hshared2
      simpa using hshared2

/-- A table for all groups of six bits, with bytes for characters. -/
structure IsAlphabet (alphabet : List ℕ) : Prop where
  length_eq : alphabet.length = 64
  lt_256 : ∀ c ∈ alphabet, c < 256

def character (alphabet : List ℕ) (value : ℕ) : ℕ := alphabet.getD value 0

variable {alphabet : List ℕ}

section

variable (h : IsAlphabet alphabet)

include h

lemma character_lt (value : ℕ) : character alphabet value < 256 := by
  rw [character, getD_eq_getElem?_getD]
  cases hget : alphabet[value]? with
  | none => decide
  | some c => exact h.lt_256 c (mem_of_getElem? hget)

lemma read_character (value : ℕ) :
    read alphabet (value &&& 0x3F) = .ok (character alphabet (value % 64)) := by
  have hlt : value % 64 < alphabet.length := by
    rw [h.length_eq]
    exact mod_lt value (by decide)
  rw [sextet_mask, read, List.getElem?_eq_getElem hlt, character, getD_eq_getElem alphabet 0 hlt]

lemma characters_eq (values : List ℕ) :
    characters alphabet values = .ok (values.map fun value => character alphabet (value % 64)) := by
  induction values with
  | nil => rfl
  | cons value values ih =>
    rw [characters, mapM_cons, read_character h, ok_bind, ← characters, ih]
    rfl

lemma map_byte_characters (values : List ℕ) :
    (values.map (character alphabet)).map (· % 256) = values.map (character alphabet) := by
  rw [map_map]
  exact map_congr_left fun value _ => mod_eq_of_lt (character_lt h value)

end

/-- The number that the bytes which are left over make. -/
def bitsOf (pending : List ℕ) : ℕ := pending.foldl (fun bits byte => bits * 256 + byte) 0

def stateOf (pending : List ℕ) : ℕ := bitsOf pending * 4 + pending.length

variable {pending : List ℕ}

section

variable (h : pending.length < 3)

include h

lemma stateOf_eq : bitsOf pending <<< 2 ||| pending.length = stateOf pending := by
  rw [← shiftLeft_add_eq_or_of_lt (by omega : pending.length < 2 ^ 2), shiftLeft_eq, stateOf]

lemma stateBits_stateOf : stateBits (stateOf pending) = bitsOf pending := by
  rw [stateBits, shiftRight_eq_div_pow, stateOf]
  omega

lemma stateCount_stateOf : stateCount (stateOf pending) = pending.length := by
  rw [stateCount, show (3 : ℕ) = 2 ^ 2 - 1 from rfl, and_two_pow_sub_one_eq_mod, stateOf]
  omega

/-- The locals hold bytes that are left over, and the buffer what was written. -/
structure EncodeLocals.Holds (l : EncodeLocals) (pending written : List ℕ) : Prop where
  pending_length : pending.length < 3
  bytes : ∀ b ∈ pending, b < 256
  bits_eq : l.bits = bitsOf pending
  expected_eq : l.expectedChars = 3 - pending.length
  byteOr_le : l.byteOr ≤ 255
  written_prefix : written <+: l.output
  index_eq : l.outputIndex = written.length

lemma bitsOf_lt (hbytes : ∀ b ∈ pending, b < 256) : bitsOf pending < 65536 := by
  match pending, h with
  | [], _ => decide
  | [a], _ =>
    have ha := hbytes a (by simp)
    simp only [bitsOf, foldl_cons, foldl_nil]
    omega
  | [a, b], _ =>
    have ha := hbytes a (by simp)
    have hb := hbytes b (by simp)
    simp only [bitsOf, foldl_cons, foldl_nil]
    omega

lemma bitsOf_snoc (hbytes : ∀ b ∈ pending, b < 256) {byte : ℕ} (hbyte : byte < 256) :
    (bitsOf pending <<< 8 ||| byte) &&& 0xFFFFFF = bitsOf (pending ++ [byte]) := by
  have hlt := bitsOf_lt h hbytes
  rw [← shiftLeft_add_eq_or_of_lt (by omega : byte < 2 ^ 8), shiftLeft_eq,
    show (0xFFFFFF : ℕ) = 2 ^ 24 - 1 from rfl, and_two_pow_sub_one_eq_mod, bitsOf, bitsOf,
    foldl_append, foldl_cons, foldl_nil]
  rw [bitsOf] at hlt
  omega

end

lemma byteOr_le {a b : ℕ} (ha : a ≤ 255) (hb : b < 256) : a ||| b ≤ 255 :=
  le_of_lt_succ (or_lt_two_pow (show a < 2 ^ 8 by omega) hb)

section

variable (h : IsAlphabet alphabet)

include h

lemma characters_of_three {a b c : ℕ} (ha : a < 256) (hb : b < 256) (hc : c < 256) :
    characters alphabet [bitsOf [a, b, c] >>> 18, bitsOf [a, b, c] >>> 12, bitsOf [a, b, c] >>> 6,
      bitsOf [a, b, c]] = .ok ((sextets a b c).map (character alphabet)) := by
  have hbits : bitsOf [a, b, c] = (a * 256 + b) * 256 + c := by
    simp [bitsOf]
  rw [characters_eq h, hbits]
  simp only [shiftRight_eq_div_pow, sextets, map_cons, map_nil]
  rw [show ((a * 256 + b) * 256 + c) / 2 ^ 18 % 64 = a / 4 by omega,
    show ((a * 256 + b) * 256 + c) / 2 ^ 12 % 64 = a % 4 * 16 + b / 16 by omega,
    show ((a * 256 + b) * 256 + c) / 2 ^ 6 % 64 = b % 16 * 4 + c / 64 by omega,
    show ((a * 256 + b) * 256 + c) % 64 = c % 64 by omega]

lemma encodeByte_spec {l : EncodeLocals} (hl : l.Holds pending written) {byte : ℕ}
    (hbyte : byte < 256)
    (hroom : written.length + (fullGroups (character alphabet) (pending ++ [byte])).length ≤
      l.output.length) :
    ∃ l', encodeByte alphabet l byte = .ok l' ∧
      l'.Holds (leftOver (pending ++ [byte]))
        (written ++ fullGroups (character alphabet) (pending ++ [byte])) ∧
      l'.output.length = l.output.length := by
  have hbits := bitsOf_snoc hl.pending_length hl.bytes hbyte
  have hor := byteOr_le hl.byteOr_le hbyte
  have hall : ∀ b ∈ pending ++ [byte], b < 256 := by
    intro b hb
    rcases mem_append.mp hb with hb | hb
    · exact hl.bytes b hb
    · rw [mem_singleton.mp hb]
      exact hbyte
  have hlen := hl.pending_length
  rw [encodeByte]
  simp only [hl.bits_eq, hbits, hl.expected_eq]
  by_cases hfew : pending.length < 2
  · have hshort : (pending ++ [byte]).length < 3 := by
      rw [length_append, length_singleton]
      omega
    rw [leftOver_of_lt hshort, fullGroups_of_lt _ hshort, append_nil]
    refine ⟨_, if_neg (by omega), ⟨hshort, hall, rfl, ?_, hor, hl.written_prefix, hl.index_eq⟩, rfl⟩
    rw [length_append, length_singleton]
    exact Nat.sub_sub 3 pending.length 1
  · obtain ⟨a, b, rfl⟩ := length_eq_two.mp (by omega : pending.length = 2)
    have hchars := characters_of_three h (hall a (by simp)) (hall b (by simp)) hbyte
    rw [cons_append, cons_append, nil_append] at hroom ⊢
    obtain ⟨output, hwrite, hshared, hlen⟩ :=
      writeAll_spec ((sextets a b byte).map (character alphabet)) hl.written_prefix hroom
    rw [map_byte_characters h] at hshared
    rw [if_pos (by simp), hchars, ok_bind, hl.index_eq, hwrite, ok_bind]
    exact ⟨_, rfl, ⟨by simp [leftOver], by simp [leftOver], rfl, rfl, hor, hshared,
      (length_append).symm⟩, hlen⟩

lemma encodeBytes_spec (items : List ℕ) {l : EncodeLocals} (hl : l.Holds pending written)
    (hitems : ∀ b ∈ items, b < 256)
    (hroom : written.length + (fullGroups (character alphabet) (pending ++ items)).length ≤
      l.output.length) :
    ∃ l', items.foldlM (encodeByte alphabet) l = .ok l' ∧
      l'.Holds (leftOver (pending ++ items))
        (written ++ fullGroups (character alphabet) (pending ++ items)) ∧
      l'.output.length = l.output.length := by
  induction items generalizing l pending written with
  | nil =>
    refine ⟨l, rfl, ?_, rfl⟩
    rwa [append_nil, leftOver_of_lt hl.pending_length,
      fullGroups_of_lt _ hl.pending_length, append_nil]
  | cons byte items ih =>
    rw [append_cons] at hroom ⊢
    rw [fullGroups_append, length_append] at hroom
    obtain ⟨l1, hfirst, hl1, hlength1⟩ :=
      encodeByte_spec h hl (hitems byte (by simp)) (by omega)
    obtain ⟨l2, hrest, hl2, hlength2⟩ := ih hl1 (fun b hb => hitems b (by simp [hb])) (by
      rw [length_append]
      omega)
    refine ⟨l2, ?_, ?_, hlength2.trans hlength1⟩
    · rw [foldlM_cons, hfirst]
      exact hrest
    · rwa [leftOver_append, fullGroups_append, ← append_assoc]

/-- The characters of a last group with one or two bytes. -/
lemma writeFinalChunk_spec (hpos : 0 < pending.length) (hlength : pending.length < 3)
    (hbytes : ∀ b ∈ pending, b < 256) (hwr : written <+: output)
    (hroom : written.length + 4 ≤ output.length) :
    ∃ output', writeFinalChunk alphabet output written.length pending.length (bitsOf pending) =
        .ok output' ∧
      written ++ Base64Format.encode (character alphabet) paddingChar pending <+: output' ∧
      output'.length = output.length := by
  rw [writeFinalChunk, check_of (decide_eq_true hpos), ok_bind]
  match pending, hpos, hlength with
  | [a], _, _ =>
    have ha := hbytes a (by simp)
    have hchars : characters alphabet [bitsOf [a] >>> 2, bitsOf [a] <<< 4] =
        .ok ([a / 4, a % 4 * 16].map (character alphabet)) := by
      rw [characters_eq h, show bitsOf [a] = a by simp [bitsOf]]
      simp only [shiftRight_eq_div_pow, shiftLeft_eq, map_cons, map_nil]
      rw [show a / 2 ^ 2 % 64 = a / 4 by omega, show a * 2 ^ 4 % 64 = a % 4 * 16 by omega]
    obtain ⟨output', hwrite, hshared, hlen⟩ := writeAll_spec
      ([a / 4, a % 4 * 16].map (character alphabet) ++ [paddingChar, paddingChar]) hwr hroom
    rw [map_append, map_byte_characters h] at hshared
    refine ⟨output', ?_, hshared, hlen⟩
    rw [if_pos (by simp), hchars, ok_bind, hwrite, ok_bind]
  | [a, b], _, _ =>
    have ha := hbytes a (by simp)
    have hb := hbytes b (by simp)
    have hchars : characters alphabet [bitsOf [a, b] >>> 10, bitsOf [a, b] >>> 4,
        bitsOf [a, b] <<< 2] =
        .ok ([a / 4, a % 4 * 16 + b / 16, b % 16 * 4].map (character alphabet)) := by
      rw [characters_eq h, show bitsOf [a, b] = a * 256 + b by simp [bitsOf]]
      simp only [shiftRight_eq_div_pow, shiftLeft_eq, map_cons, map_nil]
      rw [show (a * 256 + b) / 2 ^ 10 % 64 = a / 4 by omega,
        show (a * 256 + b) / 2 ^ 4 % 64 = a % 4 * 16 + b / 16 by omega,
        show (a * 256 + b) * 2 ^ 2 % 64 = b % 16 * 4 by omega]
    obtain ⟨output', hwrite, hshared, hlen⟩ := writeAll_spec
      ([a / 4, a % 4 * 16 + b / 16, b % 16 * 4].map (character alphabet) ++ [paddingChar])
      hwr hroom
    rw [map_append, map_byte_characters h] at hshared
    refine ⟨output', ?_, hshared, hlen⟩
    rw [if_neg (by simp), check_of (by simp), ok_bind, hchars, ok_bind, hwrite, ok_bind]

omit h in
lemma encode_length {pending : List ℕ} (h : pending.length < 3) (padding : ℕ) :
    (Base64Format.encode (character alphabet) padding pending).length =
      if 0 < pending.length then 4 else 0 := by
  match pending, h with
  | [], _ => rfl
  | [a], _ => rfl
  | [a, b], _ => rfl

omit h in
lemma Slice.items_length (s : Slice) : s.items.length = s.last - s.first := by
  have hlast := s.last_le
  rw [Slice.items, length_take, length_drop]
  omega

lemma encodeChunk_spec (s : Slice) (isLast : Bool) (hpend : pending.length < 3)
    (hbytes : ∀ b ∈ pending, b < 256) (hitems : ∀ b ∈ s.items, b < 256) {chars : List ℕ}
    (hchars : chars = fullGroups (character alphabet) (pending ++ s.items) ++
      if isLast then Base64Format.encode (character alphabet) paddingChar (leftOver (pending ++
      s.items)) else []) (hroom : output.length = chars.length) :
    encodeChunk alphabet s isLast output (stateOf pending) =
      .ok (.ok (chars, if isLast then 0 else stateOf (leftOver (pending ++ s.items)))) := by
  have hlength := leftOver_length_lt (pending ++ s.items)
  have hroom' : (fullGroups (character alphabet) (pending ++ s.items)).length ≤ output.length := by
    rw [hroom, hchars, length_append]
    exact Nat.le_add_right _ _
  have hstart : EncodeLocals.Holds ⟨stateBits (stateOf pending), 3 - stateCount (stateOf pending),
      0, output, 0⟩ pending [] :=
    ⟨hpend, hbytes, stateBits_stateOf hpend, by rw [stateCount_stateOf hpend],
      zero_le 255, nil_prefix, rfl⟩
  obtain ⟨l, hloop, hl, hlen⟩ := encodeBytes_spec h s.items hstart hitems (by simpa using hroom')
  rw [nil_append] at hl
  have hcnt : 3 - (3 - (leftOver (pending ++ s.items)).length) =
      (leftOver (pending ++ s.items)).length := by omega
  rw [encodeChunk, hloop, ok_bind, if_pos hl.byteOr_le, hl.expected_eq, hl.bits_eq, hl.index_eq,
    hcnt]
  cases isLast with
  | false =>
    have hfull : l.output = chars := by
      rw [hchars, if_neg (by decide), append_nil]
      apply eq_of_prefix_full _ _ hl.written_prefix
      rw [hlen, hroom, hchars, if_neg (by decide), append_nil]
    rw [if_neg (by simp), encodeState, check_of (decide_eq_true (by omega)), ok_bind, ok_bind,
      stateOf_eq hlength, hfull]
    rfl
  | true =>
    rw [if_pos rfl] at hchars
    have hend := @encode_length alphabet _ hlength paddingChar
    by_cases hpos : 0 < (leftOver (pending ++ s.items)).length
    · rw [if_pos hpos] at hend
      have hroom4 : (fullGroups (character alphabet) (pending ++ s.items)).length + 4 ≤
          l.output.length := by
        rw [hlen, hroom, hchars, length_append, hend]
      obtain ⟨output', hwrite, hshared, hlen'⟩ := writeFinalChunk_spec h hpos hlength
        hl.bytes hl.written_prefix hroom4
      have hfull : output' = chars := by
        rw [hchars]
        apply eq_of_prefix_full _ _ hshared
        rw [hlen', hlen, hroom, hchars]
      rw [if_pos ⟨rfl, by omega⟩, hwrite, ok_bind, hfull]
      rfl
    · have hnil : leftOver (pending ++ s.items) = [] := length_eq_zero_iff.mp (by omega)
      have hfull : l.output = chars := by
        rw [hchars, hnil, Base64Format.encode, append_nil]
        apply eq_of_prefix_full _ _ hl.written_prefix
        rw [hlen, hroom, hchars, hnil, Base64Format.encode, append_nil]
      rw [if_neg (by omega), hnil, hfull]
      rfl

/-- A chunk gives the characters of its full groups, and a last chunk those of the last group
too. -/
lemma encode_spec (s : Slice) (isLast : Bool) (hpend : pending.length < 3)
    (hbytes : ∀ b ∈ pending, b < 256) (hitems : ∀ b ∈ s.items, b < 256) :
    ∃ buffer, encode alphabet s isLast (stateOf pending) =
        .ok (.ok (buffer, if isLast then 0 else stateOf (leftOver (pending ++ s.items)))) ∧
      buffer.getD [] = fullGroups (character alphabet) (pending ++ s.items) ++
        (if isLast then Base64Format.encode (character alphabet) paddingChar
          (leftOver (pending ++ s.items)) else []) ∧ buffer ≠ some [] := by
  have hlen := leftOver_length_lt (pending ++ s.items)
  have htotal : (pending ++ s.items).length = pending.length + (s.last - s.first) := by
    rw [length_append, s.items_length]
  generalize hchars : fullGroups (character alphabet) (pending ++ s.items) ++
      (if isLast then Base64Format.encode (character alphabet) paddingChar
        (leftOver (pending ++ s.items)) else []) = chars
  have hbuffer : (pending.length + (s.last - s.first)) / 3 * 4 +
      (if isLast = true ∧ 0 < pending.length + (s.last - s.first) -
        (pending.length + (s.last - s.first)) / 3 * 3 then 4 else 0) = chars.length := by
    rw [← hchars, length_append, fullGroups_length, htotal]
    cases isLast with
    | false => simp [mul_comm]
    | true =>
      rw [if_pos rfl, encode_length hlen, leftOver_length, htotal]
      simp only [true_and]
      split_ifs <;> omega
  refine ⟨if 0 < chars.length then some chars else none, ?_, ?_⟩
  · rw [encode]
    simp only [stateCount_stateOf hpend, hbuffer]
    rw [encodeChunk_spec h s isLast hpend hbytes hitems hchars.symm length_replicate, ok_bind]
  · split_ifs with hpos
    · exact ⟨rfl, fun h => (length_pos_iff.mp hpos) (Option.some.inj h)⟩
    · exact ⟨(length_eq_zero_iff.mp (by omega)).symm, nofun⟩

lemma encodeChunks_spec (last : Slice) (slices : List Slice) (hpend : pending.length < 3)
    (hbytes : ∀ b ∈ pending, b < 256)
    (hitems : ∀ b ∈ slices.flatMap Slice.items ++ last.items, b < 256) :
    ∃ buffers, encodeChunks alphabet last slices (stateOf pending) = .ok (.ok buffers) ∧
      contents buffers = Base64Format.encode (character alphabet) paddingChar
        (pending ++ (slices.flatMap Slice.items ++ last.items)) := by
  induction slices generalizing pending with
  | nil =>
    obtain ⟨buffer, hbuffer, hchars, -⟩ := encode_spec h last true hpend hbytes
      (fun b hb => hitems b (by simp [hb]))
    refine ⟨[buffer], ?_, ?_⟩
    · rw [encodeChunks, hbuffer, ok_bind]
    · rw [encode_eq_fullGroups]
      simpa [contents] using hchars
  | cons s slices ih =>
    obtain ⟨buffer, hbuffer, hchars, -⟩ := encode_spec h s false hpend hbytes
      (fun b hb => hitems b (by simp [hb]))
    have hleft : ∀ b ∈ leftOver (pending ++ s.items), b < 256 := by
      intro b hb
      rcases mem_append.mp (mem_of_mem_leftOver hb) with hb | hb
      · exact hbytes b hb
      · exact hitems b (by simp [hb])
    obtain ⟨buffers, hbuffers, hrest⟩ := ih (leftOver_length_lt _) hleft
      (fun b hb => hitems b (by
        rw [flatMap_cons, append_assoc]
        exact mem_append_right _ hb))
    refine ⟨buffer :: buffers, ?_, ?_⟩
    · rw [encodeChunks, hbuffer, ok_bind]
      simp only [Bool.false_eq_true, if_false]
      rw [hbuffers, ok_bind]
    · rw [if_neg (by decide), append_nil] at hchars
      have hcontents : contents (buffer :: buffers) = buffer.getD [] ++ contents buffers := by
        simp [contents]
      rw [hcontents, hchars, hrest, flatMap_cons, append_assoc, ← encode_append, append_assoc]

end

lemma isAlphabet_alphabetOf (urlSafe : Bool) : IsAlphabet (alphabetOf urlSafe) := by
  cases urlSafe with
  | false => exact ⟨by decide, by decide⟩
  | true => exact ⟨by decide, by decide⟩

end DartSdk.Base64
