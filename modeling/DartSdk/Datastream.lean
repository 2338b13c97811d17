import DartSdk.Checked
import DartSdk.Encodings

/-!
The variable-length integer streams of runtime/vm/datastream.h. A reader is the
sequence of bytes between `current_` and `end_`; a writer is its allocated buffer
together with the offset of `current_`. A failed ASSERT yields `none`.
T is a two's complement word: shifts and ORs are those of the accumulator, and the
groups of a value are produced by its own arithmetic shift.
-/

namespace DartSdk.Datastream

open EndMarkedGroups List Nat

def kDataBitsPerByte : ℕ := 7
def kByteMask : ℕ := (1 <<< kDataBitsPerByte) - 1
def kMaxUnsignedDataPerByte : ℕ := kByteMask
def kMinDataPerByte : ℤ := -(1 <<< (kDataBitsPerByte - 1))

/-- `(~kMinDataPerByte & kByteMask)`. -/
def kMaxDataPerByte : ℤ := (-kMinDataPerByte - 1) % (kByteMask + 1)

def kEndByteMarker : ℕ := 255 - kMaxDataPerByte.toNat
def kEndUnsignedByteMarker : ℕ := 255 - kMaxUnsignedDataPerByte

lemma kMinDataPerByte_eq : kMinDataPerByte = -64 := rfl

lemma kMaxDataPerByte_eq : kMaxDataPerByte = 63 := rfl

/-- `(x & -n)`, written with the complementary mask. -/
def roundDown (x n : ℕ) : ℕ := x - (x &&& (n - 1))

def roundUp (x n : ℕ) : ℕ := roundDown (x + n - 1) n

lemma le_roundUp (x k : ℕ) : x ≤ roundUp x (2 ^ k) := by
  unfold roundUp roundDown
  rw [and_two_pow_sub_one_eq_mod]
  omega

/-- The bytes from `current_` up to `end_`. -/
structure ReadStream where
  pending : List UInt8

namespace ReadStream

def readByte (st : ReadStream) : Option (UInt8 × ReadStream) :=
  match st.pending with
  | [] => none
  | b :: rest => some (b, ⟨rest⟩)

def readBytes (st : ReadStream) (len : ℕ) : Option (List UInt8 × ReadStream) :=
  if len ≤ st.pending.length then some (st.pending.take len, ⟨st.pending.drop len⟩) else none

/-- The do-while loop of `Read<T>`, entered with the byte `b` in hand. -/
def readLoop {w : ℕ} (endByteMarker : ℕ) (r : BitVec w) (s : ℕ) (b : UInt8) :
    List UInt8 → Option (BitVec w × ReadStream)
  | [] => none
  | b' :: rest =>
    let r' := r ||| (BitVec.ofNat w b.toNat <<< s)
    let s' := s + kDataBitsPerByte
    if b'.toNat ≤ kMaxUnsignedDataPerByte then readLoop endByteMarker r' s' b' rest
    else some (r' ||| ((BitVec.ofNat w b'.toNat - BitVec.ofNat w endByteMarker) <<< s'), ⟨rest⟩)

/-- `Read<T>(end_byte_marker)` for a type T of `w` bits. -/
def read (w endByteMarker : ℕ) (st : ReadStream) : Option (BitVec w × ReadStream) :=
  match st.pending with
  | [] => none
  | b :: rest =>
    if kMaxUnsignedDataPerByte < b.toNat then
      some (BitVec.ofNat w b.toNat - BitVec.ofNat w endByteMarker, ⟨rest⟩)
    else readLoop endByteMarker 0#w 0 b rest

/-- The hand-unrolled readers, whose last byte must carry the end mark. -/
def readUnrolled {w : ℕ} (endByteMarker : ℕ) :
    ℕ → BitVec w → ℕ → List UInt8 → Option (BitVec w × ReadStream)
  | 0, _, _, _ => none
  | _ + 1, _, _, [] => none
  | groups + 1, r, s, b :: rest =>
    if kMaxUnsignedDataPerByte < b.toNat then
      some (r ||| ((BitVec.ofNat w b.toNat - BitVec.ofNat w endByteMarker) <<< s), ⟨rest⟩)
    else readUnrolled endByteMarker groups (r ||| (BitVec.ofNat w b.toNat <<< s))
      (s + kDataBitsPerByte) rest

def read16 (st : ReadStream) : Option (BitVec 16 × ReadStream) :=
  readUnrolled kEndByteMarker 3 0#16 0 st.pending

def read32 (st : ReadStream) : Option (BitVec 32 × ReadStream) :=
  readUnrolled kEndByteMarker 5 0#32 0 st.pending

def read64 (st : ReadStream) : Option (BitVec 64 × ReadStream) :=
  readUnrolled kEndByteMarker 10 0#64 0 st.pending

/-- `ReadUnsigned` on a target whose intptr_t has `word` bits. -/
def readUnsigned (word : ℕ) (st : ReadStream) : Option (BitVec word × ReadStream) :=
  read word kEndUnsignedByteMarker st

end ReadStream

/-- The allocation callback: it returns `new_size` bytes that begin with the old contents. -/
structure ReAlloc where
  run : List UInt8 → ℕ → List UInt8
  length_run : ∀ ptr newSize, (run ptr newSize).length = newSize
  take_run : ∀ ptr newSize, ptr.length ≤ newSize → (run ptr newSize).take ptr.length = ptr

structure WriteStream where
  buffer : List UInt8
  current : ℕ
  currentSize : ℕ
  initialSize : ℕ
  buffer_length : buffer.length = currentSize
  current_le : current ≤ currentSize
  currentSize_pos : 0 < currentSize
  initialSize_pow : ∃ k, initialSize = 2 ^ k

namespace WriteStream

variable (alloc : ReAlloc)

/-- The constructor, for an initial size of 2 ^ k. -/
def init (k : ℕ) : WriteStream where
  buffer := alloc.run [] (2 ^ k)
  current := 0
  currentSize := 2 ^ k
  initialSize := 2 ^ k
  buffer_length := alloc.length_run [] (2 ^ k)
  current_le := Nat.zero_le _
  currentSize_pos := Nat.two_pow_pos k
  initialSize_pow := ⟨k, rfl⟩

/-- The bytes written so far. -/
def written (st : WriteStream) : List UInt8 := st.buffer.take st.current

def resize (st : WriteStream) (sizeNeeded : ℕ) : Option WriteStream :=
  let incrementSize :=
    if sizeNeeded > st.currentSize then roundUp sizeNeeded st.initialSize else st.currentSize
  let newSize := st.currentSize + incrementSize
  if h : newSize > st.currentSize then
    some { st with
      buffer := alloc.run st.buffer newSize
      currentSize := newSize
      buffer_length := alloc.length_run _ _
      current_le := st.current_le.trans (Nat.le_of_lt h)
      currentSize_pos := Nat.lt_trans st.currentSize_pos h }
  else none

/-- `memmove(current_, addr, len); current_ += len`, after ASSERT((end_ - current_) >= len). -/
def store (st : WriteStream) (bytes : List UInt8) : Option WriteStream :=
  if h : st.currentSize - st.current ≥ bytes.length then
    some { st with
      buffer := Buffers.overwrite st.buffer st.current bytes
      current := st.current + bytes.length
      buffer_length := by
        have hle := st.current_le
        have hlen := st.buffer_length
        rw [Buffers.length_overwrite _ _ _ (by omega), hlen]
      current_le := by
        have hle := st.current_le
        omega }
  else none

def writeByte (st : WriteStream) (value : UInt8) : Option WriteStream :=
  (if st.current ≥ st.currentSize then st.resize alloc 1 else some st).bind
    fun st => st.store [value]

def writeBytes (st : WriteStream) (bytes : List UInt8) : Option WriteStream :=
  (if st.currentSize - st.current < bytes.length then st.resize alloc bytes.length
    else some st).bind fun st => st.store bytes

def writeUnsigned (st : WriteStream) (value : ℕ) : Option WriteStream :=
  if value > kMaxUnsignedDataPerByte then
    (st.writeByte alloc (UInt8.ofNat (value &&& kByteMask))).bind
      fun st => writeUnsigned st (value >>> kDataBitsPerByte)
  else st.writeByte alloc (UInt8.ofNat (value + kEndUnsignedByteMarker))
termination_by value
decreasing_by
  simp only [kMaxUnsignedDataPerByte, kByteMask, kDataBitsPerByte, shiftRight_eq_div_pow] at *
  omega

/-- `Write<T>` for a type T of `w` bits. -/
def write {w : ℕ} (st : WriteStream) (v : BitVec w) : Option WriteStream :=
  if v.toInt < kMinDataPerByte ∨ v.toInt > kMaxDataPerByte then
    (st.writeByte alloc (UInt8.ofNat (v &&& BitVec.ofNat w kByteMask).toNat)).bind
      fun st => write st (v.sshiftRight kDataBitsPerByte)
  else st.writeByte alloc (UInt8.ofNat (v.toInt + kEndByteMarker).toNat)
termination_by v.toInt.natAbs
decreasing_by
  simp only [kMinDataPerByte_eq, kMaxDataPerByte_eq, kDataBitsPerByte,
    BitVec.toInt_sshiftRight, Int.shiftRight_eq_div_pow] at *
  omega

end WriteStream

namespace WriteStream

variable (alloc : ReAlloc)

section

variable (st : WriteStream)

lemma resize_spec (sizeNeeded : ℕ) :
    ∃ st', st.resize alloc sizeNeeded = some st' ∧ st'.written = st.written ∧
      sizeNeeded ≤ st'.currentSize - st'.current := by
  obtain ⟨k, hk⟩ := st.initialSize_pow
  have hround := le_roundUp sizeNeeded k
  have hpos := st.currentSize_pos
  have hle := st.current_le
  have hgrow : st.currentSize < st.currentSize +
      (if sizeNeeded > st.currentSize then roundUp sizeNeeded st.initialSize
        else st.currentSize) := by
    rw [hk]
    split <;> omega
  unfold resize
  rw [dif_pos hgrow]
  refine ⟨_, rfl, ?_, ?_⟩
  · have hcover : st.buffer.length ≤ st.currentSize +
        (if sizeNeeded > st.currentSize then roundUp sizeNeeded st.initialSize
          else st.currentSize) := by
      rw [st.buffer_length]
      omega
    have hkeep := congrArg (List.take st.current) (alloc.take_run _ _ hcover)
    rw [take_take, st.buffer_length, Nat.min_eq_left hle] at hkeep
    exact hkeep
  · simp only [hk]
    split <;> omega

lemma store_spec (bytes : List UInt8) (hroom : bytes.length ≤ st.currentSize - st.current) :
    ∃ st', st.store bytes = some st' ∧ st'.written = st.written ++ bytes := by
  have hle := st.current_le
  have hlen := st.buffer_length
  unfold store
  rw [dif_pos hroom]
  refine ⟨_, rfl, ?_⟩
  exact Buffers.take_overwrite st.buffer st.current bytes (by omega)

lemma writeBytes_spec (bytes : List UInt8) :
    ∃ st', st.writeBytes alloc bytes = some st' ∧ st'.written = st.written ++ bytes := by
  unfold writeBytes
  split
  · obtain ⟨grown, hgrown, hkeep, hroom⟩ := resize_spec alloc st bytes.length
    obtain ⟨st', hstore, happend⟩ := store_spec grown bytes hroom
    exact ⟨st', by rw [hgrown]; exact hstore, by rw [happend, hkeep]⟩
  · exact store_spec st bytes (by omega)

lemma writeByte_spec (value : UInt8) :
    ∃ st', st.writeByte alloc value = some st' ∧ st'.written = st.written ++ [value] := by
  unfold writeByte
  split
  · obtain ⟨grown, hgrown, hkeep, hroom⟩ := resize_spec alloc st 1
    obtain ⟨st', hstore, happend⟩ := store_spec grown [value] hroom
    exact ⟨st', by rw [hgrown]; exact hstore, by rw [happend, hkeep]⟩
  · exact store_spec st [value] (by simp only [length_singleton]; omega)

/-- One more group in front of an already described tail. -/
private lemma group_then (b : UInt8) (bytes : List UInt8)
    (next : WriteStream → Option WriteStream)
    (hnext : ∀ q : WriteStream, ∃ q', next q = some q' ∧ q'.written = q.written ++ bytes) :
    ∃ st', (st.writeByte alloc b).bind next = some st' ∧
      st'.written = st.written ++ b :: bytes := by
  obtain ⟨mid, hmid, hone⟩ := writeByte_spec alloc st b
  obtain ⟨st', hst', htail⟩ := hnext mid
  exact ⟨st', by rw [hmid]; exact hst', by rw [htail, hone]; simp⟩

end

lemma writeUnsigned_spec (value : ℕ) :
    ∃ bytes, EndMarked 0 value bytes ∧ ∀ st : WriteStream,
      ∃ st', st.writeUnsigned alloc value = some st' ∧ st'.written = st.written ++ bytes := by
  induction value using Nat.strong_induction_on with
  | h value ih =>
    by_cases hbig : value > kMaxUnsignedDataPerByte
    · have hbig' : 127 < value := hbig
      have hshift : value >>> kDataBitsPerByte = value / 128 := shiftRight_eq_div_pow value 7
      have hmask : value &&& kByteMask = value % 128 := and_two_pow_sub_one_eq_mod value 7
      obtain ⟨bytes, hmarked, hwrite⟩ := ih (value / 128) (by omega)
      refine ⟨UInt8.ofNat (value % 128) :: bytes, ?_, ?_⟩
      · have h := @EndMarked.more 0 value bytes (by omega)
          (by simpa only [Int.natCast_ediv, cast_ofNat] using hmarked)
        rwa [show ((value : ℤ) % 128).toNat = value % 128 by omega] at h
      · intro st
        rw [writeUnsigned, if_pos hbig, hmask, hshift]
        exact group_then alloc st _ bytes _ hwrite
    · have hsmall : value ≤ 127 := Nat.le_of_not_lt hbig
      refine ⟨[UInt8.ofNat (value + kEndUnsignedByteMarker)], ?_, ?_⟩
      · have h := @EndMarked.last 0 value (by omega) (by omega)
        rwa [show ((value : ℤ) + (128 - 0)).toNat = value + kEndUnsignedByteMarker by
          simp only [kEndUnsignedByteMarker, kMaxUnsignedDataPerByte, kByteMask, kDataBitsPerByte]
          omega] at h
      · intro st
        rw [writeUnsigned, if_neg hbig]
        exact writeByte_spec alloc st _

private lemma low_group {w : ℕ} (hw : 7 ≤ w) (v : BitVec w) :
    (v &&& BitVec.ofNat w kByteMask).toNat = (v.toInt % 128).toNat := by
  have hmask : BitVec.ofNat w kByteMask = BitVec.ofNat w (2 ^ 7 - 1) := rfl
  have hpow : 2 ^ 7 ≤ 2 ^ w := Nat.pow_le_pow_right (by omega) hw
  have hdvd : (128 : ℤ) ∣ ((2 ^ w : ℕ) : ℤ) := by
    exact_mod_cast Nat.pow_dvd_pow 2 hw
  rw [BitVec.toNat_and, hmask, BitVec.toNat_ofNat, Nat.mod_eq_of_lt (by omega),
    and_two_pow_sub_one_eq_mod, BitVec.toInt_eq_toNat_bmod]
  rw [← Int.emod_emod_of_dvd _ hdvd, Int.bmod_emod, Int.emod_emod_of_dvd _ hdvd]
  omega

lemma write_spec {w : ℕ} (hw : 7 ≤ w) (v : BitVec w) :
    ∃ bytes, EndMarked (-64) v.toInt bytes ∧ ∀ st : WriteStream,
      ∃ st', st.write alloc v = some st' ∧ st'.written = st.written ++ bytes := by
  induction hn : v.toInt.natAbs using Nat.strong_induction_on generalizing v with
  | h n ih =>
    by_cases hbig : v.toInt < kMinDataPerByte ∨ v.toInt > kMaxDataPerByte
    · have hbig' : v.toInt < -64 ∨ v.toInt > 63 := hbig
      have hshift : (v.sshiftRight kDataBitsPerByte).toInt = v.toInt / 128 := by
        rw [BitVec.toInt_sshiftRight]
        exact Int.shiftRight_eq_div_pow v.toInt 7
      obtain ⟨bytes, hmarked, hwrite⟩ := ih (v.sshiftRight kDataBitsPerByte).toInt.natAbs
        (by rw [hshift]; omega) (v.sshiftRight kDataBitsPerByte) rfl
      rw [hshift] at hmarked
      refine ⟨UInt8.ofNat (v.toInt % 128).toNat :: bytes, .more (by omega) hmarked, ?_⟩
      intro st
      rw [write, if_pos hbig, low_group hw]
      exact group_then alloc st _ bytes _ hwrite
    · have hsmall : ¬ (v.toInt < -64 ∨ v.toInt > 63) := hbig
      refine ⟨[UInt8.ofNat (v.toInt + kEndByteMarker).toNat], ?_, ?_⟩
      · exact @EndMarked.last (-64) v.toInt (by omega) (by omega)
      · intro st
        rw [write, if_neg hbig]
        exact writeByte_spec alloc st _

end WriteStream

variable {bytes : List UInt8}

namespace ReadStream

/-- The marker that goes with a window beginning at `lo`. -/
def markerFor (lo : ℤ) : ℕ := (128 - lo).toNat

private lemma markedByte_sub (w : ℕ) (lo v : ℤ) (hneg : lo ≤ 0) (hlo : lo ≤ v)
    (hhi : v < lo + 128) :
    BitVec.ofNat w (UInt8.ofNat (v + (128 - lo)).toNat).toNat - BitVec.ofNat w (markerFor lo) =
      BitVec.ofInt w v := by
  rw [lastByte_toNat lo v hlo hhi, markerFor, ← BitVec.ofInt_natCast, ← BitVec.ofInt_natCast,
    ← ofInt_sub]
  congr 1
  omega

private lemma markedByte_big (lo v : ℤ) (hlo : lo ≤ v) (hhi : v < lo + 128) :
    kMaxUnsignedDataPerByte < (UInt8.ofNat (v + (128 - lo)).toNat).toNat := by
  rw [lastByte_toNat lo v hlo hhi]
  have hmax : kMaxUnsignedDataPerByte = 127 := rfl
  omega

private lemma groupByte_small (v : ℤ) :
    (UInt8.ofNat (v % 128).toNat).toNat ≤ kMaxUnsignedDataPerByte := by
  rw [groupByte_toNat]
  have hmax : kMaxUnsignedDataPerByte = 127 := rfl
  omega

private lemma groupByte_ofNat (w : ℕ) (v : ℤ) :
    BitVec.ofNat w (UInt8.ofNat (v % 128).toNat).toNat = BitVec.ofInt w (v % 128) := by
  rw [groupByte_toNat, ← BitVec.ofInt_natCast]
  congr 1
  omega

lemma readUnrolled_endMarked {w : ℕ} {lo v : ℤ} (hneg : lo ≤ 0) (h : EndMarked lo v bytes)
    (groups s : ℕ) (x : ℤ) (rest : List UInt8) (hgroups : bytes.length ≤ groups) (hx : 0 ≤ x)
    (hxs : x < 2 ^ s) :
    readUnrolled (markerFor lo) groups (BitVec.ofInt w x) s (bytes ++ rest) =
      some (BitVec.ofInt w (x + v * 2 ^ s), ⟨rest⟩) := by
  induction h generalizing groups s x with
  | @last v hlo hhi =>
    obtain ⟨groups, rfl⟩ := exists_eq_succ_of_ne_zero (Nat.ne_of_gt hgroups)
    simp only [singleton_append, readUnrolled]
    rw [if_pos (markedByte_big lo v hlo hhi), markedByte_sub w lo v hneg hlo hhi,
      or_shiftLeft_ofInt w s x v hx hxs]
  | @more v bytes hout hrest ih =>
    simp only [length_cons] at hgroups
    obtain ⟨groups, rfl⟩ := exists_eq_succ_of_ne_zero (show groups ≠ 0 by omega)
    have hgroup : 0 ≤ v % 128 := by omega
    have hsmall := groupByte_small v
    simp only [cons_append, readUnrolled]
    rw [if_neg (by omega), groupByte_ofNat, or_shiftLeft_ofInt w s x _ hx hxs]
    rw [show s + kDataBitsPerByte = s + 7 from rfl]
    rw [ih groups (s + 7) (x + v % 128 * 2 ^ s) (by omega) (by positivity)
      (group_lt_pow x (v % 128) s hxs (by omega))]
    have hsplit : x + v % 128 * 2 ^ s + v / 128 * 2 ^ (s + 7) = x + v * 2 ^ s := by
      have hv := Int.emod_add_mul_ediv v 128
      calc x + v % 128 * 2 ^ s + v / 128 * 2 ^ (s + 7)
          = x + (v % 128 + 128 * (v / 128)) * 2 ^ s := by ring
        _ = x + v * 2 ^ s := by rw [hv]
    rw [hsplit]

lemma readLoop_eq_readUnrolled {w : ℕ} (marker : ℕ) (r : BitVec w) (s : ℕ) (b : UInt8)
    (pending : List UInt8) :
    readLoop marker r s b pending = readUnrolled marker pending.length
      (r ||| (BitVec.ofNat w b.toNat <<< s)) (s + kDataBitsPerByte) pending := by
  induction pending generalizing r s b with
  | nil => rfl
  | cons b' rest ih =>
    simp only [readLoop, length_cons, readUnrolled]
    by_cases hb : b'.toNat ≤ kMaxUnsignedDataPerByte
    · rw [if_pos hb, if_neg (by omega), ih]
    · rw [if_neg hb, if_pos (by omega)]

lemma read_eq_readUnrolled (w marker : ℕ) (st : ReadStream) :
    read w marker st = readUnrolled marker st.pending.length 0#w 0 st.pending := by
  obtain ⟨pending⟩ := st
  cases pending with
  | nil => rfl
  | cons b rest =>
    simp only [read, length_cons, readUnrolled]
    by_cases hb : kMaxUnsignedDataPerByte < b.toNat
    · rw [if_pos hb, if_pos hb]
      simp
    · rw [if_neg hb, if_neg hb, readLoop_eq_readUnrolled]

lemma read_endMarked (w : ℕ) {lo v : ℤ} (hneg : lo ≤ 0) (h : EndMarked lo v bytes)
    (rest : List UInt8) :
    read w (markerFor lo) ⟨bytes ++ rest⟩ = some (BitVec.ofInt w v, ⟨rest⟩) := by
  rw [read_eq_readUnrolled]
  have hrun := readUnrolled_endMarked (w := w) hneg h (bytes ++ rest).length 0 0 rest
    (by simp only [length_append]; omega) (by omega) (by norm_num)
  have hzero : BitVec.ofInt w 0 = 0#w := by simp
  simpa only [hzero, pow_zero, mul_one, zero_add] using hrun

lemma readUnrolled_write (w groups : ℕ) (hw : 1 ≤ w) (hgroups : w ≤ 7 * (groups + 1))
    (v : BitVec w) (h : EndMarked (-64) v.toInt bytes) (rest : List UInt8) :
    readUnrolled kEndByteMarker (groups + 1) 0#w 0 (bytes ++ rest) = some (v, ⟨rest⟩) := by
  have hpow : (2 : ℤ) ^ (w - 1) ≤ 64 * 128 ^ groups := by
    calc (2 : ℤ) ^ (w - 1) ≤ 2 ^ (7 * groups + 6) :=
          pow_le_pow_right₀ (by norm_num) (by omega)
      _ = 64 * 128 ^ groups := by rw [pow_add, pow_mul]; ring
  have hlow := BitVec.le_toInt v
  have hhigh := BitVec.toInt_lt (x := v)
  have hlen := h.length_le groups (by linarith) (by linarith)
  have hrun := readUnrolled_endMarked (w := w) (by omega) h (groups + 1) 0 0 rest hlen
    (by omega) (by norm_num)
  have hzero : BitVec.ofInt w 0 = 0#w := by simp
  rw [show kEndByteMarker = markerFor (-64) from rfl]
  simpa only [hzero, pow_zero, mul_one, zero_add, BitVec.ofInt_toInt] using hrun

end ReadStream

inductive IntType
  | int8 | int16 | int32 | int64
  deriving DecidableEq

def IntType.bits : IntType → ℕ
  | .int8 => 8
  | .int16 => 16
  | .int32 => 32
  | .int64 => 64

/-- One write call. `word` is the width of intptr_t; ASSERT((value >= 0)) is a side condition. -/
inductive Item (word : ℕ)
  | unsigned (value : BitVec word) (nonneg : value.msb = false)
  | write (T : IntType) (value : BitVec T.bits)
  | raw (T : IntType) (value : BitVec T.bits)
  | bytes (data : List UInt8)

/-- The read call that goes with a write call. -/
inductive Request
  | unsigned
  | read (T : IntType)
  | raw (T : IntType)
  | bytes (len : ℕ)

/-- What a read call returns. -/
inductive Value (word : ℕ)
  | unsigned (value : BitVec word)
  | int (T : IntType) (value : BitVec T.bits)
  | bytes (data : List UInt8)

variable {word : ℕ}

namespace Item

def request : Item word → Request
  | .unsigned _ _ => .unsigned
  | .write T _ => .read T
  | .raw T _ => .raw T
  | .bytes data => .bytes data.length

def value : Item word → Value word
  | .unsigned value _ => .unsigned value
  | .write T value => .int T value
  | .raw T value => .int T value
  | .bytes data => .bytes data

end Item

/-- `WriteStream::Raw<N, T>::Write`: one plain byte, or `Write` of the same width. -/
def writeRaw (alloc : ReAlloc) (st : WriteStream) :
    (T : IntType) → BitVec T.bits → Option WriteStream
  | .int8, value => st.writeByte alloc ⟨value⟩
  | .int16, value => st.write alloc value
  | .int32, value => st.write alloc value
  | .int64, value => st.write alloc value

def writeItem (alloc : ReAlloc) (st : WriteStream) : Item word → Option WriteStream
  | .unsigned value _ => st.writeUnsigned alloc value.toNat
  | .write _ value => st.write alloc value
  | .raw T value => writeRaw alloc st T value
  | .bytes data => st.writeBytes alloc data

def writeItems (alloc : ReAlloc) : WriteStream → List (Item word) → Option WriteStream
  | st, [] => some st
  | st, item :: items => (writeItem alloc st item).bind fun st => writeItems alloc st items

def readRaw (st : ReadStream) : (T : IntType) → Option (BitVec T.bits × ReadStream)
  | .int8 => st.readByte.map fun p => (p.1.toBitVec, p.2)
  | .int16 => st.read16
  | .int32 => st.read32
  | .int64 => st.read64

def readItem (word : ℕ) (st : ReadStream) : Request → Option (Value word × ReadStream)
  | .unsigned => (st.readUnsigned word).map fun p => (.unsigned p.1, p.2)
  | .read T => (st.read T.bits kEndByteMarker).map fun p => (.int T p.1, p.2)
  | .raw T => (readRaw st T).map fun p => (.int T p.1, p.2)
  | .bytes len => (st.readBytes len).map fun p => (.bytes p.1, p.2)

def readItems (word : ℕ) : ReadStream → List Request → Option (List (Value word) × ReadStream)
  | st, [] => some ([], st)
  | st, request :: requests =>
    (readItem word st request).bind fun p =>
      (readItems word p.2 requests).map fun q => (p.1 :: q.1, q.2)

lemma IntType.bits_ge (T : IntType) : 7 ≤ T.bits := by
  cases T <;> decide

private lemma readRaw_write (T : IntType) (v : BitVec T.bits) (hT : T ≠ .int8)
    (h : EndMarked (-64) v.toInt bytes) (rest : List UInt8) :
    readRaw ⟨bytes ++ rest⟩ T = some (v, ⟨rest⟩) := by
  cases T with
  | int8 => exact absurd rfl hT
  | int16 => exact ReadStream.readUnrolled_write 16 2 (by omega) (by omega) v h rest
  | int32 => exact ReadStream.readUnrolled_write 32 4 (by omega) (by omega) v h rest
  | int64 => exact ReadStream.readUnrolled_write 64 9 (by omega) (by omega) v h rest

lemma write_read_agree (alloc : ReAlloc) (T : IntType) (v : BitVec T.bits) :
    ∃ bytes, (∀ st : WriteStream, ∃ st', st.write alloc v = some st' ∧
        st'.written = st.written ++ bytes) ∧
      ∀ rest, ReadStream.read T.bits kEndByteMarker ⟨bytes ++ rest⟩ = some (v, ⟨rest⟩) ∧
        (T ≠ .int8 → readRaw ⟨bytes ++ rest⟩ T = some (v, ⟨rest⟩)) := by
  obtain ⟨bytes, hmarked, hwrite⟩ := WriteStream.write_spec alloc T.bits_ge v
  refine ⟨bytes, hwrite, ?_⟩
  intro rest
  constructor
  · have h := ReadStream.read_endMarked T.bits (by omega) hmarked rest
    rwa [BitVec.ofInt_toInt] at h
  · intro hT
    exact readRaw_write T v hT hmarked rest

lemma readItem_writeItem (alloc : ReAlloc) (item : Item word) :
    ∃ bytes, (∀ st : WriteStream, ∃ st', writeItem alloc st item = some st' ∧
        st'.written = st.written ++ bytes) ∧
      ∀ rest, readItem word ⟨bytes ++ rest⟩ item.request = some (item.value, ⟨rest⟩) := by
  cases item with
  | unsigned value nonneg =>
    obtain ⟨bytes, hmarked, hwrite⟩ := WriteStream.writeUnsigned_spec alloc value.toNat
    refine ⟨bytes, hwrite, ?_⟩
    intro rest
    have h := ReadStream.read_endMarked word (Int.le_refl 0) hmarked rest
    rw [BitVec.ofInt_natCast, BitVec.ofNat_toNat, BitVec.setWidth_eq] at h
    change ((ReadStream.read word kEndUnsignedByteMarker ⟨bytes ++ rest⟩).map
      fun p => (Value.unsigned p.1, p.2)) = _
    rw [show kEndUnsignedByteMarker = ReadStream.markerFor 0 from rfl, h]
    rfl
  | write T value =>
    obtain ⟨bytes, hwrite, hread⟩ := write_read_agree alloc T value
    refine ⟨bytes, hwrite, ?_⟩
    intro rest
    simp only [Item.request, readItem, (hread rest).1, Option.map_some, Item.value]
  | raw T value =>
    by_cases hT : T = .int8
    · subst hT
      refine ⟨[⟨value⟩], fun st => WriteStream.writeByte_spec alloc st ⟨value⟩, ?_⟩
      intro rest
      rfl
    · obtain ⟨bytes, hwrite, hread⟩ := write_read_agree alloc T value
      refine ⟨bytes, ?_, ?_⟩
      · cases T with
        | int8 => exact absurd rfl hT
        | int16 => exact hwrite
        | int32 => exact hwrite
        | int64 => exact hwrite
      · intro rest
        simp only [Item.request, readItem, (hread rest).2 hT, Option.map_some, Item.value]
  | bytes data =>
    refine ⟨data, fun st => WriteStream.writeBytes_spec alloc st data, ?_⟩
    simp [Item.request, readItem, ReadStream.readBytes, Item.value]

lemma readItems_append (alloc : ReAlloc) (items : List (Item word)) :
    ∃ bytes, (∀ st : WriteStream, ∃ st', writeItems alloc st items = some st' ∧
        st'.written = st.written ++ bytes) ∧
      ∀ rest, readItems word ⟨bytes ++ rest⟩ (items.map Item.request) =
        some (items.map Item.value, ⟨rest⟩) := by
  induction items with
  | nil => exact ⟨[], fun st => ⟨st, rfl, by simp⟩, fun rest => rfl⟩
  | cons item items ih =>
    obtain ⟨first, hfirst, hreadFirst⟩ := readItem_writeItem alloc item
    obtain ⟨others, hothers, hreadOthers⟩ := ih
    refine ⟨first ++ others, ?_, ?_⟩
    · intro st
      obtain ⟨mid, hmid, hone⟩ := hfirst st
      obtain ⟨st', hst', htail⟩ := hothers mid
      refine ⟨st', ?_, by rw [htail, hone, append_assoc]⟩
      simp only [writeItems, hmid, Option.bind_some, hst']
    · intro rest
      simp only [map_cons, readItems, append_assoc, hreadFirst, Option.bind_some,
        hreadOthers, Option.map_some]

/-- On every encoding that `Write<T>` produces, `readN` returns what `Read<T>` returns. -/
def AgreesWithRead (alloc : ReAlloc) {w : ℕ}
    (readN : ReadStream → Option (BitVec w × ReadStream)) : Prop :=
  ∀ (st : WriteStream) (v : BitVec w), ∃ st' bytes,
    st.write alloc v = some st' ∧ st'.written = st.written ++ bytes ∧
      ∀ rest, readN ⟨bytes ++ rest⟩ = ReadStream.read w kEndByteMarker ⟨bytes ++ rest⟩

lemma readRaw_agrees (alloc : ReAlloc) (T : IntType) (hT : T ≠ .int8) :
    AgreesWithRead alloc (fun st => readRaw st T) := by
  intro st v
  obtain ⟨bytes, hwrite, hread⟩ := write_read_agree alloc T v
  obtain ⟨st', hst', happend⟩ := hwrite st
  refine ⟨st', bytes, hst', happend, ?_⟩
  intro rest
  rw [(hread rest).1]
  exact (hread rest).2 hT

/-- Reading undoes writing over whole streams, for every sequence of calls, initial buffer size 2 ^
k and growth; the unrolled readers agree with `Read<T>` on all that `Write<T>` produces. -/
theorem readItems_writeItems (alloc : ReAlloc) (word k : ℕ) (items : List (Item word)) :
    (∃ st, writeItems alloc (WriteStream.init alloc k) items = some st ∧
      readItems word ⟨st.written⟩ (items.map Item.request) =
        some (items.map Item.value, ⟨[]⟩)) ∧
    AgreesWithRead alloc ReadStream.read16 ∧ AgreesWithRead alloc ReadStream.read32 ∧
    AgreesWithRead alloc ReadStream.read64 := by
  refine ⟨?_, readRaw_agrees alloc .int16 (by decide), readRaw_agrees alloc .int32 (by decide),
    readRaw_agrees alloc .int64 (by decide)⟩
  obtain ⟨bytes, hwrite, hread⟩ := readItems_append alloc items
  obtain ⟨st, hst, happend⟩ := hwrite (WriteStream.init alloc k)
  have hwritten : st.written = bytes := by
    rw [happend]
    simp [WriteStream.written, WriteStream.init]
  refine ⟨st, hst, ?_⟩
  have h := hread []
  rwa [append_nil, ← hwritten] at h

end DartSdk.Datastream
