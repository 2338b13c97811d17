import DartSdk.Checked
import DartSdk.Numerals

/-!
The functions of runtime/lib/bigint_patch.dart that work on arrays of 32-bit digits, with what they
do to the numbers that the digits denote. The functions that 64-bit intrinsics replace
for the division come in two versions: `_estimateQuotientDigit` and `_mulAdd` on single digits as
in the patch file, and on pairs of digits as in the pseudo code of the intrinsics. Intermediate
results stay far below the limits of a 64-bit integer and are not truncated. A function that writes
into the array it reads is given that array twice: it reads each digit before it is overwritten.
Loops run up the digits with a carry, and the invariant is one equation: the digits written so far
and the carry at the next position denote what has been computed of the result.
-/

namespace DartSdk.BigInts

open Nat

section

section

open Checked

/-- A `Uint32List`. -/
abbrev Digits := List UInt32

abbrev digitBits : ℕ := 32
def digitBase : ℕ := 2 ^ 32
def digitMask : ℕ := 2 ^ 32 - 1
abbrev halfDigitBits : ℕ := 16
def halfDigitMask : ℕ := 2 ^ 16 - 1

/-- `a[i]`. -/
def load (a : Digits) (i : ℕ) : Result ℕ :=
  match a[i]? with
  | some d => .ok d.toNat
  | none => .error .outOfBounds

/-- `a[i] = v`, which keeps the low 32 bits. -/
def store (a : Digits) (i : ℕ) (v : ℤ) : Result Digits :=
  if i < a.length then .ok (a.set i (.ofNat (v % digitBase).toNat)) else .error .outOfBounds

/-- A difference that is used as an index, and is out of bounds when it is negative. -/
def minus (i k : ℕ) : Result ℕ := if k ≤ i then .ok (i - k) else .error .outOfBounds

def newDigits (length : ℕ) : Digits := List.replicate (length + length % 2) 0

def normalize (digits : Digits) : ℕ → Result ℕ
  | 0 => .ok 0
  | used + 1 => do
      let d ← load digits used
      if d = 0 then normalize digits used else .ok (used + 1)

def cloneDigits (digits : Digits) (lo hi length : ℕ) : Result Digits :=
  forUp (hi - lo) (fun i result => do
    let d ← load digits (lo + i)
    store result i d) (newDigits length)

def dlShiftDigits (xDigits : Digits) (xUsed n : ℕ) (resultDigits : Digits) :
    Result (ℕ × Digits) := do
  if xUsed = 0 then .ok (0, resultDigits)
  else do
    let resultUsed := xUsed + n
    check (resultUsed + resultUsed % 2 ≤ resultDigits.length)
    let resultDigits ← forDown xUsed (fun i result => do
      let d ← load xDigits i
      store result (i + n) d) resultDigits
    let resultDigits ← forDown n (fun i result => store result i 0) resultDigits
    if resultUsed % 2 = 1 then do
      let resultDigits ← store resultDigits resultUsed 0
      .ok (resultUsed, resultDigits)
    else .ok (resultUsed, resultDigits)

def lsh (xDigits : Digits) (xUsed n : ℕ) (resultDigits : Digits) : Result Digits := do
  check (0 < xUsed)
  let digitShift := n / digitBits
  let bitShift := n % digitBits
  let carryBitShift := digitBits - bitShift
  let bitMask := 1 <<< carryBitShift - 1
  let state ← forDown xUsed (fun i state => do
    let d ← load xDigits i
    let result ← store state.1 (i + digitShift + 1) ((d >>> carryBitShift ||| state.2 : ℕ) : ℤ)
    .ok (result, (d &&& bitMask) <<< bitShift)) (resultDigits, 0)
  store state.1 digitShift state.2

def lShiftDigits (xDigits : Digits) (xUsed n : ℕ) (resultDigits : Digits) :
    Result (ℕ × Digits) := do
  let digitsShift := n / digitBits
  let bitShift := n % digitBits
  if bitShift = 0 then dlShiftDigits xDigits xUsed digitsShift resultDigits
  else do
    let resultUsed := xUsed + digitsShift + 1
    check (resultUsed + 2 - resultUsed % 2 ≤ resultDigits.length)
    let resultDigits ← lsh xDigits xUsed n resultDigits
    let resultDigits ← forDown digitsShift (fun i result => store result i 0) resultDigits
    let top ← load resultDigits (resultUsed - 1)
    if top = 0 then .ok (resultUsed - 1, resultDigits)
    else if resultUsed % 2 = 1 then do
      let resultDigits ← store resultDigits resultUsed 0
      .ok (resultUsed, resultDigits)
    else .ok (resultUsed, resultDigits)

def rsh (xDigits : Digits) (xUsed n : ℕ) (resultDigits : Digits) : Result Digits := do
  check (0 < xUsed)
  let digitsShift := n / digitBits
  let bitShift := n % digitBits
  let carryBitShift := digitBits - bitShift
  let bitMask := 1 <<< bitShift - 1
  let first ← load xDigits digitsShift
  let last ← minus xUsed (digitsShift + 1)
  let state ← forUp last (fun i state => do
    let d ← load xDigits (i + digitsShift + 1)
    let result ← store state.1 i (((d &&& bitMask) <<< carryBitShift ||| state.2 : ℕ) : ℤ)
    .ok (result, d >>> bitShift)) (resultDigits, first >>> bitShift)
  store state.1 last state.2

def compareLoop (digits otherDigits : Digits) : ℕ → Result ℤ
  | 0 => .ok 0
  | n + 1 => do
      let d ← load digits n
      let e ← load otherDigits n
      let result : ℤ := d - e
      if result ≠ 0 then .ok result else compareLoop digits otherDigits n

def compareDigits (digits : Digits) (used : ℕ) (otherDigits : Digits) (otherUsed : ℕ) :
    Result ℤ :=
  let result : ℤ := used - otherUsed
  if result = 0 then compareLoop digits otherDigits used else .ok result

/-- One step of `_absAdd` or `_absSub`: a digit of the sum, and the carry shifted down. -/
def carryStep (i : ℕ) (resultDigits : Digits) (carry : ℤ) : Result (Digits × ℤ) := do
  let result ← store resultDigits i (carry % digitBase)
  .ok (result, carry / digitBase)

def absAdd (digits : Digits) (used : ℕ) (otherDigits : Digits) (otherUsed : ℕ)
    (resultDigits : Digits) : Result Digits := do
  check (otherUsed ≤ used ∧ 0 < otherUsed)
  let state ← forUp otherUsed (fun i state => do
    let d ← load digits i
    let e ← load otherDigits i
    carryStep i state.1 (state.2 + (d + e))) (resultDigits, 0)
  let state ← forUp (used - otherUsed) (fun k state => do
    let d ← load digits (otherUsed + k)
    carryStep (otherUsed + k) state.1 (state.2 + d)) state
  store state.1 used state.2

def absSub (digits : Digits) (used : ℕ) (otherDigits : Digits) (otherUsed : ℕ)
    (resultDigits : Digits) : Result Digits := do
  check (otherUsed ≤ used ∧ 0 < otherUsed)
  let state ← forUp otherUsed (fun i state => do
    let d ← load digits i
    let e ← load otherDigits i
    carryStep i state.1 (state.2 + (d - e))) (resultDigits, 0)
  let state ← forUp (used - otherUsed) (fun k state => do
    let d ← load digits (otherUsed + k)
    carryStep (otherUsed + k) state.1 (state.2 + d)) state
  .ok state.1

/-- How many digits the functions that may be intrinsics process at once. -/
inductive Mode
  | digit
  | pair
  deriving DecidableEq

/-- `while (carry != 0)` of `_mulAdd`. The loop leaves the array when it goes on too long. -/
def addCarryDigit : ℕ → Digits → ℕ → ℕ → Result Digits
  | 0, _, _, _ => .error .diverges
  | fuel + 1, acc, j, carry =>
    if carry = 0 then .ok acc
    else do
      let d ← load acc j
      let l := d + carry
      let acc ← store acc j (l &&& digitMask : ℕ)
      addCarryDigit fuel acc (j + 1) (l >>> digitBits)

/-- The loop body of `_mulAdd`, which multiplies halves of digits: the digit to store and the
next carry. -/
def mulAddStep (x m d carry : ℕ) : ℕ × ℕ :=
  let xl := x &&& halfDigitMask
  let xh := x >>> halfDigitBits
  let ml := m &&& halfDigitMask
  let mh := m >>> halfDigitBits
  let ph := xh * ml + mh * xl
  let pl := xl * ml + (ph &&& halfDigitMask) <<< halfDigitBits + d + carry
  (pl &&& digitMask, pl >>> digitBits + ph >>> halfDigitBits + xh * mh)

def mulAddDigit (xDigits : Digits) (xIndex : ℕ) (multiplicandDigits : Digits) (i : ℕ)
    (accumulatorDigits : Digits) (j n : ℕ) : Result (ℕ × Digits) := do
  let x ← load xDigits xIndex
  if x = 0 then .ok (1, accumulatorDigits)
  else do
    let state ← forUp n (fun k state => do
      let m ← load multiplicandDigits (i + k)
      let d ← load state.1 (j + k)
      let acc ← store state.1 (j + k) (mulAddStep x m d state.2).1
      .ok (acc, (mulAddStep x m d state.2).2)) (accumulatorDigits, 0)
    let acc ← addCarryDigit (accumulatorDigits.length + 1) state.1 (j + n) state.2
    .ok (1, acc)

def loadPair (a : Digits) (i : ℕ) : Result ℕ := do
  let low ← load a i
  let high ← load a (i + 1)
  .ok (low + high * digitBase)

def storePair (a : Digits) (i v : ℕ) : Result Digits := do
  let a ← store a i (v % digitBase : ℕ)
  store a (i + 1) (v / digitBase : ℕ)

def addCarryPair : ℕ → Digits → ℕ → ℕ → Result Digits
  | 0, _, _, _ => .error .diverges
  | fuel + 1, acc, j, carry =>
    if carry = 0 then .ok acc
    else do
      let a ← loadPair acc j
      let t := a + carry
      let acc ← storePair acc j (t % 2 ^ 64)
      addCarryPair fuel acc (j + 2) (t / 2 ^ 64)

/-- `_mulAdd` as an intrinsic on pairs of digits. -/
def mulAddPair (xDigits : Digits) (xIndex : ℕ) (multiplicandDigits : Digits) (i : ℕ)
    (accumulatorDigits : Digits) (j n : ℕ) : Result (ℕ × Digits) := do
  let x ← loadPair xDigits xIndex
  if x = 0 ∨ n = 0 then .ok (2, accumulatorDigits)
  else do
    let pairs := (n + 1) / 2
    let state ← forUp pairs (fun k state => do
      let m ← loadPair multiplicandDigits (i + 2 * k)
      let a ← loadPair state.1 (j + 2 * k)
      let t := x * m + a + state.2
      let acc ← storePair state.1 (j + 2 * k) (t % 2 ^ 64)
      .ok (acc, t / 2 ^ 64)) (accumulatorDigits, 0)
    let acc ← addCarryPair (accumulatorDigits.length + 1) state.1 (j + 2 * pairs) state.2
    .ok (2, acc)

def mulAdd (mode : Mode) (xDigits : Digits) (xIndex : ℕ) (multiplicandDigits : Digits) (i : ℕ)
    (accumulatorDigits : Digits) (j n : ℕ) : Result (ℕ × Digits) :=
  match mode with
  | .digit => mulAddDigit xDigits xIndex multiplicandDigits i accumulatorDigits j n
  | .pair => mulAddPair xDigits xIndex multiplicandDigits i accumulatorDigits j n

/-- The loop of `operator *` and `_mulDigits`. Every step raises `i`. -/
def mulLoop (mode : Mode) (xDigits : Digits) (xUsed : ℕ) (otherDigits : Digits) (otherUsed : ℕ) :
    ℕ → ℕ → Digits → Result Digits
  | 0, _, _ => .error .diverges
  | fuel + 1, i, resultDigits =>
    if i < otherUsed then do
      let (n, resultDigits) ← mulAdd mode otherDigits i xDigits 0 resultDigits i xUsed
      mulLoop mode xDigits xUsed otherDigits otherUsed fuel (i + n) resultDigits
    else .ok resultDigits

/-- `result[i] = f(digits[i], otherDigits[i])` for `i < n`. -/
def combineDigits (f : ℕ → ℕ → ℕ) (digits otherDigits : Digits) (n : ℕ) (resultDigits : Digits) :
    Result Digits :=
  forUp n (fun i result => do
    let d ← load digits i
    let e ← load otherDigits i
    store result i (f d e)) resultDigits

/-- `result[i] = digits[i]` for `m ≤ i < used`. -/
def copyDigits (digits : Digits) (m used : ℕ) (resultDigits : Digits) : Result Digits :=
  forUp (used - m) (fun k result => do
    let d ← load digits (m + k)
    store result (m + k) d) resultDigits

def divisorLowTopDigit : ℕ := 0
def divisorTopDigit : ℕ := 1
def quotientDigit : ℕ := 2
def quotientHighDigit : ℕ := 3

def estimateDigit (args digits : Digits) (i : ℕ) : Result (ℕ × Digits) := do
  check (4 ≤ digits.length)
  let d ← load digits i
  let top ← load args divisorTopDigit
  if d = top then do
    let args ← store args quotientDigit digitMask
    .ok (1, args)
  else do
    let i' ← minus i 1
    let d' ← load digits i'
    let quotient := (d <<< (digitBits - 1) ||| d' >>> 1) / (top >>> 1)
    let args ← store args quotientDigit (if quotient > digitMask then digitMask else quotient : ℕ)
    .ok (1, args)

/-- `_estimateQuotientDigit` as an intrinsic on pairs; the division faults on a quotient above 64
bits. -/
def estimatePair (args digits : Digits) (i : ℕ) : Result (ℕ × Digits) := do
  let yt ← loadPair args divisorLowTopDigit
  let i' ← minus i 1
  let dh ← loadPair digits i'
  if dh = yt then do
    let args ← storePair args quotientDigit (2 ^ 64 - 1)
    .ok (2, args)
  else do
    let i'' ← minus i 3
    let dl ← loadPair digits i''
    if yt ≤ dh then .error .fatal
    else do
      let args ← storePair args quotientDigit ((dh * 2 ^ 64 + dl) / yt)
      .ok (2, args)

def estimateQuotientDigit (mode : Mode) (args digits : Digits) (i : ℕ) : Result (ℕ × Digits) :=
  match mode with
  | .digit => estimateDigit args digits i
  | .pair => estimatePair args digits i

/-- The arrays that the division loop changes. -/
structure Arrays where
  result : Digits
  args : Digits
  tmp : Digits

/-- `while (resultDigits[i] < --args[_quotientDigit])`. -/
def correctDigit (resultUsed tmpUsed i : ℕ) : ℕ → Arrays → Result Arrays
  | 0, _ => .error .diverges
  | fuel + 1, s => do
      let d ← load s.result i
      let q ← load s.args quotientDigit
      let args ← store s.args quotientDigit (q - 1)
      if (d : ℤ) < q - 1 then do
        let result ← absSub s.result resultUsed s.tmp tmpUsed s.result
        correctDigit resultUsed tmpUsed i fuel ⟨result, args, s.tmp⟩
      else .ok ⟨s.result, args, s.tmp⟩

/-- Whether the pair in the result is smaller than the estimated one. -/
def pairTooSmall (s : Arrays) (i : ℕ) : Result Bool := do
  let d ← load s.result i
  let high ← load s.args quotientHighDigit
  let i' ← minus i 1
  let d' ← load s.result i'
  let low ← load s.args quotientDigit
  .ok (d < high || d' < low)

def decrementPair (args : Digits) : Result Digits := do
  let low ← load args quotientDigit
  let args ← if low = 0 then do
      let high ← load args quotientHighDigit
      store args quotientHighDigit (high - 1)
    else .ok args
  store args quotientDigit (low - 1)

/-- Takes back one divisor and decrements the estimated pair, with the assertion after it. -/
def takeBackPair (resultUsed tmpUsed i : ℕ) (s : Arrays) : Result Arrays := do
  let result ← absSub s.result resultUsed s.tmp tmpUsed s.result
  let args ← decrementPair s.args
  let d ← load result i
  let high ← load args quotientHighDigit
  check (d ≤ high)
  .ok ⟨result, args, s.tmp⟩

def correctPair (resultUsed tmpUsed i : ℕ) : ℕ → Arrays → Result Arrays
  | 0, _ => .error .diverges
  | fuel + 1, s => do
      let small ← pairTooSmall s i
      if small then do
        let s ← takeBackPair resultUsed tmpUsed i s
        correctPair resultUsed tmpUsed i fuel s
      else .ok s

/-- The correction after a step on one digit. The estimate bounds the number of corrections. -/
def correctionDigit (nyDigits : Digits) (yUsed resultUsed i j : ℕ) (s : Arrays) :
    Result Arrays := do
  let d ← load s.result i
  let q ← load s.args quotientDigit
  if d < q then do
    let (tmpUsed, tmp) ← dlShiftDigits nyDigits yUsed j s.tmp
    let result ← absSub s.result resultUsed tmp tmpUsed s.result
    correctDigit resultUsed tmpUsed i (q + 1) ⟨result, s.args, tmp⟩
  else .ok s

def correctionPair (nyDigits : Digits) (yUsed resultUsed i j : ℕ) (s : Arrays) :
    Result Arrays := do
  let d ← load s.result i
  let high ← load s.args quotientHighDigit
  check (d ≤ high)
  let small ← pairTooSmall s i
  if small then do
    let (tmpUsed, tmp) ← dlShiftDigits nyDigits yUsed j s.tmp
    let q ← loadPair s.args quotientDigit
    let s ← takeBackPair resultUsed tmpUsed i ⟨s.result, s.args, tmp⟩
    correctPair resultUsed tmpUsed i (q + 1) s
  else .ok s

/-- The body of the division loop at `i` and `j`; returns the number of digits processed. -/
def divisionStep (mode : Mode) (nyDigits : Digits) (yUsed resultUsed i j : ℕ) (s : Arrays) :
    Result (ℕ × Arrays) := do
  let (d0, args) ← estimateQuotientDigit mode s.args s.result i
  let j ← minus j d0
  let (d1, result) ← mulAdd mode args quotientDigit nyDigits 0 s.result j yUsed
  check (d0 = d1)
  if d0 = 1 then do
    let s ← correctionDigit nyDigits yUsed resultUsed i j ⟨result, args, s.tmp⟩
    .ok (d0, s)
  else do
    check (d0 = 2)
    let s ← correctionPair nyDigits yUsed resultUsed i j ⟨result, args, s.tmp⟩
    .ok (d0, s)

/-- `while (j > 0)`. Every step lowers `j`. -/
def divisionLoop (mode : Mode) (nyDigits : Digits) (yUsed resultUsed : ℕ) :
    ℕ → ℕ → ℕ → Arrays → Result Arrays
  | 0, _, _, _ => .error .diverges
  | fuel + 1, i, j, s =>
    if j = 0 then .ok s
    else do
      let (d0, s) ← divisionStep mode nyDigits yUsed resultUsed i j s
      let i ← minus i d0
      let j ← minus j d0
      divisionLoop mode nyDigits yUsed resultUsed fuel i j s

/-- Quotient and remainder in one array: `_lastQuoRemDigits`, `_lastQuoRemUsed`, `_lastRemUsed`,
`_lastRem_nsh`. -/
structure QuoRem where
  digits : Digits
  used : ℕ
  remUsed : ℕ
  nsh : ℕ

/-- The normalized divisor and dividend with their numbers of used digits. -/
structure Normalized where
  yDigits : Digits
  yUsed : ℕ
  resultDigits : Digits
  resultUsed : ℕ

def normalizeOperands (digits : Digits) (used : ℕ) (otherDigits : Digits) (otherUsed nsh : ℕ) :
    Result Normalized := do
  if 0 < nsh then do
    let numExtraDigits := (nsh + digitBits - 1) / digitBits + 1
    let (yUsed, yDigits) ← lShiftDigits otherDigits otherUsed nsh
      (newDigits (otherUsed + numExtraDigits))
    let (resultUsed, resultDigits) ← lShiftDigits digits used nsh
      (newDigits (used + numExtraDigits))
    .ok ⟨yDigits, yUsed, resultDigits, resultUsed⟩
  else do
    let resultDigits ← cloneDigits digits 0 used (used + 1)
    .ok ⟨otherDigits, otherUsed, resultDigits, used⟩

/-- The explicit first step: the top digit of the quotient is 0 or 1. -/
def firstStep (i tmpUsed : ℕ) (tmpDigits resultDigits : Digits) (resultUsed : ℕ) :
    Result (Digits × ℕ) := do
  let order ← compareDigits resultDigits resultUsed tmpDigits tmpUsed
  if 0 ≤ order then do
    check (i = resultUsed)
    let resultDigits ← store resultDigits resultUsed 1
    let resultDigits ← absSub resultDigits (resultUsed + 1) tmpDigits tmpUsed resultDigits
    .ok (resultDigits, resultUsed + 1)
  else do
    let resultDigits ← store resultDigits resultUsed 0
    .ok (resultDigits, resultUsed + 1)

/-- The leading zero for 64-bit processing above an odd number of digits. -/
def leadingZero (digits : Digits) (used : ℕ) : Result Digits :=
  if used % 2 = 1 then store digits used 0 else .ok digits

/-- `_divRem` without the cache. -/
def divRemDigits (mode : Mode) (digits : Digits) (used : ℕ) (otherDigits : Digits)
    (otherUsed : ℕ) : Result QuoRem := do
  check (otherUsed ≤ used)
  let topIndex ← minus otherUsed 1
  let top ← load otherDigits topIndex
  let nsh := digitBits - top.size + if otherUsed % 2 = 1 then digitBits else 0
  let n ← normalizeOperands digits used otherDigits otherUsed nsh
  let lowTopIndex ← minus n.yUsed 2
  let lowTop ← load n.yDigits lowTopIndex
  let top ← load n.yDigits (n.yUsed - 1)
  let args ← store (newDigits 4) divisorLowTopDigit lowTop
  let args ← store args divisorTopDigit top
  check (n.yUsed % 2 = 0)
  let i := n.resultUsed + n.resultUsed % 2
  let j ← minus i n.yUsed
  let (tmpUsed, tmpDigits) ← dlShiftDigits n.yDigits n.yUsed j (newDigits i)
  let (resultDigits, resultUsed) ← firstStep i tmpUsed tmpDigits n.resultDigits n.resultUsed
  let resultDigits ← leadingZero resultDigits resultUsed
  let nyDigits ← store (newDigits (n.yUsed + 2)) n.yUsed 1
  let nyDigits ← absSub nyDigits (n.yUsed + 1) n.yDigits n.yUsed nyDigits
  let i ← minus i 1
  let s ← divisionLoop mode nyDigits n.yUsed resultUsed (j + 1) i j ⟨resultDigits, args, tmpDigits⟩
  .ok ⟨s.result, resultUsed, n.yUsed, nsh⟩

end

section

open Checked Numerals List

/-- The digit at a position, zero outside of the array. -/
def digit (a : Digits) (i : ℕ) : ℕ := (a.getD i 0).toNat

/-- The number that `n` digits from position `s` on denote. -/
def seg (a : Digits) (s n : ℕ) : ℕ := segment digitBase (digit a) s n

section

variable (a : Digits)

lemma digit_lt (i : ℕ) : digit a i < digitBase := (a.getD i 0).toNat_lt

lemma seg_lt (s n : ℕ) : seg a s n < digitBase ^ n :=
  segment_lt fun _ _ => digit_lt ..

lemma seg_add (s m n : ℕ) :
    seg a s (m + n) = seg a s m + digitBase ^ m * seg a (s + m) n := segment_add ..

lemma seg_succ (s n : ℕ) :
    seg a s (n + 1) = seg a s n + digit a (s + n) * digitBase ^ n := segment_succ ..

lemma seg_cons (s n : ℕ) : seg a s (n + 1) = digit a s + digitBase * seg a (s + 1) n := by
  rw [add_comm n 1, seg_add, seg, segment_one, pow_one]

@[simp] lemma seg_zero (s : ℕ) : seg a s 0 = 0 := rfl

@[simp] lemma seg_one (s : ℕ) : seg a s 1 = digit a s := segment_one ..

end

variable {a : Digits} {i : ℕ}

lemma load_eq (hi : i < a.length) : load a i = .ok (digit a i) := by
  rw [load, List.getElem?_eq_getElem hi, digit, getD_eq_getElem?_getD,
    List.getElem?_eq_getElem hi, Option.getD_some]

lemma minus_eq {k : ℕ} (h : k ≤ i) : minus i k = .ok (i - k) := if_pos h

/-- One digit of the array has been overwritten. -/
structure Stored (a a' : Digits) (i d : ℕ) : Prop where
  length : a'.length = a.length
  here : digit a' i = d
  other : ∀ j, j ≠ i → digit a' j = digit a j

lemma store_int (hi : i < a.length) (v : ℤ) :
    ∃ a', store a i v = .ok a' ∧ Stored a a' i (v % digitBase).toNat := by
  refine ⟨_, if_pos hi, List.length_set, ?_, ?_⟩
  · have hlt : (v % digitBase).toNat < 2 ^ 32 := by
      unfold digitBase at *
      omega
    rw [digit, getD_eq_getElem?_getD, List.getElem?_set_self hi, Option.getD_some,
      UInt32.toNat_ofNat', mod_eq_of_lt hlt]
  · intro j hj
    rw [digit, digit, getD_eq_getElem?_getD, getD_eq_getElem?_getD,
      List.getElem?_set_ne (Ne.symm hj)]

lemma store_digit {v : ℕ} (hi : i < a.length) (hv : v < digitBase) :
    ∃ a', store a i v = .ok a' ∧ Stored a a' i v := by
  obtain ⟨a', ha', hstored⟩ := store_int hi v
  have hmod : ((v : ℤ) % digitBase).toNat = v := by
    rw [← Int.natCast_emod, Int.toNat_natCast, mod_eq_of_lt hv]
  exact ⟨a', ha', hmod ▸ hstored⟩

variable {n : ℕ}

lemma Stored.seg_eq {a' : Digits} {d : ℕ} (h : Stored a a' i d) {s : ℕ}
    (hi : i < s ∨ s + n ≤ i) : seg a' s n = seg a s n :=
  segment_congr fun k hk => h.other (s + k) (by omega)

@[simp] lemma length_newDigits (n : ℕ) : (newDigits n).length = n + n % 2 :=
  length_replicate

lemma digit_newDigits (n i : ℕ) : digit (newDigits n) i = 0 := by
  rw [digit, newDigits, getD_eq_getElem?_getD, List.getElem?_replicate]
  split <;> rfl

lemma normalize_spec {used : ℕ} (h : used ≤ a.length) :
    ∃ u, normalize a used = .ok u ∧ u ≤ used ∧ (∀ k, u ≤ k → k < used → digit a k = 0) ∧
      (0 < u → digit a (u - 1) ≠ 0) := by
  induction used with
  | zero => exact ⟨0, rfl, le_rfl, by omega, by omega⟩
  | succ used ih =>
    rw [normalize, load_eq (by omega), ok_bind]
    split
    · rename_i hzero
      obtain ⟨u, hu, hle, hzeros, htop⟩ := ih (by omega)
      refine ⟨u, hu, by omega, ?_, htop⟩
      intro k hk hk'
      rcases Nat.lt_succ_iff_lt_or_eq.mp hk' with hk' | rfl
      · exact hzeros k hk hk'
      · exact hzero
    · rename_i hne
      exact ⟨used + 1, rfl, le_rfl, by omega, fun _ => hne⟩

lemma cloneDigits_spec {lo hi : ℕ} (length : ℕ) (hlo : lo ≤ hi) (hhi : hi ≤ a.length)
    (hlength : hi - lo ≤ length + length % 2) :
    ∃ r, cloneDigits a lo hi length = .ok r ∧ r.length = length + length % 2 ∧
      (∀ k < hi - lo, digit r k = digit a (lo + k)) ∧ ∀ k, hi - lo ≤ k → digit r k = 0 := by
  refine forUp_spec _ (fun i r => r.length = length + length % 2 ∧
    (∀ k < i, digit r k = digit a (lo + k)) ∧ ∀ k, i ≤ k → digit r k = 0) (hi - lo) ?_ ?_
  · exact ⟨length_newDigits _, by omega, fun k _ => digit_newDigits _ k⟩
  · rintro i hi' r ⟨hlen, hcopied, hzero⟩
    obtain ⟨r', hr', hstored⟩ := store_digit (a := r) (i := i) (by omega) (digit_lt a (lo + i))
    refine ⟨r', ?_, ?_, ?_, ?_⟩
    · rw [load_eq (by omega), ok_bind, hr']
    · rw [hstored.length, hlen]
    · intro k hk
      by_cases heq : k = i
      · rw [heq, hstored.here]
      · rw [hstored.other k heq, hcopied k (by omega)]
    · intro k hk
      rw [hstored.other k (by omega), hzero k (by omega)]

lemma clear_spec (h : n ≤ a.length) :
    ∃ r, forDown n (fun i result => store result i 0) a = .ok r ∧ r.length = a.length ∧
      (∀ k < n, digit r k = 0) ∧ ∀ k, n ≤ k → digit r k = digit a k := by
  have hloop := forDown_spec (fun i result => store result i 0)
    (fun i r => r.length = a.length ∧ (∀ k, i ≤ k → k < n → digit r k = 0) ∧
      ∀ k, n ≤ k → digit r k = digit a k) n (s := a) ⟨rfl, by omega, fun _ _ => rfl⟩ ?_
  · obtain ⟨r, hr, hlen, hzero, hrest⟩ := hloop
    exact ⟨r, hr, hlen, fun k hk => hzero k (by omega) hk, hrest⟩
  · rintro i hi r ⟨hlen, hzero, hrest⟩
    obtain ⟨r', hr', hstored⟩ := store_digit (a := r) (i := i) (v := 0) (by omega) (by decide)
    refine ⟨r', hr', by rw [hstored.length, hlen], ?_, ?_⟩
    · intro k hk hkn
      by_cases heq : k = i
      · rw [heq, hstored.here]
      · rw [hstored.other k heq, hzero k (by omega) hkn]
    · intro k hk
      rw [hstored.other k (by omega), hrest k hk]

lemma dlShiftDigits_spec {x : Digits} (result : Digits) {xUsed : ℕ} (hpos : 0 < xUsed)
    (hx : xUsed ≤ x.length) (hres : xUsed + n + (xUsed + n) % 2 ≤ result.length) :
    ∃ r, dlShiftDigits x xUsed n result = .ok (xUsed + n, r) ∧ r.length = result.length ∧
      seg r 0 (xUsed + n) = digitBase ^ n * seg x 0 xUsed ∧
      digit r (xUsed + n - 1) = digit x (xUsed - 1) := by
  have hmove := forDown_spec (fun i result => do
      let d ← load x i
      store result (i + n) d)
    (fun i r => r.length = result.length ∧ ∀ k, i ≤ k → k < xUsed → digit r (n + k) = digit x k)
    xUsed (s := result) ⟨rfl, by omega⟩ ?_
  · obtain ⟨r1, hr1, hlen1, hmoved⟩ := hmove
    obtain ⟨r2, hr2, hlen2, hzero, hrest⟩ := clear_spec (a := r1) (n := n) (by omega)
    have hdigs : ∀ r : Digits, (∀ k < xUsed + n, digit r k = digit r2 k) →
        seg r 0 (xUsed + n) = digitBase ^ n * seg x 0 xUsed ∧
          digit r (xUsed + n - 1) = digit x (xUsed - 1) := by
      intro r hr
      constructor
      · rw [add_comm]
        apply segment_shifted
        · intro k hk
          rw [zero_add, hr k (by omega), hzero k hk]
        · intro k hk
          rw [zero_add, zero_add, hr (n + k) (by omega), hrest (n + k) (by omega),
            hmoved k (by omega) hk]
      · have htop := hmoved (xUsed - 1) (by omega) (by omega)
        rw [hr _ (by omega), show xUsed + n - 1 = n + (xUsed - 1) by omega,
          hrest _ (by omega), htop]
    rw [dlShiftDigits, if_neg (by omega)]
    dsimp only
    rw [check_of (by simpa using hres), ok_bind, hr1, ok_bind, hr2, ok_bind]
    split
    · obtain ⟨r3, hr3, hstored⟩ := store_digit (a := r2) (i := xUsed + n) (v := 0) (by omega)
        (by decide)
      refine ⟨r3, by rw [show ((0 : ℕ) : ℤ) = 0 from rfl] at hr3; rw [hr3, ok_bind], ?_,
        hdigs r3 fun k hk => hstored.other k (by omega)⟩
      rw [hstored.length, hlen2, hlen1]
    · exact ⟨r2, rfl, by rw [hlen2, hlen1], hdigs r2 fun _ _ => rfl⟩
  · rintro i hi r ⟨hlen, hmoved⟩
    obtain ⟨r', hr', hstored⟩ := store_digit (a := r) (i := i + n) (by omega) (digit_lt x i)
    refine ⟨r', by rw [load_eq (by omega), ok_bind, hr'], by rw [hstored.length, hlen], ?_⟩
    intro k hk hkx
    by_cases heq : k = i
    · rw [heq, add_comm n i, hstored.here]
    · rw [hstored.other _ (by omega), hmoved k (by omega) hkx]

end

open Checked Numerals Nat

lemma digitBase_eq_mul {s : ℕ} (hs : s ≤ 32) : digitBase = 2 ^ s * 2 ^ (32 - s) := by
  rw [digitBase, ← pow_add, Nat.add_sub_cancel' hs]

lemma digitBase_pos : 0 < digitBase := by decide

/-- Joining the upper bits of one digit below the lower bits of the next one. -/
lemma or_eq_add {s high low : ℕ}
    (hlow : low < 2 ^ s) : (high <<< s ||| low) = high * 2 ^ s + low := by
  rw [← shiftLeft_add_eq_or_of_lt hlow, shiftLeft_eq]

/-- After the digits from `i` on, the carry and the digits written denote the shifted number. -/
structure LeftShifted (x result : Digits) (xUsed shift bits i : ℕ) (state : Digits × ℕ) : Prop where
  length : state.1.length = result.length
  value : 2 ^ bits * seg x i (xUsed - i) =
    state.2 + digitBase * seg state.1 (i + shift + 1) (xUsed - i)
  carry : ∃ c < 2 ^ (32 - bits), state.2 = c <<< bits
  others : ∀ k, k ≤ i + shift ∨ xUsed + shift < k → digit state.1 k = digit result k

variable {result a : Digits}

lemma LeftShifted.step {x : Digits} {xUsed shift bits i : ℕ} {state : Digits × ℕ}
    (h : LeftShifted x result xUsed shift bits (i + 1) state) (hi : i < xUsed)
    (hbits : bits ≤ 32) (hx : xUsed ≤ x.length) (hres : xUsed + shift < result.length) :
    ∃ state', (do
        let d ← load x i
        let r ← store state.1 (i + shift + 1) ((d >>> (32 - bits) ||| state.2 : ℕ) : ℤ)
        Except.ok (r, (d &&& (1 <<< (32 - bits) - 1)) <<< bits)) = Except.ok state' ∧
      LeftShifted x result xUsed shift bits i state' := by
  obtain ⟨c, hc, hcarry⟩ := h.carry
  have hbase := digitBase_eq_mul hbits
  have hhigh : digit x i >>> (32 - bits) < 2 ^ bits := by
    rw [Nat.shiftRight_eq_div_pow, Nat.div_lt_iff_lt_mul (Nat.two_pow_pos _), ← hbase]
    exact digit_lt x i
  have hor : (digit x i >>> (32 - bits) ||| state.2) =
      c * 2 ^ bits + digit x i / 2 ^ (32 - bits) := by
    rw [hcarry, Nat.or_comm, or_eq_add hhigh, shiftRight_eq_div_pow]
  have hlt : c * 2 ^ bits + digit x i / 2 ^ (32 - bits) < digitBase := by
    have : (c + 1) * 2 ^ bits ≤ 2 ^ (32 - bits) * 2 ^ bits := Nat.mul_le_mul_right _ hc
    rw [hbase, mul_comm (2 ^ bits)]
    have hexp : (c + 1) * 2 ^ bits = c * 2 ^ bits + 2 ^ bits := by ring
    omega
  obtain ⟨r, hr, hstored⟩ := store_digit (a := state.1) (i := i + shift + 1)
    (by rw [h.length]; omega) hlt
  have hlow : digit x i &&& (1 <<< (32 - bits) - 1) = digit x i % 2 ^ (32 - bits) := by
    rw [one_shiftLeft, and_two_pow_sub_one_eq_mod]
  refine ⟨(r, (digit x i % 2 ^ (32 - bits)) <<< bits), ?_, ?_, ?_, ?_, ?_⟩
  · rw [load_eq (by omega), ok_bind, hor, hr, ok_bind, hlow]
  · rw [hstored.length, h.length]
  · have hsplit : xUsed - i = xUsed - (i + 1) + 1 := by omega
    rw [hsplit, seg_cons, seg_cons, hstored.here, hstored.seg_eq (.inl (by omega))]
    have hval := h.value
    rw [hcarry, shiftLeft_eq, show i + 1 + shift + 1 = i + shift + 1 + 1 by omega] at hval
    have hdigit := div_add_mod (digit x i) (2 ^ (32 - bits))
    generalize seg x (i + 1) (xUsed - (i + 1)) = X at *
    generalize seg state.1 (i + shift + 1 + 1) (xUsed - (i + 1)) = S at *
    generalize digit x i / 2 ^ (32 - bits) = high at *
    generalize digit x i % 2 ^ (32 - bits) = low at *
    rw [← hdigit, shiftLeft_eq]
    calc 2 ^ bits * (2 ^ (32 - bits) * high + low + digitBase * X)
        = 2 ^ bits * 2 ^ (32 - bits) * high + low * 2 ^ bits + digitBase * (2 ^ bits * X) := by ring
      _ = low * 2 ^ bits + digitBase * (c * 2 ^ bits + high + digitBase * S) := by
        rw [← hbase, hval]
        ring
  · exact ⟨_, Nat.mod_lt _ (Nat.two_pow_pos _), rfl⟩
  · intro k hk
    rw [hstored.other k (by omega), h.others k (by omega)]

variable {x : Digits} {n xUsed : ℕ}

lemma lsh_spec (hpos : 0 < xUsed) (hx : xUsed ≤ x.length) (hres : xUsed + n / 32 < result.length) :
    ∃ r, lsh x xUsed n result = .ok r ∧ r.length = result.length ∧
      seg r (n / 32) (xUsed + 1) = 2 ^ (n % 32) * seg x 0 xUsed ∧
      ∀ k, k < n / 32 ∨ xUsed + n / 32 < k → digit r k = digit result k := by
  have hbits : n % 32 ≤ 32 := by omega
  obtain ⟨state, hstate, hshifted⟩ := forDown_spec (fun i (state : Digits × ℕ) => do
      let d ← load x i
      let r ← store state.1 (i + n / 32 + 1) ((d >>> (32 - n % 32) ||| state.2 : ℕ) : ℤ)
      Except.ok (r, (d &&& (1 <<< (32 - n % 32) - 1)) <<< (n % 32)))
    (LeftShifted x result xUsed (n / 32) (n % 32)) xUsed (s := (result, 0))
    ⟨rfl, by simp, ⟨0, Nat.two_pow_pos _, by simp⟩, fun _ _ => rfl⟩
    fun i hi state h => h.step hi hbits hx hres
  obtain ⟨c, hc, hcarry⟩ := hshifted.carry
  have hlt : state.2 < digitBase := by
    rw [hcarry, Nat.shiftLeft_eq, digitBase_eq_mul hbits, mul_comm]
    exact Nat.mul_lt_mul_of_pos_left hc (Nat.two_pow_pos _)
  obtain ⟨r, hr, hstored⟩ := store_digit (a := state.1) (i := n / 32)
    (by rw [hshifted.length]; omega) hlt
  refine ⟨r, ?_, by rw [hstored.length, hshifted.length], ?_, ?_⟩
  · rw [lsh, check_of (by simpa using hpos), ok_bind]
    exact (congrArg (· >>= _) hstate).trans hr
  · rw [seg_cons, hstored.here, hstored.seg_eq (.inl (by omega))]
    have hval := hshifted.value
    rw [Nat.sub_zero, zero_add] at hval
    exact hval.symm
  · intro k hk
    rw [hstored.other k (by omega), hshifted.others k (by omega)]

lemma two_pow_eq (n : ℕ) : 2 ^ n = digitBase ^ (n / 32) * 2 ^ (n % 32) := by
  rw [digitBase, ← pow_mul, ← pow_add, div_add_mod]

/-- A number without leading zeros is at least the weight of its top digit. -/
lemma pow_le_seg (hn : 0 < n) (h : digit a (n - 1) ≠ 0) : digitBase ^ (n - 1) ≤ seg a 0 n := by
  obtain ⟨m, rfl⟩ := Nat.exists_eq_add_of_lt hn
  exact pow_le_segment (by rwa [zero_add])

lemma digit_ne_zero (hn : 0 < n) (h : digitBase ^ (n - 1) ≤ seg a 0 n) : digit a (n - 1) ≠ 0 := by
  obtain ⟨m, rfl⟩ := Nat.exists_eq_add_of_lt hn
  rw [zero_add, Nat.add_sub_cancel] at *
  intro hzero
  rw [seg_succ, zero_add, hzero, zero_mul, add_zero] at h
  have := seg_lt a 0 m
  omega

lemma lShiftDigits_spec (result : Digits) (hpos : 0 < xUsed)
    (hx : xUsed ≤ x.length) (htop : digit x (xUsed - 1) ≠ 0)
    (hres : if n % 32 = 0 then xUsed + n / 32 + (xUsed + n / 32) % 2 ≤ result.length
      else xUsed + n / 32 + 1 + 2 - (xUsed + n / 32 + 1) % 2 ≤ result.length) :
    ∃ u r, lShiftDigits x xUsed n result = .ok (u, r) ∧ r.length = result.length ∧
      seg r 0 u = 2 ^ n * seg x 0 xUsed ∧ 0 < u ∧ digit r (u - 1) ≠ 0 ∧
      u ≤ xUsed + n / 32 + if n % 32 = 0 then 0 else 1 := by
  by_cases hbits : n % 32 = 0
  · rw [if_pos hbits] at hres
    obtain ⟨r, hr, hlen, hseg, hdigit⟩ := dlShiftDigits_spec result hpos hx hres
    refine ⟨xUsed + n / 32, r, ?_, hlen, ?_, by omega, by rwa [hdigit], by omega⟩
    · rw [lShiftDigits]
      rw [if_pos hbits]
      exact hr
    · rw [hseg, two_pow_eq, hbits, pow_zero, mul_one]
  · rw [if_neg hbits] at hres
    obtain ⟨r1, hr1, hlen1, hseg1, -⟩ := lsh_spec (n := n) hpos hx
      (show xUsed + n / 32 < result.length by omega)
    obtain ⟨r2, hr2, hlen2, hzero, hrest⟩ := clear_spec (a := r1) (n := n / 32) (by omega)
    have hseg2 : seg r2 0 (xUsed + n / 32 + 1) = 2 ^ n * seg x 0 xUsed := by
      rw [show xUsed + n / 32 + 1 = n / 32 + (xUsed + 1) by omega, two_pow_eq, mul_assoc,
        ← hseg1]
      apply segment_shifted
      · intro k hk
        rw [zero_add, hzero k hk]
      · intro k hk
        rw [zero_add, hrest _ (by omega)]
    have hload : load r2 (xUsed + n / 32 + 1 - 1) = .ok (digit r2 (xUsed + n / 32)) :=
      load_eq (by omega)
    have heq : lShiftDigits x xUsed n result =
        if digit r2 (xUsed + n / 32) = 0 then .ok (xUsed + n / 32, r2)
        else if (xUsed + n / 32 + 1) % 2 = 1 then do
          let r ← store r2 (xUsed + n / 32 + 1) 0
          .ok (xUsed + n / 32 + 1, r)
        else .ok (xUsed + n / 32 + 1, r2) := by
      rw [lShiftDigits]
      dsimp only
      rw [if_neg hbits, check_of (by simpa using hres), ok_bind, hr1, ok_bind, hr2, ok_bind,
        hload, ok_bind]
      rfl
    rw [heq, if_neg hbits]
    split
    · rename_i hclamp
      have hval : seg r2 0 (xUsed + n / 32) = 2 ^ n * seg x 0 xUsed := by
        rw [← hseg2, seg_succ, zero_add, hclamp, zero_mul, add_zero]
      refine ⟨_, r2, rfl, by rw [hlen2, hlen1], hval, by omega, digit_ne_zero (by omega) ?_,
        by omega⟩
      rw [hval, two_pow_eq, show xUsed + n / 32 - 1 = n / 32 + (xUsed - 1) by omega, pow_add]
      calc digitBase ^ (n / 32) * digitBase ^ (xUsed - 1)
          ≤ digitBase ^ (n / 32) * seg x 0 xUsed := Nat.mul_le_mul_left _ (pow_le_seg hpos htop)
        _ ≤ digitBase ^ (n / 32) * 2 ^ (n % 32) * seg x 0 xUsed := by
          rw [mul_assoc]
          exact Nat.mul_le_mul_left _ (Nat.le_mul_of_pos_left _ (Nat.two_pow_pos _))
    · rename_i hne
      split
      · obtain ⟨r3, hr3, hstored⟩ := store_digit (a := r2) (i := xUsed + n / 32 + 1) (v := 0)
          (by omega) (by decide)
        refine ⟨xUsed + n / 32 + 1, r3, ?_, by rw [hstored.length, hlen2, hlen1], ?_, by omega, ?_,
          by omega⟩
        · rw [show ((0 : ℕ) : ℤ) = 0 from rfl] at hr3
          rw [hr3, ok_bind]
        · rw [hstored.seg_eq (.inr (by omega)), hseg2]
        · rw [Nat.add_sub_cancel, hstored.other _ (by omega)]
          exact hne
      · exact ⟨_, r2, rfl, by rw [hlen2, hlen1], hseg2, by omega, hne, by omega⟩

lemma rsh_spec (hn : n / 32 < xUsed) (hx : xUsed ≤ x.length)
    (hres : xUsed - n / 32 ≤ result.length) :
    ∃ r, rsh x xUsed n result = .ok r ∧ r.length = result.length ∧
      seg r 0 (xUsed - n / 32) = seg x 0 xUsed / 2 ^ n ∧
      ∀ k, xUsed - n / 32 ≤ k → digit r k = digit result k := by
  have hbits : n % 32 ≤ 32 := by omega
  have hbase := digitBase_eq_mul hbits
  have hhigh : ∀ i, digit x i / 2 ^ (n % 32) < 2 ^ (32 - n % 32) := by
    intro i
    rw [Nat.div_lt_iff_lt_mul (Nat.two_pow_pos _), mul_comm, ← hbase]
    exact digit_lt x i
  obtain ⟨last, hlast⟩ : ∃ last, xUsed = n / 32 + last + 1 := ⟨xUsed - n / 32 - 1, by omega⟩
  have hloop := forUp_spec (fun i (state : Digits × ℕ) => do
      let d ← load x (i + n / 32 + 1)
      let r ← store state.1 i (((d &&& (1 <<< (n % 32) - 1)) <<< (32 - n % 32) ||| state.2 : ℕ) : ℤ)
      Except.ok (r, d >>> (n % 32)))
    (fun i state => state.1.length = result.length ∧
      state.2 = digit x (n / 32 + i) / 2 ^ (n % 32) ∧
      seg state.1 0 i + digitBase ^ i * state.2 = seg x (n / 32) (i + 1) / 2 ^ (n % 32) ∧
      ∀ k, i ≤ k → digit state.1 k = digit result k) last
    (s := (result, digit x (n / 32) >>> (n % 32))) ?_ ?_
  · obtain ⟨state, hstate, hlen, hcarry, hval, hothers⟩ := hloop
    have hlt : state.2 < digitBase := by
      rw [hcarry]
      exact lt_of_le_of_lt (Nat.div_le_self _ _) (digit_lt ..)
    obtain ⟨r, hr, hstored⟩ := store_digit (a := state.1) (i := last) (by omega) hlt
    refine ⟨r, ?_, by rw [hstored.length, hlen], ?_, ?_⟩
    · rw [rsh, check_of (by simpa using zero_lt_of_lt hn), ok_bind]
      dsimp only
      rw [load_eq (i := n / 32) (by omega), ok_bind, minus_eq (k := n / 32 + 1) (by omega), ok_bind,
        show xUsed - (n / 32 + 1) = last by omega]
      exact (congrArg (· >>= _) hstate).trans hr
    · rw [show xUsed - n / 32 = last + 1 by omega, seg_succ, zero_add, hstored.here,
        hstored.seg_eq (.inr (by omega)), mul_comm, hval]
      rw [two_pow_eq n, ← Nat.div_div_eq_div_mul, hlast, add_assoc]
      have hdiv : seg x 0 (n / 32 + (last + 1)) / digitBase ^ (n / 32) =
          seg x (0 + n / 32) (last + 1) := segment_div fun _ _ => digit_lt ..
      rw [hdiv, zero_add]
    · intro k hk
      rw [hstored.other k (by omega), hothers k (by omega)]
  · refine ⟨rfl, ?_, ?_, fun _ _ => rfl⟩
    · rw [shiftRight_eq_div_pow, add_zero]
    · rw [seg_zero, zero_add, pow_zero, one_mul, zero_add, seg_one,
        shiftRight_eq_div_pow]
  · rintro i hi ⟨r, carry⟩ ⟨hlen, hcarry, hval, hothers⟩
    dsimp only at *
    have hlow : digit x (i + n / 32 + 1) &&& (1 <<< (n % 32) - 1) =
        digit x (i + n / 32 + 1) % 2 ^ (n % 32) := by
      rw [one_shiftLeft, and_two_pow_sub_one_eq_mod]
    have hor : ((digit x (i + n / 32 + 1) % 2 ^ (n % 32)) <<< (32 - n % 32) ||| carry) =
        digit x (i + n / 32 + 1) % 2 ^ (n % 32) * 2 ^ (32 - n % 32) + carry :=
      or_eq_add (hcarry ▸ hhigh (n / 32 + i))
    have hcarryLt : carry < 2 ^ (32 - n % 32) := hcarry ▸ hhigh (n / 32 + i)
    have hdigit := Nat.div_add_mod (digit x (i + n / 32 + 1)) (2 ^ (n % 32))
    have hlowLt := Nat.mod_lt (digit x (i + n / 32 + 1)) (Nat.two_pow_pos (n % 32))
    have hnext : seg x (n / 32) (i + 1 + 1) =
        seg x (n / 32) (i + 1) + digit x (i + n / 32 + 1) * digitBase ^ (i + 1) := by
      rw [seg_succ, show n / 32 + (i + 1) = i + n / 32 + 1 by omega]
    rw [show i + n / 32 + 1 = n / 32 + (i + 1) by omega] at *
    generalize digit x (n / 32 + (i + 1)) % 2 ^ (n % 32) = low at *
    have hlt : low * 2 ^ (32 - n % 32) + carry < digitBase := by
      have hle : (low + 1) * 2 ^ (32 - n % 32) ≤ 2 ^ (n % 32) * 2 ^ (32 - n % 32) :=
        Nat.mul_le_mul_right _ hlowLt
      have hexp : (low + 1) * 2 ^ (32 - n % 32) = low * 2 ^ (32 - n % 32) + 2 ^ (32 - n % 32) := by
        ring
      omega
    obtain ⟨r', hr', hstored⟩ := store_digit (a := r) (i := i) (by omega) hlt
    refine ⟨(r', digit x (n / 32 + (i + 1)) / 2 ^ (n % 32)), ?_, by rw [hstored.length, hlen], rfl,
      ?_, ?_⟩
    · rw [load_eq (by omega), ok_bind, hlow, hor, hr', ok_bind, shiftRight_eq_div_pow]
    · dsimp only
      rw [seg_succ, zero_add, hstored.here, hstored.seg_eq (.inr (by omega)), hnext]
      generalize digit x (n / 32 + (i + 1)) / 2 ^ (n % 32) = high at *
      have hpow : digit x (n / 32 + (i + 1)) * digitBase ^ (i + 1) =
          digit x (n / 32 + (i + 1)) * 2 ^ (32 - n % 32) * digitBase ^ i * 2 ^ (n % 32) := by
        rw [pow_succ]
        nth_rewrite 2 [hbase]
        ring
      rw [hpow, Nat.add_mul_div_right _ _ (Nat.two_pow_pos _), ← hval, ← hdigit, pow_succ]
      rw [hbase]
      ring
    · intro k hk
      rw [hstored.other k (by omega), hothers k (by omega)]

end

section

open Checked Numerals

/-- The digits are in the array and the top one is not zero. -/
structure Trimmed (a : Digits) (used : ℕ) : Prop where
  bound : used ≤ a.length
  top : 0 < used → digit a (used - 1) ≠ 0

variable {a b : Digits} {otherUsed used : ℕ}

lemma Trimmed.seg_lt_of_used_lt
    (hb : Trimmed b otherUsed) (h : used < otherUsed) : seg a 0 used < seg b 0 otherUsed :=
  calc seg a 0 used < digitBase ^ used := seg_lt ..
    _ ≤ digitBase ^ (otherUsed - 1) := Nat.pow_le_pow_right digitBase_pos (by omega)
    _ ≤ seg b 0 otherUsed := pow_le_seg (by omega) (hb.top (by omega))

/-- A number whose sign says how two natural numbers compare. -/
structure Orders (c : ℤ) (m n : ℕ) : Prop where
  neg : c < 0 ↔ m < n
  zero : c = 0 ↔ m = n

variable {n : ℕ}

lemma compareLoop_spec (ha : n ≤ a.length) (hb : n ≤ b.length) :
    ∃ c, compareLoop a b n = .ok c ∧ Orders c (seg a 0 n) (seg b 0 n) := by
  induction n with
  | zero => exact ⟨0, rfl, by simp, by simp⟩
  | succ n ih =>
    rw [compareLoop, load_eq (by omega), ok_bind, load_eq (by omega), ok_bind, seg_succ, seg_succ,
      zero_add]
    dsimp only
    have hA := seg_lt a 0 n
    have hB := seg_lt b 0 n
    split_ifs with heq
    · -- The first digits from the top that differ decide, whatever stands below them.
      rcases lt_or_gt_of_ne (show digit a n ≠ digit b n by omega) with hlt | hgt
      · have := mul_le_mul_right (digitBase ^ n) (show digit a n + 1 ≤ digit b n from hlt)
        rw [add_mul, one_mul] at this
        exact ⟨_, rfl, by omega, by omega⟩
      · have := mul_le_mul_right (digitBase ^ n) (show digit b n + 1 ≤ digit a n from hgt)
        rw [add_mul, one_mul] at this
        exact ⟨_, rfl, by omega, by omega⟩
    · have heq : digit a n = digit b n := by omega
      obtain ⟨c, hc, hneg, hzero⟩ := ih (by omega) (by omega)
      rw [heq]
      exact ⟨c, hc, by omega, by omega⟩

lemma compareDigits_spec (ha : Trimmed a used) (hb : Trimmed b otherUsed) :
    ∃ c, compareDigits a used b otherUsed = .ok c ∧
      Orders c (seg a 0 used) (seg b 0 otherUsed) := by
  rw [compareDigits]
  split
  · rename_i heq
    obtain rfl : used = otherUsed := by omega
    exact compareLoop_spec ha.bound hb.bound
  · rename_i hne
    refine ⟨_, rfl, ?_⟩
    rcases lt_or_gt_of_ne (show used ≠ otherUsed by omega) with hlt | hgt
    · have := hb.seg_lt_of_used_lt (a := a) hlt
      exact ⟨by omega, by omega⟩
    · have := ha.seg_lt_of_used_lt (a := b) hgt
      exact ⟨by omega, by omega⟩

/-- The digits below `i` and the carry denote `total`. -/
structure Carried (result : Digits) (i : ℕ) (total : ℤ) (state : Digits × ℤ) : Prop where
  length : state.1.length = result.length
  value : (seg state.1 0 i : ℤ) + state.2 * digitBase ^ i = total
  others : ∀ k, i ≤ k → digit state.1 k = digit result k

lemma Carried.start (result : Digits) : Carried result 0 0 (result, 0) :=
  ⟨rfl, by simp, fun _ _ => rfl⟩

lemma Carried.step {result : Digits} {i : ℕ} {total : ℤ} {state : Digits × ℤ}
    (h : Carried result i total state) (hi : i < result.length) (v : ℤ) :
    ∃ state', carryStep i state.1 (state.2 + v) = .ok state' ∧
      Carried result (i + 1) (total + v * digitBase ^ i) state' := by
  have hpos : (0 : ℤ) < digitBase := by exact_mod_cast digitBase_pos
  have hnn := Int.emod_nonneg (state.2 + v) hpos.ne'
  obtain ⟨r, hr, hstored⟩ := store_int (a := state.1) (i := i) (by rw [h.length]; exact hi)
    ((state.2 + v) % digitBase)
  rw [Int.emod_emod_of_dvd _ (dvd_refl _)] at hstored
  refine ⟨(r, (state.2 + v) / digitBase), ?_, ?_, ?_, ?_⟩
  · rw [carryStep, hr, ok_bind]
  · rw [hstored.length, h.length]
  · have hdiv := Int.emod_add_mul_ediv (state.2 + v) digitBase
    rw [seg_succ, zero_add, hstored.here, hstored.seg_eq (.inr (by omega)), ← h.value]
    push_cast
    rw [Int.toNat_of_nonneg hnn, pow_succ]
    linear_combination (digitBase : ℤ) ^ i * hdiv
  · intro k hk
    rw [hstored.other k (by omega), h.others k (by omega)]

variable {result : Digits}

/-- Adding or subtracting the digits of two numbers, as far as both go. -/
lemma carryBoth_spec (f : ℕ → ℕ → ℤ) (s : ℤ)
    (hf : ∀ d e, f d e = d + s * e) (ha : n ≤ a.length) (hb : n ≤ b.length)
    (hres : n ≤ result.length) :
    ∃ state, forUp n (fun i state => do
        let d ← load a i
        let e ← load b i
        carryStep i state.1 (state.2 + f d e)) (result, 0) = .ok state ∧
      Carried result n (seg a 0 n + s * seg b 0 n) state := by
  refine forUp_spec _ (fun i state => Carried result i (seg a 0 i + s * seg b 0 i) state) n ?_ ?_
  · simpa using Carried.start result
  · intro i hi state hstate
    obtain ⟨state', hstep, hnext⟩ := hstate.step (by omega) (f (digit a i) (digit b i))
    refine ⟨state', ?_, ?_⟩
    · rw [load_eq (by omega), ok_bind, load_eq (by omega), ok_bind, hstep]
    · convert hnext using 1
      rw [seg_succ, seg_succ, zero_add, hf]
      push_cast
      ring

lemma carryRest_spec {state : Digits × ℤ} {total : ℤ}
    (hn : n ≤ used) (ha : used ≤ a.length) (hres : used ≤ result.length)
    (h : Carried result n (seg a 0 n + total) state) :
    ∃ state', forUp (used - n) (fun k state => do
        let d ← load a (n + k)
        carryStep (n + k) state.1 (state.2 + d)) state = .ok state' ∧
      Carried result used (seg a 0 used + total) state' := by
  obtain ⟨m, rfl⟩ := Nat.exists_eq_add_of_le hn
  rw [Nat.add_sub_cancel_left]
  refine forUp_spec _ (fun k state => Carried result (n + k) (seg a 0 (n + k) + total) state) m h ?_
  intro k hk state hstate
  obtain ⟨state', hstep, hnext⟩ := hstate.step (by omega) (digit a (n + k))
  refine ⟨state', ?_, ?_⟩
  · rw [load_eq (by omega), ok_bind, hstep]
  · rw [← add_assoc, seg_succ, zero_add]
    convert hnext using 1
    push_cast
    ring

section

variable (ha : used ≤ a.length) (hb : otherUsed ≤ b.length) (hused : otherUsed ≤ used)

include ha hb hused

lemma absAdd_spec (hpos : 0 < otherUsed) (hres : used < result.length) :
    ∃ r, absAdd a used b otherUsed result = .ok r ∧ r.length = result.length ∧
      seg r 0 (used + 1) = seg a 0 used + seg b 0 otherUsed ∧
      ∀ k, used < k → digit r k = digit result k := by
  obtain ⟨state, hstate, hcarried⟩ := carryBoth_spec (fun d e => (d + e : ℤ)) 1 (by simp)
    (show otherUsed ≤ a.length by omega) hb (show otherUsed ≤ result.length by omega)
  obtain ⟨state', hstate', hcarried'⟩ := carryRest_spec hused ha (by omega) hcarried
  rw [one_mul] at hcarried'
  have hval := hcarried'.value
  have hlt := seg_lt state'.1 0 used
  have hA := seg_lt a 0 used
  have hB := seg_lt b 0 otherUsed
  have hBle : digitBase ^ otherUsed ≤ digitBase ^ used := Nat.pow_le_pow_right digitBase_pos hused
  -- The sum is below twice the weight of the carry.
  have hcarry : state'.2 = 0 ∨ state'.2 = 1 := by
    have h0 : -1 < state'.2 := by nlinarith
    have h1 : state'.2 < 2 := by nlinarith
    omega
  obtain ⟨c, hc, hclt⟩ : ∃ c : ℕ, state'.2 = c ∧ c < digitBase := by
    rcases hcarry with h | h
    · exact ⟨0, h, by decide⟩
    · exact ⟨1, h, by decide⟩
  obtain ⟨r, hr, hstored⟩ := store_digit (a := state'.1) (i := used)
    (by rw [hcarried'.length]; exact hres) hclt
  refine ⟨r, ?_, by rw [hstored.length, hcarried'.length], ?_, ?_⟩
  · rw [absAdd, check_of (by simpa using ⟨hused, hpos⟩), ok_bind, hstate, ok_bind, hstate', ok_bind,
      hc, hr]
  · rw [seg_succ, zero_add, hstored.here, hstored.seg_eq (.inr (by omega))]
    rw [hc] at hval
    exact_mod_cast hval
  · intro k hk
    rw [hstored.other k (by omega), hcarried'.others k (by omega)]

lemma absSub_spec (hpos : 0 < otherUsed) (hres : used ≤ result.length)
    (hle : seg b 0 otherUsed ≤ seg a 0 used) :
    ∃ r, absSub a used b otherUsed result = .ok r ∧ r.length = result.length ∧
      seg r 0 used = seg a 0 used - seg b 0 otherUsed ∧
      ∀ k, used ≤ k → digit r k = digit result k := by
  obtain ⟨state, hstate, hcarried⟩ := carryBoth_spec (fun d e => (d - e : ℤ)) (-1)
    (by intros; ring) (show otherUsed ≤ a.length by omega) hb
    (show otherUsed ≤ result.length by omega)
  obtain ⟨state', hstate', hcarried'⟩ := carryRest_spec hused ha hres hcarried
  refine ⟨state'.1, ?_, hcarried'.length, ?_, hcarried'.others⟩
  · rw [absSub, check_of (by simpa using ⟨hused, hpos⟩), ok_bind, hstate, ok_bind, hstate', ok_bind]
  · have hval := hcarried'.value
    have hlt := seg_lt state'.1 0 used
    have hA := seg_lt a 0 used
    -- The difference is a number of `used` digits, so nothing is borrowed in the end.
    have hcarry : state'.2 = 0 := by
      have h0 : -1 < state'.2 := by nlinarith
      have h1 : state'.2 < 1 := by nlinarith
      omega
    rw [hcarry, zero_mul, add_zero] at hval
    omega

end

end

open Checked Numerals Nat

/-- How many digits a function of this mode processes at once. -/
def Mode.width : Mode → ℕ
  | .digit => 1
  | .pair => 2

/-- How many digits are processed to the end of the last block. -/
def Mode.padded : Mode → ℕ → ℕ
  | .digit, n => n
  | .pair, n => n + n % 2

/-- Only the `n` digits from `s` on have changed. -/
structure Changed (a a' : Digits) (s n : ℕ) : Prop where
  length : a'.length = a.length
  others : ∀ k, k < s ∨ s + n ≤ k → digit a' k = digit a k

variable {a a' : Digits} {n : ℕ}

lemma Changed.seg_eq {s : ℕ} (h : Changed a a' s n) {t m : ℕ}
    (ht : t + m ≤ s ∨ s + n ≤ t) : seg a' t m = seg a t m :=
  segment_congr fun k hk => h.others (t + k) (by omega)

lemma Changed.refl (a : Digits) (s n : ℕ) : Changed a a s n := ⟨rfl, fun _ _ => rfl⟩

lemma Changed.append {a'' : Digits} {s m : ℕ} (h : Changed a a' s m)
    (h' : Changed a' a'' (s + m) n) : Changed a a'' s (m + n) := by
  refine ⟨by rw [h'.length, h.length], ?_⟩
  intro k hk
  rw [h'.others k (by omega), h.others k (by omega)]

variable {i : ℕ}

lemma Stored.changed {d : ℕ} (h : Stored a a' i d) : Changed a a' i 1 :=
  ⟨h.length, fun k hk => h.other k (by omega)⟩

lemma digitBase_sq : digitBase ^ 2 = 2 ^ 64 := by decide

lemma loadPair_eq (h : i + 1 < a.length) : loadPair a i = .ok (seg a i 2) := by
  rw [loadPair, load_eq (by omega), ok_bind, load_eq h, ok_bind, seg_succ, seg_one, pow_one]

lemma storePair_spec {v : ℕ} (h : i + 1 < a.length) (hv : v < 2 ^ 64) :
    ∃ a', storePair a i v = .ok a' ∧ Changed a a' i 2 ∧ seg a' i 2 = v := by
  have hhigh : v / digitBase < digitBase := by
    rw [div_lt_iff_lt_mul digitBase_pos, ← pow_two, digitBase_sq]
    exact hv
  obtain ⟨a1, ha1, hlow⟩ := store_digit (a := a) (i := i) (by omega) (mod_lt v digitBase_pos)
  obtain ⟨a2, ha2, hstored⟩ :=
    store_digit (a := a1) (i := i + 1) (by rw [hlow.length]; exact h) hhigh
  refine ⟨a2, ?_, hlow.changed.append hstored.changed, ?_⟩
  · rw [storePair, ha1, ok_bind, ha2]
  · rw [seg_succ, seg_one, pow_one, hstored.here, hstored.other i (by omega), hlow.here,
      mod_add_div']

/-- The first `k` digits of the product have been added, up to the carry. -/
structure Accumulated (m acc : Digits) (x i j k : ℕ) (state : Digits × ℕ) : Prop where
  changed : Changed acc state.1 j k
  value : seg state.1 j k + digitBase ^ k * state.2 = seg acc j k + x * seg m i k

lemma Accumulated.start (m acc : Digits) (x i j : ℕ) : Accumulated m acc x i j 0 (acc, 0) :=
  ⟨.refl .., by simp⟩

variable {state : Digits × ℕ}

lemma Accumulated.step {m acc a' : Digits} {x i j k w t : ℕ} (h : Accumulated m acc x i j k state)
    (ht : t = x * seg m (i + k) w + seg state.1 (j + k) w + state.2)
    (hchg : Changed state.1 a' (j + k) w) (hblock : seg a' (j + k) w = t % digitBase ^ w) :
    Accumulated m acc x i j (k + w) (a', t / digitBase ^ w) := by
  refine ⟨h.changed.append hchg, ?_⟩
  have hmod := mod_add_div t (digitBase ^ w)
  have hval := h.value
  rw [h.changed.seg_eq (.inr le_rfl)] at ht
  rw [seg_add, seg_add acc, seg_add m, hchg.seg_eq (.inl le_rfl), hblock, pow_add]
  calc seg state.1 j k + digitBase ^ k * (t % digitBase ^ w) +
        digitBase ^ k * digitBase ^ w * (t / digitBase ^ w)
      = seg state.1 j k + digitBase ^ k *
        (t % digitBase ^ w + digitBase ^ w * (t / digitBase ^ w)) := by
        ring
    _ = seg state.1 j k + digitBase ^ k * state.2 +
        digitBase ^ k * (x * seg m (i + k) w + seg acc (j + k) w) := by
        rw [hmod, ht]
        ring
    _ = seg acc j k + digitBase ^ k * seg acc (j + k) w +
        x * (seg m i k + digitBase ^ k * seg m (i + k) w) := by
        rw [hval]
        ring

variable {acc m : Digits} {j w : ℕ}

/-- The block above the product takes the carry when the sum fits. -/
lemma Accumulated.carry_lt {x : ℕ} (h : Accumulated m acc x i j n state)
    (hfits : seg acc j (n + w) + x * seg m i n < digitBase ^ (n + w)) :
    seg state.1 (j + n) w + state.2 < digitBase ^ w := by
  have hval := h.value
  rw [seg_add, ← h.changed.seg_eq (t := j + n) (.inr le_rfl), pow_add] at hfits
  refine Nat.lt_of_mul_lt_mul_left (a := digitBase ^ n) ?_
  calc digitBase ^ n * (seg state.1 (j + n) w + state.2)
      ≤ seg state.1 j n + digitBase ^ n * state.2 + digitBase ^ n * seg state.1 (j + n) w := by
        rw [mul_add]
        omega
    _ = seg acc j n + digitBase ^ n * seg state.1 (j + n) w + x * seg m i n := by
        rw [hval]
        ring
    _ < digitBase ^ n * digitBase ^ w := hfits

lemma Accumulated.finish {x : ℕ}
    (h : Accumulated m acc x i j n state) (hchg : Changed state.1 a' (j + n) w)
    (hblock : seg a' (j + n) w = seg state.1 (j + n) w + state.2) :
    Changed acc a' j (n + w) ∧ seg a' j (n + w) = seg acc j (n + w) + x * seg m i n := by
  refine ⟨h.changed.append hchg, ?_⟩
  have hval := h.value
  rw [seg_add, seg_add acc, hchg.seg_eq (.inl le_rfl), hblock, h.changed.seg_eq (.inr le_rfl),
    mul_add]
  omega

/-- The first block of an addition takes its part of the carry. -/
lemma carry_step {acc1 acc' : Digits} {r carry : ℕ} (hchanged1 : Changed acc acc1 j w)
    (hblock : seg acc1 j w = (seg acc j w + carry) % digitBase ^ w)
    (hchg : Changed acc1 acc' (j + w) r)
    (hval : seg acc' (j + w) r = seg acc1 (j + w) r + (seg acc j w + carry) / digitBase ^ w) :
    Changed acc acc' j (w + r) ∧ seg acc' j (w + r) = seg acc j (w + r) + carry := by
  refine ⟨hchanged1.append hchg, ?_⟩
  have hmod := mod_add_div (seg acc j w + carry) (digitBase ^ w)
  rw [seg_add, seg_add acc, hchg.seg_eq (.inl le_rfl), hblock, hval,
    hchanged1.seg_eq (.inr le_rfl), mul_add]
  omega

lemma carry_fits {r carry : ℕ} (h : seg acc j (w + r) + carry < digitBase ^ (w + r)) :
    seg acc (j + w) r + (seg acc j w + carry) / digitBase ^ w < digitBase ^ r := by
  have hle : digitBase ^ w * ((seg acc j w + carry) / digitBase ^ w) ≤ seg acc j w + carry :=
    mul_div_le ..
  rw [seg_add, pow_add] at h
  refine Nat.lt_of_mul_lt_mul_left (a := digitBase ^ w) ?_
  rw [mul_add]
  omega

/-- The products of the halves add up to the product. -/
lemma mulAddStep_eq (x m d carry : ℕ) :
    mulAddStep x m d carry =
      ((x * m + d + carry) % digitBase, (x * m + d + carry) / digitBase) := by
  simp only [mulAddStep, halfDigitMask, digitMask, and_two_pow_sub_one_eq_mod,
    shiftRight_eq_div_pow, shiftLeft_eq]
  rw [show 2 ^ 32 = digitBase from rfl]
  have hx := div_add_mod x (2 ^ 16)
  have hm := div_add_mod m (2 ^ 16)
  have hph := div_add_mod (x / 2 ^ 16 * (m % 2 ^ 16) + m / 2 ^ 16 * (x % 2 ^ 16)) (2 ^ 16)
  generalize x / 2 ^ 16 = xh at *
  generalize x % 2 ^ 16 = xl at *
  generalize m / 2 ^ 16 = mh at *
  generalize m % 2 ^ 16 = ml at *
  generalize (xh * ml + mh * xl) / 2 ^ 16 = high at *
  generalize (xh * ml + mh * xl) % 2 ^ 16 = low at *
  have hsum : x * m + d + carry =
      xl * ml + low * 2 ^ 16 + d + carry + digitBase * (high + xh * mh) := by
    have hbase : digitBase = 2 ^ 16 * 2 ^ 16 := by decide
    rw [← hx, ← hm, hbase]
    calc (2 ^ 16 * xh + xl) * (2 ^ 16 * mh + ml) + d + carry
        = xl * ml + (xh * ml + mh * xl) * 2 ^ 16 + d + carry + 2 ^ 16 * 2 ^ 16 * (xh * mh) := by
          ring
      _ = _ := by
          rw [← hph]
          ring
  rw [hsum, add_mul_mod_self_left, add_mul_div_left _ _ digitBase_pos, ← add_assoc]

lemma addCarryDigit_spec (r : ℕ) {fuel j carry : ℕ} {acc : Digits} (hj : j + r ≤ acc.length)
    (hfits : seg acc j r + carry < digitBase ^ r) (hfuel : r < fuel) :
    ∃ acc', addCarryDigit fuel acc j carry = .ok acc' ∧ Changed acc acc' j r ∧
      seg acc' j r = seg acc j r + carry := by
  induction r generalizing fuel j carry acc with
  | zero =>
    obtain ⟨fuel, rfl⟩ := Nat.exists_eq_add_of_lt hfuel
    have hzero : carry = 0 := by
      rw [seg_zero, pow_zero] at hfits
      omega
    refine ⟨acc, ?_, .refl .., by omega⟩
    rw [addCarryDigit, if_pos hzero]
  | succ r ih =>
    obtain ⟨fuel, rfl⟩ := Nat.exists_eq_add_of_lt hfuel
    rw [addCarryDigit]
    split_ifs with hzero
    · exact ⟨acc, rfl, .refl .., by omega⟩
    · obtain ⟨acc1, hacc1, hstored⟩ := store_digit (a := acc) (i := j) (by omega)
        (mod_lt (digit acc j + carry) digitBase_pos)
      rw [add_comm r 1] at hfits ⊢
      have hfits1 := carry_fits hfits
      rw [← hstored.changed.seg_eq (.inr le_rfl), seg_one, pow_one] at hfits1
      obtain ⟨acc', hacc', hchg, hval⟩ := @ih (1 + r + fuel) _ _ _
        (by rw [hstored.length]; omega) hfits1 (by omega)
      refine ⟨acc', ?_, carry_step hstored.changed ?_ hchg ?_⟩
      · rw [load_eq (by omega), ok_bind]
        dsimp only
        rw [digitMask, and_two_pow_sub_one_eq_mod, show 2 ^ 32 = digitBase from rfl, hacc1, ok_bind,
          shiftRight_eq_div_pow]
        exact hacc'
      · rw [seg_one, seg_one, pow_one, hstored.here]
      · rw [hval, seg_one, pow_one]

variable {xs : Digits} {xIndex : ℕ}

lemma mulAddDigit_spec (r : ℕ) (hx : xIndex < xs.length)
    (hm : i + n ≤ m.length) (hacc : j + (n + r) ≤ acc.length)
    (hfits : seg acc j (n + r) + seg xs xIndex 1 * seg m i n < digitBase ^ (n + r)) :
    ∃ acc', mulAddDigit xs xIndex m i acc j n = .ok (1, acc') ∧ Changed acc acc' j (n + r) ∧
      seg acc' j (n + r) = seg acc j (n + r) + seg xs xIndex 1 * seg m i n := by
  rw [mulAddDigit, load_eq hx, ok_bind]
  rw [seg_one] at *
  split_ifs with hzero
  · exact ⟨acc, rfl, .refl .., by simp [hzero]⟩
  · have hloop := forUp_spec (fun k state => do
        let md ← load m (i + k)
        let d ← load state.1 (j + k)
        let acc ← store state.1 (j + k) (mulAddStep (digit xs xIndex) md d state.2).1
        .ok (acc, (mulAddStep (digit xs xIndex) md d state.2).2))
      (Accumulated m acc (digit xs xIndex) i j) n (s := (acc, 0)) (.start ..) ?_
    · obtain ⟨state, hstate, haccumulated⟩ := hloop
      have hlen := haccumulated.changed.length
      obtain ⟨acc', hacc', hchg, hval⟩ := @addCarryDigit_spec r (acc.length + 1) _ _ _
        (by omega) (haccumulated.carry_lt hfits) (by omega)
      refine ⟨acc', ?_, haccumulated.finish hchg hval⟩
      rw [hstate, ok_bind, hacc', ok_bind]
    · intro k hk state haccumulated
      have hlen := haccumulated.changed.length
      obtain ⟨acc', hacc', hstored⟩ := store_digit (a := state.1) (i := j + k) (by omega)
        (mod_lt (digit xs xIndex * digit m (i + k) + digit state.1 (j + k) + state.2)
          digitBase_pos)
      refine ⟨_, ?_, haccumulated.step (w := 1) rfl hstored.changed ?_⟩
      · rw [load_eq (by omega), ok_bind, load_eq (by omega), ok_bind, mulAddStep_eq, hacc', ok_bind,
          seg_one, seg_one, pow_one]
      · rw [seg_one, seg_one, seg_one, hstored.here, pow_one]

lemma addCarryPair_spec (r : ℕ) {fuel j carry : ℕ} {acc : Digits}
    (hj : j + 2 * r ≤ acc.length) (hfits : seg acc j (2 * r) + carry < digitBase ^ (2 * r))
    (hfuel : r < fuel) :
    ∃ acc', addCarryPair fuel acc j carry = .ok acc' ∧ Changed acc acc' j (2 * r) ∧
      seg acc' j (2 * r) = seg acc j (2 * r) + carry := by
  induction r generalizing fuel j carry acc with
  | zero =>
    obtain ⟨fuel, rfl⟩ := Nat.exists_eq_add_of_lt hfuel
    have hzero : carry = 0 := by
      rw [mul_zero, seg_zero, pow_zero] at hfits
      omega
    refine ⟨acc, ?_, .refl .., by omega⟩
    rw [addCarryPair, if_pos hzero]
  | succ r ih =>
    obtain ⟨fuel, rfl⟩ := Nat.exists_eq_add_of_lt hfuel
    rw [addCarryPair]
    split_ifs with hzero
    · exact ⟨acc, rfl, .refl .., by omega⟩
    · obtain ⟨acc1, hacc1, hchanged1, hpair⟩ := storePair_spec (a := acc) (i := j) (by omega)
        (Nat.mod_lt (seg acc j 2 + carry) (Nat.two_pow_pos 64))
      rw [show 2 * (r + 1) = 2 + 2 * r by omega] at hfits ⊢
      have hfits1 := carry_fits hfits
      rw [← hchanged1.seg_eq (.inr le_rfl)] at hfits1
      obtain ⟨acc', hacc', hchg, hval⟩ := @ih (r + 1 + fuel) _ _ _
        (by rw [hchanged1.length]; omega) hfits1 (by omega)
      refine ⟨acc', ?_, carry_step hchanged1 (by rw [hpair, digitBase_sq]) hchg hval⟩
      rw [loadPair_eq (by omega), ok_bind]
      dsimp only
      rw [hacc1, ok_bind, ← digitBase_sq]
      exact hacc'

lemma mulAddPair_spec (r : ℕ) (hx : xIndex + 1 < xs.length)
    (heven : n % 2 = 0) (hm : i + n ≤ m.length) (hacc : j + (n + 2 * r) ≤ acc.length)
    (hfits : seg acc j (n + 2 * r) + seg xs xIndex 2 * seg m i n < digitBase ^ (n + 2 * r)) :
    ∃ acc', mulAddPair xs xIndex m i acc j n = .ok (2, acc') ∧ Changed acc acc' j (n + 2 * r) ∧
      seg acc' j (n + 2 * r) = seg acc j (n + 2 * r) + seg xs xIndex 2 * seg m i n := by
  rw [mulAddPair, loadPair_eq hx, ok_bind]
  split_ifs with hzero
  · refine ⟨acc, rfl, .refl .., ?_⟩
    rcases hzero with hzero | hzero
    · simp [hzero]
    · simp [hzero]
  · dsimp only
    have hloop := forUp_spec (fun k state => do
        let md ← loadPair m (i + 2 * k)
        let a ← loadPair state.1 (j + 2 * k)
        let acc ← storePair state.1 (j + 2 * k) ((seg xs xIndex 2 * md + a + state.2) % 2 ^ 64)
        .ok (acc, (seg xs xIndex 2 * md + a + state.2) / 2 ^ 64))
      (fun k => Accumulated m acc (seg xs xIndex 2) i j (2 * k)) ((n + 1) / 2) (s := (acc, 0))
      (.start ..) ?_
    · obtain ⟨state, hstate, haccumulated⟩ := hloop
      rw [show 2 * ((n + 1) / 2) = n by omega] at *
      have hlen := haccumulated.changed.length
      obtain ⟨acc', hacc', hchg, hpair⟩ := @addCarryPair_spec r (acc.length + 1) _ _ _
        (by omega) (haccumulated.carry_lt hfits) (by omega)
      refine ⟨acc', ?_, haccumulated.finish hchg hpair⟩
      rw [hstate, ok_bind, hacc', ok_bind]
    · intro k hk state haccumulated
      have hlen := haccumulated.changed.length
      obtain ⟨acc', hacc', hchg, hpair⟩ := storePair_spec (a := state.1) (i := j + 2 * k)
        (by omega) (Nat.mod_lt (seg xs xIndex 2 * seg m (i + 2 * k) 2 +
          seg state.1 (j + 2 * k) 2 + state.2) (Nat.two_pow_pos 64))
      refine ⟨_, ?_, haccumulated.step (w := 2) rfl hchg hpair⟩
      rw [loadPair_eq (by omega), ok_bind, loadPair_eq (by omega), ok_bind, hacc', ok_bind,
        digitBase_sq]

lemma mulAddPair_padded (xs : Digits) (xIndex : ℕ) (m : Digits) (i : ℕ) (acc : Digits) (j n : ℕ) :
    mulAddPair xs xIndex m i acc j n = mulAddPair xs xIndex m i acc j (n + n % 2) := by
  have hpairs : (n + 1) / 2 = (n + n % 2 + 1) / 2 := by omega
  have hzero : n = 0 ↔ n + n % 2 = 0 := by omega
  simp only [mulAddPair, ← hpairs, ← hzero]

lemma mulAdd_carry_spec (mode : Mode) (r : ℕ) {xs m acc : Digits} {xIndex i j n : ℕ}
    (hx : xIndex + mode.width ≤ xs.length) (hm : i + mode.padded n ≤ m.length)
    (hacc : j + (mode.padded n + mode.width * r) ≤ acc.length)
    (hfits : seg acc j (mode.padded n + mode.width * r) +
      seg xs xIndex mode.width * seg m i (mode.padded n) <
        digitBase ^ (mode.padded n + mode.width * r)) :
    ∃ acc', mulAdd mode xs xIndex m i acc j n = .ok (mode.width, acc') ∧
      Changed acc acc' j (mode.padded n + mode.width * r) ∧
      seg acc' j (mode.padded n + mode.width * r) = seg acc j (mode.padded n + mode.width * r) +
        seg xs xIndex mode.width * seg m i (mode.padded n) := by
  cases mode with
  | digit =>
    simp only [Mode.width, Mode.padded, one_mul] at *
    exact mulAddDigit_spec r hx hm hacc hfits
  | pair =>
    rw [mulAdd, mulAddPair_padded]
    exact mulAddPair_spec r hx (by omega) hm hacc hfits

lemma Mode.padded_of_even (mode : Mode) (h : n % 2 = 0) : mode.padded n = n := by
  cases mode with
  | digit => rfl
  | pair => rw [Mode.padded, h, add_zero]

end DartSdk.BigInts
