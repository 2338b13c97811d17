import DartSdk.BigIntDivision

/-!
The class `_BigIntImpl` of runtime/lib/bigint_patch.dart. An object refers to an array of digits on
the heap. An array that an operator fills is local to it until the operator creates an object of
it, and two objects may refer to one array. The static fields are the constants at the beginning of
the heap and the cache of the last division. A normalized object denotes an integer in every world
whose heap extends its own; negation, addition and subtraction yield the integers they should.
-/

namespace DartSdk.BigInts

open Checked Executions

inductive Error
  | failure (f : Failure)
  | argumentError
  | rangeError
  | integerDivisionByZero
  deriving DecidableEq

structure BigIntImpl where
  isNegative : Bool
  used : ℕ
  /-- The position of the array on the heap, its identity. -/
  digits : ℕ
  deriving DecidableEq

/-- The operands and the result of the last `_divRem`. -/
structure Cache where
  dividendDigits : ℕ
  dividendUsed : ℕ
  divisorDigits : ℕ
  divisorUsed : ℕ
  quoRem : QuoRem

structure World where
  heap : List Digits
  cache : Option Cache

abbrev Exec (α : Type) := StateT World (Except Error) α

/-- A function on digits as a part of an operator. -/
def digitwise {α : Type} (r : Result α) : Exec α := lift .failure r

def readDigits (reference : ℕ) : Exec Digits := do
  let w ← get
  match w.heap[reference]? with
  | some d => pure d
  | none => throw (.failure .outOfBounds)

def newArray (d : Digits) : Exec ℕ := do
  let w ← get
  set { w with heap := w.heap ++ [d] }
  pure w.heap.length

def initial : World where
  heap := [[0, 0], [1, 0], [1000000000, 0]]
  cache := none

def zero : BigIntImpl := ⟨false, 0, 0⟩
def one : BigIntImpl := ⟨false, 1, 1⟩
/-- `-one`, which shares the digits of `one`. -/
def minusOne : BigIntImpl := ⟨true, 1, 1⟩
def oneBillion : BigIntImpl := ⟨false, 1, 2⟩

/-- The normalization and the assertions of the constructors. -/
def normalizedUsed (digits : Digits) (used : ℕ) : Result ℕ := do
  let used ← normalize digits used
  check (digits.length % 2 = 0)
  if used % 2 = 0 then .ok used
  else do
    let top ← load digits used
    check (top = 0)
    .ok used

/-- `new _BigIntImpl._` on an array that an object has already. -/
def createShared (isNegative : Bool) (used reference : ℕ) : Exec BigIntImpl := do
  let digits ← readDigits reference
  let used ← digitwise (normalizedUsed digits used)
  pure ⟨if used = 0 then false else isNegative, used, reference⟩

def create (isNegative : Bool) (used : ℕ) (digits : Digits) : Exec BigIntImpl := do
  let reference ← newArray digits
  createShared isNegative used reference

def minInt : ℤ := -0x8000000000000000

def fromInt (value : ℤ) : Exec BigIntImpl := do
  if value = minInt then do
    let digits ← digitwise (store (newDigits 2) 1 0x80000000)
    create true 2 digits
  else if value.natAbs < digitBase then do
    let digits ← digitwise (store (newDigits 2) 0 value.natAbs)
    create (value < 0) 1 digits
  else do
    let digits ← digitwise (store (newDigits 2) 0 (value.natAbs &&& digitMask : ℕ))
    let digits ← digitwise (store digits 1 (value.natAbs >>> digitBits : ℕ))
    create (value < 0) 2 digits

/-- `operator -()`. -/
def negate (a : BigIntImpl) : Exec BigIntImpl :=
  if a.used = 0 then pure a else createShared (!a.isNegative) a.used a.digits

def abs (a : BigIntImpl) : Exec BigIntImpl := if a.isNegative then negate a else pure a

def absCompare (a b : BigIntImpl) : Exec ℤ := do
  let digits ← readDigits a.digits
  let otherDigits ← readDigits b.digits
  digitwise (compareDigits digits a.used otherDigits b.used)

def compareTo (a b : BigIntImpl) : Exec ℤ :=
  if a.isNegative = b.isNegative then do
    let result ← absCompare a b
    pure (if a.isNegative then 0 - result else result)
  else pure (if a.isNegative then -1 else 1)

/-- `_absAddSetSign` when the other number does not have more digits. -/
def absAddLongest (a b : BigIntImpl) (isNegative : Bool) : Exec BigIntImpl :=
  if a.used = 0 then do
    digitwise (check !isNegative)
    pure zero
  else if b.used = 0 then
    if a.isNegative = isNegative then pure a else negate a
  else do
    let digits ← readDigits a.digits
    let otherDigits ← readDigits b.digits
    let result ← digitwise (absAdd digits a.used otherDigits b.used (newDigits (a.used + 1)))
    create isNegative (a.used + 1) result

def absAddSetSign (a b : BigIntImpl) (isNegative : Bool) : Exec BigIntImpl :=
  if a.used < b.used then absAddLongest b a isNegative else absAddLongest a b isNegative

def absSubSetSign (a b : BigIntImpl) (isNegative : Bool) : Exec BigIntImpl := do
  let order ← absCompare a b
  digitwise (check (0 ≤ order))
  if a.used = 0 then do
    digitwise (check !isNegative)
    pure zero
  else if b.used = 0 then
    if a.isNegative = isNegative then pure a else negate a
  else do
    let digits ← readDigits a.digits
    let otherDigits ← readDigits b.digits
    let result ← digitwise (absSub digits a.used otherDigits b.used (newDigits a.used))
    create isNegative a.used result

/-- The difference of the absolute values, with the sign of the larger one. -/
def absDifference (a b : BigIntImpl) : Exec BigIntImpl := do
  let order ← absCompare a b
  if 0 ≤ order then absSubSetSign a b a.isNegative else absSubSetSign b a !a.isNegative

/-- `operator +`. -/
def plus (a b : BigIntImpl) : Exec BigIntImpl :=
  if a.used = 0 then pure b
  else if b.used = 0 then pure a
  else if a.isNegative = b.isNegative then absAddSetSign a b a.isNegative
  else absDifference a b

/-- `operator -`. -/
def minusOp (a b : BigIntImpl) : Exec BigIntImpl :=
  if a.used = 0 then negate b
  else if b.used = 0 then pure a
  else if a.isNegative ≠ b.isNegative then absAddSetSign a b a.isNegative
  else absDifference a b

def dlShift (a : BigIntImpl) (n : ℕ) : Exec BigIntImpl :=
  if a.used = 0 then pure zero
  else do
    let digits ← readDigits a.digits
    let result ← digitwise (forDown a.used (fun i result => do
      let d ← load digits i
      store result (i + n) d) (newDigits (a.used + n)))
    create a.isNegative (a.used + n) result

/-- `operator <<`. -/
def shiftLeft (a : BigIntImpl) (shiftAmount : ℤ) : Exec BigIntImpl :=
  if shiftAmount < 0 then throw .argumentError
  else if a.used = 0 then pure a
  else
    let n := shiftAmount.toNat
    if n % digitBits = 0 then dlShift a (n / digitBits)
    else do
      let digits ← readDigits a.digits
      let resultUsed := a.used + n / digitBits + 1
      let result ← digitwise (lsh digits a.used n (newDigits (resultUsed + 1)))
      create a.isNegative resultUsed result

/-- Whether one of the lower digits is not zero. -/
def someNonZero (digits : Digits) : ℕ → Result Bool
  | 0 => .ok false
  | n + 1 => do
      let found ← someNonZero digits n
      if found then .ok true
      else do
        let d ← load digits n
        .ok (d ≠ 0)

def drShift (a : BigIntImpl) (n : ℕ) : Exec BigIntImpl :=
  if a.used = 0 then pure zero
  else if a.used ≤ n then pure (if a.isNegative then minusOne else zero)
  else do
    let digits ← readDigits a.digits
    let result ← digitwise (forUp (a.used - n) (fun i result => do
      let d ← load digits (n + i)
      store result i d) (newDigits (a.used - n)))
    let result ← create a.isNegative (a.used - n) result
    if a.isNegative then do
      let dropped ← digitwise (someNonZero digits n)
      if dropped then minusOp result one else pure result
    else pure result

/-- `operator >>`. -/
def shiftRight (a : BigIntImpl) (shiftAmount : ℤ) : Exec BigIntImpl :=
  if shiftAmount < 0 then throw .argumentError
  else if a.used = 0 then pure a
  else
    let n := shiftAmount.toNat
    let digitShift := n / digitBits
    let bitShift := n % digitBits
    if bitShift = 0 then drShift a digitShift
    else if a.used ≤ digitShift then pure (if a.isNegative then minusOne else zero)
    else do
      let digits ← readDigits a.digits
      let result ← digitwise (rsh digits a.used n (newDigits (a.used - digitShift)))
      let result ← create a.isNegative (a.used - digitShift) result
      if a.isNegative then do
        let d ← digitwise (load digits digitShift)
        if d &&& (1 <<< bitShift - 1) ≠ 0 then minusOp result one
        else do
          let dropped ← digitwise (someNonZero digits digitShift)
          if dropped then minusOp result one else pure result
      else pure result

/-- `_divRem`, which keeps its result for the next call. -/
def divRem (mode : Mode) (a b : BigIntImpl) : Exec QuoRem := do
  let w ← get
  match w.cache with
  | some c =>
    if a.used = c.dividendUsed ∧ b.used = c.divisorUsed ∧ a.digits = c.dividendDigits ∧
        b.digits = c.divisorDigits then pure c.quoRem
    else divRemCompute mode a b
  | none => divRemCompute mode a b
where
  divRemCompute (mode : Mode) (a b : BigIntImpl) : Exec QuoRem := do
    let digits ← readDigits a.digits
    let otherDigits ← readDigits b.digits
    let quoRem ← digitwise (divRemDigits mode digits a.used otherDigits b.used)
    let w ← get
    set { w with cache := some ⟨a.digits, a.used, b.digits, b.used, quoRem⟩ }
    pure quoRem

def div (mode : Mode) (a b : BigIntImpl) : Exec BigIntImpl := do
  digitwise (check (0 < b.used))
  if a.used < b.used then pure zero
  else do
    let last ← divRem mode a b
    let lastQuoUsed := last.used - last.remUsed
    let digits ← digitwise (cloneDigits last.digits last.remUsed last.used lastQuoUsed)
    let quo ← create false lastQuoUsed digits
    if a.isNegative ≠ b.isNegative ∧ 0 < quo.used then negate quo else pure quo

def rem (mode : Mode) (a b : BigIntImpl) : Exec BigIntImpl := do
  digitwise (check (0 < b.used))
  if a.used < b.used then pure a
  else do
    let last ← divRem mode a b
    let digits ← digitwise (cloneDigits last.digits 0 last.remUsed last.remUsed)
    let rem ← create false last.remUsed digits
    let rem ← denormalize rem last.nsh
    if a.isNegative ∧ 0 < rem.used then negate rem else pure rem
where
  denormalize (rem : BigIntImpl) (nsh : ℕ) : Exec BigIntImpl :=
    if 0 < nsh then shiftRight rem nsh else pure rem

/-- `operator ~/`. -/
def quotient (mode : Mode) (a b : BigIntImpl) : Exec BigIntImpl :=
  if b.used = 0 then throw .integerDivisionByZero else div mode a b

def remainder (mode : Mode) (a b : BigIntImpl) : Exec BigIntImpl :=
  if b.used = 0 then throw .integerDivisionByZero else rem mode a b

/-- `operator %`. -/
def modulo (mode : Mode) (a b : BigIntImpl) : Exec BigIntImpl :=
  if b.used = 0 then throw .integerDivisionByZero
  else do
    let result ← rem mode a b
    if result.isNegative then
      if b.isNegative then minusOp result b else plus result b
    else pure result

def times (mode : Mode) (a b : BigIntImpl) : Exec BigIntImpl :=
  if a.used = 0 ∨ b.used = 0 then pure zero
  else do
    let digits ← readDigits a.digits
    let otherDigits ← readDigits b.digits
    let resultUsed := a.used + b.used
    let result ← digitwise
      (mulLoop mode digits a.used otherDigits b.used (b.used + 1) 0 (newDigits resultUsed))
    create (a.isNegative != b.isNegative) resultUsed result

/-- `while (exponent != 0)` of `pow`. Every step halves the exponent. -/
def powLoop (mode : Mode) : ℕ → ℕ → BigIntImpl → BigIntImpl → Exec BigIntImpl
  | 0, _, _, _ => throw (.failure .diverges)
  | fuel + 1, exponent, result, base =>
    if exponent = 0 then pure result
    else do
      let result ← multiplyOdd exponent result base
      let exponent := exponent >>> 1
      let base ← square exponent base
      powLoop mode fuel exponent result base
where
  multiplyOdd (exponent : ℕ) (result base : BigIntImpl) : Exec BigIntImpl :=
    if exponent &&& 1 = 1 then times mode result base else pure result
  -- the last squaring is skipped
  square (exponent : ℕ) (base : BigIntImpl) : Exec BigIntImpl :=
    if exponent ≠ 0 then times mode base base else pure base

def pow (mode : Mode) (a : BigIntImpl) (exponent : ℤ) : Exec BigIntImpl :=
  if exponent < 0 then throw .argumentError
  else if exponent = 0 then pure one
  else powLoop mode (exponent.toNat + 1) exponent.toNat one a

def absAndSetSign (a b : BigIntImpl) (isNegative : Bool) : Exec BigIntImpl := do
  let resultUsed := min a.used b.used
  let digits ← readDigits a.digits
  let otherDigits ← readDigits b.digits
  let result ← digitwise
    (combineDigits (· &&& ·) digits otherDigits resultUsed (newDigits resultUsed))
  create isNegative resultUsed result

/-- The complement of a digit is only used within the bits of another one. -/
def absAndNotSetSign (a b : BigIntImpl) (isNegative : Bool) : Exec BigIntImpl := do
  let resultUsed := a.used
  let digits ← readDigits a.digits
  let otherDigits ← readDigits b.digits
  let m := min resultUsed b.used
  let result ← digitwise (combineDigits Nat.ldiff digits otherDigits m (newDigits resultUsed))
  let result ← digitwise (copyDigits digits m resultUsed result)
  create isNegative resultUsed result

/-- `_absOrSetSign` and `_absXorSetSign`, which keep the digits of the longer operand. -/
def absCombineSetSign (f : ℕ → ℕ → ℕ) (a b : BigIntImpl) (isNegative : Bool) : Exec BigIntImpl := do
  let resultUsed := max a.used b.used
  let digits ← readDigits a.digits
  let otherDigits ← readDigits b.digits
  let m := if a.used < b.used then a.used else b.used
  let lDigits := if a.used < b.used then otherDigits else digits
  let result ← digitwise (combineDigits f digits otherDigits m (newDigits resultUsed))
  let result ← digitwise (copyDigits lDigits m resultUsed result)
  create isNegative resultUsed result

def absOrSetSign (a b : BigIntImpl) (isNegative : Bool) : Exec BigIntImpl :=
  absCombineSetSign (· ||| ·) a b isNegative

def absXorSetSign (a b : BigIntImpl) (isNegative : Bool) : Exec BigIntImpl :=
  absCombineSetSign (· ^^^ ·) a b isNegative

def and (a b : BigIntImpl) : Exec BigIntImpl :=
  if a.used = 0 ∨ b.used = 0 then pure zero
  else if a.isNegative = b.isNegative then
    if a.isNegative then do
      let this1 ← absSubSetSign a one true
      let other1 ← absSubSetSign b one true
      let result ← absOrSetSign this1 other1 true
      absAddSetSign result one true
    else absAndSetSign a b false
  else do
    let p := if a.isNegative then b else a
    let n := if a.isNegative then a else b
    let n1 ← absSubSetSign n one false
    absAndNotSetSign p n1 false

def or (a b : BigIntImpl) : Exec BigIntImpl :=
  if a.used = 0 then pure b
  else if b.used = 0 then pure a
  else if a.isNegative = b.isNegative then
    if a.isNegative then do
      let this1 ← absSubSetSign a one true
      let other1 ← absSubSetSign b one true
      let result ← absAndSetSign this1 other1 true
      absAddSetSign result one true
    else absOrSetSign a b false
  else do
    let p := if a.isNegative then b else a
    let n := if a.isNegative then a else b
    let n1 ← absSubSetSign n one true
    let result ← absAndNotSetSign n1 p true
    absAddSetSign result one true

def xor (a b : BigIntImpl) : Exec BigIntImpl :=
  if a.used = 0 then pure b
  else if b.used = 0 then pure a
  else if a.isNegative = b.isNegative then
    if a.isNegative then do
      let this1 ← absSubSetSign a one true
      let other1 ← absSubSetSign b one true
      absXorSetSign this1 other1 false
    else absXorSetSign a b false
  else do
    let p := if a.isNegative then b else a
    let n := if a.isNegative then a else b
    let n1 ← absSubSetSign n one true
    let result ← absXorSetSign p n1 true
    absAddSetSign result one true

def not (a : BigIntImpl) : Exec BigIntImpl :=
  if a.used = 0 then pure minusOne
  else if a.isNegative then absSubSetSign a one false
  else absAddSetSign a one true

def toUnsigned (a : BigIntImpl) (width : ℤ) : Exec BigIntImpl := do
  let power ← shiftLeft one width
  let mask ← minusOp power one
  and a mask

def toSigned (a : BigIntImpl) (width : ℤ) : Exec BigIntImpl := do
  let signMask ← shiftLeft one (width - 1)
  let mask ← minusOp signMask one
  let low ← and a mask
  let sign ← and a signMask
  minusOp low sign

open Numerals

section

def signed (isNegative : Bool) (n : ℕ) : ℤ := if isNegative then -n else n

@[simp] lemma natAbs_signed (isNegative : Bool) (n : ℕ) : (signed isNegative n).natAbs = n := by
  cases isNegative <;> simp [signed]

@[simp] lemma signed_zero (isNegative : Bool) : signed isNegative 0 = 0 := by
  cases isNegative <;> rfl

lemma neg_signed (isNegative : Bool) (n : ℕ) : -signed isNegative n = signed (!isNegative) n := by
  cases isNegative <;> simp [signed]

/-- Digits that a normalized object may refer to. -/
structure Normal (d : Digits) (used : ℕ) : Prop where
  trimmed : Trimmed d used
  even : d.length % 2 = 0
  padded : used % 2 = 1 → digit d used = 0

/-- The object is normalized and refers to the digits. -/
structure Object (w : World) (a : BigIntImpl) (d : Digits) : Prop where
  digits : w.heap[a.digits]? = some d
  normal : Normal d a.used
  sign : a.used = 0 → a.isNegative = false

def Denotes (w : World) (a : BigIntImpl) (x : ℤ) : Prop :=
  ∃ d, Object w a d ∧ x = signed a.isNegative (seg d 0 a.used)

/-- What `_divRem` returns for a dividend and a divisor. -/
structure Divides (x y : ℕ) (qr : QuoRem) : Prop where
  bound : qr.used ≤ qr.digits.length
  remUsed : qr.remUsed < qr.used
  remainder : seg qr.digits 0 qr.remUsed = 2 ^ qr.nsh * (x % y)
  quotient : seg qr.digits qr.remUsed (qr.used - qr.remUsed) = x / y

/-- The constants are in place and the cache holds the quotient and remainder of its operands. -/
structure Consistent (w : World) : Prop where
  zero : w.heap[0]? = some [0, 0]
  one : w.heap[1]? = some [1, 0]
  oneBillion : w.heap[2]? = some [1000000000, 0]
  cache : ∀ c, w.cache = some c → ∃ d e, w.heap[c.dividendDigits]? = some d ∧
    w.heap[c.divisorDigits]? = some e ∧
    Divides (seg d 0 c.dividendUsed) (seg e 0 c.divisorUsed) c.quoRem

/-- No array of the heap is changed, and the new world is consistent. -/
structure Grows (w w' : World) : Prop where
  heap : w.heap <+: w'.heap
  consistent : Consistent w'

def Yields (m : Exec BigIntImpl) (w : World) (x : ℤ) : Prop :=
  Returns m w fun a w' => Grows w w' ∧ Denotes w' a x

variable {w w' : World} {a b : BigIntImpl} {x y : ℤ} {d e : Digits}

lemma getElem?_of_extension {l l' : List Digits} {i : ℕ} (h : l <+: l') (hd : l[i]? = some d) :
    l'[i]? = some d := by
  obtain ⟨rest, rfl⟩ := h
  rw [List.getElem?_append_left ((List.getElem?_eq_some_iff.mp hd).1), hd]

lemma Grows.refl (hw : Consistent w) : Grows w w := ⟨List.prefix_refl _, hw⟩

lemma Grows.trans {w'' : World} (h : Grows w w') (h' : Grows w' w'') : Grows w w'' :=
  ⟨h.heap.trans h'.heap, h'.consistent⟩

lemma Object.grows (h : Object w a d) (hw : Grows w w') : Object w' a d :=
  ⟨getElem?_of_extension hw.heap h.digits, h.normal, h.sign⟩

lemma Denotes.grows (h : Denotes w a x) (hw : Grows w w') : Denotes w' a x := by
  obtain ⟨d, hd, rfl⟩ := h
  exact ⟨d, hd.grows hw, rfl⟩

lemma Object.used_eq_zero_iff (h : Object w a d) : a.used = 0 ↔ seg d 0 a.used = 0 := by
  constructor
  · intro hzero
    rw [hzero, seg_zero]
  · intro hzero
    by_contra hused
    have hle := pow_le_seg (Nat.pos_of_ne_zero hused)
      (h.normal.trimmed.top (Nat.pos_of_ne_zero hused))
    have := Nat.pow_pos (n := a.used - 1) digitBase_pos
    omega

lemma initial_consistent : Consistent initial := ⟨rfl, rfl, rfl, by simp [initial]⟩

section

variable {α β : Type} {P : β → World → Prop}

lemma readDigits_eq {reference : ℕ} (hd : w.heap[reference]? = some d) :
    readDigits reference w = .ok (d, w) := by
  change (match w.heap[reference]? with
    | some d => pure d
    | none => throw (Error.failure .outOfBounds) : Exec Digits) w = _
  rw [hd]
  rfl

lemma Returns.readDigits {f : Digits → Exec β} {reference : ℕ}
    (hd : w.heap[reference]? = some d) (h : Returns (f d) w P) :
    Returns (BigInts.readDigits reference >>= f) w P := by
  refine Returns.bind (P := fun d' w' => d' = d ∧ w' = w) ⟨d, w, readDigits_eq hd, rfl, rfl⟩ ?_
  rintro _ _ ⟨rfl, rfl⟩
  exact h

lemma Returns.digitwise {f : α → Exec β} {r : Result α} {v : α} (hr : r = .ok v)
    (h : Returns (f v) w P) : Returns (BigInts.digitwise r >>= f) w P := by
  refine Returns.bind (P := fun v' w' => v' = v ∧ w' = w) (Returns.lift hr ⟨rfl, rfl⟩) ?_
  rintro _ _ ⟨rfl, rfl⟩
  exact h

end

lemma normalizedUsed_spec {used : ℕ} (hused : used ≤ d.length) (heven : d.length % 2 = 0)
    (hpadded : used % 2 = 1 → digit d used = 0) :
    ∃ u, normalizedUsed d used = .ok u ∧ Normal d u ∧ seg d 0 u = seg d 0 used := by
  obtain ⟨u, hu, hle, hzeros, htop⟩ := normalize_spec hused
  have hpad : u % 2 = 1 → digit d u = 0 := by
    intro hodd
    by_cases heq : u = used
    · exact heq ▸ hpadded (heq ▸ hodd)
    · exact hzeros u le_rfl (by omega)
  refine ⟨u, ?_, ⟨⟨by omega, htop⟩, heven, hpad⟩, ?_⟩
  · rw [normalizedUsed, hu, ok_bind, check_of (by simpa using heven), ok_bind]
    split_ifs with hodd
    · rfl
    · rw [load_eq (by omega), ok_bind, hpad (by omega), check_of (by simp), ok_bind]
  · refine (segment_of_zeros hle fun k hk hk' => ?_).symm
    rw [zero_add]
    exact hzeros k hk hk'

lemma createShared_spec (hw : Consistent w) {isNegative : Bool} {used reference : ℕ}
    (hd : w.heap[reference]? = some d) (hused : used ≤ d.length) (heven : d.length % 2 = 0)
    (hpadded : used % 2 = 1 → digit d used = 0) :
    Yields (createShared isNegative used reference) w (signed isNegative (seg d 0 used)) := by
  obtain ⟨u, hu, hnorm, hval⟩ := normalizedUsed_spec hused heven hpadded
  refine Returns.readDigits hd
    (Returns.digitwise hu (Returns.pure ⟨.refl hw, d, ⟨hd, hnorm, ?_⟩, ?_⟩))
  · intro hzero
    exact if_pos hzero
  · dsimp only
    rw [← hval]
    split_ifs with hzero
    · rw [hzero, seg_zero, signed_zero, signed_zero]
    · rfl

lemma newArray_grows (hw : Consistent w) (d : Digits) :
    Grows w { w with heap := w.heap ++ [d] } := by
  have hheap : w.heap <+: w.heap ++ [d] := List.prefix_append ..
  refine ⟨hheap, getElem?_of_extension hheap hw.zero, getElem?_of_extension hheap hw.one,
    getElem?_of_extension hheap hw.oneBillion, ?_⟩
  intro c hc
  obtain ⟨d', e', hd', he', hdvd⟩ := hw.cache c hc
  exact ⟨d', e', getElem?_of_extension hheap hd', getElem?_of_extension hheap he', hdvd⟩

lemma create_spec (hw : Consistent w) {isNegative : Bool} {used : ℕ} (hused : used ≤ d.length)
    (heven : d.length % 2 = 0) (hpadded : used % 2 = 1 → digit d used = 0) :
    Yields (create isNegative used d) w (signed isNegative (seg d 0 used)) := by
  have hgrows := newArray_grows hw d
  have hnew : ({ w with heap := w.heap ++ [d] } : World).heap[w.heap.length]? = some d := by
    simp
  refine Returns.bind (P := fun r w' => r = w.heap.length ∧ w' = { w with heap := w.heap ++ [d] })
    ⟨_, _, rfl, rfl, rfl⟩ ?_
  rintro _ _ ⟨rfl, rfl⟩
  refine (createShared_spec hgrows.consistent hnew hused heven hpadded).mono ?_
  rintro a w' ⟨hw', ha⟩
  exact ⟨hgrows.trans hw', ha⟩

end

variable {w : World} {a b : BigIntImpl} {x y : ℤ} {d e : Digits}

lemma Denotes.used_eq_zero_iff (h : Denotes w a x) : a.used = 0 ↔ x = 0 := by
  obtain ⟨d, hd, rfl⟩ := h
  rw [hd.used_eq_zero_iff, ← Int.natAbs_eq_zero, natAbs_signed]

lemma Denotes.isNegative_iff (h : Denotes w a x) : a.isNegative = true ↔ x < 0 := by
  have hzero := h.used_eq_zero_iff
  obtain ⟨d, hd, rfl⟩ := h
  have hsign := hd.sign
  cases hneg : a.isNegative with
  | false => simp [signed]
  | true =>
    rw [hneg] at hsign hzero
    have hne : signed true (seg d 0 a.used) ≠ 0 := by
      rw [Ne, ← hzero]
      intro h
      exact absurd (hsign h) (by decide)
    simp only [signed, if_true] at hne ⊢
    simp only [true_iff]
    omega

lemma Denotes.signed_eq (h : Denotes w a x) : signed a.isNegative x.natAbs = x := by
  obtain ⟨d, hd, rfl⟩ := h
  rw [natAbs_signed]

lemma Yields.pure (hw : Consistent w) (h : Denotes w a x) : Yields (Pure.pure a) w x :=
  Returns.pure ⟨.refl hw, h⟩

lemma zero_denotes (hw : Consistent w) : Denotes w zero 0 :=
  ⟨[0, 0], ⟨hw.zero, ⟨⟨by decide, by decide⟩, by decide, by decide⟩, by decide⟩, rfl⟩

lemma one_object (hw : Consistent w) : Object w one [1, 0] :=
  ⟨hw.one, ⟨⟨by decide, by decide⟩, by decide, by decide⟩, by decide⟩

lemma one_denotes (hw : Consistent w) : Denotes w one 1 := ⟨[1, 0], one_object hw, by decide⟩

lemma minusOne_denotes (hw : Consistent w) : Denotes w minusOne (-1) :=
  ⟨[1, 0], ⟨hw.one, ⟨⟨by decide, by decide⟩, by decide, by decide⟩, by decide⟩, by decide⟩

lemma oneBillion_denotes (hw : Consistent w) : Denotes w oneBillion 1000000000 :=
  ⟨[1000000000, 0], ⟨hw.oneBillion, ⟨⟨by decide, by decide⟩, by decide, by decide⟩, by decide⟩,
    by decide⟩

lemma negate_spec (hw : Consistent w) (ha : Denotes w a x) : Yields (negate a) w (-x) := by
  have hzero := ha.used_eq_zero_iff
  rw [negate]
  split_ifs with h
  · have hx := hzero.mp h
    subst hx
    exact Yields.pure hw ha
  · obtain ⟨d, hd, rfl⟩ := ha
    rw [neg_signed]
    exact createShared_spec hw hd.digits hd.normal.trimmed.bound hd.normal.even hd.normal.padded

lemma abs_spec (hw : Consistent w) (ha : Denotes w a x) : Yields (abs a) w |x| := by
  have hneg := ha.isNegative_iff
  rw [abs]
  split_ifs with h
  · rw [abs_of_neg (hneg.mp h)]
    exact negate_spec hw ha
  · rw [abs_of_nonneg (by rw [hneg] at h; omega)]
    exact Yields.pure hw ha

lemma absCompare_spec (ha : Denotes w a x) (hb : Denotes w b y) :
    Returns (absCompare a b) w fun c w' => w' = w ∧ Orders c x.natAbs y.natAbs := by
  obtain ⟨d, hd, rfl⟩ := ha
  obtain ⟨e, he, rfl⟩ := hb
  obtain ⟨c, hc, horders⟩ := compareDigits_spec hd.normal.trimmed he.normal.trimmed
  rw [natAbs_signed, natAbs_signed]
  exact Returns.readDigits hd.digits (Returns.readDigits he.digits (Returns.lift hc ⟨rfl, horders⟩))

/-- The result of a comparison has the sign of the difference. -/
lemma compareTo_spec (ha : Denotes w a x) (hb : Denotes w b y) :
    Returns (compareTo a b) w fun c w' => w' = w ∧ (c < 0 ↔ x < y) ∧ (c = 0 ↔ x = y) := by
  have hx := ha.isNegative_iff
  have hy := hb.isNegative_iff
  rw [compareTo]
  split
  · rename_i hsame
    refine (absCompare_spec ha hb).bind ?_
    rintro c _ ⟨rfl, hneg, hzero⟩
    refine Returns.pure ⟨rfl, ?_⟩
    rw [← hsame] at hy
    split
    · rename_i h
      have := hx.mp h
      have := hy.mp h
      omega
    · rename_i h
      rw [hx] at h
      rw [hx.symm.not, Bool.not_eq_true] at h
      rw [h] at hx hy
      simp only [Bool.false_eq_true, false_iff, not_lt] at hx hy
      omega
  · rename_i hdiff
    refine Returns.pure ⟨rfl, ?_⟩
    split
    · rename_i h
      rw [h] at hdiff
      have hneg : b.isNegative = false := by simpa using Ne.symm hdiff
      rw [hneg] at hy
      have := hx.mp h
      simp only [Bool.false_eq_true, false_iff, not_lt] at hy
      omega
    · rename_i h
      have hneg : b.isNegative = true := by
        rw [Bool.not_eq_true] at h
        rw [h] at hdiff
        simpa using Ne.symm hdiff
      have := hy.mp hneg
      rw [hx] at h
      omega

lemma sign_change_spec (hw : Consistent w) (ha : Denotes w a x) (isNegative : Bool) :
    Yields (if a.isNegative = isNegative then pure a else negate a) w
      (signed isNegative x.natAbs) := by
  have hval := ha.signed_eq
  split
  · rename_i h
    rw [← h, hval]
    exact Yields.pure hw ha
  · rename_i h
    have hnot : isNegative = !a.isNegative := by
      cases isNegative <;> cases hn : a.isNegative <;> simp_all
    rw [hnot, ← neg_signed, hval]
    exact negate_spec hw ha

section

variable (hw : Consistent w) (ha : Denotes w a x) (hb : Denotes w b y)

include hw ha hb

variable {isNegative : Bool}

lemma absAddLongest_spec (hused : b.used ≤ a.used) (hsign : x = 0 → isNegative = false) :
    Yields (absAddLongest a b isNegative) w (signed isNegative (x.natAbs + y.natAbs)) := by
  have hx := ha.used_eq_zero_iff
  have hy := hb.used_eq_zero_iff
  rw [absAddLongest]
  split
  · rename_i hzero
    have hx' := hx.mp hzero
    have hy' := hy.mp (by omega)
    rw [hsign hx', hx', hy']
    exact Returns.digitwise (by rfl) (Yields.pure hw (zero_denotes hw))
  · split
    · rename_i hzero
      rw [hy.mp hzero, Int.natAbs_zero, add_zero]
      exact sign_change_spec hw ha isNegative
    · obtain ⟨d, hd, rfl⟩ := ha
      obtain ⟨e, he, rfl⟩ := hb
      obtain ⟨r, hr, hlen, hval, hrest⟩ := absAdd_spec hd.normal.trimmed.bound
        he.normal.trimmed.bound hused (by omega)
        (show a.used < (newDigits (a.used + 1)).length by rw [length_newDigits]; omega)
      rw [length_newDigits] at hlen
      rw [natAbs_signed, natAbs_signed, ← hval]
      refine Returns.readDigits hd.digits (Returns.readDigits he.digits (Returns.digitwise hr
        (create_spec hw (by omega) (by omega) fun _ => ?_)))
      rw [hrest _ (by omega), digit_newDigits]

lemma absAddSetSign_spec (hsign : x = 0 → y = 0 → isNegative = false) :
    Yields (absAddSetSign a b isNegative) w (signed isNegative (x.natAbs + y.natAbs)) := by
  have hx := ha.used_eq_zero_iff
  have hy := hb.used_eq_zero_iff
  rw [absAddSetSign]
  split
  · rw [add_comm]
    refine absAddLongest_spec hw hb ha (by omega) fun h => ?_
    omega
  · refine absAddLongest_spec hw ha hb (by omega) fun h => hsign h ?_
    omega

lemma absSubSetSign_spec (hle : y.natAbs ≤ x.natAbs) (hsign : x = 0 → isNegative = false) :
    Yields (absSubSetSign a b isNegative) w (signed isNegative (x.natAbs - y.natAbs)) := by
  have hx := ha.used_eq_zero_iff
  have hy := hb.used_eq_zero_iff
  refine (absCompare_spec ha hb).bind ?_
  rintro c _ ⟨rfl, hneg, -⟩
  refine Returns.digitwise (check_of (by simp only [decide_eq_true_eq]; omega)) ?_
  split
  · rename_i hzero
    have hx' := hx.mp hzero
    rw [hsign hx', hx', Int.natAbs_zero, Nat.zero_sub]
    exact Returns.digitwise (by rfl) (Yields.pure hw (zero_denotes hw))
  · split
    · rename_i hzero
      rw [hy.mp hzero, Int.natAbs_zero, Nat.sub_zero]
      exact sign_change_spec hw ha isNegative
    · obtain ⟨d, hd, rfl⟩ := ha
      obtain ⟨e, he, rfl⟩ := hb
      rw [natAbs_signed, natAbs_signed] at hle ⊢
      have hused : b.used ≤ a.used := by
        by_contra hlt
        have := he.normal.trimmed.seg_lt_of_used_lt (a := d) (show a.used < b.used by omega)
        omega
      obtain ⟨r, hr, hlen, hval, hrest⟩ := absSub_spec hd.normal.trimmed.bound
        he.normal.trimmed.bound hused (by omega)
        (show a.used ≤ (newDigits a.used).length by rw [length_newDigits]; omega) hle
      rw [length_newDigits] at hlen
      rw [← hval]
      refine Returns.readDigits hd.digits (Returns.readDigits he.digits (Returns.digitwise hr
        (create_spec hw (by omega) (by omega) fun _ => ?_)))
      rw [hrest _ le_rfl, digit_newDigits]

omit hw ha hb in
lemma signed_sub {m n : ℕ} (h : n ≤ m) (isNegative : Bool) :
    signed isNegative (m - n) = signed isNegative m + signed (!isNegative) n := by
  cases isNegative <;> simp only [signed, Bool.not_true, Bool.not_false, if_true,
    Bool.false_eq_true, if_false] <;> omega

lemma absDifference_spec (hx : x ≠ 0) (hy : y ≠ 0) :
    Yields (absDifference a b) w
      (signed a.isNegative x.natAbs + signed (!a.isNegative) y.natAbs) := by
  refine (absCompare_spec ha hb).bind ?_
  rintro c _ ⟨rfl, hneg, -⟩
  split
  · have hle : y.natAbs ≤ x.natAbs := by omega
    rw [← signed_sub hle]
    exact absSubSetSign_spec hw ha hb hle fun h => absurd h hx
  · have hle : x.natAbs ≤ y.natAbs := by omega
    rw [add_comm, ← Bool.not_not a.isNegative, Bool.not_not (!a.isNegative), ← signed_sub hle]
    exact absSubSetSign_spec hw hb ha hle fun h => absurd h hy

lemma plus_spec : Yields (plus a b) w (x + y) := by
  have hx := ha.used_eq_zero_iff
  have hy := hb.used_eq_zero_iff
  have hxs := ha.signed_eq
  have hys := hb.signed_eq
  rw [plus]
  split
  · rename_i hzero
    rw [hx.mp hzero, zero_add]
    exact Yields.pure hw hb
  · split
    · rename_i hzero
      rw [hy.mp hzero, add_zero]
      exact Yields.pure hw ha
    · rename_i hused hused'
      rw [hx] at hused
      rw [hy] at hused'
      split
      · rename_i hsame
        convert absAddSetSign_spec hw ha hb (fun h _ => absurd h hused) using 1
        rw [← hsame] at hys
        rw [← hxs, ← hys]
        cases a.isNegative <;> simp [signed]
        omega
      · rename_i hdiff
        convert absDifference_spec hw ha hb hused hused' using 1
        rw [← Bool.eq_not_of_ne (Ne.symm hdiff), hxs, hys]

lemma minusOp_spec : Yields (minusOp a b) w (x - y) := by
  have hx := ha.used_eq_zero_iff
  have hy := hb.used_eq_zero_iff
  have hxs := ha.signed_eq
  have hys := hb.signed_eq
  rw [minusOp]
  split
  · rename_i hzero
    rw [hx.mp hzero, zero_sub]
    exact negate_spec hw hb
  · split
    · rename_i hzero
      rw [hy.mp hzero, sub_zero]
      exact Yields.pure hw ha
    · rename_i hused hused'
      rw [hx] at hused
      rw [hy] at hused'
      split
      · rename_i hdiff
        convert absAddSetSign_spec hw ha hb (fun h _ => absurd h hused) using 1
        rw [Bool.eq_not_of_ne (Ne.symm hdiff)] at hys
        rw [← hxs, ← hys]
        cases a.isNegative <;> simp [signed]
        omega
      · rename_i hsame
        rw [not_not] at hsame
        convert absDifference_spec hw ha hb hused hused' using 1
        rw [← neg_signed, hxs, hsame, hys, sub_eq_add_neg]

end

end DartSdk.BigInts
