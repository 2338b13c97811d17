import DartSdk.IntegerTexts
import DartSdk.Machines
import DartSdk.BigIntQuotients

/-!
Reading and printing in `_BigIntImpl` of runtime/lib/bigint_patch.dart. The loops that print
the digits of a number depend on a radix that is not checked, so they are given a number of
steps. The white space of the regular expression is that of runtime/vm/regexp.cc. The characters of
a number are neither white space nor signs, so a match of it is unique, and `_tryParse` gives every
literal to a loop that reads its radix.
-/

namespace DartSdk.BigInts

open Function

section

section

open Checked Executions Integers Patterns

/-- `isNegative ? -result : result`. -/
def negateIf (isNegative : Bool) (result : BigIntImpl) : Exec BigIntImpl :=
  if isNegative then negate result else pure result

/-- The step of `_parseDecimal` at the end of a part of nine digits. -/
def addPart (mode : Mode) (result : BigIntImpl) (part : ℤ) : Exec BigIntImpl := do
  let product ← times mode result oneBillion
  let last ← fromInt part
  plus product last

def parseDecimalLoop (mode : Mode) : CodeUnits → ℤ → BigIntImpl → ℕ → Exec BigIntImpl
  | [], _, result, _ => pure result
  | c :: source, part, result, digitInPartCount => do
      let part := part * 10 + c - 48
      if digitInPartCount + 1 = 9 then do
        let result ← addPart mode result part
        parseDecimalLoop mode source 0 result 0
      else parseDecimalLoop mode source part result (digitInPartCount + 1)

def parseDecimal (mode : Mode) (source : CodeUnits) (isNegative : Bool) : Exec BigIntImpl := do
  let digitInPartCount := 9 - source.length % 9
  let digitInPartCount := if digitInPartCount = 9 then 0 else digitInPartCount
  let result ← parseDecimalLoop mode source 0 zero digitInPartCount
  negateIf isNegative result

def codeUnitToRadixValue (codeUnit : ℕ) : ℤ :=
  if 48 ≤ codeUnit ∧ codeUnit ≤ 57 then codeUnit - 48
  else (codeUnit ||| 0x20 : ℕ) - 97 + 10

/-- A digit of the number from the characters of the source, or `none` at an invalid one. -/
def parseHexDigit : CodeUnits → ℤ → Option ℤ
  | [], digit => some digit
  | c :: source, digit =>
    if 16 ≤ codeUnitToRadixValue c then none
    else parseHexDigit source (digit * 16 + codeUnitToRadixValue c)

/-- `while (i < source.length)` of `_parseHex`, with the digits below the given one to fill. -/
def parseHexLoop : ℕ → CodeUnits → Digits → Result (Option Digits)
  | 0, source, digits => if source.isEmpty then .ok (some digits) else .error .outOfBounds
  | digitIndex + 1, source, digits =>
    if source.isEmpty then .ok (some digits)
    else
      match parseHexDigit (source.take 8) 0 with
      | none => .ok none
      | some digit => do
          let digits ← store digits digitIndex digit
          parseHexLoop digitIndex (source.drop 8) digits

def parseHex (source : CodeUnits) (startPos : ℕ) (isNegative : Bool) :
    Exec (Option BigIntImpl) := do
  let source := source.drop startPos
  let used := (source.length + 8 - 1) / 8
  let lastDigitLength := source.length - (used - 1) * 8
  match parseHexDigit (source.take lastDigitLength) 0 with
  | none => pure none
  | some digit => do
      let digits ← digitwise (store (newDigits used) (used - 1) digit)
      let digits ← digitwise (parseHexLoop (used - 1) (source.drop lastDigitLength) digits)
      match digits with
      | none => pure none
      | some digits => do
          let low ← digitwise (load digits 0)
          if used = 1 ∧ low = 0 then pure (some zero)
          else do
            let result ← create isNegative used digits
            pure (some result)

/-- The step of `_parseRadix`. -/
def addDigit (mode : Mode) (result base : BigIntImpl) (value : ℤ) : Exec BigIntImpl := do
  let product ← times mode result base
  let last ← fromInt value
  plus product last

def parseRadixLoop (mode : Mode) (radix : ℤ) (base : BigIntImpl) :
    CodeUnits → BigIntImpl → Exec (Option BigIntImpl)
  | [], result => pure (some result)
  | c :: source, result =>
    if radix ≤ codeUnitToRadixValue c then pure none
    else do
      let result ← addDigit mode result base (codeUnitToRadixValue c)
      parseRadixLoop mode radix base source result

def parseRadix (mode : Mode) (source : CodeUnits) (radix : ℤ) (isNegative : Bool) :
    Exec (Option BigIntImpl) := do
  let base ← fromInt radix
  let result ← parseRadixLoop mode radix base source zero
  match result with
  | none => pure none
  | some result => do
      let result ← negateIf isNegative result
      pure (some result)

def isSpace (c : ℕ) : Bool :=
  (9 ≤ c ∧ c ≤ 13) ∨ c = 32 ∨ c = 0xA0 ∨ c = 0x1680 ∨ (0x2000 ≤ c ∧ c < 0x200B) ∨
    (0x2028 ≤ c ∧ c < 0x202A) ∨ c = 0x202F ∨ c = 0x205F ∨ c = 0x3000 ∨ (0xFEFF ≤ c ∧ c < 0xFF00)

def isSign (c : ℕ) : Bool := c = 43 ∨ c = 45

/-- `\d`. -/
def isDecimal (c : ℕ) : Bool := 48 ≤ c ∧ c ≤ 57

/-- `[a-f0-9]` without regard to case. -/
def isHex (c : ℕ) : Bool := isDecimal c ∨ (97 ≤ c ∧ c ≤ 102) ∨ (65 ≤ c ∧ c ≤ 70)

/-- `[a-z0-9]` without regard to case. -/
def isAlphanumeric (c : ℕ) : Bool := isDecimal c ∨ (97 ≤ c ∧ c ≤ 122) ∨ (65 ≤ c ∧ c ≤ 90)

/-- `0x[a-f0-9]+`. -/
def hexPattern : Pattern ℕ :=
  .seq (.symbol fun c => c = 48) (.seq (.symbol fun c => c = 120 ∨ c = 88) (.plus isHex))

def bodyPattern : Pattern ℕ :=
  .group 2 (.alt (.group 3 hexPattern)
    (.alt (.group 4 (.plus isDecimal)) (.group 5 (.plus isAlphanumeric))))

/-- `^\s*([+-]?)((0x[a-f0-9]+)|(\d+)|([a-z0-9]+))\s*$`. -/
def re : Pattern ℕ :=
  .seq (.many isSpace) (.seq (.group 1 (.optional (.symbol isSign)))
    (.seq bodyPattern (.many isSpace)))

def tryParse (mode : Mode) (source : CodeUnits) (radix : Option ℤ) : Exec (Option BigIntImpl) :=
  if source = [] then pure none
  else
    match re.firstMatch source with
    | none => pure none
    | some groups =>
      let isNegative : Bool := groups 1 = some [45]
      match radix with
      | none =>
        match groups 4, groups 3 with
        | some decimalMatch, _ => do
            let result ← parseDecimal mode decimalMatch isNegative
            pure (some result)
        | none, some hexMatch => parseHex hexMatch 2 isNegative
        | none, none => pure none
      | some radix =>
        if radix < 2 ∨ 36 < radix then throw .rangeError
        else
          match groups 4, groups 5, groups 3 with
          | some decimalMatch, _, _ =>
            if radix = 10 then do
              let result ← parseDecimal mode decimalMatch isNegative
              pure (some result)
            else if radix = 16 then parseHex decimalMatch 0 isNegative
            else parseRadix mode decimalMatch radix isNegative
          | none, some nonDecimalMatch, _ =>
            if radix = 16 then parseHex nonDecimalMatch 0 isNegative
            else parseRadix mode nonDecimalMatch radix isNegative
          | none, none, some hexMatch => parseRadix mode hexMatch radix isNegative
          -- `source.length` of null
          | none, none, none => throw (.failure .fatal)

inductive ParseError
  | formatException
  | error (e : Error)
  deriving DecidableEq

def parse (mode : Mode) (source : CodeUnits) (radix : Option ℤ) :
    StateT World (Except ParseError) BigIntImpl := fun w =>
  match tryParse mode source radix w with
  | .ok (some result, w) => .ok (result, w)
  | .ok (none, _) => .error .formatException
  | .error e => .error (.error e)

def maxInt : ℤ := 0x7fffffffffffffff

def toInt (a : BigIntImpl) : Exec ℤ :=
  if a.used = 0 then pure 0
  else do
    let digits ← readDigits a.digits
    let low ← digitwise (load digits 0)
    if a.used = 1 then pure (if a.isNegative then -low else low)
    else do
      let high ← digitwise (load digits 1)
      if a.used = 2 ∧ high < 0x80000000 then
        let result : ℤ := (high <<< digitBits ||| low : ℕ)
        pure (if a.isNegative then -result else result)
      else pure (if a.isNegative then minInt else maxInt)

/-- The zeros of a part of nine digits, in the order in which they are added. -/
def zeroChunks (zeros : ℕ) : List CodeUnits :=
  if zeros = 8 then [codeUnits "00000000"]
  else
    let chunks := if 4 ≤ zeros then [codeUnits "0000"] else []
    let zeros := if 4 ≤ zeros then zeros - 4 else zeros
    let chunks := if 2 ≤ zeros then chunks ++ [codeUnits "00"] else chunks
    let zeros := if 2 ≤ zeros then zeros - 2 else zeros
    if 1 ≤ zeros then chunks ++ [codeUnits "0"] else chunks

mutual

/-- `toString`, which calls itself for the parts of nine digits. -/
def toString (mode : Mode) : ℕ → BigIntImpl → Exec CodeUnits
  | 0, _ => throw (.failure .diverges)
  | fuel + 1, a =>
    if a.used = 0 then pure (codeUnits "0")
    else if a.used = 1 then do
      let digits ← readDigits a.digits
      let d ← digitwise (load digits 0)
      digitwise (Integers.toString (if a.isNegative then -d else d))
    else do
      let rest ← negateIf a.isNegative a
      let (chunks, rest) ← decimalChunks mode fuel rest []
      let digits ← readDigits rest.digits
      let d ← digitwise (load digits 0)
      let top ← digitwise (Integers.toString d)
      let chunks := chunks ++ [top]
      let chunks := if a.isNegative then chunks ++ [codeUnits "-"] else chunks
      pure chunks.reverse.flatten

/-- `while (rest._used > 1)` of `toString`. -/
def decimalChunks (mode : Mode) :
    ℕ → BigIntImpl → List CodeUnits → Exec (List CodeUnits × BigIntImpl)
  | 0, _, _ => throw (.failure .diverges)
  | fuel + 1, rest, chunks =>
    if 1 < rest.used then do
      let last ← remainder mode rest oneBillion
      let digits9 ← toString mode fuel last
      let chunks := chunks ++ digits9 :: zeroChunks (9 - digits9.length)
      let rest ← quotient mode rest oneBillion
      decimalChunks mode fuel rest chunks
    else pure (chunks, rest)

end

def toRadixCodeUnit (digit : ℤ) : ℤ := if digit < 10 then 48 + digit else 97 + digit - 10

def fromCharCode (charCode : ℕ) : CodeUnits :=
  if charCode ≤ 0xffff then [charCode]
  else [0xD800 ||| (charCode - 0x10000) >>> 10, 0xDC00 ||| charCode &&& 0x3ff]

def fromCharCodes (charCodes : List ℤ) : Exec CodeUnits :=
  if ∀ c ∈ charCodes, 0 ≤ c ∧ c ≤ 0x10ffff then
    pure (charCodes.flatMap fun c => fromCharCode c.toNat)
  else throw .argumentError

/-- `while (!rest._isZero)` of `toRadixString`. -/
def radixLoop (mode : Mode) (base : BigIntImpl) : ℕ → BigIntImpl → List ℤ → Exec (List ℤ)
  | 0, _, _ => throw (.failure .diverges)
  | fuel + 1, rest, reversedDigitCodeUnits =>
    if rest.used = 0 then pure reversedDigitCodeUnits
    else do
      let last ← remainder mode rest base
      let digit ← toInt last
      let rest ← quotient mode rest base
      radixLoop mode base fuel rest (reversedDigitCodeUnits ++ [toRadixCodeUnit digit])

/-- Hexadecimal digits from the last one. -/
def hexChunk : ℕ → ℕ → List ℤ
  | 0, _ => []
  | n + 1, chunk => toRadixCodeUnit (chunk &&& 0xF : ℕ) :: hexChunk n (chunk >>> 4)

/-- `while (msbChunk != 0)` of `_toHexString`. -/
def topChunk (msbChunk : ℕ) : List ℤ :=
  if msbChunk = 0 then []
  else toRadixCodeUnit (msbChunk &&& 0xF : ℕ) :: topChunk (msbChunk >>> 4)
  termination_by msbChunk
  decreasing_by
    rw [Nat.shiftRight_eq_div_pow]
    exact Nat.div_lt_self (by omega) (by decide)

def toHexString (a : BigIntImpl) : Exec CodeUnits := do
  let digits ← readDigits a.digits
  let chars ← digitwise (forUp (a.used - 1) (fun i chars => do
    let chunk ← load digits i
    .ok (chars ++ hexChunk 8 chunk)) [])
  let msbChunk ← digitwise (load digits (a.used - 1))
  let chars := chars ++ topChunk msbChunk
  let chars := if a.isNegative then chars ++ [45] else chars
  fromCharCodes chars.reverse

def toRadixString (mode : Mode) (fuel : ℕ) (a : BigIntImpl) (radix : ℤ) : Exec CodeUnits :=
  if 36 < radix then throw .rangeError
  else if a.used = 0 then pure (codeUnits "0")
  else if a.used = 1 then do
    let digits ← readDigits a.digits
    let d ← digitwise (load digits 0)
    let digitString ← lift id (Integers.toRadixString d radix)
    pure (if a.isNegative then codeUnits "-" ++ digitString else digitString)
  else if radix = 16 then toHexString a
  else do
    let base ← fromInt radix
    let rest ← abs a
    let reversedDigitCodeUnits ← radixLoop mode base fuel rest []
    let digitString ← fromCharCodes reversedDigitCodeUnits.reverse
    pure (if a.isNegative then codeUnits "-" ++ digitString else digitString)

end

open Integers Patterns List

variable {s : CodeUnits} {p : ℕ → Bool}

variable {c : ℕ}

lemma isSpace_of_isAlphanumeric (h : isAlphanumeric c = true) : isSpace c = false := by
  simp [isAlphanumeric, isDecimal, isSpace] at h ⊢
  omega

lemma isSign_of_isAlphanumeric (h : isAlphanumeric c = true) : isSign c = false := by
  simp [isAlphanumeric, isDecimal, isSign] at h ⊢
  omega

lemma isSpace_of_isSign (h : isSign c = true) : isSpace c = false := by
  simp [isSign, isSpace] at h ⊢
  omega

lemma isAlphanumeric_of_isDecimal (h : isDecimal c = true) : isAlphanumeric c = true := by
  simp [isAlphanumeric, h]

lemma isAlphanumeric_of_isHex (h : isHex c = true) : isAlphanumeric c = true := by
  simp only [isAlphanumeric, isHex, decide_eq_true_eq] at h ⊢
  rcases h with h | h | h
  · exact .inl h
  · exact .inr (.inl ⟨h.1, by omega⟩)
  · exact .inr (.inr ⟨h.1, by omega⟩)

/-- When only white space follows the characters of a class, they are all letters and digits. -/
lemma all_dropWhile (hp : ∀ c, p c = true → isAlphanumeric c = true) (s : CodeUnits) :
    (s.dropWhile p).all isSpace =
      ((s.dropWhile isAlphanumeric).all isSpace && (s.takeWhile isAlphanumeric).all p) := by
  induction s with
  | nil => rfl
  | cons c s ih =>
    rw [dropWhile_cons, dropWhile_cons, takeWhile_cons]
    by_cases hc : p c = true
    · rw [if_pos hc, if_pos (hp c hc), if_pos (hp c hc), ih, all_cons, hc, Bool.true_and]
    · by_cases ha : isAlphanumeric c = true
      · rw [if_neg hc, if_pos ha, if_pos ha, all_cons, all_cons,
          isSpace_of_isAlphanumeric ha, Bool.eq_false_iff.mpr hc]
        simp
      · rw [if_neg hc, if_neg ha, if_neg ha]
        simp

lemma takeWhile_class (h : (s.takeWhile isAlphanumeric).all p = true)
    (hp : ∀ c, p c = true → isAlphanumeric c = true) :
    s.takeWhile p = s.takeWhile isAlphanumeric := by
  induction s with
  | nil => rfl
  | cons c s ih =>
    rw [takeWhile_cons] at h
    rw [takeWhile_cons, takeWhile_cons]
    by_cases ha : isAlphanumeric c = true
    · rw [if_pos ha, all_cons, Bool.and_eq_true] at h
      rw [if_pos ha, if_pos h.1, ih h.2]
    · rw [if_neg ha, if_neg fun hc => ha (hp c hc)]

def isHexLiteral : CodeUnits → Bool
  | 48 :: x :: t => (x = 120 ∨ x = 88) ∧ t ≠ [] ∧ t.all isHex
  | _ => false

variable {body : CodeUnits}

lemma isHexLiteral_iff : isHexLiteral body = true ↔
    ∃ x t, body = 48 :: x :: t ∧ (x = 120 ∨ x = 88) ∧ t ≠ [] ∧ t.all isHex = true := by
  constructor
  · intro h
    match body with
    | 48 :: x :: t => exact ⟨x, t, rfl, by simpa [isHexLiteral] using h⟩
  · rintro ⟨x, t, rfl, h⟩
    simpa [isHexLiteral] using h

def groupOf (body : CodeUnits) : ℕ :=
  if isHexLiteral body then 3 else if body.all isDecimal then 4 else 5

/-- The rest of the pattern: white space up to the end. -/
def atEnd (s : CodeUnits) (g : Groups ℕ) : Option (Groups ℕ) :=
  if s.all isSpace then some g else none

lemma run_spaces (s : CodeUnits) (g : Groups ℕ) :
    (Pattern.many isSpace).run s g (fun rest g => if rest.isEmpty then some g else none) =
      atEnd s g := by
  rw [run_many (fun _ _ _ => rfl), atEnd]
  congr 1
  rw [eq_iff_iff, List.isEmpty_iff, dropWhile_eq_nil_iff, all_eq_true]

lemma run_class (hp : ∀ c, p c = true → isAlphanumeric c = true) (g : Groups ℕ)
    (f : Groups ℕ → CodeUnits → Groups ℕ) (s : CodeUnits) :
    (Pattern.plus p).run s g (fun s' g => atEnd s' (f g s')) =
      if s.takeWhile isAlphanumeric ≠ [] ∧ (s.takeWhile isAlphanumeric).all p = true ∧
          (s.dropWhile isAlphanumeric).all isSpace = true then
        some (f g (s.dropWhile isAlphanumeric))
      else none := by
  rw [run_plus fun c s hc => by simp [atEnd, isSpace_of_isAlphanumeric (hp c hc)]]
  by_cases hall : (s.takeWhile isAlphanumeric).all p = true
  · have htake := takeWhile_class hall hp
    have hdrop : s.dropWhile p = s.dropWhile isAlphanumeric := by
      have h := (s.takeWhile_append_dropWhile (p := p)).trans
        (s.takeWhile_append_dropWhile (p := isAlphanumeric)).symm
      rwa [htake, append_cancel_left_eq] at h
    rw [htake, hdrop, atEnd]
    split_ifs <;> simp_all
  · have hend := all_dropWhile hp s
    rw [Bool.eq_false_iff.mpr hall, Bool.and_false] at hend
    rw [atEnd, hend, if_neg Bool.false_ne_true, ite_self, if_neg fun h => hall h.2.1]

lemma run_group (hp : ∀ c, p c = true → isAlphanumeric c = true) (i : ℕ) (g : Groups ℕ)
    (f : Groups ℕ → CodeUnits → Groups ℕ) (s : CodeUnits) :
    (Pattern.group i (.plus p)).run s g (fun s' g => atEnd s' (f g s')) =
      if s.takeWhile isAlphanumeric ≠ [] ∧ (s.takeWhile isAlphanumeric).all p = true ∧
          (s.dropWhile isAlphanumeric).all isSpace = true then
        some (f (update g i (some (s.takeWhile isAlphanumeric)))
          (s.dropWhile isAlphanumeric))
      else none := by
  rw [Pattern.run, run_class hp g fun g s' => f (update g i
    (some (s.take (s.length - s'.length)))) s']
  have htake := take_of_append (s.takeWhile isAlphanumeric) (s.dropWhile isAlphanumeric)
  rw [takeWhile_append_dropWhile] at htake
  rw [htake]

lemma run_hex (g : Groups ℕ) (f : Groups ℕ → CodeUnits → Groups ℕ) (s : CodeUnits) :
    (Pattern.group 3 hexPattern).run s g (fun s' g => atEnd s' (f g s')) =
      if isHexLiteral (s.takeWhile isAlphanumeric) = true ∧
          (s.dropWhile isAlphanumeric).all isSpace = true then
        some (f (update g 3 (some (s.takeWhile isAlphanumeric)))
          (s.dropWhile isAlphanumeric))
      else none := by
  by_cases hmark : ∃ x t, s = 48 :: x :: t ∧ (x = 120 ∨ x = 88)
  · obtain ⟨x, t, rfl, hx⟩ := hmark
    have halpha : isAlphanumeric x = true := by
      rcases hx with rfl | rfl <;> rfl
    have htake : (48 :: x :: t).takeWhile isAlphanumeric =
        48 :: x :: t.takeWhile isAlphanumeric := by
      rw [takeWhile_cons_of_pos rfl, takeWhile_cons_of_pos halpha]
    have hdrop : (48 :: x :: t).dropWhile isAlphanumeric = t.dropWhile isAlphanumeric := by
      rw [dropWhile_cons_of_pos rfl, dropWhile_cons_of_pos halpha]
    have hgroup := take_of_append (48 :: x :: t.takeWhile isAlphanumeric)
      (t.dropWhile isAlphanumeric)
    rw [cons_append, cons_append, takeWhile_append_dropWhile] at hgroup
    have hiff : isHexLiteral (48 :: x :: t.takeWhile isAlphanumeric) = true ↔
        t.takeWhile isAlphanumeric ≠ [] ∧ (t.takeWhile isAlphanumeric).all isHex = true := by
      rw [isHexLiteral_iff]
      constructor
      · rintro ⟨x', t', heq, -, h⟩
        obtain ⟨-, rfl, rfl⟩ := cons_eq_cons.mp heq |>.imp id cons_eq_cons.mp
        exact h
      · intro h
        exact ⟨x, _, rfl, hx, h⟩
    rw [htake, hdrop, Pattern.run, hexPattern, Pattern.run, Pattern.run,
      if_pos (decide_eq_true rfl), Pattern.run,
      Pattern.run, if_pos (by simpa using hx), run_class (fun _ => isAlphanumeric_of_isHex) g
        fun g s' =>
        f (update g 3 (some ((48 :: x :: t).take ((48 :: x :: t).length - s'.length)))) s',
      hgroup]
    simp only [hiff, and_assoc]
  · have hnone : (Pattern.group 3 hexPattern).run s g (fun s' g => atEnd s' (f g s')) = none := by
      rcases s with _ | ⟨c, _ | ⟨x, t⟩⟩
      · rfl
      · rw [Pattern.run, hexPattern, Pattern.run, Pattern.run]
        split <;> rfl
      · rw [Pattern.run, hexPattern, Pattern.run, Pattern.run, Pattern.run]
        by_cases hc : c = 48
        · rw [if_pos (by simpa using hc), Pattern.run, if_neg]
          intro hx
          exact hmark ⟨x, t, by rw [hc], by simpa using hx⟩
        · rw [if_neg (by simpa using hc)]
    rw [hnone, if_neg]
    rintro ⟨hhex, -⟩
    obtain ⟨x, t, heq, hx, -⟩ := isHexLiteral_iff.mp hhex
    have happend := s.takeWhile_append_dropWhile (p := isAlphanumeric)
    rw [heq] at happend
    exact hmark ⟨x, _, happend.symm, hx⟩

lemma bodyPattern_run (g : Groups ℕ) (s : CodeUnits) :
    bodyPattern.run s g atEnd =
      if s.takeWhile isAlphanumeric ≠ [] ∧ (s.dropWhile isAlphanumeric).all isSpace = true then
        some (update (update g (groupOf (s.takeWhile isAlphanumeric))
          (some (s.takeWhile isAlphanumeric))) 2 (some (s.takeWhile isAlphanumeric)))
      else none := by
  have htake := take_of_append (s.takeWhile isAlphanumeric) (s.dropWhile isAlphanumeric)
  rw [takeWhile_append_dropWhile] at htake
  let f : Groups ℕ → CodeUnits → Groups ℕ := fun g s' =>
    update g 2 (some (s.take (s.length - s'.length)))
  have hf : ∀ g, f g (s.dropWhile isAlphanumeric) =
      update g 2 (some (s.takeWhile isAlphanumeric)) := fun g => by
    simp only [f, htake]
  have hall : ∀ c ∈ s.takeWhile isAlphanumeric, isAlphanumeric c = true := fun c hc =>
    mem_takeWhile_imp hc
  rw [bodyPattern, Pattern.run, Pattern.run, run_hex g f, Pattern.run,
    run_group (fun _ => isAlphanumeric_of_isDecimal) 4 g f, run_group (fun _ => id) 5 g f, groupOf]
  simp only [hf]
  revert hall
  generalize s.takeWhile isAlphanumeric = body
  intro hall
  rw [← all_eq_true] at hall
  by_cases hspace : (s.dropWhile isAlphanumeric).all isSpace = true
  · by_cases hne : body = []
    · subst hne
      simp [isHexLiteral]
    · by_cases hhex : isHexLiteral body = true
      · simp only [hhex, hspace, hne, ne_eq, not_false_eq_true, and_self, if_true, Option.some_or]
      · by_cases hdec : body.all isDecimal = true
        · simp only [hhex, hspace, hne, hdec, ne_eq, not_false_eq_true, and_self, if_true,
            false_and, if_false, Option.some_or, Option.none_or, Bool.false_eq_true]
        · simp only [hhex, hspace, hne, hdec, hall, ne_eq, not_false_eq_true, and_self, if_true,
            false_and, and_false, if_false, Option.none_or, Bool.false_eq_true]
  · simp only [hspace, and_false, if_false, Option.or_none, Bool.false_eq_true]

structure Parts (source before sign body after : CodeUnits) : Prop where
  eq : source = before ++ (sign ++ (body ++ after))
  before : before.all isSpace = true
  sign : sign = [] ∨ sign = [43] ∨ sign = [45]
  nonempty : body ≠ []
  body : body.all isAlphanumeric = true
  after : after.all isSpace = true

def groupsOf (sign body : CodeUnits) : Groups ℕ :=
  Function.update (Function.update (Function.update (fun _ => none) 1 (some sign)) (groupOf body)
    (some body)) 2 (some body)

/-- The pattern after the leading white space. -/
def signedPattern : Pattern ℕ :=
  .seq (.group 1 (.optional (.symbol isSign))) (.seq bodyPattern (.many isSpace))

lemma signedPattern_run (s : CodeUnits) :
    signedPattern.run s (fun _ => none) (fun rest g => if rest.isEmpty then some g else none) =
      match s with
      | [] => none
      | c :: t =>
        if isSign c then bodyPattern.run t (update (fun _ => none) 1 (some [c])) atEnd
        else bodyPattern.run s (update (fun _ => none) 1 (some [])) atEnd := by
  have hspaces : (fun (s : CodeUnits) (g : Groups ℕ) =>
      runMany isSpace (fun rest => if rest.isEmpty then some g else none) s) = atEnd := by
    funext s g
    exact run_spaces s g
  rw [signedPattern, Pattern.run, Pattern.run, Pattern.optional, Pattern.run]
  simp only [Pattern.run, hspaces]
  cases s with
  | nil => rfl
  | cons c t =>
    simp only [Pattern.run, Nat.sub_self, take_zero, length_cons,
      Nat.add_sub_cancel_left, take_succ_cons]
    by_cases hc : isSign c = true
    · have hnot : isAlphanumeric c = false := by
        rw [← Bool.not_eq_true]
        intro ha
        rw [isSign_of_isAlphanumeric ha] at hc
        exact Bool.false_ne_true hc
      rw [if_pos hc, if_pos hc, bodyPattern_run (s := c :: t), if_neg (fun h => h.1 (by
        rw [takeWhile_cons_of_neg (by rw [hnot]; exact Bool.false_ne_true)])), Option.or_none]
    · rw [if_neg hc, if_neg hc, Option.none_or]

lemma firstMatch_eq (source : CodeUnits) :
    re.firstMatch source = signedPattern.run (source.dropWhile isSpace) (fun _ => none)
      (fun rest g => if rest.isEmpty then some g else none) := by
  rw [Pattern.firstMatch, re, Pattern.run]
  refine run_many (fun c s hc => ?_) source
  have hsign : ¬isSign c = true := fun h => by
    rw [isSpace_of_isSign h] at hc
    exact Bool.false_ne_true hc
  have halpha : ¬isAlphanumeric c = true := fun h => by
    rw [isSpace_of_isAlphanumeric h] at hc
    exact Bool.false_ne_true hc
  change signedPattern.run (c :: s) _ _ = none
  rw [signedPattern_run]
  dsimp only
  rw [if_neg hsign, bodyPattern_run, if_neg fun h => h.1 (by rw [takeWhile_cons_of_neg halpha])]

/-- Where a class of characters ends. -/
lemma span_append {l m : CodeUnits} (hl : l.all p = true) (hm : ∀ c t, m = c :: t → p c = false) :
    (l ++ m).takeWhile p = l ∧ (l ++ m).dropWhile p = m := by
  rw [all_eq_true] at hl
  rw [takeWhile_append_of_pos hl, dropWhile_append_of_pos hl]
  cases m with
  | nil => exact ⟨append_nil l, rfl⟩
  | cons c t =>
    have hc : ¬p c = true := Bool.eq_false_iff.mp (hm c t rfl)
    rw [takeWhile_cons_of_neg hc, dropWhile_cons_of_neg hc]
    exact ⟨append_nil l, rfl⟩

variable {after before sign source : CodeUnits}

section

variable (h : Parts source before sign body after)

include h

lemma Parts.span_body :
    (body ++ after).takeWhile isAlphanumeric = body ∧
      (body ++ after).dropWhile isAlphanumeric = after := by
  refine span_append h.body fun c t hc => ?_
  have hspace := all_eq_true.mp h.after c (by rw [hc]; exact mem_cons_self)
  rw [← Bool.not_eq_true]
  intro halpha
  rw [isSpace_of_isAlphanumeric halpha] at hspace
  exact Bool.false_ne_true hspace

lemma Parts.dropWhile_before : source.dropWhile isSpace = sign ++ (body ++ after) := by
  rw [h.eq]
  refine (span_append h.before fun c t hc => ?_).2
  rcases h.sign with rfl | rfl | rfl
  · cases hbody : body with
    | nil => exact absurd hbody h.nonempty
    | cons b body' =>
      rw [hbody, nil_append, cons_append] at hc
      obtain ⟨rfl, -⟩ := cons_eq_cons.mp hc
      refine isSpace_of_isAlphanumeric (all_eq_true.mp h.body b ?_)
      rw [hbody]
      exact mem_cons_self
  · obtain ⟨rfl, -⟩ := cons_eq_cons.mp hc
    rfl
  · obtain ⟨rfl, -⟩ := cons_eq_cons.mp hc
    rfl

lemma Parts.firstMatch : re.firstMatch source = some (groupsOf sign body) := by
  obtain ⟨htake, hdrop⟩ := h.span_body
  have hrun : ∀ g, bodyPattern.run (body ++ after) g atEnd = some (update
      (update g (groupOf body) (some body)) 2 (some body)) := by
    intro g
    rw [bodyPattern_run, htake, hdrop, if_pos ⟨h.nonempty, h.after⟩]
  rw [firstMatch_eq, h.dropWhile_before, signedPattern_run]
  rcases h.sign with rfl | rfl | rfl
  · rw [nil_append]
    cases hbody : body with
    | nil => exact absurd hbody h.nonempty
    | cons b body' =>
      have halpha := all_eq_true.mp h.body b (by rw [hbody]; exact mem_cons_self)
      rw [hbody] at hrun
      rw [cons_append] at hrun ⊢
      dsimp only
      rw [if_neg (by rw [isSign_of_isAlphanumeric halpha]; exact Bool.false_ne_true), hrun]
      rfl
  · exact hrun _
  · exact hrun _

end

lemma exists_parts (h : re.firstMatch source ≠ none) :
    ∃ before sign body after, Parts source before sign body after := by
  have hpre : (source.takeWhile isSpace).all isSpace = true :=
    all_eq_true.mpr fun c hc => mem_takeWhile_imp hc
  have hsrc := source.takeWhile_append_dropWhile (p := isSpace)
  -- the body and the white space after it, once the sign is known
  have hparts : ∀ (sign s : CodeUnits) (g : Groups ℕ), (sign = [] ∨ sign = [43] ∨ sign = [45]) →
      source.dropWhile isSpace = sign ++ s → bodyPattern.run s g atEnd ≠ none →
      ∃ before sign body after, Parts source before sign body after := by
    intro sign s g hsign hdrop hrun
    rw [bodyPattern_run] at hrun
    split_ifs at hrun with hbody
    · refine ⟨_, sign, s.takeWhile isAlphanumeric, s.dropWhile isAlphanumeric, ?_, hpre, hsign,
        hbody.1, all_eq_true.mpr fun c hc => mem_takeWhile_imp hc, hbody.2⟩
      rw [takeWhile_append_dropWhile, ← hdrop, hsrc]
    · exact absurd rfl hrun
  rw [firstMatch_eq, signedPattern_run] at h
  cases hdrop : source.dropWhile isSpace with
  | nil =>
    rw [hdrop] at h
    exact absurd rfl h
  | cons c t =>
    rw [hdrop] at h
    dsimp only at h
    split_ifs at h with hc
    · refine hparts [c] t _ ?_ hdrop h
      simpa [isSign] using hc
    · exact hparts [] (c :: t) _ (.inl rfl) hdrop h

end

open Checked Executions Integers Patterns DigitStrings Numerals List Nat

variable {w : World} {a b : BigIntImpl} {x y : ℤ} {mode : Mode}

/-- The value of a character as a digit, and 36 of a character that is no digit. -/
def digitValue (c : ℕ) : ℕ :=
  if 48 ≤ c ∧ c ≤ 57 then c - 48
  else if 97 ≤ c ∧ c ≤ 122 then c - 87
  else if 65 ≤ c ∧ c ≤ 90 then c - 55
  else 36

/-- All characters are digits of the radix. -/
def Valid (radix : ℕ) (s : CodeUnits) : Prop := ∀ c ∈ s, digitValue c < radix

instance (radix : ℕ) (s : CodeUnits) : Decidable (Valid radix s) :=
  inferInstanceAs (Decidable (∀ c ∈ s, digitValue c < radix))

lemma valid_nil (radix : ℕ) : Valid radix [] := fun _ hc => absurd hc not_mem_nil

lemma valid_append {radix : ℕ} {s t : CodeUnits} :
    Valid radix (s ++ t) ↔ Valid radix s ∧ Valid radix t := forall_mem_append

def number (radix : ℕ) (s : CodeUnits) : ℕ := value radix (s.map digitValue)

lemma number_cons (radix c : ℕ) (s : CodeUnits) :
    number radix (c :: s) = digitValue c * radix ^ s.length + number radix s := by
  have h := value_append (b := radix) [digitValue c] (s.map digitValue)
  rw [length_map, singleton_append] at h
  rw [number, map_cons, h, number]
  congr 2
  exact (value_concat [] (digitValue c)).trans (by rw [value_nil, zero_mul, zero_add])

lemma number_append (radix : ℕ) (s t : CodeUnits) :
    number radix (s ++ t) = number radix s * radix ^ t.length + number radix t := by
  rw [number, map_append, value_append, length_map]
  rfl

lemma number_lt {radix : ℕ} {s : CodeUnits} (h : Valid radix s) :
    number radix s < radix ^ s.length := by
  have hlt := value_lt (b := radix) (l := s.map digitValue) fun d hd => by
    obtain ⟨c, hc, rfl⟩ := mem_map.mp hd
    exact h c hc
  rwa [length_map] at hlt

lemma codeUnitToRadixValue_eq {c : ℕ} (h : isAlphanumeric c = true) :
    codeUnitToRadixValue c = digitValue c := by
  have hlt : c < 123 := by
    simp [isAlphanumeric, isDecimal] at h
    omega
  have hall : ∀ c < 123, isAlphanumeric c = true → codeUnitToRadixValue c = digitValue c := by
    decide +kernel
  exact hall c hlt h

lemma isAlphanumeric_of_digitValue {c : ℕ} (h : digitValue c < 36) : isAlphanumeric c = true := by
  unfold digitValue at h
  simp only [isAlphanumeric, isDecimal, decide_eq_true_eq]
  split_ifs at h with h1 h2 h3
  · exact .inl h1
  · exact .inr (.inl h2)
  · exact .inr (.inr h3)
  · omega

lemma isDecimal_iff {c : ℕ} : isDecimal c = true ↔ digitValue c < 10 := by
  unfold digitValue
  simp only [isDecimal, decide_eq_true_eq]
  split_ifs <;> omega

lemma isHex_iff {c : ℕ} : isHex c = true ↔ digitValue c < 16 := by
  unfold digitValue
  simp only [isHex, isDecimal, decide_eq_true_eq]
  split_ifs <;> omega

section

variable (hw : Consistent w)

include hw

lemma fromInt_spec (hlow : minInt ≤ x) (hhigh : x ≤ maxInt) : Yields (fromInt x) w x := by
  unfold minInt at hlow
  unfold maxInt at hhigh
  rw [fromInt]
  split
  · rename_i hx
    obtain ⟨d, hd, hstored⟩ := store_digit (a := newDigits 2) (i := 1) (v := 0x80000000)
      (by decide) (by decide)
    refine Returns.digitwise hd ?_
    have hspec : Yields (create true 2 d) w (signed true (seg d 0 2)) :=
      create_spec hw (by rw [hstored.length]; decide) (by rw [hstored.length]; decide)
        fun h => absurd h (by decide)
    have hval : seg d 0 2 = 0x8000000000000000 := by
      rw [seg_succ, seg_succ, hstored.here, hstored.other 0 (by decide), digit_newDigits, seg_zero]
      rfl
    rw [hval] at hspec
    rw [hx]
    exact hspec
  · rename_i hne
    have hsigned : ∀ n : ℕ, n = x.natAbs → signed (decide (x < 0)) n = x := by
      rintro n rfl
      rw [signed]
      split_ifs with h <;> simp at h <;> omega
    split
    · rename_i hlt
      obtain ⟨d, hd, hstored⟩ := store_digit (a := newDigits 2) (i := 0) (by decide) hlt
      refine Returns.digitwise hd ?_
      have hspec : Yields (create (decide (x < 0)) 1 d) w (signed (decide (x < 0)) (seg d 0 1)) :=
        create_spec hw (by rw [hstored.length]; decide) (by rw [hstored.length]; decide)
          fun _ => by rw [hstored.other 1 (by decide), digit_newDigits]
      rwa [hsigned _ (by rw [seg_succ, hstored.here, seg_zero]; simp)] at hspec
    · rename_i hge
      have hmask : x.natAbs &&& digitMask = x.natAbs % digitBase :=
        and_two_pow_sub_one_eq_mod x.natAbs 32
      have hshift : x.natAbs >>> digitBits = x.natAbs / digitBase := shiftRight_eq_div_pow ..
      have hdiv : x.natAbs / digitBase < digitBase := by
        unfold digitBase
        omega
      obtain ⟨d, hd, hstored⟩ := store_digit (a := newDigits 2) (i := 0) (by decide)
        (mod_lt x.natAbs digitBase_pos)
      obtain ⟨d', hd', hstored'⟩ := store_digit (a := d) (i := 1)
        (by rw [hstored.length]; decide) hdiv
      rw [hmask, hshift]
      refine Returns.digitwise hd (Returns.digitwise hd' ?_)
      have hlen : d'.length = 2 := by
        rw [hstored'.length, hstored.length]
        rfl
      have hspec : Yields (create (decide (x < 0)) 2 d') w (signed (decide (x < 0)) (seg d' 0 2)) :=
        create_spec hw (by rw [hlen]) (by rw [hlen]) fun h => absurd h (by decide)
      rwa [hsigned _ (by
        rw [seg_succ, seg_succ, hstored'.here, hstored'.other 0 (by decide), hstored.here, seg_zero,
          zero_add, pow_zero, mul_one, pow_one]
        exact mod_add_div' _ _)] at hspec

lemma negateIf_spec {n : ℕ} (ha : Denotes w a n) (isNegative : Bool) :
    Yields (negateIf isNegative a) w (signed isNegative n) := by
  cases isNegative with
  | true => exact negate_spec hw ha
  | false => exact Yields.pure hw ha

lemma addDigit_spec (ha : Denotes w a x) (hb : Denotes w b y) {d : ℤ} (hlow : 0 ≤ d)
    (hhigh : d < 1000000000) : Yields (addDigit mode a b d) w (x * y + d) := by
  refine Yields.bind (times_spec hw ha hb) fun product w1 hw1 hproduct => ?_
  refine Yields.bind (fromInt_spec hw1.consistent (by unfold minInt; omega)
    (by unfold maxInt; omega))
    fun last w2 hw2 hlast => ?_
  exact plus_spec hw2.consistent (hproduct.grows hw2) hlast

lemma parseDecimalLoop_spec {r part count : ℕ} (source : CodeUnits) (hsrc : Valid 10 source)
    (ha : Denotes w a r) (hpart : part < 10 ^ count) (hcnt : count < 9)
    (hlen : (count + source.length) % 9 = 0) :
    Yields (parseDecimalLoop mode source part a count) w
      (((r * 10 ^ count + part) * 10 ^ source.length + number 10 source : ℕ) : ℤ) := by
  induction source generalizing w a r part count with
  | nil =>
    obtain rfl : count = 0 := by
      rw [length_nil] at hlen
      omega
    obtain rfl : part = 0 := by simpa using hpart
    refine Yields.pure hw ?_
    simpa [number] using ha
  | cons c source ih =>
    have hdigit := hsrc c mem_cons_self
    have hrest : Valid 10 source := fun d hd => hsrc d (mem_cons_of_mem _ hd)
    have hc : isDecimal c = true := isDecimal_iff.mpr hdigit
    have hpart' : (part : ℤ) * 10 + c - 48 = ((part * 10 + digitValue c : ℕ) : ℤ) := by
      simp only [isDecimal, decide_eq_true_eq] at hc
      rw [digitValue, if_pos hc]
      omega
    have hnext : part * 10 + digitValue c < 10 ^ (count + 1) := by
      omega
    rw [parseDecimalLoop, hpart', number_cons, length_cons]
    rw [length_cons] at hlen
    split
    · rename_i hnine
      rw [hnine] at hnext
      refine Yields.bind (addDigit_spec hw ha (oneBillion_denotes hw) (by omega)
        (by exact_mod_cast hnext)) fun result w1 hw1 hres => ?_
      have hloop := @ih w1 result hw1.consistent (r * 1000000000 + (part * 10 + digitValue c)) 0 0
        hrest (by exact_mod_cast hres) (by simp) (by omega) (by omega)
      obtain rfl : count = 8 := by omega
      rw [show (r * 10 ^ 8 + part) * 10 ^ (source.length + 1) +
          (digitValue c * 10 ^ source.length + number 10 source) =
        ((r * 1000000000 + (part * 10 + digitValue c)) * 10 ^ 0 + 0) * 10 ^ source.length +
          number 10 source by ring]
      exact hloop
    · rename_i hne
      have hloop := ih hw hrest ha hnext (by omega) (by omega)
      rw [show (r * 10 ^ count + part) * 10 ^ (source.length + 1) +
          (digitValue c * 10 ^ source.length + number 10 source) =
        (r * 10 ^ (count + 1) + (part * 10 + digitValue c)) * 10 ^ source.length +
          number 10 source by ring]
      exact hloop

lemma parseDecimal_spec {source : CodeUnits} (hsrc : Valid 10 source) (isNegative : Bool) :
    Yields (parseDecimal mode source isNegative) w (signed isNegative (number 10 source)) := by
  have hcnt : (if 9 - source.length % 9 = 9 then 0 else 9 - source.length % 9) < 9 ∧
      ((if 9 - source.length % 9 = 9 then 0 else 9 - source.length % 9) + source.length) % 9 =
        0 := by
    split <;> omega
  have hloop := @parseDecimalLoop_spec w zero mode hw 0 0 _ source hsrc (zero_denotes hw)
    (by positivity) hcnt.1 hcnt.2
  refine Yields.bind hloop fun result w1 hw1 hres => ?_
  simp only [zero_mul, zero_add, add_zero] at hres
  exact negateIf_spec hw1.consistent hres isNegative

end

lemma parseHexDigit_spec (source : CodeUnits) (hsrc : source.all isAlphanumeric = true) (n : ℕ) :
    parseHexDigit source n = if Valid 16 source then
      some ((n * 16 ^ source.length + number 16 source : ℕ) : ℤ) else none := by
  induction source generalizing n with
  | nil =>
    rw [parseHexDigit, if_pos (valid_nil 16)]
    simp [number]
  | cons c source ih =>
    rw [all_cons, Bool.and_eq_true] at hsrc
    rw [parseHexDigit, codeUnitToRadixValue_eq hsrc.1]
    by_cases hc : digitValue c < 16
    · have hok : Valid 16 (c :: source) ↔ Valid 16 source := by
        simp [Valid, hc]
      have hnext := ih hsrc.2 (n * 16 + digitValue c)
      push_cast at hnext
      rw [if_neg (by omega), hnext, number_cons, length_cons]
      simp only [hok]
      congr 2
      push_cast
      ring
    · rw [if_pos (by omega), if_neg fun h => hc (h c mem_cons_self)]

lemma parseHexLoop_succ {k : ℕ} {chunk rest : CodeUnits} (hchunk : chunk.length = 8)
    (digits : Digits) :
    parseHexLoop (k + 1) (chunk ++ rest) digits =
      (match parseHexDigit chunk 0 with
      | none => .ok none
      | some digit => store digits k digit >>= parseHexLoop k rest) := by
  have hne : (chunk ++ rest).isEmpty = false := by
    cases chunk with
    | nil => cases hchunk
    | cons => rfl
  rw [parseHexLoop, hne, if_neg Bool.false_ne_true, take_left' hchunk, drop_left' hchunk]

lemma exists_chunk {k : ℕ} {source : CodeUnits} (h : source.length = 8 * (k + 1)) :
    ∃ chunk rest, source = chunk ++ rest ∧ chunk.length = 8 ∧ rest.length = 8 * k := by
  refine ⟨source.take 8, source.drop 8, (take_append_drop ..).symm, ?_, ?_⟩
  · rw [length_take]
    omega
  · rw [length_drop]
    omega

lemma seg_succ_number {k : ℕ} {chunk rest : CodeUnits} {d : Digits}
    (hrest : rest.length = 8 * k) (hval : seg d 0 k = number 16 rest)
    (hdigit : digit d k = number 16 chunk) : seg d 0 (k + 1) = number 16 (chunk ++ rest) := by
  have hpow : digitBase ^ k = 16 ^ (8 * k) := by
    rw [pow_mul]
    rfl
  rw [seg_succ, hval, zero_add, hdigit, number_append, hrest, hpow]
  exact add_comm _ _

lemma parseHexLoop_spec {k : ℕ} {source : CodeUnits} {digits : Digits}
    (hsrc : source.all isAlphanumeric = true) (hlen : source.length = 8 * k)
    (hdigs : k ≤ digits.length) :
    (Valid 16 source → ∃ d, parseHexLoop k source digits = .ok (some d) ∧ Changed digits d 0 k ∧
      seg d 0 k = number 16 source) ∧
    (¬Valid 16 source → parseHexLoop k source digits = .ok none) := by
  induction k generalizing source digits with
  | zero =>
    obtain rfl : source = [] := length_eq_zero_iff.mp hlen
    exact ⟨fun _ => ⟨digits, rfl, .refl digits 0 0, rfl⟩, absurd (valid_nil 16)⟩
  | succ k ih =>
    obtain ⟨chunk, rest, rfl, hchunk, hrest⟩ := exists_chunk hlen
    rw [all_append, Bool.and_eq_true] at hsrc
    have hhex := parseHexDigit_spec chunk hsrc.1 0
    rw [zero_mul, zero_add] at hhex
    rw [parseHexLoop_succ hchunk, show (0 : ℤ) = ((0 : ℕ) : ℤ) from rfl, hhex, valid_append]
    by_cases hok : Valid 16 chunk
    · have hlt := number_lt hok
      rw [hchunk] at hlt
      obtain ⟨d1, hd1, hstored⟩ := store_digit (a := digits) (i := k) (by omega)
        (show number 16 chunk < digitBase from hlt)
      rw [if_pos hok]
      dsimp only
      rw [hd1, ok_bind]
      obtain ⟨hloop, hinvalid⟩ := ih hsrc.2 hrest (by rw [hstored.length]; omega)
      refine ⟨fun h => ?_, fun h => hinvalid fun hrestValid => h ⟨hok, hrestValid⟩⟩
      obtain ⟨d, hd, hchg, hval⟩ := hloop h.2
      refine ⟨d, hd, ⟨hchg.length.trans hstored.length, fun i hi => ?_⟩,
        seg_succ_number hrest hval (by rw [hchg.others k (by omega), hstored.here])⟩
      rw [hchg.others i (by omega), hstored.other i (by omega)]
    · rw [if_neg hok]
      exact ⟨fun h => absurd h.1 hok, fun _ => rfl⟩

/-- The object denotes the number, or both are missing. -/
def Reads (w : World) : Option BigIntImpl → Option ℤ → Prop
  | some a, some x => Denotes w a x
  | none, none => True
  | _, _ => False

/-- The program returns the number, or none. -/
def Parses (m : Exec (Option BigIntImpl)) (w : World) (x : Option ℤ) : Prop :=
  Returns m w fun r w' => Grows w w' ∧ Reads w' r x

lemma parses_none (hw : Consistent w) : Parses (pure none) w none :=
  Returns.pure ⟨.refl hw, trivial⟩

lemma parses_of_yields {m : Exec BigIntImpl} (h : Yields m w x) :
    Parses (m >>= fun result => pure (some result)) w (some x) := by
  refine Returns.bind h ?_
  rintro a w' ⟨hw', ha⟩
  exact Returns.pure ⟨hw', ha⟩

lemma parses_bind {α : Type} {m : Exec α} {P : α → World → Prop}
    {f : α → Exec (Option BigIntImpl)} {v : Option ℤ}
    (h : Returns m w fun r w' => Grows w w' ∧ P r w')
    (hf : ∀ r w', Grows w w' → P r w' → Parses (f r) w' v) : Parses (m >>= f) w v := by
  refine Returns.bind h ?_
  rintro r w' ⟨hw', hr⟩
  refine (hf r w' hw' hr).mono ?_
  rintro r' w'' ⟨hw'', hr'⟩
  exact ⟨hw'.trans hw'', hr'⟩

lemma parseHex_spec (hw : Consistent w) {source : CodeUnits} {startPos : ℕ}
    (hsrc : (source.drop startPos).all isAlphanumeric = true)
    (hne : source.drop startPos ≠ []) (isNegative : Bool) :
    Parses (parseHex source startPos isNegative) w
      (if Valid 16 (source.drop startPos) then
        some (signed isNegative (number 16 (source.drop startPos))) else none) := by
  rw [parseHex]
  generalize source.drop startPos = s at hsrc hne ⊢
  have hpos := length_pos_of_ne_nil hne
  -- the digits of the number and the characters of the first one
  obtain ⟨k, hk⟩ : ∃ k, (s.length + 8 - 1) / 8 = k + 1 :=
    ⟨(s.length + 8 - 1) / 8 - 1, by omega⟩
  rw [hk, Nat.add_sub_cancel]
  obtain ⟨first, rest, rfl, hfirst, hrest⟩ : ∃ first rest, s = first ++ rest ∧
      first.length = s.length - k * 8 ∧ rest.length = 8 * k :=
    ⟨s.take (s.length - k * 8), s.drop (s.length - k * 8), (take_append_drop ..).symm,
      by rw [length_take]; omega, by rw [length_drop]; omega⟩
  rw [← hfirst, take_left, drop_left]
  rw [all_append, Bool.and_eq_true] at hsrc
  have hhex := parseHexDigit_spec first hsrc.1 0
  rw [zero_mul, zero_add] at hhex
  rw [show (0 : ℤ) = ((0 : ℕ) : ℤ) from rfl, hhex]
  by_cases hok : Valid 16 first
  · rw [if_pos hok]
    have hlt : number 16 first < digitBase :=
      (number_lt hok).trans_le (Nat.pow_le_pow_right (by decide) (by omega : first.length ≤ 8))
    obtain ⟨d1, hd1, hstored⟩ := store_digit (a := newDigits (k + 1)) (i := k)
      (by rw [length_newDigits]; omega) hlt
    have hlen1 : d1.length = (k + 1) + (k + 1) % 2 := by rw [hstored.length, length_newDigits]
    refine Returns.digitwise hd1 ?_
    by_cases hrestValid : Valid 16 rest
    · obtain ⟨d, hd, hchg, hval⟩ := (parseHexLoop_spec hsrc.2 hrest
        (show k ≤ d1.length by omega)).1 hrestValid
      have hlen : d.length = (k + 1) + (k + 1) % 2 := by rw [hchg.length, hlen1]
      have hseg : seg d 0 (k + 1) = number 16 (first ++ rest) := seg_succ_number hrest hval
        (by rw [hchg.others k (by omega), hstored.here])
      rw [if_pos (valid_append.mpr ⟨hok, hrestValid⟩)]
      refine Returns.digitwise hd (Returns.digitwise (load_eq (by omega)) ?_)
      split_ifs with hzero
      · rw [← hseg, hzero.1, seg_succ, seg_zero, hzero.2, zero_mul, zero_add, signed_zero]
        exact Returns.pure ⟨.refl hw, zero_denotes hw⟩
      · refine parses_of_yields ?_
        rw [← hseg]
        refine create_spec hw (by omega) (by omega) fun hodd => ?_
        rw [hchg.others (k + 1) (by omega), hstored.other (k + 1) (by omega), digit_newDigits]
    · rw [if_neg fun h => hrestValid (valid_append.mp h).2]
      exact Returns.digitwise ((parseHexLoop_spec hsrc.2 hrest (by omega)).2 hrestValid)
        (parses_none hw)
  · rw [if_neg hok, if_neg fun h => hok (valid_append.mp h).1]
    exact parses_none hw

lemma parseRadixLoop_spec {radix : ℕ} (hradix : radix ≤ 36) (source : CodeUnits)
    (hsrc : source.all isAlphanumeric = true) (hw : Consistent w) {r : ℕ} (ha : Denotes w a r)
    (hb : Denotes w b radix) :
    Parses (parseRadixLoop mode radix b source a) w
      (if Valid radix source then some ((r * radix ^ source.length + number radix source : ℕ) : ℤ)
        else none) := by
  induction source generalizing w a r with
  | nil =>
    refine Returns.pure ⟨.refl hw, ?_⟩
    rw [length_nil, pow_zero, mul_one]
    exact ha
  | cons c source ih =>
    rw [all_cons, Bool.and_eq_true] at hsrc
    rw [parseRadixLoop, codeUnitToRadixValue_eq hsrc.1]
    by_cases hc : digitValue c < radix
    · have hok : Valid radix (c :: source) ↔ Valid radix source := by
        simp [Valid, hc]
      rw [if_neg (by omega)]
      refine parses_bind (addDigit_spec hw ha hb (by omega) (by omega)) fun result w1 hw1 hres => ?_
      have hloop := ih hsrc.2 hw1.consistent (r := r * radix + digitValue c)
        (by exact_mod_cast hres) (hb.grows hw1)
      simp only [hok, number_cons, length_cons]
      rw [show r * radix ^ (source.length + 1) +
          (digitValue c * radix ^ source.length + number radix source) =
        (r * radix + digitValue c) * radix ^ source.length + number radix source by ring]
      exact hloop
    · rw [if_pos (by omega), if_neg fun h => hc (h c mem_cons_self)]
      exact parses_none hw

lemma parseRadix_spec (hw : Consistent w) {radix : ℕ} (hradix : radix ≤ 36) {source : CodeUnits}
    (hsrc : source.all isAlphanumeric = true) (isNegative : Bool) :
    Parses (parseRadix mode source radix isNegative) w
      (if Valid radix source then some (signed isNegative (number radix source)) else none) := by
  refine parses_bind (fromInt_spec hw (x := radix) (by unfold minInt; omega)
    (by unfold maxInt; omega)) fun base w1 hw1 hbase => ?_
  have hloop := @parseRadixLoop_spec w1 zero base mode radix hradix source hsrc hw1.consistent 0
    (zero_denotes hw1.consistent) hbase
  rw [zero_mul, zero_add] at hloop
  refine parses_bind hloop fun r w2 hw2 hr => ?_
  by_cases hok : Valid radix source
  · rw [if_pos hok] at hr ⊢
    cases r with
    | none => exact hr.elim
    | some result => exact parses_of_yields (negateIf_spec hw2.consistent hr isNegative)
  · rw [if_neg hok] at hr ⊢
    cases r with
    | none => exact parses_none hw2.consistent
    | some result => exact hr.elim

/-- The number of the body of a literal. Without a radix it may be hexadecimal with a mark. -/
def bodyValue (radix : Option ℤ) (body : CodeUnits) : Option ℕ :=
  match radix with
  | none =>
    if body.all isDecimal then some (number 10 body)
    else if isHexLiteral body then some (number 16 (body.drop 2))
    else none
  | some radix => if Valid radix.toNat body then some (number radix.toNat body) else none

lemma groupOf_cases (body : CodeUnits) :
    (isHexLiteral body = true ∧ body.all isDecimal = false ∧ groupOf body = 3) ∨
      (isHexLiteral body = false ∧ body.all isDecimal = true ∧ groupOf body = 4) ∨
      (isHexLiteral body = false ∧ body.all isDecimal = false ∧ groupOf body = 5) := by
  rw [groupOf]
  cases hhex : isHexLiteral body with
  | true =>
    obtain ⟨x, t, rfl, hx, -⟩ := isHexLiteral_iff.mp hhex
    refine .inl ⟨rfl, ?_, rfl⟩
    rcases hx with rfl | rfl <;> rfl
  | false =>
    cases hdec : body.all isDecimal with
    | true => exact .inr (.inl ⟨rfl, rfl, rfl⟩)
    | false => exact .inr (.inr ⟨rfl, rfl, rfl⟩)

lemma groupsOf_apply (sign body : CodeUnits) {i : ℕ} (hi : 3 ≤ i) :
    groupsOf sign body i = if i = groupOf body then some body else none := by
  rw [groupsOf, update_of_ne (by omega), update_apply, update_of_ne (by omega)]

lemma groupsOf_sign (sign body : CodeUnits) : groupsOf sign body 1 = some sign := by
  have hne : 1 ≠ groupOf body := by
    rcases groupOf_cases body with h | h | h <;> rw [h.2.2] <;> decide
  rw [groupsOf, update_of_ne (by decide), update_of_ne hne, update_self]

lemma valid_of_isDecimal {body : CodeUnits} (h : body.all isDecimal = true) : Valid 10 body :=
  fun c hc => isDecimal_iff.mp (all_eq_true.mp h c hc)

lemma map_ite_some {α β : Type} (c : Prop) [Decidable c] (x : α) (f : α → β) :
    (if c then some x else none).map f = if c then some (f x) else none := by
  split <;> rfl

lemma tryParse_spec (hw : Consistent w) {radix : Option ℤ}
    (hradix : ∀ r, radix = some r → 2 ≤ r ∧ r ≤ 36) {source before sign body after : CodeUnits}
    (h : Parts source before sign body after) :
    Parses (tryParse mode source radix) w
      ((bodyValue radix body).map fun n => signed (decide (sign = [45])) n) := by
  have hsrc : source ≠ [] := by
    rw [h.eq]
    have := h.nonempty
    simp [this]
  have hthree := groupsOf_apply sign body (i := 3) (by decide)
  have hfour := groupsOf_apply sign body (i := 4) (by decide)
  have hfive := groupsOf_apply sign body (i := 5) (by decide)
  have hsign : decide (groupsOf sign body 1 = some [45]) = decide (sign = [45]) := by
    rw [groupsOf_sign]
    simp
  rw [tryParse, if_neg hsrc, h.firstMatch]
  dsimp only
  rw [hthree, hfour, hfive, hsign]
  cases radix with
  | none =>
    rw [bodyValue]
    rcases groupOf_cases body with ⟨hhex, hdec, hgroup⟩ | ⟨hhex, hdec, hgroup⟩ |
      ⟨hhex, hdec, hgroup⟩
    · obtain ⟨x, t, hbody, -, hne, hall⟩ := isHexLiteral_iff.mp hhex
      have hdrop : body.drop 2 = t := by rw [hbody]; rfl
      have hok : Valid 16 t := fun c hc => isHex_iff.mp (all_eq_true.mp hall c hc)
      have halpha : t.all isAlphanumeric = true :=
        all_eq_true.mpr fun c hc => isAlphanumeric_of_isHex (all_eq_true.mp hall c hc)
      have hspec := @parseHex_spec w hw body 2 (by rw [hdrop]; exact halpha)
        (by rw [hdrop]; exact hne) (decide (sign = [45]))
      rw [hdrop, if_pos hok] at hspec
      simpa [hgroup, hhex, hdec, hdrop] using hspec
    · have hspec := @parseDecimal_spec w mode hw body (valid_of_isDecimal hdec)
        (decide (sign = [45]))
      simpa [hgroup, hhex, hdec] using parses_of_yields hspec
    · simpa [hgroup, hhex, hdec] using parses_none hw
  | some r =>
    obtain ⟨hlow, hhigh⟩ := hradix r rfl
    obtain ⟨n, rfl⟩ := Int.eq_ofNat_of_zero_le (show 0 ≤ r by omega)
    have hhexSpec := @parseHex_spec w hw body 0 h.body h.nonempty (decide (sign = [45]))
    have hradixSpec := @parseRadix_spec w mode hw n (by omega) body h.body (decide (sign = [45]))
    rw [bodyValue, Int.toNat_natCast, map_ite_some]
    dsimp only
    rw [if_neg (by omega)]
    rcases groupOf_cases body with ⟨hhex, hdec, hgroup⟩ | ⟨hhex, hdec, hgroup⟩ |
      ⟨hhex, hdec, hgroup⟩
    · simpa [hgroup] using hradixSpec
    · by_cases hten : n = 10
      · subst hten
        have hdecimal := valid_of_isDecimal hdec
        have hspec := @parseDecimal_spec w mode hw body hdecimal (decide (sign = [45]))
        simpa [hgroup, hdecimal] using parses_of_yields hspec
      · by_cases hsixteen : n = 16
        · subst hsixteen
          simpa [hgroup] using hhexSpec
        · have hne : (n : ℤ) ≠ 10 ∧ (n : ℤ) ≠ 16 := by omega
          simpa [hgroup, hne.1, hne.2] using hradixSpec
    · by_cases hsixteen : n = 16
      · subst hsixteen
        simpa [hgroup] using hhexSpec
      · have hne : (n : ℤ) ≠ 16 := by omega
        simpa [hgroup, hne] using hradixSpec

/-- White space around an optional sign, a mark and at least one digit, which denote the
number. -/
def Numeral (mark : CodeUnits) (radix : ℕ) (source : CodeUnits) (n : ℤ) : Prop :=
  ∃ before sign digits after, source = before ++ (sign ++ (mark ++ (digits ++ after))) ∧
    before.all isSpace = true ∧ after.all isSpace = true ∧
    (sign = [] ∨ sign = [43] ∨ sign = [45]) ∧ digits ≠ [] ∧ Valid radix digits ∧
    n = signed (decide (sign = [45])) (number radix digits)

/-- The strings that `parse` has to accept, and their numbers. -/
def Parsable (radix : Option ℤ) (source : CodeUnits) (n : ℤ) : Prop :=
  match radix with
  | none => Numeral [] 10 source n ∨ Numeral (codeUnits "0x") 16 source n ∨
      Numeral (codeUnits "0X") 16 source n
  | some radix => 2 ≤ radix ∧ radix ≤ 36 ∧ Numeral [] radix.toNat source n

lemma Numeral.parts {mark : CodeUnits} {radix : ℕ} {source : CodeUnits} {n : ℤ}
    (hmark : mark.all isAlphanumeric = true) (hradix : radix ≤ 36)
    (h : Numeral mark radix source n) : ∃ before sign digits after,
      Parts source before sign (mark ++ digits) after ∧ digits ≠ [] ∧ Valid radix digits ∧
        n = signed (decide (sign = [45])) (number radix digits) := by
  obtain ⟨before, sign, digits, after, hsrc, hpre, hafter, hsign, hne, hok, hn⟩ := h
  refine ⟨before, sign, digits, after, ⟨?_, hpre, hsign, ?_, ?_, hafter⟩, hne, hok, hn⟩
  · rw [hsrc, append_assoc]
  · exact append_ne_nil_of_right_ne_nil _ hne
  · rw [all_append, hmark, Bool.true_and, all_eq_true]
    exact fun c hc => isAlphanumeric_of_digitValue ((hok c hc).trans_le hradix)

lemma Parts.numeral {mark : CodeUnits} {radix : ℕ}
    {source before sign body after digits : CodeUnits}
    (h : Parts source before sign body after) (hbody : body = mark ++ digits) (hne : digits ≠ [])
    (hok : Valid radix digits) :
    Numeral mark radix source (signed (decide (sign = [45])) (number radix digits)) := by
  refine ⟨before, sign, digits, after, ?_, h.before, h.after, h.sign, hne, hok, rfl⟩
  rw [h.eq, hbody, append_assoc]

lemma Parts.parsable {radix : Option ℤ} (hradix : ∀ r, radix = some r → 2 ≤ r ∧ r ≤ 36)
    {source before sign body after : CodeUnits} (h : Parts source before sign body after) {n : ℕ}
    (hn : bodyValue radix body = some n) :
    Parsable radix source (signed (decide (sign = [45])) n) := by
  cases radix with
  | none =>
    rw [bodyValue] at hn
    split at hn
    · rename_i hdec
      cases hn
      exact .inl (h.numeral rfl h.nonempty (valid_of_isDecimal hdec))
    · split at hn
      · rename_i hhex
        cases hn
        obtain ⟨x, t, rfl, hx, hne, hall⟩ := isHexLiteral_iff.mp hhex
        have hok : Valid 16 t := fun c hc => isHex_iff.mp (all_eq_true.mp hall c hc)
        rcases hx with rfl | rfl
        · exact .inr (.inl (h.numeral rfl hne hok))
        · exact .inr (.inr (h.numeral rfl hne hok))
      · cases hn
  | some r =>
    obtain ⟨hlow, hhigh⟩ := hradix r rfl
    rw [bodyValue] at hn
    split at hn
    · rename_i hok
      cases hn
      exact ⟨hlow, hhigh, h.numeral rfl h.nonempty hok⟩
    · cases hn

lemma bodyValue_hex {x : ℕ} {t : CodeUnits} (hx : x = 120 ∨ x = 88) (hne : t ≠ [])
    (hok : Valid 16 t) : bodyValue none (48 :: x :: t) = some (number 16 t) := by
  have hhex : isHexLiteral (48 :: x :: t) = true := isHexLiteral_iff.mpr
    ⟨x, t, rfl, hx, hne, all_eq_true.mpr fun c hc => isHex_iff.mpr (hok c hc)⟩
  rcases groupOf_cases (48 :: x :: t) with ⟨-, hdec, -⟩ | ⟨hnot, -⟩ | ⟨hnot, -⟩
  · rw [bodyValue, hdec, if_neg Bool.false_ne_true, if_pos hhex]
    rfl
  · exact absurd (hhex.symm.trans hnot) (by decide)
  · exact absurd (hhex.symm.trans hnot) (by decide)

lemma Parsable.parts {radix : Option ℤ} {source : CodeUnits} {n : ℤ}
    (h : Parsable radix source n) : ∃ before sign body after k,
      Parts source before sign body after ∧ bodyValue radix body = some k ∧
        n = signed (decide (sign = [45])) k := by
  cases radix with
  | none =>
    rcases h with h | h | h
    · obtain ⟨before, sign, digits, after, hparts, -, hok, rfl⟩ := h.parts rfl (by decide)
      refine ⟨before, sign, digits, after, _, hparts, ?_, rfl⟩
      rw [bodyValue, if_pos (all_eq_true.mpr fun c hc => isDecimal_iff.mpr (hok c hc))]
    · obtain ⟨before, sign, digits, after, hparts, hne, hok, rfl⟩ := h.parts rfl (by decide)
      exact ⟨before, sign, _, after, _, hparts, bodyValue_hex (.inl rfl) hne hok, rfl⟩
    · obtain ⟨before, sign, digits, after, hparts, hne, hok, rfl⟩ := h.parts rfl (by decide)
      exact ⟨before, sign, _, after, _, hparts, bodyValue_hex (.inr rfl) hne hok, rfl⟩
  | some r =>
    obtain ⟨hlow, hhigh, h⟩ := h
    obtain ⟨before, sign, digits, after, hparts, -, hok, rfl⟩ := h.parts rfl (by omega)
    refine ⟨before, sign, digits, after, _, hparts, ?_, rfl⟩
    exact if_pos hok

lemma Parsable.radix {radix : Option ℤ} {source : CodeUnits} {n : ℤ}
    (h : Parsable radix source n) (r : ℤ) (hr : radix = some r) : 2 ≤ r ∧ r ≤ 36 := by
  subst hr
  exact ⟨h.1, h.2.1⟩

/-- A parsable string gives its number. -/
lemma parse_spec (hw : Consistent w) {radix : Option ℤ} {source : CodeUnits} {n : ℤ}
    (h : Parsable radix source n) :
    Returns (parse mode source radix) w fun a w' => Grows w w' ∧ Denotes w' a n := by
  obtain ⟨before, sign, body, after, k, hparts, hval, rfl⟩ := h.parts
  obtain ⟨r, w', hrun, hw', hr⟩ := @tryParse_spec w mode hw radix h.radix source _ _ _ _ hparts
  rw [hval] at hr
  cases r with
  | none => exact hr.elim
  | some a =>
    refine ⟨a, w', ?_, hw', hr⟩
    rw [parse, hrun]

lemma parse_refuses (hw : Consistent w) {radix : Option ℤ}
    (hradix : ∀ r, radix = some r → 2 ≤ r ∧ r ≤ 36) {source : CodeUnits}
    (h : ∀ n, ¬Parsable radix source n) : parse mode source radix w = .error .formatException := by
  cases hmatch : re.firstMatch source with
  | none =>
    have hrun : tryParse mode source radix = pure none := by
      rw [tryParse, hmatch]
      split <;> rfl
    rw [parse, hrun]
    rfl
  | some g =>
    obtain ⟨before, sign, body, after, hparts⟩ :=
      exists_parts (by rw [hmatch]; exact Option.some_ne_none g)
    have hnone : bodyValue radix body = none := by
      rw [← Option.not_isSome_iff_eq_none, Option.isSome_iff_exists]
      rintro ⟨n, hn⟩
      exact h _ (hparts.parsable hradix hn)
    obtain ⟨r, w', hrun, hw', hr⟩ := @tryParse_spec w mode hw radix hradix source _ _ _ _ hparts
    rw [hnone] at hr
    cases r with
    | none => rw [parse, hrun]
    | some a => exact hr.elim

lemma parse_radix_out_of_range {r : ℤ} (hr : r < 2 ∨ 36 < r) (source : CodeUnits) :
    parse mode source (some r) w = .error .formatException ∨
      parse mode source (some r) w = .error (.error .rangeError) := by
  have hrun : tryParse mode source (some r) = pure none ∨
      tryParse mode source (some r) = throw .rangeError := by
    rw [tryParse]
    by_cases hsrc : source = []
    · exact .inl (if_pos hsrc)
    · rw [if_neg hsrc]
      cases re.firstMatch source with
      | none => exact .inl rfl
      | some g => exact .inr (if_pos hr)
  rw [parse]
  rcases hrun with hrun | hrun
  · rw [hrun]
    exact .inl rfl
  · rw [hrun]
    exact .inr rfl

end DartSdk.BigInts
