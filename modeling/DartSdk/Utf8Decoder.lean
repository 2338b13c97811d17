import DartSdk.Checked
import DartSdk.Words
import DartSdk.Machines

/-!
The UTF-8 decoder of sdk/lib/convert/utf.dart, with the sinks of string_conversion.dart that
feed it in chunks. A code unit of the input is any integer. A string is the list of its UTF-16
code units, and the decoder returns the strings that it writes to its `StringSink`. A
`FormatException` is a result. The loops of the decoder do what a machine does that reads one unit
at a time, so chunks make no difference to the decoder. They do to `_Utf8ConversionSink`: a last
slice that writes something closes the sink below it without a look at an unfinished sequence.
-/

namespace DartSdk.Utf8Decoder

open Checked

abbrev Text := List ℕ

def unicodeReplacementCharacterRune : ℕ := 0xFFFD
def unicodeBomCharacterRune : ℕ := 0xFEFF

/-- What a `FormatException` is about. -/
inductive Problem
  | unfinished
  | badEncoding (unit : ℤ)
  | overlong (value : ℕ)
  | outsideRange (value : ℕ)
  | negative (unit : ℤ)
  deriving DecidableEq

/-- `toRadixString(16)`. -/
def hex (n : ℤ) : String :=
  (if n < 0 then "-" else "") ++ String.ofList (Nat.toDigits 16 n.natAbs)

def Problem.message : Problem → String
  | .unfinished => "Unfinished UTF-8 octet sequence"
  | .badEncoding unit => "Bad UTF-8 encoding 0x" ++ hex unit
  | .overlong value => "Overlong encoding of 0x" ++ hex value
  | .outsideRange value => "Character outside valid Unicode range: 0x" ++ hex value
  | .negative unit => "Negative UTF-8 code unit: -0x" ++ hex (-unit)

structure FormatException where
  problem : Problem
  source : Option (List ℤ)
  offset : Option ℤ
  deriving DecidableEq

/-- A result, or the exception in its place. -/
abbrev Thrown (α : Type) := Except FormatException α

structure Decoder where
  isFirstCharacter : Bool
  value : ℕ
  expectedUnits : ℕ
  extraUnits : ℕ
  deriving DecidableEq

def newDecoder : Decoder := ⟨true, 0, 0, 0⟩

def Decoder.hasPartialInput (d : Decoder) : Bool := 0 < d.expectedUnits

def fourByteLimit : ℕ := 0x10FFFF

def limits : List ℕ := [0x7F, 0x7FF, 0xFFFF, fourByteLimit]

def read {α : Type} (list : List α) (i : ℕ) : Result α :=
  match list[i]? with
  | some element => .ok element
  | none => .error .outOfBounds

/-- The string of `writeCharCode`. -/
def charCode (code : ℕ) : Text :=
  if code ≤ 0xFFFF then [code]
  else [0xD800 ||| (code - 0x10000) >>> 10, 0xDC00 ||| (code - 0x10000) &&& 0x3FF]

/-- The locals of `convert`, with the strings written so far. -/
structure Locals where
  i : ℕ
  value : ℕ
  expectedUnits : ℕ
  extraUnits : ℕ
  isFirstCharacter : Bool
  written : List Text
  deriving DecidableEq

def Locals.write (l : Locals) (text : Text) : Locals := { l with written := l.written ++ [text] }

/-- Writes the value of a sequence, unless it is a leading byte order mark. -/
def Locals.writeValue (l : Locals) : Locals :=
  let l := if !l.isFirstCharacter || l.value != unicodeBomCharacterRune then
      l.write (charCode l.value)
    else l
  { l with isFirstCharacter := false }

section

variable (allowMalformed : Bool) (codeUnits : List ℤ) (endIndex : ℕ)

/-- How the inner loop of a multibyte sequence ends. -/
inductive Multibyte
  | atEnd (l : Locals)
  | bad (unit : ℤ) (l : Locals)
  | complete (l : Locals)

/-- The `do` loop over the units of a multibyte sequence. -/
def multibyteLoop (l : Locals) : Result Multibyte :=
  loop (fun l : Locals =>
    if l.i = endIndex then .ok (.inr (.atEnd l))
    else do
      let unit ← read codeUnits l.i
      if unit.land 0xC0 ≠ 0x80 then .ok (.inr (.bad unit l))
      else
        let l := { l with
          value := l.value <<< 6 ||| (unit.land 0x3F).toNat
          expectedUnits := l.expectedUnits - 1
          i := l.i + 1 }
        if 0 < l.expectedUnits then .ok (.inl l) else .ok (.inr (.complete l)))
    l.expectedUnits l

/-- The checks after the last unit of a multibyte sequence. -/
def complete (l : Locals) : Result (Thrown Locals) := do
  let limit ← read limits (l.extraUnits - 1)
  let offset : ℤ := l.i - l.extraUnits - 1
  if l.value ≤ limit ∧ !allowMalformed then
    .ok (.error ⟨.overlong l.value, some codeUnits, some offset⟩)
  else
    let l := if l.value ≤ limit then
        { l with expectedUnits := 0, extraUnits := 0, value := unicodeReplacementCharacterRune }
      else l
    if fourByteLimit < l.value ∧ !allowMalformed then
      .ok (.error ⟨.outsideRange l.value, some codeUnits, some offset⟩)
    else
      let l := if fourByteLimit < l.value then { l with value := unicodeReplacementCharacterRune }
        else l
      .ok (.ok l.writeValue)

/-- The part of the outer loop labelled `multibyte`: `false` breaks the outer loop. -/
def multibyte (l : Locals) : Result (Thrown (Locals × Bool)) := do
  match ← multibyteLoop codeUnits endIndex l with
  | .atEnd l => .ok (.ok (l, false))
  | .bad unit l =>
    if !allowMalformed then .ok (.error ⟨.badEncoding unit, some codeUnits, some l.i⟩)
    else
      .ok (.ok ({ l with expectedUnits := 0, isFirstCharacter := false }.write
        (charCode unicodeReplacementCharacterRune), true))
  | .complete l => do
      match ← complete allowMalformed codeUnits l with
      | .ok l => .ok (.ok (l, true))
      | .error e => .ok (.error e)

def scanOneByteCharacters (start : ℕ) : Result ℕ :=
  loop (fun i =>
    if i < endIndex then do
      let unit ← read codeUnits i
      if unit.land 0x7F ≠ unit then .ok (.inr (i - start)) else .ok (.inl (i + 1))
    else .ok (.inr (endIndex - start))) (endIndex - start + 1) start

/-- `String.fromCharCodes(codeUnits, start, start + count)` for one byte characters. -/
def oneByteText (start count : ℕ) : Text := ((codeUnits.drop start).take count).map Int.toNat

/-- The locals after so many one byte characters. -/
def Locals.afterOneBytes (codeUnits : List ℤ) (l : Locals) (count : ℕ) : Locals :=
  if 0 < count then
    { l with isFirstCharacter := false, i := l.i + count }.write (oneByteText codeUnits l.i count)
  else l

/-- How the loop over the units between multibyte sequences ends. -/
inductive Scan
  | atEnd (l : Locals)
  | lead (l : Locals)
  | thrown (e : FormatException)

/-- One unit that is not a one byte character: a lead unit ends the loop. -/
def scanUnit (unit : ℤ) (l : Locals) : Result (Locals ⊕ Scan) :=
  if unit < 0 then
    if !allowMalformed then
      .ok (.inr (.thrown ⟨.negative unit, some codeUnits, some (l.i - 1)⟩))
    else .ok (.inl (l.write (charCode unicodeReplacementCharacterRune)))
  else do
    check (0x7F < unit)
    if unit.land 0xE0 = 0xC0 then
      .ok (.inr (.lead
        { l with value := (unit.land 0x1F).toNat, expectedUnits := 1, extraUnits := 1 }))
    else if unit.land 0xF0 = 0xE0 then
      .ok (.inr (.lead
        { l with value := (unit.land 0x0F).toNat, expectedUnits := 2, extraUnits := 2 }))
    else if unit.land 0xF8 = 0xF0 ∧ unit < 0xF5 then
      .ok (.inr (.lead
        { l with value := (unit.land 0x07).toNat, expectedUnits := 3, extraUnits := 3 }))
    else if !allowMalformed then
      .ok (.inr (.thrown ⟨.badEncoding unit, some codeUnits, some (l.i - 1)⟩))
    else
      .ok (.inl ({ l with
        value := unicodeReplacementCharacterRune
        expectedUnits := 0
        extraUnits := 0
        isFirstCharacter := false }.write (charCode unicodeReplacementCharacterRune)))

/-- The loop over the units between multibyte sequences. -/
def scanLoop (l : Locals) : Result Scan :=
  loop (fun l : Locals =>
    if l.i < endIndex then do
      let oneBytes ← scanOneByteCharacters codeUnits endIndex l.i
      let l := l.afterOneBytes codeUnits oneBytes
      if 0 < oneBytes ∧ l.i = endIndex then .ok (.inr (.atEnd l))
      else do
        let unit ← read codeUnits l.i
        scanUnit allowMalformed codeUnits unit { l with i := l.i + 1 }
    else .ok (.inr (.atEnd l))) (endIndex - l.i + 1) l

/-- The start of a round: a sequence that is under way goes on. -/
def enterRound (l : Locals) : Result (Thrown (Locals × Bool)) :=
  if 0 < l.expectedUnits then multibyte allowMalformed codeUnits endIndex l else .ok (.ok (l, true))

/-- One round of the loop labelled `loop`. -/
def convertRound (l : Locals) : Result (Locals ⊕ Thrown Locals) := do
  match ← enterRound allowMalformed codeUnits endIndex l with
  | .error e => .ok (.inr (.error e))
  | .ok (l, false) => .ok (.inr (.ok l))
  | .ok (l, true) => do
      match ← scanLoop allowMalformed codeUnits endIndex l with
      | .atEnd l => .ok (.inr (.ok l))
      | .lead l => .ok (.inl l)
      | .thrown e => .ok (.inr (.error e))

end

/-- `convert(codeUnits, startIndex, endIndex)`, with the strings that it writes. -/
def convert (allowMalformed : Bool) (codeUnits : List ℤ) (startIndex endIndex : ℕ) (d : Decoder) :
    Result (Thrown (List Text × Decoder)) := do
  let l : Locals := ⟨startIndex, d.value, d.expectedUnits, d.extraUnits, d.isFirstCharacter, []⟩
  match ← loop (convertRound allowMalformed codeUnits endIndex) (endIndex - startIndex + 1) l with
  | .error e => .ok (.error e)
  | .ok l =>
    if 0 < l.expectedUnits then
      .ok (.ok (l.written, ⟨l.isFirstCharacter, l.value, l.expectedUnits, l.extraUnits⟩))
    else .ok (.ok (l.written, ⟨l.isFirstCharacter, 0, 0, 0⟩))

def flush (allowMalformed : Bool) (d : Decoder) (source : Option (List ℤ)) (offset : Option ℤ) :
    Thrown (List Text × Decoder) :=
  if d.hasPartialInput then
    if !allowMalformed then .error ⟨.unfinished, source, offset⟩
    else .ok ([charCode unicodeReplacementCharacterRune], { d with
      value := 0
      expectedUnits := 0
      extraUnits := 0 })
  else .ok ([], d)

/-- `Utf8Decoder.convert` of a whole list. -/
def decode (allowMalformed : Bool) (codeUnits : List ℤ) : Result (Thrown Text) := do
  let length := codeUnits.length
  let oneBytes ← scanOneByteCharacters codeUnits length 0
  let firstPart := oneByteText codeUnits 0 oneBytes
  if 0 < oneBytes ∧ oneBytes = length then .ok (.ok firstPart)
  else
    let decoder := { newDecoder with isFirstCharacter := !(0 < oneBytes : Bool) }
    match ← convert allowMalformed codeUnits oneBytes length decoder with
    | .error e => .ok (.error e)
    | .ok (written, decoder) =>
      match flush allowMalformed decoder (some codeUnits) (some length) with
      | .error e => .ok (.error e)
      | .ok (flushed, _) => .ok (.ok (firstPart ++ written.flatten ++ flushed.flatten))

/-- What the sink downstream is told. -/
inductive Event
  | string (text : Text)
  | close
  deriving DecidableEq

/-- A slice of a list of code units. -/
structure Slice where
  chunk : List ℤ
  startIndex : ℕ
  endIndex : ℕ
  start_le : startIndex ≤ endIndex
  end_le : endIndex ≤ chunk.length

def Slice.units (s : Slice) : List ℤ := (s.chunk.drop s.startIndex).take (s.endIndex - s.startIndex)

/-- The slice that `add` makes of a chunk. -/
def Slice.whole (chunk : List ℤ) : Slice := ⟨chunk, 0, chunk.length, Nat.zero_le _, le_refl _⟩

/-- `_Utf8StringSinkAdapter`, which writes at once, and `_Utf8ConversionSink`, which collects in a
buffer. -/
inductive SinkKind
  | stringSinkAdapter
  | conversionSink
  deriving DecidableEq

/-- `close()` of a sink, with the events downstream. -/
def close (allowMalformed : Bool) (kind : SinkKind) (d : Decoder) : Thrown (List Event) :=
  match flush allowMalformed d none none with
  | .error e => .error e
  | .ok (written, _) =>
    match kind with
    | .stringSinkAdapter => .ok (written.map .string ++ [.close])
    | .conversionSink =>
      -- The buffer is empty between the calls.
      let buffer := written.flatten
      if buffer ≠ [] then .ok [.string buffer, .close] else .ok [.close]

/-- `addSlice(chunk, startIndex, endIndex, isLast)`. -/
def addSlice (allowMalformed : Bool) (kind : SinkKind) (s : Slice) (isLast : Bool) (d : Decoder) :
    Result (Thrown (List Event × Decoder)) := do
  match ← convert allowMalformed s.chunk s.startIndex s.endIndex d with
  | .error e => .ok (.error e)
  | .ok (written, d) =>
    match kind with
    | .stringSinkAdapter =>
      if isLast then
        match close allowMalformed kind d with
        | .error e => .ok (.error e)
        | .ok events => .ok (.ok (written.map .string ++ events, d))
      else .ok (.ok (written.map .string, d))
    | .conversionSink =>
      let buffer := written.flatten
      if buffer ≠ [] then
        .ok (.ok (if isLast then [.string buffer, .close] else [.string buffer], d))
      else if isLast then
        match close allowMalformed kind d with
        | .error e => .ok (.error e)
        | .ok events => .ok (.ok (events, d))
      else .ok (.ok ([], d))

/-- How the input ends: by `close()`, or by a slice with `isLast`. -/
inductive Ending
  | close
  | last (s : Slice)

def Ending.units : Ending → List ℤ
  | .close => []
  | .last s => s.units

/-- The slices in order and the ending, with all events downstream. -/
def deliver (allowMalformed : Bool) (kind : SinkKind) (ending : Ending) :
    List Slice → Decoder → Result (Thrown (List Event))
  | [], d =>
    match ending with
    | .close => .ok (Utf8Decoder.close allowMalformed kind d)
    | .last s => do
        match ← addSlice allowMalformed kind s true d with
        | .error e => .ok (.error e)
        | .ok (events, _) => .ok (.ok events)
  | s :: slices, d => do
      match ← addSlice allowMalformed kind s false d with
      | .error e => .ok (.error e)
      | .ok (events, d) =>
        match ← deliver allowMalformed kind ending slices d with
        | .error e => .ok (.error e)
        | .ok rest => .ok (.ok (events ++ rest))

open TwosComplement Transducers List Nat

/-- A unit that does not continue a sequence. -/
def startUnit (allowMalformed : Bool) (isFirstCharacter : Bool) (unit : ℤ) :
    Except Problem (Text × Decoder) :=
  if unit.land 0x7F = unit then .ok ([unit.toNat], ⟨false, 0, 0, 0⟩)
  else if unit < 0 then
    if !allowMalformed then .error (.negative unit)
    else .ok (charCode unicodeReplacementCharacterRune, ⟨isFirstCharacter, 0, 0, 0⟩)
  else if unit.land 0xE0 = 0xC0 then .ok ([], ⟨isFirstCharacter, (unit.land 0x1F).toNat, 1, 1⟩)
  else if unit.land 0xF0 = 0xE0 then .ok ([], ⟨isFirstCharacter, (unit.land 0x0F).toNat, 2, 2⟩)
  else if unit.land 0xF8 = 0xF0 ∧ unit < 0xF5 then
    .ok ([], ⟨isFirstCharacter, (unit.land 0x07).toNat, 3, 3⟩)
  else if !allowMalformed then .error (.badEncoding unit)
  else .ok (charCode unicodeReplacementCharacterRune, ⟨false, 0, 0, 0⟩)

/-- The text of a code, which is empty for a leading byte order mark. -/
def valueText (isFirstCharacter : Bool) (code : ℕ) : Text :=
  if !isFirstCharacter || code != unicodeBomCharacterRune then charCode code else []

/-- The end of a sequence with this value and number of units after the first. -/
def finishSequence (allowMalformed isFirstCharacter : Bool) (value extraUnits : ℕ) :
    Except Problem (Text × Decoder) :=
  let overlong := value ≤ (limits[extraUnits - 1]?).getD 0
  if overlong ∧ !allowMalformed then .error (.overlong value)
  else if ¬overlong ∧ fourByteLimit < value ∧ !allowMalformed then .error (.outsideRange value)
  else
    let code := if overlong ∨ fourByteLimit < value then unicodeReplacementCharacterRune else value
    .ok (valueText isFirstCharacter code, ⟨false, 0, 0, 0⟩)

def step (allowMalformed : Bool) (d : Decoder) (unit : ℤ) : Except Problem (Text × Decoder) :=
  if 0 < d.expectedUnits then
    if unit.land 0xC0 ≠ 0x80 then
      if !allowMalformed then .error (.badEncoding unit)
      else after (charCode unicodeReplacementCharacterRune) (startUnit allowMalformed false unit)
    else
      let value := d.value <<< 6 ||| (unit.land 0x3F).toNat
      if 0 < d.expectedUnits - 1 then
        .ok ([], { d with value, expectedUnits := d.expectedUnits - 1 })
      else finishSequence allowMalformed d.isFirstCharacter value d.extraUnits
  else startUnit allowMalformed d.isFirstCharacter unit

section

variable {allowMalformed : Bool} {codeUnits : List ℤ} {endIndex : ℕ}

def Locals.decoder (l : Locals) : Decoder :=
  if 0 < l.expectedUnits then ⟨l.isFirstCharacter, l.value, l.expectedUnits, l.extraUnits⟩
  else ⟨l.isFirstCharacter, 0, 0, 0⟩

/-- The units from one index up to another. -/
def between (codeUnits : List ℤ) (i endIndex : ℕ) : List ℤ := (codeUnits.drop i).take (endIndex - i)

lemma between_self (codeUnits : List ℤ) (i : ℕ) : between codeUnits i i = [] := by
  rw [between, Nat.sub_self, take_zero]

lemma exists_between {i : ℕ} (hi : i < endIndex) (hend : endIndex ≤ codeUnits.length) :
    ∃ unit, read codeUnits i = .ok unit ∧
      between codeUnits i endIndex = unit :: between codeUnits (i + 1) endIndex := by
  have hlt : i < codeUnits.length := by omega
  refine ⟨codeUnits[i], ?_, ?_⟩
  · rw [read, List.getElem?_eq_getElem hlt]
  · rw [between, between, drop_eq_getElem_cons hlt,
      show endIndex - i = endIndex - (i + 1) + 1 by omega, take_succ_cons]

/-- What the machine makes of the rest of the input. -/
def remains (allowMalformed : Bool) (codeUnits : List ℤ) (endIndex : ℕ) (l : Locals) :
    Except Problem (Text × Decoder) :=
  after l.written.flatten
    (feed (step allowMalformed) (between codeUnits l.i endIndex) l.decoder)

variable {l : Locals}

lemma remains_end (h : l.i = endIndex) :
    remains allowMalformed codeUnits endIndex l = .ok (l.written.flatten, l.decoder) := by
  rw [remains, h, between_self, feed_nil, after_ok, append_nil]

lemma flatten_write (l : Locals) (text : Text) :
    (l.write text).written.flatten = l.written.flatten ++ text := by
  rw [Locals.write, flatten_append, flatten_singleton]

lemma remains_cons (allowMalformed : Bool) (l : Locals) {unit : ℤ}
    (hbetween : between codeUnits l.i endIndex = unit :: between codeUnits (l.i + 1) endIndex) :
    remains allowMalformed codeUnits endIndex l =
      match step allowMalformed l.decoder unit with
      | .ok (output, d) => after (l.written.flatten ++ output)
          (feed (step allowMalformed) (between codeUnits (l.i + 1) endIndex) d)
      | .error p => .error p := by
  rw [remains, hbetween, feed]
  cases step allowMalformed l.decoder unit with
  | error p => rfl
  | ok r => exact after_after _ _ _

/-- Locals that are reached from others while the machine keeps its result. -/
structure Reaches (allowMalformed : Bool) (codeUnits : List ℤ) (endIndex : ℕ) (l l' : Locals) :
    Prop where
  i_le : l.i ≤ l'.i
  le_end : l'.i ≤ endIndex
  same : remains allowMalformed codeUnits endIndex l' = remains allowMalformed codeUnits endIndex l

lemma Reaches.refl (h : l.i ≤ endIndex) :
    Reaches allowMalformed codeUnits endIndex l l := ⟨le_refl _, h, rfl⟩

lemma Reaches.trans {l' l'' : Locals} (h : Reaches allowMalformed codeUnits endIndex l l')
    (h' : Reaches allowMalformed codeUnits endIndex l' l'') :
    Reaches allowMalformed codeUnits endIndex l l'' :=
  ⟨h.i_le.trans h'.i_le, h'.le_end, h'.same.trans h.same⟩

/-- How the loop over a multibyte sequence may end. -/
def MultibyteEnds (allowMalformed : Bool) (codeUnits : List ℤ) (endIndex : ℕ) (l : Locals) :
    Multibyte → Prop
  | .atEnd l' => Reaches allowMalformed codeUnits endIndex l l' ∧ l'.i = endIndex ∧
      0 < l'.expectedUnits ∧ l'.expectedUnits ≤ l.expectedUnits ∧ l'.extraUnits = l.extraUnits
  | .bad unit l' => Reaches allowMalformed codeUnits endIndex l l' ∧ l'.i < endIndex ∧
      read codeUnits l'.i = .ok unit ∧ unit.land 0xC0 ≠ 0x80 ∧ 0 < l'.expectedUnits ∧
      l'.extraUnits = l.extraUnits
  | .complete l' => l.i < l'.i ∧ l'.i ≤ endIndex ∧ l'.expectedUnits = 0 ∧
      l'.extraUnits = l.extraUnits ∧
      remains allowMalformed codeUnits endIndex l =
        match finishSequence allowMalformed l'.isFirstCharacter l'.value l'.extraUnits with
        | .ok (output, d) => after (l'.written.flatten ++ output)
            (feed (step allowMalformed) (between codeUnits l'.i endIndex) d)
        | .error p => .error p

lemma multibyteLoop_spec (hend : endIndex ≤ codeUnits.length) {l : Locals}
    (hi : l.i ≤ endIndex) (hexp : 0 < l.expectedUnits) :
    ∃ r, multibyteLoop codeUnits endIndex l = .ok r ∧
      MultibyteEnds allowMalformed codeUnits endIndex l r := by
  refine loop_spec _ (fun n l' => Reaches allowMalformed codeUnits endIndex l l' ∧
      l'.expectedUnits = n + 1 ∧ l'.expectedUnits ≤ l.expectedUnits ∧
      l'.extraUnits = l.extraUnits) _ ?_ _
    ⟨Reaches.refl hi, (succ_pred hexp.ne').symm, le_refl _, rfl⟩ (pred_lt hexp.ne')
  rintro n l1 ⟨hreach, hn, hle, hextra⟩
  by_cases hiend : l1.i = endIndex
  · exact .inl ⟨_, if_pos hiend, hreach, hiend, by omega, hle, hextra⟩
  · have hlt : l1.i < endIndex := lt_of_le_of_ne hreach.le_end hiend
    obtain ⟨unit, hread, hbetween⟩ := exists_between hlt hend
    have hdecoder : l1.decoder =
        ⟨l1.isFirstCharacter, l1.value, l1.expectedUnits, l1.extraUnits⟩ := if_pos (by omega)
    have hcons := remains_cons allowMalformed l1 hbetween
    simp only [if_neg hiend, hread, ok_bind]
    by_cases hbad : unit.land 0xC0 ≠ 0x80
    · exact .inl ⟨_, if_pos hbad, hreach, hlt, hread, hbad, by omega, hextra⟩
    · simp only [if_neg hbad]
      cases n with
      | zero =>
        left
        refine ⟨_, if_neg (by simp [hn]), lt_succ_of_le hreach.i_le, hlt, by simp [hn], hextra, ?_⟩
        rw [← hreach.same, hcons, hdecoder, step, if_pos (by simp [hn]), if_neg hbad]
        simp only [hn, zero_add, Nat.sub_self, lt_irrefl, if_false]
      | succ n =>
        right
        refine ⟨n, lt_succ_self n, _, if_pos (by simp [hn]), hreach.trans
          ⟨le_succ _, hlt, ?_⟩, by simp [hn], by simp; omega, hextra⟩
        rw [hcons, hdecoder, step, if_pos (by simp [hn]), if_neg hbad]
        simp only [hn, Nat.add_sub_cancel, succ_pos, if_true, append_nil]
        rw [remains, Locals.decoder, if_pos (by simp)]

lemma writeValue_spec (l : Locals) :
    l.writeValue.written.flatten = l.written.flatten ++ valueText l.isFirstCharacter l.value ∧
      l.writeValue.i = l.i ∧ l.writeValue.expectedUnits = l.expectedUnits ∧
      l.writeValue.isFirstCharacter = false := by
  rw [Locals.writeValue, valueText]
  split_ifs
  · exact ⟨flatten_write _ _, rfl, rfl, rfl⟩
  · exact ⟨(append_nil _).symm, rfl, rfl, rfl⟩

lemma writeValue_decoder (h : l.expectedUnits = 0) : l.writeValue.decoder = ⟨false, 0, 0, 0⟩ := by
  obtain ⟨-, -, hexp, hfirst⟩ := writeValue_spec l
  rw [Locals.decoder, if_neg (by omega), hfirst]

/-- The checks at the end of a sequence are those of the machine. -/
lemma complete_spec {l : Locals} (hpos : 0 < l.extraUnits) (hextra : l.extraUnits ≤ 3)
    (hexp : l.expectedUnits = 0) :
    (∃ e, complete allowMalformed codeUnits l = .ok (.error e) ∧
        finishSequence allowMalformed l.isFirstCharacter l.value l.extraUnits =
          .error e.problem) ∨
      ∃ l' output, complete allowMalformed codeUnits l = .ok (.ok l') ∧
        finishSequence allowMalformed l.isFirstCharacter l.value l.extraUnits =
          .ok (output, l'.decoder) ∧
        l'.written.flatten = l.written.flatten ++ output ∧ l'.i = l.i ∧ l'.expectedUnits = 0 := by
  have hlt : l.extraUnits - 1 < limits.length := by
    show l.extraUnits - 1 < 4
    omega
  have hlimit : read limits (l.extraUnits - 1) = .ok limits[l.extraUnits - 1] := by
    rw [read, List.getElem?_eq_getElem hlt]
  simp only [complete, finishSequence, hlimit, ok_bind, List.getElem?_eq_getElem hlt,
    Option.getD_some]
  generalize limits[l.extraUnits - 1] = limit
  have hwrite : ∀ l' : Locals, l'.expectedUnits = 0 → l'.i = l.i →
      l'.isFirstCharacter = l.isFirstCharacter → l'.written = l.written →
      ∃ l'' output, (.ok (.ok l'.writeValue) : Result (Thrown Locals)) = .ok (.ok l'') ∧
        (.ok (valueText l.isFirstCharacter l'.value, ⟨false, 0, 0, 0⟩) :
          Except Problem (Text × Decoder)) = .ok (output, l''.decoder) ∧
        l''.written.flatten = l.written.flatten ++ output ∧ l''.i = l.i ∧
          l''.expectedUnits = 0 := by
    intro l' hl' hi hfirst hwr
    obtain ⟨hflatten, hi', hexpected', -⟩ := writeValue_spec l'
    rw [hfirst, hwr] at hflatten
    exact ⟨_, _, rfl, by rw [writeValue_decoder hl'], hflatten, hi'.trans hi, hexpected'.trans hl'⟩
  have hreplacement : ¬fourByteLimit < unicodeReplacementCharacterRune := by decide
  by_cases hoverlong : l.value ≤ limit
  · cases allowMalformed with
    | false =>
      left
      exact ⟨_, if_pos ⟨hoverlong, rfl⟩, if_pos ⟨hoverlong, rfl⟩⟩
    | true =>
      right
      simp only [hoverlong, Bool.not_true, Bool.false_eq_true, and_false, if_false, if_true,
        hreplacement, true_or]
      exact hwrite _ rfl rfl rfl rfl
  · by_cases hrange : fourByteLimit < l.value
    · cases allowMalformed with
      | false =>
        left
        simp only [hoverlong, hrange, Bool.not_false, false_and, and_self, not_false_eq_true,
          if_false, if_true]
        exact ⟨_, rfl, rfl⟩
      | true =>
        right
        simp only [hoverlong, hrange, Bool.not_true, Bool.false_eq_true, and_false, if_false,
          if_true, or_true]
        exact hwrite _ hexp rfl rfl rfl
    · right
      simp only [hoverlong, hrange, false_and, and_false, or_false, if_false]
      exact hwrite _ hexp rfl rfl rfl

/-- How the part labelled `multibyte` may end. -/
def EnterEnds (allowMalformed : Bool) (codeUnits : List ℤ) (endIndex : ℕ) (l : Locals) :
    Thrown (Locals × Bool) → Prop
  | .error e => remains allowMalformed codeUnits endIndex l = .error e.problem
  | .ok (l', false) => Reaches allowMalformed codeUnits endIndex l l' ∧ l'.i = endIndex ∧
      l'.expectedUnits ≤ l'.extraUnits ∧ l'.extraUnits ≤ 3
  | .ok (l', true) => Reaches allowMalformed codeUnits endIndex l l' ∧ l'.expectedUnits = 0

section

variable (hend : endIndex ≤ codeUnits.length)

include hend

lemma multibyte_spec (hi : l.i ≤ endIndex) (hpos : 0 < l.expectedUnits)
    (hexp : l.expectedUnits ≤ l.extraUnits) (hextra : l.extraUnits ≤ 3) :
    ∃ r, multibyte allowMalformed codeUnits endIndex l = .ok r ∧
      EnterEnds allowMalformed codeUnits endIndex l r := by
  obtain ⟨r, hloop, hends⟩ := @multibyteLoop_spec allowMalformed codeUnits endIndex hend l hi hpos
  rw [multibyte, hloop, ok_bind]
  cases r with
  | atEnd l' =>
    obtain ⟨hreach, hi', hpos', hle, hextra'⟩ := hends
    exact ⟨_, rfl, hreach, hi', by omega, by omega⟩
  | bad unit l' =>
    obtain ⟨hreach, hlt, hread, hbad, hpos', hextra'⟩ := hends
    obtain ⟨unit', hread', hbetween⟩ := exists_between hlt hend
    obtain rfl : unit' = unit := by
      rw [hread] at hread'
      exact (Except.ok.inj hread').symm
    have hcons := remains_cons allowMalformed l' hbetween
    have hdecoder : l'.decoder.expectedUnits = l'.expectedUnits := by
      rw [Locals.decoder, if_pos hpos']
    rw [step, if_pos (by omega), if_pos hbad] at hcons
    cases allowMalformed with
    | false =>
      refine ⟨_, rfl, ?_⟩
      show remains false codeUnits endIndex l = _
      rw [← hreach.same, hcons]
      rfl
    | true =>
      refine ⟨_, rfl, ⟨hreach.i_le, hlt.le, ?_⟩, rfl⟩
      rw [← hreach.same, hcons]
      -- The unit is read again, as the start of something else.
      have hnext := @remains_cons codeUnits endIndex true
        (Locals.write { l' with expectedUnits := 0, isFirstCharacter := false }
          (charCode unicodeReplacementCharacterRune)) unit' hbetween
      rw [hnext, flatten_write]
      show (match startUnit true false unit' with
        | .ok (output, d) => _
        | .error p => _) = _
      rcases startUnit true false unit' with p | ⟨output, d⟩
      · rfl
      · simp only [Bool.not_true, Bool.false_eq_true, if_false, after_ok, append_assoc]
        rfl
  | complete l' =>
    obtain ⟨hlt, hle, hexpected', hextra', hremains⟩ := hends
    dsimp only
    rcases @complete_spec allowMalformed codeUnits l' (by omega) (by omega) hexpected' with
      ⟨e, hcomplete, hfin⟩ | ⟨l'', output, hcomplete, hfin, hwr, hi'', hexpected''⟩
    · rw [hcomplete, ok_bind]
      refine ⟨_, rfl, ?_⟩
      show remains allowMalformed codeUnits endIndex l = _
      rw [hremains, hfin]
    · rw [hcomplete, ok_bind]
      refine ⟨_, rfl, ⟨by omega, by omega, ?_⟩, hexpected''⟩
      rw [hremains, hfin, remains, hwr, hi'']

omit hend in
lemma feed_oneBytes {units rest : List ℤ} (hall : ∀ u ∈ units, u.land 0x7F = u)
    (hne : units ≠ []) (isFirstCharacter : Bool) :
    feed (step allowMalformed) (units ++ rest) ⟨isFirstCharacter, 0, 0, 0⟩ =
      after (units.map Int.toNat) (feed (step allowMalformed) rest ⟨false, 0, 0, 0⟩) := by
  induction units generalizing isFirstCharacter with
  | nil => exact absurd rfl hne
  | cons u units ih =>
    have hstep : step allowMalformed ⟨isFirstCharacter, 0, 0, 0⟩ u =
        .ok ([u.toNat], ⟨false, 0, 0, 0⟩) := by
      rw [step, if_neg (lt_irrefl 0), startUnit, if_pos (hall u mem_cons_self)]
    rw [cons_append, feed_cons_ok hstep, map_cons]
    cases units with
    | nil => rfl
    | cons v units =>
      rw [ih (fun w hw => hall w (mem_cons_of_mem _ hw)) (cons_ne_nil _ _), after_after]
      rfl

lemma scanOneByteCharacters_spec {i : ℕ} (hi : i ≤ endIndex) :
    ∃ count, scanOneByteCharacters codeUnits endIndex i = .ok count ∧ i + count ≤ endIndex ∧
      (∃ units, between codeUnits i endIndex = units ++ between codeUnits (i + count) endIndex ∧
        units.length = count ∧ ∀ u ∈ units, u.land 0x7F = u) ∧
      (i + count < endIndex → ∃ unit, read codeUnits (i + count) = .ok unit ∧
        unit.land 0x7F ≠ unit) := by
  refine loop_spec _ (fun n j => i ≤ j ∧ j + n = endIndex ∧
      ∃ units, between codeUnits i endIndex = units ++ between codeUnits j endIndex ∧
        units.length = j - i ∧ ∀ u ∈ units, u.land 0x7F = u) _ ?_ _
    ⟨le_refl _, Nat.add_sub_cancel' hi, [], rfl, (Nat.sub_self _).symm, by simp⟩
      (Nat.lt_succ_self _)
  rintro n j ⟨hij, hn, units, hunits, hlen, hall⟩
  have hadd : i + (j - i) = j := Nat.add_sub_cancel' hij
  cases n with
  | zero =>
    left
    obtain rfl : j = endIndex := hn
    refine ⟨_, if_neg (lt_irrefl _), ?_⟩
    rw [hadd]
    exact ⟨le_refl _, ⟨units, hunits, hlen, hall⟩, fun hlt => absurd hlt (lt_irrefl _)⟩
  | succ n =>
    have hlt : j < endIndex := by omega
    obtain ⟨unit, hread, hbetween⟩ := exists_between hlt hend
    simp only [if_pos hlt, hread, ok_bind]
    by_cases hone : unit.land 0x7F = unit
    · right
      refine ⟨n, lt_succ_self n, j + 1, if_neg (not_not.mpr hone), by omega, by omega,
        units ++ [unit], ?_, ?_, ?_⟩
      · rw [hunits, hbetween, append_assoc, singleton_append]
      · rw [length_append, length_singleton]
        omega
      · intro u hu
        rcases mem_append.mp hu with hu | hu
        · exact hall u hu
        · rwa [mem_singleton.mp hu]
    · left
      refine ⟨_, if_pos hone, ?_⟩
      rw [hadd]
      exact ⟨hlt.le, ⟨units, hunits, hlen, hall⟩, fun _ => ⟨unit, hread, hone⟩⟩

omit hend in
lemma oneByteText_eq {i count : ℕ} {units : List ℤ} (hle : i + count ≤ endIndex)
    (hunits : between codeUnits i endIndex = units ++ between codeUnits (i + count) endIndex)
    (hlen : units.length = count) : oneByteText codeUnits i count = units.map Int.toNat := by
  have htake : (between codeUnits i endIndex).take count = units := by
    rw [hunits, ← hlen, take_left]
  rw [between, take_take, Nat.min_eq_left (by omega)] at htake
  rw [oneByteText, htake]

omit hend in
lemma afterOneBytes_spec {l : Locals} {count : ℕ} {units : List ℤ}
    (hexp : l.expectedUnits = 0) (hle : l.i + count ≤ endIndex)
    (hunits : between codeUnits l.i endIndex = units ++ between codeUnits (l.i + count) endIndex)
    (hlen : units.length = count) (hall : ∀ u ∈ units, u.land 0x7F = u) :
    (l.afterOneBytes codeUnits count).i = l.i + count ∧
      (l.afterOneBytes codeUnits count).expectedUnits = 0 ∧
      remains allowMalformed codeUnits endIndex (l.afterOneBytes codeUnits count) =
        remains allowMalformed codeUnits endIndex l := by
  by_cases hcnt : 0 < count
  · rw [Locals.afterOneBytes, if_pos hcnt]
    refine ⟨rfl, hexp, ?_⟩
    have hne : units ≠ [] := fun h => by simp [h] at hlen; omega
    have hdecoder : l.decoder = ⟨l.isFirstCharacter, 0, 0, 0⟩ := if_neg (by omega)
    rw [remains, remains, flatten_write, hunits, hdecoder, feed_oneBytes hall hne, after_after,
      oneByteText_eq hle hunits hlen]
    congr 2
    exact if_neg (by show ¬0 < l.expectedUnits; omega)
  · rw [Locals.afterOneBytes, if_neg hcnt]
    exact ⟨by omega, hexp, rfl⟩

/-- How the loop between the sequences may end. -/
def ScanEnds (allowMalformed : Bool) (codeUnits : List ℤ) (endIndex : ℕ) (l : Locals) : Scan → Prop
  | .atEnd l' => Reaches allowMalformed codeUnits endIndex l l' ∧ l'.i = endIndex ∧
      l'.expectedUnits = 0
  | .lead l' => Reaches allowMalformed codeUnits endIndex l l' ∧ l.i < l'.i ∧
      0 < l'.expectedUnits ∧ l'.expectedUnits ≤ l'.extraUnits ∧ l'.extraUnits ≤ 3
  | .thrown e => remains allowMalformed codeUnits endIndex l = .error e.problem

omit hend in
lemma scanUnit_spec {l : Locals} {unit : ℤ} (hexp : l.expectedUnits = 0) (hlt : l.i < endIndex)
    (hbetween : between codeUnits l.i endIndex = unit :: between codeUnits (l.i + 1) endIndex)
    (hunit : unit.land 0x7F ≠ unit) :
    (∃ r, scanUnit allowMalformed codeUnits unit { l with i := l.i + 1 } = .ok (.inr r) ∧
        ScanEnds allowMalformed codeUnits endIndex l r) ∨
      ∃ l', scanUnit allowMalformed codeUnits unit { l with i := l.i + 1 } = .ok (.inl l') ∧
        Reaches allowMalformed codeUnits endIndex l l' ∧ l'.i = l.i + 1 ∧ l'.expectedUnits = 0 := by
  have hdecoder : l.decoder = ⟨l.isFirstCharacter, 0, 0, 0⟩ := if_neg (by omega)
  have hcons := remains_cons allowMalformed l hbetween
  rw [step, hdecoder, if_neg (lt_irrefl 0), startUnit, if_neg hunit] at hcons
  -- The machine goes on in the same state, after the same text.
  have hreach : ∀ (l' : Locals) (text : Text) (d : Decoder), l'.i = l.i + 1 →
      l'.written.flatten = l.written.flatten ++ text → l'.decoder = d →
      remains allowMalformed codeUnits endIndex l = after (l.written.flatten ++ text)
        (feed (step allowMalformed) (between codeUnits (l.i + 1) endIndex) d) →
      Reaches allowMalformed codeUnits endIndex l l' := by
    intro l' text d hi hwr hd hremains
    refine ⟨by omega, by omega, ?_⟩
    rw [hremains, remains, hwr, hi, hd]
  rw [scanUnit]
  by_cases hneg : unit < 0
  · rw [if_pos hneg] at hcons ⊢
    cases allowMalformed with
    | false => exact .inl ⟨_, rfl, hcons⟩
    | true =>
      right
      exact ⟨_, rfl, hreach _ _ _ rfl (flatten_write _ _) (if_neg (by simp [Locals.write, hexp]))
        hcons, rfl, hexp⟩
  · have hlarge : decide ((0x7F : ℤ) < unit) = true := by
      have hmod : unit.land 0x7F = unit % 128 := land_two_pow_sub_one unit 7
      rw [decide_eq_true_iff]
      by_contra hsmall
      rw [hmod, Int.emod_eq_of_lt (by omega) (by omega)] at hunit
      exact hunit rfl
    rw [if_neg hneg] at hcons ⊢
    rw [check_of hlarge, ok_bind]
    have hlead : ∀ (value extra : ℕ), 0 < extra → extra ≤ 3 →
        remains allowMalformed codeUnits endIndex l = after (l.written.flatten ++ [])
          (feed (step allowMalformed) (between codeUnits (l.i + 1) endIndex)
            ⟨l.isFirstCharacter, value, extra, extra⟩) →
        ScanEnds allowMalformed codeUnits endIndex l
          (.lead { l with i := l.i + 1, value, expectedUnits := extra, extraUnits := extra }) := by
      intro value extra hpos hextra hremains
      exact ⟨hreach _ [] _ rfl (append_nil _).symm (if_pos hpos) hremains,
        lt_succ_self _, hpos, le_refl _, hextra⟩
    by_cases htwo : unit.land 0xE0 = 0xC0
    · rw [if_pos htwo] at hcons ⊢
      exact .inl ⟨_, rfl, hlead _ 1 (by decide) (by decide) hcons⟩
    · rw [if_neg htwo] at hcons ⊢
      by_cases hthree : unit.land 0xF0 = 0xE0
      · rw [if_pos hthree] at hcons ⊢
        exact .inl ⟨_, rfl, hlead _ 2 (by decide) (by decide) hcons⟩
      · rw [if_neg hthree] at hcons ⊢
        by_cases hfour : unit.land 0xF8 = 0xF0 ∧ unit < 0xF5
        · rw [if_pos hfour] at hcons ⊢
          exact .inl ⟨_, rfl, hlead _ 3 (by decide) (by decide) hcons⟩
        · rw [if_neg hfour] at hcons ⊢
          cases allowMalformed with
          | false => exact .inl ⟨_, rfl, hcons⟩
          | true =>
            right
            exact ⟨_, rfl, hreach _ _ _ rfl (flatten_write _ _) (if_neg (lt_irrefl 0)) hcons, rfl,
              rfl⟩

lemma scanLoop_spec {l : Locals} (hi : l.i ≤ endIndex) (hexp : l.expectedUnits = 0) :
    ∃ r, scanLoop allowMalformed codeUnits endIndex l = .ok r ∧
      ScanEnds allowMalformed codeUnits endIndex l r := by
  refine loop_spec _ (fun n l' => Reaches allowMalformed codeUnits endIndex l l' ∧
      l'.i + n = endIndex ∧ l'.expectedUnits = 0) _ ?_ _
    ⟨Reaches.refl hi, Nat.add_sub_cancel' hi, hexp⟩ (Nat.lt_succ_self _)
  rintro n l1 ⟨hreach, hn, hexpected1⟩
  by_cases hlt : l1.i < endIndex
  · obtain ⟨count, hscan, hle, ⟨units, hunits, hlen, hall⟩, hstop⟩ :=
      scanOneByteCharacters_spec hend hlt.le
    obtain ⟨hi2, hexpected2, hremains2⟩ :=
      @afterOneBytes_spec allowMalformed codeUnits endIndex l1 count units hexpected1 hle hunits
        hlen hall
    have hreach2 : Reaches allowMalformed codeUnits endIndex l (l1.afterOneBytes codeUnits count) :=
      hreach.trans ⟨by omega, by omega, hremains2⟩
    simp only [if_pos hlt, hscan, ok_bind]
    by_cases hfull : l1.i + count = endIndex
    · left
      refine ⟨.atEnd (l1.afterOneBytes codeUnits count), if_pos ⟨by omega, by omega⟩, hreach2,
        by omega, hexpected2⟩
    · have hlt2 : (l1.afterOneBytes codeUnits count).i < endIndex := by omega
      obtain ⟨unit, hread, hunit⟩ := hstop (by omega)
      obtain ⟨unit', hread', hbetween⟩ := exists_between hlt2 hend
      obtain rfl : unit = unit' := by
        rw [hi2, hread] at hread'
        exact Except.ok.inj hread'
      rw [if_neg (by omega), hread', ok_bind]
      rcases @scanUnit_spec allowMalformed codeUnits endIndex _ unit hexpected2 hlt2 hbetween hunit
        with ⟨r, hrun, hends⟩ | ⟨l3, hrun, hreach3, hi3, hexpected3⟩
      · left
        refine ⟨r, hrun, ?_⟩
        cases r with
        | atEnd l3 => exact ⟨hreach2.trans hends.1, hends.2⟩
        | lead l3 => exact ⟨hreach2.trans hends.1, hreach2.i_le.trans_lt hends.2.1, hends.2.2⟩
        | thrown e => exact hreach2.same.symm.trans hends
      · right
        exact ⟨endIndex - l3.i, by omega, l3, hrun, hreach2.trans hreach3, by omega, hexpected3⟩
  · left
    refine ⟨_, if_neg hlt, hreach, ?_, hexpected1⟩
    omega

/-- The state of a decoder between calls. -/
structure Settled (d : Decoder) : Prop where
  expected_le : d.expectedUnits ≤ d.extraUnits
  extra_le : d.extraUnits ≤ 3
  idle : d.expectedUnits = 0 → d.value = 0 ∧ d.extraUnits = 0

lemma convertRound_spec (hi : l.i ≤ endIndex) (hexp : l.expectedUnits ≤ l.extraUnits)
    (hextra : l.extraUnits ≤ 3) :
    (∃ r, convertRound allowMalformed codeUnits endIndex l = .ok (.inr r) ∧
        match r with
        | .error e => remains allowMalformed codeUnits endIndex l = .error e.problem
        | .ok l' => Reaches allowMalformed codeUnits endIndex l l' ∧ l'.i = endIndex ∧
            (0 < l'.expectedUnits → l'.expectedUnits ≤ l'.extraUnits ∧ l'.extraUnits ≤ 3)) ∨
      ∃ l', convertRound allowMalformed codeUnits endIndex l = .ok (.inl l') ∧
        Reaches allowMalformed codeUnits endIndex l l' ∧ l.i < l'.i ∧
        l'.expectedUnits ≤ l'.extraUnits ∧ l'.extraUnits ≤ 3 := by
  obtain ⟨r, henter, hends⟩ : ∃ r, enterRound allowMalformed codeUnits endIndex l = .ok r ∧
      EnterEnds allowMalformed codeUnits endIndex l r := by
    by_cases hpos : 0 < l.expectedUnits
    · rw [enterRound, if_pos hpos]
      exact multibyte_spec hend hi hpos hexp hextra
    · exact ⟨.ok (l, true), if_neg hpos, Reaches.refl hi, by omega⟩
  rw [convertRound, henter, ok_bind]
  match r with
  | .error e => exact .inl ⟨_, rfl, hends⟩
  | .ok (l1, false) => exact .inl ⟨_, rfl, hends.1, hends.2.1, fun _ => hends.2.2⟩
  | .ok (l1, true) =>
    obtain ⟨hreach, hexpected1⟩ := hends
    obtain ⟨r, hscan, hends⟩ :=
      @scanLoop_spec allowMalformed codeUnits endIndex hend l1 hreach.le_end hexpected1
    simp only [hscan, ok_bind]
    cases r with
    | atEnd l2 =>
      obtain ⟨hreach2, hi2, hexpected2⟩ := hends
      exact .inl ⟨_, rfl, hreach.trans hreach2, hi2, fun hpos => by omega⟩
    | lead l2 =>
      obtain ⟨hreach2, hlt, -, hbounds⟩ := hends
      exact .inr ⟨_, rfl, hreach.trans hreach2, hreach.i_le.trans_lt hlt, hbounds⟩
    | thrown e => exact .inl ⟨_, rfl, hreach.same.symm.trans hends⟩

end

/-- `convert` does what the machine does with the units of the slice. -/
lemma convert_spec (allowMalformed : Bool) {d : Decoder} (hd : Settled d) (s : Slice) :
    (∃ e, convert allowMalformed s.chunk s.startIndex s.endIndex d = .ok (.error e) ∧
        feed (step allowMalformed) s.units d = .error e.problem) ∨
      ∃ written d', convert allowMalformed s.chunk s.startIndex s.endIndex d =
          .ok (.ok (written, d')) ∧
        feed (step allowMalformed) s.units d = .ok (written.flatten, d') ∧ Settled d' := by
  have hstart := s.start_le
  obtain ⟨l, hl⟩ : ∃ l : Locals, l =
    ⟨s.startIndex, d.value, d.expectedUnits, d.extraUnits, d.isFirstCharacter, []⟩ := ⟨_, rfl⟩
  have hdecoder : l.decoder = d := by
    rw [hl, Locals.decoder]
    by_cases hpos : 0 < d.expectedUnits
    · rw [if_pos hpos]
    · obtain ⟨hval, hextra⟩ := hd.idle (by omega)
      rw [if_neg hpos]
      cases d with
      | mk first value expected extra =>
        dsimp only at hpos hval hextra ⊢
        obtain rfl : expected = 0 := by omega
        rw [hval, hextra]
  have hremains : remains allowMalformed s.chunk s.endIndex l =
      feed (step allowMalformed) s.units d := by
    rw [remains, hdecoder, hl]
    exact after_nil _
  obtain ⟨r, hloop, hends⟩ := loop_spec (convertRound allowMalformed s.chunk s.endIndex)
    (fun n l' => Reaches allowMalformed s.chunk s.endIndex l l' ∧ l'.i + n = s.endIndex ∧
      l'.expectedUnits ≤ l'.extraUnits ∧ l'.extraUnits ≤ 3)
    (fun r => match r with
      | .error e => remains allowMalformed s.chunk s.endIndex l = .error e.problem
      | .ok l' => Reaches allowMalformed s.chunk s.endIndex l l' ∧ l'.i = s.endIndex ∧
          (0 < l'.expectedUnits → l'.expectedUnits ≤ l'.extraUnits ∧ l'.extraUnits ≤ 3))
    (fun n l1 ⟨hreach, hn, hexp, hextra⟩ => by
      rcases convertRound_spec s.end_le hreach.le_end hexp hextra with
        ⟨r, hround, hr⟩ | ⟨l2, hround, hreach2, hlt, hbounds⟩
      · left
        refine ⟨r, hround, ?_⟩
        cases r with
        | error e => exact hreach.same.symm.trans hr
        | ok l2 => exact ⟨hreach.trans hr.1, hr.2⟩
      · right
        have := hreach2.le_end
        exact ⟨s.endIndex - l2.i, by omega, l2, hround, hreach.trans hreach2, by omega, hbounds⟩)
    (s.endIndex - s.startIndex + 1)
    ⟨Reaches.refl (by rw [hl]; exact hstart), by rw [hl]; exact Nat.add_sub_cancel' hstart,
      by rw [hl]; exact hd.expected_le, by rw [hl]; exact hd.extra_le⟩ (Nat.lt_succ_self _)
  rw [hl] at hloop
  rw [convert]
  simp only [hloop, ok_bind]
  rw [← hremains]
  cases r with
  | error e => exact .inl ⟨e, rfl, hends⟩
  | ok l' =>
    obtain ⟨hreach, hi, hbounds⟩ := hends
    right
    rw [← hreach.same, remains_end hi]
    by_cases hpos : 0 < l'.expectedUnits
    · refine ⟨l'.written, l'.decoder, ?_, rfl, ?_⟩
      · rw [Locals.decoder, if_pos hpos]
        simp only [if_pos hpos]
      · rw [Locals.decoder, if_pos hpos]
        exact ⟨(hbounds hpos).1, (hbounds hpos).2, fun h => absurd h hpos.ne'⟩
    · refine ⟨l'.written, l'.decoder, ?_, rfl, ?_⟩
      · rw [Locals.decoder, if_neg hpos]
        simp only [if_neg hpos]
      · rw [Locals.decoder, if_neg hpos]
        exact ⟨le_refl _, zero_le _, fun _ => ⟨rfl, rfl⟩⟩

end

/-- The end of the input after what the machine did with it. -/
def finish (allowMalformed : Bool) : Except Problem (Text × Decoder) → Except Problem Text
  | .error p => .error p
  | .ok (text, d) =>
    if 0 < d.expectedUnits then
      if !allowMalformed then .error .unfinished
      else .ok (text ++ charCode unicodeReplacementCharacterRune)
    else .ok text

def whole (allowMalformed : Bool) (units : List ℤ) : Except Problem Text :=
  finish allowMalformed (feed (step allowMalformed) units newDecoder)

lemma settled_fresh (isFirstCharacter : Bool) : Settled ⟨isFirstCharacter, 0, 0, 0⟩ :=
  ⟨le_refl _, zero_le _, fun _ => ⟨rfl, rfl⟩⟩

lemma flush_spec (allowMalformed : Bool) (text : Text) (d : Decoder) (source : Option (List ℤ))
    (offset : Option ℤ) :
    (∃ e, flush allowMalformed d source offset = .error e ∧
        finish allowMalformed (.ok (text, d)) = .error e.problem) ∨
      ∃ written d', flush allowMalformed d source offset = .ok (written, d') ∧
        finish allowMalformed (.ok (text, d)) = .ok (text ++ written.flatten) := by
  rw [flush, finish, Decoder.hasPartialInput]
  by_cases hpos : 0 < d.expectedUnits
  · cases allowMalformed with
    | false => exact .inl ⟨⟨.unfinished, source, offset⟩, by simp [hpos], by simp [hpos]⟩
    | true => exact .inr ⟨[charCode unicodeReplacementCharacterRune], _, by simp [hpos]; rfl,
        by simp [hpos]⟩
  · exact .inr ⟨[], d, by simp [hpos], by simp [hpos]⟩

/-- `Utf8Decoder.convert` is the machine on the whole input. -/
lemma decode_spec (allowMalformed : Bool) (units : List ℤ) :
    (∃ e, decode allowMalformed units = .ok (.error e) ∧
        whole allowMalformed units = .error e.problem) ∨
      ∃ text, decode allowMalformed units = .ok (.ok text) ∧
        whole allowMalformed units = .ok text := by
  obtain ⟨count, hscan, hle, ⟨ones, hones, hlen, hall⟩, -⟩ :=
    @scanOneByteCharacters_spec units units.length (le_refl _) 0 (zero_le _)
  rw [zero_add] at hle hones
  have hunits : between units 0 units.length = units := by
    rw [between, Nat.sub_zero, drop_zero, take_length]
  have htext : oneByteText units 0 count = ones.map Int.toNat :=
    @oneByteText_eq units units.length 0 count ones (by omega)
      (by rw [hones, zero_add]) hlen
  rw [hunits] at hones
  -- The first characters are written apart, and the decoder starts after them.
  have hfeed : feed (step allowMalformed) units newDecoder = after (ones.map Int.toNat)
      (feed (step allowMalformed) (between units count units.length)
        ⟨!(decide (0 < count)), 0, 0, 0⟩) := by
    conv_lhs => rw [hones]
    by_cases hcnt : 0 < count
    · have hne : ones ≠ [] := fun h => by simp [h] at hlen; omega
      rw [newDecoder, feed_oneBytes hall hne, decide_eq_true hcnt]
      rfl
    · obtain rfl : ones = [] := length_eq_zero_iff.mp (by omega)
      rw [nil_append, decide_eq_false hcnt, map_nil, after_nil]
      rfl
  rw [decode, whole, hfeed, hscan, ok_bind, htext]
  by_cases hascii : 0 < count ∧ count = units.length
  · right
    refine ⟨ones.map Int.toNat, if_pos hascii, ?_⟩
    rw [hascii.2, between_self, feed_nil, after_ok, append_nil]
    rfl
  · simp only [if_neg hascii]
    rcases convert_spec allowMalformed (settled_fresh !(decide (0 < count)))
      ⟨units, count, units.length, hle, le_refl _⟩ with
      ⟨e, hconv, hfed⟩ | ⟨written, d', hconv, hfed, -⟩
    · left
      refine ⟨e, ?_, ?_⟩
      · simp only [newDecoder]
        rw [hconv, ok_bind]
      · rw [show feed (step allowMalformed) (between units count units.length)
          ⟨!(decide (0 < count)), 0, 0, 0⟩ = .error e.problem from hfed]
        rfl
    · rw [show feed (step allowMalformed) (between units count units.length)
        ⟨!(decide (0 < count)), 0, 0, 0⟩ = .ok (written.flatten, d') from hfed, after_ok]
      simp only [newDecoder]
      rw [hconv, ok_bind]
      rcases flush_spec allowMalformed (ones.map Int.toNat ++ written.flatten) d' (some units)
        (some units.length) with ⟨e, hflush, hfin⟩ | ⟨flushed, d'', hflush, hfin⟩
      · exact .inl ⟨e, by simp only [hflush], hfin⟩
      · exact .inr ⟨_, by simp only [hflush], hfin⟩

/-- The downstream sink gets strings and is then closed, once. -/
def delivered (strings : List Text) : List Event := strings.map .string ++ [.close]

/-- The strings put together are the same and the downstream sink is closed once, or the exceptions
are about the same problem. -/
def Agrees (chunked : Result (Thrown (List Event))) (whole : Except Problem Text) : Prop :=
  match whole with
  | .error p => ∃ e, chunked = .ok (.error e) ∧ e.problem = p
  | .ok text => ∃ strings, chunked = .ok (.ok (delivered strings)) ∧ strings.flatten = text

lemma close_agrees (allowMalformed : Bool) (kind : SinkKind) (d : Decoder) :
    Agrees (.ok (close allowMalformed kind d)) (finish allowMalformed (.ok ([], d))) := by
  rw [close]
  rcases flush_spec allowMalformed [] d none none with
    ⟨e, hflush, hfin⟩ | ⟨written, d', hflush, hfin⟩
  · rw [hflush, hfin]
    exact ⟨e, rfl, rfl⟩
  · rw [hflush, hfin]
    cases kind with
    | stringSinkAdapter => exact ⟨written, rfl, rfl⟩
    | conversionSink =>
      by_cases hemp : written.flatten = []
      · refine ⟨[], ?_, hemp.symm⟩
        simp only [hemp, ne_eq, not_true_eq_false, if_false]
        rfl
      · refine ⟨[written.flatten], ?_, flatten_singleton⟩
        simp only [ne_eq, hemp, not_false_eq_true, if_true]
        rfl

/-- What `addSlice` tells the downstream sink of the strings that are written. -/
def passOn (kind : SinkKind) (written : List Text) : List Text :=
  match kind with
  | .stringSinkAdapter => written
  | .conversionSink => if written.flatten ≠ [] then [written.flatten] else []

lemma flatten_passOn (kind : SinkKind) (written : List Text) :
    (passOn kind written).flatten = written.flatten := by
  cases kind with
  | stringSinkAdapter => rfl
  | conversionSink =>
    rw [passOn]
    split_ifs with h
    · exact flatten_singleton
    · exact (not_not.mp h).symm

variable {d : Decoder}

lemma addSlice_spec (allowMalformed : Bool) (kind : SinkKind) (hd : Settled d) (s : Slice) :
    (∃ e, addSlice allowMalformed kind s false d = .ok (.error e) ∧
        feed (step allowMalformed) s.units d = .error e.problem) ∨
      ∃ (strings : List Text) (d' : Decoder), addSlice allowMalformed kind s false d =
        .ok (.ok (strings.map .string, d')) ∧
        feed (step allowMalformed) s.units d = .ok (strings.flatten, d') ∧ Settled d' := by
  rcases convert_spec allowMalformed hd s with
    ⟨e, hconv, hfed⟩ | ⟨written, d', hconv, hfed, hd'⟩
  · exact .inl ⟨e, by rw [addSlice, hconv, ok_bind], hfed⟩
  · refine .inr ⟨passOn kind written, d', ?_, by rw [flatten_passOn, hfed], hd'⟩
    rw [addSlice, hconv, ok_bind]
    cases kind with
    | stringSinkAdapter => rfl
    | conversionSink =>
      by_cases hemp : written.flatten = []
      · simp [passOn, hemp]
      · simp [passOn, hemp]

/-- The last slice ends inside a sequence after it has written something. -/
def LosesTail (allowMalformed : Bool) (kind : SinkKind) (ending : Ending) (before : List ℤ)
    (d : Decoder) : Prop :=
  kind = .conversionSink ∧ ∃ s, ending = .last s ∧ ∃ text₁ d₁ text₂ d₂,
    feed (step allowMalformed) before d = .ok (text₁, d₁) ∧
    feed (step allowMalformed) s.units d₁ = .ok (text₂, d₂) ∧ text₂ ≠ [] ∧ 0 < d₂.expectedUnits

lemma finish_after (allowMalformed : Bool) (text : Text) (r : Except Problem (Text × Decoder)) :
    finish allowMalformed (after text r) = (finish allowMalformed r).map (text ++ ·) := by
  rcases r with p | ⟨output, d⟩
  · rfl
  · rw [after_ok, finish, finish]
    split_ifs
    · rfl
    · exact congrArg Except.ok (append_assoc _ _ _)
    · rfl

/-- Strings that came before. -/
def earlier (strings : List Text) : Thrown (List Event) → Thrown (List Event)
  | .error e => .error e
  | .ok events => .ok (strings.map .string ++ events)

lemma Agrees.earlier {r : Thrown (List Event)} {w : Except Problem Text}
    (h : Agrees (.ok r) w) (strings : List Text) :
    Agrees (.ok (earlier strings r)) (w.map (strings.flatten ++ ·)) := by
  cases w with
  | error p =>
    obtain ⟨e, he, hp⟩ := h
    cases he
    exact ⟨e, rfl, hp⟩
  | ok text =>
    obtain ⟨rest, hrest, rfl⟩ := h
    cases hrest
    refine ⟨strings ++ rest, ?_, flatten_append⟩
    rw [Utf8Decoder.earlier, delivered, delivered, map_append, append_assoc]

/-- The last slice: the sink below is closed without a flush when something was written. -/
lemma last_spec (allowMalformed : Bool) (kind : SinkKind) (hd : Settled d) (s : Slice) :
    ∃ r, deliver allowMalformed kind (.last s) [] d = .ok r ∧
      ((∀ text2 d2, kind = .conversionSink → feed (step allowMalformed) s.units d =
          .ok (text2, d2) →
          text2 ≠ [] → ¬0 < d2.expectedUnits) →
        Agrees (.ok r) (finish allowMalformed (feed (step allowMalformed) s.units d))) ∧
      ∀ text2 d2, kind = .conversionSink → feed (step allowMalformed) s.units d = .ok (text2, d2) →
        text2 ≠ [] → r = .ok (delivered [text2]) := by
  rw [deliver, addSlice]
  rcases convert_spec allowMalformed hd s with
    ⟨e, hconv, hfed⟩ | ⟨written, d', hconv, hfed, hd'⟩
  · rw [hconv, hfed]
    exact ⟨.error e, rfl, fun _ => ⟨e, rfl, rfl⟩, fun text2 d2 _ h => by cases h⟩
  · rw [hconv, hfed, ok_bind]
    have hclose := close_agrees allowMalformed kind d'
    have hfin := finish_after allowMalformed written.flatten (.ok ([], d'))
    rw [after_ok, append_nil] at hfin
    cases kind with
    | stringSinkAdapter =>
      refine ⟨earlier written (close allowMalformed .stringSinkAdapter d'), ?_, fun _ => ?_,
        fun text2 d2 hkind => by cases hkind⟩
      · simp only [if_true]
        cases close allowMalformed .stringSinkAdapter d' <;> rfl
      · rw [hfin]
        exact hclose.earlier written
    | conversionSink =>
      by_cases hemp : written.flatten = []
      · refine ⟨close allowMalformed .conversionSink d', ?_, fun _ => ?_,
          fun text2 d2 _ h hne => ?_⟩
        · simp only [hemp, ne_eq, not_true_eq_false, if_false, if_true]
          cases close allowMalformed .conversionSink d' <;> rfl
        · rw [hemp]
          exact hclose
        · cases h
          exact absurd hemp hne
      · refine ⟨.ok (delivered [written.flatten]), ?_, fun hpend => ?_, fun text2 d2 _ h _ => ?_⟩
        · simp only [ne_eq, hemp, not_false_eq_true, if_true]
          rfl
        · rw [finish, if_neg (hpend _ _ rfl rfl hemp)]
          exact ⟨_, rfl, flatten_singleton⟩
        · cases h
          rfl

lemma LosesTail.of_rest {allowMalformed : Bool} {kind : SinkKind} {ending : Ending}
    {units before : List ℤ} {d' : Decoder} {text : Text}
    (hfed : feed (step allowMalformed) units d = .ok (text, d')) :
    LosesTail allowMalformed kind ending (units ++ before) d ↔
      LosesTail allowMalformed kind ending before d' := by
  have happend := feed_append_ok hfed before
  refine and_congr_right fun _ => exists_congr fun s => and_congr_right fun _ => ⟨?_, ?_⟩
  · rintro ⟨text1, d1, text2, d2, hpre, hlast⟩
    rw [happend] at hpre
    cases hrest : feed (step allowMalformed) before d' with
    | error p =>
      rw [hrest] at hpre
      cases hpre
    | ok r =>
      obtain ⟨text0, d0⟩ := r
      rw [hrest, after_ok] at hpre
      cases hpre
      exact ⟨text0, d1, text2, d2, rfl, hlast⟩
  · rintro ⟨text1, d1, text2, d2, hpre, hlast⟩
    exact ⟨text ++ text1, d1, text2, d2, by rw [happend, hpre, after_ok], hlast⟩

lemma deliver_spec (allowMalformed : Bool) (kind : SinkKind) (ending : Ending)
    (slices : List Slice) (hd : Settled d) :
    ∃ r, deliver allowMalformed kind ending slices d = .ok r ∧
      (¬LosesTail allowMalformed kind ending (slices.flatMap Slice.units) d →
        Agrees (.ok r) (finish allowMalformed
          (feed (step allowMalformed) (slices.flatMap Slice.units ++ ending.units) d))) ∧
      (LosesTail allowMalformed kind ending (slices.flatMap Slice.units) d →
        ∃ strings d', r = .ok (delivered strings) ∧ 0 < d'.expectedUnits ∧
          feed (step allowMalformed) (slices.flatMap Slice.units ++ ending.units) d =
            .ok (strings.flatten, d')) := by
  induction slices generalizing d with
  | nil =>
    cases ending with
    | close =>
      refine ⟨_, rfl, fun _ => close_agrees allowMalformed kind d, ?_⟩
      rintro ⟨-, s, hs, -⟩
      cases hs
    | last s =>
      obtain ⟨r, hrun, hagrees, hloses⟩ := last_spec allowMalformed kind hd s
      refine ⟨r, hrun, fun hkeep => hagrees fun text2 d2 hkind hfed hne hpos =>
        hkeep ⟨hkind, s, rfl, [], d, text2, d2, rfl, hfed, hne, hpos⟩, ?_⟩
      rintro ⟨hkind, s', hs', text1, d1, text2, d2, hpre, hfed, hne, hpos⟩
      cases hs'
      cases hpre
      refine ⟨[text2], d2, hloses text2 d2 hkind hfed hne, hpos, ?_⟩
      rw [flatten_singleton]
      exact hfed
  | cons s slices ih =>
    rw [flatMap_cons, append_assoc]
    rcases addSlice_spec allowMalformed kind hd s with
      ⟨e, hadd, hfed⟩ | ⟨strings, d', hadd, hfed, hd'⟩
    · refine ⟨.error e, by rw [deliver, hadd, ok_bind], fun _ => ?_, ?_⟩
      · rw [feed_append_error hfed]
        exact ⟨e, rfl, rfl⟩
      · rintro ⟨-, s', -, text1, d1, text2, d2, hpre, -⟩
        rw [feed_append_error hfed] at hpre
        cases hpre
    · obtain ⟨r, hrun, hagrees, hloses⟩ := ih hd'
      rw [LosesTail.of_rest hfed, feed_append_ok hfed, finish_after]
      refine ⟨earlier strings r, ?_, fun hkeep => (hagrees hkeep).earlier strings, fun hlost => ?_⟩
      · rw [deliver, hadd, ok_bind]
        simp only [hrun, ok_bind]
        cases r <;> rfl
      obtain ⟨rest, d'', rfl, hpos, hrest⟩ := hloses hlost
      refine ⟨strings ++ rest, d'', ?_, hpos, ?_⟩
      · rw [earlier, delivered, delivered, map_append, append_assoc]
      · rw [hrest, after_ok, flatten_append]

lemma delivered_inj {strings strings' : List Text} (h : delivered strings = delivered strings') :
    strings = strings' := by
  have hmap := append_cancel_right h
  exact map_injective_iff.mpr (fun _ _ heq => Event.string.inj heq) hmap

/-- Without the final look at the decoder the result is another one. -/
lemma not_agrees_of_unfinished {allowMalformed : Bool} {strings : List Text} {d : Decoder}
    (hpos : 0 < d.expectedUnits) :
    ¬Agrees (.ok (.ok (delivered strings))) (finish allowMalformed (.ok (strings.flatten, d))) := by
  rw [finish, if_pos hpos]
  cases allowMalformed with
  | false =>
    rintro ⟨e, he, -⟩
    cases he
  | true =>
    rintro ⟨strings', hstrings, htext⟩
    obtain rfl := delivered_inj (Except.ok.inj (Except.ok.inj hstrings))
    have hlen := congrArg List.length htext
    rw [length_append] at hlen
    have hchar : (charCode unicodeReplacementCharacterRune).length = 1 := rfl
    omega

/-- The same text, after which the sink below is closed once, or an exception about the same
problem. -/
def SameResult (chunked : Result (Thrown (List Event))) (whole : Result (Thrown Text)) : Prop :=
  (∃ strings, chunked = .ok (.ok (delivered strings)) ∧ whole = .ok (.ok strings.flatten)) ∨
    ∃ e e', chunked = .ok (.error e) ∧ whole = .ok (.error e') ∧ e.problem = e'.problem

lemma sameResult_iff (allowMalformed : Bool) (units : List ℤ) (r : Result (Thrown (List Event))) :
    SameResult r (decode allowMalformed units) ↔ Agrees r (whole allowMalformed units) := by
  rcases decode_spec allowMalformed units with ⟨e', hdec, hwhole⟩ | ⟨text, hdec, hwhole⟩
  · rw [hdec, hwhole]
    constructor
    · rintro (⟨strings, -, htext⟩ | ⟨e, e'', hr, he, hproblem⟩)
      · cases htext
      · cases he
        exact ⟨e, hr, hproblem⟩
    · rintro ⟨e, hr, hproblem⟩
      exact .inr ⟨e, e', hr, rfl, hproblem⟩
  · rw [hdec, hwhole]
    constructor
    · rintro (⟨strings, hr, htext⟩ | ⟨e, e'', -, he, -⟩)
      · cases htext
        exact ⟨strings, hr, rfl⟩
      · cases he
    · rintro ⟨strings, hr, rfl⟩
      exact .inl ⟨strings, hr, rfl⟩

/-- Decoding in chunks gives the result of the whole, except for a `_Utf8ConversionSink` whose last
slice comes with `isLast`, writes something and ends inside a sequence. -/
theorem chunks_decode_as_whole_iff (allowMalformed : Bool) (kind : SinkKind)
    (slices : List Slice) (ending : Ending) :
    SameResult (deliver allowMalformed kind ending slices newDecoder)
        (decode allowMalformed (slices.flatMap Slice.units ++ ending.units)) ↔
      ¬LosesTail allowMalformed kind ending (slices.flatMap Slice.units) newDecoder := by
  obtain ⟨r, hrun, hagrees, hloses⟩ :=
    deliver_spec allowMalformed kind ending slices (settled_fresh true)
  rw [sameResult_iff]
  refine ⟨fun h hlost => ?_, fun hkeep => ?_⟩
  · obtain ⟨strings, d', rfl, hpos, hfed⟩ := hloses hlost
    refine @not_agrees_of_unfinished allowMalformed strings d' hpos ?_
    rw [← hfed, ← hrun]
    exact h
  · rw [show deliver allowMalformed kind ending slices newDecoder = .ok r from hrun]
    exact hagrees hkeep

/-- The bytes of `a` and the first byte of a sequence of two. -/
def unfinishedSlice : Slice := Slice.whole [0x61, 0xC3]

/-- The whole is refused, but the conversion sink delivers `a` and closes. -/
theorem unfinished_sequence_lost :
    deliver false .conversionSink (.last unfinishedSlice) [] newDecoder =
        .ok (.ok [.string [0x61], .close]) ∧
      decode false unfinishedSlice.units =
        .ok (.error ⟨.unfinished, some [0x61, 0xC3], some 2⟩) ∧
      deliver false .stringSinkAdapter (.last unfinishedSlice) [] newDecoder =
        .ok (.error ⟨.unfinished, none, none⟩) :=
  ⟨rfl, rfl, rfl⟩

end DartSdk.Utf8Decoder
