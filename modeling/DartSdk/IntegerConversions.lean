import DartSdk.PlatformUtils

/-!
Conversions between unboxed integers on a 64-bit machine (`IntConverterInstr`, boxes and unboxing)
and the definitions that canonicalization puts in the place of chains of them. A register holds 64
bits; an integer of 32 bits is in the lower half, and what the upper half holds is not specified.
Definitions are indexed by their representation, so that every input has the representation its
user requires. The native code converts the number that a register stands for.
-/

namespace DartSdk.IntegerConversions

open PlatformUtils SignedWords Option

section

inductive Integral where
  | int32
  | uint32
  | int64
  deriving DecidableEq, Repr

inductive Representation where
  | tagged
  | unboxed (k : Integral)
  deriving DecidableEq, Repr

abbrev Word := BitVec 64

/-- The bounds of a range, symbols resolved. -/
abbrev Range := ℤ × ℤ

/-- `RangeUtils::Fits`; a missing range does not fit. -/
def rangeFits (minimum maximum : ℤ) : Option Range → Bool
  | none => false
  | some (lower, upper) => decide (minimum ≤ lower) && decide (upper ≤ maximum)

def fitsInt32 : Option Range → Bool := rangeFits minInt32 maxInt32

def fitsInt64 : Option Range → Bool := rangeFits minInt64 maxInt64

/-- A converter between different representations; conversion to unsigned integers is truncating. -/
structure IntConverter (source target : Integral) where
  isTruncating : Bool
  source_ne_target : source ≠ target
  truncating_of_uint32 : target = .uint32 → isTruncating = true

def IntConverter.create {source target : Integral} (h : source ≠ target) :
    IntConverter source target where
  isTruncating := decide (target = .uint32)
  source_ne_target := h
  truncating_of_uint32 := fun htarget => decide_eq_true htarget

def IntConverter.markTruncating {source target : Integral} (c : IntConverter source target) :
    IntConverter source target where
  isTruncating := true
  source_ne_target := c.source_ne_target
  truncating_of_uint32 := fun _ => rfl

/-- What the type of a value says about its class. -/
inductive ValueCid where
  | smi
  | mint
  | other
  deriving DecidableEq, Repr

structure UnboxInteger (target : Integral) where
  isTruncating : Bool
  isSpeculative : Bool
  valueCid : ValueCid
  truncating_of_uint32 : target = .uint32 → isTruncating = true

inductive Definition : Representation → Type where
  /-- Any other definition, with the word it has computed. -/
  | other {r : Representation} (range : Option Range) (word : Word) : Definition r
  | intConverter {a b : Integral} (c : IntConverter a b) (range : Option Range)
      (value : Definition (.unboxed a)) : Definition (.unboxed b)
  | boxInteger {a : Integral} (range : Option Range) (value : Definition (.unboxed a)) :
      Definition .tagged
  | unboxInteger {b : Integral} (u : UnboxInteger b) (range : Option Range)
      (value : Definition .tagged) : Definition (.unboxed b)

def Definition.range {r : Representation} : Definition r → Option Range
  | .other range _ => range
  | .intConverter _ range _ => range
  | .boxInteger range _ => range
  | .unboxInteger _ range _ => range

def Definition.isBoxInteger {r : Representation} : Definition r → Bool
  | .boxInteger _ _ => true
  | _ => false

/-- `IntConverterInstr::ComputeCanDeoptimize`. -/
def IntConverter.canDeoptimize {a b : Integral} (c : IntConverter a b)
    (value : Definition (.unboxed a)) : Bool :=
  decide (b = .int32) && !c.isTruncating && !fitsInt32 value.range

/-- `ComputeCanDeoptimize` of the unboxing instructions, where small integers have more than 32
bits. -/
def UnboxInteger.canDeoptimize {b : Integral} (u : UnboxInteger b)
    (value : Definition .tagged) : Bool :=
  if !u.isSpeculative then false
  else
    match b, u.valueCid with
    | .int32, .other => if u.isTruncating && value.isBoxInteger then false else true
    | .int32, _ => !u.isTruncating && !fitsInt32 value.range
    | .uint32, .other => !fitsInt64 value.range
    | .uint32, _ => false
    | .int64, .other => true
    | .int64, _ => false

/-- `movl` clears the upper half. -/
def movl (w : Word) : Word := (w.setWidth 32).setWidth 64

/-- `movsxd` copies the sign into the upper half. -/
def movsxd (w : Word) : Word := (w.setWidth 32).signExtend 64

/-- `IntConverterInstr::EmitNativeCode`; none is a deoptimization. -/
def IntConverter.emitNativeCode {a b : Integral} (_c : IntConverter a b) (canDeoptimize : Bool)
    (value : Word) : Option Word :=
  match a, b with
  | .int32, .uint32 => some (movl value)
  | .uint32, .int32 =>
    let out := movsxd value
    if canDeoptimize then if (out.setWidth 32).msb then none else some out
    else some out
  | .int64, _ =>
    -- The output is the register of the input: the comparison that would deoptimize compares the
    -- sign-extended word with itself.
    if !canDeoptimize then some (movl value) else some (movsxd value)
  | .uint32, .int64 => some (movl value)
  | .int32, .int64 => some (movsxd value)
  | .int32, .int32 => none
  | .uint32, .uint32 => none

/-- The integer in the box (`BoxInteger32Instr`, `BoxInt64Instr::EmitNativeCode`). -/
def boxed : Integral → Word → Word
  | .int32, value => movsxd value
  | .uint32, value => movl value
  | .int64, value => value

/-- `UnboxInteger32Instr::EmitNativeCode`, and the load of a 64-bit integer. -/
def UnboxInteger.emitNativeCode {b : Integral} (u : UnboxInteger b) (value : Definition .tagged)
    (word : Word) : Option Word :=
  match b with
  | .int64 => some word
  | .uint32 => some word
  | .int32 =>
    if !u.isTruncating && u.canDeoptimize value then
      if movsxd word ≠ word then none else some word
    else some word

def Definition.eval {r : Representation} : Definition r → Option Word
  | .other _ word => some word
  | .intConverter c _ value => value.eval.bind (c.emitNativeCode (c.canDeoptimize value))
  | @Definition.boxInteger a _ value => value.eval.map (boxed a)
  | .unboxInteger u _ value => value.eval.bind (u.emitNativeCode value)

/-- The number that a word stands for. A tagged integer is the 64-bit integer it holds. -/
def number : Representation → Word → ℤ
  | .tagged, w => w.toInt
  | .unboxed .int32, w => (w.setWidth 32).toInt
  | .unboxed .uint32, w => (w.setWidth 32).toNat
  | .unboxed .int64, w => w.toInt

def Holds : Integral → ℤ → Prop
  | .int32, x => minInt32 ≤ x ∧ x ≤ maxInt32
  | .uint32, x => 0 ≤ x ∧ x ≤ maxUint32
  | .int64, x => minInt64 ≤ x ∧ x ≤ maxInt64

def keep : Integral → ℤ → ℤ
  | .int32, x => wrap 31 x
  | .uint32, x => x % 2 ^ 32
  | .int64, x => wrap 63 x

instance (k : Integral) (x : ℤ) : Decidable (Holds k x) := by
  cases k <;> unfold Holds <;> infer_instance

variable {k : Integral} {x : ℤ}

lemma keep_of_holds (h : Holds k x) : keep k x = x := by
  cases k with
  | int32 =>
    apply wrap_of_fits
    unfold Holds minInt32 maxInt32 at h
    unfold Fits
    omega
  | uint32 =>
    unfold Holds maxUint32 at h
    exact Int.emod_eq_of_lt h.1 (by omega)
  | int64 => exact wrap_of_fits (isInt64_iff_fits.mp h)

lemma number_int64 (w : Word) : number (.unboxed .int64) w = w.toInt := rfl

lemma wrap_eq (n : ℕ) (x : ℤ) :
    wrap n x = if x % 2 ^ (n + 1) < 2 ^ n then x % 2 ^ (n + 1)
      else x % 2 ^ (n + 1) - 2 ^ (n + 1) := by
  have hpow : ((2 ^ (n + 1) : ℕ) : ℤ) = 2 ^ (n + 1) := by push_cast; rfl
  unfold wrap
  rw [Int.bmod_def, hpow]
  split_ifs <;> omega

lemma wrap_emod (x : ℤ) : wrap 31 (x % 2 ^ 32) = wrap 31 x := by
  rw [wrap_eq, wrap_eq, Int.emod_emod]

lemma emod_wrap (x : ℤ) : wrap 31 x % 2 ^ 32 = x % 2 ^ 32 := by
  rw [wrap_eq]
  split_ifs <;> omega

lemma wrap_wrap (x : ℤ) : wrap 31 (wrap 31 x) = wrap 31 x :=
  wrap_of_fits (fits_wrap 31 x)

section

variable (w : Word)

lemma holds_toInt : Holds .int64 w.toInt := by
  have hlo := BitVec.le_toInt w
  have hhi := @BitVec.toInt_lt _ w
  unfold Holds minInt64 maxInt64
  omega

lemma number_int32 : number (.unboxed .int32) w = wrap 31 w.toInt := by
  have h : (w.setWidth 32).toInt = (w.toNat : ℤ).bmod (2 ^ 32) := by
    rw [BitVec.toInt_setWidth]
  change (w.setWidth 32).toInt = w.toInt.bmod (2 ^ 32)
  rw [h, BitVec.toInt_eq_toNat_bmod]
  exact (Int.bmod_bmod_of_dvd (by decide)).symm

lemma number_uint32 : number (.unboxed .uint32) w = w.toInt % 2 ^ 32 := by
  change ((w.setWidth 32).toNat : ℤ) = w.toInt % 2 ^ 32
  rw [BitVec.toNat_setWidth, BitVec.toInt_eq_toNat_bmod, Int.bmod_def]
  split_ifs <;> omega

lemma toInt_movl : (movl w).toInt = w.toInt % 2 ^ 32 := by
  rw [← number_uint32]
  change ((w.setWidth 32).setWidth 64).toInt = ((w.setWidth 32).toNat : ℤ)
  rw [BitVec.toInt_setWidth]
  exact Int.bmod_eq_of_le (by omega) (by omega)

lemma toInt_movsxd : (movsxd w).toInt = wrap 31 w.toInt := by
  rw [← number_int32]
  exact BitVec.toInt_signExtend_of_le (by decide)

lemma holds_number (k : Integral) (w : Word) : Holds k (number (.unboxed k) w) := by
  cases k with
  | int32 =>
    have h := fits_wrap 31 w.toInt
    rw [number_int32]
    unfold Fits at h
    unfold Holds minInt32 maxInt32
    omega
  | uint32 =>
    rw [number_uint32]
    unfold Holds maxUint32
    omega
  | int64 => exact holds_toInt w

lemma movsxd_eq_self_iff : movsxd w = w ↔ Holds .int32 w.toInt := by
  rw [← BitVec.toInt_inj, toInt_movsxd, wrap_eq]
  unfold Holds minInt32 maxInt32
  split_ifs <;> omega

lemma msb_movsxd :
    ((movsxd w).setWidth 32).msb = true ↔ ¬ Holds .int32 (number (.unboxed .uint32) w) := by
  have hnumber : ((movsxd w).setWidth 32).toInt = wrap 31 w.toInt := by
    have h := number_int32 (movsxd w)
    rw [toInt_movsxd, wrap_of_fits (fits_wrap 31 _)] at h
    exact h
  rw [BitVec.msb_eq_toInt, decide_eq_true_eq, hnumber, number_uint32, wrap_eq]
  unfold Holds minInt32 maxInt32
  split_ifs <;> omega

end

/-- Conversion of a number; none is a deoptimization. -/
def convert (k : Integral) (canDeoptimize : Bool) (x : ℤ) : Option ℤ :=
  if canDeoptimize = true ∧ ¬ Holds k x then none else some (keep k x)

lemma convert_false (k : Integral) (x : ℤ) : convert k false x = some (keep k x) := by
  unfold convert
  rw [if_neg fun h => Bool.false_ne_true h.1]

lemma convert_true : convert k true x = if Holds k x then some x else none := by
  unfold convert
  by_cases h : Holds k x
  · rw [if_neg fun hx => hx.2 h, if_pos h, keep_of_holds h]
  · rw [if_pos ⟨rfl, h⟩, if_neg h]

variable {a b : Integral}

lemma IntConverter.number_emitNativeCode (c : IntConverter a b) {d : Bool}
    (hd : d = true → b = .int32) (w : Word) :
    (c.emitNativeCode d w).map (number (.unboxed b)) =
      convert b (decide (a = .uint32) && d) (number (.unboxed a) w) := by
  cases d with
  | true =>
    obtain rfl := hd rfl
    cases a with
    | int32 => exact absurd rfl c.source_ne_target
    | uint32 =>
      show _ = convert .int32 true _
      rw [convert_true]
      by_cases h : Holds .int32 (number (.unboxed .uint32) w)
      · have hmsb : ¬ ((movsxd w).setWidth 32).msb = true := fun hm => (msb_movsxd w).mp hm h
        have hout : number (.unboxed .int32) (movsxd w) = number (.unboxed .uint32) w := by
          rw [← keep_of_holds h, number_int32, toInt_movsxd, number_uint32]
          exact (wrap_wrap w.toInt).trans (wrap_emod w.toInt).symm
        rw [if_pos h, ← hout]
        simp only [emitNativeCode, if_true, if_neg hmsb, map_some]
      · have hmsb : ((movsxd w).setWidth 32).msb = true := (msb_movsxd w).mpr h
        rw [if_neg h]
        simp only [emitNativeCode, if_true, if_pos hmsb, map_none]
    | int64 =>
      show some _ = convert .int32 false _
      rw [convert_false, number_int32, toInt_movsxd, number_int64]
      exact congrArg some (wrap_wrap w.toInt)
  | false =>
    rw [Bool.and_false, convert_false]
    cases a with
    | int32 =>
      cases b with
      | int32 => exact absurd rfl c.source_ne_target
      | uint32 =>
        change some _ = some _
        rw [number_uint32, toInt_movl, number_int32]
        exact congrArg some ((Int.emod_emod _ _).trans (emod_wrap w.toInt).symm)
      | int64 =>
        change some _ = some _
        rw [number_int64, ← keep_of_holds (holds_toInt _), toInt_movsxd, number_int32]
    | uint32 =>
      cases b with
      | int32 =>
        change some _ = some _
        rw [number_int32, toInt_movsxd, number_uint32]
        exact congrArg some ((wrap_wrap w.toInt).trans (wrap_emod w.toInt).symm)
      | uint32 => exact absurd rfl c.source_ne_target
      | int64 =>
        change some _ = some _
        rw [number_int64, ← keep_of_holds (holds_toInt _), toInt_movl, number_uint32]
    | int64 =>
      cases b with
      | int32 =>
        change some _ = some _
        rw [number_int32, toInt_movl, number_int64]
        exact congrArg some (wrap_emod w.toInt)
      | uint32 =>
        change some _ = some _
        rw [number_uint32, toInt_movl, number_int64]
        exact congrArg some (Int.emod_emod _ _)
      | int64 => exact absurd rfl c.source_ne_target

lemma number_boxed (k : Integral) (w : Word) :
    number .tagged (boxed k w) = number (.unboxed k) w := by
  cases k with
  | int32 => exact (toInt_movsxd w).trans (number_int32 w).symm
  | uint32 => exact (toInt_movl w).trans (number_uint32 w).symm
  | int64 => rfl

lemma UnboxInteger.number_emitNativeCode (u : UnboxInteger b)
    (value : Definition .tagged) (w : Word) :
    (u.emitNativeCode value w).map (number (.unboxed b)) =
      convert b (decide (b = .int32) && !u.isTruncating && u.canDeoptimize value)
        (number .tagged w) := by
  change _ = convert b _ w.toInt
  cases b with
  | int32 =>
    cases hcheck : !u.isTruncating && u.canDeoptimize value with
    | false =>
      simp only [decide_true, Bool.true_and, hcheck, convert_false, emitNativeCode,
        Bool.false_eq_true, if_false, map_some, number_int32]
      rfl
    | true =>
      simp only [decide_true, Bool.true_and, hcheck, convert_true, emitNativeCode, if_true]
      by_cases h : Holds .int32 w.toInt
      · have hself := (movsxd_eq_self_iff w).mpr h
        have hout : number (.unboxed .int32) w = w.toInt := by
          rw [number_int32]
          exact keep_of_holds h
        rw [if_neg (fun hne => hne hself), if_pos h, map_some, hout]
      · have hself : movsxd w ≠ w := fun heq => h ((movsxd_eq_self_iff w).mp heq)
        rw [if_pos hself, if_neg h, map_none]
  | uint32 =>
    exact congrArg some (number_uint32 w)
  | int64 =>
    have hne : decide (Integral.int64 = .int32) = false := rfl
    rw [hne, Bool.false_and, Bool.false_and, convert_false, keep_of_holds (holds_toInt w)]
    rfl

/-- The number a definition computes; none if it deoptimizes. -/
def Definition.value {r : Representation} (d : Definition r) : Option ℤ :=
  d.eval.map (number r)

/-- Only the code of a conversion from unsigned 32-bit integers checks the number. -/
def IntConverter.checks (c : IntConverter a b) (value : Definition (.unboxed a)) : Bool :=
  decide (a = .uint32) && c.canDeoptimize value

lemma Definition.value_intConverter (c : IntConverter a b)
    (range : Option Range) (v : Definition (.unboxed a)) :
    (Definition.intConverter c range v).value = v.value.bind (convert b (c.checks v)) := by
  have hd : c.canDeoptimize v = true → b = .int32 := by
    intro h
    unfold IntConverter.canDeoptimize at h
    rw [Bool.and_eq_true, Bool.and_eq_true] at h
    exact of_decide_eq_true h.1.1
  change (v.eval.bind _).map _ = (v.eval.map _).bind _
  cases v.eval with
  | none => rfl
  | some w => exact c.number_emitNativeCode hd w

lemma Definition.value_boxInteger (range : Option Range)
    (v : Definition (.unboxed a)) : (Definition.boxInteger range v).value = v.value := by
  change (v.eval.map _).map _ = v.eval.map _
  cases v.eval with
  | none => rfl
  | some w => exact congrArg some (number_boxed a w)

lemma Definition.value_unboxInteger (u : UnboxInteger b) (range : Option Range)
    (v : Definition .tagged) :
    (Definition.unboxInteger u range v).value =
      v.value.bind
        (convert b (decide (b = .int32) && !u.isTruncating && u.canDeoptimize v)) := by
  change (v.eval.bind _).map _ = (v.eval.map _).bind _
  cases v.eval with
  | none => rfl
  | some w => exact u.number_emitNativeCode v w

lemma Definition.holds_value {d : Definition (.unboxed k)} (h : d.value = some x) : Holds k x := by
  obtain ⟨w, -, rfl⟩ := map_eq_some_iff.mp h
  exact holds_number k w

/-- What the range of a definition says is true of its value. -/
def Definition.RangeHolds {r : Representation} (d : Definition r) : Prop :=
  ∀ lower upper, d.range = some (lower, upper) → ∀ x, d.value = some x → lower ≤ x ∧ x ≤ upper

lemma Definition.RangeHolds.holds_int32 {r : Representation} {d : Definition r}
    (h : d.RangeHolds) (hfits : fitsInt32 d.range = true) (hx : d.value = some x) :
    Holds .int32 x := by
  unfold fitsInt32 at hfits
  cases hrange : d.range with
  | none =>
    rw [hrange] at hfits
    cases hfits
  | some bounds =>
    obtain ⟨hlo, hhi⟩ := h bounds.1 bounds.2 hrange x hx
    rw [hrange] at hfits
    simp only [rangeFits, Bool.and_eq_true, decide_eq_true_eq] at hfits
    exact ⟨hfits.1.trans hlo, hhi.trans hfits.2⟩

lemma convert_eq_some_iff {d : Bool} {y : ℤ} :
    convert k d x = some y ↔ (d = true → Holds k x) ∧ y = keep k x := by
  unfold convert
  split_ifs with h
  · simp only [false_iff]
    exact fun hy => h.2 (hy.1 h.1)
  · rw [some.injEq]
    exact ⟨fun hy => ⟨fun hd => not_not.mp fun hn => h ⟨hd, hn⟩, hy.symm⟩, fun hy => hy.2.symm⟩

variable {c : IntConverter a b}

lemma IntConverter.canDeoptimize_iff {v : Definition (.unboxed a)} :
    c.canDeoptimize v = true ↔ b = .int32 ∧ c.isTruncating = false ∧ fitsInt32 v.range = false := by
  unfold canDeoptimize
  simp only [Bool.and_eq_true, decide_eq_true_eq, Bool.not_eq_true', and_assoc]

lemma IntConverter.checks_iff {v : Definition (.unboxed a)} :
    c.checks v = true ↔
      a = .uint32 ∧ b = .int32 ∧ c.isTruncating = false ∧ fitsInt32 v.range = false := by
  unfold checks
  rw [Bool.and_eq_true, decide_eq_true_eq, canDeoptimize_iff]

lemma IntConverter.holds_of_checks {v : Definition (.unboxed a)}
    (h : ¬ (a = .uint32 ∧ b = .int32)) {p : Prop} (hd : c.checks v = true) : p :=
  absurd ⟨(checks_iff.mp hd).1, (checks_iff.mp hd).2.1⟩ h

lemma Definition.value_intConverter_eq_some
    {range : Option Range} {v : Definition (.unboxed a)} {y : ℤ} :
    (Definition.intConverter c range v).value = some y ↔
      ∃ x, v.value = some x ∧ (c.checks v = true → Holds b x) ∧ y = keep b x := by
  rw [value_intConverter, bind_eq_some_iff]
  simp only [convert_eq_some_iff]

/-- A conversion between 32-bit integers that is not truncating keeps the number: the code or its
range checks it. -/
lemma IntConverter.holds_of_not_truncating {c : IntConverter .uint32 .int32}
    {v : Definition (.unboxed .uint32)} (hv : v.RangeHolds) (hx : v.value = some x)
    (hc : c.isTruncating = false) (hd : c.checks v = true → Holds .int32 x) :
    Holds .int32 x := by
  cases hfits : fitsInt32 v.range with
  | true => exact hv.holds_int32 hfits hx
  | false => exact hd (checks_iff.mpr ⟨rfl, rfl, hc, hfits⟩)

end

/-- `IntConverterInstr::Canonicalize`. None removes the instruction; the flag tells the only user of
the input. -/
def canonicalizeIntConverter (hasUses onlyUse : Bool) {b c : Integral} (conv : IntConverter b c)
    (range : Option Range) (value : Definition (.unboxed b)) :
    Option (Definition (.unboxed c)) :=
  if !hasUses then none
  else
    match value with
    | @Definition.intConverter a _ inner _ input =>
      if h : a = c then
        -- Do not erase truncating conversions from 64-bit value to 32-bit values because such
        -- conversions erase upper 32 bits.
        if a = .int64 ∧ inner.isTruncating then some (.intConverter conv range value)
        else some (h ▸ input)
      else
        let converter := IntConverter.create h
        if c = .int32 ∧ conv.isTruncating then
          some (.intConverter converter.markTruncating none input)
        else some (.intConverter converter none input)
    | @Definition.unboxInteger _ u _ input =>
      if b = .int64 ∧ c = .int32 ∧ onlyUse then
        let unbox : UnboxInteger c :=
          { isTruncating := conv.isTruncating
            isSpeculative := true
            valueCid := u.valueCid
            truncating_of_uint32 := conv.truncating_of_uint32 }
        some (.unboxInteger unbox none input)
      else some (.intConverter conv range value)
    | .other _ _ => some (.intConverter conv range value)

/-- `BoxInt64Instr::Canonicalize`. Without uses as an input the box itself is not needed. -/
def canonicalizeBoxInt64 (hasInputUses : Bool) (range : Option Range)
    (value : Definition (.unboxed .int64)) : Σ r, Definition r :=
  if !hasInputUses then ⟨_, value⟩
  else
    match value with
    | @Definition.intConverter .int32 _ _ _ input => ⟨.tagged, .boxInteger none input⟩
    | @Definition.intConverter .uint32 _ _ _ input => ⟨.tagged, .boxInteger none input⟩
    | _ => ⟨.tagged, .boxInteger range value⟩

def canonicalizeUnboxInteger (hasUses : Bool) {b : Integral} (u : UnboxInteger b)
    (range : Option Range) (value : Definition .tagged) : Option (Definition (.unboxed b)) :=
  if !hasUses && !u.canDeoptimize value then none
  else
    match value with
    | @Definition.boxInteger a boxRange input =>
      if h : a = b then some (h ▸ input)
      else
        let converter := IntConverter.create h
        if b = .int32 ∧ (u.isTruncating || !u.canDeoptimize (.boxInteger boxRange input)) then
          some (.intConverter converter.markTruncating none input)
        else some (.intConverter converter none input)
    | .other _ _ => some (.unboxInteger u range value)

/-- The second definition computes the value of the first, and deoptimizes only if that does. -/
def Preserves {r s : Representation} (d : Definition r) (d' : Definition s) : Prop :=
  ∀ x, d.value = some x → d'.value = some x

/-- A conversion from `b` to `c` of a conversion from `a` to `b`. -/
structure Chain (a b c : Integral) where
  input : Definition (.unboxed a)
  inner : IntConverter a b
  innerRange : Option Range
  outer : IntConverter b c
  outerRange : Option Range

namespace Chain

variable {a b c : Integral}

def middle (ch : Chain a b c) : Definition (.unboxed b) :=
  .intConverter ch.inner ch.innerRange ch.input

def definition (ch : Chain a b c) : Definition (.unboxed c) :=
  .intConverter ch.outer ch.outerRange ch.middle

/-- The conversion that replaces a chain between different representations. -/
def direct (ch : Chain a b c) (h : a ≠ c) : IntConverter a c :=
  if c = .int32 ∧ ch.outer.isTruncating then (IntConverter.create h).markTruncating
  else IntConverter.create h

lemma value_definition_eq_some {ch : Chain a b c} {y : ℤ} :
    ch.definition.value = some y ↔
      ∃ x, ch.input.value = some x ∧ (ch.inner.checks ch.input = true → Holds b x) ∧
        (ch.outer.checks ch.middle = true → Holds c (keep b x)) ∧ y = keep c (keep b x) := by
  unfold definition
  unfold middle
  simp only [Definition.value_intConverter_eq_some]
  constructor
  · rintro ⟨m, ⟨x, hx, hinner, rfl⟩, houter, hy⟩
    exact ⟨x, hx, hinner, houter, hy⟩
  · rintro ⟨x, hx, hinner, houter, hy⟩
    exact ⟨_, ⟨x, hx, hinner, rfl⟩, houter, hy⟩

lemma canonicalize_of_ne (ch : Chain a b c) (onlyUse : Bool) (h : a ≠ c) :
    canonicalizeIntConverter true onlyUse ch.outer ch.outerRange ch.middle =
      some (.intConverter (ch.direct h) none ch.input) := by
  unfold canonicalizeIntConverter middle direct
  simp only [Bool.not_true, Bool.false_eq_true, if_false, dif_neg h]
  split_ifs <;> rfl

lemma canonicalize_of_eq (ch : Chain a b a) (onlyUse : Bool) :
    canonicalizeIntConverter true onlyUse ch.outer ch.outerRange ch.middle =
      if a = .int64 ∧ ch.inner.isTruncating then some ch.definition else some ch.input := by
  unfold canonicalizeIntConverter middle definition
  simp only [Bool.not_true, Bool.false_eq_true, if_false, dif_pos]
  rfl

lemma direct_checks_iff (ch : Chain a b c) (h : a ≠ c) :
    (ch.direct h).checks ch.input = true ↔ a = .uint32 ∧ c = .int32 ∧
      ch.outer.isTruncating = false ∧ fitsInt32 ch.input.range = false := by
  rw [IntConverter.checks_iff]
  refine and_congr_right fun _ => and_congr_right fun hc => and_congr_left fun _ => ?_
  subst hc
  unfold direct
  cases ch.outer.isTruncating <;> simp [IntConverter.create, IntConverter.markTruncating]

/-- The middle representation keeps the sign or changes no number, and the direct conversion checks
nothing that the chain does not check. -/
def MaySkip (ch : Chain a b c) (x : ℤ) : Prop :=
  match a, b, c with
  | .int32, .uint32, .int64 => 0 ≤ x
  | .uint32, .int32, .int64 => ch.inner.isTruncating = true → x ≤ maxInt32
  | .uint32, .int64, .int32 => ch.outer.isTruncating = true ∨ x ≤ maxInt32
  | .int64, .int32, .int64 => ch.inner.isTruncating = true ∨ Holds .int32 x
  | _, _, _ => True

lemma holds_int64_keep_int32 (x : ℤ) : Holds .int64 (keep .int32 x) :=
  isInt64_iff_fits.mpr ((fits_wrap 31 x).mono (by decide))

/-- From 64 bits and back the number is cut to 32 bits without a check. -/
lemma holds_of_preserves_input {ch : Chain .int64 .int32 .int64} {x : ℤ}
    (hp : Preserves ch.definition ch.input) (hx : ch.input.value = some x) : Holds .int32 x := by
  have hcut := hp _ (value_definition_eq_some.mpr ⟨x, hx, IntConverter.holds_of_checks (by decide),
    IntConverter.holds_of_checks (by decide), rfl⟩)
  rw [hx, keep_of_holds (holds_int64_keep_int32 x)] at hcut
  have hfits := fits_wrap 31 x
  have hself : x = wrap 31 x := some.inj hcut
  rw [← hself] at hfits
  unfold Fits at hfits
  unfold Holds minInt32 maxInt32
  omega

/-- Converting forth and back keeps the number, except from 64 bits to fewer. -/
lemma preserves_input_iff {ch : Chain a b a} (h : ¬ (a = .int64 ∧ ch.inner.isTruncating = true)) :
    Preserves ch.definition ch.input ↔ ∀ x, ch.input.value = some x → ch.MaySkip x := by
  constructor
  · intro hp x hx
    cases a <;> cases b
    case int64.int32 => exact Or.inr (holds_of_preserves_input hp hx)
    all_goals trivial
  · intro hskip y hy
    obtain ⟨x, hx, -, -, rfl⟩ := value_definition_eq_some.mp hy
    have hold := Definition.holds_value hx
    suffices hkeep : keep a (keep b x) = x by rwa [hkeep]
    cases a with
    | int32 =>
      cases b with
      | int32 => exact absurd rfl ch.inner.source_ne_target
      | uint32 => exact (wrap_emod x).trans (keep_of_holds hold)
      | int64 =>
        have hwide : Holds .int64 x := by
          unfold Holds minInt32 maxInt32 at hold
          unfold Holds minInt64 maxInt64
          omega
        rw [keep_of_holds hwide, keep_of_holds hold]
    | uint32 =>
      cases b with
      | int32 => exact (emod_wrap x).trans (keep_of_holds hold)
      | uint32 => exact absurd rfl ch.inner.source_ne_target
      | int64 =>
        have hwide : Holds .int64 x := by
          unfold Holds maxUint32 at hold
          unfold Holds minInt64 maxInt64
          omega
        rw [keep_of_holds hwide, keep_of_holds hold]
    | int64 =>
      cases b with
      | int32 =>
        have hsmall : Holds .int32 x := (hskip x hx).resolve_left fun ht => h ⟨rfl, ht⟩
        rw [keep_of_holds hsmall, keep_of_holds hold]
      | uint32 => exact absurd ⟨rfl, ch.inner.truncating_of_uint32 rfl⟩ h
      | int64 => exact absurd rfl ch.inner.source_ne_target

/-- A chain that does not deoptimize for the number gives what the direct conversion gives. -/
def KeepsNumber (ch : Chain a b c) (h : a ≠ c) (x : ℤ) : Prop :=
  (ch.inner.checks ch.input = true → Holds b x) →
    (ch.outer.checks ch.middle = true → Holds c (keep b x)) →
    ((ch.direct h).checks ch.input = true → Holds c x) ∧ keep c (keep b x) = keep c x

lemma preserves_direct (ch : Chain a b c) (h : a ≠ c) :
    Preserves ch.definition (.intConverter (ch.direct h) none ch.input) ↔
      ∀ x, ch.input.value = some x → ch.KeepsNumber h x := by
  unfold Preserves KeepsNumber
  simp only [value_definition_eq_some, Definition.value_intConverter_eq_some]
  constructor
  · intro hp x hx hinner houter
    obtain ⟨x', hx', hdirect, heq⟩ := hp _ ⟨x, hx, hinner, houter, rfl⟩
    cases hx.symm.trans hx'
    exact ⟨hdirect, heq⟩
  · rintro hp y ⟨x, hx, hinner, houter, rfl⟩
    obtain ⟨hdirect, heq⟩ := hp x hx hinner houter
    exact ⟨x, hx, hdirect, heq⟩

variable {x : ℤ}

lemma keepsNumber_uint32_int64_int32 {ch : Chain .uint32 .int64 .int32}
    (hr : ch.input.RangeHolds) (hx : ch.input.value = some x) :
    ch.KeepsNumber (by decide) x ↔ (ch.outer.isTruncating = true ∨ x ≤ maxInt32) := by
  have hold := Definition.holds_value hx
  unfold Holds maxUint32 at hold
  have hwide : Holds .int64 x := by
    unfold Holds minInt64 maxInt64
    omega
  constructor
  · intro hp
    have hdirect := (hp (IntConverter.holds_of_checks (by decide))
      (IntConverter.holds_of_checks (by decide))).1
    cases htrunc : ch.outer.isTruncating with
    | true => exact Or.inl rfl
    | false =>
      cases hfits : fitsInt32 ch.input.range with
      | true => exact Or.inr (hr.holds_int32 hfits hx).2
      | false =>
        exact Or.inr (hdirect ((ch.direct_checks_iff (by decide)).mpr ⟨rfl, rfl, htrunc, hfits⟩)).2
  · intro hskip _ _
    rw [keep_of_holds hwide]
    refine ⟨fun hd => ?_, rfl⟩
    have htrunc := ((ch.direct_checks_iff (by decide)).mp hd).2.2.1
    have hle := hskip.resolve_left (Bool.eq_false_iff.mp htrunc)
    unfold Holds minInt32
    omega

lemma keepsNumber_int32_uint32_int64 (ch : Chain .int32 .uint32 .int64) (hold : Holds .int32 x) :
    ch.KeepsNumber (by decide) x ↔ 0 ≤ x := by
  unfold Holds minInt32 maxInt32 at hold
  have hmid : Holds .int64 (x % 2 ^ 32) := by
    unfold Holds minInt64 maxInt64
    omega
  have hwide : Holds .int64 x := by
    unfold Holds minInt64 maxInt64
    omega
  have hkeep : keep .int64 (keep .uint32 x) = keep .int64 x ↔ 0 ≤ x := by
    rw [keep_of_holds hwide]
    change keep .int64 (x % 2 ^ 32) = x ↔ 0 ≤ x
    rw [keep_of_holds hmid]
    omega
  rw [← hkeep]
  constructor
  · intro hp
    exact (hp (IntConverter.holds_of_checks (by decide))
      (IntConverter.holds_of_checks (by decide))).2
  · intro heq _ _
    exact ⟨IntConverter.holds_of_checks (by decide), heq⟩

lemma keepsNumber_uint32_int32_int64 {ch : Chain .uint32 .int32 .int64}
    (hr : ch.input.RangeHolds) (hx : ch.input.value = some x) :
    ch.KeepsNumber (by decide) x ↔ (ch.inner.isTruncating = true → x ≤ maxInt32) := by
  have hold := Definition.holds_value hx
  unfold Holds maxUint32 at hold
  constructor
  · intro hp htrunc
    have hinner : ¬ ch.inner.checks ch.input = true := fun hd =>
      absurd htrunc (Bool.eq_false_iff.mp (IntConverter.checks_iff.mp hd).2.2.1)
    have heq := (hp (fun hd => absurd hd hinner) (IntConverter.holds_of_checks (by decide))).2
    have hwide : Holds .int64 x := by
      unfold Holds minInt64 maxInt64
      omega
    rw [keep_of_holds hwide, keep_of_holds (holds_int64_keep_int32 x)] at heq
    have hfits := (fits_wrap 31 x).2
    change wrap 31 x = x at heq
    unfold maxInt32
    omega
  · intro hskip hinner _
    have hsmall : Holds .int32 x := by
      cases htrunc : ch.inner.isTruncating with
      | true =>
        have hle := hskip htrunc
        unfold Holds minInt32
        omega
      | false => exact ch.inner.holds_of_not_truncating hr hx htrunc hinner
    rw [keep_of_holds hsmall]
    exact ⟨IntConverter.holds_of_checks (by decide), rfl⟩

lemma keepsNumber_iff {ch : Chain a b c} (hr : ch.input.RangeHolds) (h : a ≠ c)
    (hx : ch.input.value = some x) : ch.KeepsNumber h x ↔ ch.MaySkip x := by
  have hold := Definition.holds_value hx
  have hab := ch.inner.source_ne_target
  have hbc := ch.outer.source_ne_target
  cases a <;> cases b <;> cases c
  all_goals first
    | exact absurd rfl h
    | exact absurd rfl hab
    | exact absurd rfl hbc
    | skip
  · exact ch.keepsNumber_int32_uint32_int64 hold
  · refine iff_of_true (fun _ _ => ⟨IntConverter.holds_of_checks (by decide), ?_⟩) trivial
    have hwide : Holds .int64 x := by
      unfold Holds minInt32 maxInt32 at hold
      unfold Holds minInt64 maxInt64
      omega
    rw [keep_of_holds hwide]
  · exact keepsNumber_uint32_int32_int64 hr hx
  · exact keepsNumber_uint32_int64_int32 hr hx
  · exact iff_of_true (fun _ _ => ⟨IntConverter.holds_of_checks (by decide), emod_wrap x⟩) trivial
  · exact iff_of_true (fun _ _ => ⟨IntConverter.holds_of_checks (by decide), wrap_emod x⟩) trivial

/-- What replaces a chain has its value exactly if the middle representation may be skipped. -/
lemma canonicalize_iff {ch : Chain a b c} (hr : ch.input.RangeHolds) (onlyUse : Bool) :
    ∃ d, canonicalizeIntConverter true onlyUse ch.outer ch.outerRange ch.middle = some d ∧
      (Preserves ch.definition d ↔ ∀ x, ch.input.value = some x → ch.MaySkip x) := by
  by_cases h : a = c
  · subst h
    rw [canonicalize_of_eq]
    split_ifs with htrunc
    · refine ⟨_, rfl, iff_of_true (fun _ hy => hy) fun x _ => ?_⟩
      obtain ⟨rfl, ht⟩ := htrunc
      cases b with
      | int32 => exact Or.inl ht
      | uint32 | int64 => trivial
    · exact ⟨_, rfl, preserves_input_iff htrunc⟩
  · refine ⟨_, ch.canonicalize_of_ne onlyUse h, ?_⟩
    rw [preserves_direct]
    exact forall_congr' fun x => forall_congr' fun hx => keepsNumber_iff hr h hx

end Chain

variable {range : Option Range}

lemma preserves_input_of_widening {a : Integral} {c : IntConverter a .int64}
    {input : Definition (.unboxed a)} :
    Preserves (.intConverter c range input) input := by
  intro y hy
  obtain ⟨x, hx, -, rfl⟩ := Definition.value_intConverter_eq_some.mp hy
  have hold := Definition.holds_value hx
  have hwide : Holds .int64 x := by
    cases a with
    | int32 =>
      unfold Holds minInt32 maxInt32 at hold
      unfold Holds minInt64 maxInt64
      omega
    | uint32 =>
      unfold Holds maxUint32 at hold
      unfold Holds minInt64 maxInt64
      omega
    | int64 => exact hold
  rwa [keep_of_holds hwide]

lemma preserves_canonicalizeBoxInt64 (hasInputUses : Bool) (range : Option Range)
    (value : Definition (.unboxed .int64)) :
    Preserves (.boxInteger range value) (canonicalizeBoxInt64 hasInputUses range value).2 := by
  intro y hy
  have hval : value.value = some y := (Definition.value_boxInteger range value).symm.trans hy
  cases hasInputUses with
  | false => exact hval
  | true =>
    cases value with
    | other r w => exact hy
    | unboxInteger u r v => exact hy
    | @intConverter a _ c r input =>
      have hinput : (Definition.boxInteger none input).value = some y := by
        rw [Definition.value_boxInteger]
        exact preserves_input_of_widening y hval
      cases a with
      | int32 => exact hinput
      | uint32 => exact hinput
      | int64 => exact hy

lemma Definition.value_unboxInteger_eq_some {b : Integral} {u : UnboxInteger b}
    {v : Definition .tagged} {y : ℤ} :
    (Definition.unboxInteger u range v).value = some y ↔
      ∃ x, v.value = some x ∧
        (b = .int32 → u.isTruncating = false → u.canDeoptimize v = true → Holds b x) ∧
        y = keep b x := by
  rw [value_unboxInteger, bind_eq_some_iff]
  simp only [convert_eq_some_iff, Bool.and_eq_true, decide_eq_true_eq, Bool.not_eq_true', and_imp]

lemma preserves_canonicalizeUnboxInteger {b : Integral} (u : UnboxInteger b)
    (range : Option Range) (value : Definition .tagged) (hasUses : Bool)
    {d : Definition (.unboxed b)} (h : canonicalizeUnboxInteger hasUses u range value = some d) :
    Preserves (.unboxInteger u range value) d := by
  unfold canonicalizeUnboxInteger at h
  split_ifs at h
  cases value with
  | other r w =>
    cases h
    exact fun _ hy => hy
  | @boxInteger a boxRange input =>
    intro y hy
    obtain ⟨x, hx, hcheck, rfl⟩ := Definition.value_unboxInteger_eq_some.mp hy
    rw [Definition.value_boxInteger] at hx
    dsimp only at h
    split_ifs at h with hab htrunc
    · subst hab
      cases h
      rwa [keep_of_holds (Definition.holds_value hx)]
    · -- The unboxing does not check the integer, and neither does the converter.
      cases h
      refine Definition.value_intConverter_eq_some.mpr ⟨x, hx, fun hd => ?_, rfl⟩
      cases (IntConverter.checks_iff.mp hd).2.2.1
    · cases h
      refine Definition.value_intConverter_eq_some.mpr ⟨x, hx, fun hd => ?_, rfl⟩
      have hb := (IntConverter.checks_iff.mp hd).2.1
      have hboth : ¬ (u.isTruncating || !u.canDeoptimize (.boxInteger boxRange input)) = true :=
        fun hor => htrunc ⟨hb, hor⟩
      rw [Bool.or_eq_true, not_or, Bool.not_eq_true, Bool.not_eq_true, Bool.not_eq_false'] at hboth
      exact hcheck hb hboth.1 hboth.2

/-- Fusing the unboxing of a 64-bit integer with its conversion to 32 bits adds a check: unless the
conversion is truncating, the value is preserved only for integers of 32 bits. -/
theorem canonicalize_unboxInt64_iff (conv : IntConverter .int64 .int32) (u : UnboxInteger .int64)
    (range unboxRange : Option Range) (input : Definition .tagged) (hr : input.RangeHolds)
    (onlyUse : Bool) :
    ∃ d, canonicalizeIntConverter true onlyUse conv range (.unboxInteger u unboxRange input) =
        some d ∧
      (Preserves (.intConverter conv range (.unboxInteger u unboxRange input)) d ↔
        onlyUse = false ∨ conv.isTruncating = true ∨
          ∀ x, input.value = some x → Holds .int32 x) := by
  have hint64 : ∀ {x}, input.value = some x → keep .int64 x = x := by
    intro x hx
    obtain ⟨w, -, rfl⟩ := map_eq_some_iff.mp hx
    exact keep_of_holds (holds_toInt w)
  cases onlyUse with
  | false => exact ⟨_, rfl, iff_of_true (fun _ hy => hy) (Or.inl rfl)⟩
  | true =>
    refine ⟨_, rfl, ?_⟩
    constructor
    · intro hp
      cases htrunc : conv.isTruncating with
      | true => exact Or.inr (Or.inl rfl)
      | false =>
        refine Or.inr (Or.inr fun x hx => ?_)
        have hunboxed : (Definition.unboxInteger u unboxRange input).value = some x :=
          Definition.value_unboxInteger_eq_some.mpr ⟨x, hx, nofun, (hint64 hx).symm⟩
        obtain ⟨n, hn, hcheck, -⟩ := Definition.value_unboxInteger_eq_some.mp
          (hp _ (Definition.value_intConverter_eq_some.mpr
            ⟨x, hunboxed, IntConverter.holds_of_checks (by decide), rfl⟩))
        cases hx.symm.trans hn
        cases hfits : fitsInt32 input.range with
        | true => exact hr.holds_int32 hfits hx
        | false =>
          refine hcheck rfl htrunc ?_
          unfold UnboxInteger.canDeoptimize
          cases u.valueCid <;> simp [htrunc, hfits]
    · intro hcond y hy
      obtain ⟨x, hx, -, rfl⟩ := Definition.value_intConverter_eq_some.mp hy
      obtain ⟨n, hn, -, rfl⟩ := Definition.value_unboxInteger_eq_some.mp hx
      rw [hint64 hn]
      refine Definition.value_unboxInteger_eq_some.mpr ⟨n, hn, fun _ htrunc _ => ?_, rfl⟩
      rcases hcond with h | h | h
      · cases h
      · exact absurd h (Bool.eq_false_iff.mp htrunc)
      · exact h n hn

/-- Ten is kept, and of `2 ^ 32 + 5` the conversion alone keeps five. -/
theorem canonicalize_unboxInt64_smi :
    (∃ d, canonicalizeIntConverter true true (.create (by decide) : IntConverter .int64 .int32) none
        (.unboxInteger ⟨false, true, .smi, nofun⟩ none (.other none 10)) = some d ∧
      d.value = some 10) ∧
    (Definition.intConverter (.create (by decide) : IntConverter .int64 .int32) none
      (.unboxInteger ⟨false, true, .smi, nofun⟩ none (.other none (2 ^ 32 + 5)))).value =
        some 5 := by
  obtain ⟨d, hd, hiff⟩ := canonicalize_unboxInt64_iff (.create (by decide))
    ⟨false, true, .smi, nofun⟩ none none (.other none 10) (fun _ _ h => by cases h) true
  refine ⟨⟨d, hd, hiff.mpr (Or.inr (Or.inr fun x hx => ?_)) 10 (by decide +kernel)⟩,
    by decide +kernel⟩
  have hten : (Definition.other none 10 : Definition .tagged).value = some 10 := by decide
  obtain rfl := Option.some.inj (hten.symm.trans hx)
  decide

/-- Boxes fold to what they stand for, chains exactly where the middle representation may be
skipped. -/
theorem conversions_fold_iff {a b c k : Integral} (ch : Chain a b c) (hr : ch.input.RangeHolds)
    (value : Definition (.unboxed .int64)) (u : UnboxInteger k) (box : Definition .tagged)
    (range : Option Range) (uses : Bool) :
    (∃ d, canonicalizeIntConverter true uses ch.outer ch.outerRange ch.middle = some d ∧
      (Preserves ch.definition d ↔ ∀ x, ch.input.value = some x → ch.MaySkip x)) ∧
    Preserves (.boxInteger range value) (canonicalizeBoxInt64 uses range value).2 ∧
    ∀ d, canonicalizeUnboxInteger uses u range box = some d →
      Preserves (.unboxInteger u range box) d :=
  ⟨Chain.canonicalize_iff hr uses, preserves_canonicalizeBoxInt64 uses range value,
    fun _ h => preserves_canonicalizeUnboxInteger u range box uses h⟩

/-- A chain through unsigned 32-bit integers. -/
def signDroppingChain (x : ℤ) : Chain .int32 .uint32 .int64 where
  input := .other none (BitVec.ofInt 64 x)
  inner := .create (by decide)
  innerRange := none
  outer := .create (by decide)
  outerRange := none

theorem signDroppingChain_five_folds :
    ∃ d, canonicalizeIntConverter true true (signDroppingChain 5).outer
        (signDroppingChain 5).outerRange (signDroppingChain 5).middle = some d ∧
      Preserves (signDroppingChain 5).definition d := by
  have hr : (signDroppingChain 5).input.RangeHolds := fun _ _ h => by cases h
  obtain ⟨⟨d, hd, hiff⟩, -⟩ := conversions_fold_iff (signDroppingChain 5) hr (.other none 0)
    (⟨true, true, .smi, fun _ => rfl⟩ : UnboxInteger .int32) (.other none 0) none true
  refine ⟨d, hd, hiff.mpr fun x hx => ?_⟩
  have hfive : (signDroppingChain 5).input.value = some 5 := by decide
  obtain rfl := Option.some.inj (hfive.symm.trans hx)
  change (0 : ℤ) ≤ 5
  decide

/-- Minus one becomes the largest unsigned integer; the conversion that replaces the chain keeps it.
-/
theorem signDroppingChain_neg_one_folds_wrong :
    (signDroppingChain (-1)).definition.value = some (2 ^ 32 - 1) ∧
      (canonicalizeIntConverter true true (signDroppingChain (-1)).outer
        (signDroppingChain (-1)).outerRange (signDroppingChain (-1)).middle).map
          Definition.value = some (some (-1)) := by
  decide +kernel

end DartSdk.IntegerConversions
