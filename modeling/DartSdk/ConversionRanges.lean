import DartSdk.RangeSoundness

/-!
Ranges through shifts and through integer conversions on a 64-bit machine, with what the code of a
conversion leaves in the output register. A conversion to 32 bits that neither deoptimizes nor is
known to fit keeps the low word, while its range is the clamped or copied range of the input; from
64 bits no conversion deoptimizes, since its check compares the output register with itself. Right
shifts shift each bound as C++ does, modulo 64, while Dart leaves only the sign for a count of 64 or
more. Each time the range is right exactly under a condition on the bounds.
-/

namespace DartSdk.RangeAnalysis

open Option

section

open PlatformUtils SignedWords FlowGraph Range

inductive Representation where
  | unboxedInt32
  | unboxedUint32
  | unboxedInt64
  deriving DecidableEq, Repr

def Representation.Holds : Representation → ℤ → Prop
  | unboxedInt32, v => Fits 31 v
  | unboxedUint32, v => 0 ≤ v ∧ v < 2 ^ 32
  | unboxedInt64, v => Fits 63 v

/-- A conversion between unboxed integers; one to unsigned words is truncating by construction. -/
structure IntConverter where
  fromRepresentation : Representation
  toRepresentation : Representation
  isTruncating : Bool
  different : fromRepresentation ≠ toRepresentation
  uint32_truncating : toRepresentation = .unboxedUint32 → isTruncating = true

/-- The class of a value according to its type. -/
inductive ValueCid where
  | smi
  | mint
  | other
  deriving DecidableEq, Repr

structure UnboxInt32 where
  isTruncating : Bool
  /-- The speculative mode is `kGuardInputs`. -/
  guardInputs : Bool
  valueCid : ValueCid
  /-- The definition of the value is of integer type. -/
  valueIsInt : Bool
  valueIsBoxInteger : Bool

structure UnboxUint32 where
  valueCid : ValueCid
  valueIsInt : Bool

inductive Conversion where
  | intConverter (c : IntConverter)
  | unboxInt32 (u : UnboxInt32)
  | unboxUint32 (u : UnboxUint32)

def uint32Range : Range :=
  ⟨.constant 0 (by decide), .constant maxUint32 (by decide), rfl, rfl⟩

namespace FlowGraph

variable (g : FlowGraph)

/-- `InferRange` for a value with a known range. -/
def inferConversion (c : Conversion) (range : Range) : Range :=
  match c with
  | .intConverter c =>
    match c.toRepresentation with
    | .unboxedUint32 => uint32Range
    | .unboxedInt32 => range.clamp .int32
    | .unboxedInt64 => range
  | .unboxInt32 u =>
    if u.valueCid = .smi then range
    else if u.valueIsInt then range
    else Range.full .int32
  | .unboxUint32 u =>
    if u.valueCid = .smi ∨ u.valueIsInt then
      if g.isPositive range then range else uint32Range
    else uint32Range

def converterCanDeoptimize (c : IntConverter) (range : Range) : Bool :=
  decide (c.toRepresentation = .unboxedInt32) && !c.isTruncating && !g.fits range .int32

/-- Small integers have more than 32 bits on this machine. -/
def unboxInt32CanDeoptimize (u : UnboxInt32) (range : Range) : Bool :=
  if !u.guardInputs then false
  else
    match u.valueCid with
    | .smi => !u.isTruncating && !g.fits range .int32
    | .mint => !u.isTruncating && !g.fits range .int32
    | .other => !(u.isTruncating && u.valueIsBoxInteger)

/-- The number in the output register, in the representation of the result, unless it deoptimizes.
-/
def convert (c : Conversion) (range : Range) (v : ℤ) : Option ℤ :=
  match c with
  | .intConverter c =>
    match c.fromRepresentation, c.toRepresentation with
    | .unboxedInt32, .unboxedUint32 => some (v % 2 ^ 32)
    | .unboxedUint32, .unboxedInt32 =>
      if g.converterCanDeoptimize c range && decide (wrap 31 v < 0) then none else some (wrap 31 v)
    | .unboxedInt64, .unboxedUint32 => some (v % 2 ^ 32)
    -- The output is the input register, so the check after the sign extension compares it with
    -- itself and never deoptimizes.
    | .unboxedInt64, _ => some (wrap 31 v)
    | .unboxedUint32, _ => some (v % 2 ^ 32)
    | .unboxedInt32, _ => some (wrap 31 v)
  | .unboxInt32 u =>
    if !u.isTruncating && g.unboxInt32CanDeoptimize u range && decide (wrap 31 v ≠ v) then none
    else some (wrap 31 v)
  | .unboxUint32 _ => some (v % 2 ^ 32)

end FlowGraph

/-- The numbers that can be in the input register. -/
def Conversion.Accepts : Conversion → ℤ → Prop
  | intConverter c, v => c.fromRepresentation.Holds v
  | unboxInt32 _, v => IsInt64 v
  | unboxUint32 _, v => IsInt64 v

namespace RangeBoundary

lemma eval_clamp (value : ℕ → ℤ) {b : RangeBoundary} (h : b.isInfinity = false) (size : RangeSize) :
    (b.clamp size).eval value =
      if b.isConstant then
        if b.eval value ≤ size.min then size.min
        else if b.eval value ≥ size.max then size.max
        else b.eval value
      else b.eval value := by
  cases b with
  | negativeInfinity => cases h
  | positiveInfinity => cases h
  | symbol s o ho => rfl
  | constant c hc =>
    rw [clamp_constant]
    show _ = if c ≤ size.min then size.min else if c ≥ size.max then size.max else c
    split_ifs <;> rfl

end RangeBoundary

/-- Truncation keeps every number between the bounds, or the bounds cover the word. -/
def KeepsOrCovers (lo hi : ℤ) : Prop :=
  Fits 31 lo ∧ Fits 31 hi ∨ lo ≤ minInt32 ∧ maxInt32 ≤ hi

/-- A single number outside the word whose low word is the bound it is clamped to. -/
def ClampedAlike (lo hi : ℤ) (constantMin constantMax : Bool) : Prop :=
  lo = hi ∧ (constantMin = true ∧ maxInt32 < lo ∧ wrap 31 lo = maxInt32 ∨
    constantMax = true ∧ lo < minInt32 ∧ wrap 31 lo = minInt32)

/-- For which values between the bounds of a range the inferred range is right. -/
def ConversionSound (g : FlowGraph) (value : ℕ → ℤ) (c : Conversion) (range : Range) : Prop :=
  let lo := range.min.eval value
  let hi := range.max.eval value
  hi < lo ∨
    match c with
    | .intConverter c =>
      c.toRepresentation ≠ .unboxedInt32 ∨
        match c.fromRepresentation with
        | .unboxedUint32 => c.isTruncating = false ∨ hi ≤ maxInt32 ∨ maxUint32 < lo ∨ lo ≤ minInt32
        | _ => KeepsOrCovers lo hi ∨ ClampedAlike lo hi range.min.isConstant range.max.isConstant
    | .unboxInt32 u =>
      (u.valueCid ≠ .smi ∧ u.valueIsInt = false) ∨
        (u.isTruncating = false ∧ g.unboxInt32CanDeoptimize u range = true) ∨ KeepsOrCovers lo hi
    | .unboxUint32 u =>
      (u.valueCid ≠ .smi ∧ u.valueIsInt = false) ∨ g.isPositive range = false ∨
        hi ≤ maxUint32 ∨ lo = 0 ∧ maxUint32 ≤ hi

variable {x lo hi : ℤ}

lemma wrap_succ_of_eq_max (h : wrap 31 x = maxInt32) : wrap 31 (x + 1) = minInt32 := by
  obtain ⟨k, hk⟩ := exists_wrap_eq 31 x
  rw [h] at hk
  unfold maxInt32 at hk
  refine wrap_eq_of_fits (k := k - 1) ⟨by decide, by decide⟩ ?_
  unfold minInt32
  omega

lemma wrap_pred_of_eq_min (h : wrap 31 x = minInt32) : wrap 31 (x - 1) = maxInt32 := by
  obtain ⟨k, hk⟩ := exists_wrap_eq 31 x
  rw [h] at hk
  unfold minInt32 at hk
  refine wrap_eq_of_fits (k := k + 1) ⟨by decide, by decide⟩ ?_
  unfold maxInt32
  omega

lemma wrap_max_succ : wrap 31 (maxInt32 + 1) = minInt32 := by decide

lemma wrap_min_pred : wrap 31 (minInt32 - 1) = maxInt32 := by decide

lemma wrap_bounds (x : ℤ) : minInt32 ≤ wrap 31 x ∧ wrap 31 x ≤ maxInt32 := by
  have h := fits_wrap 31 x
  unfold Fits at h
  unfold minInt32 maxInt32
  omega

lemma fits_iff_bounds : Fits 31 x ↔ minInt32 ≤ x ∧ x ≤ maxInt32 := by
  unfold Fits minInt32 maxInt32
  omega

/-- Truncation into the clamped interval, bound by bound. -/
lemma wrap_into_clamped_iff (hle : lo ≤ hi) (constantMin constantMax : Bool) :
    (∀ v, lo ≤ v → v ≤ hi →
      (if constantMin = true then
          if lo ≤ minInt32 then minInt32 else if lo ≥ maxInt32 then maxInt32 else lo
        else lo) ≤ wrap 31 v ∧
      wrap 31 v ≤ (if constantMax = true then
          if hi ≤ minInt32 then minInt32 else if hi ≥ maxInt32 then maxInt32 else hi
        else hi)) ↔ KeepsOrCovers lo hi ∨ ClampedAlike lo hi constantMin constantMax := by
  have hword : minInt32 < maxInt32 := by decide
  unfold KeepsOrCovers ClampedAlike
  simp only [fits_iff_bounds]
  constructor
  · intro h
    have hfirst := h lo le_rfl hle
    have hwfirst := wrap_bounds lo
    have hlast := h hi hle le_rfl
    have hwlast := wrap_bounds hi
    by_cases habove : maxInt32 < lo
    · -- Everything is above the word: one number can be right by accident.
      right
      have hconst : constantMin = true := by
        by_contra hsym
        rw [if_neg (c := constantMin = true) hsym] at hfirst
        omega
      have hmax : wrap 31 lo = maxInt32 := by omega
      refine ⟨?_, .inl ⟨hconst, habove, hmax⟩⟩
      by_contra hne
      have hnext := h (lo + 1) (by omega) (by omega)
      rw [if_neg (c := lo ≤ minInt32) (by omega), if_pos (c := lo ≥ maxInt32) (by omega),
        if_pos (c := constantMin = true) hconst, wrap_succ_of_eq_max hmax] at hnext
      omega
    · by_cases hbelow : hi < minInt32
      · right
        have hconst : constantMax = true := by
          by_contra hsym
          rw [if_neg (c := constantMax = true) hsym] at hlast
          omega
        have hmin : wrap 31 hi = minInt32 := by omega
        have heq : lo = hi := by
          by_contra hne
          have hprev := h (hi - 1) (by omega) (by omega)
          rw [if_pos (c := hi ≤ minInt32) (by omega), if_pos (c := constantMax = true) hconst,
            wrap_pred_of_eq_min hmin] at hprev
          omega
        exact ⟨heq, .inr ⟨hconst, by omega, heq ▸ hmin⟩⟩
      · left
        by_cases hover : maxInt32 < hi
        · have hnext := h (maxInt32 + 1) (by omega) (by omega)
          rw [wrap_max_succ] at hnext
          split_ifs at hnext <;> omega
        · by_cases hunder : lo < minInt32
          · have hprev := h (minInt32 - 1) (by omega) (by omega)
            rw [wrap_min_pred] at hprev
            split_ifs at hprev <;> omega
          · left
            omega
  · intro h v hv hv'
    have hw := wrap_bounds v
    rcases h with (⟨hlo, hhi⟩ | ⟨hlo, hhi⟩) | ⟨heq, halike⟩
    · have hkeep : wrap 31 v = v := wrap_of_fits (fits_iff_bounds.mpr (by omega))
      constructor
      · split_ifs <;> omega
      · split_ifs <;> omega
    · constructor
      · split_ifs <;> omega
      · split_ifs <;> omega
    · have hval : v = lo := by omega
      rw [hval] at hw ⊢
      rcases halike with ⟨hconst, hout, hwrap⟩ | ⟨hconst, hout, hwrap⟩
      · rw [hwrap]
        constructor
        · split_ifs <;> omega
        · split_ifs <;> omega
      · rw [hwrap]
        constructor
        · split_ifs <;> omega
        · split_ifs <;> omega

/-- The same for the numbers of an unsigned word, which truncation lowers by its modulus. -/
lemma wrap_uint32 {v : ℤ} (h : Representation.unboxedUint32.Holds v) :
    wrap 31 v = if v ≤ maxInt32 then v else v - 2 ^ 32 := by
  obtain ⟨hlo, hhi⟩ : 0 ≤ v ∧ v < 2 ^ 32 := h
  unfold maxInt32
  split_ifs with hsmall
  · exact wrap_of_fits ⟨by omega, by omega⟩
  · exact wrap_eq_of_fits (k := -1) ⟨by omega, by omega⟩ (by omega)

lemma wrap_uint32_into_clamped_iff (hle : lo ≤ hi) (constantMin constantMax : Bool) :
    (∀ v, lo ≤ v → v ≤ hi → Representation.unboxedUint32.Holds v →
      (if constantMin = true then
          if lo ≤ minInt32 then minInt32 else if lo ≥ maxInt32 then maxInt32 else lo
        else lo) ≤ wrap 31 v ∧
      wrap 31 v ≤ (if constantMax = true then
          if hi ≤ minInt32 then minInt32 else if hi ≥ maxInt32 then maxInt32 else hi
        else hi)) ↔ hi ≤ maxInt32 ∨ maxUint32 < lo ∨ lo ≤ minInt32 := by
  have hword : minInt32 = -2 ^ 31 ∧ maxInt32 = 2 ^ 31 - 1 ∧ maxUint32 = 2 ^ 32 - 1 :=
    ⟨rfl, rfl, rfl⟩
  constructor
  · intro h
    by_contra hcond
    -- The first number of the range that does not fit becomes negative.
    have hholds : Representation.unboxedUint32.Holds (max lo (maxInt32 + 1)) := by
      show 0 ≤ _ ∧ _ < (2 : ℤ) ^ 32
      omega
    have hfirst := (h (max lo (maxInt32 + 1)) (by omega) (by omega) hholds).1
    rw [wrap_uint32 hholds, if_neg (c := max lo (maxInt32 + 1) ≤ maxInt32) (by omega)] at hfirst
    split_ifs at hfirst <;> omega
  · intro h v hv hv' hholds
    obtain ⟨hpos, hlt⟩ : 0 ≤ v ∧ v < 2 ^ 32 := hholds
    rw [wrap_uint32 ⟨hpos, hlt⟩]
    constructor
    · split_ifs <;> omega
    · split_ifs <;> omega

section Instructions

variable {g : FlowGraph} (env : Environment g) {range : Range}
  (hs : range.SmiSymbols env.toValuation)

lemma contains_clamp_int32 {value : ℕ → ℤ} (r : Range) (x : ℤ) :
    (r.clamp .int32).Contains value x ↔
      (if r.min.isConstant = true then
          if r.min.eval value ≤ minInt32 then minInt32
          else if r.min.eval value ≥ maxInt32 then maxInt32
          else r.min.eval value
        else r.min.eval value) ≤ x ∧
      x ≤ (if r.max.isConstant = true then
          if r.max.eval value ≤ minInt32 then minInt32
          else if r.max.eval value ≥ maxInt32 then maxInt32
          else r.max.eval value
        else r.max.eval value) := by
  rw [contains_iff]
  show (r.min.clamp .int32).eval value ≤ x ∧ x ≤ (r.max.clamp .int32).eval value ↔ _
  rw [RangeBoundary.eval_clamp value r.min_finite, RangeBoundary.eval_clamp value r.max_finite]
  exact Iff.rfl

lemma Range.Contains.clamp_int32 {value : ℕ → ℤ} {r : Range} {x : ℤ} (h : r.Contains value x)
    (hx : Fits 31 x) : (r.clamp .int32).Contains value x := by
  rw [fits_iff_bounds] at hx
  exact ⟨h.below.clamp hx.1, h.above.clamp hx.2⟩

lemma emod_uint32_contains (value : ℕ → ℤ) (v : ℤ) : uint32Range.Contains value (v % 2 ^ 32) :=
  ⟨Int.emod_nonneg v (by norm_num), Int.le_sub_one_of_lt (Int.emod_lt_of_pos v (by norm_num))⟩

lemma converter_truncates {c : IntConverter} (hto : c.toRepresentation = .unboxedInt32)
    (htrunc : c.fromRepresentation = .unboxedUint32 → c.isTruncating = true) (v : ℤ) :
    g.convert (.intConverter c) range v = some (wrap 31 v) := by
  cases hfrom : c.fromRepresentation with
  | unboxedInt32 => exact absurd (hfrom.trans hto.symm) c.different
  | unboxedUint32 =>
    have hdeopt : g.converterCanDeoptimize c range = false := by
      unfold converterCanDeoptimize
      rw [htrunc hfrom]
      simp
    simp only [convert, hfrom, hto, hdeopt, Bool.false_and]
    rfl
  | unboxedInt64 => simp only [convert, hfrom, hto]

include hs

/-- What is not empty holds only numbers of 64 bits. -/
lemma isInt64_of_between {v : ℤ} (h : range.min.eval env.value ≤ v)
    (h' : v ≤ range.max.eval env.value) : IsInt64 v :=
  (contains_iff.mpr ⟨h, h'⟩).isInt64 hs

/-- From unsigned words a conversion that is not truncating keeps the number or deoptimizes. -/
lemma uint32_converter_exact {c : IntConverter} (hfrom : c.fromRepresentation = .unboxedUint32)
    (hto : c.toRepresentation = .unboxedInt32) (htrunc : c.isTruncating = false) {v w : ℤ}
    (hv : range.Contains env.value v) (hholds : Representation.unboxedUint32.Holds v)
    (hw : g.convert (.intConverter c) range v = some w) : Fits 31 v ∧ w = v := by
  have hdeopt : g.converterCanDeoptimize c range = !g.fits range .int32 := by
    unfold converterCanDeoptimize
    rw [hto, htrunc]
    rfl
  cases hfit : g.fits range .int32 with
  | true =>
    have hword : Fits 31 v := fits_iff_bounds.mpr (fits_sound env hs hv hfit)
    rw [hfit] at hdeopt
    simp only [convert, hfrom, hto, hdeopt, wrap_of_fits hword, Bool.not_true,
      Bool.false_and] at hw
    exact ⟨hword, (some.inj hw).symm⟩
  | false =>
    rw [hfit] at hdeopt
    simp only [convert, hfrom, hto, hdeopt, Bool.not_false, Bool.true_and,
      decide_eq_true_eq] at hw
    split_ifs at hw with hneg
    have hwrap := wrap_uint32 hholds
    obtain ⟨hpos, hlt⟩ : 0 ≤ v ∧ v < 2 ^ 32 := hholds
    have hsmall : v ≤ maxInt32 := by
      omega
    rw [if_pos hsmall] at hwrap
    have hfits := fits_wrap 31 v
    rw [hwrap] at hfits
    exact ⟨hfits, by rw [← some.inj hw, hwrap]⟩

lemma intConverter_sound_iff (c : IntConverter) :
    (∀ v w, range.Contains env.value v → Conversion.Accepts (.intConverter c) v →
      g.convert (.intConverter c) range v = some w →
        (g.inferConversion (.intConverter c) range).Contains env.value w) ↔
      ConversionSound g env.value (.intConverter c) range := by
  unfold ConversionSound
  simp only
  cases hto : c.toRepresentation with
  | unboxedUint32 =>
    refine iff_of_true ?_ (.inr (.inl (by simp)))
    intro v w _ _ hw
    have hmod : w = v % 2 ^ 32 := by
      cases hfrom : c.fromRepresentation with
      | unboxedUint32 => exact absurd (hfrom.trans hto.symm) c.different
      | unboxedInt32 =>
        simp only [convert, hfrom, hto] at hw
        exact (some.inj hw).symm
      | unboxedInt64 =>
        simp only [convert, hfrom, hto] at hw
        exact (some.inj hw).symm
    simp only [inferConversion, hto]
    rw [hmod]
    exact emod_uint32_contains env.value v
  | unboxedInt64 =>
    refine iff_of_true ?_ (.inr (.inl (by simp)))
    intro v w hv haccepts hw
    have hkeep : w = v := by
      have hholds : c.fromRepresentation.Holds v := haccepts
      cases hfrom : c.fromRepresentation with
      | unboxedInt64 => exact absurd (hfrom.trans hto.symm) c.different
      | unboxedUint32 =>
        rw [hfrom] at hholds
        simp only [convert, hfrom, hto] at hw
        rw [← some.inj hw]
        exact Int.emod_eq_of_lt hholds.1 hholds.2
      | unboxedInt32 =>
        rw [hfrom] at hholds
        simp only [convert, hfrom, hto] at hw
        rw [← some.inj hw]
        exact wrap_of_fits hholds
    simp only [inferConversion, hto]
    rw [hkeep]
    exact hv
  | unboxedInt32 =>
    have hinfer : g.inferConversion (.intConverter c) range = range.clamp .int32 := by
      simp only [inferConversion, hto]
    rw [hinfer]
    by_cases hle : range.min.eval env.value ≤ range.max.eval env.value
    · cases hfrom : c.fromRepresentation with
      | unboxedInt32 => exact absurd (hfrom.trans hto.symm) c.different
      | unboxedUint32 =>
        have hiff := wrap_uint32_into_clamped_iff hle range.min.isConstant range.max.isConstant
        cases htrunc : c.isTruncating with
        | false =>
          refine iff_of_true ?_ (.inr (.inr (.inl rfl)))
          intro v w hv haccepts hw
          have hholds : c.fromRepresentation.Holds v := haccepts
          rw [hfrom] at hholds
          obtain ⟨hword, rfl⟩ := uint32_converter_exact env hs hfrom hto htrunc hv hholds hw
          exact hv.clamp_int32 hword
        | true =>
          have hconv := fun v => @converter_truncates g range c hto (fun _ => htrunc) v
          constructor
          · intro h
            refine .inr (.inr (.inr (hiff.mp ?_)))
            intro v hv hv' hholds
            have haccepts : Conversion.Accepts (.intConverter c) v := by
              show c.fromRepresentation.Holds v
              rw [hfrom]
              exact hholds
            exact (contains_clamp_int32 range _).mp
              (h v _ (contains_iff.mpr ⟨hv, hv'⟩) haccepts (hconv v))
          · intro h v w hv haccepts hw
            have hcond : range.max.eval env.value ≤ maxInt32 ∨
                maxUint32 < range.min.eval env.value ∨ range.min.eval env.value ≤ minInt32 := by
              rcases h with hemp | hne | hfalse | hcond
              · omega
              · exact absurd rfl hne
              · cases hfalse
              · exact hcond
            have hholds : c.fromRepresentation.Holds v := haccepts
            rw [hfrom] at hholds
            rw [hconv v] at hw
            rw [← some.inj hw]
            rw [contains_iff] at hv
            exact (contains_clamp_int32 range _).mpr (hiff.mpr hcond v hv.1 hv.2 hholds)
      | unboxedInt64 =>
        have hiff := wrap_into_clamped_iff hle range.min.isConstant range.max.isConstant
        have hconv := fun v =>
          @converter_truncates g range c hto (fun h => by rw [hfrom] at h; cases h) v
        constructor
        · intro h
          refine .inr (.inr (hiff.mp ?_))
          intro v hv hv'
          have haccepts : Conversion.Accepts (.intConverter c) v := by
            show c.fromRepresentation.Holds v
            rw [hfrom]
            exact isInt64_iff_fits.mp (isInt64_of_between env hs hv hv')
          exact (contains_clamp_int32 range _).mp
            (h v _ (contains_iff.mpr ⟨hv, hv'⟩) haccepts (hconv v))
        · intro h v w hv haccepts hw
          have hcond := (h.resolve_left (by omega)).resolve_left fun hne => hne rfl
          rw [hconv v] at hw
          rw [← some.inj hw]
          rw [contains_iff] at hv
          exact (contains_clamp_int32 range _).mpr (hiff.mpr hcond v hv.1 hv.2)
    · refine iff_of_true ?_ (.inl (by omega))
      intro v w hv
      rw [contains_iff] at hv
      omega

lemma unboxInt32_sound_iff (u : UnboxInt32) :
    (∀ v w, range.Contains env.value v → Conversion.Accepts (.unboxInt32 u) v →
      g.convert (.unboxInt32 u) range v = some w →
        (g.inferConversion (.unboxInt32 u) range).Contains env.value w) ↔
      ConversionSound g env.value (.unboxInt32 u) range := by
  by_cases hint : u.valueCid = .smi ∨ u.valueIsInt = true
  · have hinfer : g.inferConversion (.unboxInt32 u) range = range := by
      simp only [inferConversion]
      rcases hint with h | h <;> simp [h]
    have hnotint : ¬(u.valueCid ≠ .smi ∧ u.valueIsInt = false) := by
      rcases hint with h | h <;> simp [h]
    rw [hinfer]
    by_cases hdeopt : u.isTruncating = false ∧ g.unboxInt32CanDeoptimize u range = true
    · refine iff_of_true ?_ (.inr (.inr (.inl hdeopt)))
      intro v w hv _ hw
      simp only [convert, hdeopt.1, hdeopt.2, Bool.not_false, Bool.true_and,
        decide_eq_true_eq] at hw
      split_ifs at hw with hchg
      rw [not_not] at hchg
      rw [← some.inj hw, hchg]
      exact hv
    · have hconv : ∀ v, g.convert (.unboxInt32 u) range v = some (wrap 31 v) := by
        intro v
        have hoff : (!u.isTruncating && g.unboxInt32CanDeoptimize u range) = false := by
          cases ht : u.isTruncating with
          | true => rfl
          | false => simpa [ht] using hdeopt
        simp only [convert, hoff, Bool.false_and]
        rfl
      by_cases hle : range.min.eval env.value ≤ range.max.eval env.value
      · have hiff := wrap_mapsTo_iff 31 hle
        constructor
        · intro h
          refine .inr (.inr (.inr (hiff.mp ?_)))
          intro v hv hv'
          exact contains_iff.mp (h v _ (contains_iff.mpr ⟨hv, hv'⟩)
            (isInt64_of_between env hs hv hv') (hconv v))
        · intro h v w hv _ hw
          rcases h with hemp | hother | hdeopt' | hcond
          · omega
          · exact absurd hother hnotint
          · exact absurd hdeopt' hdeopt
          · rw [hconv v] at hw
            rw [← some.inj hw]
            rw [contains_iff] at hv ⊢
            exact hiff.mpr hcond v hv.1 hv.2
      · refine iff_of_true ?_ (.inl (by omega))
        intro v w hv
        rw [contains_iff] at hv
        omega
  · rw [not_or] at hint
    refine iff_of_true ?_ (.inr (.inl ⟨hint.1, Bool.eq_false_iff.mpr hint.2⟩))
    intro v w _ _ hw
    have hwrap : w = wrap 31 v := by
      simp only [convert] at hw
      split_ifs at hw
      exact (some.inj hw).symm
    simp only [inferConversion, if_neg hint.1, if_neg hint.2]
    rw [hwrap]
    exact contains_full env.value (wrap_bounds v).1 (wrap_bounds v).2

lemma unboxUint32_sound_iff (u : UnboxUint32) :
    (∀ v w, range.Contains env.value v → Conversion.Accepts (.unboxUint32 u) v →
      g.convert (.unboxUint32 u) range v = some w →
        (g.inferConversion (.unboxUint32 u) range).Contains env.value w) ↔
      ConversionSound g env.value (.unboxUint32 u) range := by
  have hconv : ∀ v, g.convert (.unboxUint32 u) range v = some (v % 2 ^ 32) := fun _ => rfl
  unfold ConversionSound
  by_cases hcopy : (u.valueCid = .smi ∨ u.valueIsInt = true) ∧ g.isPositive range = true
  · have hinfer : g.inferConversion (.unboxUint32 u) range = range := by
      simp only [inferConversion, if_pos hcopy.1, if_pos hcopy.2]
    rw [hinfer]
    by_cases hle : range.min.eval env.value ≤ range.max.eval env.value
    · have hfirst := contains_iff.mpr ⟨le_refl (range.min.eval env.value), hle⟩
      have hpos : 0 ≤ range.min.eval env.value :=
        (le_constantMin_of_onlyGreaterThanOrEqualTo isInt64_zero hcopy.2).trans
          (constantMin_le env hs hfirst)
      have hiff := emod_mapsTo_iff 32 hle hpos
      constructor
      · intro h
        have hcond := hiff.mp fun v hv hv' =>
          contains_iff.mp (h v _ (contains_iff.mpr ⟨hv, hv'⟩)
            (isInt64_of_between env hs hv hv') (hconv v))
        unfold maxUint32
        omega
      · intro h v w hv _ hw
        have hcond : range.max.eval env.value ≤ maxUint32 ∨
            range.min.eval env.value = 0 ∧ maxUint32 ≤ range.max.eval env.value := by
          rcases h with hemp | hother | hneg | hcond
          · omega
          · rcases hcopy.1 with h | h <;> simp [h] at hother
          · rw [hcopy.2] at hneg
            cases hneg
          · exact hcond
        rw [← some.inj hw]
        rw [contains_iff] at hv ⊢
        unfold maxUint32 at hcond
        exact hiff.mpr (by omega) v hv.1 hv.2
    · refine iff_of_true ?_ (.inl (by omega))
      intro v w hv
      rw [contains_iff] at hv
      omega
  · have hinfer : g.inferConversion (.unboxUint32 u) range = uint32Range := by
      simp only [inferConversion]
      split_ifs with hint hpos
      · exact absurd ⟨hint, hpos⟩ hcopy
      · rfl
      · rfl
    rw [hinfer]
    refine iff_of_true ?_ (.inr ?_)
    · intro v w _ _ hw
      rw [← some.inj hw]
      exact emod_uint32_contains env.value v
    · by_cases hint : u.valueCid = .smi ∨ u.valueIsInt = true
      · exact .inr (.inl (Bool.eq_false_iff.mpr fun hpos => hcopy ⟨hint, hpos⟩))
      · rw [not_or] at hint
        exact .inl ⟨hint.1, Bool.eq_false_iff.mpr hint.2⟩

end Instructions

/-- The inferred range contains what a conversion produces exactly when the conversion deoptimizes
on what it would change, infers its whole representation, or truncates a range that fits or covers
the word. From 64 bits a converter deoptimizes on nothing, whatever its flag. -/
theorem conversion_sound_iff (g : FlowGraph) (env : Environment g) (c : Conversion) (range : Range)
    (hs : range.SmiSymbols env.toValuation) :
    (∀ v w, range.Contains env.value v → c.Accepts v → g.convert c range v = some w →
      (g.inferConversion c range).Contains env.value w) ↔ ConversionSound g env.value c range := by
  cases c with
  | intConverter c => exact intConverter_sound_iff env hs c
  | unboxInt32 u => exact unboxInt32_sound_iff env hs u
  | unboxUint32 u => exact unboxUint32_sound_iff env hs u

/-- The truncating converter from 64 to 32 bits. -/
def truncatingConverter : IntConverter :=
  ⟨.unboxedInt64, .unboxedInt32, true, by decide, fun _ => rfl⟩

/-- The number five goes through the truncating converter unchanged. -/
theorem conversion_sound_five :
    (lengthGraph.inferConversion (.intConverter truncatingConverter)
      ⟨.constant 5 (by decide), .constant 5 (by decide), rfl, rfl⟩).Contains
        lengthEnvironment.value 5 :=
  (conversion_sound_iff lengthGraph lengthEnvironment (.intConverter truncatingConverter)
    ⟨.constant 5 (by decide), .constant 5 (by decide), rfl, rfl⟩ ⟨trivial, trivial⟩).mpr
    (.inr (.inr (.inl (.inl ⟨⟨by decide, by decide⟩, ⟨by decide, by decide⟩⟩))))
    5 5 ⟨le_refl (5 : ℤ), le_refl (5 : ℤ)⟩ ⟨by decide, by decide⟩ (by decide +kernel)

/-- The range of a number past 32 bits is clamped to the largest word, while the converter produces
five. -/
theorem truncated_past_word_excluded :
    lengthGraph.convert (.intConverter truncatingConverter)
        ⟨.constant (2 ^ 32 + 5) (by decide), .constant (2 ^ 32 + 5) (by decide), rfl, rfl⟩
        (2 ^ 32 + 5) = some 5 ∧
      lengthGraph.inferConversion (.intConverter truncatingConverter)
          ⟨.constant (2 ^ 32 + 5) (by decide), .constant (2 ^ 32 + 5) (by decide), rfl, rfl⟩ =
        ⟨.constant maxInt32 (by decide), .constant maxInt32 (by decide), rfl, rfl⟩ ∧
      ¬(Range.mk (.constant maxInt32 (by decide)) (.constant maxInt32 (by decide)) rfl rfl).Contains
        lengthEnvironment.value 5 := by
  refine ⟨by decide +kernel, by decide +kernel, ?_⟩
  intro h
  have hle : maxInt32 ≤ 5 := h.below
  exact absurd hle (by decide)

end

open PlatformUtils SignedWords Int RangeBoundary

/-- The `>>` of Dart: counts of 64 and more leave the sign. -/
def dartShr (a s : ℤ) : ℤ :=
  if s ≥ 64 then if a < 0 then -1 else 0 else a / 2 ^ s.toNat

/-- The `<<` of Dart, with 64-bit wrap-around. -/
def dartShl (a s : ℤ) : ℤ :=
  if s ≥ 64 then 0 else wrap 63 (a * 2 ^ s.toNat)

def Range.ofConstants (lo hi : ℤ) (hlo : IsInt64 lo) (hhi : IsInt64 hi) : Range :=
  ⟨.constant lo hlo, .constant hi hhi, rfl, rfl⟩

lemma dartShr_eq {a s : ℤ} (ha : IsInt64 a) : dartShr a s = a / 2 ^ s.toNat := by
  unfold dartShr
  split_ifs with hs hneg
  · rw [ediv_two_pow_of_fits (isInt64_iff_fits.mp ha) (by omega), if_pos hneg]
  · rw [ediv_two_pow_of_fits (isInt64_iff_fits.mp ha) (by omega), if_neg hneg]
  · rfl

lemma dartShl_eq (a s : ℤ) : dartShl a s = wrap 63 (a * 2 ^ s.toNat) := by
  unfold dartShl
  split_ifs with hs
  · have hsplit : (2 : ℤ) ^ s.toNat = 2 ^ (s.toNat - 64) * 2 ^ (63 + 1) := by
      rw [← pow_add]
      congr 1
      omega
    refine (wrap_eq_of_fits (k := -(a * 2 ^ (s.toNat - 64))) ⟨by norm_num, by norm_num⟩ ?_).symm
    rw [hsplit]
    ring
  · rfl

lemma RangeBoundary.shl_spec (b overflow : RangeBoundary) {c : ℤ} (hc : 0 ≤ c) :
    (∃ h, RangeBoundary.shl b c overflow = .constant (b.constantValue * 2 ^ c.toNat) h) ∨
      RangeBoundary.shl b c overflow = overflow := by
  have hint := b.isInt64_constantValue
  unfold shl
  simp only
  split_ifs with hcond
  · left
    have hexact : shiftLeft64 b.constantValue c = b.constantValue * 2 ^ c.toNat := by
      unfold shiftLeft64
      rcases hcond with hzero | hzero | ⟨hlimit, hfits⟩
      · rw [hzero, zero_mul, zero_mul]
        exact wrap_of_fits ⟨by norm_num, by norm_num⟩
      · rw [hzero]
        show wrap 63 (b.constantValue * 2 ^ 0) = b.constantValue * 2 ^ 0
        rw [pow_zero, mul_one]
        exact wrap_of_fits (isInt64_iff_fits.mp hint)
      · rw [Nat.mod_eq_of_lt (by omega)]
        simp only [isInt, Bool.and_eq_true, decide_eq_true_eq] at hfits
        have hpow : (2 : ℤ) ^ ((64 - c).toNat - 1) * 2 ^ c.toNat = 2 ^ 63 := by
          rw [← pow_add]
          congr 1
          omega
        apply wrap_of_fits
        constructor
        · nlinarith
        · nlinarith
    refine ⟨hexact ▸ isInt64_shiftLeft64 b.constantValue c, ?_⟩
    simp only [hexact]
  · right
    rfl

section Constants

variable (g : FlowGraph) {lo hi : ℤ} (hlo : IsInt64 lo) (hhi : IsInt64 hi)

lemma constantMin_ofConstants :
    (g.constantMin (.ofConstants lo hi hlo hhi)).constantValue = lo := by
  have hbound : g.lowerBound (.constant lo hlo) = .constant lo hlo := by rw [FlowGraph.lowerBound]
  show ((g.lowerBound (.constant lo hlo)).clamp .int64).constantValue = lo
  rw [hbound, clamp_constant]
  split_ifs with hmin hmax
  · exact le_antisymm hlo.1 hmin
  · exact le_antisymm hmax hlo.2
  · rfl

lemma constantMax_ofConstants :
    (g.constantMax (.ofConstants lo hi hlo hhi)).constantValue = hi := by
  have hbound : g.upperBound (.constant hi hhi) = .constant hi hhi := by rw [FlowGraph.upperBound]
  show ((g.upperBound (.constant hi hhi)).clamp .int64).constantValue = hi
  rw [hbound, clamp_constant]
  split_ifs with hmin hmax
  · exact le_antisymm hhi.1 hmin
  · exact le_antisymm hmax hhi.2
  · rfl

end Constants

section Ranges

variable (g : FlowGraph) (value : ℕ → ℤ) {lo hi lo' hi' : ℤ} (hlo : IsInt64 lo) (hhi : IsInt64 hi)
  (hlo' : IsInt64 lo') (hhi' : IsInt64 hi') (leftDefn : Option ℕ)

lemma minCount_ofConstants : g.minCount (.ofConstants lo' hi' hlo' hhi') = max lo' 0 := by
  rw [FlowGraph.minCount, constantMin_ofConstants]

lemma maxCount_ofConstants : g.maxCount (.ofConstants lo' hi' hlo' hhi') = max hi' 0 := by
  rw [FlowGraph.maxCount, constantMax_ofConstants]

lemma shl_bounds :
    (∃ h h', g.shl (.ofConstants lo hi hlo hhi) (.ofConstants lo' hi' hlo' hhi') =
      (.constant (lo * 2 ^ (if lo > 0 then max lo' 0 else max hi' 0).toNat) h,
        .constant (hi * 2 ^ (if hi > 0 then max hi' 0 else max lo' 0).toNat) h')) ∨
      (g.shl (.ofConstants lo hi hlo hhi) (.ofConstants lo' hi' hlo' hhi')).1.isInfinity = true ∨
      (g.shl (.ofConstants lo hi hlo hhi) (.ofConstants lo' hi' hlo' hhi')).2.isInfinity =
        true := by
  have hmin := constantMin_ofConstants g hlo hhi
  have hmax := constantMax_ofConstants g hlo hhi
  unfold FlowGraph.shl
  simp only [hmin, hmax, minCount_ofConstants, maxCount_ofConstants]
  rcases shl_spec (g.constantMin (.ofConstants lo hi hlo hhi))
      (if lo > 0 then .positiveInfinity else .negativeInfinity)
      (show 0 ≤ if lo > 0 then max lo' 0 else max hi' 0 by split_ifs <;> omega) with
    ⟨h1, hshl1⟩ | hshl1
  · rcases shl_spec (g.constantMax (.ofConstants lo hi hlo hhi))
        (if hi > 0 then .positiveInfinity else .negativeInfinity)
        (show 0 ≤ if hi > 0 then max hi' 0 else max lo' 0 by split_ifs <;> omega) with
      ⟨h2, hshl2⟩ | hshl2
    · left
      rw [hshl1, hshl2]
      simp only [hmin] at h1
      simp only [hmax] at h2
      refine ⟨h1, h2, ?_⟩
      simp only [hmin, hmax]
    · right
      right
      rw [hshl2]
      split_ifs <;> rfl
  · right
    left
    rw [hshl1]
    split_ifs <;> rfl

lemma shl_contains {a s : ℤ} (ha : lo ≤ a) (ha' : a ≤ hi) (hs : lo' ≤ s) (hs' : s ≤ hi')
    (hpos : 0 ≤ s) :
    ∃ r, g.binaryOp .shl (.ofConstants lo hi hlo hhi) (.ofConstants lo' hi' hlo' hhi') leftDefn =
        some r ∧ r.Contains value (dartShl a s) := by
  refine ⟨_, rfl, ?_⟩
  rw [dartShl_eq]
  have hfrom : (2 : ℤ) ^ (max lo' 0).toNat ≤ 2 ^ s.toNat :=
    pow_le_pow_right₀ (by norm_num) (by omega)
  have hto : (2 : ℤ) ^ s.toNat ≤ 2 ^ (max hi' 0).toNat :=
    pow_le_pow_right₀ (by norm_num) (by omega)
  have hone : (0 : ℤ) < 2 ^ (max lo' 0).toNat := by positivity
  show (Range.ofBounds (g.shl _ _).1 (g.shl _ _).2).Contains value _
  rcases shl_bounds g hlo hhi hlo' hhi' with ⟨h1, h2, heq⟩ | hinf
  · rw [heq]
    refine @Encloses.contains _ _ ⟨value, fun _ => True⟩ ⟨?_, ?_, trivial, trivial⟩
    · show lo * 2 ^ _ ≤ a * 2 ^ s.toNat
      split_ifs <;> nlinarith
    · show a * 2 ^ s.toNat ≤ hi * 2 ^ _
      split_ifs <;> nlinarith
  · have hnot : ¬((g.shl (.ofConstants lo hi hlo hhi)
        (.ofConstants lo' hi' hlo' hhi')).1.isInfinity = false ∧
        (g.shl (.ofConstants lo hi hlo hhi)
          (.ofConstants lo' hi' hlo' hhi')).2.isInfinity = false) := by
      intro hfin
      rw [hfin.1, hfin.2] at hinf
      rcases hinf with h | h <;> cases h
    rw [Range.ofBounds_of_infinite hnot]
    have hx := isInt64_iff_fits.mpr (fits_wrap 63 (a * 2 ^ s.toNat))
    exact Range.contains_full value hx.1 hx.2

/-- The bounds of the range of a right shift, with the counts reduced modulo 64. -/
lemma shr_contains_iff (x : ℤ) :
    (∃ r, g.binaryOp .shr (.ofConstants lo hi hlo hhi) (.ofConstants lo' hi' hlo' hhi') leftDefn =
        some r ∧ r.Contains value x) ↔
      lo / 2 ^ ((if lo > 0 then max hi' 0 else max lo' 0).toNat % 64) ≤ x ∧
        x ≤ hi / 2 ^ ((if hi > 0 then max lo' 0 else max hi' 0).toNat % 64) := by
  have hmin := constantMin_ofConstants g hlo hhi
  have hmax := constantMax_ofConstants g hlo hhi
  have hcmin := minCount_ofConstants g hlo' hhi'
  have hcmax := maxCount_ofConstants g hlo' hhi'
  have hleft : (RangeBoundary.Below value
      (g.shr (.ofConstants lo hi hlo hhi) (.ofConstants lo' hi' hlo' hhi')).1 x) ↔
      lo / 2 ^ ((if lo > 0 then max hi' 0 else max lo' 0).toNat % 64) ≤ x := by
    unfold FlowGraph.shr shr
    simp only [RangeBoundary.Below, shiftRight64, hmin, hcmin, hcmax]
  have hright : (RangeBoundary.Above value
      (g.shr (.ofConstants lo hi hlo hhi) (.ofConstants lo' hi' hlo' hhi')).2 x) ↔
      x ≤ hi / 2 ^ ((if hi > 0 then max lo' 0 else max hi' 0).toNat % 64) := by
    unfold FlowGraph.shr shr
    simp only [RangeBoundary.Above, shiftRight64, hmax, hcmin, hcmax]
  rw [← hleft, ← hright]
  constructor
  · rintro ⟨r, hr, hx⟩
    cases hr
    exact ⟨hx.below, hx.above⟩
  · intro hx
    exact ⟨_, rfl, hx.1, hx.2⟩

end Ranges

/-- No number of a negative interval is shifted above minus one. -/
lemma ediv_two_pow_le_of_nonpos {x : ℤ} (hx : x ≤ 0) (k : ℕ) : x / 2 ^ k ≤ 0 :=
  Int.ediv_le_of_le_mul (by positivity) (by omega)

lemma ediv_le_ediv_two_pow {x y : ℤ} (h : x ≤ y) (k : ℕ) : x / 2 ^ k ≤ y / 2 ^ k :=
  Int.ediv_le_ediv (by positivity) h

/-- Counts that differ only in how far they go: a right shift by less is further from zero. -/
lemma ediv_two_pow_le_of_nonpos_of_le {x : ℤ} (hx : x ≤ 0) {j k : ℕ} (h : j ≤ k) :
    x / 2 ^ j ≤ x / 2 ^ k := by
  rcases hx.eq_or_lt with rfl | hneg
  · rw [zero_ediv, zero_ediv]
  · exact ediv_two_pow_mono hneg h

/-- Shifts are inferred correctly exactly when a range is empty, every count is below 64, or the
count modulo 64 also shifts both bounds of the left range down to the sign. -/
theorem shift_ranges_sound_iff (g : FlowGraph) (value : ℕ → ℤ) (leftDefn : Option ℕ)
    (lo hi lo' hi' : ℤ) (hlo : IsInt64 lo) (hhi : IsInt64 hi) (hlo' : IsInt64 lo')
    (hhi' : IsInt64 hi') :
    (∀ a s, lo ≤ a → a ≤ hi → lo' ≤ s → s ≤ hi' → 0 ≤ s →
      (∃ r, g.binaryOp .shr (.ofConstants lo hi hlo hhi) (.ofConstants lo' hi' hlo' hhi') leftDefn =
        some r ∧ r.Contains value (dartShr a s)) ∧
      (∃ r, g.binaryOp .shl (.ofConstants lo hi hlo hhi) (.ofConstants lo' hi' hlo' hhi') leftDefn =
        some r ∧ r.Contains value (dartShl a s))) ↔
      hi < lo ∨ hi' < lo' ∨ hi' < 64 ∨ lo < 2 ^ (hi'.toNat % 64) ∧ -2 ^ (hi'.toNat % 64) ≤ hi := by
  constructor
  · intro h
    by_contra hcond
    push Not at hcond
    obtain ⟨hne, hne', hbig, hvanish⟩ := hcond
    have hpow : (0 : ℤ) < 2 ^ (hi'.toNat % 64) := by positivity
    have hcount : (max hi' 0).toNat = hi'.toNat := by omega
    -- The largest count leaves only the sign of either bound.
    by_cases hpos : lo < 2 ^ (hi'.toNat % 64)
    · have hneg := hvanish hpos
      obtain ⟨-, hmax⟩ := (shr_contains_iff g value hlo hhi hlo' hhi' leftDefn _).mp
        (h hi hi' hne le_rfl hne' le_rfl (by omega)).1
      rw [if_neg (by omega), hcount] at hmax
      unfold dartShr at hmax
      rw [if_pos hbig, if_pos (by omega), Int.le_ediv_iff_mul_le hpow] at hmax
      omega
    · obtain ⟨hmin, -⟩ := (shr_contains_iff g value hlo hhi hlo' hhi' leftDefn _).mp
        (h lo hi' le_rfl hne hne' le_rfl (by omega)).1
      rw [if_pos (by omega), hcount] at hmin
      unfold dartShr at hmin
      rw [if_pos hbig, if_neg (by omega)] at hmin
      have hone : 1 ≤ lo / 2 ^ (hi'.toNat % 64) := by
        rw [Int.le_ediv_iff_mul_le hpow]
        omega
      omega
  · intro hcond a s ha ha' hs hs' hpos
    refine ⟨?_, shl_contains g value hlo hhi hlo' hhi' leftDefn ha ha' hs hs' hpos⟩
    have hint : IsInt64 a := ⟨hlo.1.trans ha, ha'.trans hhi.2⟩
    have hpow : (0 : ℤ) < 2 ^ (hi'.toNat % 64) := by positivity
    have hreduce : (max lo' 0).toNat % 64 ≤ s.toNat := (Nat.mod_le _ _).trans (by omega)
    have hcount : (max hi' 0).toNat = hi'.toNat := by omega
    rw [shr_contains_iff, dartShr_eq hint]
    constructor
    · split_ifs with hsign
      · rw [hcount]
        by_cases hsmall : hi' < 64
        · have hle : s.toNat ≤ hi'.toNat % 64 := by omega
          calc lo / 2 ^ (hi'.toNat % 64) ≤ a / 2 ^ (hi'.toNat % 64) := ediv_le_ediv_two_pow ha _
            _ ≤ a / 2 ^ s.toNat := ediv_two_pow_anti (by omega) hle
        · have hzero : lo / 2 ^ (hi'.toNat % 64) = 0 :=
            ediv_eq_zero_of_lt (by omega) (by omega)
          rw [hzero]
          exact ediv_nonneg (by omega) (by positivity)
      · calc lo / 2 ^ ((max lo' 0).toNat % 64) ≤ lo / 2 ^ s.toNat :=
              ediv_two_pow_le_of_nonpos_of_le (by omega) hreduce
          _ ≤ a / 2 ^ s.toNat := ediv_le_ediv_two_pow ha _
    · split_ifs with hsign
      · calc a / 2 ^ s.toNat ≤ hi / 2 ^ s.toNat := ediv_le_ediv_two_pow ha' _
          _ ≤ hi / 2 ^ ((max lo' 0).toNat % 64) := ediv_two_pow_anti (by omega) hreduce
      · rw [hcount]
        by_cases hsmall : hi' < 64
        · have hle : s.toNat ≤ hi'.toNat % 64 := by omega
          calc a / 2 ^ s.toNat ≤ hi / 2 ^ s.toNat := ediv_le_ediv_two_pow ha' _
            _ ≤ hi / 2 ^ (hi'.toNat % 64) := ediv_two_pow_le_of_nonpos_of_le (by omega) hle
        · rcases (show hi ≤ 0 by omega).eq_or_lt with hzero | hneg
          · rw [hzero, zero_ediv]
            exact ediv_two_pow_le_of_nonpos (by omega) _
          · have hbound : -1 ≤ hi / 2 ^ (hi'.toNat % 64) := by
              rw [Int.le_ediv_iff_mul_le hpow]
              omega
            have hnegative : a / 2 ^ s.toNat < 0 :=
              Int.ediv_neg_of_neg_of_pos (by omega) (by positivity)
            omega

/-- One shifted by a count up to 63. -/
theorem shift_ranges_sound_one :
    (∃ r, lengthGraph.binaryOp .shr (.ofConstants 1 1 (by decide) (by decide))
      (.ofConstants 0 63 (by decide) (by decide)) none = some r ∧
        r.Contains (fun _ => 0) (dartShr 1 63)) ∧
    (∃ r, lengthGraph.binaryOp .shl (.ofConstants 1 1 (by decide) (by decide))
      (.ofConstants 0 63 (by decide) (by decide)) none = some r ∧
        r.Contains (fun _ => 0) (dartShl 1 63)) :=
  (shift_ranges_sound_iff lengthGraph (fun _ => 0) none 1 1 0 63 (by decide) (by decide) (by decide)
    (by decide)).mpr (.inr (.inr (.inl (by decide)))) 1 63 (by decide) (by decide) (by decide)
    (by decide) (by decide)

/-- One shifted right by 64 is zero, but its range is inferred to hold only one. -/
theorem shr_by_64_excluded :
    dartShr 1 64 = 0 ∧
      lengthGraph.binaryOp .shr (.ofConstants 1 1 (by decide) (by decide))
          (.ofConstants 64 64 (by decide) (by decide)) none =
        some (.ofConstants 1 1 (by decide) (by decide)) ∧
      ¬(Range.ofConstants 1 1 (by decide) (by decide)).Contains (fun _ => 0) (dartShr 1 64) := by
  refine ⟨by decide, by decide +kernel, ?_⟩
  intro h
  have hle : (1 : ℤ) ≤ dartShr 1 64 := h.below
  exact absurd hle (by decide)

end DartSdk.RangeAnalysis
