import DartSdk.RangeBoundaries

/-!
The inferred range of an arithmetic or bitwise operation contains its result. Every operator bounds
the exact result from below and from above, with an infinity where it would leave 64 bits; what the
range constructor makes of infinities then contains the result after wrap-around, and a range that
fits the representation of the instruction leaves no overflow.
-/

namespace DartSdk.RangeAnalysis

open PlatformUtils SignedWords Bool Int Range RangeBoundary Option

/-- The result of an operator before it is cut to 64 bits; none where the operator throws. -/
def Token.exact (op : Token) (a b : ℤ) : Option ℤ :=
  match op with
  | .add => some (a + b)
  | .sub => some (a - b)
  | .mul => some (a * b)
  | .truncDiv => if b = 0 then none else some (a.tdiv b)
  | .mod => if b = 0 then none else some (a % b)
  | .shl => if b < 0 then none else some (a * 2 ^ b.toNat)
  | .shr => if b < 0 then none else some (a / 2 ^ b.toNat)
  | .bitAnd => some (a.land b)
  | .bitOr => some (a.lor b)
  | .bitXor => some (a.xor b)

def Token.isShift : Token → Bool
  | .shl => true
  | .shr => true
  | _ => false

/-- Boundaries enclose a number; an infinity encloses everything on its side. -/
structure Encloses (valuation : Valuation) (p : RangeBoundary × RangeBoundary) (x : ℤ) :
    Prop where
  below : p.1.Below valuation.value x
  above : p.2.Above valuation.value x
  min_smi : p.1.SmiSymbol valuation
  max_smi : p.2.SmiSymbol valuation

namespace RangeBoundary

variable {valuation : Valuation}

lemma Below.min_le {b : RangeBoundary} {x : ℤ} (h : b.Below valuation.value x)
    (hfin : b.isInfinity = false) (hs : b.SmiSymbol valuation) : minInt64 ≤ x := by
  cases b with
  | negativeInfinity => cases hfin
  | positiveInfinity => cases hfin
  | symbol s o ho => exact (isInt64_add_offset hs.2 ho).1.trans h
  | constant c hc => exact hc.1.trans h

lemma Above.le_max {b : RangeBoundary} {x : ℤ} (h : b.Above valuation.value x)
    (hfin : b.isInfinity = false) (hs : b.SmiSymbol valuation) : x ≤ maxInt64 := by
  cases b with
  | negativeInfinity => cases hfin
  | positiveInfinity => cases hfin
  | symbol s o ho => exact le_trans h (isInt64_add_offset hs.2 ho).2
  | constant c hc => exact le_trans h hc.2

end RangeBoundary

variable {x : ℤ}

lemma Range.contains_full (value : ℕ → ℤ) {size : RangeSize} (h : size.min ≤ x)
    (h' : x ≤ size.max) : (Range.full size).Contains value x :=
  ⟨h, h'⟩

lemma Range.Contains.isInt64 {valuation : Valuation} {r : Range}
    (h : r.Contains valuation.value x) (hs : r.SmiSymbols valuation) : IsInt64 x :=
  ⟨h.below.min_le r.min_finite hs.min, h.above.le_max r.max_finite hs.max⟩

lemma Range.ofBounds_of_finite {min max : RangeBoundary} (h : min.isInfinity = false)
    (h' : max.isInfinity = false) : Range.ofBounds min max = ⟨min, max, h, h'⟩ :=
  dif_pos ⟨h, h'⟩

lemma Range.ofBounds_of_infinite {min max : RangeBoundary}
    (h : ¬(min.isInfinity = false ∧ max.isInfinity = false)) :
    Range.ofBounds min max = Range.full .int64 :=
  dif_neg h

variable {p : RangeBoundary × RangeBoundary}

lemma Encloses.contains {valuation : Valuation} (h : Encloses valuation p x) :
    (Range.ofBounds p.1 p.2).Contains valuation.value (wrap 63 x) := by
  by_cases hfin : p.1.isInfinity = false ∧ p.2.isInfinity = false
  · have hx : IsInt64 x :=
      ⟨h.below.min_le hfin.1 h.min_smi, h.above.le_max hfin.2 h.max_smi⟩
    rw [ofBounds_of_finite hfin.1 hfin.2, wrap_of_fits (isInt64_iff_fits.mp hx)]
    exact ⟨h.below, h.above⟩
  · rw [ofBounds_of_infinite hfin]
    have hx := isInt64_iff_fits.mpr (fits_wrap 63 x)
    exact contains_full _ hx.1 hx.2

namespace RangeBoundary

lemma IsLower.min_le_of_not_overflowed {b : RangeBoundary} {value : ℕ → ℤ} {size : RangeSize}
    {x : ℤ} (h : b.IsLower) (hx : b.Below value x) (hfit : b.overflowed size = false) :
    size.min ≤ x := by
  have heq : b = b.clamp size := by
    simpa only [overflowed, not_eq_false', decide_eq_true_eq] using hfit
  cases b with
  | negativeInfinity => cases heq
  | positiveInfinity => cases h
  | symbol s o ho => cases h
  | constant c hc =>
    have hcx : c ≤ x := hx
    rw [clamp_constant] at heq
    split_ifs at heq with hlo hhi
    · have hc : c = size.min := congrArg constantValue heq
      omega
    · omega
    · omega

lemma IsUpper.le_max_of_not_overflowed {b : RangeBoundary} {value : ℕ → ℤ} {size : RangeSize}
    {x : ℤ} (h : b.IsUpper) (hx : b.Above value x) (hfit : b.overflowed size = false) :
    x ≤ size.max := by
  have heq : b = b.clamp size := by
    simpa only [overflowed, not_eq_false', decide_eq_true_eq] using hfit
  cases b with
  | negativeInfinity => cases h
  | positiveInfinity => cases heq
  | symbol s o ho => cases h
  | constant c hc =>
    have hcx : x ≤ c := hx
    have hsize := RangeSize.min_le_max size
    rw [clamp_constant] at heq
    split_ifs at heq with hlo hhi
    · have hc : c = size.min := congrArg constantValue heq
      omega
    · have hc : c = size.max := congrArg constantValue heq
      omega
    · omega

end RangeBoundary

namespace FlowGraph

variable {g : FlowGraph} (env : Environment g)

variable {size : RangeSize} {x : ℤ}

lemma fits_sound {r : Range} (hs : r.SmiSymbols env.toValuation)
    (hx : r.Contains env.value x) (hfit : g.fits r size = true) : size.min ≤ x ∧ x ≤ size.max := by
  simp only [fits, and_eq_true, not_eq_true'] at hfit
  exact ⟨(isLower_lowerBound _).min_le_of_not_overflowed
      (below_lowerBound env _ hs.min x hx.below) hfit.1,
    (isUpper_upperBound _).le_max_of_not_overflowed
      (above_upperBound env _ hs.max x hx.above) hfit.2⟩

lemma fits_full_int64 (h : size ≠ .int64) : g.fits (Range.full .int64) size = false := by
  have hlower : g.lowerBound (full .int64).min = .minConstant .int64 := by
    rw [show (full .int64).min = .constant minInt64 ⟨by decide, by decide⟩ from rfl,
      lowerBound]
    rfl
  unfold fits
  rw [hlower]
  cases size with
  | smi => rfl
  | int32 => rfl
  | int64 => exact absurd rfl h

lemma fits_ofBounds_sound (h : Encloses env.toValuation p x) (hsize : size ≠ .int64)
    (hfit : g.fits (Range.ofBounds p.1 p.2) size = true) : size.min ≤ x ∧ x ≤ size.max := by
  by_cases hfin : p.1.isInfinity = false ∧ p.2.isInfinity = false
  · rw [ofBounds_of_finite hfin.1 hfin.2] at hfit
    exact fits_sound env ⟨h.min_smi, h.max_smi⟩ ⟨h.below, h.above⟩ hfit
  · rw [ofBounds_of_infinite hfin, fits_full_int64 hsize] at hfit
    cases hfit

lemma constantMin_le {r : Range} (hs : r.SmiSymbols env.toValuation)
    (hx : r.Contains env.value x) : (g.constantMin r).constantValue ≤ x :=
  lowerBoundIn_le env hs.min hx.below (hx.isInt64 hs).1

lemma le_constantMax {r : Range} (hs : r.SmiSymbols env.toValuation)
    (hx : r.Contains env.value x) : x ≤ (g.constantMax r).constantValue :=
  le_upperBoundIn env hs.max hx.above (hx.isInt64 hs).2

/-- A test against the lower bound is a test against the constant minimum. -/
lemma le_constantMin_of_onlyGreaterThanOrEqualTo {r : Range} {val : ℤ} (hval : IsInt64 val)
    (h : g.onlyGreaterThanOrEqualTo r val = true) : val ≤ (g.constantMin r).constantValue := by
  have hlower := isLower_lowerBound (g := g) r.min
  unfold onlyGreaterThanOrEqualTo at h
  unfold constantMin
  cases hb : g.lowerBound r.min with
  | negativeInfinity =>
    rw [hb] at h
    cases h
  | positiveInfinity =>
    rw [hb] at hlower
    cases hlower
  | symbol s o ho =>
    rw [hb] at hlower
    cases hlower
  | constant c hc =>
    rw [hb] at h
    have hle : val ≤ c := of_decide_eq_true h
    rw [clamp_constant]
    split_ifs with hlo hhi
    · exact hle.trans hlo
    · exact hval.2
    · exact hle

lemma constantMax_le_of_onlyLessThanOrEqualTo {r : Range} {val : ℤ} (hval : IsInt64 val)
    (h : g.onlyLessThanOrEqualTo r val = true) : (g.constantMax r).constantValue ≤ val := by
  have hupper := isUpper_upperBound (g := g) r.max
  unfold onlyLessThanOrEqualTo at h
  unfold constantMax
  cases hb : g.upperBound r.max with
  | positiveInfinity =>
    rw [hb] at h
    cases h
  | negativeInfinity =>
    rw [hb] at hupper
    cases hupper
  | symbol s o ho =>
    rw [hb] at hupper
    cases hupper
  | constant c hc =>
    rw [hb] at h
    have hle : c ≤ val := of_decide_eq_true h
    rw [clamp_constant]
    split_ifs with hlo hhi
    · exact hval.1
    · exact le_trans hhi hle
    · exact hle

variable {d : ℕ} {o : ℤ}

variable {ho : ValidOffset o}

lemma below_fromDefinition
    (h : env.value d + o ≤ x) : (g.fromDefinition d o ho).Below env.value x := by
  unfold fromDefinition
  split
  · rename_i c hc hkind
    rw [env.constant_value d c hc hkind] at h
    exact h
  · exact h

lemma above_fromDefinition
    (h : x ≤ env.value d + o) : (g.fromDefinition d o ho).Above env.value x := by
  unfold fromDefinition
  split
  · rename_i c hc hkind
    rw [env.constant_value d c hc hkind] at h
    exact h
  · exact h

lemma smiSymbol_fromDefinition (h : env.Known d) :
    (g.fromDefinition d o ho).SmiSymbol env.toValuation := by
  unfold fromDefinition
  split
  · trivial
  · exact h

variable {b : RangeBoundary}

lemma below_leftBoundary {leftDefn : Option ℕ} {a : ℤ}
    (hdefn : ∀ d ∈ leftDefn, env.executed d ∧ env.value d = a) (hb : b.Below env.value a) :
    (g.leftBoundary leftDefn b).Below env.value a := by
  unfold leftBoundary
  split
  · exact hb
  · rename_i d
    split_ifs
    · exact below_fromDefinition env (by rw [(hdefn d rfl).2]; omega)
    · exact hb

lemma above_leftBoundary {leftDefn : Option ℕ} {a : ℤ}
    (hdefn : ∀ d ∈ leftDefn, env.executed d ∧ env.value d = a) (hb : b.Above env.value a) :
    (g.leftBoundary leftDefn b).Above env.value a := by
  unfold leftBoundary
  split
  · exact hb
  · rename_i d
    split_ifs
    · exact above_fromDefinition env (by rw [(hdefn d rfl).2]; omega)
    · exact hb

lemma smiSymbol_leftBoundary {leftDefn : Option ℕ} {b : RangeBoundary}
    (hdefn : ∀ d ∈ leftDefn, env.executed d) (hb : b.SmiSymbol env.toValuation) :
      (g.leftBoundary leftDefn b).SmiSymbol env.toValuation := by
  unfold leftBoundary
  split
  · exact hb
  · rename_i d
    split_ifs with hlen
    · have hex := hdefn d rfl
      exact smiSymbol_fromDefinition env ⟨hex, env.arrayLength_smi d hex hlen⟩
    · exact hb

variable {r : RangeBoundary}

lemma addToSymbol_spec {s : ℕ} {c : ℤ}
    (h : g.addToSymbol s o c = some r) : ∃ hv, r = g.fromDefinition s (o + c) hv := by
  unfold addToSymbol at h
  split_ifs at h with hover hok
  exact ⟨hok, (some.inj h).symm⟩

variable {a : RangeBoundary} {y : ℤ}

section

variable (h : g.symbolicAdd a b = some r)

include h

lemma below_symbolicAdd (ha : a.Below env.value x) (hb : b.Below env.value y) :
    r.Below env.value (x + y) := by
  unfold symbolicAdd at h
  split at h
  · rename_i s o ho c hc
    obtain ⟨hv, rfl⟩ := addToSymbol_spec h
    have hx : env.value s + o ≤ x := ha
    have hy : c ≤ y := hb
    exact below_fromDefinition env (by omega)
  · rename_i c hc s o ho
    obtain ⟨hv, rfl⟩ := addToSymbol_spec h
    have hx : c ≤ x := ha
    have hy : env.value s + o ≤ y := hb
    exact below_fromDefinition env (by omega)
  · cases h

lemma above_symbolicAdd (ha : a.Above env.value x) (hb : b.Above env.value y) :
    r.Above env.value (x + y) := by
  unfold symbolicAdd at h
  split at h
  · rename_i s o ho c hc
    obtain ⟨hv, rfl⟩ := addToSymbol_spec h
    have hx : x ≤ env.value s + o := ha
    have hy : y ≤ c := hb
    exact above_fromDefinition env (by omega)
  · rename_i c hc s o ho
    obtain ⟨hv, rfl⟩ := addToSymbol_spec h
    have hx : x ≤ c := ha
    have hy : y ≤ env.value s + o := hb
    exact above_fromDefinition env (by omega)
  · cases h

lemma smiSymbol_symbolicAdd (ha : a.SmiSymbol env.toValuation) (hb : b.SmiSymbol env.toValuation) :
    r.SmiSymbol env.toValuation := by
  unfold symbolicAdd at h
  split at h
  · obtain ⟨hv, rfl⟩ := addToSymbol_spec h
    exact smiSymbol_fromDefinition env ha
  · obtain ⟨hv, rfl⟩ := addToSymbol_spec h
    exact smiSymbol_fromDefinition env hb
  · cases h

end

section

variable (h : g.symbolicSub a b = some r)

include h

lemma symbolicSub_spec :
    ∃ s o ho c hc hv, a = .symbol s o ho ∧ b = .constant c hc ∧
      r = g.fromDefinition s (o - c) hv := by
  unfold symbolicSub at h
  split at h
  · rename_i s o ho c hc
    split_ifs at h with hover hok
    exact ⟨s, o, ho, c, hc, hok, rfl, rfl, (some.inj h).symm⟩
  · cases h

lemma below_symbolicSub (ha : a.Below env.value x) (hb : b.Above env.value y) :
    r.Below env.value (x - y) := by
  obtain ⟨s, o, ho, c, hc, hv, rfl, rfl, rfl⟩ := symbolicSub_spec h
  have hx : env.value s + o ≤ x := ha
  have hy : y ≤ c := hb
  exact below_fromDefinition env (by omega)

lemma above_symbolicSub (ha : a.Above env.value x) (hb : b.Below env.value y) :
    r.Above env.value (x - y) := by
  obtain ⟨s, o, ho, c, hc, hv, rfl, rfl, rfl⟩ := symbolicSub_spec h
  have hx : x ≤ env.value s + o := ha
  have hy : c ≤ y := hb
  exact above_fromDefinition env (by omega)

lemma smiSymbol_symbolicSub (ha : a.SmiSymbol env.toValuation) : r.SmiSymbol env.toValuation := by
  obtain ⟨s, o, ho, c, hc, hv, rfl, rfl, rfl⟩ := symbolicSub_spec h
  exact smiSymbol_fromDefinition env ha

end

lemma smiSymbol_of_isLower (h : b.IsLower) : b.SmiSymbol env.toValuation := by
  cases b with
  | symbol s o ho => cases h
  | _ => trivial

lemma smiSymbol_of_isUpper (h : b.IsUpper) : b.SmiSymbol env.toValuation := by
  cases b with
  | symbol s o ho => cases h
  | _ => trivial

lemma isLower_sub : (RangeBoundary.sub a b .negativeInfinity).IsLower := by
  unfold RangeBoundary.sub
  split
  · split_ifs <;> trivial
  · trivial

lemma isUpper_sub : (RangeBoundary.sub a b .positiveInfinity).IsUpper := by
  unfold RangeBoundary.sub
  split
  · split_ifs <;> trivial
  · trivial

section Operands

variable {left right : Range} {leftDefn : Option ℕ} {a b : ℤ}
  (hl : left.SmiSymbols env.toValuation) (hr : right.SmiSymbols env.toValuation)
  (ha : left.Contains env.value a) (hb : right.Contains env.value b)

include hl hr ha hb

lemma encloses_add (hdefn : ∀ d ∈ leftDefn, env.executed d ∧ env.value d = a) :
    Encloses env.toValuation (g.add left right leftDefn) (a + b) := by
  have hbelow := below_leftBoundary env hdefn ha.below
  have habove := above_leftBoundary env hdefn ha.above
  have hmin := @smiSymbol_leftBoundary g env leftDefn _ (fun d hd => (hdefn d hd).1) hl.min
  have hmax := @smiSymbol_leftBoundary g env leftDefn _ (fun d hd => (hdefn d hd).1) hl.max
  unfold add
  constructor
  · cases h : g.symbolicAdd (g.leftBoundary leftDefn left.min) right.min with
    | some r => exact below_symbolicAdd env h hbelow hb.below
    | none =>
      exact RangeBoundary.Below.add (isLower_lowerBound _) (isLower_lowerBound _)
        (below_lowerBound env _ hl.min a ha.below) (below_lowerBound env _ hr.min b hb.below)
  · cases h : g.symbolicAdd (g.leftBoundary leftDefn left.max) right.max with
    | some r => exact above_symbolicAdd env h habove hb.above
    | none =>
      rw [add_comm]
      exact RangeBoundary.Above.add (isUpper_upperBound _) (isUpper_upperBound _)
        (above_upperBound env _ hr.max b hb.above) (above_upperBound env _ hl.max a ha.above)
  · cases h : g.symbolicAdd (g.leftBoundary leftDefn left.min) right.min with
    | some r => exact smiSymbol_symbolicAdd env h hmin hr.min
    | none => exact smiSymbol_of_isLower env RangeBoundary.IsLower.add
  · cases h : g.symbolicAdd (g.leftBoundary leftDefn left.max) right.max with
    | some r => exact smiSymbol_symbolicAdd env h hmax hr.max
    | none => exact smiSymbol_of_isUpper env RangeBoundary.IsUpper.add

lemma encloses_sub (hdefn : ∀ d ∈ leftDefn, env.executed d ∧ env.value d = a) :
    Encloses env.toValuation (g.sub left right leftDefn) (a - b) := by
  have hbelow := below_leftBoundary env hdefn ha.below
  have habove := above_leftBoundary env hdefn ha.above
  have hmin := @smiSymbol_leftBoundary g env leftDefn _ (fun d hd => (hdefn d hd).1) hl.min
  have hmax := @smiSymbol_leftBoundary g env leftDefn _ (fun d hd => (hdefn d hd).1) hl.max
  unfold sub
  constructor
  · cases h : g.symbolicSub (g.leftBoundary leftDefn left.min) right.max with
    | some r => exact below_symbolicSub env h hbelow hb.above
    | none =>
      exact RangeBoundary.Below.sub (isLower_lowerBound _) (isUpper_upperBound _)
        (below_lowerBound env _ hl.min a ha.below) (above_upperBound env _ hr.max b hb.above)
  · cases h : g.symbolicSub (g.leftBoundary leftDefn left.max) right.min with
    | some r => exact above_symbolicSub env h habove hb.below
    | none =>
      exact RangeBoundary.Above.sub (isUpper_upperBound _) (isLower_lowerBound _)
        (above_upperBound env _ hl.max a ha.above) (below_lowerBound env _ hr.min b hb.below)
  · cases h : g.symbolicSub (g.leftBoundary leftDefn left.min) right.max with
    | some r => exact smiSymbol_symbolicSub env h hmin
    | none => exact smiSymbol_of_isLower env isLower_sub
  · cases h : g.symbolicSub (g.leftBoundary leftDefn left.max) right.min with
    | some r => exact smiSymbol_symbolicSub env h hmax
    | none => exact smiSymbol_of_isUpper env isUpper_sub

end Operands

variable {r : Range} {x : ℤ}

section

variable (hs : r.SmiSymbols env.toValuation) (hx : r.Contains env.value x)

include hs hx

/-- No number of a range is further from zero than its absolute maximum, unless that saturates. -/
lemma abs_le_constantAbsMax (hlt : g.constantAbsMax r < maxInt64) : |x| ≤ g.constantAbsMax r := by
  have hmin := constantMin_le env hs hx
  have hmax := le_constantMax env hs hx
  have hlow : |(g.constantMin r).constantValue| ≤ g.constantAbsMax r := by
    have hle : absWithSaturation (g.constantMin r).constantValue ≤ g.constantAbsMax r :=
      le_max_left _ _
    rwa [absWithSaturation_eq_abs (hle.trans_lt hlt)] at hle
  have hhigh : |(g.constantMax r).constantValue| ≤ g.constantAbsMax r := by
    have hle : absWithSaturation (g.constantMax r).constantValue ≤ g.constantAbsMax r :=
      le_max_right _ _
    rwa [absWithSaturation_eq_abs (hle.trans_lt hlt)] at hle
  rw [abs_le] at hlow hhigh ⊢
  omega

omit hs hx in
lemma absWithSaturation_of_nonneg (h : 0 ≤ x) : absWithSaturation x = x :=
  if_neg (not_lt.mpr h)

/-- In a range without negative numbers the absolute extremes are the extremes. -/
lemma constantAbs_of_nonneg (h : 0 ≤ (g.constantMin r).constantValue) :
    g.constantAbsMin r = (g.constantMin r).constantValue ∧
      g.constantAbsMax r = (g.constantMax r).constantValue := by
  have hmin := constantMin_le env hs hx
  have hmax := le_constantMax env hs hx
  unfold constantAbsMin constantAbsMax
  rw [absWithSaturation_of_nonneg h,
    absWithSaturation_of_nonneg (x := (g.constantMax r).constantValue)
    (by omega)]
  omega

/-- In a range without positive numbers the absolute minimum is the maximum, negated. -/
lemma constantAbsMin_le_neg (h : (g.constantMax r).constantValue ≤ 0) :
    g.constantAbsMin r ≤ -x := by
  have hmax := le_constantMax env hs hx
  have hle : g.constantAbsMin r ≤ absWithSaturation (g.constantMax r).constantValue :=
    min_le_right _ _
  refine hle.trans ?_
  unfold absWithSaturation
  unfold IsInt64 minInt64 maxInt64 at *
  split_ifs <;> omega

end

lemma neg_smiMin_lt : -smiMin < maxInt64 := by decide

section Operands

variable {left right : Range} {a b : ℤ}
  (hl : left.SmiSymbols env.toValuation) (hr : right.SmiSymbols env.toValuation)
  (ha : left.Contains env.value a) (hb : right.Contains env.value b)

include hl hr ha hb

/-- For operands of one sign the product is that of the absolute values. -/
lemma mul_of_sameSign
    (h : (g.onlyPositiveOrZero left right || g.onlyNegativeOrZero left right) = true) :
    0 ≤ a * b ∧ g.constantAbsMin left * g.constantAbsMin right ≤ a * b := by
  have hmina := constantMin_le env hl ha
  have hminb := constantMin_le env hr hb
  have hmaxa := le_constantMax env hl ha
  have hmaxb := le_constantMax env hr hb
  rcases or_eq_true_iff.mp h with hpos | hneg
  · obtain ⟨hposa, hposb⟩ := and_eq_true_iff.mp hpos
    have hlowa := le_constantMin_of_onlyGreaterThanOrEqualTo isInt64_zero hposa
    have hlowb := le_constantMin_of_onlyGreaterThanOrEqualTo isInt64_zero hposb
    rw [(constantAbs_of_nonneg env hl ha hlowa).1, (constantAbs_of_nonneg env hr hb hlowb).1]
    exact ⟨mul_nonneg (by omega) (by omega), mul_le_mul hmina hminb hlowb (by omega)⟩
  · obtain ⟨hnega, hnegb⟩ := and_eq_true_iff.mp hneg
    have hhigha := constantMax_le_of_onlyLessThanOrEqualTo isInt64_zero hnega
    have hhighb := constantMax_le_of_onlyLessThanOrEqualTo isInt64_zero hnegb
    have hlea := constantAbsMin_le_neg env hl ha hhigha
    have hleb := constantAbsMin_le_neg env hr hb hhighb
    rw [← neg_mul_neg a b]
    exact ⟨mul_nonneg (by omega) (by omega),
      mul_le_mul hlea hleb (g.constantAbsMin_nonneg right) (by omega)⟩

lemma encloses_mul : Encloses env.toValuation (g.mul left right) (a * b) := by
  unfold mul
  by_cases hprod : g.ProductInRange left right
  · have habs : |a * b| ≤ g.constantAbsMax left * g.constantAbsMax right := by
      rw [abs_mul]
      exact mul_le_mul
        (abs_le_constantAbsMax env hl ha (hprod.1.trans_lt neg_smiMin_lt))
        (abs_le_constantAbsMax env hr hb (hprod.2.1.trans_lt neg_smiMin_lt))
        (abs_nonneg b) (g.constantAbsMax_nonneg left)
    rw [abs_le] at habs
    simp only [dif_pos hprod]
    split_ifs with hsign
    · have hsame := mul_of_sameSign env hl hr ha hb hsign
      exact ⟨hsame.2, habs.2, trivial, trivial⟩
    · exact ⟨habs.1, habs.2, trivial, trivial⟩
  · simp only [dif_neg hprod]
    split_ifs with hsign
    · have hsame := mul_of_sameSign env hl hr ha hb hsign
      exact ⟨hsame.1, trivial, trivial, trivial⟩
    · exact ⟨trivial, trivial, trivial, trivial⟩

lemma encloses_truncDiv :
    ∃ p, g.truncDiv left right = some p ∧ Encloses env.toValuation p (a.tdiv b) := by
  unfold truncDiv
  split_ifs with hsign hzero
  · -- A number in the right range keeps the divisors away from zero.
    obtain ⟨-, hposb⟩ := and_eq_true_iff.mp hsign
    have hlowb := le_constantMin_of_onlyGreaterThanOrEqualTo ⟨by decide, by decide⟩ hposb
    have habsb := constantAbs_of_nonneg env hr hb (by omega)
    have hminb := constantMin_le env hr hb
    have hmaxb := le_constantMax env hr hb
    omega
  · obtain ⟨hposa, hposb⟩ := and_eq_true_iff.mp hsign
    have hlowa := le_constantMin_of_onlyGreaterThanOrEqualTo isInt64_zero hposa
    have hlowb := le_constantMin_of_onlyGreaterThanOrEqualTo ⟨by decide, by decide⟩ hposb
    have habsa := constantAbs_of_nonneg env hl ha hlowa
    have habsb := constantAbs_of_nonneg env hr hb (by omega)
    have hmina := constantMin_le env hl ha
    have hminb := constantMin_le env hr hb
    have hmaxa := le_constantMax env hl ha
    have hmaxb := le_constantMax env hr hb
    refine ⟨_, rfl, ?_, ?_, trivial, trivial⟩
    · show (g.constantAbsMin left).tdiv (g.constantAbsMax right) ≤ a.tdiv b
      rw [habsa.1, habsb.2, Int.tdiv_eq_ediv_of_nonneg hlowa, Int.tdiv_eq_ediv_of_nonneg (by omega),
        Int.le_ediv_iff_mul_le (by omega)]
      have hdiv := Int.ediv_mul_le (g.constantMin left).constantValue
        (b := (g.constantMax right).constantValue) (by omega)
      nlinarith
    · show a.tdiv b ≤ (g.constantAbsMax left).tdiv (g.constantAbsMin right)
      rw [habsa.2, habsb.1, Int.tdiv_eq_ediv_of_nonneg (by omega),
        Int.tdiv_eq_ediv_of_nonneg (by omega), Int.le_ediv_iff_mul_le (by omega)]
      have hdiv := Int.ediv_mul_le a (b := b) (by omega)
      nlinarith
  · exact ⟨_, rfl, trivial, trivial, trivial, trivial⟩

end Operands

variable {x : ℤ}

lemma fits_bitSize {r : Range} (hs : r.SmiSymbols env.toValuation)
    (hx : r.Contains env.value x) : Fits (g.bitSize r) x := by
  have hmin := fits_bitLength (isInt64_constantValue (g.constantMin r))
  have hmax := fits_bitLength (isInt64_constantValue (g.constantMax r))
  have hlow := hmin.mono (le_max_left _ _ : _ ≤ g.bitSize r)
  have hhigh := hmax.mono (le_max_right _ _ : _ ≤ g.bitSize r)
  exact ⟨hlow.1.trans (constantMin_le env hs hx), (le_constantMax env hs hx).trans_lt hhigh.2⟩

variable {left right : Range} {a b : ℤ}

section

variable (hl : left.SmiSymbols env.toValuation) (hr : right.SmiSymbols env.toValuation)
  (ha : left.Contains env.value a)

include hl hr ha

/-- The result of a bitwise operation that keeps the width and the absence of a sign. -/
lemma encloses_bitwiseOp (hb : right.Contains env.value b)
    (hwidth : ∀ n, Fits n a → Fits n b → Fits n x) (hsign : 0 ≤ a → 0 ≤ b → 0 ≤ x) :
    Encloses env.toValuation (g.bitwiseOp left right) x := by
  have hfits := hwidth (max (g.bitSize left) (g.bitSize right))
    ((fits_bitSize env hl ha).mono (le_max_left _ _))
    ((fits_bitSize env hr hb).mono (le_max_right _ _))
  unfold bitwiseOp
  constructor
  · simp only
    split_ifs with hpos
    · obtain ⟨hposa, hposb⟩ := and_eq_true_iff.mp hpos
      have hlowa := le_constantMin_of_onlyGreaterThanOrEqualTo isInt64_zero hposa
      have hlowb := le_constantMin_of_onlyGreaterThanOrEqualTo isInt64_zero hposb
      exact hsign (hlowa.trans (constantMin_le env hl ha)) (hlowb.trans (constantMin_le env hr hb))
    · exact hfits.1
  · exact le_sub_one_of_lt hfits.2
  · simp only
    split_ifs <;> trivial
  · trivial

omit hl hr ha in
lemma above_constantMax {r : Range} (h : x ≤ (g.constantMax r).constantValue) :
    (g.constantMax r).Above env.value x ∧ (g.constantMax r).SmiSymbol env.toValuation := by
  have hconst : g.constantMax r = .constant (g.constantMax r).constantValue _ :=
    (isUpper_upperBound r.max).clamp .int64
  rw [hconst]
  exact ⟨h, trivial⟩

lemma encloses_and (hb : right.Contains env.value b) :
    Encloses env.toValuation (g.and left right) (a.land b) := by
  unfold and
  split_ifs with hright hleft
  · have hmask := land_nonneg_le a (le_trans hright (constantMin_le env hr hb))
    have hmax := above_constantMax env (hmask.2.trans (le_constantMax env hr hb))
    exact ⟨hmask.1, hmax.1, trivial, hmax.2⟩
  · have hmask := land_nonneg_le b (le_trans hleft (constantMin_le env hl ha))
    rw [TwosComplement.land_comm b a] at hmask
    have hmax := above_constantMax env (hmask.2.trans (le_constantMax env hl ha))
    exact ⟨hmask.1, hmax.1, trivial, hmax.2⟩
  · exact encloses_bitwiseOp env hl hr ha hb (fun _ => Fits.land)
      (fun _ hb => (land_nonneg_le a hb).1)

end

lemma binaryOp_of_bounds {op : Token} {leftDefn : Option ℕ}
    (h : g.binaryOpBounds op left right leftDefn = some p) :
    g.binaryOp op left right leftDefn = some (Range.ofBounds p.1 p.2) := by
  unfold binaryOp
  rw [h]
  rfl

lemma encloses_binaryOp {op : Token} (hop : op.isShift = false)
    {leftDefn : Option ℕ} (hl : left.SmiSymbols env.toValuation)
    (hr : right.SmiSymbols env.toValuation) (ha : left.Contains env.value a)
    (hb : right.Contains env.value b) (hdefn : ∀ d ∈ leftDefn, env.executed d ∧ env.value d = a)
    (hx : op.exact a b = some x) :
    ∃ p, g.binaryOpBounds op left right leftDefn = some p ∧ Encloses env.toValuation p x := by
  cases op with
  | add =>
    cases hx
    exact ⟨_, rfl, encloses_add env hl hr ha hb hdefn⟩
  | sub =>
    cases hx
    exact ⟨_, rfl, encloses_sub env hl hr ha hb hdefn⟩
  | mul =>
    cases hx
    exact ⟨_, rfl, encloses_mul env hl hr ha hb⟩
  | truncDiv =>
    simp only [Token.exact] at hx
    split_ifs at hx
    cases hx
    exact encloses_truncDiv env hl hr ha hb
  | mod => exact ⟨_, rfl, trivial, trivial, trivial, trivial⟩
  | shl => cases hop
  | shr => cases hop
  | bitAnd =>
    cases hx
    exact ⟨_, rfl, encloses_and env hl hr ha hb⟩
  | bitOr =>
    cases hx
    exact ⟨_, rfl, encloses_bitwiseOp env hl hr ha hb (fun _ => Fits.lor) lor_nonneg⟩
  | bitXor =>
    cases hx
    exact ⟨_, rfl, encloses_bitwiseOp env hl hr ha hb (fun _ => Fits.xor) xor_nonneg⟩

/-- For every operator that is not a shift, the wrapped result lies in the inferred range; where the
helper reports no overflow, the exact result is representable. -/
theorem binaryOp_sound (op : Token) (hop : op.isShift = false) (left right : Range)
    (leftDefn : Option ℕ) (a b x : ℤ) (hl : left.SmiSymbols env.toValuation)
    (hr : right.SmiSymbols env.toValuation) (ha : left.Contains env.value a)
    (hb : right.Contains env.value b) (hdefn : ∀ d ∈ leftDefn, env.executed d ∧ env.value d = a)
    (hx : op.exact a b = some x) :
    (∃ r, g.binaryOp op left right leftDefn = some r ∧ r.Contains env.value (wrap 63 x)) ∧
      ∀ (instr : BinaryIntegerOp) (range result : Option Range),
        instr.opKind = op → env.executed instr.left → env.value instr.left = a →
        instr.isTruncating = false →
        g.inferRangeHelper instr (some left) (some right) range = some (result, false) →
          instr.cls.rangeSize.min ≤ x ∧ x ≤ instr.cls.rangeSize.max := by
  constructor
  · obtain ⟨p, hp, henc⟩ := encloses_binaryOp env hop hl hr ha hb hdefn hx
    exact ⟨_, binaryOp_of_bounds hp, henc.contains⟩
  · intro instr range result hkind hex hinstr htrunc hhelper
    have hleft : ∀ d ∈ some instr.left, env.executed d ∧ env.value d = a := by
      intro d hd
      rw [← Option.some.inj hd]
      exact ⟨hex, hinstr⟩
    obtain ⟨p, hp, henc⟩ := encloses_binaryOp env hop hl hr ha hb hleft hx
    simp only [inferRangeHelper] at hhelper
    rw [hkind, binaryOp_of_bounds hp] at hhelper
    have hfit : g.fits (ofBounds p.1 p.2) instr.cls.rangeSize = true := by
      have hoverflow := congrArg Prod.snd (Option.some.inj hhelper)
      simpa [htrunc] using hoverflow
    exact fits_ofBounds_sound env henc (instr.rangeSize_ne_int64 htrunc) hfit

end FlowGraph

/-- The length of an array and, as every other definition, the index one past it. -/
def lengthGraph : FlowGraph where
  definition d :=
    if d = 0 then ⟨.loadField true, none, 0⟩
    else ⟨.other, some ⟨.symbol 0 1 rfl, .symbol 0 1 rfl, rfl, rfl⟩, 0⟩
  cseEqual _ _ := false
  dominates _ _ := true
  constraint_lt d value h := by
    split_ifs at h
  binarySmiOp_lt d op left right isTruncating h := by
    split_ifs at h
  min_lt d r h s o ho hmin := by
    split_ifs at h with hd
    rw [← Option.some.inj h] at hmin
    cases hmin
    exact Nat.pos_of_ne_zero hd
  max_lt d r h s o ho hmax := by
    split_ifs at h with hd
    rw [← Option.some.inj h] at hmax
    cases hmax
    exact Nat.pos_of_ne_zero hd

/-- An array of ten elements. -/
def lengthEnvironment : Environment lengthGraph where
  value d := if d = 0 then 10 else 11
  executed _ := True
  constant_value d c h hkind := by
    dsimp only [lengthGraph] at hkind
    split_ifs at hkind
  arrayLength_smi d _ _ := by
    split_ifs <;> exact ⟨by decide, by decide⟩
  range_correct d r _ h := by
    dsimp only [lengthGraph] at h
    split_ifs at h with hd
    rw [← Option.some.inj h]
    simp only [if_neg hd]
    exact ⟨le_refl (11 : ℤ), le_refl (11 : ℤ)⟩
  range_symbols d r _ h := by
    dsimp only [lengthGraph] at h
    split_ifs at h with hd
    rw [← Option.some.inj h]
    exact ⟨⟨trivial, by decide, by decide⟩, ⟨trivial, by decide, by decide⟩⟩

/-- Two added to the index one past an array. -/
theorem binaryOp_sound_past_length :
    (∃ r, lengthGraph.binaryOp .add ⟨.symbol 0 1 rfl, .symbol 0 1 rfl, rfl, rfl⟩
        ⟨.constant 2 (by decide), .constant 2 (by decide), rfl, rfl⟩ (some 1) = some r ∧
      r.Contains lengthEnvironment.value (wrap 63 13)) ∧
    ∀ (instr : BinaryIntegerOp) (range result : Option Range),
      instr.opKind = .add → True → lengthEnvironment.value instr.left = 11 →
      instr.isTruncating = false →
      lengthGraph.inferRangeHelper instr
          (some ⟨.symbol 0 1 rfl, .symbol 0 1 rfl, rfl, rfl⟩)
          (some ⟨.constant 2 (by decide), .constant 2 (by decide), rfl, rfl⟩) range =
        some (result, false) → instr.cls.rangeSize.min ≤ 13 ∧ 13 ≤ instr.cls.rangeSize.max :=
  FlowGraph.binaryOp_sound lengthEnvironment .add rfl _ _ (some 1) 11 2 13
    ⟨⟨trivial, by decide, by decide⟩, ⟨trivial, by decide, by decide⟩⟩ ⟨trivial, trivial⟩
    ⟨le_refl (11 : ℤ), le_refl (11 : ℤ)⟩ ⟨le_refl (2 : ℤ), le_refl (2 : ℤ)⟩
    (by intro d hd; rw [← Option.some.inj hd]; exact ⟨trivial, rfl⟩) rfl

end DartSdk.RangeAnalysis
