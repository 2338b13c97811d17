import DartSdk.PlatformUtils

/-!
Folding of integer operations on constants (`BinaryIntegerOpInstr::Evaluate`). The operations of
`Integer` compute 64-bit results, on small integers and on others by different code. A truncating
operation then masks the result with as many ones as its representation has bits. For the unsigned
and the 64-bit representation this is the value at run time; small integers and signed 32-bit
integers lose their sign.
-/

namespace DartSdk.ConstantFolding

open PlatformUtils SignedWords Nat Option

inductive Target where
  | bits32
  | bits64
  deriving DecidableEq, Repr

def Target.bitsPerWord : Target → ℕ
  | bits32 => 32
  | bits64 => 64

/-- A word holds a small integer beside its tag. -/
def Target.smiBits (t : Target) : ℕ := t.bitsPerWord - 2

def Target.isSmi (t : Target) (x : ℤ) : Bool :=
  decide (-2 ^ t.smiBits ≤ x) && decide (x < 2 ^ t.smiBits)

inductive Representation where
  | tagged
  | unboxedInt32
  | unboxedUint32
  | unboxedInt64
  deriving DecidableEq, Repr

inductive Operator where
  | add
  | sub
  | mul
  | div
  | truncDiv
  | mod
  | shl
  | shr
  | bitAnd
  | bitOr
  | bitXor
  deriving DecidableEq, Repr

structure BinaryIntegerOp where
  opKind : Operator
  representation : Representation
  isTruncating : Bool

def representationBits (t : Target) : Representation → ℕ
  | .tagged => t.bitsPerWord - 1
  | .unboxedInt32 => 32
  | .unboxedUint32 => 32
  | .unboxedInt64 => 64

/-- All ones, shifted right as an unsigned number and read as a signed one. -/
def representationMask (t : Target) (r : Representation) : ℤ :=
  wrap 63 ((2 ^ 64 - 1) / 2 ^ (64 - representationBits t r))

def isRepresentable (t : Target) (value : ℤ) : Representation → Bool
  | .tagged => t.isSmi value
  | .unboxedInt32 => isInt 32 value
  | .unboxedInt64 => true
  | .unboxedUint32 => decide (0 ≤ value) && decide (value ≤ maxUint32)

/-- The remainder of the C++ division made positive. -/
def positiveRemainder (left right : ℤ) : ℤ :=
  let remainder := left.tmod right
  if remainder < 0 then if right < 0 then remainder - right else remainder + right else remainder

/-- `Integer::ArithmeticOp`; the divisor is not zero. -/
def arithmeticOp (t : Target) (op : Operator) (left right : ℤ) : ℤ :=
  if t.isSmi left && t.isSmi right then
    match op with
    | .add => left + right
    | .sub => left - right
    | .mul => wrap 63 (left * right)
    | .truncDiv => left.tdiv right
    | .mod => positiveRemainder left right
    | _ => 0
  else
    match op with
    | .add => wrap 63 (left + right)
    | .sub => wrap 63 (left - right)
    | .mul => wrap 63 (left * right)
    | .truncDiv =>
      -- Division special case: overflow in int64_t.
      if left = minInt64 ∧ right = -1 then minInt64 else left.tdiv right
    | .mod => if left = minInt64 ∧ right = -1 then 0 else positiveRemainder left right
    | _ => 0

def shiftLeftWithTruncation (a b : ℤ) : ℤ :=
  if b ≥ 64 then 0 else wrap 63 (a * 2 ^ b.toNat)

/-- `Integer::ShiftOp`; the count is not negative. -/
def shiftOp (op : Operator) (a b : ℤ) : ℤ :=
  match op with
  | .shl => shiftLeftWithTruncation a b
  | .shr => a / 2 ^ (min b 63).toNat
  | _ => 0

def bitOp (op : Operator) (a b : ℤ) : ℤ :=
  match op with
  | .bitAnd => a.land b
  | .bitOr => a.lor b
  | .bitXor => a.xor b
  | _ => 0

/-- The result before it is fitted to the representation; none if there is none. -/
def rawResult (t : Target) (op : Operator) (left right : ℤ) : Option ℤ :=
  match op with
  | .truncDiv => if right = 0 then none else some (arithmeticOp t .truncDiv left right)
  | .mod => if right = 0 then none else some (arithmeticOp t .mod left right)
  | .add => some (arithmeticOp t .add left right)
  | .sub => some (arithmeticOp t .sub left right)
  | .mul => some (arithmeticOp t .mul left right)
  | .shl => if right ≥ 0 then some (shiftOp .shl left right) else none
  | .shr => if right ≥ 0 then some (shiftOp .shr left right) else none
  | .bitAnd => some (bitOp .bitAnd left right)
  | .bitOr => some (bitOp .bitOr left right)
  | .bitXor => some (bitOp .bitXor left right)
  | .div => none

/-- `BinaryIntegerOpInstr::Evaluate`. -/
def evaluate (t : Target) (instr : BinaryIntegerOp) (left right : ℤ) : Option ℤ :=
  match rawResult t instr.opKind left right with
  | none => none
  | some result =>
    if instr.isTruncating then some (result.land (representationMask t instr.representation))
    else if isRepresentable t result instr.representation then some result
    else none

inductive UnaryOperator where
  | negate
  | bitNot
  deriving DecidableEq, Repr

def evaluateUnary (t : Target) (op : UnaryOperator) (r : Representation) (value : ℤ) : Option ℤ :=
  let result := match op with
    | .negate => arithmeticOp t .mul value (-1)
    | .bitNot => Int.not value
  if isRepresentable t result r then some result else none

/-- The operation on 64-bit integers; none if it throws or is not on integers. -/
def int64Result (op : Operator) (left right : ℤ) : Option ℤ :=
  match op with
  | .add => some (wrap 63 (left + right))
  | .sub => some (wrap 63 (left - right))
  | .mul => some (wrap 63 (left * right))
  | .div => none
  | .truncDiv => if right = 0 then none else some (wrap 63 (left.tdiv right))
  | .mod => if right = 0 then none else some (left % right)
  | .shl => if right < 0 then none else some (wrap 63 (left * 2 ^ right.toNat))
  | .shr => if right < 0 then none else some (left / 2 ^ right.toNat)
  | .bitAnd => some (left.land right)
  | .bitOr => some (left.lor right)
  | .bitXor => some (left.xor right)

/-- The operation throws: a division by zero or a negative shift. -/
def Throws : Operator → ℤ → Prop
  | .truncDiv, right => right = 0
  | .mod, right => right = 0
  | .shl, right => right < 0
  | .shr, right => right < 0
  | _, _ => False

/-- What a representation keeps of a number. -/
def reduce (t : Target) (x : ℤ) : Representation → ℤ
  | .tagged => wrap t.smiBits x
  | .unboxedInt32 => wrap 31 x
  | .unboxedUint32 => x % 2 ^ 32
  | .unboxedInt64 => wrap 63 x

/-- The value that the instruction produces; one that is not truncating deoptimizes when it does not
fit. -/
def runtimeValue (t : Target) (instr : BinaryIntegerOp) (left right : ℤ) : Option ℤ :=
  match int64Result instr.opKind left right with
  | none => none
  | some result =>
    if instr.isTruncating then some (reduce t result instr.representation)
    else if isRepresentable t result instr.representation then some result
    else none

def unaryInt64Result : UnaryOperator → ℤ → ℤ
  | .negate, value => wrap 63 (-value)
  | .bitNot, value => -value - 1

lemma isSmi_iff_fits {t : Target} {x : ℤ} : t.isSmi x = true ↔ Fits t.smiBits x := by
  unfold Target.isSmi Fits
  rw [Bool.and_eq_true, decide_eq_true_eq, decide_eq_true_eq]

lemma Target.smiBits_le (t : Target) : t.smiBits ≤ 62 := by
  cases t <;> decide

variable {right : ℤ}

lemma positiveRemainder_eq (left : ℤ) (h : right ≠ 0) :
    positiveRemainder left right = left % right := by
  have hnn := Int.emod_nonneg left h
  have hlt := Int.emod_lt left h
  have heq := @Int.tmod_eq_emod left right
  unfold positiveRemainder
  dsimp only
  split_ifs at heq ⊢ <;> omega

variable {left : ℤ}

/-- Only the quotient of the smallest number by minus one leaves the word. -/
lemma wrap_tdiv (hl : Fits 63 left) (hne : ¬ (left = minInt64 ∧ right = -1)) :
    wrap 63 (left.tdiv right) = left.tdiv right := by
  apply wrap_of_fits
  have habs := Int.natAbs_tdiv_le_natAbs left right
  unfold Fits minInt64 at *
  by_cases hmin : left = -2 ^ 63
  · -- The quotient has the size of the dividend only for a divisor of size one.
    by_contra hout
    have hq : left.tdiv right = 2 ^ 63 := by omega
    have hsize := Int.natAbs_tdiv left right
    have hr : right = 1 ∨ right = -1 := by
      rw [hq, hmin] at hsize
      have hdiv : (2 ^ 63 : ℕ) = 2 ^ 63 / right.natAbs := hsize
      have hone : right.natAbs = 1 := by
        by_contra hother
        rcases lt_or_ge right.natAbs 2 with hsmall | hlarge
        · have hzero : right.natAbs = 0 := by omega
          rw [hzero, Nat.div_zero] at hdiv
          omega
        · have hlt := Nat.div_lt_self (Nat.two_pow_pos 63) hlarge
          omega
      omega
    rcases hr with rfl | rfl
    · rw [Int.tdiv_one] at hq
      omega
    · exact hne ⟨hmin, rfl⟩
  · omega

lemma wrap_tdiv_min : wrap 63 (minInt64.tdiv (-1)) = minInt64 := by
  decide

lemma arithmeticOp_eq (t : Target) (op : Operator) (hl : Fits 63 left)
    (hop : op = .add ∨ op = .sub ∨ op = .mul ∨ (op = .truncDiv ∨ op = .mod) ∧ right ≠ 0) :
    some (arithmeticOp t op left right) = int64Result op left right := by
  have hdivide : left = minInt64 ∧ right = -1 → ¬ (t.isSmi left && t.isSmi right) = true := by
    rintro ⟨rfl, -⟩ hsmi
    have hfits := (isSmi_iff_fits.mp (Bool.and_eq_true_iff.mp hsmi).1).mono t.smiBits_le
    unfold Fits minInt64 at hfits
    omega
  unfold arithmeticOp
  by_cases hsmi : (t.isSmi left && t.isSmi right) = true
  · have hleft := (isSmi_iff_fits.mp (Bool.and_eq_true_iff.mp hsmi).1).mono t.smiBits_le
    have hright := (isSmi_iff_fits.mp (Bool.and_eq_true_iff.mp hsmi).2).mono t.smiBits_le
    rw [if_pos hsmi]
    rcases hop with rfl | rfl | rfl | ⟨rfl | rfl, hne⟩
    · have hfits : Fits 63 (left + right) := by
        unfold Fits at *
        omega
      simp only [int64Result, wrap_of_fits hfits]
    · have hfits : Fits 63 (left - right) := by
        unfold Fits at *
        omega
      simp only [int64Result, wrap_of_fits hfits]
    · rfl
    · simp only [int64Result, if_neg hne, wrap_tdiv hl fun h => hdivide h hsmi]
    · simp only [int64Result, if_neg hne, positiveRemainder_eq left hne]
  · rw [if_neg hsmi]
    rcases hop with rfl | rfl | rfl | ⟨rfl | rfl, hne⟩
    · rfl
    · rfl
    · rfl
    · simp only [int64Result, if_neg hne]
      split_ifs with hmin
      · rw [hmin.1, hmin.2, wrap_tdiv_min]
      · rw [wrap_tdiv hl hmin]
    · simp only [int64Result, if_neg hne]
      split_ifs with hmin
      · rw [hmin.1, hmin.2]
        rfl
      · rw [positiveRemainder_eq left hne]

lemma shiftLeftWithTruncation_eq (a b : ℤ) :
    shiftLeftWithTruncation a b = wrap 63 (a * 2 ^ b.toNat) := by
  unfold shiftLeftWithTruncation
  split_ifs with hwide
  · obtain ⟨k, hk⟩ : ∃ k, b.toNat = k + 64 := ⟨b.toNat - 64, by omega⟩
    symm
    apply @wrap_eq_of_fits _ _ _ (-(a * 2 ^ k)) (by unfold Fits; omega)
    rw [hk, pow_add]
    ring
  · rfl

lemma shiftRight_eq {a : ℤ} (ha : Fits 63 a) (b : ℤ) :
    a / 2 ^ (min b 63).toNat = a / 2 ^ b.toNat := by
  rcases le_total b 63 with h | h
  · rw [min_eq_left h]
  · rw [min_eq_right h, ediv_two_pow_of_fits ha (by decide), ediv_two_pow_of_fits ha (by omega)]

lemma rawResult_eq (t : Target) (op : Operator) (hl : Fits 63 left) :
    rawResult t op left right = int64Result op left right := by
  cases op with
  | add => exact arithmeticOp_eq t .add hl (by simp)
  | sub => exact arithmeticOp_eq t .sub hl (by simp)
  | mul => exact arithmeticOp_eq t .mul hl (by simp)
  | truncDiv =>
    unfold rawResult
    dsimp only
    split_ifs with h
    · simp only [int64Result, if_pos h]
    · exact arithmeticOp_eq t .truncDiv hl (by simp [h])
  | mod =>
    unfold rawResult
    dsimp only
    split_ifs with h
    · simp only [int64Result, if_pos h]
    · exact arithmeticOp_eq t .mod hl (by simp [h])
  | shl =>
    simp only [rawResult, int64Result, shiftOp]
    split_ifs with h h' h'
    · omega
    · rw [shiftLeftWithTruncation_eq left right]
    · rfl
    · omega
  | shr =>
    simp only [rawResult, int64Result, shiftOp]
    split_ifs with h h' h'
    · omega
    · rw [shiftRight_eq hl right]
    · rfl
    · omega
  | div => rfl
  | bitAnd => rfl
  | bitOr => rfl
  | bitXor => rfl

lemma fits_int64Result {op : Operator} {v : ℤ} (hl : Fits 63 left)
    (hr : Fits 63 right) (h : int64Result op left right = some v) : Fits 63 v := by
  unfold int64Result at h
  cases op <;> dsimp only at h
  case add | sub | mul =>
    cases h
    exact fits_wrap 63 _
  case div => cases h
  case truncDiv =>
    split_ifs at h with hzero
    cases h
    exact fits_wrap 63 _
  case mod =>
    split_ifs at h with hzero
    cases h
    have hnn := Int.emod_nonneg left hzero
    have hlt := Int.emod_lt left hzero
    unfold Fits at *
    omega
  case shl =>
    split_ifs at h
    cases h
    exact fits_wrap 63 _
  case shr =>
    split_ifs at h
    cases h
    exact fits_ediv hl _
  case bitAnd =>
    cases h
    exact hl.land hr
  case bitOr =>
    cases h
    exact hl.lor hr
  case bitXor =>
    cases h
    exact hl.xor hr

lemma int64Result_of_throws {op : Operator} (h : Throws op right) :
    int64Result op left right = none := by
  cases op <;> first | exact absurd h id | exact if_pos h

lemma wrap_nonneg_iff (n : ℕ) (x : ℤ) : 0 ≤ wrap n x ↔ x % 2 ^ (n + 1) = wrap n x := by
  have hpos : (0 : ℤ) < 2 ^ (n + 1) := by positivity
  have hnn := Int.emod_nonneg x hpos.ne'
  constructor
  · intro h
    have hlt : wrap n x < 2 ^ (n + 1) := by
      have hfits := (fits_wrap n x).2
      omega
    obtain ⟨k, hk⟩ := exists_wrap_eq n x
    rw [← Int.emod_eq_of_lt h hlt, hk, Int.add_mul_emod_self_right]
  · intro h
    rwa [← h]

lemma land_mask (x : ℤ) (n : ℕ) : x.land (2 ^ n - 1) = x % 2 ^ n := by
  have h := TwosComplement.land_two_pow_sub_one x n
  rw [Nat.cast_sub Nat.one_le_two_pow] at h
  exact h

lemma land_neg_one (x : ℤ) : x.land (-1) = x := by
  cases x with
  | ofNat a =>
    refine congrArg Int.ofNat (eq_of_testBit_eq fun i => ?_)
    rw [testBit_ldiff, zero_testBit, Bool.not_false, Bool.and_true]
  | negSucc a => exact congrArg Int.negSucc (or_zero a)

/-- The representation has a sign and drops bits of a 64-bit number. -/
def Representation.IsNarrowSigned : Representation → Prop
  | .tagged => True
  | .unboxedInt32 => True
  | .unboxedUint32 => False
  | .unboxedInt64 => False

instance : DecidablePred Representation.IsNarrowSigned := fun r => by
  cases r <;> unfold Representation.IsNarrowSigned <;> infer_instance

section

variable (t : Target)

lemma representationMask_tagged : representationMask t .tagged = 2 ^ (t.smiBits + 1) - 1 := by
  cases t <;> decide

lemma representationMask_int64 : representationMask t .unboxedInt64 = -1 := by
  cases t <;> decide

lemma representationMask_int32 : representationMask t .unboxedInt32 = 2 ^ (31 + 1) - 1 := by
  cases t <;> decide

lemma representationMask_uint32 : representationMask t .unboxedUint32 = 2 ^ 32 - 1 := by
  cases t <;> decide

lemma isRepresentable_reduce (x : ℤ) (r : Representation) :
    isRepresentable t (reduce t x r) r = true := by
  cases r with
  | tagged => exact isSmi_iff_fits.mpr (fits_wrap _ x)
  | unboxedInt32 =>
    have h := fits_wrap 31 x
    exact Bool.and_eq_true_iff.mpr ⟨decide_eq_true h.1, decide_eq_true h.2⟩
  | unboxedUint32 =>
    have hnn : 0 ≤ x % 2 ^ 32 := by omega
    have hle : x % 2 ^ 32 ≤ maxUint32 := by
      unfold maxUint32
      omega
    exact Bool.and_eq_true_iff.mpr ⟨decide_eq_true hnn, decide_eq_true hle⟩
  | unboxedInt64 => rfl

lemma land_representationMask_iff {x : ℤ} (hx : Fits 63 x) (r : Representation) :
    x.land (representationMask t r) = reduce t x r ↔ (r.IsNarrowSigned → 0 ≤ reduce t x r) := by
  cases r with
  | tagged =>
    rw [representationMask_tagged, land_mask]
    exact (wrap_nonneg_iff t.smiBits x).symm.trans (true_imp_iff).symm
  | unboxedInt32 =>
    rw [representationMask_int32, land_mask]
    exact (wrap_nonneg_iff 31 x).symm.trans (true_imp_iff).symm
  | unboxedUint32 =>
    rw [representationMask_uint32, land_mask]
    exact iff_of_true rfl False.elim
  | unboxedInt64 =>
    rw [representationMask_int64, land_neg_one]
    exact iff_of_true (wrap_of_fits hx).symm False.elim

end

/-- A truncating operation on small or signed 32-bit integers has a result that is not negative. -/
def LosesNoSign (t : Target) (instr : BinaryIntegerOp) (left right : ℤ) : Prop :=
  instr.isTruncating = true → instr.representation.IsNarrowSigned →
    ∀ v, int64Result instr.opKind left right = some v → 0 ≤ reduce t v instr.representation

/-- What folding returns is representable and the value at run time; it returns nothing where the
operation throws. -/
def FoldingMatches (t : Target) (instr : BinaryIntegerOp) (left right : ℤ) : Prop :=
  (∀ v, evaluate t instr left right = some v →
    isRepresentable t v instr.representation = true ∧
      runtimeValue t instr left right = some v) ∧
  (Throws instr.opKind right → evaluate t instr left right = none)

lemma evaluate_of_no_result {t : Target} {instr : BinaryIntegerOp}
    (hl : Fits 63 left) (h : int64Result instr.opKind left right = none) :
    evaluate t instr left right = none := by
  unfold evaluate
  rw [rawResult_eq t instr.opKind hl, h]

theorem foldingMatches_iff (t : Target) (instr : BinaryIntegerOp) (left right : ℤ)
    (hl : IsInt64 left) (hr : IsInt64 right) :
    FoldingMatches t instr left right ↔ LosesNoSign t instr left right := by
  have hl := isInt64_iff_fits.mp hl
  have hr := isInt64_iff_fits.mp hr
  have hthrows : Throws instr.opKind right → evaluate t instr left right = none := fun h =>
    evaluate_of_no_result hl (int64Result_of_throws h)
  cases hres : int64Result instr.opKind left right with
  | none =>
    -- Nothing is folded, and there is no sign to lose.
    refine iff_of_true ⟨fun v hv => ?_, hthrows⟩ fun _ _ v hv => ?_
    · rw [evaluate_of_no_result hl hres] at hv
      cases hv
    · rw [hres] at hv
      cases hv
  | some v =>
    have hmask := land_representationMask_iff t (fits_int64Result hl hr hres) instr.representation
    have hev := evaluate.eq_def t instr left right
    have hrun := runtimeValue.eq_def t instr left right
    rw [rawResult_eq t instr.opKind hl, hres] at hev
    rw [hres] at hrun
    cases htrunc : instr.isTruncating with
    | false =>
      rw [htrunc] at hev hrun
      simp only [Bool.false_eq_true, if_false] at hev hrun
      refine iff_of_true ⟨fun w hw => ?_, hthrows⟩ fun h => ?_
      · rw [hev] at hw
        split_ifs at hw with hrep
        obtain rfl := Option.some.inj hw
        rw [hrun, if_pos hrep]
        exact ⟨hrep, rfl⟩
      · rw [htrunc] at h
        cases h
    | true =>
      rw [htrunc] at hev hrun
      simp only [if_true] at hev hrun
      constructor
      · intro hmatch _ hnarrow w hw
        obtain rfl := Option.some.inj (hres.symm.trans hw)
        have hvalue := (hmatch.1 _ hev).2
        rw [hrun] at hvalue
        exact hmask.mp (Option.some.inj hvalue).symm hnarrow
      · intro hsign
        have heq := hmask.mpr fun hnarrow => hsign htrunc hnarrow v hres
        refine ⟨fun w hw => ?_, hthrows⟩
        rw [hev, heq] at hw
        obtain rfl := Option.some.inj hw
        exact ⟨isRepresentable_reduce t v _, hrun⟩

theorem foldingMatches_two_plus_three : FoldingMatches .bits64 ⟨.add, .tagged, true⟩ 2 3 :=
  (foldingMatches_iff _ _ _ _ (by decide) (by decide)).mpr fun _ _ v hv => by
    obtain rfl := Option.some.inj hv
    decide

/-- A truncating difference of small integers that is negative folds to a large positive number. -/
theorem zero_minus_one_folds_wrong :
    evaluate .bits64 ⟨.sub, .tagged, true⟩ 0 1 = some (2 ^ 63 - 1) ∧
      runtimeValue .bits64 ⟨.sub, .tagged, true⟩ 0 1 = some (-1) ∧
      isRepresentable .bits64 (2 ^ 63 - 1) .tagged = false ∧
      ¬ FoldingMatches .bits64 ⟨.sub, .tagged, true⟩ 0 1 := by
  have hev : evaluate .bits64 ⟨.sub, .tagged, true⟩ 0 1 = some (2 ^ 63 - 1) := by decide +kernel
  refine ⟨hev, by decide +kernel, by decide +kernel, fun h => ?_⟩
  have hrep := (h.1 _ hev).1
  revert hrep
  decide +kernel

lemma not_eq (x : ℤ) : Int.not x = -x - 1 := by
  cases x with
  | ofNat a => simp [Int.not, Int.negSucc_eq]; ring
  | negSucc a => simp [Int.not, Int.negSucc_eq]

lemma evaluateUnary_eq (t : Target) (op : UnaryOperator) (r : Representation) {value : ℤ}
    (h : IsInt64 value) :
    evaluateUnary t op r value =
      if isRepresentable t (unaryInt64Result op value) r then some (unaryInt64Result op value)
      else none := by
  unfold evaluateUnary
  cases op with
  | negate =>
    have hmul : some (arithmeticOp t .mul value (-1)) = some (wrap 63 (value * -1)) :=
      arithmeticOp_eq t .mul (isInt64_iff_fits.mp h) (by simp)
    have hval : arithmeticOp t .mul value (-1) = wrap 63 (-value) := by
      rw [some.inj hmul, mul_neg_one]
    rw [hval]
    rfl
  | bitNot =>
    rw [not_eq]
    rfl

end DartSdk.ConstantFolding
