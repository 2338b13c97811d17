import DartSdk.PlatformUtils

/-!
Range boundaries of the optimizing compiler (`range_analysis.h`, `range_analysis.cc`): a boundary is
an infinity, a constant of type `int64_t`, or a definition plus an offset that cannot make the sum
leave 64 bits. A definition carries its own range, whose boundaries may again name definitions;
following them gives the constant bounds of a boundary. `Range::BinaryOp` has one function for each
operator. A C++ shift by 64 or more uses the count modulo 64, and a C++ division by zero traps.
-/

namespace DartSdk.RangeAnalysis

section

open PlatformUtils Nat

inductive RangeSize where
  | smi
  | int32
  | int64
  deriving DecidableEq, Repr

def RangeSize.min : RangeSize → ℤ
  | .smi => smiMin
  | .int32 => minInt32
  | .int64 => minInt64

def RangeSize.max : RangeSize → ℤ
  | .smi => smiMax
  | .int32 => maxInt32
  | .int64 => maxInt64

/-- Avoid creating symbolic range boundaries which can wrap around. -/
def isValidOffsetForSymbolicRangeBoundary (offset : ℤ) : Bool :=
  !(decide (offset > maxInt64 - smiMax) || decide (offset < minInt64 - smiMin))

abbrev ValidOffset (offset : ℤ) : Prop := isValidOffsetForSymbolicRangeBoundary offset = true

variable {offset : ℤ}

lemma validOffset_iff : ValidOffset offset ↔ -2 ^ 62 ≤ offset ∧ offset ≤ 2 ^ 62 := by
  simp only [ValidOffset, isValidOffsetForSymbolicRangeBoundary, Bool.not_eq_true',
    Bool.or_eq_false_iff, decide_eq_false_iff_not]
  unfold maxInt64 smiMax minInt64 smiMin
  omega

lemma isInt64_add_offset {v : ℤ} (hv : IsSmi v) (ho : ValidOffset offset) :
    IsInt64 (v + offset) := by
  rw [validOffset_iff] at ho
  unfold IsSmi smiMin smiMax at hv
  unfold IsInt64 minInt64 maxInt64
  omega

lemma isInt64_of_validOffset (ho : ValidOffset offset) : IsInt64 offset := by
  rw [validOffset_iff] at ho
  unfold IsInt64 minInt64 maxInt64
  omega

inductive RangeBoundary where
  | negativeInfinity
  | positiveInfinity
  | symbol (defn : ℕ) (offset : ℤ) (valid : ValidOffset offset)
  | constant (value : ℤ) (int64 : IsInt64 value)
  deriving DecidableEq

namespace RangeBoundary

def isInfinity : RangeBoundary → Bool
  | negativeInfinity => true
  | positiveInfinity => true
  | _ => false

/-- The value of a constant; the source asserts that there is one. -/
def constantValue : RangeBoundary → ℤ
  | constant c _ => c
  | _ => 0

lemma isInt64_constantValue (b : RangeBoundary) : IsInt64 b.constantValue := by
  cases b with
  | constant c h => exact h
  | _ => exact ⟨Int.neg_nonpos_of_nonneg (by norm_num), Int.sub_nonneg_of_le (by norm_num)⟩

lemma RangeSize.isInt64_min (size : RangeSize) : IsInt64 size.min := by
  cases size <;> exact ⟨by decide, by decide⟩

lemma RangeSize.isInt64_max (size : RangeSize) : IsInt64 size.max := by
  cases size <;> exact ⟨by decide, by decide⟩

lemma RangeSize.min_le_max (size : RangeSize) : size.min ≤ size.max := by
  cases size <;> decide

def minConstant (size : RangeSize) : RangeBoundary := constant size.min (RangeSize.isInt64_min size)

def maxConstant (size : RangeSize) : RangeBoundary := constant size.max (RangeSize.isInt64_max size)

/-- Infinities become the extreme constants of the size; a symbolic boundary is not clamped. -/
def clamp (size : RangeSize) : RangeBoundary → RangeBoundary
  | negativeInfinity => minConstant size
  | positiveInfinity => maxConstant size
  | constant c h =>
    if c ≤ size.min then minConstant size
    else if c ≥ size.max then maxConstant size
    else constant c h
  | symbol s o h => symbol s o h

lemma clamp_constant (size : RangeSize) (c : ℤ) (h : IsInt64 c) :
    (constant c h).clamp size =
      if c ≤ size.min then minConstant size
      else if c ≥ size.max then maxConstant size else constant c h :=
  rfl

/-- The boundary is changed by clamping. The source asserts that it is a constant or infinite. -/
def isConstant : RangeBoundary → Bool
  | constant _ _ => true
  | _ => false

def overflowed (size : RangeSize) (b : RangeBoundary) : Bool := !decide (b = clamp size b)

def add (a b overflow : RangeBoundary) : RangeBoundary :=
  match a, b with
  | constant x hx, constant y _ =>
    if h : willAddOverflow x y = false then
      constant (x + y) (isInt64_add_of_not_willAddOverflow hx h)
    else overflow
  | _, _ => overflow

def sub (a b overflow : RangeBoundary) : RangeBoundary :=
  match a, b with
  | constant x hx, constant y _ =>
    if h : willSubOverflow x y = false then
      constant (x - y) (isInt64_sub_of_not_willSubOverflow hx h)
    else overflow
  | _, _ => overflow

end RangeBoundary

/-- A known range. The source replaces a range with an infinite boundary by the full one. -/
structure Range where
  min : RangeBoundary
  max : RangeBoundary
  min_finite : min.isInfinity = false
  max_finite : max.isInfinity = false
  deriving DecidableEq

namespace Range

def full (size : RangeSize) : Range :=
  ⟨.minConstant size, .maxConstant size, rfl, rfl⟩

/-- Value can wrap around, so an infinite boundary falls back to the full 64-bit range. -/
def ofBounds (min max : RangeBoundary) : Range :=
  if h : min.isInfinity = false ∧ max.isInfinity = false then ⟨min, max, h.1, h.2⟩
  else full .int64

def setMin (r : Range) (value : RangeBoundary) : Range :=
  if h : value.isInfinity = false then ⟨value, r.max, h, r.max_finite⟩ else full .int64

def setMax (r : Range) (value : RangeBoundary) : Range :=
  if h : value.isInfinity = false then ⟨r.min, value, r.min_finite, h⟩ else full .int64

lemma isInfinity_clamp (size : RangeSize) (b : RangeBoundary) :
    (b.clamp size).isInfinity = false := by
  cases b with
  | constant c h =>
    rw [RangeBoundary.clamp_constant]
    split_ifs <;> rfl
  | _ => rfl

def clamp (size : RangeSize) (r : Range) : Range :=
  ⟨r.min.clamp size, r.max.clamp size, isInfinity_clamp size r.min, isInfinity_clamp size r.max⟩

end Range

inductive Token where
  | add
  | sub
  | mul
  | truncDiv
  | mod
  | shl
  | shr
  | bitAnd
  | bitOr
  | bitXor
  deriving DecidableEq, Repr

/-- What range analysis looks at in the instruction of a definition. -/
inductive DefinitionKind where
  | constant (value : ℤ) (smi : IsSmi value)
  | constraint (value : ℕ)
  | binarySmiOp (op : Token) (left right : ℕ) (isTruncating : Bool)
  | loadField (isImmutableLengthLoad : Bool)
  | other

structure Definition where
  kind : DefinitionKind
  range : Option Range
  block : ℕ

/-- Definitions are numbered so that each dominates its direct users, phis apart; no range depends
on its own definition. -/
structure FlowGraph where
  definition : ℕ → Definition
  /-- Both allow common subexpression elimination and are equal instructions. -/
  cseEqual : ℕ → ℕ → Bool
  dominates : ℕ → ℕ → Bool
  constraint_lt : ∀ d value, (definition d).kind = .constraint value → value < d
  binarySmiOp_lt : ∀ d op left right isTruncating,
    (definition d).kind = .binarySmiOp op left right isTruncating → left < d ∧ right < d
  min_lt : ∀ d r, (definition d).range = some r → ∀ s o h, r.min = .symbol s o h → s < d
  max_lt : ∀ d r, (definition d).range = some r → ∀ s o h, r.max = .symbol s o h → s < d

namespace FlowGraph

variable (g : FlowGraph)

/-- Follow constraints to the constrained definition. -/
def unwrapConstraint (d : ℕ) : ℕ :=
  match h : (g.definition d).kind with
  | .constraint value =>
    have := g.constraint_lt d value h
    unwrapConstraint value
  | _ => d
termination_by d

/-- The definition is, up to constraints, the length of an array that never changes. -/
def isArrayLength (d : ℕ) : Bool :=
  match (g.definition (g.unwrapConstraint d)).kind with
  | .loadField isImmutableLengthLoad => isImmutableLengthLoad
  | _ => false

/-- A definition of a small constant gives a constant boundary. -/
def fromDefinition (d : ℕ) (offs : ℤ) (h : ValidOffset offs) : RangeBoundary :=
  match (g.definition d).kind with
  | .constant c hc => .constant (c + offs) (isInt64_add_offset hc h)
  | _ => .symbol d offs h

end FlowGraph

/-- The definitions below a boundary. -/
def RangeBoundary.rank : RangeBoundary → ℕ
  | symbol s _ _ => s + 1
  | _ => 0

lemma FlowGraph.rank_min_lt (g : FlowGraph) {s : ℕ} {r : Range}
    (h : (g.definition s).range = some r) : r.min.rank < s + 1 := by
  have hlt := g.min_lt s r h
  cases hmin : r.min with
  | symbol t o ho => exact succ_lt_succ (hlt t o ho hmin)
  | _ => exact succ_pos s

lemma FlowGraph.rank_max_lt (g : FlowGraph) {s : ℕ} {r : Range}
    (h : (g.definition s).range = some r) : r.max.rank < s + 1 := by
  have hlt := g.max_lt s r h
  cases hmax : r.max with
  | symbol t o ho => exact succ_lt_succ (hlt t o ho hmax)
  | _ => exact succ_pos s

namespace FlowGraph

variable (g : FlowGraph)

def lowerBound : RangeBoundary → RangeBoundary
  | .negativeInfinity => .negativeInfinity
  | .positiveInfinity => .negativeInfinity
  | .constant c h => .constant c h
  | .symbol s o h =>
    -- `Range::ConstantMinSmi` of the symbol's own range.
    let min := match hr : (g.definition s).range with
      | none => .minConstant .smi
      | some r =>
        have := g.rank_min_lt hr
        (lowerBound r.min).clamp .smi
    RangeBoundary.add min (.constant o (isInt64_of_validOffset h)) .negativeInfinity
termination_by b => b.rank

def upperBound : RangeBoundary → RangeBoundary
  | .negativeInfinity => .positiveInfinity
  | .positiveInfinity => .positiveInfinity
  | .constant c h => .constant c h
  | .symbol s o h =>
    let max := match hr : (g.definition s).range with
      | none => .maxConstant .smi
      | some r =>
        have := g.rank_max_lt hr
        (upperBound r.max).clamp .smi
    RangeBoundary.add max (.constant o (isInt64_of_validOffset h)) .positiveInfinity
termination_by b => b.rank

/-- `LowerBound(size)` and `UpperBound(size)` of the source. -/
def lowerBoundIn (size : RangeSize) (b : RangeBoundary) : ℤ :=
  ((g.lowerBound b).clamp size).constantValue

def upperBoundIn (size : RangeSize) (b : RangeBoundary) : ℤ :=
  ((g.upperBound b).clamp size).constantValue

def constantMin (r : Range) : RangeBoundary := (g.lowerBound r.min).clamp .int64

def constantMax (r : Range) : RangeBoundary := (g.upperBound r.max).clamp .int64

def onlyLessThanOrEqualTo (r : Range) (val : ℤ) : Bool :=
  match g.upperBound r.max with
  | .positiveInfinity => false
  | b => decide (b.constantValue ≤ val)

def onlyGreaterThanOrEqualTo (r : Range) (val : ℤ) : Bool :=
  match g.lowerBound r.min with
  | .negativeInfinity => false
  | b => decide (b.constantValue ≥ val)

def isPositive (r : Range) : Bool := g.onlyGreaterThanOrEqualTo r 0

def fits (r : Range) (size : RangeSize) : Bool :=
  !(g.lowerBound r.min).overflowed size && !(g.upperBound r.max).overflowed size

end FlowGraph

namespace RangeBoundary

/-- The boundary bounds the number from below, for given values of the definitions. -/
def Below (value : ℕ → ℤ) : RangeBoundary → ℤ → Prop
  | negativeInfinity, _ => True
  | positiveInfinity, _ => False
  | symbol s o _, x => value s + o ≤ x
  | constant c _, x => c ≤ x

/-- The boundary bounds the number from above. -/
def Above (value : ℕ → ℤ) : RangeBoundary → ℤ → Prop
  | negativeInfinity, _ => False
  | positiveInfinity, _ => True
  | symbol s o _, x => x ≤ value s + o
  | constant c _, x => x ≤ c

end RangeBoundary

/-- The values of the definitions, and those that have been executed. -/
structure Valuation where
  value : ℕ → ℤ
  executed : ℕ → Prop

/-- The definition has been executed and is a small integer. -/
def Valuation.Known (valuation : Valuation) (d : ℕ) : Prop :=
  valuation.executed d ∧ IsSmi (valuation.value d)

/-- The definition a boundary names has been executed and is a small integer. -/
def RangeBoundary.SmiSymbol (valuation : Valuation) : RangeBoundary → Prop
  | symbol s _ _ => valuation.Known s
  | _ => True

structure Range.Contains (value : ℕ → ℤ) (r : Range) (x : ℤ) : Prop where
  below : r.min.Below value x
  above : r.max.Above value x

structure Range.SmiSymbols (valuation : Valuation) (r : Range) : Prop where
  min : r.min.SmiSymbol valuation
  max : r.max.SmiSymbol valuation

/-- Values for which the range of every executed definition is correct and every definition named in
it is an executed small integer. -/
structure Environment (g : FlowGraph) extends Valuation where
  constant_value : ∀ d c h, (g.definition d).kind = .constant c h → value d = c
  arrayLength_smi : ∀ d, executed d → g.isArrayLength d = true → IsSmi (value d)
  range_correct : ∀ d r, executed d → (g.definition d).range = some r → r.Contains value (value d)
  range_symbols : ∀ d r, executed d → (g.definition d).range = some r → r.SmiSymbols toValuation

variable {size : RangeSize}

namespace RangeBoundary

variable {value : ℕ → ℤ}

variable {b : RangeBoundary} {x y : ℤ}

lemma Below.trans (h : b.Below value x) (hle : x ≤ y) : b.Below value y := by
  cases b with
  | negativeInfinity => trivial
  | positiveInfinity => exact h
  | symbol s o ho => exact le_trans h hle
  | constant c hc => exact le_trans h hle

lemma Above.trans (h : b.Above value y) (hle : x ≤ y) : b.Above value x := by
  cases b with
  | negativeInfinity => exact h
  | positiveInfinity => trivial
  | symbol s o ho => exact le_trans hle h
  | constant c hc => exact le_trans hle h

/-- A boundary without a symbol, as lower bounds are. -/
def IsLower : RangeBoundary → Prop
  | negativeInfinity => True
  | constant _ _ => True
  | _ => False

def IsUpper : RangeBoundary → Prop
  | positiveInfinity => True
  | constant _ _ => True
  | _ => False

lemma IsLower.clamp (h : b.IsLower) (size : RangeSize) :
    b.clamp size = constant (b.clamp size).constantValue (isInt64_constantValue _) := by
  cases b with
  | negativeInfinity => rfl
  | positiveInfinity => cases h
  | symbol s o ho => cases h
  | constant c hc =>
    rw [RangeBoundary.clamp_constant]
    split_ifs <;> rfl

lemma IsUpper.clamp (h : b.IsUpper) (size : RangeSize) :
    b.clamp size = constant (b.clamp size).constantValue (isInt64_constantValue _) := by
  cases b with
  | negativeInfinity => cases h
  | positiveInfinity => rfl
  | symbol s o ho => cases h
  | constant c hc =>
    rw [RangeBoundary.clamp_constant]
    split_ifs <;> rfl

lemma Below.clamp (h : b.Below value x) (hx : size.min ≤ x) : (b.clamp size).Below value x := by
  cases b with
  | negativeInfinity => exact hx
  | positiveInfinity => cases h
  | symbol s o ho => exact h
  | constant c hc =>
    have hcx : c ≤ x := h
    rw [RangeBoundary.clamp_constant]
    split_ifs with hlo hhi
    · exact hx
    · exact le_trans hhi hcx
    · exact hcx

lemma Above.clamp (h : b.Above value x) (hx : x ≤ size.max) : (b.clamp size).Above value x := by
  cases b with
  | negativeInfinity => cases h
  | positiveInfinity => exact hx
  | symbol s o ho => exact h
  | constant c hc =>
    have hcx : x ≤ c := h
    rw [RangeBoundary.clamp_constant]
    split_ifs with hlo hhi
    · exact le_trans hcx hlo
    · exact hx
    · exact hcx

variable {a : RangeBoundary}

lemma Below.add (ha : a.IsLower) (hb : b.IsLower) (hx : a.Below value x) (hy : b.Below value y) :
    (RangeBoundary.add a b negativeInfinity).Below value (x + y) := by
  cases a with
  | negativeInfinity => trivial
  | positiveInfinity => cases ha
  | symbol s o ho => cases ha
  | constant c hc =>
    cases b with
    | negativeInfinity => trivial
    | positiveInfinity => cases hb
    | symbol s o ho => cases hb
    | constant d hd =>
      unfold RangeBoundary.add
      simp only
      split_ifs
      · exact add_le_add hx hy
      · trivial

lemma Above.add (ha : a.IsUpper) (hb : b.IsUpper) (hx : a.Above value x) (hy : b.Above value y) :
    (RangeBoundary.add a b positiveInfinity).Above value (x + y) := by
  cases a with
  | negativeInfinity => cases ha
  | positiveInfinity => trivial
  | symbol s o ho => cases ha
  | constant c hc =>
    cases b with
    | negativeInfinity => cases hb
    | positiveInfinity => trivial
    | symbol s o ho => cases hb
    | constant d hd =>
      unfold RangeBoundary.add
      simp only
      split_ifs
      · exact add_le_add hx hy
      · trivial

lemma Below.sub (ha : a.IsLower) (hb : b.IsUpper) (hx : a.Below value x) (hy : b.Above value y) :
    (RangeBoundary.sub a b negativeInfinity).Below value (x - y) := by
  cases a with
  | negativeInfinity => trivial
  | positiveInfinity => cases ha
  | symbol s o ho => cases ha
  | constant c hc =>
    cases b with
    | negativeInfinity => cases hb
    | positiveInfinity => trivial
    | symbol s o ho => cases hb
    | constant d hd =>
      unfold RangeBoundary.sub
      simp only
      split_ifs
      · exact sub_le_sub hx hy
      · trivial

lemma Above.sub (ha : a.IsUpper) (hb : b.IsLower) (hx : a.Above value x) (hy : b.Below value y) :
    (RangeBoundary.sub a b positiveInfinity).Above value (x - y) := by
  cases a with
  | negativeInfinity => cases ha
  | positiveInfinity => trivial
  | symbol s o ho => cases ha
  | constant c hc =>
    cases b with
    | negativeInfinity => trivial
    | positiveInfinity => cases hb
    | symbol s o ho => cases hb
    | constant d hd =>
      unfold RangeBoundary.sub
      simp only
      split_ifs
      · exact sub_le_sub hx hy
      · trivial

lemma IsLower.add : (RangeBoundary.add a b negativeInfinity).IsLower := by
  unfold RangeBoundary.add
  split
  · split_ifs <;> trivial
  · trivial

lemma IsUpper.add : (RangeBoundary.add a b positiveInfinity).IsUpper := by
  unfold RangeBoundary.add
  split
  · split_ifs <;> trivial
  · trivial

end RangeBoundary

namespace RangeBoundary

/-- The number a finite boundary stands for. -/
def eval (value : ℕ → ℤ) : RangeBoundary → ℤ
  | symbol s o _ => value s + o
  | constant c _ => c
  | _ => 0

lemma below_iff {value : ℕ → ℤ} {b : RangeBoundary} (h : b.isInfinity = false) (x : ℤ) :
    b.Below value x ↔ b.eval value ≤ x := by
  cases b with
  | negativeInfinity => cases h
  | positiveInfinity => cases h
  | symbol s o ho => exact Iff.rfl
  | constant c hc => exact Iff.rfl

lemma above_iff {value : ℕ → ℤ} {b : RangeBoundary} (h : b.isInfinity = false) (x : ℤ) :
    b.Above value x ↔ x ≤ b.eval value := by
  cases b with
  | negativeInfinity => cases h
  | positiveInfinity => cases h
  | symbol s o ho => exact Iff.rfl
  | constant c hc => exact Iff.rfl

end RangeBoundary

lemma Range.contains_iff {value : ℕ → ℤ} {r : Range} {x : ℤ} :
    r.Contains value x ↔ r.min.eval value ≤ x ∧ x ≤ r.max.eval value := by
  rw [← RangeBoundary.below_iff r.min_finite, ← RangeBoundary.above_iff r.max_finite]
  exact ⟨fun h => ⟨h.below, h.above⟩, fun h => ⟨h.1, h.2⟩⟩

namespace FlowGraph

variable {g : FlowGraph}

lemma isLower_lowerBound (b : RangeBoundary) : (g.lowerBound b).IsLower := by
  cases b with
  | symbol s o h =>
    rw [lowerBound]
    exact RangeBoundary.IsLower.add
  | _ => rw [lowerBound]; trivial

lemma isUpper_upperBound (b : RangeBoundary) : (g.upperBound b).IsUpper := by
  cases b with
  | symbol s o h =>
    rw [upperBound]
    exact RangeBoundary.IsUpper.add
  | _ => rw [upperBound]; trivial

variable (env : Environment g)

lemma below_lowerBound (b : RangeBoundary) (hs : b.SmiSymbol env.toValuation) (x : ℤ)
    (hx : b.Below env.value x) : (g.lowerBound b).Below env.value x := by
  -- Induction on the definitions below the boundary.
  induction hn : b.rank using Nat.strong_induction_on generalizing b x with
  | _ n ih =>
    subst hn
    cases b with
    | negativeInfinity =>
      rw [lowerBound]
      trivial
    | positiveInfinity => cases hx
    | constant c h =>
      rw [lowerBound]
      exact hx
    | symbol s o h =>
      obtain ⟨hex, hsmi⟩ : env.Known s := hs
      have hle : env.value s + o ≤ x := hx
      rw [lowerBound]
      refine RangeBoundary.Below.trans (RangeBoundary.Below.add ?_ trivial ?_ (le_refl o)) hle
      · split
        · trivial
        · rw [(isLower_lowerBound _).clamp]
          trivial
      · split
        · exact hsmi.1
        · rename_i r hr
          have hcorrect := (env.range_correct s r hex hr).below
          have hsym := (env.range_symbols s r hex hr).min
          exact (ih _ (g.rank_min_lt hr) r.min hsym _ hcorrect rfl).clamp hsmi.1

lemma above_upperBound (b : RangeBoundary) (hs : b.SmiSymbol env.toValuation) (x : ℤ)
    (hx : b.Above env.value x) : (g.upperBound b).Above env.value x := by
  induction hn : b.rank using Nat.strong_induction_on generalizing b x with
  | _ n ih =>
    subst hn
    cases b with
    | negativeInfinity => cases hx
    | positiveInfinity =>
      rw [upperBound]
      trivial
    | constant c h =>
      rw [upperBound]
      exact hx
    | symbol s o h =>
      obtain ⟨hex, hsmi⟩ : env.Known s := hs
      have hle : x ≤ env.value s + o := hx
      rw [upperBound]
      refine RangeBoundary.Above.trans (RangeBoundary.Above.add ?_ trivial ?_ (le_refl o)) hle
      · split
        · trivial
        · rw [(isUpper_upperBound _).clamp]
          trivial
      · split
        · exact hsmi.2
        · rename_i r hr
          have hcorrect := (env.range_correct s r hex hr).above
          have hsym := (env.range_symbols s r hex hr).max
          exact (ih _ (g.rank_max_lt hr) r.max hsym _ hcorrect rfl).clamp hsmi.2

lemma lowerBoundIn_le {b : RangeBoundary} (hs : b.SmiSymbol env.toValuation) {x : ℤ}
    (hx : b.Below env.value x) (hsize : size.min ≤ x) : g.lowerBoundIn size b ≤ x := by
  have hbelow := (below_lowerBound env b hs x hx).clamp hsize
  rw [(isLower_lowerBound b).clamp size] at hbelow
  exact hbelow

lemma le_upperBoundIn {b : RangeBoundary} (hs : b.SmiSymbol env.toValuation) {x : ℤ}
    (hx : b.Above env.value x) (hsize : x ≤ size.max) : x ≤ g.upperBoundIn size b := by
  have habove := (above_upperBound env b hs x hx).clamp hsize
  rw [(isUpper_upperBound b).clamp size] at habove
  exact habove

end FlowGraph

end

open PlatformUtils SignedWords

lemma isInt64_of_nonneg_le {x y : ℤ} (hx : 0 ≤ x) (hxy : x ≤ y) (hy : y ≤ maxInt64) :
    IsInt64 x := by
  unfold IsInt64 minInt64
  omega

lemma isInt64_two_pow_sub_one {n : ℕ} (h : n ≤ 63) : IsInt64 (2 ^ n - 1) := by
  have hpos : (0 : ℤ) < 2 ^ n := by positivity
  have hle : (2 : ℤ) ^ n ≤ 2 ^ 63 := pow_le_pow_right₀ (by norm_num) h
  unfold IsInt64 minInt64 maxInt64
  omega

lemma isInt64_neg_two_pow {n : ℕ} (h : n ≤ 63) : IsInt64 (-2 ^ n) := by
  have hpos : (0 : ℤ) < 2 ^ n := by positivity
  have hle : (2 : ℤ) ^ n ≤ 2 ^ 63 := pow_le_pow_right₀ (by norm_num) h
  unfold IsInt64 minInt64 maxInt64
  omega

lemma isInt64_zero : IsInt64 0 := ⟨by decide, by decide⟩

lemma isSmi_zero : IsSmi 0 := ⟨by decide, by decide⟩

lemma isSmi_one : IsSmi 1 := ⟨by decide, by decide⟩

/-- The `<<` and `>>` of C++ on `int64_t`, for a count that is not negative. -/
def shiftLeft64 (value count : ℤ) : ℤ := wrap 63 (value * 2 ^ (count.toNat % 64))

def shiftRight64 (value count : ℤ) : ℤ := value / 2 ^ (count.toNat % 64)

lemma isInt64_shiftLeft64 (value count : ℤ) : IsInt64 (shiftLeft64 value count) :=
  isInt64_iff_fits.mpr (fits_wrap 63 _)

lemma isInt64_shiftRight64 {value : ℤ} (h : IsInt64 value) (count : ℤ) :
    IsInt64 (shiftRight64 value count) :=
  isInt64_iff_fits.mpr (fits_ediv (isInt64_iff_fits.mp h) _)

namespace RangeBoundary

def shl (valueBoundary : RangeBoundary) (shiftCount : ℤ) (overflow : RangeBoundary) :
    RangeBoundary :=
  let limit := 64 - shiftCount
  let value := valueBoundary.constantValue
  if value = 0 ∨ shiftCount = 0 ∨ (limit > 0 ∧ isInt limit.toNat value = true) then
    -- Result stays in 64 bit range.
    constant (shiftLeft64 value shiftCount) (isInt64_shiftLeft64 value shiftCount)
  else overflow

def shr (valueBoundary : RangeBoundary) (shiftCount : ℤ) : RangeBoundary :=
  constant (shiftRight64 valueBoundary.constantValue shiftCount)
    (isInt64_shiftRight64 (isInt64_constantValue _) shiftCount)

end RangeBoundary

namespace FlowGraph

variable (g : FlowGraph)

/-- A symbol with a larger offset, when the offset stays valid. -/
def addToSymbol (s : ℕ) (offset c : ℤ) : Option RangeBoundary :=
  if willAddOverflow offset c then none
  else if h : ValidOffset (offset + c) then some (g.fromDefinition s (offset + c) h)
  else none

def symbolicAdd : RangeBoundary → RangeBoundary → Option RangeBoundary
  | .symbol s offset _, .constant c _ => g.addToSymbol s offset c
  | .constant c _, .symbol s offset _ => g.addToSymbol s offset c
  | _, _ => none

def symbolicSub : RangeBoundary → RangeBoundary → Option RangeBoundary
  | .symbol s offset _, .constant c _ =>
    if willSubOverflow offset c then none
    else if h : ValidOffset (offset - c) then some (g.fromDefinition s (offset - c) h)
    else none
  | _, _ => none

/-- An array length on the left stands for itself; any other operand for its boundary. -/
def leftBoundary (leftDefn : Option ℕ) (b : RangeBoundary) : RangeBoundary :=
  match leftDefn with
  | none => b
  | some d => if g.isArrayLength d then g.fromDefinition d 0 (by decide) else b

def add (left right : Range) (leftDefn : Option ℕ) : RangeBoundary × RangeBoundary :=
  ((g.symbolicAdd (g.leftBoundary leftDefn left.min) right.min).getD
      (RangeBoundary.add (g.lowerBound left.min) (g.lowerBound right.min) .negativeInfinity),
    (g.symbolicAdd (g.leftBoundary leftDefn left.max) right.max).getD
      (RangeBoundary.add (g.upperBound right.max) (g.upperBound left.max) .positiveInfinity))

def sub (left right : Range) (leftDefn : Option ℕ) : RangeBoundary × RangeBoundary :=
  ((g.symbolicSub (g.leftBoundary leftDefn left.min) right.max).getD
      (RangeBoundary.sub (g.lowerBound left.min) (g.upperBound right.max) .negativeInfinity),
    (g.symbolicSub (g.leftBoundary leftDefn left.max) right.min).getD
      (RangeBoundary.sub (g.upperBound left.max) (g.lowerBound right.min) .positiveInfinity))

/-- The maximum absolute value included in the range. -/
def constantAbsMax (r : Range) : ℤ :=
  max (absWithSaturation (g.constantMin r).constantValue)
    (absWithSaturation (g.constantMax r).constantValue)

/-- The minimum absolute value included in the range. -/
def constantAbsMin (r : Range) : ℤ :=
  min (absWithSaturation (g.constantMin r).constantValue)
    (absWithSaturation (g.constantMax r).constantValue)

lemma constantAbsMin_nonneg (r : Range) : 0 ≤ g.constantAbsMin r :=
  le_min (absWithSaturation_nonneg _) (absWithSaturation_nonneg _)

lemma constantAbsMin_le_constantAbsMax (r : Range) : g.constantAbsMin r ≤ g.constantAbsMax r :=
  min_le_max

lemma constantAbsMax_nonneg (r : Range) : 0 ≤ g.constantAbsMax r :=
  (g.constantAbsMin_nonneg r).trans (g.constantAbsMin_le_constantAbsMax r)

lemma constantAbsMax_le (r : Range) : g.constantAbsMax r ≤ maxInt64 :=
  max_le (absWithSaturation_le (RangeBoundary.isInt64_constantValue _))
    (absWithSaturation_le (RangeBoundary.isInt64_constantValue _))

def onlyPositiveOrZero (a b : Range) : Bool :=
  g.onlyGreaterThanOrEqualTo a 0 && g.onlyGreaterThanOrEqualTo b 0

def onlyNegativeOrZero (a b : Range) : Bool :=
  g.onlyLessThanOrEqualTo a 0 && g.onlyLessThanOrEqualTo b 0

/-- Product of the largest absolute values stays in 64 bit range. -/
def ProductInRange (left right : Range) : Prop :=
  g.constantAbsMax left ≤ -smiMin ∧ g.constantAbsMax right ≤ -smiMin ∧
    (g.constantAbsMax left = 0 ∨ g.constantAbsMax right ≤ maxInt64 / g.constantAbsMax left)

instance (left right : Range) : Decidable (g.ProductInRange left right) :=
  inferInstanceAs (Decidable (_ ∧ _ ∧ (_ ∨ _)))

variable {g} in
variable {left right : Range}

lemma ProductInRange.le (h : g.ProductInRange left right) :
    g.constantAbsMax left * g.constantAbsMax right ≤ maxInt64 := by
  obtain ⟨-, -, hzero | hdiv⟩ := h
  · rw [hzero, zero_mul]
    decide
  · rcases (g.constantAbsMax_nonneg left).eq_or_lt with hzero | hpos
    · rw [← hzero, zero_mul]
      decide
    · rw [mul_comm]
      exact (Int.le_ediv_iff_mul_le hpos).mp hdiv

variable {g} in
lemma ProductInRange.isInt64_max (h : g.ProductInRange left right) :
    IsInt64 (g.constantAbsMax left * g.constantAbsMax right) :=
  isInt64_of_nonneg_le
    (mul_nonneg (g.constantAbsMax_nonneg left) (g.constantAbsMax_nonneg right)) le_rfl h.le

variable {g} in
lemma ProductInRange.isInt64_neg_max (h : g.ProductInRange left right) :
    IsInt64 (-(g.constantAbsMax left * g.constantAbsMax right)) := by
  have hmax := h.isInt64_max
  have hnn := mul_nonneg (g.constantAbsMax_nonneg left) (g.constantAbsMax_nonneg right)
  unfold IsInt64 minInt64 maxInt64 at *
  omega

variable {g} in
lemma ProductInRange.isInt64_min (h : g.ProductInRange left right) :
    IsInt64 (g.constantAbsMin left * g.constantAbsMin right) :=
  isInt64_of_nonneg_le
    (mul_nonneg (g.constantAbsMin_nonneg left) (g.constantAbsMin_nonneg right))
    (mul_le_mul (g.constantAbsMin_le_constantAbsMax left) (g.constantAbsMin_le_constantAbsMax right)
      (g.constantAbsMin_nonneg right) (g.constantAbsMax_nonneg left)) h.le

def mul (left right : Range) : RangeBoundary × RangeBoundary :=
  let sameSign := g.onlyPositiveOrZero left right || g.onlyNegativeOrZero left right
  if h : g.ProductInRange left right then
    if sameSign then
      -- The result is between the products of the absolute minimums and maximums.
      (.constant (g.constantAbsMin left * g.constantAbsMin right) h.isInt64_min,
        .constant (g.constantAbsMax left * g.constantAbsMax right) h.isInt64_max)
    else
      (.constant (-(g.constantAbsMax left * g.constantAbsMax right)) h.isInt64_neg_max,
        .constant (g.constantAbsMax left * g.constantAbsMax right) h.isInt64_max)
  else if sameSign then (.constant 0 isInt64_zero, .positiveInfinity)
  else (.negativeInfinity, .positiveInfinity)

lemma isInt64_tdiv {x y : ℤ} (hx : 0 ≤ x) (hmax : x ≤ maxInt64) (hy : 0 ≤ y) :
    IsInt64 (x.tdiv y) := by
  rw [Int.tdiv_eq_ediv_of_nonneg hx]
  exact isInt64_of_nonneg_le (Int.ediv_nonneg hx hy) (Int.ediv_le_self y hx) hmax

/-- No result when the C++ division traps, which takes an empty range on the right. -/
def truncDiv (left right : Range) : Option (RangeBoundary × RangeBoundary) :=
  if g.onlyGreaterThanOrEqualTo left 0 && g.onlyGreaterThanOrEqualTo right 1 then
    if g.constantAbsMin right = 0 ∨ g.constantAbsMax right = 0 then none
    else
      some
        (.constant ((g.constantAbsMin left).tdiv (g.constantAbsMax right))
          (isInt64_tdiv (g.constantAbsMin_nonneg left)
            ((g.constantAbsMin_le_constantAbsMax left).trans (g.constantAbsMax_le left))
            (g.constantAbsMax_nonneg right)),
        .constant ((g.constantAbsMax left).tdiv (g.constantAbsMin right))
          (isInt64_tdiv (g.constantAbsMax_nonneg left) (g.constantAbsMax_le left)
            (g.constantAbsMin_nonneg right)))
  else some (.negativeInfinity, .positiveInfinity)

def bitSize (r : Range) : ℕ :=
  max (bitLength (g.constantMin r).constantValue) (bitLength (g.constantMax r).constantValue)

lemma bitSize_le (r : Range) : g.bitSize r ≤ 63 :=
  max_le (bitLength_le (RangeBoundary.isInt64_constantValue _))
    (bitLength_le (RangeBoundary.isInt64_constantValue _))

def bitwiseOp (left right : Range) : RangeBoundary × RangeBoundary :=
  let bitsize := max (g.bitSize left) (g.bitSize right)
  have hle : bitsize ≤ 63 := max_le (g.bitSize_le left) (g.bitSize_le right)
  (if g.isPositive left && g.isPositive right then .constant 0 isInt64_zero
    else .constant (-2 ^ bitsize) (isInt64_neg_two_pow hle),
    .constant (2 ^ bitsize - 1) (isInt64_two_pow_sub_one hle))

def and (left right : Range) : RangeBoundary × RangeBoundary :=
  if (g.constantMin right).constantValue ≥ 0 then (.constant 0 isInt64_zero, g.constantMax right)
  else if (g.constantMin left).constantValue ≥ 0 then (.constant 0 isInt64_zero, g.constantMax left)
  else g.bitwiseOp left right

/-- A negative shift count always deoptimizes (and throws), so the counts start at zero. -/
def maxCount (r : Range) : ℤ := max (g.constantMax r).constantValue 0

def minCount (r : Range) : ℤ := max (g.constantMin r).constantValue 0

def shl (left right : Range) : RangeBoundary × RangeBoundary :=
  let leftMax := g.constantMax left
  let leftMin := g.constantMin left
  (RangeBoundary.shl leftMin (if leftMin.constantValue > 0 then g.minCount right
      else g.maxCount right)
      (if leftMin.constantValue > 0 then .positiveInfinity else .negativeInfinity),
    RangeBoundary.shl leftMax (if leftMax.constantValue > 0 then g.maxCount right
      else g.minCount right)
      (if leftMax.constantValue > 0 then .positiveInfinity else .negativeInfinity))

def shr (left right : Range) : RangeBoundary × RangeBoundary :=
  let leftMax := g.constantMax left
  let leftMin := g.constantMin left
  (RangeBoundary.shr leftMin (if leftMin.constantValue > 0 then g.maxCount right
    else g.minCount right),
    RangeBoundary.shr leftMax (if leftMax.constantValue > 0 then g.minCount right
      else g.maxCount right))

/-- The boundaries before the constructor of the range looks at them. -/
def binaryOpBounds (op : Token) (left right : Range) (leftDefn : Option ℕ) :
    Option (RangeBoundary × RangeBoundary) :=
  match op with
  | .add => some (g.add left right leftDefn)
  | .sub => some (g.sub left right leftDefn)
  | .mul => some (g.mul left right)
  | .truncDiv => g.truncDiv left right
  | .shl => some (g.shl left right)
  | .shr => some (g.shr left right)
  | .bitAnd => some (g.and left right)
  | .bitXor => some (g.bitwiseOp left right)
  | .bitOr => some (g.bitwiseOp left right)
  | .mod => some (.negativeInfinity, .positiveInfinity)

def binaryOp (op : Token) (left right : Range) (leftDefn : Option ℕ) : Option Range :=
  (g.binaryOpBounds op left right leftDefn).map fun p => Range.ofBounds p.1 p.2

end FlowGraph

/-- The classes of instructions whose `InferRange` calls the helper. -/
inductive BinaryIntegerOpClass where
  | binarySmiOp
  | binaryInt32Op
  | binaryInt64Op
  deriving DecidableEq, Repr

/-- The size for the representation of the result: tagged, unboxed 32 bits or unboxed 64 bits. -/
def BinaryIntegerOpClass.rangeSize : BinaryIntegerOpClass → RangeSize
  | .binarySmiOp => .smi
  | .binaryInt32Op => .int32
  | .binaryInt64Op => .int64

/-- A binary operation on integers. The constructor of 64-bit operations marks them truncating. -/
structure BinaryIntegerOp where
  cls : BinaryIntegerOpClass
  opKind : Token
  left : ℕ
  isTruncating : Bool
  canOverflow : Bool
  int64_truncating : cls = .binaryInt64Op → isTruncating = true

lemma BinaryIntegerOp.rangeSize_ne_int64 (instr : BinaryIntegerOp)
    (h : instr.isTruncating = false) : instr.cls.rangeSize ≠ .int64 := by
  intro hsize
  cases hcls : instr.cls with
  | binarySmiOp =>
    rw [hcls] at hsize
    cases hsize
  | binaryInt32Op =>
    rw [hcls] at hsize
    cases hsize
  | binaryInt64Op =>
    rw [instr.int64_truncating hcls] at h
    cases h

/-- The inferred range and the new value of `can_overflow`; unknown operand ranges change neither.
-/
def FlowGraph.inferRangeHelper (g : FlowGraph) (instr : BinaryIntegerOp)
    (leftRange rightRange range : Option Range) : Option (Option Range × Bool) :=
  match leftRange, rightRange with
  | some left, some right =>
    (g.binaryOp instr.opKind left right (some instr.left)).map fun r =>
      (some (r.clamp instr.cls.rangeSize),
        -- Calculate overflowed status before clamping if operation is not truncating.
        if instr.isTruncating then instr.canOverflow else !g.fits r instr.cls.rangeSize)
  | _, _ => some (range, instr.canOverflow)

end DartSdk.RangeAnalysis
