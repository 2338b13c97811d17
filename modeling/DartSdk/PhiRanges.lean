import DartSdk.RangeSoundness

/-!
The range of a phi (`PhiInstr::InferRange`): the ranges of the inputs are joined one after the
other, and a bound of the join whose symbol does not dominate the phi is replaced by the extreme
small integer. The join contains every input: rewriting a boundary only moves it outwards,
boundaries are compared only once they depend on one symbol or by constant bounds, and a clamped
comparison is enough for values of the size of the phi. Only for 64-bit integers the replacement can
exclude an input. Ranges of constants are joined without regard to what is executed.
-/

namespace DartSdk.RangeAnalysis

section

open PlatformUtils SignedWords Nat

namespace FlowGraph

variable (g : FlowGraph)

def areEqualDefinitions (a b : ℕ) : Bool :=
  decide (g.unwrapConstraint a = g.unwrapConstraint b) ||
    g.cseEqual (g.unwrapConstraint a) (g.unwrapConstraint b)

def dependOnSameSymbol : RangeBoundary → RangeBoundary → Bool
  | .symbol s _ _, .symbol t _ _ => g.areEqualDefinitions s t
  | _, _ => false

def equals : RangeBoundary → RangeBoundary → Bool
  | .constant c _, .constant d _ => decide (c = d)
  | .negativeInfinity, .negativeInfinity => true
  | .positiveInfinity, .positiveInfinity => true
  | .symbol s o ho, .symbol t o' ho' =>
    decide (o = o') && g.dependOnSameSymbol (.symbol s o ho) (.symbol t o' ho')
  | _, _ => false

/-- The value of a definition that is a small constant. -/
def smiConstant (d : ℕ) : Option ℤ :=
  match (g.definition d).kind with
  | .constant c _ => some c
  | _ => none

/-- Follows constraints, additions and subtractions of constants, with the offset unless it
overflows. -/
def canonicalizeSymbol (symbol : ℕ) (offset : ℤ) : Option (ℕ × ℤ) :=
  match h : (g.definition symbol).kind with
  | .constraint value =>
    have := g.constraint_lt symbol value h
    canonicalizeSymbol value offset
  | .binarySmiOp .add left right _ =>
    have := g.binarySmiOp_lt symbol _ left right _ h
    match g.smiConstant right, g.smiConstant left with
    | some rhs, _ =>
      if willAddOverflow offset rhs then none else canonicalizeSymbol left (offset + rhs)
    | none, some rhs =>
      if willAddOverflow offset rhs then none else canonicalizeSymbol right (offset + rhs)
    | none, none => some (symbol, offset)
  | .binarySmiOp .sub left right _ =>
    have := g.binarySmiOp_lt symbol _ left right _ h
    match g.smiConstant right with
    | some rhs =>
      if willSubOverflow offset rhs then none else canonicalizeSymbol left (offset - rhs)
    | none => some (symbol, offset)
  | _ => some (symbol, offset)
termination_by symbol

def canonicalizeBoundary (a overflow : RangeBoundary) : RangeBoundary :=
  match a with
  | .symbol s o _ =>
    match g.canonicalizeSymbol s o with
    | none => overflow
    | some (symbol, offset) =>
      if h : ValidOffset offset then g.fromDefinition symbol offset h else overflow
  | b => b

end FlowGraph

/-- The two ends of a range. -/
inductive Side where
  | min
  | max
  deriving DecidableEq

def Range.bound (r : Range) : Side → RangeBoundary
  | .min => r.min
  | .max => r.max

def Side.infinity : Side → RangeBoundary
  | .min => .negativeInfinity
  | .max => .positiveInfinity

namespace FlowGraph

variable (g : FlowGraph)

/-- `CanonicalizeMinBoundary` and `CanonicalizeMaxBoundary`: replace a symbol by the symbolic bound
of its range. -/
def canonicalizeBound (side : Side) : RangeBoundary → Option RangeBoundary
  | .symbol s o _ =>
    match (g.definition s).range with
    | none => none
    | some r =>
      match r.bound side with
      | .symbol t o' _ =>
        if willAddOverflow o' o then some side.infinity
        else if h : ValidOffset (o' + o) then
          some (g.canonicalizeBoundary (g.fromDefinition t (o' + o) h) side.infinity)
        else some side.infinity
      | _ => none
  | _ => none

lemma canonicalizeSymbol_le {symbol : ℕ} {offset : ℤ} {s : ℕ} {o : ℤ}
    (h : g.canonicalizeSymbol symbol offset = some (s, o)) : s ≤ symbol := by
  induction symbol using Nat.strong_induction_on generalizing offset with
  | _ symbol ih =>
    rw [canonicalizeSymbol] at h
    split at h
    · rename_i value hkind
      have hlt := g.constraint_lt symbol value hkind
      exact (ih value hlt h).trans hlt.le
    · rename_i left right t hkind
      have hlt := g.binarySmiOp_lt symbol _ left right _ hkind
      split at h
      · split_ifs at h
        exact (ih left hlt.1 h).trans hlt.1.le
      · split_ifs at h
        exact (ih right hlt.2 h).trans hlt.2.le
      · cases h
        exact le_rfl
    · rename_i left right t hkind
      have hlt := g.binarySmiOp_lt symbol _ left right _ hkind
      split at h
      · split_ifs at h
        exact (ih left hlt.1 h).trans hlt.1.le
      · cases h
        exact le_rfl
    · cases h
      exact le_rfl

lemma rank_fromDefinition_le (d : ℕ) (o : ℤ) (h : ValidOffset o) :
    (g.fromDefinition d o h).rank ≤ d + 1 := by
  unfold fromDefinition
  split
  · exact zero_le _
  · exact le_rfl

lemma rank_infinity (side : Side) : side.infinity.rank = 0 := by
  cases side <;> rfl

lemma rank_canonicalizeBoundary_le (a : RangeBoundary) (side : Side) :
    (g.canonicalizeBoundary a side.infinity).rank ≤ a.rank := by
  unfold canonicalizeBoundary
  split
  · rename_i s o ho
    split
    · rw [rank_infinity]
      exact zero_le _
    · rename_i symbol offset hcanon
      split_ifs
      · exact (g.rank_fromDefinition_le symbol offset _).trans
          (succ_le_succ (g.canonicalizeSymbol_le hcanon))
      · rw [rank_infinity]
        exact zero_le _
  · exact le_rfl

lemma rank_canonicalizeBound_lt {side : Side} {a a' : RangeBoundary}
    (h : g.canonicalizeBound side a = some a') : a'.rank < a.rank := by
  unfold canonicalizeBound at h
  split at h
  · rename_i s o ho
    split at h
    · cases h
    · rename_i r hr
      have hrank : (r.bound side).rank < s + 1 := by
        cases side with
        | min => exact g.rank_min_lt hr
        | max => exact g.rank_max_lt hr
      split at h
      · rename_i t o' ho' hbound
        rw [hbound] at hrank
        split_ifs at h with hover hok
        · cases h
          rw [rank_infinity]
          exact succ_pos s
        · cases h
          calc _ ≤ (g.fromDefinition t (o' + o) hok).rank :=
                g.rank_canonicalizeBoundary_le _ side
            _ ≤ t + 1 := g.rank_fromDefinition_le t _ _
            _ < s + 1 := hrank
        · cases h
          rw [rank_infinity]
          exact succ_pos s
      · cases h
  · cases h

def canonicalizeLoop (side : Side) (a b : RangeBoundary) : Option (RangeBoundary × RangeBoundary) :=
  if g.dependOnSameSymbol a b then some (a, b)
  else
    match ha : g.canonicalizeBound side a with
    | some a' =>
      have := g.rank_canonicalizeBound_lt ha
      canonicalizeLoop side a' b
    | none =>
      match hb : g.canonicalizeBound side b with
      | some b' =>
        have := g.rank_canonicalizeBound_lt hb
        canonicalizeLoop side a b'
      | none => none
termination_by a.rank + b.rank

/-- Rewrite two symbolic boundaries until they depend on the same symbol; none if they never do. -/
def canonicalizeForComparison (a b : RangeBoundary) (side : Side) :
    Option (RangeBoundary × RangeBoundary) :=
  match a, b with
  | .symbol s o ho, .symbol t o' ho' => g.canonicalizeLoop side (.symbol s o ho) (.symbol t o' ho')
  | _, _ => none

end FlowGraph

def Range.isConstant (r : Range) : Bool := r.min.isConstant && r.max.isConstant

def RangeBoundary.offset : RangeBoundary → ℤ
  | symbol _ o _ => o
  | _ => 0

namespace FlowGraph

variable (g : FlowGraph)

lemma isInt64_lowerBoundIn (size : RangeSize) (b : RangeBoundary) :
    IsInt64 (g.lowerBoundIn size b) :=
  RangeBoundary.isInt64_constantValue _

lemma isInt64_upperBoundIn (size : RangeSize) (b : RangeBoundary) :
    IsInt64 (g.upperBoundIn size b) :=
  RangeBoundary.isInt64_constantValue _

lemma isInt64_min {x y : ℤ} (hx : IsInt64 x) (hy : IsInt64 y) : IsInt64 (min x y) :=
  ⟨le_min hx.1 hy.1, (min_le_left x y).trans hx.2⟩

lemma isInt64_max {x y : ℤ} (hx : IsInt64 x) (hy : IsInt64 y) : IsInt64 (max x y) :=
  ⟨hx.1.trans (le_max_left x y), max_le hx.2 hy.2⟩

def joinMin (a b : RangeBoundary) (size : RangeSize) : RangeBoundary :=
  if g.equals a b then b
  else
    match g.canonicalizeForComparison a b .min with
    | some (a', b') => if a'.offset ≤ b'.offset then a' else b'
    | none =>
      let infA := g.lowerBoundIn size a
      let infB := g.lowerBoundIn size b
      let supA := g.upperBoundIn size a
      let supB := g.upperBoundIn size b
      if decide (supA ≤ infB) && !(g.lowerBound a).overflowed size then a
      else if decide (supB ≤ infA) && !(g.lowerBound b).overflowed size then b
      else .constant (min infA infB)
        (isInt64_min (g.isInt64_lowerBoundIn size a) (g.isInt64_lowerBoundIn size b))

def joinMax (a b : RangeBoundary) (size : RangeSize) : RangeBoundary :=
  if g.equals a b then b
  else
    match g.canonicalizeForComparison a b .max with
    | some (a', b') => if a'.offset ≥ b'.offset then a' else b'
    | none =>
      let infA := g.lowerBoundIn size a
      let infB := g.lowerBoundIn size b
      let supA := g.upperBoundIn size a
      let supB := g.upperBoundIn size b
      if decide (supA ≤ infB) && !(g.upperBound b).overflowed size then b
      else if decide (supB ≤ infA) && !(g.upperBound a).overflowed size then a
      else .constant (max supA supB)
        (isInt64_max (g.isInt64_upperBoundIn size a) (g.isInt64_upperBoundIn size b))

def dependsOnSymbol (a : RangeBoundary) (symbol : ℕ) : Bool :=
  match a with
  | .symbol s _ _ => decide (g.unwrapConstraint s = symbol)
  | _ => false

/-- To improve precision, a definition that the range already depends on stands for itself. -/
def joinOperand (range : Range) (defn : ℕ) (defnRange : Range) : Range :=
  if g.dependsOnSymbol range.min (g.unwrapConstraint defn) ||
      g.dependsOnSymbol range.max (g.unwrapConstraint defn) then
    Range.ofBounds (g.fromDefinition defn 0 (.refl true)) (g.fromDefinition defn 0 (.refl true))
  else defnRange

def joinKnown (range : Range) (other : Range) (size : RangeSize) : Range :=
  -- First try to compare ranges based on their upper and lower bounds.
  if g.upperBoundIn size range.max ≤ g.lowerBoundIn size other.min then range.setMax other.max
  else if g.upperBoundIn size other.max ≤ g.lowerBoundIn size range.min then range.setMin other.min
  else
    -- Can't compare ranges as whole. Join minimum and maximum separately.
    Range.ofBounds (g.joinMin range.min other.min size) (g.joinMax range.max other.max size)

/-- An unknown range is the bottom element of the join. -/
def join (range : Option Range) (defn : ℕ) (defnRange : Option Range) (size : RangeSize) :
    Option Range :=
  match defnRange, range with
  | none, range => range
  | some defnRange, none => some defnRange
  | some defnRange, some range =>
    some (g.joinKnown range (g.joinOperand range defn defnRange) size)

/-- The block of a definition dominates the phi's block and is another one. -/
def dominatesPhi (a phiBlock : ℕ) : Bool := g.dominates a phiBlock && decide (a ≠ phiBlock)

def ensureAcyclicSymbol (phiBlock : ℕ) (a limit : RangeBoundary) : RangeBoundary :=
  match a with
  | .symbol s o ho =>
    if g.dominatesPhi (g.definition s).block phiBlock then .symbol s o ho
    else
      -- Symbol does not dominate phi. Try unwrapping constraint and check again.
      let unwrapped := g.unwrapConstraint s
      if unwrapped ≠ s ∧ g.dominatesPhi (g.definition unwrapped).block phiBlock = true then
        g.fromDefinition unwrapped o ho
      else limit
  | b => b

/-- Neither the symbol of the boundary nor what it constrains dominates the phi. -/
def losesSymbol (phiBlock : ℕ) (a : RangeBoundary) : Bool :=
  match a with
  | .symbol s _ _ =>
    !g.dominatesPhi (g.definition s).block phiBlock &&
      !(decide (g.unwrapConstraint s ≠ s) &&
        g.dominatesPhi (g.definition (g.unwrapConstraint s)).block phiBlock)
  | _ => false

end FlowGraph

/-- A phi: its inputs are definitions with the ranges that `GetInputRange` gives for them. -/
structure Phi where
  size : RangeSize
  block : ℕ
  inputs : List (ℕ × Option Range)

namespace FlowGraph

variable (g : FlowGraph)

/-- The inputs joined, before the bounds are made acyclic. -/
def joinInputs (size : RangeSize) (inputs : List (ℕ × Option Range)) : Option Range :=
  inputs.foldl (fun range input => g.join range input.1 input.2 size) none

def inferPhi (phi : Phi) : Option Range :=
  (g.joinInputs phi.size phi.inputs).map fun range =>
    let range := range.setMin (g.ensureAcyclicSymbol phi.block range.min (.minConstant .smi))
    range.setMax (g.ensureAcyclicSymbol phi.block range.max (.maxConstant .smi))

end FlowGraph

end

open PlatformUtils SignedWords List FlowGraph RangeBoundary

/-- An addition or subtraction of small integers; one that is not truncating deoptimizes on
overflow. -/
def smiResult (isTruncating : Bool) (x : ℤ) : ℤ := if isTruncating then wrap 62 x else x

/-- Values that also agree with the executed instructions that range analysis looks through. -/
structure Execution (g : FlowGraph) extends Environment g where
  constraint_value : ∀ d v, executed d → (g.definition d).kind = .constraint v →
    executed v ∧ value d = value v
  cse_value : ∀ a b, executed a → executed b → g.cseEqual a b = true → value a = value b
  operands_known : ∀ d op left right t, executed d →
    (g.definition d).kind = .binarySmiOp op left right t →
      toValuation.Known left ∧ toValuation.Known right
  add_value : ∀ d left right t, executed d →
    (g.definition d).kind = .binarySmiOp .add left right t →
      value d = smiResult t (value left + value right)
  sub_value : ∀ d left right t, executed d →
    (g.definition d).kind = .binarySmiOp .sub left right t →
      value d = smiResult t (value left - value right)

variable {g : FlowGraph}

/-- No executed truncating addition or subtraction of small integers wraps around. -/
structure Execution.ExactSums (env : Execution g) : Prop where
  add : ∀ d left right, env.executed d →
    (g.definition d).kind = .binarySmiOp .add left right true →
      IsSmi (env.value left + env.value right)
  sub : ∀ d left right, env.executed d →
    (g.definition d).kind = .binarySmiOp .sub left right true →
      IsSmi (env.value left - env.value right)

namespace Execution

variable (env : Execution g)

variable {d : ℕ}

lemma ExactSums.add_eq {env : Execution g} (h : env.ExactSums) {left right : ℕ} {t : Bool}
    (hex : env.executed d) (hkind : (g.definition d).kind = .binarySmiOp .add left right t) :
    env.value d = env.value left + env.value right := by
  rw [env.add_value d left right t hex hkind]
  cases t with
  | false => rfl
  | true =>
    have hsmi := h.add d left right hex hkind
    exact wrap_of_fits ⟨hsmi.1, Int.lt_of_le_sub_one hsmi.2⟩

lemma ExactSums.sub_eq {env : Execution g} (h : env.ExactSums) {left right : ℕ} {t : Bool}
    (hex : env.executed d) (hkind : (g.definition d).kind = .binarySmiOp .sub left right t) :
    env.value d = env.value left - env.value right := by
  rw [env.sub_value d left right t hex hkind]
  cases t with
  | false => rfl
  | true =>
    have hsmi := h.sub d left right hex hkind
    exact wrap_of_fits ⟨hsmi.1, Int.lt_of_le_sub_one hsmi.2⟩

lemma value_unwrapConstraint (hex : env.executed d) :
    env.executed (g.unwrapConstraint d) ∧ env.value (g.unwrapConstraint d) = env.value d := by
  induction d using Nat.strong_induction_on with
  | _ d ih =>
    rw [unwrapConstraint]
    split
    · rename_i v hkind
      obtain ⟨hv, heq⟩ := env.constraint_value d v hex hkind
      obtain ⟨hex', hval⟩ := ih v (g.constraint_lt d v hkind) hv
      exact ⟨hex', hval.trans heq.symm⟩
    · exact ⟨hex, rfl⟩

lemma value_eq_of_areEqualDefinitions {a b : ℕ} (ha : env.executed a) (hb : env.executed b)
    (h : g.areEqualDefinitions a b = true) : env.value a = env.value b := by
  obtain ⟨hexa, hvala⟩ := env.value_unwrapConstraint ha
  obtain ⟨hexb, hvalb⟩ := env.value_unwrapConstraint hb
  rw [← hvala, ← hvalb]
  rcases Bool.or_eq_true_iff.mp h with heq | hcse
  · rw [of_decide_eq_true heq]
  · exact env.cse_value _ _ hexa hexb hcse

lemma value_eq_of_smiConstant {c : ℤ} (h : g.smiConstant d = some c) : env.value d = c := by
  unfold smiConstant at h
  split at h
  · rename_i c' hc hkind
    rw [← Option.some.inj h]
    exact env.constant_value d c' hc hkind
  · cases h

/-- Following constraints and sums does not change the number a boundary stands for. -/
lemma canonicalizeSymbol_value (hexact : env.ExactSums) {symbol s : ℕ} {offset o : ℤ}
    (h : g.canonicalizeSymbol symbol offset = some (s, o)) (hknown : env.Known symbol) :
    env.value s + o = env.value symbol + offset ∧ env.Known s := by
  induction symbol using Nat.strong_induction_on generalizing offset with
  | _ symbol ih =>
    rw [canonicalizeSymbol] at h
    split at h
    · rename_i value hkind
      obtain ⟨hex, heq⟩ := env.constraint_value symbol value hknown.1 hkind
      rw [heq]
      exact ih value (g.constraint_lt symbol value hkind) h ⟨hex, heq ▸ hknown.2⟩
    · rename_i left right t hkind
      have hlt := g.binarySmiOp_lt symbol _ left right _ hkind
      have hoperands := env.operands_known symbol _ left right t hknown.1 hkind
      have heq := hexact.add_eq hknown.1 hkind
      split at h
      · rename_i rhs _ hright
        split_ifs at h
        obtain ⟨hval, hs⟩ := ih left hlt.1 h hoperands.1
        have hrhs := env.value_eq_of_smiConstant hright
        exact ⟨by omega, hs⟩
      · rename_i rhs _ hleft
        split_ifs at h
        obtain ⟨hval, hs⟩ := ih right hlt.2 h hoperands.2
        have hrhs := env.value_eq_of_smiConstant hleft
        exact ⟨by omega, hs⟩
      · cases h
        exact ⟨rfl, hknown⟩
    · rename_i left right t hkind
      have hlt := g.binarySmiOp_lt symbol _ left right _ hkind
      have hoperands := env.operands_known symbol _ left right t hknown.1 hkind
      have heq := hexact.sub_eq hknown.1 hkind
      split at h
      · rename_i rhs hright
        split_ifs at h
        obtain ⟨hval, hs⟩ := ih left hlt.1 h hoperands.1
        have hrhs := env.value_eq_of_smiConstant hright
        exact ⟨by omega, hs⟩
      · cases h
        exact ⟨rfl, hknown⟩
    · cases h
      exact ⟨rfl, hknown⟩

end Execution

/-- The boundary bounds the number from its side. -/
def RangeBoundary.Bounds (value : ℕ → ℤ) : Side → RangeBoundary → ℤ → Prop
  | .min, b, x => b.Below value x
  | .max, b, x => b.Above value x

lemma RangeBoundary.bounds_infinity (value : ℕ → ℤ) (side : Side) (x : ℤ) :
    RangeBoundary.Bounds value side side.infinity x := by
  cases side <;> trivial

lemma RangeBoundary.smiSymbol_infinity (valuation : Valuation) (side : Side) :
    side.infinity.SmiSymbol valuation := by
  cases side <;> trivial

namespace Execution

variable (env : Execution g)

variable {side : Side}

lemma bounds_fromDefinition {s d : ℕ} {o o' x : ℤ} {ho : ValidOffset o}
    {ho' : ValidOffset o'} (heq : env.value d + o' = env.value s + o)
    (h : (RangeBoundary.symbol s o ho).Bounds env.value side x) :
    (g.fromDefinition d o' ho').Bounds env.value side x := by
  cases side with
  | min => exact below_fromDefinition env.toEnvironment (heq.trans_le h)
  | max => exact above_fromDefinition env.toEnvironment (le_trans h heq.symm.le)

/-- What rewriting a boundary keeps: it still bounds, and its symbol is still known. -/
structure MovesOut (side : Side) (a a' : RangeBoundary) : Prop where
  bounds : ∀ x, a.Bounds env.value side x → a'.Bounds env.value side x
  smi : a'.SmiSymbol env.toValuation

variable {a b : RangeBoundary}

lemma MovesOut.trans {env : Execution g} {c : RangeBoundary}
    (h : env.MovesOut side a b) (h' : env.MovesOut side b c) : env.MovesOut side a c :=
  ⟨fun x hx => h'.bounds x (h.bounds x hx), h'.smi⟩

lemma movesOut_infinity (side : Side) (a : RangeBoundary) : env.MovesOut side a side.infinity :=
  ⟨fun x _ => bounds_infinity env.value side x,
    smiSymbol_infinity env.toValuation side⟩

lemma movesOut_canonicalizeBoundary (hexact : env.ExactSums) (side : Side)
    (hs : a.SmiSymbol env.toValuation) :
    env.MovesOut side a (g.canonicalizeBoundary a side.infinity) := by
  unfold canonicalizeBoundary
  split
  · rename_i s o ho
    split
    · exact env.movesOut_infinity side _
    · rename_i symbol offset hcanon
      obtain ⟨hval, hsmi⟩ := env.canonicalizeSymbol_value hexact hcanon hs
      split_ifs with hok
      · exact ⟨fun x hx => env.bounds_fromDefinition hval hx,
          smiSymbol_fromDefinition env.toEnvironment hsmi⟩
      · exact env.movesOut_infinity side _
  · exact ⟨fun x hx => hx, hs⟩

lemma range_bound {s : ℕ} {r : Range} (hex : env.executed s)
    (hr : (g.definition s).range = some r) (side : Side) :
    (r.bound side).Bounds env.value side (env.value s) ∧
      (r.bound side).SmiSymbol env.toValuation := by
  have hcorrect := env.range_correct s r hex hr
  have hsym := env.range_symbols s r hex hr
  cases side with
  | min => exact ⟨hcorrect.below, hsym.min⟩
  | max => exact ⟨hcorrect.above, hsym.max⟩

variable {a' : RangeBoundary}

lemma movesOut_canonicalizeBound (hexact : env.ExactSums) (hs : a.SmiSymbol env.toValuation)
    (h : g.canonicalizeBound side a = some a') : env.MovesOut side a a' := by
  unfold canonicalizeBound at h
  split at h
  · rename_i s o ho
    split at h
    · cases h
    · rename_i r hr
      obtain ⟨hbound, hsym⟩ := env.range_bound hs.1 hr side
      split at h
      · rename_i t o' ho' heq
        rw [heq] at hbound hsym
        split_ifs at h with hover hok
        · cases h
          exact env.movesOut_infinity side _
        · cases h
          have hstep : env.MovesOut side (.symbol s o ho) (g.fromDefinition t (o' + o) hok) := by
            refine ⟨?_, smiSymbol_fromDefinition env.toEnvironment hsym⟩
            intro x hx
            cases side with
            | min =>
              have hle : env.value t + o' ≤ env.value s := hbound
              have hx : env.value s + o ≤ x := hx
              exact below_fromDefinition env.toEnvironment
                (by show env.value t + (o' + o) ≤ x; omega)
            | max =>
              have hle : env.value s ≤ env.value t + o' := hbound
              have hx : x ≤ env.value s + o := hx
              exact above_fromDefinition env.toEnvironment
                (by show x ≤ env.value t + (o' + o); omega)
          exact hstep.trans (env.movesOut_canonicalizeBoundary hexact side hstep.smi)
        · cases h
          exact env.movesOut_infinity side _
      · cases h
  · cases h

section

variable (hexact : env.ExactSums) (ha : a.SmiSymbol env.toValuation)
  (hb : b.SmiSymbol env.toValuation)

include hexact ha hb

lemma canonicalizeLoop_spec {b' : RangeBoundary} (h : g.canonicalizeLoop side a b = some (a', b')) :
    env.MovesOut side a a' ∧ env.MovesOut side b b' ∧ g.dependOnSameSymbol a' b' = true := by
  induction hn : a.rank + b.rank using Nat.strong_induction_on generalizing a b with
  | _ n ih =>
    rw [canonicalizeLoop] at h
    split_ifs at h with hsame
    · cases h
      exact ⟨⟨fun _ hx => hx, ha⟩, ⟨fun _ hx => hx, hb⟩, hsame⟩
    · split at h
      · rename_i a1 ha1
        have hmove := env.movesOut_canonicalizeBound hexact ha ha1
        have hlt := g.rank_canonicalizeBound_lt ha1
        obtain ⟨hleft, hright, hdep⟩ := ih _ (by omega) hmove.smi hb h rfl
        exact ⟨hmove.trans hleft, hright, hdep⟩
      · split at h
        · rename_i b1 hb1
          have hmove := env.movesOut_canonicalizeBound hexact hb hb1
          have hlt := g.rank_canonicalizeBound_lt hb1
          obtain ⟨hleft, hright, hdep⟩ := ih _ (by omega) ha hmove.smi h rfl
          exact ⟨hleft, hmove.trans hright, hdep⟩
        · cases h

lemma canonicalizeForComparison_spec {b' : RangeBoundary}
    (h : g.canonicalizeForComparison a b side = some (a', b')) :
    env.MovesOut side a a' ∧ env.MovesOut side b b' ∧ g.dependOnSameSymbol a' b' = true := by
  unfold canonicalizeForComparison at h
  split at h
  · exact env.canonicalizeLoop_spec hexact ha hb h
  · cases h

end

section

variable (ha : a.SmiSymbol env.toValuation) (hb : b.SmiSymbol env.toValuation)

include ha hb

lemma exists_of_dependOnSameSymbol (h : g.dependOnSameSymbol a b = true) :
    ∃ s o ho t o' ho', a = .symbol s o ho ∧ b = .symbol t o' ho' ∧ env.value s = env.value t := by
  unfold dependOnSameSymbol at h
  split at h
  · rename_i s o ho t o' ho'
    exact ⟨s, o, ho, t, o', ho', rfl, rfl, env.value_eq_of_areEqualDefinitions ha.1 hb.1 h⟩
  · cases h

lemma eval_eq_of_equals (h : g.equals a b = true) : a.eval env.value = b.eval env.value := by
  unfold equals at h
  split at h
  · exact of_decide_eq_true h
  · rfl
  · rfl
  · obtain ⟨hoffset, hdep⟩ := Bool.and_eq_true_iff.mp h
    obtain ⟨s, o, ho, t, o', ho', heq, heq', hval⟩ := env.exists_of_dependOnSameSymbol ha hb hdep
    cases heq
    cases heq'
    show env.value _ + _ = env.value _ + _
    rw [hval, of_decide_eq_true hoffset]
  · cases h

end

def InSize (size : RangeSize) (x : ℤ) : Prop := size.min ≤ x ∧ x ≤ size.max

omit env in
lemma isConstant_of_canonicalizeForComparison {c : RangeBoundary × RangeBoundary}
    (h : g.canonicalizeForComparison a b side = some c) : a.isConstant = false := by
  cases a with
  | constant => cases h
  | _ => rfl

/-- What the join of two lower boundaries satisfies. -/
structure JoinedMin (c : RangeBoundary) (x y : ℤ) : Prop where
  finite : c.isInfinity = false
  left : c.Below env.value x
  right : c.Below env.value y
  smi : c.SmiSymbol env.toValuation

structure JoinedMax (c : RangeBoundary) (x y : ℤ) : Prop where
  finite : c.isInfinity = false
  left : c.Above env.value x
  right : c.Above env.value y
  smi : c.SmiSymbol env.toValuation

section Boundaries

variable {a b : RangeBoundary} (hexact : a.isConstant = false → env.ExactSums) {x y : ℤ}
  {size : RangeSize} (hfa : a.isInfinity = false) (hfb : b.isInfinity = false)
    (hsa : a.SmiSymbol env.toValuation)
  (hsb : b.SmiSymbol env.toValuation) (hxs : InSize size x) (hys : InSize size y)

include hexact hfa hfb hsa hsb hxs hys

lemma joinMin_spec (hx : a.Below env.value x) (hy : b.Below env.value y) :
    env.JoinedMin (g.joinMin a b size) x y := by
  have hinfA := lowerBoundIn_le env.toEnvironment hsa hx hxs.1
  have hinfB := lowerBoundIn_le env.toEnvironment hsb hy hys.1
  have hevalA : a.eval env.value ≤ x := (below_iff hfa x).mp hx
  have hevalB : b.eval env.value ≤ y := (below_iff hfb y).mp hy
  unfold joinMin
  split_ifs with hequal
  · have heq := env.eval_eq_of_equals hsa hsb hequal
    exact ⟨hfb, (below_iff hfb x).mpr (heq ▸ hevalA), hy, hsb⟩
  · split
    · rename_i a' b' hcanon
      obtain ⟨hma, hmb, hdep⟩ := env.canonicalizeForComparison_spec
        (hexact (isConstant_of_canonicalizeForComparison hcanon)) hsa hsb hcanon
      obtain ⟨s, o, ho, t, o', ho', rfl, rfl, hval⟩ :=
        env.exists_of_dependOnSameSymbol hma.smi hmb.smi hdep
      have hx' : env.value s + o ≤ x := hma.bounds x hx
      have hy' : env.value t + o' ≤ y := hmb.bounds y hy
      show env.JoinedMin (if o ≤ o' then _ else _) x y
      split_ifs with hle
      · exact ⟨rfl, hx', (by show env.value s + o ≤ y; omega), hma.smi⟩
      · exact ⟨rfl, (by show env.value t + o' ≤ x; omega), hy', hmb.smi⟩
    · -- The boundary that stays is below both values once clamping is taken into account.
      simp only [Bool.and_eq_true, decide_eq_true_eq]
      have hsupA := le_upperBoundIn env.toEnvironment hsa
        ((above_iff hfa _).mpr le_rfl) (hevalA.trans hxs.2)
      have hsupB := le_upperBoundIn env.toEnvironment hsb
        ((above_iff hfb _).mpr le_rfl) (hevalB.trans hys.2)
      split_ifs with hA hB
      · exact ⟨hfa, hx, (below_iff hfa y).mpr (by omega), hsa⟩
      · exact ⟨hfb, (below_iff hfb x).mpr (by omega), hy, hsb⟩
      · exact ⟨rfl, (min_le_left _ _).trans hinfA, (min_le_right _ _).trans hinfB, trivial⟩

lemma joinMax_spec (hx : a.Above env.value x) (hy : b.Above env.value y) :
    env.JoinedMax (g.joinMax a b size) x y := by
  have hsupA := le_upperBoundIn env.toEnvironment hsa hx hxs.2
  have hsupB := le_upperBoundIn env.toEnvironment hsb hy hys.2
  have hevalA : x ≤ a.eval env.value := (above_iff hfa x).mp hx
  have hevalB : y ≤ b.eval env.value := (above_iff hfb y).mp hy
  unfold joinMax
  split_ifs with hequal
  · have heq := env.eval_eq_of_equals hsa hsb hequal
    exact ⟨hfb, (above_iff hfb x).mpr (heq ▸ hevalA), hy, hsb⟩
  · split
    · rename_i a' b' hcanon
      obtain ⟨hma, hmb, hdep⟩ := env.canonicalizeForComparison_spec
        (hexact (isConstant_of_canonicalizeForComparison hcanon)) hsa hsb hcanon
      obtain ⟨s, o, ho, t, o', ho', rfl, rfl, hval⟩ :=
        env.exists_of_dependOnSameSymbol hma.smi hmb.smi hdep
      have hx' : x ≤ env.value s + o := hma.bounds x hx
      have hy' : y ≤ env.value t + o' := hmb.bounds y hy
      show env.JoinedMax (if o ≥ o' then _ else _) x y
      split_ifs with hle
      · exact ⟨rfl, hx', (by show y ≤ env.value s + o; omega), hma.smi⟩
      · exact ⟨rfl, (by show x ≤ env.value t + o'; omega), hy', hmb.smi⟩
    · simp only [Bool.and_eq_true, decide_eq_true_eq]
      have hinfA := lowerBoundIn_le env.toEnvironment hsa
        ((below_iff hfa _).mpr le_rfl) (hxs.1.trans hevalA)
      have hinfB := lowerBoundIn_le env.toEnvironment hsb
        ((below_iff hfb _).mpr le_rfl) (hys.1.trans hevalB)
      split_ifs with hA hB
      · exact ⟨hfb, (above_iff hfb x).mpr (by omega), hy, hsb⟩
      · exact ⟨hfa, hx, (above_iff hfa y).mpr (by omega), hsa⟩
      · exact ⟨rfl, hsupA.trans (le_max_left _ _), hsupB.trans (le_max_right _ _), trivial⟩

end Boundaries

/-- A range that contains a value and whose symbols are small integers. -/
structure Holds (r : Range) (x : ℤ) : Prop where
  contains : r.Contains env.value x
  symbols : r.SmiSymbols env.toValuation

variable {r : Range}

variable {d : ℕ} (hd : env.executed (g.unwrapConstraint d) → env.executed d)

include hd

lemma known_of_dependsOnSymbol {b : RangeBoundary} (hb : b.SmiSymbol env.toValuation)
    (h : g.dependsOnSymbol b (g.unwrapConstraint d) = true) : env.Known d := by
  unfold dependsOnSymbol at h
  split at h
  · have hunwrap := of_decide_eq_true h
    obtain ⟨hexecuted, hvalue⟩ := env.value_unwrapConstraint hb.1
    rw [hunwrap] at hexecuted hvalue
    have hvalue' := (env.value_unwrapConstraint (hd hexecuted)).2
    exact ⟨hd hexecuted, hvalue' ▸ hvalue ▸ hb.2⟩
  · cases h

lemma joinOperand_holds {defnRange : Range} (hr : r.SmiSymbols env.toValuation)
    (h : env.Holds defnRange (env.value d)) :
    env.Holds (g.joinOperand r d defnRange) (env.value d) := by
  unfold joinOperand
  split_ifs with hdep
  · have hknown : env.Known d := by
      rcases Bool.or_eq_true_iff.mp hdep with hmin | hmax
      · exact env.known_of_dependsOnSymbol hd hr.min hmin
      · exact env.known_of_dependsOnSymbol hd hr.max hmax
    have hfin : (g.fromDefinition d 0 (by decide)).isInfinity = false := by
      unfold fromDefinition
      split <;> rfl
    rw [Range.ofBounds_of_finite hfin hfin]
    exact ⟨⟨below_fromDefinition env.toEnvironment (by simp),
      above_fromDefinition env.toEnvironment (by simp)⟩,
      ⟨smiSymbol_fromDefinition env.toEnvironment hknown,
        smiSymbol_fromDefinition env.toEnvironment hknown⟩⟩
  · exact h

omit hd

variable {x : ℤ} {size : RangeSize}

lemma joinKnown_holds (hexact : r.isConstant = false → env.ExactSums) {other : Range} {y : ℤ}
    (hx : env.Holds r x) (hy : env.Holds other y) (hxs : InSize size x) (hys : InSize size y) :
    env.Holds (g.joinKnown r other size) x ∧ env.Holds (g.joinKnown r other size) y := by
  unfold joinKnown
  split_ifs with hbelow habove
  · -- Every value of the range is below every value of the other one.
    have hxsup := le_upperBoundIn env.toEnvironment hx.symbols.max hx.contains.above hxs.2
    have hyinf := lowerBoundIn_le env.toEnvironment hy.symbols.min hy.contains.below hys.1
    have hle : x ≤ y := hxsup.trans (hbelow.trans hyinf)
    rw [Range.setMax, dif_pos other.max_finite]
    exact ⟨⟨⟨hx.contains.below, hy.contains.above.trans hle⟩, hx.symbols.min, hy.symbols.max⟩,
      ⟨⟨hx.contains.below.trans hle, hy.contains.above⟩, hx.symbols.min, hy.symbols.max⟩⟩
  · have hysup := le_upperBoundIn env.toEnvironment hy.symbols.max hy.contains.above hys.2
    have hxinf := lowerBoundIn_le env.toEnvironment hx.symbols.min hx.contains.below hxs.1
    have hle : y ≤ x := hysup.trans (habove.trans hxinf)
    rw [Range.setMin, dif_pos other.min_finite]
    exact ⟨⟨⟨hy.contains.below.trans hle, hx.contains.above⟩, hy.symbols.min, hx.symbols.max⟩,
      ⟨⟨hy.contains.below, hx.contains.above.trans hle⟩, hy.symbols.min, hx.symbols.max⟩⟩
  · have hmin := env.joinMin_spec (fun h => hexact (by rw [Range.isConstant, h]; rfl)) r.min_finite
      other.min_finite hx.symbols.min hy.symbols.min hxs hys hx.contains.below hy.contains.below
    have hmax := env.joinMax_spec (fun h => hexact (by rw [Range.isConstant, h, Bool.and_false]))
      r.max_finite other.max_finite hx.symbols.max hy.symbols.max hxs hys hx.contains.above
      hy.contains.above
    rw [Range.ofBounds_of_finite hmin.finite hmax.finite]
    exact ⟨⟨⟨hmin.left, hmax.left⟩, hmin.smi, hmax.smi⟩,
      ⟨⟨hmin.right, hmax.right⟩, hmin.smi, hmax.smi⟩⟩

/-- An input of a phi whose range is known and contains a number of the size of the phi. -/
structure CorrectInput (size : RangeSize) (input : ℕ × Option Range) (x : ℤ) : Prop where
  inSize : InSize size x
  correct : ∃ r, input.2 = some r ∧ env.Holds r x

/-- The input is executed, or what it constrains is not either. -/
def Settled (input : ℕ × Option Range) : Prop :=
  env.executed (g.unwrapConstraint input.1) → env.executed input.1

/-- Sums are exact and every input is taken with its own value. -/
def OwnValues (v : ℕ × Option Range → ℤ) (inputs : List (ℕ × Option Range)) : Prop :=
  env.ExactSums ∧ ∀ input ∈ inputs, v input = env.value input.1 ∧ env.Settled input

/-- What inputs with the numbers `v` are joined to, if all is constant and otherwise. -/
def Joins (v : ℕ × Option Range → ℤ) (inputs : List (ℕ × Option Range)) (r : Range) :
    Bool → Prop
  | true => r.isConstant = true ∧ ∀ input ∈ inputs, ∀ r', input.2 = some r' → r'.isConstant = true
  | false => env.OwnValues v inputs

lemma OwnValues.tail {env : Execution g} {v : ℕ × Option Range → ℤ} {input : ℕ × Option Range}
    {rest : List (ℕ × Option Range)} (h : env.OwnValues v (input :: rest)) :
    env.OwnValues v rest :=
  ⟨h.1, fun i hi => h.2 i (mem_cons_of_mem _ hi)⟩

section Constants

omit env

variable {a b : RangeBoundary} (ha : a.isConstant = true) (hb : b.isConstant = true)

include ha

lemma canonicalizeForComparison_isConstant (side : Side) :
    g.canonicalizeForComparison a b side = none := by
  cases a with
  | constant => rfl
  | _ => cases ha

include hb

lemma isConstant_joinMin : (g.joinMin a b size).isConstant = true := by
  unfold joinMin
  simp only [canonicalizeForComparison_isConstant ha]
  split_ifs <;> first | exact ha | exact hb | rfl

lemma isConstant_joinMax : (g.joinMax a b size).isConstant = true := by
  unfold joinMax
  simp only [canonicalizeForComparison_isConstant ha]
  split_ifs <;> first | exact ha | exact hb | rfl

end Constants

omit env in
lemma isInfinity_of_isConstant {a : RangeBoundary} (ha : a.isConstant = true) :
    a.isInfinity = false := by
  cases a with
  | constant => rfl
  | _ => cases ha

omit env in
lemma isConstant_joinKnown {other : Range} (hr : r.isConstant = true)
    (hother : other.isConstant = true) : (g.joinKnown r other size).isConstant = true := by
  obtain ⟨hmin, hmax⟩ := Bool.and_eq_true_iff.mp hr
  obtain ⟨hmin', hmax'⟩ := Bool.and_eq_true_iff.mp hother
  unfold joinKnown
  split_ifs
  · rw [Range.setMax, dif_pos other.max_finite]
    exact Bool.and_eq_true_iff.mpr ⟨hmin, hmax'⟩
  · rw [Range.setMin, dif_pos other.min_finite]
    exact Bool.and_eq_true_iff.mpr ⟨hmin', hmax⟩
  · have hjmin := @isConstant_joinMin g size _ _ hmin hmin'
    have hjmax := @isConstant_joinMax g size _ _ hmax hmax'
    rw [Range.ofBounds_of_finite (isInfinity_of_isConstant hjmin) (isInfinity_of_isConstant hjmax)]
    exact Bool.and_eq_true_iff.mpr ⟨hjmin, hjmax⟩

omit env in
lemma joinOperand_of_isConstant (hr : r.isConstant = true) (d : ℕ) (defnRange : Range) :
    g.joinOperand r d defnRange = defnRange := by
  have hnot : ∀ b : RangeBoundary, b.isConstant = true →
      g.dependsOnSymbol b (g.unwrapConstraint d) = false := by
    intro b hb
    cases b with
    | constant => rfl
    | _ => cases hb
  obtain ⟨hmin, hmax⟩ := Bool.and_eq_true_iff.mp hr
  rw [joinOperand, hnot _ hmin, hnot _ hmax]
  rfl

section Join

variable {v : ℕ × Option Range → ℤ} {input : ℕ × Option Range}
  {rest : List (ℕ × Option Range)} {defnRange : Range} {c : Bool}
  (hjoins : env.Joins v (input :: rest) r c)

include hjoins

lemma join_holds (h : env.Holds defnRange (v input)) (hsize : InSize size (v input))
    {y : ℤ} (hy : env.Holds r y) (hys : InSize size y) :
    env.Holds (g.joinKnown r (g.joinOperand r input.1 defnRange) size) y ∧
      env.Holds (g.joinKnown r (g.joinOperand r input.1 defnRange) size) (v input) := by
  cases c with
  | true =>
    rw [joinOperand_of_isConstant hjoins.1]
    exact env.joinKnown_holds (fun hnot => absurd hjoins.1 (Bool.eq_false_iff.mp hnot)) hy h hys
      hsize
  | false =>
    obtain ⟨hval, hsettled⟩ := hjoins.2 input mem_cons_self
    rw [hval] at h hsize ⊢
    exact env.joinKnown_holds (fun _ => hjoins.1) hy
      (env.joinOperand_holds hsettled hy.symbols h) hys hsize

lemma join_joins (hrange : input.2 = some defnRange) :
    env.Joins v rest (g.joinKnown r (g.joinOperand r input.1 defnRange) size) c := by
  cases c with
  | true =>
    rw [joinOperand_of_isConstant hjoins.1]
    exact ⟨isConstant_joinKnown hjoins.1 (hjoins.2 input mem_cons_self _ hrange),
      fun i hi => hjoins.2 i (mem_cons_of_mem _ hi)⟩
  | false => exact OwnValues.tail hjoins

end Join

lemma foldl_join_holds {v : ℕ × Option Range → ℤ} {c : Bool}
    (inputs : List (ℕ × Option Range))
    (h : ∀ input ∈ inputs, env.CorrectInput size input (v input))
    (joined : List ℤ) (r : Range) (hjoins : env.Joins v inputs r c)
    (hne : joined ≠ []) (hsizes : ∀ x ∈ joined, InSize size x) (hr : ∀ x ∈ joined, env.Holds r x) :
    ∃ r', inputs.foldl (fun range input => g.join range input.1 input.2 size) (some r) = some r' ∧
      env.Joins v [] r' c ∧ (∀ x ∈ joined, env.Holds r' x) ∧
      ∀ input ∈ inputs, env.Holds r' (v input) := by
  induction inputs generalizing joined r with
  | nil =>
    refine ⟨r, rfl, hjoins, hr, ?_⟩
    intro input hinput
    cases hinput
  | cons input rest ih =>
    obtain ⟨hsize, defnRange, hrange, hholds⟩ := h input mem_cons_self
    obtain ⟨x0, hx0⟩ := exists_mem_of_ne_nil joined hne
    have hstep : g.join (some r) input.1 input.2 size =
        some (g.joinKnown r (g.joinOperand r input.1 defnRange) size) := by
      rw [hrange]
      rfl
    rw [foldl_cons, hstep]
    obtain ⟨r', hfold, hjoins', hjoined, hrest⟩ := ih
      (fun i hi => h i (mem_cons_of_mem _ hi)) (v input :: joined) _
      (env.join_joins hjoins hrange) (by simp)
      (by
        intro x hx
        rcases mem_cons.mp hx with rfl | hx
        · exact hsize
        · exact hsizes x hx)
      (by
        intro x hx
        rcases mem_cons.mp hx with rfl | hx
        · exact (env.join_holds hjoins hholds hsize (hr x0 hx0) (hsizes x0 hx0)).2
        · exact (env.join_holds hjoins hholds hsize (hr x hx) (hsizes x hx)).1)
    refine ⟨r', hfold, hjoins', fun x hx => hjoined x (mem_cons_of_mem _ hx), ?_⟩
    intro i hi
    rcases mem_cons.mp hi with rfl | hi
    · exact hjoined _ mem_cons_self
    · exact hrest i hi

lemma joinInputs_holds {v : ℕ × Option Range → ℤ} {inputs : List (ℕ × Option Range)}
    {c : Bool} (hne : inputs ≠ [])
    (hjoins : ∀ input rest r, inputs = input :: rest → input.2 = some r →
      env.Joins v rest r c)
    (h : ∀ input ∈ inputs, env.CorrectInput size input (v input)) :
    ∃ r, g.joinInputs size inputs = some r ∧ env.Joins v [] r c ∧
      ∀ input ∈ inputs, env.Holds r (v input) := by
  cases inputs with
  | nil => exact absurd rfl hne
  | cons input rest =>
    obtain ⟨hsize, defnRange, hrange, hholds⟩ := h input mem_cons_self
    have hfirst : g.join none input.1 input.2 size = some defnRange := by
      rw [hrange]
      rfl
    unfold joinInputs
    rw [foldl_cons, hfirst]
    obtain ⟨r, hfold, hjoins', hjoined, hrest⟩ := env.foldl_join_holds rest
      (fun i hi => h i (mem_cons_of_mem _ hi)) [v input] defnRange
      (hjoins input rest defnRange rfl hrange) (by simp)
      (by
        intro x hx
        rw [mem_singleton.mp hx]
        exact hsize)
      (by
        intro x hx
        rw [mem_singleton.mp hx]
        exact hholds)
    refine ⟨r, hfold, hjoins', ?_⟩
    intro i hi
    rcases mem_cons.mp hi with rfl | hi
    · exact hjoined _ (mem_singleton.mpr rfl)
    · exact hrest i hi

variable {phiBlock : ℕ}

variable {a : RangeBoundary}

lemma ensureAcyclicSymbol_of_loses (limit : RangeBoundary)
    (h : g.losesSymbol phiBlock a = true) : g.ensureAcyclicSymbol phiBlock a limit = limit := by
  cases a with
  | symbol s o ho =>
    simp only [losesSymbol, Bool.and_eq_true, Bool.not_eq_true', Bool.and_eq_false_iff,
      decide_eq_false_iff_not] at h
    unfold ensureAcyclicSymbol
    simp only [h.1, Bool.false_eq_true, if_false]
    rw [if_neg]
    rintro ⟨hne, hdom⟩
    rcases h.2 with heq | hnot
    · exact heq hne
    · rw [hdom] at hnot
      cases hnot
  | _ => cases h

lemma ensureAcyclicSymbol_of_keeps (limit : RangeBoundary) (hs : a.SmiSymbol env.toValuation)
    (hfin : a.isInfinity = false) (h : g.losesSymbol phiBlock a = false) :
    (g.ensureAcyclicSymbol phiBlock a limit).isInfinity = false ∧
      (g.ensureAcyclicSymbol phiBlock a limit).eval env.value = a.eval env.value := by
  cases a with
  | symbol s o ho =>
    unfold ensureAcyclicSymbol
    simp only
    split_ifs with hdom hunwrap
    · exact ⟨rfl, rfl⟩
    · have hval := (env.value_unwrapConstraint hs.1).2
      unfold fromDefinition
      split
      · rename_i c hc hkind
        refine ⟨rfl, ?_⟩
        show c + o = env.value s + o
        rw [← hval, env.constant_value _ c hc hkind]
      · refine ⟨rfl, ?_⟩
        show env.value (g.unwrapConstraint s) + o = env.value s + o
        rw [hval]
    · -- Then the symbol is lost.
      rw [not_and] at hunwrap
      have hloses : g.losesSymbol phiBlock (.symbol s o ho) = true := by
        simp only [losesSymbol, hdom, Bool.not_false, Bool.true_and, Bool.not_eq_true',
          Bool.and_eq_false_iff, decide_eq_false_iff_not]
        by_cases hne : g.unwrapConstraint s ≠ s
        · exact Or.inr (Bool.eq_false_iff.mpr (hunwrap hne))
        · exact Or.inl hne
      rw [hloses] at h
      cases h
  | negativeInfinity => cases hfin
  | positiveInfinity => cases hfin
  | constant c hc => exact ⟨rfl, rfl⟩

lemma ensureAcyclicSymbol_min (hs : a.SmiSymbol env.toValuation)
    (hfinite : a.isInfinity = false) {x : ℤ} (hx : a.Below env.value x) :
    (g.ensureAcyclicSymbol phiBlock a (.minConstant .smi)).isInfinity = false ∧
      ((g.ensureAcyclicSymbol phiBlock a (.minConstant .smi)).Below env.value x ↔
        (g.losesSymbol phiBlock a = true → smiMin ≤ x)) := by
  cases hloses : g.losesSymbol phiBlock a with
  | true =>
    rw [ensureAcyclicSymbol_of_loses _ hloses]
    exact ⟨rfl, ⟨fun h _ => h, fun h => h rfl⟩⟩
  | false =>
    obtain ⟨hfin, heval⟩ := env.ensureAcyclicSymbol_of_keeps (.minConstant .smi) hs hfinite hloses
    refine ⟨hfin, iff_of_true ?_ (fun h => by cases h)⟩
    rw [below_iff hfin, heval]
    exact (below_iff hfinite x).mp hx

lemma ensureAcyclicSymbol_max (hs : a.SmiSymbol env.toValuation)
    (hfinite : a.isInfinity = false) {x : ℤ} (hx : a.Above env.value x) :
    (g.ensureAcyclicSymbol phiBlock a (.maxConstant .smi)).isInfinity = false ∧
      ((g.ensureAcyclicSymbol phiBlock a (.maxConstant .smi)).Above env.value x ↔
        (g.losesSymbol phiBlock a = true → x ≤ smiMax)) := by
  cases hloses : g.losesSymbol phiBlock a with
  | true =>
    rw [ensureAcyclicSymbol_of_loses _ hloses]
    exact ⟨rfl, ⟨fun h _ => h, fun h => h rfl⟩⟩
  | false =>
    obtain ⟨hfin, heval⟩ := env.ensureAcyclicSymbol_of_keeps (.maxConstant .smi) hs hfinite hloses
    refine ⟨hfin, iff_of_true ?_ (fun h => by cases h)⟩
    rw [above_iff hfin, heval]
    exact (above_iff hfinite x).mp hx

lemma inferPhi_contains_iff {phi : Phi}
    (hjoin : g.joinInputs phi.size phi.inputs = some r) (hx : env.Holds r x) :
    (∃ p, g.inferPhi phi = some p ∧ p.Contains env.value x) ↔
      (g.losesSymbol phi.block r.min = true → smiMin ≤ x) ∧
        (g.losesSymbol phi.block r.max = true → x ≤ smiMax) := by
  obtain ⟨hminfin, hmin⟩ := @ensureAcyclicSymbol_min g env phi.block _ hx.symbols.min
    r.min_finite _ hx.contains.below
  obtain ⟨hmaxfin, hmax⟩ := @ensureAcyclicSymbol_max g env phi.block _ hx.symbols.max
    r.max_finite _ hx.contains.above
  have hinfer : g.inferPhi phi = some ⟨_, _, hminfin, hmaxfin⟩ := by
    unfold inferPhi
    rw [hjoin]
    simp only [Option.map_some]
    rw [Range.setMin, dif_pos hminfin]
    exact congrArg some (dif_pos hmaxfin)
  rw [hinfer, ← hmin, ← hmax]
  constructor
  · rintro ⟨p, hp, hmem⟩
    cases hp
    exact ⟨hmem.below, hmem.above⟩
  · intro h
    exact ⟨_, rfl, h.1, h.2⟩

/-- Values of a size below 64 bits are small integers. -/
lemma isSmi_of_inSize (h : InSize size x) (hsize : size ≠ .int64) : IsSmi x := by
  cases size with
  | smi => exact h
  | int32 => exact ⟨le_trans (by decide) h.1, le_trans h.2 (by decide)⟩
  | int64 => exact absurd rfl hsize

omit env in
lemma losesSymbol_of_isConstant {a : RangeBoundary} (ha : a.isConstant = true) :
    g.losesSymbol phiBlock a = false := by
  cases a with
  | constant => rfl
  | _ => cases ha

/-- Every range is constant and contains a number of the size. -/
def ConstantInputs (phi : Phi) : Prop :=
  ∀ input ∈ phi.inputs, (∀ r, input.2 = some r → r.isConstant = true) ∧
    ∃ x, env.CorrectInput phi.size input x

/-- Every range is correct, and 64-bit inputs are small integers. -/
def SmiInputs (phi : Phi) : Prop :=
  ∀ input ∈ phi.inputs, env.Settled input ∧ env.CorrectInput phi.size input (env.value input.1) ∧
    (phi.size = .int64 → IsSmi (env.value input.1))

end Execution

/-- An array length and a 64-bit sum with it, both in a branch, and the constant zero before it. -/
def branchGraph : FlowGraph where
  definition
    | 0 => ⟨.loadField true, none, 1⟩
    | 1 => ⟨.other, some ⟨.symbol 0 (2 ^ 62) rfl, .symbol 0 (2 ^ 62) rfl, rfl, rfl⟩, 1⟩
    | _ => ⟨.constant 0 isSmi_zero, some ⟨.constant 0 isInt64_zero, .constant 0 isInt64_zero,
        .refl false, .refl false⟩, 0⟩
  cseEqual _ _ := false
  dominates a _ := decide (a = 0)
  constraint_lt d v h := by
    split at h <;> cases h
  binarySmiOp_lt d op left right t h := by
    split at h <;> cases h
  min_lt d r h s o ho hmin := by
    split at h
    · cases h
    · cases h
      cases hmin
      exact Nat.zero_lt_one
    · cases h
      cases hmin
  max_lt d r h s o ho hmax := by
    split at h
    · cases h
    · cases h
      cases hmax
      exact Nat.zero_lt_one
    · cases h
      cases hmax

/-- Ten elements. -/
def branchValue : ℕ → ℤ
  | 0 => 10
  | 1 => 2 ^ 62 + 10
  | _ => 0

lemma branchGraph_isArrayLength {d : ℕ} (h : branchGraph.isArrayLength d = true) : d = 0 := by
  have hunwrap : branchGraph.unwrapConstraint d = d := by
    rw [unwrapConstraint]
    split
    · rename_i v hkind
      dsimp only [branchGraph] at hkind
      split at hkind <;> cases hkind
    · rfl
  unfold isArrayLength at h
  rw [hunwrap] at h
  rcases d with _ | _ | d
  · rfl
  · cases h
  · cases h

def branchExecution : Execution branchGraph where
  value := branchValue
  executed _ := True
  constant_value d c h hkind := by
    match d with
    | 0 => cases hkind
    | 1 => cases hkind
    | _ + 2 =>
      cases hkind
      rfl
  arrayLength_smi d _ h := by
    rw [branchGraph_isArrayLength h]
    exact ⟨by decide, by decide⟩
  range_correct d r _ h := by
    match d with
    | 0 => cases h
    | 1 =>
      cases h
      exact ⟨by show (10 + 2 ^ 62 : ℤ) ≤ 2 ^ 62 + 10; omega,
        by show (2 ^ 62 + 10 : ℤ) ≤ 10 + 2 ^ 62; omega⟩
    | _ + 2 =>
      cases h
      exact ⟨le_refl (0 : ℤ), le_refl (0 : ℤ)⟩
  range_symbols d r _ h := by
    match d with
    | 0 => cases h
    | 1 =>
      cases h
      exact ⟨⟨trivial, by decide, by decide⟩, ⟨trivial, by decide, by decide⟩⟩
    | _ + 2 =>
      cases h
      exact ⟨trivial, trivial⟩
  constraint_value d v _ hkind := by
    match d with
    | 0 | 1 | _ + 2 => cases hkind
  cse_value a b _ _ h := by cases h
  operands_known d op left right t _ hkind := by
    match d with
    | 0 | 1 | _ + 2 => cases hkind
  add_value d left right t _ hkind := by
    match d with
    | 0 | 1 | _ + 2 => cases hkind
  sub_value d left right t _ hkind := by
    match d with
    | 0 | 1 | _ + 2 => cases hkind

lemma branchExecution_exactSums : branchExecution.ExactSums where
  add d left right _ hkind := by
    match d with
    | 0 | 1 | _ + 2 => cases hkind
  sub d left right _ hkind := by
    match d with
    | 0 | 1 | _ + 2 => cases hkind

/-- The constant zero or the array length, as small integers. -/
def lengthPhi : Phi :=
  ⟨.smi, 2, [(2, some ⟨.constant 0 isInt64_zero, .constant 0 isInt64_zero, .refl false,
    .refl false⟩),
    (0, some ⟨.symbol 0 0 (.refl true), .symbol 0 0 (.refl true), .refl false, .refl false⟩)]⟩

/-- The constant zero or the sum of the length and 2^62, as 64-bit integers. -/
def sumPhi : Phi :=
  ⟨.int64, 2, [(2, some ⟨.constant 0 isInt64_zero, .constant 0 isInt64_zero, .refl false,
    .refl false⟩),
    (1, some ⟨.symbol 0 (2 ^ 62) rfl, .symbol 0 (2 ^ 62) rfl, rfl, rfl⟩)]⟩

end DartSdk.RangeAnalysis
