import DartSdk.Checked
import DartSdk.PhiRanges

/-!
Redundant array bounds checks (`CheckArrayBoundInstr::IsRedundant`) and constraints on definitions
(`ConstraintInstr`). Rewriting through the ranges of symbols moves the bound of the index up and the
length down, so that an index found below the length is below it. The range of a constraint is the
intersection of both ranges, or unknown when the intersection is found to be empty, and a
constraint whose range stays unknown is never executed.
-/

namespace DartSdk.RangeAnalysis

open FlowGraph RangeBoundary

section

open PlatformUtils Checked Bool

/-- The boundary is infinite or a constant outside of the small integers. -/
def RangeBoundary.overflowedSmi : RangeBoundary → Bool
  | constant c _ => decide (c < smiMin) || decide (smiMax < c)
  | symbol _ _ _ => false
  | _ => true

lemma isInt64_of_isSmi {c : ℤ} (h : IsSmi c) : IsInt64 c := by
  unfold IsSmi smiMin smiMax at h
  unfold IsInt64 minInt64 maxInt64
  omega

namespace RangeBoundary

lemma smiSymbol_of_forall (b : RangeBoundary) {valuation : Valuation}
    (h : ∀ d, valuation.Known d) : b.SmiSymbol valuation := by
  cases b with
  | symbol s o ho => exact h s
  | _ => trivial

lemma finite_of_overflowedSmi_lowerBound (b : RangeBoundary) (g : FlowGraph)
    (h : (g.lowerBound b).overflowedSmi = false) : b.isInfinity = false := by
  cases b with
  | negativeInfinity =>
    rw [lowerBound] at h
    cases h
  | positiveInfinity =>
    rw [lowerBound] at h
    cases h
  | _ => rfl

end RangeBoundary

namespace FlowGraph

variable (g : FlowGraph)

/-- The range of the index. That of a constant is inferred when there is none yet. -/
def indexRange (index : ℕ) : Option Range :=
  match (g.definition index).range, (g.definition index).kind with
  | some r, _ => some r
  | none, .constant c h =>
    some ⟨.constant c (isInt64_of_isSmi h), .constant c (isInt64_of_isSmi h), rfl, rfl⟩
  | none, _ => none

/-- One round of the symbolic comparison, on the bound of the index and the length. -/
def comparisonBody : RangeBoundary × RangeBoundary →
    Result ((RangeBoundary × RangeBoundary) ⊕ Bool)
  | (max, length) =>
    if g.dependOnSameSymbol max length then .ok (.inr (decide (max.offset < length.offset)))
    else
      match g.canonicalizeBound .max max with
      | some max => .ok (.inl (max, length))
      | none =>
        match g.canonicalizeBound .min length with
        | some length => .ok (.inl (max, length))
        | none => .ok (.inr false)

/-- The definitions below the two boundaries bound the rounds of the comparison. -/
def compareSymbols (max length : RangeBoundary) : Result Bool :=
  loop g.comparisonBody (max.rank + length.rank + 1) (max, length)

def isRedundant (index : ℕ) (length : RangeBoundary) : Result Bool :=
  match g.indexRange index with
  | none => .ok false
  | some indexRange =>
    if g.lowerBoundIn .smi indexRange.min < 0 then .ok false
    else
      let max := g.fromDefinition index 0 (.refl true)
      let maxUpper := g.upperBound max
      let lengthLower := g.lowerBound length
      if maxUpper.overflowedSmi || lengthLower.overflowedSmi then .ok false
      else if maxUpper.constantValue < lengthLower.constantValue then .ok true
      else
        let canonicalLength := g.canonicalizeBoundary length .positiveInfinity
        if canonicalLength.overflowedSmi then .ok false
        else g.compareSymbols max canonicalLength

end FlowGraph

namespace Execution

variable {g : FlowGraph} (env : Execution g)

lemma eval_fromDefinition (d : ℕ) (o : ℤ) (ho : ValidOffset o) :
    (g.fromDefinition d o ho).eval env.value = env.value d + o := by
  unfold fromDefinition
  split
  · rename_i c hc hkind
    rw [env.constant_value d c hc hkind]
    rfl
  · rfl

lemma eval_canonicalizeBoundary (hexact : env.ExactSums) {a overflow : RangeBoundary}
    (hs : a.SmiSymbol env.toValuation) :
    g.canonicalizeBoundary a overflow = overflow ∨
      (g.canonicalizeBoundary a overflow).eval env.value = a.eval env.value ∧
        (g.canonicalizeBoundary a overflow).SmiSymbol env.toValuation ∧
        (g.canonicalizeBoundary a overflow).isInfinity = a.isInfinity := by
  unfold canonicalizeBoundary
  split
  · rename_i s o ho
    split
    · exact .inl rfl
    · rename_i symbol offset hcanon
      obtain ⟨hval, hsmi⟩ := env.canonicalizeSymbol_value hexact hcanon hs
      split_ifs with hok
      · refine .inr ⟨?_, smiSymbol_fromDefinition env.toEnvironment hsmi, ?_⟩
        · exact (env.eval_fromDefinition symbol offset hok).trans hval
        · unfold fromDefinition
          split <;> rfl
      · exact .inl rfl
  · exact .inr ⟨rfl, hs, rfl⟩

/-- The two boundaries enclose the index from above and the length from below. -/
structure Encloses (index length : ℤ) (bounds : RangeBoundary × RangeBoundary) : Prop where
  above : bounds.1.Above env.value index
  below : bounds.2.Below env.value length
  smiMax : bounds.1.SmiSymbol env.toValuation
  smiLength : bounds.2.SmiSymbol env.toValuation

variable {index length : ℤ}

lemma comparisonBody_spec (hexact : env.ExactSums) {bounds : RangeBoundary × RangeBoundary}
    (h : env.Encloses index length bounds) :
    (∃ answer, g.comparisonBody bounds = .ok (.inr answer) ∧ (answer = true → index < length)) ∨
      ∃ bounds', g.comparisonBody bounds = .ok (.inl bounds') ∧
        env.Encloses index length bounds' ∧
        bounds'.1.rank + bounds'.2.rank < bounds.1.rank + bounds.2.rank := by
  obtain ⟨max, len⟩ := bounds
  obtain ⟨habove, hbelow, hsmax, hslen⟩ := h
  rw [comparisonBody]
  split_ifs with hsame
  · refine .inl ⟨_, rfl, fun hlt => ?_⟩
    obtain ⟨s, o, ho, t, o', ho', rfl, rfl, hval⟩ :=
      env.exists_of_dependOnSameSymbol hsmax hslen hsame
    have hup : index ≤ env.value s + o := habove
    have hdown : env.value t + o' ≤ length := hbelow
    have hoffset : o < o' := of_decide_eq_true hlt
    omega
  · split
    · rename_i max' hmax
      have hmove := env.movesOut_canonicalizeBound hexact hsmax hmax
      have hrank := g.rank_canonicalizeBound_lt hmax
      exact .inr ⟨_, rfl, ⟨hmove.bounds index habove, hbelow, hmove.smi, hslen⟩, by
        dsimp only; omega⟩
    · split
      · rename_i len' hlen
        have hmove := env.movesOut_canonicalizeBound hexact hslen hlen
        have hrank := g.rank_canonicalizeBound_lt hlen
        exact .inr ⟨_, rfl, ⟨habove, hmove.bounds length hbelow, hsmax, hmove.smi⟩, by
          dsimp only; omega⟩
      · exact .inl ⟨false, rfl, nofun⟩

variable {max len b : RangeBoundary}

lemma compareSymbols_spec (hexact : env.ExactSums) (h : env.Encloses index length (max, len)) :
    ∃ answer, g.compareSymbols max len = .ok answer ∧ (answer = true → index < length) := by
  refine loop_spec g.comparisonBody
    (fun n bounds => env.Encloses index length bounds ∧ n = bounds.1.rank + bounds.2.rank)
    (fun answer => answer = true → index < length) ?_ _ ⟨h, rfl⟩ (Nat.lt_succ_self _)
  rintro n bounds ⟨hbounds, rfl⟩
  rcases env.comparisonBody_spec hexact hbounds with hexit | ⟨bounds', hnext, hbounds', hlt⟩
  · exact .inl hexit
  · exact .inr ⟨_, hlt, bounds', hnext, hbounds', rfl⟩

lemma indexRange_below {index : ℕ} {r : Range} (hexecuted : env.executed index)
    (h : g.indexRange index = some r) :
    r.min.Below env.value (env.value index) ∧ r.min.SmiSymbol env.toValuation := by
  unfold indexRange at h
  split at h
  · rename_i r' hr
    cases h
    exact ⟨(env.range_correct index r hexecuted hr).below,
      (env.range_symbols index r hexecuted hr).min⟩
  · rename_i c hc _ hkind
    cases h
    have heq := env.constant_value index c hc hkind
    exact ⟨heq.symm.le, trivial⟩
  · cases h

lemma constantValue_le_of_below {x : ℤ} (hover : b.overflowedSmi = false)
    (hlower : b.IsLower) (h : b.Below env.value x) : b.constantValue ≤ x := by
  cases b with
  | constant c hc => exact h
  | symbol s o ho => cases hlower
  | negativeInfinity => cases hover
  | positiveInfinity => cases hover

lemma le_constantValue_of_above {x : ℤ} (hover : b.overflowedSmi = false)
    (hupper : b.IsUpper) (h : b.Above env.value x) : x ≤ b.constantValue := by
  cases b with
  | constant c hc => exact h
  | symbol s o ho => cases hupper
  | negativeInfinity => cases hover
  | positiveInfinity => cases hover

lemma lt_of_constantBounds (h : env.Encloses index length (max, len))
    (hover : ((g.upperBound max).overflowedSmi || (g.lowerBound len).overflowedSmi) = false)
    (hlt : (g.upperBound max).constantValue < (g.lowerBound len).constantValue) :
    index < length := by
  obtain ⟨hmax, hlen⟩ := or_eq_false_iff.mp hover
  have habove := above_upperBound env.toEnvironment max h.smiMax index h.above
  have hbelow := below_lowerBound env.toEnvironment len h.smiLength length h.below
  have hidx := env.le_constantValue_of_above hmax (isUpper_upperBound max) habove
  have hlength := env.constantValue_le_of_below hlen (isLower_lowerBound len) hbelow
  omega

/-- A check that the code removes always succeeds: the decision is reached, and if it is positive
the index is within the length, for all values of executed definitions that agree with their
recorded ranges and operations. -/
theorem isRedundant_sound (hexact : env.ExactSums) (index : ℕ) (length : RangeBoundary)
    (hindex : env.Known index) (hslen : length.SmiSymbol env.toValuation) :
    ∃ answer, g.isRedundant index length = .ok answer ∧
      (answer = true → 0 ≤ env.value index ∧ env.value index < length.eval env.value) := by
  have hsmax : (g.fromDefinition index 0 (by decide)).SmiSymbol env.toValuation :=
    smiSymbol_fromDefinition env.toEnvironment hindex
  have habove : (g.fromDefinition index 0 (by decide)).Above env.value (env.value index) :=
    above_fromDefinition env.toEnvironment (add_zero _).symm.le
  unfold isRedundant
  split
  · exact ⟨false, rfl, fun h => Bool.noConfusion h⟩
  · rename_i r hr
    dsimp only
    split_ifs with hneg hover hlt hlen
    · exact ⟨false, rfl, fun h => Bool.noConfusion h⟩
    · exact ⟨false, rfl, fun h => Bool.noConfusion h⟩
    all_goals
      obtain ⟨hbelow, hs⟩ := env.indexRange_below hindex.1 hr
      have hsize : RangeSize.smi.min ≤ env.value index := hindex.2.1
      have hlower := lowerBoundIn_le env.toEnvironment hs hbelow hsize
      have hpos : 0 ≤ env.value index := by omega
      have hfinite := length.finite_of_overflowedSmi_lowerBound g
        (or_eq_false_iff.mp (not_eq_true _ ▸ hover)).2
      have hbelowLength := (below_iff hfinite (length.eval env.value)).mpr le_rfl
    · have hless := env.lt_of_constantBounds ⟨habove, hbelowLength, hsmax, hslen⟩
        (not_eq_true _ ▸ hover) hlt
      exact ⟨true, rfl, fun _ => ⟨hpos, hless⟩⟩
    · exact ⟨false, rfl, fun h => Bool.noConfusion h⟩
    · rcases env.eval_canonicalizeBoundary hexact hslen with hinf | ⟨heval, hsym, hinfinite⟩
      · rw [hinf] at hlen
        exact absurd rfl hlen
      · have hbelowCanonical :=
          (below_iff (hinfinite.trans hfinite) (length.eval env.value)).mpr heval.le
        obtain ⟨answer, hanswer, hless⟩ := env.compareSymbols_spec hexact
          ⟨habove, hbelowCanonical, hsmax, hsym⟩
        exact ⟨answer, hanswer, fun h => ⟨hpos, hless h⟩⟩

end Execution

/-- An array length, the length minus one and an index between zero and that. -/
def lastIndexGraph : FlowGraph where
  definition
    | 0 => ⟨.constant 1 isSmi_one, none, 0⟩
    | 1 => ⟨.loadField true, some (.full .smi), 0⟩
    | 2 => ⟨.binarySmiOp .sub 1 0 true, none, 0⟩
    | 3 => ⟨.other, some ⟨.constant 0 isInt64_zero, .symbol 2 0 (.refl true), .refl false,
        .refl false⟩,
        0⟩
    | _ => ⟨.other, none, 0⟩
  cseEqual _ _ := false
  dominates _ _ := true
  constraint_lt d v h := by
    split at h <;> cases h
  binarySmiOp_lt d op left right t h := by
    split at h <;> cases h
    exact ⟨Nat.lt_succ_self 1, Nat.zero_lt_two⟩
  min_lt d r h s o ho hmin := by
    split at h <;> cases h <;> cases hmin
  max_lt d r h s o ho hmax := by
    split at h <;> cases h <;> cases hmax
    exact Nat.lt_succ_self 2

def lastIndexValue : ℕ → ℤ
  | 0 => 1
  | 1 => 10
  | 2 => 9
  | 3 => 4
  | _ => 0

lemma isSmi_lastIndexValue (d : ℕ) : IsSmi (lastIndexValue d) := by
  unfold lastIndexValue
  split <;> exact ⟨by decide, by decide⟩

def lastIndexExecution : Execution lastIndexGraph where
  value := lastIndexValue
  executed _ := True
  constant_value d c h := by
    intro hkind
    match d with
    | 1 | 2 | 3 | _ + 4 => cases hkind
    | 0 =>
      cases hkind
      rfl
  arrayLength_smi d _ _ := isSmi_lastIndexValue d
  range_correct d r _ h := by
    match d with
    | 0 => cases h
    | 1 =>
      cases h
      exact Range.contains_full _ (show smiMin ≤ 10 by decide) (show 10 ≤ smiMax by decide)
    | 2 => cases h
    | 3 =>
      cases h
      exact ⟨show (0 : ℤ) ≤ 4 by decide, show (4 : ℤ) ≤ 9 + 0 by decide⟩
    | _ + 4 => cases h
  range_symbols d r _ _ := ⟨r.min.smiSymbol_of_forall fun d => ⟨trivial, isSmi_lastIndexValue d⟩,
    r.max.smiSymbol_of_forall fun d => ⟨trivial, isSmi_lastIndexValue d⟩⟩
  constraint_value d v _ hkind := by
    match d with
    | 0 | 1 | 2 | 3 | _ + 4 => cases hkind
  cse_value a b _ _ h := by cases h
  operands_known d op left right t _ _ :=
    ⟨⟨trivial, isSmi_lastIndexValue left⟩, ⟨trivial, isSmi_lastIndexValue right⟩⟩
  add_value d left right t _ hkind := by
    match d with
    | 0 | 1 | 2 | 3 | _ + 4 => cases hkind
  sub_value d left right t _ hkind := by
    match d with
    | 0 | 1 | 3 | _ + 4 => cases hkind
    | 2 =>
      cases hkind
      decide

lemma lastIndexExecution_exactSums : lastIndexExecution.ExactSums where
  add d left right _ hkind := by
    match d with
    | 0 | 1 | 2 | 3 | _ + 4 => cases hkind
  sub d left right _ hkind := by
    match d with
    | 0 | 1 | 3 | _ + 4 => cases hkind
    | 2 =>
      cases hkind
      exact ⟨by decide, by decide⟩

/-- The check of the index against the length is removed. -/
theorem isRedundant_lastIndex :
    lastIndexGraph.isRedundant 3 (.symbol 1 0 rfl) = .ok true ∧
      0 ≤ lastIndexExecution.value 3 ∧ lastIndexExecution.value 3 < 10 + 0 := by
  obtain ⟨answer, hanswer, hsound⟩ := lastIndexExecution.isRedundant_sound
    lastIndexExecution_exactSums 3 (.symbol 1 0 rfl) ⟨trivial, isSmi_lastIndexValue 3⟩
    ⟨trivial, isSmi_lastIndexValue 1⟩
  have htrue : lastIndexGraph.isRedundant 3 (.symbol 1 0 rfl) = .ok true := by decide +kernel
  rw [htrue] at hanswer
  exact ⟨htrue, hsound (Except.ok.inj hanswer).symm⟩

end

open PlatformUtils

namespace RangeBoundary

def isMinimumOrBelow (size : RangeSize) : RangeBoundary → Bool
  | negativeInfinity => true
  | constant c _ => decide (c ≤ size.min)
  | _ => false

def isMaximumOrAbove (size : RangeSize) : RangeBoundary → Bool
  | positiveInfinity => true
  | constant c _ => decide (c ≥ size.max)
  | _ => false

end RangeBoundary

namespace FlowGraph

variable (g : FlowGraph)

def intersectionMin (a b : RangeBoundary) : RangeBoundary :=
  if g.equals a b then a
  else if a.isMinimumOrBelow .smi then b
  else if b.isMinimumOrBelow .smi then a
  else
    match g.canonicalizeForComparison a b .min with
    | some (a', b') => if a'.offset ≥ b'.offset then a' else b'
    | none => if g.lowerBoundIn .smi a ≥ g.lowerBoundIn .smi b then a else b

def intersectionMax (a b : RangeBoundary) : RangeBoundary :=
  if g.equals a b then a
  else if a.isMaximumOrAbove .smi then b
  else if b.isMaximumOrAbove .smi then a
  else
    match g.canonicalizeForComparison a b .max with
    | some (a', b') => if a'.offset ≤ b'.offset then a' else b'
    | none => if g.upperBoundIn .smi a ≤ g.upperBoundIn .smi b then a else b

def intersect (r other : Range) : Range :=
  .ofBounds (g.intersectionMin r.min other.min) (g.intersectionMax r.max other.max)

def isUnsatisfiable (r : Range) : Bool :=
  -- Infinity case: [+inf, ...] || [..., -inf]
  decide (r.min = .positiveInfinity) || decide (r.max = .negativeInfinity) ||
  -- Constant case: For example [0, -1].
  decide ((g.constantMin r).constantValue > (g.constantMax r).constantValue) ||
  -- Symbol case: For example [v+1, v].
  (g.dependOnSameSymbol r.min r.max && decide (r.min.offset > r.max.offset))

/-- `ConstraintInstr::InferRange`, on the range of the constrained value. -/
def inferConstraint (valueRange : Option Range) (constraint : Range) : Option Range :=
  match valueRange with
  | none => none
  | some r =>
    let result := g.intersect r constraint
    if g.isUnsatisfiable result then none else some result

/-- An intersection takes one of its boundaries, possibly rewritten for the comparison. -/
def Selects (side : Side) (a b c : RangeBoundary) : Prop :=
  c = a ∨ c = b ∨ ∃ a' b', g.canonicalizeForComparison a b side = some (a', b') ∧ (c = a' ∨ c = b')

lemma selects_intersectionMin (a b : RangeBoundary) :
    g.Selects .min a b (g.intersectionMin a b) := by
  unfold intersectionMin
  cases hcanon : g.canonicalizeForComparison a b .min
  all_goals
    dsimp only
    split_ifs
    all_goals first
      | exact .inl rfl
      | exact .inr (.inl rfl)
      | exact .inr (.inr ⟨_, _, hcanon, .inl rfl⟩)
      | exact .inr (.inr ⟨_, _, hcanon, .inr rfl⟩)

lemma selects_intersectionMax (a b : RangeBoundary) :
    g.Selects .max a b (g.intersectionMax a b) := by
  unfold intersectionMax
  cases hcanon : g.canonicalizeForComparison a b .max
  all_goals
    dsimp only
    split_ifs
    all_goals first
      | exact .inl rfl
      | exact .inr (.inl rfl)
      | exact .inr (.inr ⟨_, _, hcanon, .inl rfl⟩)
      | exact .inr (.inr ⟨_, _, hcanon, .inr rfl⟩)

end FlowGraph

variable {valuation : Valuation}

/-- A finite boundary on a small integer is a 64-bit number. -/
lemma RangeBoundary.isInt64_eval {b : RangeBoundary} (hfin : b.isInfinity = false)
    (hs : b.SmiSymbol valuation) : IsInt64 (b.eval valuation.value) := by
  cases b with
  | negativeInfinity => cases hfin
  | positiveInfinity => cases hfin
  | symbol s o ho => exact isInt64_add_offset hs.2 ho
  | constant c hc => exact hc

variable {x : ℤ}

lemma Range.isInt64_of_contains {r : Range} (hs : r.SmiSymbols valuation)
    (h : r.Contains valuation.value x) : IsInt64 x := by
  have hmin := isInt64_eval r.min_finite hs.min
  have hmax := isInt64_eval r.max_finite hs.max
  have hbelow := (below_iff r.min_finite x).mp h.below
  have habove := (above_iff r.max_finite x).mp h.above
  exact ⟨hmin.1.trans hbelow, habove.trans hmax.2⟩

namespace Execution

variable {g : FlowGraph} (env : Execution g)

lemma selects_spec (hexact : env.ExactSums) {side : Side} {a b c : RangeBoundary}
    (h : g.Selects side a b c) (ha : a.SmiSymbol env.toValuation) (hb : b.SmiSymbol env.toValuation)
    (hfa : a.isInfinity = false) (hfb : b.isInfinity = false) :
    c.isInfinity = false ∧ c.SmiSymbol env.toValuation ∧
      ∀ x, a.Bounds env.value side x → b.Bounds env.value side x → c.Bounds env.value side x := by
  rcases h with rfl | rfl | ⟨a', b', hcanon, hc⟩
  · exact ⟨hfa, ha, fun x hx _ => hx⟩
  · exact ⟨hfb, hb, fun x _ hx => hx⟩
  · obtain ⟨hleft, hright, hsame⟩ := env.canonicalizeForComparison_spec hexact ha hb hcanon
    obtain ⟨s, o, ho, t, o', ho', rfl, rfl, -⟩ :=
      env.exists_of_dependOnSameSymbol hleft.smi hright.smi hsame
    rcases hc with rfl | rfl
    · exact ⟨rfl, hleft.smi, fun x hx _ => hleft.bounds x hx⟩
    · exact ⟨rfl, hright.smi, fun x _ hx => hright.bounds x hx⟩

lemma contains_intersect (hexact : env.ExactSums) {r other : Range}
    (hr : r.SmiSymbols env.toValuation)
    (hother : other.SmiSymbols env.toValuation) :
    (g.intersect r other).SmiSymbols env.toValuation ∧
      ∀ x, r.Contains env.value x → other.Contains env.value x →
        (g.intersect r other).Contains env.value x := by
  obtain ⟨hfmin, hsmin, hmin⟩ := env.selects_spec hexact (g.selects_intersectionMin r.min other.min)
    hr.min hother.min r.min_finite other.min_finite
  obtain ⟨hfmax, hsmax, hmax⟩ := env.selects_spec hexact (g.selects_intersectionMax r.max other.max)
    hr.max hother.max r.max_finite other.max_finite
  rw [intersect, Range.ofBounds_of_finite hfmin hfmax]
  exact ⟨⟨hsmin, hsmax⟩, fun x hx hx' =>
    ⟨hmin x hx.below hx'.below, hmax x hx.above hx'.above⟩⟩

lemma isUnsatisfiable_of_contains {r : Range} (hs : r.SmiSymbols env.toValuation)
    (h : r.Contains env.value x) : g.isUnsatisfiable r = false := by
  have hint64 := Range.isInt64_of_contains hs h
  have hlower : (g.constantMin r).constantValue ≤ x :=
    lowerBoundIn_le env.toEnvironment hs.min h.below hint64.1
  have hupper : x ≤ (g.constantMax r).constantValue :=
    le_upperBoundIn env.toEnvironment hs.max h.above hint64.2
  have hmin : r.min ≠ .positiveInfinity := by
    intro heq
    have hfin := r.min_finite
    rw [heq] at hfin
    cases hfin
  have hmax : r.max ≠ .negativeInfinity := by
    intro heq
    have hfin := r.max_finite
    rw [heq] at hfin
    cases hfin
  have hsymbols : (g.dependOnSameSymbol r.min r.max && decide (r.min.offset > r.max.offset)) =
      false := by
    rw [Bool.and_eq_false_imp]
    intro hsame
    obtain ⟨s, o, ho, t, o', ho', heq, heq', hval⟩ :=
      env.exists_of_dependOnSameSymbol hs.min hs.max hsame
    obtain ⟨hbelow, habove⟩ := h
    rw [heq] at hbelow ⊢
    rw [heq'] at habove ⊢
    have hdown : env.value s + o ≤ x := hbelow
    have hup : x ≤ env.value t + o' := habove
    exact decide_eq_false (by show ¬o > o'; omega)
  unfold isUnsatisfiable
  rw [hsymbols, decide_eq_false hmin, decide_eq_false hmax, decide_eq_false (by omega)]
  rfl

lemma inferConstraint_ne_none (hexact : env.ExactSums) {r constraint : Range}
    (hr : r.SmiSymbols env.toValuation) (hconstr : constraint.SmiSymbols env.toValuation)
    (hx : r.Contains env.value x) (hx' : constraint.Contains env.value x) :
    g.inferConstraint (some r) constraint ≠ none := by
  obtain ⟨hs, hmem⟩ := env.contains_intersect hexact hr hconstr
  have hsat := env.isUnsatisfiable_of_contains hs (hmem x hx hx')
  show (if g.isUnsatisfiable (g.intersect r constraint) = true then none
    else some (g.intersect r constraint)) ≠ none
  rw [hsat, if_neg Bool.false_ne_true]
  exact Option.some_ne_none _

end Execution

inductive Comparison where
  | eq
  | ne
  | lt
  | gt
  | lte
  | gte
  deriving DecidableEq, Repr

namespace Comparison

def holds : Comparison → ℤ → ℤ → Bool
  | eq, x, y => decide (x = y)
  | ne, x, y => decide (x ≠ y)
  | lt, x, y => decide (x < y)
  | gt, x, y => decide (x > y)
  | lte, x, y => decide (x ≤ y)
  | gte, x, y => decide (x ≥ y)

def negate : Comparison → Comparison
  | eq => ne
  | ne => eq
  | lt => gte
  | gt => lte
  | lte => gt
  | gte => lt

def flip : Comparison → Comparison
  | eq => eq
  | ne => ne
  | lt => gt
  | gt => lt
  | lte => gte
  | gte => lte

lemma holds_negate (op : Comparison) (x y : ℤ) : op.negate.holds x y = !op.holds x y := by
  cases op <;>
    simp only [negate, holds, ← decide_not, not_lt, not_le, ne_eq, not_not, gt_iff_lt, ge_iff_le]

lemma holds_flip (op : Comparison) (x y : ℤ) : op.flip.holds x y = op.holds y x := by
  cases op <;> simp [flip, holds, eq_comm]

end Comparison

lemma FlowGraph.isInfinity_fromDefinition (g : FlowGraph) (d : ℕ) (o : ℤ) (ho : ValidOffset o) :
    (g.fromDefinition d o ho).isInfinity = false := by
  unfold fromDefinition
  split <;> rfl

/-- Where a constraint was inserted. The other operand of the comparison is its boundary. -/
inductive ConstraintOrigin where
  /-- At a successor of a branch on a comparison, for its left or its right operand. -/
  | branch (id : ℕ) (kind : Comparison) (isLeftOperand : Bool) (boundary : ℕ) (successor : Bool)
  /-- After a bounds check, for the index. -/
  | checkIndex (length : ℕ)
  /-- After a bounds check, for the length. -/
  | checkLength (index : ℕ)

namespace FlowGraph

variable (g : FlowGraph)

/-- The range of the left operand of a comparison that evaluated to true. -/
def constraintSmiRange (op : Comparison) (boundary : ℕ) : Range :=
  match op with
  | .eq => ⟨g.fromDefinition boundary 0 (.refl true), g.fromDefinition boundary 0 (.refl true),
      g.isInfinity_fromDefinition boundary 0 (.refl true),
      g.isInfinity_fromDefinition boundary 0 (.refl true)⟩
  | .ne => .full .smi
  | .lt => ⟨.minConstant .smi, g.fromDefinition boundary (-1) rfl, .refl false,
      g.isInfinity_fromDefinition boundary (-1) rfl⟩
  | .gt => ⟨g.fromDefinition boundary 1 (.refl true), .maxConstant .smi,
      g.isInfinity_fromDefinition boundary 1 (.refl true), .refl false⟩
  | .lte => ⟨.minConstant .smi, g.fromDefinition boundary 0 (.refl true), .refl false,
      g.isInfinity_fromDefinition boundary 0 (.refl true)⟩
  | .gte => ⟨g.fromDefinition boundary 0 (.refl true), .maxConstant .smi,
      g.isInfinity_fromDefinition boundary 0 (.refl true), .refl false⟩

/-- The range of `ConstrainValueAfterBranch` and `ConstrainValueAfterCheckBound`. -/
def constraintRange : ConstraintOrigin → Range
  | .branch _ kind isLeftOperand boundary successor =>
    -- The constrained value is the left operand; if it is the right one, flip the comparison.
    let op := if isLeftOperand then kind else kind.flip
    g.constraintSmiRange (if successor then op else op.negate) boundary
  | .checkIndex length =>
    ⟨.constant 0 isInt64_zero, g.fromDefinition length (-1) rfl, .refl false,
      g.isInfinity_fromDefinition length (-1) rfl⟩
  | .checkLength index =>
    ⟨g.fromDefinition index 1 (.refl true), .maxConstant .smi,
      g.isInfinity_fromDefinition index 1 (.refl true), .refl false⟩

end FlowGraph

/-- Control came past the constraint with this value: through the branch, or after the bounds check.
The other operand is executed before. -/
def ConstraintOrigin.Passed (valuation : Valuation) (x : ℤ) : ConstraintOrigin → Prop
  | branch _ kind isLeftOperand boundary successor =>
    IsSmi x ∧ valuation.Known boundary ∧
      (if isLeftOperand then kind.holds x (valuation.value boundary)
        else kind.holds (valuation.value boundary) x) = successor
  | checkIndex length => valuation.Known length ∧ 0 ≤ x ∧ x < valuation.value length
  | checkLength index =>
    IsSmi x ∧ valuation.executed index ∧ 0 ≤ valuation.value index ∧ valuation.value index < x

lemma ConstraintOrigin.Passed.isSmi {origin : ConstraintOrigin}
    (h : origin.Passed valuation x) : IsSmi x := by
  cases origin with
  | branch => exact h.1
  | checkIndex length =>
    obtain ⟨hlen, hpos, hlt⟩ := h
    exact ⟨le_trans (by decide) hpos, hlt.le.trans hlen.2.2⟩
  | checkLength index => exact h.1

namespace Execution

variable {g : FlowGraph} (env : Execution g)

lemma contains_constraintSmiRange {op : Comparison} {boundary : ℕ} (hx : IsSmi x)
    (h : op.holds x (env.value boundary) = true) :
    (g.constraintSmiRange op boundary).Contains env.value x := by
  cases op with
  | eq =>
    have heq : x = env.value boundary := of_decide_eq_true h
    exact ⟨below_fromDefinition env.toEnvironment (by omega),
      above_fromDefinition env.toEnvironment (by omega)⟩
  | ne => exact Range.contains_full env.value hx.1 hx.2
  | lt =>
    have hlt : x < env.value boundary := of_decide_eq_true h
    exact ⟨hx.1, above_fromDefinition env.toEnvironment (by omega)⟩
  | gt =>
    have hlt : x > env.value boundary := of_decide_eq_true h
    exact ⟨below_fromDefinition env.toEnvironment (by omega), hx.2⟩
  | lte =>
    have hle : x ≤ env.value boundary := of_decide_eq_true h
    exact ⟨hx.1, above_fromDefinition env.toEnvironment (by omega)⟩
  | gte =>
    have hle : x ≥ env.value boundary := of_decide_eq_true h
    exact ⟨below_fromDefinition env.toEnvironment (by omega), hx.2⟩

lemma smiSymbols_constraintSmiRange (op : Comparison) {boundary : ℕ}
    (h : env.Known boundary) : (g.constraintSmiRange op boundary).SmiSymbols env.toValuation := by
  have hs : ∀ o ho, (g.fromDefinition boundary o ho).SmiSymbol env.toValuation := fun _ _ =>
    smiSymbol_fromDefinition env.toEnvironment h
  cases op with
  | eq => exact ⟨hs 0 rfl, hs 0 rfl⟩
  | ne => exact ⟨trivial, trivial⟩
  | lt => exact ⟨trivial, hs (-1) rfl⟩
  | gt => exact ⟨hs 1 rfl, trivial⟩
  | lte => exact ⟨trivial, hs 0 rfl⟩
  | gte => exact ⟨hs 0 rfl, trivial⟩

lemma contains_constraintRange {origin : ConstraintOrigin} (h : origin.Passed env.toValuation x) :
    (g.constraintRange origin).SmiSymbols env.toValuation ∧
      (g.constraintRange origin).Contains env.value x := by
  cases origin with
  | branch id kind isLeftOperand boundary successor =>
    obtain ⟨hx, hboundary, hholds⟩ := h
    refine ⟨env.smiSymbols_constraintSmiRange _ hboundary, env.contains_constraintSmiRange hx ?_⟩
    have hop : (if isLeftOperand then kind else kind.flip).holds x (env.value boundary) =
        successor := by
      rw [← hholds]
      cases isLeftOperand with
      | true => rfl
      | false => exact kind.holds_flip x (env.value boundary)
    cases successor with
    | true => exact hop
    | false =>
      show Comparison.holds (Comparison.negate _) x (env.value boundary) = true
      rw [Comparison.holds_negate, hop]
      rfl
  | checkIndex length =>
    obtain ⟨hlen, hpos, hlt⟩ := h
    exact ⟨⟨trivial, smiSymbol_fromDefinition env.toEnvironment hlen⟩, hpos,
      above_fromDefinition env.toEnvironment (by omega)⟩
  | checkLength index =>
    obtain ⟨hx, hexecuted, hpos, hlt⟩ := h
    have hidx : IsSmi (env.value index) := ⟨le_trans (by decide) hpos, hlt.le.trans hx.2⟩
    exact ⟨⟨smiSymbol_fromDefinition env.toEnvironment ⟨hexecuted, hidx⟩, trivial⟩,
      below_fromDefinition env.toEnvironment (by omega), hx.2⟩

end Execution

end DartSdk.RangeAnalysis
