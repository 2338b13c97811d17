import DartSdk.RangeConvergence
import DartSdk.UnreachableBlocks

/-!
The range that each kind of definition infers (`Definition::InferRange`). What is not a phi reads
only ranges of definitions before it, so that the definitions of a function are an instance of the
iteration.
-/

namespace DartSdk.RangeAnalysis

open List Bool

open PlatformUtils Nat FlowGraph RangeAnalysis

namespace FlowGraph

variable (g : FlowGraph)

lemma lowerBound_symbol (s : ℕ) (o : ℤ) (ho : ValidOffset o) :
    g.lowerBound (.symbol s o ho) =
      RangeBoundary.add
        (match (g.definition s).range with
          | none => .minConstant .smi
          | some r => (g.lowerBound r.min).clamp .smi)
        (.constant o (isInt64_of_validOffset ho)) .negativeInfinity := by
  rw [lowerBound]
  dsimp only
  split
  · rename_i hr
    rw [hr]
  · rename_i r hr
    rw [hr]

lemma upperBound_symbol (s : ℕ) (o : ℤ) (ho : ValidOffset o) :
    g.upperBound (.symbol s o ho) =
      RangeBoundary.add
        (match (g.definition s).range with
          | none => .maxConstant .smi
          | some r => (g.upperBound r.max).clamp .smi)
        (.constant o (isInt64_of_validOffset ho)) .positiveInfinity := by
  rw [upperBound]
  dsimp only
  split
  · rename_i hr
    rw [hr]
  · rename_i r hr
    rw [hr]

lemma canonicalizeSymbol_eq (symbol : ℕ) (offset : ℤ) :
    g.canonicalizeSymbol symbol offset =
      match (g.definition symbol).kind with
      | .constraint value => g.canonicalizeSymbol value offset
      | .binarySmiOp .add left right _ =>
        match g.smiConstant right, g.smiConstant left with
        | some rhs, _ =>
          if willAddOverflow offset rhs then none else g.canonicalizeSymbol left (offset + rhs)
        | none, some rhs =>
          if willAddOverflow offset rhs then none else g.canonicalizeSymbol right (offset + rhs)
        | none, none => some (symbol, offset)
      | .binarySmiOp .sub left right _ =>
        match g.smiConstant right with
        | some rhs =>
          if willSubOverflow offset rhs then none else g.canonicalizeSymbol left (offset - rhs)
        | none => some (symbol, offset)
      | _ => some (symbol, offset) := by
  rw [canonicalizeSymbol]
  split
  · rename_i hkind
    simp only [hkind]
  · rename_i left right t hkind
    cases hright : g.smiConstant right with
    | some rhs => simp only [hkind, hright]
    | none => cases hleft : g.smiConstant left with
      | some rhs => simp only [hkind, hright, hleft]
      | none => simp only [hkind, hright, hleft]
  · rename_i left right t hkind
    cases hright : g.smiConstant right with
    | some rhs => simp only [hkind, hright]
    | none => simp only [hkind, hright]
  · rename_i hconstr hadd hsub
    split
    · rename_i hkind
      exact absurd hkind (hconstr _)
    · rename_i hkind
      exact absurd hkind (hadd _ _ _)
    · rename_i hkind
      exact absurd hkind (hsub _ _ _)
    · rfl

lemma canonicalizeLoop_eq (side : Side) (b c : RangeBoundary) :
    g.canonicalizeLoop side b c =
      if g.dependOnSameSymbol b c then some (b, c)
      else
        match g.canonicalizeBound side b with
        | some b' => g.canonicalizeLoop side b' c
        | none =>
          match g.canonicalizeBound side c with
          | some c' => g.canonicalizeLoop side b c'
          | none => none := by
  rw [canonicalizeLoop]
  split_ifs
  · rfl
  · split
    · rename_i b' hb
      dsimp only
      rw [hb]
    · rename_i hb
      rw [hb]
      dsimp only
      split
      · rename_i c' hc
        rw [hc]
      · rename_i hc
        rw [hc]

end FlowGraph

namespace SameBelow

variable {d : ℕ} {g h : FlowGraph} (hgh : SameBelow d g h)

include hgh

variable {b : RangeBoundary}

lemma lowerBound (hb : b.rank ≤ d) : g.lowerBound b = h.lowerBound b := by
  induction hn : b.rank using Nat.strong_induction_on generalizing b with
  | _ n ih =>
    cases b with
    | negativeInfinity => rw [lowerBound, lowerBound]
    | positiveInfinity => rw [lowerBound, lowerBound]
    | constant c hc => rw [lowerBound, lowerBound]
    | symbol s o ho =>
      have hrange := hgh.range s hb
      rw [lowerBound_symbol, lowerBound_symbol, hrange]
      cases hr : (h.definition s).range with
      | none => rfl
      | some r =>
        have hlt := h.rank_min_lt hr
        have hle : r.min.rank ≤ d := (Nat.lt_succ_iff.mp hlt).trans (Nat.le_of_succ_le hb)
        dsimp only
        rw [ih r.min.rank (hn ▸ hlt) hle rfl]

lemma upperBound (hb : b.rank ≤ d) : g.upperBound b = h.upperBound b := by
  induction hn : b.rank using Nat.strong_induction_on generalizing b with
  | _ n ih =>
    cases b with
    | negativeInfinity => rw [upperBound, upperBound]
    | positiveInfinity => rw [upperBound, upperBound]
    | constant c hc => rw [upperBound, upperBound]
    | symbol s o ho =>
      have hrange := hgh.range s hb
      rw [upperBound_symbol, upperBound_symbol, hrange]
      cases hr : (h.definition s).range with
      | none => rfl
      | some r =>
        have hlt := h.rank_max_lt hr
        have hle : r.max.rank ≤ d := (Nat.lt_succ_iff.mp hlt).trans (Nat.le_of_succ_le hb)
        dsimp only
        rw [ih r.max.rank (hn ▸ hlt) hle rfl]

lemma fromDefinition (e : ℕ) (o : ℤ) (ho : ValidOffset o) :
    g.fromDefinition e o ho = h.fromDefinition e o ho := by
  unfold FlowGraph.fromDefinition
  rw [hgh.kind e]

lemma isArrayLength (e : ℕ) : g.isArrayLength e = h.isArrayLength e := by
  unfold FlowGraph.isArrayLength
  rw [hgh.unwrapConstraint e, hgh.kind]

lemma smiConstant (e : ℕ) : g.smiConstant e = h.smiConstant e := by
  unfold FlowGraph.smiConstant
  rw [hgh.kind e]

lemma canonicalizeSymbol (symbol : ℕ) (offset : ℤ) :
    g.canonicalizeSymbol symbol offset = h.canonicalizeSymbol symbol offset := by
  induction symbol using Nat.strong_induction_on generalizing offset with
  | _ symbol ih =>
    rw [canonicalizeSymbol_eq, canonicalizeSymbol_eq, hgh.kind symbol]
    split
    · rename_i value hkind
      exact ih value (h.constraint_lt symbol value hkind) offset
    · rename_i left right t hkind
      obtain ⟨hleft, hright⟩ := h.binarySmiOp_lt symbol _ left right t hkind
      rw [hgh.smiConstant, hgh.smiConstant]
      split
      · rw [ih left hleft]
      · rw [ih right hright]
      · rfl
    · rename_i left right t hkind
      obtain ⟨hleft, -⟩ := h.binarySmiOp_lt symbol _ left right t hkind
      rw [hgh.smiConstant]
      split
      · rw [ih left hleft]
      · rfl
    · rfl

lemma canonicalizeBoundary (b overflow : RangeBoundary) :
    g.canonicalizeBoundary b overflow = h.canonicalizeBoundary b overflow := by
  unfold FlowGraph.canonicalizeBoundary
  split
  · rw [hgh.canonicalizeSymbol]
    split
    · rfl
    · split_ifs
      · exact hgh.fromDefinition _ _ _
      · rfl
  · rfl

lemma canonicalizeBound (side : Side) (hb : b.rank ≤ d) :
    g.canonicalizeBound side b = h.canonicalizeBound side b := by
  cases b with
  | symbol s o ho =>
    unfold canonicalizeBound
    dsimp only
    rw [hgh.range s hb]
    simp only [hgh.fromDefinition, hgh.canonicalizeBoundary]
  | _ => rfl

variable {c : RangeBoundary}

lemma canonicalizeLoop (side : Side) (hb : b.rank ≤ d) (hc : c.rank ≤ d) :
    g.canonicalizeLoop side b c = h.canonicalizeLoop side b c := by
  induction hn : b.rank + c.rank using Nat.strong_induction_on generalizing b c with
  | _ n ih =>
    rw [canonicalizeLoop_eq, canonicalizeLoop_eq, hgh.dependOnSameSymbol,
      hgh.canonicalizeBound side hb, hgh.canonicalizeBound side hc]
    split_ifs
    · rfl
    · split
      · rename_i b' hb'
        have hlt := h.rank_canonicalizeBound_lt hb'
        exact ih _ (by omega) (by omega) hc rfl
      · split
        · rename_i c' hc'
          have hlt := h.rank_canonicalizeBound_lt hc'
          exact ih _ (by omega) hb (by omega) rfl
        · rfl

lemma canonicalizeForComparison (side : Side) (hb : b.rank ≤ d) (hc : c.rank ≤ d) :
    g.canonicalizeForComparison b c side = h.canonicalizeForComparison b c side := by
  unfold FlowGraph.canonicalizeForComparison
  split
  · exact hgh.canonicalizeLoop side hb hc
  · rfl

lemma intersectionMin (hb : b.rank ≤ d) (hc : c.rank ≤ d) :
    g.intersectionMin b c = h.intersectionMin b c := by
  unfold FlowGraph.intersectionMin FlowGraph.lowerBoundIn
  rw [hgh.equals, hgh.canonicalizeForComparison .min hb hc, hgh.lowerBound hb, hgh.lowerBound hc]

lemma intersectionMax (hb : b.rank ≤ d) (hc : c.rank ≤ d) :
    g.intersectionMax b c = h.intersectionMax b c := by
  unfold FlowGraph.intersectionMax FlowGraph.upperBoundIn
  rw [hgh.equals, hgh.canonicalizeForComparison .max hb hc, hgh.upperBound hb, hgh.upperBound hc]

variable {r : Range}

section

variable (hr : r.SymbolsBelow d)

include hr

lemma intersect {other : Range} (hother : other.SymbolsBelow d) :
    g.intersect r other = h.intersect r other := by
  unfold FlowGraph.intersect
  rw [hgh.intersectionMin hr.min hother.min, hgh.intersectionMax hr.max hother.max]

lemma isUnsatisfiable : g.isUnsatisfiable r = h.isUnsatisfiable r := by
  unfold FlowGraph.isUnsatisfiable FlowGraph.constantMin FlowGraph.constantMax
  rw [hgh.lowerBound hr.min, hgh.upperBound hr.max, hgh.dependOnSameSymbol]

lemma constantMin : g.constantMin r = h.constantMin r := by
  unfold FlowGraph.constantMin
  rw [hgh.lowerBound hr.min]

lemma constantMax : g.constantMax r = h.constantMax r := by
  unfold FlowGraph.constantMax
  rw [hgh.upperBound hr.max]

lemma constantAbsMax : g.constantAbsMax r = h.constantAbsMax r := by
  unfold FlowGraph.constantAbsMax
  rw [hgh.constantMin hr, hgh.constantMax hr]

lemma constantAbsMin : g.constantAbsMin r = h.constantAbsMin r := by
  unfold FlowGraph.constantAbsMin
  rw [hgh.constantMin hr, hgh.constantMax hr]

lemma onlyGreaterThanOrEqualTo (x : ℤ) :
    g.onlyGreaterThanOrEqualTo r x = h.onlyGreaterThanOrEqualTo r x := by
  unfold FlowGraph.onlyGreaterThanOrEqualTo
  rw [hgh.lowerBound hr.min]

lemma onlyLessThanOrEqualTo (x : ℤ) :
    g.onlyLessThanOrEqualTo r x = h.onlyLessThanOrEqualTo r x := by
  unfold FlowGraph.onlyLessThanOrEqualTo
  rw [hgh.upperBound hr.max]

end

lemma leftBoundary (leftDefn : Option ℕ) (b : RangeBoundary) :
    g.leftBoundary leftDefn b = h.leftBoundary leftDefn b := by
  unfold FlowGraph.leftBoundary
  simp only [hgh.fromDefinition, hgh.isArrayLength]

lemma symbolicAdd (b c : RangeBoundary) : g.symbolicAdd b c = h.symbolicAdd b c := by
  simp only [FlowGraph.symbolicAdd, FlowGraph.addToSymbol, hgh.fromDefinition]

lemma symbolicSub (b c : RangeBoundary) : g.symbolicSub b c = h.symbolicSub b c := by
  simp only [FlowGraph.symbolicSub, hgh.fromDefinition]

section Operands

variable {left right : Range} (hleft : left.SymbolsBelow d) (hright : right.SymbolsBelow d)

include hleft hright

lemma mul : g.mul left right = h.mul left right := by
  have hsign : (g.onlyPositiveOrZero left right || g.onlyNegativeOrZero left right) =
      (h.onlyPositiveOrZero left right || h.onlyNegativeOrZero left right) := by
    unfold FlowGraph.onlyPositiveOrZero FlowGraph.onlyNegativeOrZero
    rw [hgh.onlyGreaterThanOrEqualTo hleft, hgh.onlyGreaterThanOrEqualTo hright,
      hgh.onlyLessThanOrEqualTo hleft, hgh.onlyLessThanOrEqualTo hright]
  have hproduct : g.ProductInRange left right ↔ h.ProductInRange left right := by
    unfold FlowGraph.ProductInRange
    rw [hgh.constantAbsMax hleft, hgh.constantAbsMax hright]
  unfold FlowGraph.mul
  rw [hsign]
  by_cases hp : g.ProductInRange left right
  · rw [dif_pos hp, dif_pos (hproduct.mp hp)]
    simp only [hgh.constantAbsMax hleft, hgh.constantAbsMax hright, hgh.constantAbsMin hleft,
      hgh.constantAbsMin hright]
  · rw [dif_neg hp, dif_neg fun hp' => hp (hproduct.mpr hp')]

lemma bitwiseOp : g.bitwiseOp left right = h.bitwiseOp left right := by
  simp only [FlowGraph.bitwiseOp, FlowGraph.bitSize, FlowGraph.isPositive,
    hgh.onlyGreaterThanOrEqualTo hleft, hgh.onlyGreaterThanOrEqualTo hright, hgh.constantMin hleft,
    hgh.constantMin hright, hgh.constantMax hleft, hgh.constantMax hright]
  all_goals rfl

/-- The range of an operation depends only on definitions before the ones its operands name. -/
lemma binaryOp (op : Token) (leftDefn : Option ℕ) :
    g.binaryOp op left right leftDefn = h.binaryOp op left right leftDefn := by
  unfold FlowGraph.binaryOp FlowGraph.binaryOpBounds
  congr 1
  cases op with
  | add =>
    simp only [FlowGraph.add, hgh.symbolicAdd, hgh.leftBoundary, hgh.lowerBound hleft.min,
      hgh.lowerBound hright.min, hgh.upperBound hleft.max, hgh.upperBound hright.max]
  | sub =>
    simp only [FlowGraph.sub, hgh.symbolicSub, hgh.leftBoundary, hgh.lowerBound hleft.min,
      hgh.lowerBound hright.min, hgh.upperBound hleft.max, hgh.upperBound hright.max]
  | mul => exact congrArg some (hgh.mul hleft hright)
  | truncDiv =>
    simp only [FlowGraph.truncDiv, hgh.onlyGreaterThanOrEqualTo hleft,
      hgh.onlyGreaterThanOrEqualTo hright, hgh.constantAbsMax hleft, hgh.constantAbsMax hright,
      hgh.constantAbsMin hleft, hgh.constantAbsMin hright]
  | mod => rfl
  | shl =>
    simp only [FlowGraph.shl, FlowGraph.maxCount, FlowGraph.minCount, hgh.constantMin hleft,
      hgh.constantMin hright, hgh.constantMax hleft, hgh.constantMax hright]
  | shr =>
    simp only [FlowGraph.shr, FlowGraph.maxCount, FlowGraph.minCount, hgh.constantMin hleft,
      hgh.constantMin hright, hgh.constantMax hleft, hgh.constantMax hright]
  | bitAnd =>
    simp only [FlowGraph.and, hgh.bitwiseOp hleft hright, hgh.constantMin hleft,
      hgh.constantMin hright, hgh.constantMax hleft, hgh.constantMax hright]
  | bitOr => exact congrArg some (hgh.bitwiseOp hleft hright)
  | bitXor => exact congrArg some (hgh.bitwiseOp hleft hright)

end Operands

end SameBelow

namespace FlowGraph

variable (g : FlowGraph)

lemma rank_canonicalizeLoop_le {side : Side} {a b a' b' : RangeBoundary}
    (h : g.canonicalizeLoop side a b = some (a', b')) : a'.rank ≤ a.rank ∧ b'.rank ≤ b.rank := by
  induction hn : a.rank + b.rank using Nat.strong_induction_on generalizing a b with
  | _ n ih =>
    rw [canonicalizeLoop_eq] at h
    split_ifs at h
    · cases h
      exact ⟨le_rfl, le_rfl⟩
    · split at h
      · rename_i a1 ha1
        have hlt := g.rank_canonicalizeBound_lt ha1
        obtain ⟨hleft, hright⟩ := ih _ (by omega) h rfl
        exact ⟨by omega, hright⟩
      · split at h
        · rename_i b1 hb1
          have hlt := g.rank_canonicalizeBound_lt hb1
          obtain ⟨hleft, hright⟩ := ih _ (by omega) h rfl
          exact ⟨hleft, by omega⟩
        · cases h

lemma Selects.rank_le {g : FlowGraph} {side : Side} {a b c : RangeBoundary} {d : ℕ}
    (h : g.Selects side a b c) (ha : a.rank ≤ d) (hb : b.rank ≤ d) : c.rank ≤ d := by
  rcases h with rfl | rfl | ⟨a', b', hcanon, hc⟩
  · exact ha
  · exact hb
  · unfold canonicalizeForComparison at hcanon
    split at hcanon
    · obtain ⟨hleft, hright⟩ := g.rank_canonicalizeLoop_le hcanon
      rcases hc with rfl | rfl
      · exact hleft.trans ha
      · exact hright.trans hb
    · cases hcanon

lemma symbolsBelow_intersect {r other : Range} {d : ℕ} (hr : r.SymbolsBelow d)
    (hother : other.SymbolsBelow d) : (g.intersect r other).SymbolsBelow d :=
  Range.symbolsBelow_ofBounds
    ((g.selects_intersectionMin r.min other.min).rank_le hr.min hother.min)
    ((g.selects_intersectionMax r.max other.max).rank_le hr.max hother.max)

lemma symbolsBelow_inferConstraint {valueRange : Option Range} {constraint result : Range} {d : ℕ}
    (hvalue : ∀ r, valueRange = some r → r.SymbolsBelow d) (hconstraint : constraint.SymbolsBelow d)
    (h : g.inferConstraint valueRange constraint = some result) : result.SymbolsBelow d := by
  cases valueRange with
  | none => cases h
  | some r =>
    unfold inferConstraint at h
    dsimp only at h
    split_ifs at h
    cases h
    exact g.symbolsBelow_intersect (hvalue r rfl) hconstraint

end FlowGraph

lemma RangeBoundary.rank_clamp {b : RangeBoundary} (size : RangeSize) :
    (b.clamp size).rank ≤ b.rank := by
  cases b with
  | constant c hc =>
    rw [RangeBoundary.clamp_constant]
    split_ifs <;> exact le_rfl
  | _ => exact le_rfl

lemma RangeBoundary.rank_add (a b : RangeBoundary) {overflow : RangeBoundary}
    (h : overflow.rank = 0) : (RangeBoundary.add a b overflow).rank = 0 := by
  unfold RangeBoundary.add
  split
  · split_ifs
    · rfl
    · exact h
  · exact h

lemma RangeBoundary.rank_sub (a b : RangeBoundary) {overflow : RangeBoundary}
    (h : overflow.rank = 0) : (RangeBoundary.sub a b overflow).rank = 0 := by
  unfold RangeBoundary.sub
  split
  · split_ifs
    · rfl
    · exact h
  · exact h

lemma RangeBoundary.rank_shl (b : RangeBoundary) (count : ℤ) {overflow : RangeBoundary}
    (h : overflow.rank = 0) : (RangeBoundary.shl b count overflow).rank = 0 := by
  unfold RangeBoundary.shl
  dsimp only
  split_ifs
  all_goals first
    | rfl
    | exact h

namespace FlowGraph

variable (g : FlowGraph)

lemma rank_symbolicAdd_le {b c r : RangeBoundary} {d : ℕ} (hb : b.rank ≤ d) (hc : c.rank ≤ d)
    (h : g.symbolicAdd b c = some r) : r.rank ≤ d := by
  unfold symbolicAdd addToSymbol at h
  split at h
  · split_ifs at h
    cases h
    exact (g.rank_fromDefinition_le _ _ _).trans hb
  · split_ifs at h
    cases h
    exact (g.rank_fromDefinition_le _ _ _).trans hc
  · cases h

lemma rank_symbolicSub_le {b c r : RangeBoundary} {d : ℕ} (hb : b.rank ≤ d)
    (h : g.symbolicSub b c = some r) : r.rank ≤ d := by
  unfold symbolicSub at h
  split at h
  · split_ifs at h
    cases h
    exact (g.rank_fromDefinition_le _ _ _).trans hb
  · cases h

lemma rank_leftBoundary_le {leftDefn : Option ℕ} {b : RangeBoundary} {d : ℕ}
    (hdefn : ∀ e, leftDefn = some e → e < d) (hb : b.rank ≤ d) :
    (g.leftBoundary leftDefn b).rank ≤ d := by
  unfold leftBoundary
  split
  · exact hb
  · rename_i e
    split_ifs
    · exact (g.rank_fromDefinition_le e 0 _).trans (hdefn e rfl)
    · exact hb

lemma rank_getD_le {x : Option RangeBoundary} {y : RangeBoundary} {d : ℕ}
    (hx : ∀ r, x = some r → r.rank ≤ d) (hy : y.rank = 0) : (x.getD y).rank ≤ d := by
  cases x with
  | none => exact hy.le.trans (Nat.zero_le d)
  | some r => exact hx r rfl

lemma rank_constantMax (r : Range) : (g.constantMax r).rank = 0 := by
  show ((g.upperBound r.max).clamp .int64).rank = 0
  rw [(isUpper_upperBound r.max).clamp]
  rfl

lemma rank_bitwiseOp (left right : Range) :
    (g.bitwiseOp left right).1.rank = 0 ∧ (g.bitwiseOp left right).2.rank = 0 := by
  unfold bitwiseOp
  dsimp only
  split_ifs <;> exact ⟨rfl, rfl⟩

/-- Only additions and subtractions keep symbols, those of their operands or the left operand. -/
lemma symbolsBelow_binaryOp {op : Token} {left right result : Range} {leftDefn : Option ℕ} {d : ℕ}
    (hleft : left.SymbolsBelow d) (hright : right.SymbolsBelow d)
    (hdefn : ∀ e, leftDefn = some e → e < d)
    (h : g.binaryOp op left right leftDefn = some result) : result.SymbolsBelow d := by
  unfold binaryOp at h
  obtain ⟨bounds, hbounds, rfl⟩ := Option.map_eq_some_iff.mp h
  suffices hrank : bounds.1.rank ≤ d ∧ bounds.2.rank ≤ d from
    Range.symbolsBelow_ofBounds hrank.1 hrank.2
  have hzero : ∀ b : RangeBoundary, b.rank = 0 → b.rank ≤ d :=
    fun b hb => hb.le.trans (Nat.zero_le d)
  unfold binaryOpBounds at hbounds
  cases op with
  | add =>
    cases hbounds
    have hmin := g.rank_leftBoundary_le hdefn hleft.min
    have hmax := g.rank_leftBoundary_le hdefn hleft.max
    exact ⟨rank_getD_le (fun _ hr => g.rank_symbolicAdd_le hmin hright.min hr)
        (RangeBoundary.rank_add _ _ rfl),
      rank_getD_le (fun _ hr => g.rank_symbolicAdd_le hmax hright.max hr)
        (RangeBoundary.rank_add _ _ rfl)⟩
  | sub =>
    cases hbounds
    have hmin := g.rank_leftBoundary_le hdefn hleft.min
    have hmax := g.rank_leftBoundary_le hdefn hleft.max
    exact ⟨rank_getD_le (fun _ hr => g.rank_symbolicSub_le hmin hr)
        (RangeBoundary.rank_sub _ _ rfl),
      rank_getD_le (fun _ hr => g.rank_symbolicSub_le hmax hr) (RangeBoundary.rank_sub _ _ rfl)⟩
  | mul =>
    cases hbounds
    unfold mul
    dsimp only
    split_ifs <;> exact ⟨Nat.zero_le d, Nat.zero_le d⟩
  | truncDiv =>
    unfold truncDiv at hbounds
    split_ifs at hbounds <;> cases hbounds <;> exact ⟨Nat.zero_le d, Nat.zero_le d⟩
  | mod =>
    cases hbounds
    exact ⟨Nat.zero_le d, Nat.zero_le d⟩
  | shl =>
    cases hbounds
    refine ⟨hzero _ (RangeBoundary.rank_shl _ _ ?_), hzero _ (RangeBoundary.rank_shl _ _ ?_)⟩ <;>
      split_ifs <;> rfl
  | shr =>
    cases hbounds
    exact ⟨Nat.zero_le d, Nat.zero_le d⟩
  | bitAnd =>
    cases hbounds
    unfold FlowGraph.and
    split_ifs
    · exact ⟨Nat.zero_le d, hzero _ (g.rank_constantMax right)⟩
    · exact ⟨Nat.zero_le d, hzero _ (g.rank_constantMax left)⟩
    · exact ⟨hzero _ (g.rank_bitwiseOp left right).1, hzero _ (g.rank_bitwiseOp left right).2⟩
  | bitOr =>
    cases hbounds
    exact ⟨hzero _ (g.rank_bitwiseOp left right).1, hzero _ (g.rank_bitwiseOp left right).2⟩
  | bitXor =>
    cases hbounds
    exact ⟨hzero _ (g.rank_bitwiseOp left right).1, hzero _ (g.rank_bitwiseOp left right).2⟩

end FlowGraph

/-! ### The inference of a function -/

lemma Range.SymbolsBelow.mono {r : Range} {d d' : ℕ} (h : r.SymbolsBelow d) (hle : d ≤ d') :
    r.SymbolsBelow d' :=
  ⟨h.min.trans hle, h.max.trans hle⟩

instance (r : Range) (d : ℕ) : Decidable (r.SymbolsBelow d) :=
  decidable_of_iff (r.min.rank ≤ d ∧ r.max.rank ≤ d) ⟨fun h => ⟨h.1, h.2⟩, fun h => ⟨h.min, h.max⟩⟩

/-- What the range of a definition is inferred from. -/
inductive InferenceRule where
  /-- A constant, a load or any other definition whose range is known from the start. -/
  | fixed (r : Range)
  | constraint (value : ℕ) (range : Range)
  | binary (instr : BinaryIntegerOp) (right : ℕ)
  | phi (size : RangeSize) (block : ℕ) (inputs : List ℕ)

/-- Apart from the inputs of phis, what is used comes before. -/
def InferenceRule.UsesBelow (d : ℕ) : InferenceRule → Prop
  | fixed r => r.SymbolsBelow d
  | constraint value range => value < d ∧ range.SymbolsBelow d
  | binary instr right => instr.left < d ∧ right < d
  | phi _ _ _ => True

def InferenceRule.phiSize : InferenceRule → Option RangeSize
  | phi size _ _ => some size
  | _ => none

section Operands

variable (g : FlowGraph) (type : ℕ → ValueType)

def getIntRange (d : ℕ) : Option Range :=
  match (g.definition d).range, type d with
  | some r, _ => some r
  | none, .other => some (.full .int64)
  | none, _ => none

def getInputRange (size : RangeSize) (d : ℕ) : Option Range :=
  match size with
  | .smi => getSmiRange g type d
  | .int32 => (g.definition d).range
  | .int64 => getIntRange g type d

/-- The ranges that the operands of the classes of binary operations are read with. -/
def operandRange (cls : BinaryIntegerOpClass) (d : ℕ) : Option Range :=
  match cls with
  | .binarySmiOp => getSmiRange g type d
  | .binaryInt32Op => getSmiRange g type d
  | .binaryInt64Op => (g.definition d).range

/-- `Definition::InferRange` of the definitions of the rule; none if the range stays unknown. -/
def InferenceRule.infer : InferenceRule → Option Range
  | fixed r => some r
  | constraint value range => g.inferConstraint (getSmiRange g type value) range
  | binary instr right =>
    (g.inferRangeHelper instr (operandRange g type instr.cls instr.left)
      (operandRange g type instr.cls right) none).bind Prod.fst
  | phi size block inputs =>
    g.inferPhi ⟨size, block, inputs.map fun input => (input, getInputRange g type size input)⟩

end Operands

lemma symbolsBelow_getSmiRange {g : FlowGraph} {type : ℕ → ValueType} {d : ℕ} {r : Range}
    (h : getSmiRange g type d = some r) : r.SymbolsBelow d := by
  unfold getSmiRange at h
  split at h
  · rename_i hr
    cases h
    exact symbolsBelow hr
  · cases h
  · cases h
    exact ⟨zero_le d, zero_le d⟩

lemma symbolsBelow_operandRange {g : FlowGraph} {type : ℕ → ValueType} {cls : BinaryIntegerOpClass}
    {d : ℕ} {r : Range} (h : operandRange g type cls d = some r) : r.SymbolsBelow d := by
  cases cls with
  | binarySmiOp => exact symbolsBelow_getSmiRange h
  | binaryInt32Op => exact symbolsBelow_getSmiRange h
  | binaryInt64Op => exact symbolsBelow h

namespace SameBelow

variable {d : ℕ} {g h : FlowGraph} (hgh : SameBelow d g h) (type : ℕ → ValueType)

include hgh

lemma getSmiRange {e : ℕ} (he : e < d) :
    RangeAnalysis.getSmiRange g type e = RangeAnalysis.getSmiRange h type e := by
  unfold RangeAnalysis.getSmiRange
  rw [hgh.range e he]

lemma operandRange (cls : BinaryIntegerOpClass) {e : ℕ} (he : e < d) :
    RangeAnalysis.operandRange g type cls e = RangeAnalysis.operandRange h type cls e := by
  cases cls with
  | binarySmiOp => exact hgh.getSmiRange type he
  | binaryInt32Op => exact hgh.getSmiRange type he
  | binaryInt64Op => exact hgh.range e he

lemma inferConstraint {valueRange : Option Range} {constraint : Range}
    (hval : ∀ r, valueRange = some r → r.SymbolsBelow d) (hconstr : constraint.SymbolsBelow d) :
    g.inferConstraint valueRange constraint = h.inferConstraint valueRange constraint := by
  cases valueRange with
  | none => rfl
  | some r =>
    unfold FlowGraph.inferConstraint
    dsimp only
    rw [hgh.intersect (hval r rfl) hconstr,
      hgh.isUnsatisfiable (h.symbolsBelow_intersect (hval r rfl) hconstr)]

lemma infer {rule : InferenceRule} (hrule : rule.UsesBelow d) (hphi : rule.phiSize = none) :
    rule.infer g type = rule.infer h type := by
  cases rule with
  | fixed r => rfl
  | constraint value constraint =>
    obtain ⟨hval, hconstr⟩ := hrule
    show g.inferConstraint (RangeAnalysis.getSmiRange g type value) constraint =
      h.inferConstraint (RangeAnalysis.getSmiRange h type value) constraint
    rw [hgh.getSmiRange type hval]
    exact hgh.inferConstraint
      (fun r hr => (symbolsBelow_getSmiRange hr).mono hval.le) hconstr
  | binary instr right =>
    obtain ⟨hleft, hright⟩ := hrule
    unfold InferenceRule.infer FlowGraph.inferRangeHelper
    dsimp only
    rw [hgh.operandRange type instr.cls hleft, hgh.operandRange type instr.cls hright]
    split
    · rename_i l r hl hr
      rw [hgh.binaryOp ((symbolsBelow_operandRange hl).mono hleft.le)
        ((symbolsBelow_operandRange hr).mono hright.le)]
      simp only [Option.bind_map, Function.comp_def]
    · rfl
  | phi size block inputs => cases hphi

end SameBelow

/-- A function with its integer definitions in reverse postorder. -/
structure AnalyzedFunction where
  definitions : List ℕ
  sorted : definitions.Pairwise (· < ·)
  type : ℕ → ValueType
  rule : ℕ → InferenceRule
  usesBelow : ∀ d, (rule d).UsesBelow d

namespace AnalyzedFunction

variable (f : AnalyzedFunction)

/-- The iteration over the definitions. A range whose symbol is not before the definition would be
cyclic. -/
def integerDefinitions : IntegerDefinitions where
  definitions := f.definitions
  sorted := f.sorted
  phiSize d := (f.rule d).phiSize
  infer g d := ((f.rule d).infer g f.type).bind fun r =>
    if h : r.SymbolsBelow d then some ⟨r, h⟩ else none
  infer_eq d hphi g h hgh := by
    rw [hgh.infer f.type (f.usesBelow d) hphi]

end AnalyzedFunction

namespace FlowGraph

variable (g : FlowGraph)

lemma rank_ensureAcyclicSymbol_le {block d : ℕ} {b limit : RangeBoundary} (hlimit : limit.rank = 0)
    (hdominates : ∀ s, g.dominatesPhi (g.definition s).block block = true → s < d) :
    (g.ensureAcyclicSymbol block b limit).rank ≤ d := by
  unfold ensureAcyclicSymbol
  split
  · rename_i s o ho
    dsimp only
    split_ifs with hs hunwrapped
    · exact hdominates s hs
    · exact (g.rank_fromDefinition_le _ _ _).trans (hdominates _ hunwrapped.2)
    · exact hlimit.le.trans (Nat.zero_le d)
  · rename_i hsymbol
    cases b with
    | symbol s o ho => exact absurd rfl (hsymbol s o ho)
    | _ => exact Nat.zero_le d

lemma symbolsBelow_setMax {r : Range} {b : RangeBoundary} {d : ℕ} (hb : b.rank ≤ d)
    (hr : r.min.rank ≤ d) : (r.setMax b).SymbolsBelow d := by
  unfold Range.setMax
  split_ifs
  · exact ⟨hr, hb⟩
  · exact ⟨Nat.zero_le d, Nat.zero_le d⟩

lemma symbolsBelow_inferPhi {phi : Phi} {r : Range} {d : ℕ}
    (hdominates : ∀ s, g.dominatesPhi (g.definition s).block phi.block = true → s < d)
    (h : g.inferPhi phi = some r) : r.SymbolsBelow d := by
  unfold inferPhi at h
  obtain ⟨joined, -, rfl⟩ := Option.map_eq_some_iff.mp h
  refine symbolsBelow_setMax (g.rank_ensureAcyclicSymbol_le rfl hdominates) ?_
  have hmin : (g.ensureAcyclicSymbol phi.block joined.min (.minConstant .smi)).rank ≤ d :=
    g.rank_ensureAcyclicSymbol_le rfl hdominates
  unfold Range.setMin
  split_ifs
  · exact hmin
  · exact Nat.zero_le d

end FlowGraph

/-- No inferred range is cyclic: whatever the rule gives is recorded. -/
lemma InferenceRule.symbolsBelow_infer {g : FlowGraph} {type : ℕ → ValueType}
    {rule : InferenceRule} {d : ℕ} {r : Range} (hrule : rule.UsesBelow d)
    (hphi : ∀ size block inputs, rule = .phi size block inputs →
      ∀ s, g.dominatesPhi (g.definition s).block block = true → s < d)
    (h : rule.infer g type = some r) : r.SymbolsBelow d := by
  cases rule with
  | fixed r' =>
    cases h
    exact hrule
  | constraint value range =>
    obtain ⟨hvalue, hrange⟩ := hrule
    exact g.symbolsBelow_inferConstraint
      (fun r' hr' => (symbolsBelow_getSmiRange hr').mono hvalue.le) hrange h
  | binary instr right =>
    obtain ⟨hleft, hright⟩ := hrule
    obtain ⟨⟨range, overflow⟩, hhelper, rfl⟩ := Option.bind_eq_some_iff.mp h
    unfold FlowGraph.inferRangeHelper at hhelper
    split at hhelper
    · rename_i l r' hl hr'
      obtain ⟨result, hresult, heq⟩ := Option.map_eq_some_iff.mp hhelper
      cases heq
      have hbelow := g.symbolsBelow_binaryOp ((symbolsBelow_operandRange hl).mono hleft.le)
        ((symbolsBelow_operandRange hr').mono hright.le)
        (fun e he => by cases he; exact hleft) hresult
      exact ⟨(RangeBoundary.rank_clamp _).trans hbelow.min,
        (RangeBoundary.rank_clamp _).trans hbelow.max⟩
    · cases hhelper
  | phi size block inputs => exact g.symbolsBelow_inferPhi (hphi size block inputs rfl) h

/-- In a graph whose blocks are in reverse postorder every inferred range is recorded. -/
lemma AnalyzedFunction.infer_integerDefinitions (f : AnalyzedFunction) (g : FlowGraph) (d : ℕ)
    (hphi : ∀ size block inputs, f.rule d = .phi size block inputs →
      ∀ s, g.dominatesPhi (g.definition s).block block = true → s < d) :
    (f.integerDefinitions.infer g d).map Subtype.val = (f.rule d).infer g f.type := by
  show (((f.rule d).infer g f.type).bind _).map _ = _
  cases h : (f.rule d).infer g f.type with
  | none => rfl
  | some r =>
    rw [Option.bind_some, dif_pos (InferenceRule.symbolsBelow_infer (f.usesBelow d) hphi h)]
    rfl

/-- The constants zero and one, a phi of zero and its successor, and the successor. -/
def countingFunction : AnalyzedFunction where
  definitions := [0, 1, 2, 3]
  sorted := by decide
  type _ := .smi
  rule
    | 0 => .fixed ⟨.constant 0 isInt64_zero, .constant 0 isInt64_zero, .refl false, .refl false⟩
    | 1 => .fixed ⟨.constant 1 (by decide), .constant 1 (by decide), rfl, rfl⟩
    | 2 => .phi .smi 1 [0, 3]
    | 3 => .binary ⟨.binarySmiOp, .add, 2, true, false, fun h => by cases h⟩ 1
    | _ => .fixed (.full .smi)
  usesBelow d := by
    match d with
    | 0 | 1 | 2 | _ + 4 => exact by first | trivial | exact ⟨Nat.zero_le _, Nat.zero_le _⟩
    | 3 => exact ⟨lt_succ_self 2, by decide⟩

/-- The graph of the counting loop before any range is known. -/
def countingGraph : FlowGraph where
  definition
    | 0 => ⟨.constant 0 isSmi_zero, none, 0⟩
    | 1 => ⟨.constant 1 isSmi_one, none, 0⟩
    | 3 => ⟨.binarySmiOp .add 2 1 true, none, 1⟩
    | _ => ⟨.other, none, 1⟩
  cseEqual _ _ := false
  dominates a b := decide (a ≤ b)
  constraint_lt d v h := by
    split at h <;> cases h
  binarySmiOp_lt d op left right t h := by
    split at h <;> cases h
    exact ⟨lt_succ_self 2, by decide⟩
  min_lt d r h := by
    split at h <;> cases h
  max_lt d r h := by
    split at h <;> cases h

/-- The loop converges well before the cut-off of the source. -/
theorem widening_converges_counting :
    (countingFunction.integerDefinitions.iterate .widen (2 ^ 31 - 1) countingGraph).changed =
      false ∧
      (countingFunction.integerDefinitions.iterate .widen (2 ^ 31 - 1) countingGraph).iterations ≤
        7 := by
  obtain ⟨hdone, hiterations, -, -⟩ := countingFunction.integerDefinitions.widening_converges
    countingGraph (2 ^ 31 - 1) (by decide)
  exact ⟨hdone, hiterations⟩

end DartSdk.RangeAnalysis
