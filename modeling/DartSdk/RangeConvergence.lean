import DartSdk.ConstraintRanges

/-!
The fixpoint iteration of range analysis (`RangeAnalysis::Iterate`). Ranges are inferred for the
integer definitions in reverse postorder until nothing changes. With widening, a boundary of a phi
that is known can only become a constant of its size and then the extreme constant, and whatever is
not a phi is determined by definitions before it, so that an iteration that changes no phi changes
nothing after the first.
-/

namespace DartSdk.RangeAnalysis

section

open PlatformUtils Nat Function

/-- The range names only definitions before the given one. -/
structure Range.SymbolsBelow (r : Range) (d : ℕ) : Prop where
  min : r.min.rank ≤ d
  max : r.max.rank ≤ d

/-- A range that may be recorded for the definition. -/
abbrev RangeFor (d : ℕ) := {r : Range // r.SymbolsBelow d}

variable {b : RangeBoundary}

lemma lt_of_rank_le {d s : ℕ} {o : ℤ} {ho : ValidOffset o} (h : b.rank ≤ d)
    (hb : b = .symbol s o ho) : s < d := by
  subst hb
  exact h

namespace FlowGraph

variable (g : FlowGraph)

def withRange (d : ℕ) (r : Range) : ℕ → Definition :=
  Function.update g.definition d {g.definition d with range := some r}

lemma kind_withRange (d : ℕ) (r : Range) (e : ℕ) :
    (g.withRange d r e).kind = (g.definition e).kind := by
  unfold withRange
  by_cases he : e = d
  · rw [he, update_self]
  · rw [update_of_ne he]

lemma range_withRange_self (d : ℕ) (r : Range) : (g.withRange d r d).range = some r := by
  rw [withRange, update_self]

lemma range_withRange_of_ne {d e : ℕ} (r : Range) (h : e ≠ d) :
    (g.withRange d r e).range = (g.definition e).range := by
  rw [withRange, update_of_ne h]

def setRange (d : ℕ) (r : RangeFor d) : FlowGraph where
  definition := g.withRange d r.1
  cseEqual := g.cseEqual
  dominates := g.dominates
  constraint_lt e v h := g.constraint_lt e v (g.kind_withRange d r.1 e ▸ h)
  binarySmiOp_lt e op left right t h :=
    g.binarySmiOp_lt e op left right t (g.kind_withRange d r.1 e ▸ h)
  min_lt e r' h s o ho hmin := by
    by_cases he : e = d
    · rw [he, range_withRange_self] at h
      obtain rfl := Option.some.inj h
      exact he ▸ lt_of_rank_le r.2.min hmin
    · rw [range_withRange_of_ne g r.1 he] at h
      exact g.min_lt e r' h s o ho hmin
  max_lt e r' h s o ho hmax := by
    by_cases he : e = d
    · rw [he, range_withRange_self] at h
      obtain rfl := Option.some.inj h
      exact he ▸ lt_of_rank_le r.2.max hmax
    · rw [range_withRange_of_ne g r.1 he] at h
      exact g.max_lt e r' h s o ho hmax

/-- If the range is growing towards negative infinity, widen it to the minimum of the size. -/
def widenMin (range newRange : Range) (size : RangeSize) : RangeBoundary :=
  let constants :=
    let min := (g.lowerBound range.min).clamp size
    let newMin := (g.lowerBound newRange.min).clamp size
    if min.constantValue ≤ newMin.constantValue then min else .minConstant size
  match range.min with
  | .symbol s o ho =>
    if (g.lowerBound (.symbol s o ho)).overflowed size then .minConstant size
    else if g.dependOnSameSymbol (.symbol s o ho) newRange.min then
      if o ≤ newRange.min.offset then .symbol s o ho else .minConstant size
    else if g.upperBoundIn size (.symbol s o ho) ≤ g.lowerBoundIn size newRange.min then
      .symbol s o ho
    else constants
  | _ => constants

/-- If the range is growing towards positive infinity, widen it to the maximum of the size. -/
def widenMax (range newRange : Range) (size : RangeSize) : RangeBoundary :=
  let constants :=
    let max := (g.upperBound range.max).clamp size
    let newMax := (g.upperBound newRange.max).clamp size
    if max.constantValue ≥ newMax.constantValue then max else .maxConstant size
  match range.max with
  | .symbol s o ho =>
    if (g.upperBound (.symbol s o ho)).overflowed size then .maxConstant size
    else if g.dependOnSameSymbol (.symbol s o ho) newRange.max then
      if o ≥ newRange.max.offset then .symbol s o ho else .maxConstant size
    else if g.lowerBoundIn size (.symbol s o ho) ≥ g.upperBoundIn size newRange.max then
      .symbol s o ho
    else constants
  | _ => constants

/-- Use the newly computed minimum only if the current one was widened. -/
def narrowMin (range newRange : Range) (size : RangeSize) : RangeBoundary :=
  if g.lowerBoundIn size range.min > g.lowerBoundIn size newRange.min then range.min
  else if range.min.isMinimumOrBelow size then newRange.min
  else range.min

def narrowMax (range newRange : Range) (size : RangeSize) : RangeBoundary :=
  if g.upperBoundIn size range.max < g.upperBoundIn size newRange.max then range.max
  else if range.max.isMaximumOrAbove size then newRange.max
  else range.max

def rangeEquals (r other : Range) : Bool := g.equals r.min other.min && g.equals r.max other.max

/-- A widened lower boundary is the old one when that is symbolic, a constant from it, or the
extreme constant. -/
lemma widenMin_cases (range newRange : Range) (size : RangeSize) :
    (g.widenMin range newRange size = range.min ∧ 0 < range.min.rank) ∨
      g.widenMin range newRange size = (g.lowerBound range.min).clamp size ∨
      g.widenMin range newRange size = .minConstant size := by
  unfold widenMin
  split
  · rename_i s o ho hmin
    dsimp only
    rw [hmin]
    split_ifs
    all_goals first
      | exact .inl ⟨rfl, succ_pos s⟩
      | exact .inr (.inl rfl)
      | exact .inr (.inr rfl)
  · dsimp only
    split_ifs
    · exact .inr (.inl rfl)
    · exact .inr (.inr rfl)

lemma widenMax_cases (range newRange : Range) (size : RangeSize) :
    (g.widenMax range newRange size = range.max ∧ 0 < range.max.rank) ∨
      g.widenMax range newRange size = (g.upperBound range.max).clamp size ∨
      g.widenMax range newRange size = .maxConstant size := by
  unfold widenMax
  split
  · rename_i s o ho hmax
    dsimp only
    rw [hmax]
    split_ifs
    all_goals first
      | exact .inl ⟨rfl, succ_pos s⟩
      | exact .inr (.inl rfl)
      | exact .inr (.inr rfl)
  · dsimp only
    split_ifs
    · exact .inr (.inl rfl)
    · exact .inr (.inr rfl)

end FlowGraph

/-- How often a boundary of a phi can still be widened towards the extreme value of its size. -/
def stepsTo (size : RangeSize) (extreme : ℤ) : RangeBoundary → ℕ
  | .constant c _ => if c = extreme then 0 else if size.min ≤ c ∧ c ≤ size.max then 1 else 2
  | _ => 2

lemma stepsTo_constant (size : RangeSize) (extreme c : ℤ) (hc : IsInt64 c) :
    stepsTo size extreme (.constant c hc) =
      if c = extreme then 0 else if size.min ≤ c ∧ c ≤ size.max then 1 else 2 :=
  rfl

lemma stepsTo_le_two (size : RangeSize) (extreme : ℤ) (b : RangeBoundary) :
    stepsTo size extreme b ≤ 2 := by
  cases b with
  | constant c hc =>
    rw [stepsTo_constant]
    split_ifs <;> omega
  | _ => exact le_rfl

variable {extreme : ℤ}

lemma stepsTo_le_one {size : RangeSize} {c : ℤ} {hc : IsInt64 c}
    (h : size.min ≤ c ∧ c ≤ size.max) : stepsTo size extreme (.constant c hc) ≤ 1 := by
  rw [stepsTo_constant, if_pos h]
  split_ifs <;> omega

lemma clamp_constant_spec (size : RangeSize) (c : ℤ) (hc : IsInt64 c) :
    ∃ c' hc', (RangeBoundary.constant c hc).clamp size = .constant c' hc' ∧
      (size.min ≤ c' ∧ c' ≤ size.max) ∧ (size.min ≤ c ∧ c ≤ size.max → c' = c) := by
  have hle := RangeBoundary.RangeSize.min_le_max size
  rw [RangeBoundary.clamp_constant]
  split_ifs with hlow hhigh
  · exact ⟨size.min, RangeBoundary.RangeSize.isInt64_min size, rfl, ⟨le_rfl, hle⟩,
      fun h => le_antisymm h.1 hlow⟩
  · exact ⟨size.max, RangeBoundary.RangeSize.isInt64_max size, rfl, ⟨hle, le_rfl⟩,
      fun h => le_antisymm hhigh h.2⟩
  · exact ⟨c, hc, rfl, ⟨by omega, by omega⟩, fun _ => rfl⟩

lemma stepsTo_clamp_constant {size : RangeSize}
    (hextreme : size.min ≤ extreme ∧ extreme ≤ size.max) (c : ℤ) (hc : IsInt64 c) :
    (RangeBoundary.constant c hc).clamp size = .constant c hc ∨
      stepsTo size extreme ((RangeBoundary.constant c hc).clamp size) <
        stepsTo size extreme (.constant c hc) := by
  obtain ⟨c', hc', heq, hmem, hsame⟩ := clamp_constant_spec size c hc
  rw [heq]
  by_cases hcmem : size.min ≤ c ∧ c ≤ size.max
  · obtain rfl := hsame hcmem
    exact .inl rfl
  · right
    have hne : c ≠ extreme := fun h => hcmem (h ▸ hextreme)
    have hone : stepsTo size extreme (.constant c' hc') ≤ 1 := stepsTo_le_one hmem
    rw [stepsTo_constant size extreme c, if_neg hne, if_neg hcmem]
    omega

lemma stepsTo_extreme (size : RangeSize) (hextreme : IsInt64 extreme) (b : RangeBoundary) :
    RangeBoundary.constant extreme hextreme = b ∨
      stepsTo size extreme (.constant extreme hextreme) < stepsTo size extreme b := by
  rw [stepsTo_constant, if_pos rfl]
  cases b with
  | constant c hc =>
    by_cases heq : c = extreme
    · subst heq
      exact .inl rfl
    · right
      rw [stepsTo_constant, if_neg heq]
      split_ifs <;> omega
  | _ => exact .inr Nat.zero_lt_two

namespace FlowGraph

variable (g : FlowGraph)

lemma stepsTo_clamp_lowerBound (size : RangeSize) (hb : b.isInfinity = false) :
    (g.lowerBound b).clamp size = b ∨
      stepsTo size size.min ((g.lowerBound b).clamp size) < stepsTo size size.min b := by
  cases b with
  | negativeInfinity => cases hb
  | positiveInfinity => cases hb
  | constant c hc =>
    rw [lowerBound]
    exact stepsTo_clamp_constant ⟨le_rfl, RangeBoundary.RangeSize.min_le_max size⟩ c hc
  | symbol s o ho =>
    right
    have hlower : (g.lowerBound (.symbol s o ho)).IsLower := isLower_lowerBound _
    cases hbound : g.lowerBound (.symbol s o ho) with
    | constant c hc =>
      obtain ⟨c', hc', heq, hmem, -⟩ := clamp_constant_spec size c hc
      rw [heq]
      exact lt_succ_of_le (stepsTo_le_one hmem)
    | negativeInfinity =>
      exact lt_succ_of_le (stepsTo_le_one ⟨le_rfl, RangeBoundary.RangeSize.min_le_max size⟩)
    | positiveInfinity =>
      rw [hbound] at hlower
      cases hlower
    | symbol t o' ho' =>
      rw [hbound] at hlower
      cases hlower

lemma stepsTo_clamp_upperBound (size : RangeSize) (hb : b.isInfinity = false) :
    (g.upperBound b).clamp size = b ∨
      stepsTo size size.max ((g.upperBound b).clamp size) < stepsTo size size.max b := by
  cases b with
  | negativeInfinity => cases hb
  | positiveInfinity => cases hb
  | constant c hc =>
    rw [upperBound]
    exact stepsTo_clamp_constant ⟨RangeBoundary.RangeSize.min_le_max size, le_rfl⟩ c hc
  | symbol s o ho =>
    right
    have hupper : (g.upperBound (.symbol s o ho)).IsUpper := isUpper_upperBound _
    cases hbound : g.upperBound (.symbol s o ho) with
    | constant c hc =>
      obtain ⟨c', hc', heq, hmem, -⟩ := clamp_constant_spec size c hc
      rw [heq]
      exact lt_succ_of_le (stepsTo_le_one hmem)
    | positiveInfinity =>
      exact lt_succ_of_le (stepsTo_le_one ⟨RangeBoundary.RangeSize.min_le_max size, le_rfl⟩)
    | negativeInfinity =>
      rw [hbound] at hupper
      cases hupper
    | symbol t o' ho' =>
      rw [hbound] at hupper
      cases hupper

section

variable (range newRange : Range) (size : RangeSize)

lemma stepsTo_widenMin :
    g.widenMin range newRange size = range.min ∨
      stepsTo size size.min (g.widenMin range newRange size) < stepsTo size size.min range.min := by
  rcases g.widenMin_cases range newRange size with ⟨heq, -⟩ | heq | heq
  · exact .inl heq
  · rw [heq]
    exact g.stepsTo_clamp_lowerBound size range.min_finite
  · rw [heq]
    exact stepsTo_extreme size _ range.min

lemma stepsTo_widenMax :
    g.widenMax range newRange size = range.max ∨
      stepsTo size size.max (g.widenMax range newRange size) < stepsTo size size.max range.max := by
  rcases g.widenMax_cases range newRange size with ⟨heq, -⟩ | heq | heq
  · exact .inl heq
  · rw [heq]
    exact g.stepsTo_clamp_upperBound size range.max_finite
  · rw [heq]
    exact stepsTo_extreme size _ range.max

lemma widenMin_finite : (g.widenMin range newRange size).isInfinity = false := by
  rcases g.widenMin_cases range newRange size with ⟨heq, -⟩ | heq | heq
  · rw [heq]
    exact range.min_finite
  · rw [heq]
    exact Range.isInfinity_clamp size _
  · rw [heq]
    rfl

lemma widenMax_finite : (g.widenMax range newRange size).isInfinity = false := by
  rcases g.widenMax_cases range newRange size with ⟨heq, -⟩ | heq | heq
  · rw [heq]
    exact range.max_finite
  · rw [heq]
    exact Range.isInfinity_clamp size _
  · rw [heq]
    rfl

end

lemma equals_self (b : RangeBoundary) : g.equals b b = true := by
  cases b with
  | negativeInfinity => rfl
  | positiveInfinity => rfl
  | constant c hc => exact decide_eq_true rfl
  | symbol s o ho =>
    have hself : g.areEqualDefinitions s s = true := by
      unfold areEqualDefinitions
      rw [decide_eq_true rfl, Bool.true_or]
    show (decide (o = o) && g.areEqualDefinitions s s) = true
    rw [hself, decide_eq_true rfl]
    rfl

lemma rangeEquals_self (r : Range) : g.rangeEquals r r = true := by
  unfold rangeEquals
  rw [equals_self, equals_self]
  rfl

end FlowGraph

/-- The graphs differ only in the ranges of definitions from the given one on. -/
structure SameBelow (d : ℕ) (g h : FlowGraph) : Prop where
  kind : ∀ e, (g.definition e).kind = (h.definition e).kind
  block : ∀ e, (g.definition e).block = (h.definition e).block
  cseEqual : g.cseEqual = h.cseEqual
  dominates : g.dominates = h.dominates
  range : ∀ e < d, (g.definition e).range = (h.definition e).range

lemma SameBelow.refl (d : ℕ) (g : FlowGraph) : SameBelow d g g :=
  ⟨fun _ => rfl, fun _ => rfl, rfl, rfl, fun _ _ => rfl⟩

variable {d : ℕ} {g h : FlowGraph}

section

variable (hgh : SameBelow d g h)

include hgh

lemma SameBelow.trans {k : FlowGraph} (hhk : SameBelow d h k) : SameBelow d g k :=
  ⟨fun e => (hgh.kind e).trans (hhk.kind e), fun e => (hgh.block e).trans (hhk.block e),
    hgh.cseEqual.trans hhk.cseEqual, hgh.dominates.trans hhk.dominates,
    fun e he => (hgh.range e he).trans (hhk.range e he)⟩

lemma SameBelow.symm : SameBelow d h g :=
  ⟨fun e => (hgh.kind e).symm, fun e => (hgh.block e).symm, hgh.cseEqual.symm, hgh.dominates.symm,
    fun e he => (hgh.range e he).symm⟩

omit hgh in
lemma SameBelow.mono {d' : ℕ} (hle : d ≤ d') (hgh : SameBelow d' g h) : SameBelow d g h :=
  ⟨hgh.kind, hgh.block, hgh.cseEqual, hgh.dominates, fun e he => hgh.range e (he.trans_le hle)⟩

omit hgh in
lemma sameBelow_setRange (g : FlowGraph) (d : ℕ) (r : RangeFor d) :
    SameBelow d g (g.setRange d r) where
  kind e := (g.kind_withRange d r.1 e).symm
  block e := by
    show _ = (g.withRange d r.1 e).block
    unfold FlowGraph.withRange
    by_cases he : e = d
    · rw [he, update_self]
    · rw [update_of_ne he]
  cseEqual := rfl
  dominates := rfl
  range e he := (g.range_withRange_of_ne r.1 he.ne).symm

/-- Equality of ranges does not look at ranges of definitions. -/
lemma SameBelow.unwrapConstraint (e : ℕ) : g.unwrapConstraint e = h.unwrapConstraint e := by
  induction e using Nat.strong_induction_on with
  | _ e ih =>
    rw [FlowGraph.unwrapConstraint, FlowGraph.unwrapConstraint]
    have hkind := hgh.kind e
    split
    · rename_i v hv
      split
      · rename_i w hw
        rw [hkind, hw] at hv
        cases hv
        exact ih v (h.constraint_lt e v hw)
      · rename_i hw
        exact absurd (hkind ▸ hv) (hw v)
    · rename_i hv
      split
      · rename_i w hw
        exact absurd (hkind.trans hw) (hv w)
      · rfl

lemma SameBelow.dependOnSameSymbol (a b : RangeBoundary) :
    g.dependOnSameSymbol a b = h.dependOnSameSymbol a b := by
  unfold FlowGraph.dependOnSameSymbol FlowGraph.areEqualDefinitions
  split
  · rw [hgh.unwrapConstraint, hgh.unwrapConstraint, hgh.cseEqual]
  · rfl

lemma SameBelow.equals (a b : RangeBoundary) : g.equals a b = h.equals a b := by
  unfold FlowGraph.equals
  split
  all_goals first
    | rfl
    | rw [hgh.dependOnSameSymbol]

lemma SameBelow.rangeEquals (r other : Range) :
    g.rangeEquals r other = h.rangeEquals r other := by
  unfold FlowGraph.rangeEquals
  rw [hgh.equals, hgh.equals]

end

inductive JoinOperator where
  | none
  | widen
  | narrow
  deriving DecidableEq, Repr

lemma Range.symbolsBelow_ofBounds {min max : RangeBoundary} (hmin : min.rank ≤ d)
    (hmax : max.rank ≤ d) : (Range.ofBounds min max).SymbolsBelow d := by
  unfold Range.ofBounds
  split_ifs
  · exact ⟨hmin, hmax⟩
  · exact ⟨zero_le d, zero_le d⟩

lemma FlowGraph.symbolsBelow {r : Range} (h : (g.definition d).range = some r) : r.SymbolsBelow d :=
  ⟨le_of_lt_succ (g.rank_min_lt h), le_of_lt_succ (g.rank_max_lt h)⟩

namespace FlowGraph

variable (g : FlowGraph)

lemma rank_widenMin_le (range newRange : Range) (size : RangeSize) :
    (g.widenMin range newRange size).rank ≤ range.min.rank := by
  rcases g.widenMin_cases range newRange size with ⟨heq, -⟩ | heq | heq
  · rw [heq]
  · rw [heq, (isLower_lowerBound _).clamp size]
    exact zero_le _
  · rw [heq]
    exact zero_le _

lemma rank_widenMax_le (range newRange : Range) (size : RangeSize) :
    (g.widenMax range newRange size).rank ≤ range.max.rank := by
  rcases g.widenMax_cases range newRange size with ⟨heq, -⟩ | heq | heq
  · rw [heq]
  · rw [heq, (isUpper_upperBound _).clamp size]
    exact zero_le _
  · rw [heq]
    exact zero_le _

variable {newRange range : Range} {d : ℕ}

lemma rank_narrowMin_le {size : RangeSize} (h : range.min.rank ≤ d) (hnew : newRange.min.rank ≤ d) :
    (g.narrowMin range newRange size).rank ≤ d := by
  unfold narrowMin
  split_ifs
  · exact h
  · exact hnew
  · exact h

lemma rank_narrowMax_le {size : RangeSize} (h : range.max.rank ≤ d) (hnew : newRange.max.rank ≤ d) :
    (g.narrowMax range newRange size).rank ≤ d := by
  unfold narrowMax
  split_ifs
  · exact h
  · exact hnew
  · exact h

/-- The range of a phi with a known range, after its inputs gave a new one. -/
def joinPhi (op : JoinOperator) (size : RangeSize) (range newRange : Range) : Range :=
  match op with
  | .none => newRange
  | .widen => .ofBounds (g.widenMin range newRange size) (g.widenMax range newRange size)
  | .narrow => .ofBounds (g.narrowMin range newRange size) (g.narrowMax range newRange size)

lemma symbolsBelow_joinPhi (op : JoinOperator) (size : RangeSize)
    (h : range.SymbolsBelow d) (hnew : newRange.SymbolsBelow d) :
    (g.joinPhi op size range newRange).SymbolsBelow d := by
  cases op with
  | none => exact hnew
  | widen =>
    exact Range.symbolsBelow_ofBounds ((g.rank_widenMin_le range newRange size).trans h.min)
      ((g.rank_widenMax_le range newRange size).trans h.max)
  | narrow =>
    exact Range.symbolsBelow_ofBounds (g.rank_narrowMin_le h.min hnew.min)
      (g.rank_narrowMax_le h.max hnew.max)

end FlowGraph

/-- The integer definitions in reverse postorder. The range of what is not a phi depends only on
definitions before it. -/
structure IntegerDefinitions where
  definitions : List ℕ
  sorted : definitions.Pairwise (· < ·)
  /-- `RangeSizeForPhi`, for the phis. -/
  phiSize : ℕ → Option RangeSize
  /-- `Definition::InferRange`; none if the range is unknown. -/
  infer : FlowGraph → (d : ℕ) → Option (RangeFor d)
  infer_eq : ∀ d, phiSize d = none → ∀ g h, SameBelow d g h → infer g d = infer h d

namespace IntegerDefinitions

variable (a : IntegerDefinitions)

/-- The range to record, widened or narrowed for a phi with a known range. -/
def joined (op : JoinOperator) (g : FlowGraph) (d : ℕ) (r : RangeFor d) : RangeFor d :=
  match a.phiSize d, h : (g.definition d).range with
  | some size, some range =>
    ⟨g.joinPhi op size range r.1, g.symbolsBelow_joinPhi op size (FlowGraph.symbolsBelow h) r.2⟩
  | _, _ => r

def unchanged (g : FlowGraph) (d : ℕ) (r : Range) : Bool :=
  match (g.definition d).range with
  | none => false
  | some range => g.rangeEquals r range

/-- `RangeAnalysis::InferRange`: the graph afterwards, and whether it changed. -/
def inferRange (op : JoinOperator) (g : FlowGraph) (d : ℕ) : FlowGraph × Bool :=
  match a.infer g d with
  | none => (g, false)
  | some r =>
    if unchanged g d (a.joined op g d r).1 then (g, false)
    else (g.setRange d (a.joined op g d r), true)

/-- The loop over the definitions. -/
def inferAll (op : JoinOperator) : List ℕ → FlowGraph → FlowGraph × Bool
  | [], g => (g, false)
  | d :: rest, g =>
    ((inferAll op rest (a.inferRange op g d).1).1,
      (a.inferRange op g d).2 || (inferAll op rest (a.inferRange op g d).1).2)

end IntegerDefinitions

/-- How `Iterate` ended: the graph, the number of iterations, and whether the last changed it. -/
structure Iterated where
  graph : FlowGraph
  iterations : ℕ
  changed : Bool

namespace IntegerDefinitions

variable (a : IntegerDefinitions)

/-- The do-while loop, with at most the given number of iterations after the first. -/
def iterateMore (op : JoinOperator) : ℕ → FlowGraph → Iterated
  | 0, g => ⟨(a.inferAll op a.definitions g).1, 1, (a.inferAll op a.definitions g).2⟩
  | n + 1, g =>
    if (a.inferAll op a.definitions g).2 then
      let rest := iterateMore op n (a.inferAll op a.definitions g).1
      ⟨rest.graph, rest.iterations + 1, rest.changed⟩
    else ⟨(a.inferAll op a.definitions g).1, 1, false⟩

def iterate (op : JoinOperator) (maxIterations : ℕ) (g : FlowGraph) : Iterated :=
  a.iterateMore op (maxIterations - 1) g

end IntegerDefinitions

end

open List Bool

namespace IntegerDefinitions

variable (a : IntegerDefinitions)

section Frames

variable (op : JoinOperator)

lemma inferRange_eq (g : FlowGraph) (d : ℕ) :
    a.inferRange op g d = (g, false) ∨
      ∃ r, a.infer g d = some r ∧ unchanged g d (a.joined op g d r).1 = false ∧
        a.inferRange op g d = (g.setRange d (a.joined op g d r), true) := by
  unfold inferRange
  split
  · exact .inl rfl
  · rename_i r hr
    split_ifs with hsame
    · exact .inl rfl
    · exact .inr ⟨r, hr, eq_false_iff.mpr hsame, rfl⟩

lemma sameBelow_inferRange (g : FlowGraph) (d : ℕ) : SameBelow d g (a.inferRange op g d).1 := by
  rcases a.inferRange_eq op g d with h | ⟨r, -, -, h⟩
  · rw [h]
    exact .refl d g
  · rw [h]
    exact sameBelow_setRange g d _

variable {d : ℕ}

lemma range_inferRange_of_ne (g : FlowGraph) {e : ℕ} (hne : e ≠ d) :
    ((a.inferRange op g d).1.definition e).range = (g.definition e).range := by
  rcases a.inferRange_eq op g d with h | ⟨r, -, -, h⟩
  · rw [h]
  · rw [h]
    exact g.range_withRange_of_ne _ hne

variable {ds : List ℕ}

lemma sameBelow_inferAll (g : FlowGraph) (hds : ∀ e ∈ ds, d ≤ e) :
    SameBelow d g (a.inferAll op ds g).1 := by
  induction ds generalizing g with
  | nil => exact .refl d g
  | cons e rest ih =>
    have hhead := (a.sameBelow_inferRange op g e).mono (hds e mem_cons_self)
    exact hhead.trans (ih _ fun e' he' => hds e' (mem_cons_of_mem e he'))

lemma range_inferAll_of_not_mem (g : FlowGraph) (hds : d ∉ ds) :
    ((a.inferAll op ds g).1.definition d).range = (g.definition d).range := by
  induction ds generalizing g with
  | nil => rfl
  | cons e rest ih =>
    have hne : d ≠ e := fun h => hds (h ▸ mem_cons_self)
    have hrest := ih (a.inferRange op g e).1 fun h => hds (mem_cons_of_mem e h)
    exact hrest.trans (a.range_inferRange_of_ne op g hne)

variable {g : FlowGraph}

lemma inferAll_fst_of_unchanged
    (h : (a.inferAll op ds g).2 = false) : (a.inferAll op ds g).1 = g := by
  induction ds generalizing g with
  | nil => rfl
  | cons d rest ih =>
    obtain ⟨hhead, hrest⟩ := or_eq_false_iff.mp h
    rcases a.inferRange_eq op g d with heq | ⟨r, -, -, heq⟩
    · rw [heq] at hrest
      show (a.inferAll op rest (a.inferRange op g d).1).1 = g
      rw [heq]
      exact ih hrest
    · rw [heq] at hhead
      cases hhead

lemma joined_of_not_phi (hphi : a.phiSize d = none) (r : RangeFor d) : a.joined op g d r = r := by
  unfold joined
  split
  · rename_i hsize _
    rw [hphi] at hsize
    cases hsize
  · rfl

lemma unchanged_congr {h : FlowGraph} {k : ℕ} (hgh : SameBelow k g h)
    (hrange : (g.definition d).range = (h.definition d).range) (r : Range) :
    unchanged g d r = unchanged h d r := by
  unfold unchanged
  rw [hrange]
  split
  · rfl
  · exact hgh.rangeEquals r _

lemma inferRange_again {h : FlowGraph} (hphi : a.phiSize d = none) (hgh : SameBelow d g h)
    (hrange : (h.definition d).range = ((a.inferRange op g d).1.definition d).range) :
    a.inferRange op h d = (h, false) := by
  rcases a.inferRange_eq op h d with heq | ⟨r, hinfer, hchg, -⟩
  · exact heq
  · exfalso
    rw [a.joined_of_not_phi op hphi] at hchg
    rw [← a.infer_eq d hphi g h hgh] at hinfer
    rcases a.inferRange_eq op g d with hsame | ⟨r', hinfer', -, hset⟩
    · -- The graph was left alone because the inferred range equals the recorded one.
      rw [hsame] at hrange
      rw [unchanged_congr hgh.symm hrange] at hchg
      unfold inferRange at hsame
      rw [hinfer] at hsame
      dsimp only at hsame
      rw [a.joined_of_not_phi op hphi, hchg, if_neg Bool.false_ne_true] at hsame
      cases congrArg Prod.snd hsame
    · rw [hinfer] at hinfer'
      cases hinfer'
      rw [hset, a.joined_of_not_phi op hphi] at hrange
      have hrecorded : (h.definition d).range = some r.1 :=
        hrange.trans (g.range_withRange_self d r.1)
      unfold unchanged at hchg
      rw [hrecorded] at hchg
      dsimp only at hchg
      rw [h.rangeEquals_self] at hchg
      cases hchg

end Frames

/-- How often the range of the definition can still change, if it is a phi. -/
def phiSteps (g : FlowGraph) (d : ℕ) : ℕ :=
  match a.phiSize d with
  | none => 0
  | some size =>
    match (g.definition d).range with
    | none => 5
    | some r => stepsTo size size.min r.min + stepsTo size size.max r.max

variable {g : FlowGraph} {d : ℕ}

lemma phiSteps_of_not_phi (h : a.phiSize d = none) : a.phiSteps g d = 0 := by
  unfold phiSteps
  rw [h]

variable {size : RangeSize}

lemma phiSteps_of_range {r : Range}
    (h : a.phiSize d = some size) (hr : (g.definition d).range = some r) :
    a.phiSteps g d = stepsTo size size.min r.min + stepsTo size size.max r.max := by
  unfold phiSteps
  rw [h, hr]

lemma phiSteps_of_unknown
    (h : a.phiSize d = some size) (hr : (g.definition d).range = none) : a.phiSteps g d = 5 := by
  unfold phiSteps
  rw [h, hr]

lemma phiSteps_congr {h : FlowGraph} (hrange : (g.definition d).range = (h.definition d).range) :
    a.phiSteps g d = a.phiSteps h d := by
  unfold phiSteps
  rw [hrange]

lemma phiSteps_le (g : FlowGraph) (d : ℕ) :
    a.phiSteps g d ≤ if (a.phiSize d).isSome then 5 else 0 := by
  cases hsize : a.phiSize d with
  | none => rw [a.phiSteps_of_not_phi hsize]; exact zero_le
  | some size =>
    show a.phiSteps g d ≤ 5
    cases hr : (g.definition d).range with
    | none => rw [a.phiSteps_of_unknown hsize hr]
    | some r =>
      rw [a.phiSteps_of_range hsize hr]
      have hmin := stepsTo_le_two size size.min r.min
      have hmax := stepsTo_le_two size size.max r.max
      omega

lemma phiSteps_setRange_lt {r : RangeFor d} (hsize : a.phiSize d = some size)
    (hchg : unchanged g d (a.joined .widen g d r).1 = false) :
    a.phiSteps (g.setRange d (a.joined .widen g d r)) d < a.phiSteps g d := by
  rw [a.phiSteps_of_range hsize (g.range_withRange_self d (a.joined .widen g d r).1)]
  cases hr : (g.definition d).range with
  | none =>
    rw [a.phiSteps_of_unknown hsize hr]
    have hmin := stepsTo_le_two size size.min (a.joined .widen g d r).1.min
    have hmax := stepsTo_le_two size size.max (a.joined .widen g d r).1.max
    omega
  | some range =>
    have hjoined : (a.joined .widen g d r).1 =
        ⟨g.widenMin range r.1 size, g.widenMax range r.1 size, g.widenMin_finite range r.1 size,
          g.widenMax_finite range r.1 size⟩ := by
      rw [← Range.ofBounds_of_finite]
      unfold joined
      split
      · rename_i size' range' hsize' hr'
        rw [hsize] at hsize'
        rw [hr] at hr'
        cases hsize'
        cases hr'
        rfl
      · rename_i hnot
        exact absurd hr (hnot size range hsize)
    rw [a.phiSteps_of_range hsize hr]
    rw [hjoined] at hchg ⊢
    unfold unchanged at hchg
    rw [hr] at hchg
    dsimp only at hchg ⊢
    have hmin := g.stepsTo_widenMin range r.1 size
    have hmax := g.stepsTo_widenMax range r.1 size
    rcases hmin with hmin | hmin
    · rcases hmax with hmax | hmax
      · -- Both boundaries are the recorded ones, so that the range was found unchanged.
        unfold FlowGraph.rangeEquals at hchg
        dsimp only at hchg
        rw [hmin, hmax, g.equals_self, g.equals_self] at hchg
        cases hchg
      · rw [hmin]
        omega
    · rcases hmax with hmax | hmax
      · rw [hmax]
        omega
      · omega

def totalSteps (g : FlowGraph) : ℕ := (a.definitions.map (a.phiSteps g)).sum

/-- The number of phis among the definitions. -/
def phiCount : ℕ := a.definitions.countP fun d => (a.phiSize d).isSome

lemma totalSteps_le (g : FlowGraph) : a.totalSteps g ≤ 5 * a.phiCount := by
  unfold totalSteps phiCount
  induction a.definitions with
  | nil => exact le_rfl
  | cons d rest ih =>
    have hhead := a.phiSteps_le g d
    rw [map_cons, sum_cons, countP_cons]
    split_ifs at hhead ⊢ <;> omega

lemma totalSteps_inferRange (g : FlowGraph) (d : ℕ) :
    a.totalSteps (a.inferRange .widen g d).1 ≤ a.totalSteps g ∧
      (d ∈ a.definitions → a.phiSize d ≠ none → (a.inferRange .widen g d).2 = true →
        a.totalSteps (a.inferRange .widen g d).1 < a.totalSteps g) := by
  rcases a.inferRange_eq .widen g d with heq | ⟨r, -, hchg, heq⟩
  · rw [heq]
    exact ⟨le_rfl, fun _ _ h => by cases h⟩
  · rw [heq]
    have hother : ∀ e, e ≠ d →
        a.phiSteps (g.setRange d (a.joined .widen g d r)) e = a.phiSteps g e := fun e he =>
      a.phiSteps_congr (g.range_withRange_of_ne _ he)
    have hle : ∀ e ∈ a.definitions,
        a.phiSteps (g.setRange d (a.joined .widen g d r)) e ≤ a.phiSteps g e := by
      intro e _
      by_cases he : e = d
      · rw [he]
        cases hsize : a.phiSize d with
        | none => rw [a.phiSteps_of_not_phi hsize]; exact zero_le
        | some size => exact (a.phiSteps_setRange_lt hsize hchg).le
      · exact (hother e he).le
    refine ⟨sum_le_sum hle, fun hmem hphi _ => ?_⟩
    obtain ⟨size, hsize⟩ := Option.ne_none_iff_exists'.mp hphi
    exact sum_lt_sum _ _ hle ⟨d, hmem, a.phiSteps_setRange_lt hsize hchg⟩

lemma totalSteps_inferAll_le (g : FlowGraph) (ds : List ℕ) :
    a.totalSteps (a.inferAll .widen ds g).1 ≤ a.totalSteps g := by
  induction ds generalizing g with
  | nil => exact le_rfl
  | cons d rest ih => exact (ih _).trans (a.totalSteps_inferRange g d).1

/-- An iteration that leaves the steps of the phis as they are, after another iteration, changes
nothing. -/
lemma inferAll_again {ds : List ℕ} (hsort : ds.Pairwise (· < ·))
    (hds : ∀ d ∈ ds, d ∈ a.definitions)
    (hsteps : a.totalSteps (a.inferAll .widen ds (a.inferAll .widen ds g).1).1 =
      a.totalSteps (a.inferAll .widen ds g).1) :
    a.inferAll .widen ds (a.inferAll .widen ds g).1 = ((a.inferAll .widen ds g).1, false) := by
  induction ds generalizing g with
  | nil => rfl
  | cons d rest ih =>
    obtain ⟨hlt, hrest⟩ := pairwise_cons.mp hsort
    have hnot : d ∉ rest := fun h => lt_irrefl d (hlt d h)
    -- The graph after the first iteration, which went on from `d` with `rest`.
    set f := (a.inferAll .widen (d :: rest) g).1 with hf
    have hfrest : f = (a.inferAll .widen rest (a.inferRange .widen g d).1).1 := rfl
    have hhead : a.inferRange .widen f d = (f, false) := by
      by_cases hphi : a.phiSize d = none
      · apply a.inferRange_again .widen hphi
        · exact a.sameBelow_inferAll .widen g fun e he =>
            (mem_cons.mp he).elim (fun h => h.ge) fun h => (hlt e h).le
        · rw [hfrest]
          exact a.range_inferAll_of_not_mem .widen _ hnot
      · rcases a.inferRange_eq .widen f d with heq | ⟨r, -, -, heq⟩
        · exact heq
        · have hdecrease := (a.totalSteps_inferRange f d).2 (hds d mem_cons_self) hphi
            (by rw [heq])
          have hle := a.totalSteps_inferAll_le (a.inferRange .widen f d).1 rest
          have htotal : a.totalSteps (a.inferAll .widen rest (a.inferRange .widen f d).1).1 =
            a.totalSteps f := hsteps
          omega
    have hcons : a.inferAll .widen (d :: rest) f =
        ((a.inferAll .widen rest f).1, (a.inferAll .widen rest f).2) := by
      rw [inferAll, hhead]
      rfl
    rw [hcons] at hsteps ⊢
    have htail := ih hrest (fun e he => hds e (mem_cons_of_mem d he)) (hfrest ▸ hsteps)
    rw [← hfrest] at htail
    rw [htail]

lemma iterateMore_spec (n : ℕ) {f : FlowGraph}
    (hf : f = (a.inferAll .widen a.definitions g).1) (hn : a.totalSteps f ≤ n) :
    (a.iterateMore .widen n f).changed = false ∧
      (a.iterateMore .widen n f).iterations ≤ a.totalSteps f + 1 ∧
      a.inferAll .widen a.definitions (a.iterateMore .widen n f).graph =
        ((a.iterateMore .widen n f).graph, false) := by
  have hagain : a.totalSteps (a.inferAll .widen a.definitions f).1 = a.totalSteps f →
      a.inferAll .widen a.definitions f = (f, false) := by
    subst hf
    exact a.inferAll_again a.sorted fun _ h => h
  induction n generalizing f g with
  | zero =>
    have hle := a.totalSteps_inferAll_le f a.definitions
    have hquiet := hagain (by omega)
    rw [iterateMore, hquiet]
    exact ⟨rfl, Nat.succ_le_succ zero_le, hquiet⟩
  | succ n ih =>
    rw [iterateMore]
    split_ifs with hchg
    · have hle := a.totalSteps_inferAll_le f a.definitions
      have hlt : a.totalSteps (a.inferAll .widen a.definitions f).1 < a.totalSteps f := by
        refine lt_of_le_of_ne hle fun heq => ?_
        rw [hagain heq] at hchg
        cases hchg
      have hbound : a.totalSteps (a.inferAll .widen a.definitions f).1 ≤ n := by omega
      obtain ⟨hdone, hiterations, hfixed⟩ := ih rfl hbound
        (a.inferAll_again a.sorted fun _ h => h)
      exact ⟨hdone, by dsimp only; omega, hfixed⟩
    · have hquiet := eq_false_iff.mpr hchg
      have hsame := a.inferAll_fst_of_unchanged .widen hquiet
      refine ⟨rfl, Nat.succ_le_succ zero_le, ?_⟩
      rw [hsame]
      exact Prod.ext hsame hquiet

/-- With enough iterations allowed, the loop ends because nothing changed, after at most five
iterations for each phi and two more, at a graph that is its own widening. -/
theorem widening_converges (g : FlowGraph) (maxIterations : ℕ)
    (h : 5 * a.phiCount + 2 ≤ maxIterations) :
    (a.iterate .widen maxIterations g).changed = false ∧
      (a.iterate .widen maxIterations g).iterations ≤ 5 * a.phiCount + 2 ∧
      5 * a.phiCount + 2 ≤ 5 * a.definitions.length + 2 ∧
      a.inferAll .widen a.definitions (a.iterate .widen maxIterations g).graph =
        ((a.iterate .widen maxIterations g).graph, false) := by
  have hcount : a.phiCount ≤ a.definitions.length := countP_le_length
  obtain ⟨n, hn⟩ : ∃ n, maxIterations - 1 = n + 1 := ⟨maxIterations - 2, by omega⟩
  have hsteps := a.totalSteps_le (a.inferAll .widen a.definitions g).1
  unfold iterate
  rw [hn, iterateMore]
  split_ifs with hchanged
  · have hbound : a.totalSteps (a.inferAll .widen a.definitions g).1 ≤ n := by omega
    obtain ⟨hdone, hiterations, hfixed⟩ := a.iterateMore_spec n rfl hbound
    exact ⟨hdone, by dsimp only; omega, by omega, hfixed⟩
  · have hquiet := eq_false_iff.mpr hchanged
    have hsame := a.inferAll_fst_of_unchanged .widen hquiet
    refine ⟨rfl, by dsimp only; omega, by omega, ?_⟩
    dsimp only
    rw [hsame]
    exact Prod.ext hsame hquiet

end IntegerDefinitions

end DartSdk.RangeAnalysis
