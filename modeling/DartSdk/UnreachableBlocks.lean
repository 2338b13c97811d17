import DartSdk.ConstraintRanges

/-!
The removal of branch targets after the ranges are inferred
(`RangeAnalysis::MarkUnreachableBlocks`). A range that is still unknown then is the bottom of its
lattice: the definition is never executed, so that a branch is redirected only away from a successor
that no run enters. -/

namespace DartSdk.RangeAnalysis

open PlatformUtils List

/-- What type propagation knows of a definition. -/
inductive ValueType where
  | smi
  | int
  | other
  deriving DecidableEq, Repr

structure ConstraintInstr where
  value : ℕ
  origin : ConstraintOrigin

/-- The instruction of a definition, by what its range is inferred from. -/
inductive InferenceKind where
  | constraint (instr : ConstraintInstr)
  /-- Joins the known ranges of its inputs. -/
  | phi (inputs : List ℕ)
  /-- Needs the ranges of all of its integer operands. -/
  | operation (operands : List ℕ)

section Inference

variable (g : FlowGraph) (type : ℕ → ValueType)

/-- `RangeAnalysis::GetSmiRange`. A definition that is not typed as a small integer never gets a
range. -/
def getSmiRange (d : ℕ) : Option Range :=
  match (g.definition d).range, type d with
  | some r, _ => some r
  | none, .smi => none
  | none, _ => some (.full .smi)

/-- The range of an integer definition is not computed. -/
def Unknown (d : ℕ) : Prop := (g.definition d).range = none ∧ type d ≠ .other

/-- Inferring the range of the definition once more gives no range. -/
def InfersUnknown : InferenceKind → Prop
  | .constraint instr =>
    g.inferConstraint (getSmiRange g type instr.value) (g.constraintRange instr.origin) = none
  | .phi inputs => ∀ input ∈ inputs, Unknown g type input
  | .operation operands => ∃ operand ∈ operands, Unknown g type operand

end Inference

/-- A function after its ranges are inferred. -/
structure Analysis where
  graph : FlowGraph
  type : ℕ → ValueType
  kind : ℕ → InferenceKind
  /-- The definitions that are constraints. -/
  constraints : List ℕ
  constraint_type : ∀ d instr, kind d = .constraint instr → type d = .smi
  constraint_kind : ∀ d instr, kind d = .constraint instr →
    (graph.definition d).kind = .constraint instr.value
  /-- The last iteration over the definitions changed no range. -/
  stable : ∀ d, Unknown graph type d → InfersUnknown graph type (kind d)

namespace Analysis

variable (a : Analysis)

/-- The branch and the successor a constraint was inserted at, if any. -/
def target (d : ℕ) : Option (ℕ × Bool) :=
  match a.kind d with
  | .constraint ⟨_, .branch id _ _ _ successor⟩ => some (id, successor)
  | _ => none

/-- `MarkUnreachableBlocks` for a constraint. Constant targets are given by the successor they go
to. -/
def markUnreachable (constantTarget : ℕ → Option Bool) (d : ℕ) : ℕ → Option Bool :=
  match (a.graph.definition d).range, a.target d with
  | none, some (branch, successor) => Function.update constantTarget branch (some !successor)
  | _, _ => constantTarget

def markUnreachableBlocks (constantTarget : ℕ → Option Bool) : ℕ → Option Bool :=
  a.constraints.foldl a.markUnreachable constantTarget

/-- The operands of the definition have been executed, of a phi one of its inputs. -/
def Ready (executed : List ℕ) (d : ℕ) : Prop :=
  match a.kind d with
  | .constraint instr => instr.value ∈ executed
  | .phi inputs => ∃ input ∈ inputs, input ∈ executed
  | .operation operands => ∀ operand ∈ operands, operand ∈ executed

/-- The last executed definition first, each with the values at that time of definitions executed
before it. Control comes past a constraint only with a value that is let through, and no truncating
operation wraps around. -/
inductive Run : List (ℕ × Execution a.graph) → Prop
  | start : Run []
  | execute {trace : List (ℕ × Execution a.graph)} {d : ℕ} {env : Execution a.graph}
    (before : Run trace) (ready : a.Ready (trace.map Prod.fst) d) (exact : env.ExactSums)
    (executed : ∀ e, env.executed e → e ∈ trace.map Prod.fst)
    (passed : ∀ instr, a.kind d = .constraint instr →
      env.executed instr.value ∧ instr.origin.Passed env.toValuation (env.value instr.value)) :
    Run ((d, env) :: trace)

/-- The run enters the successor of the branch and executes the constraints that stand there. -/
def Enters (trace : List (ℕ × Execution a.graph)) (branch : ℕ) (successor : Bool) : Prop :=
  ∀ d ∈ a.constraints, a.target d = some (branch, successor) → d ∈ trace.map Prod.fst

variable {d branch : ℕ} {constantTarget : ℕ → Option Bool}

lemma contains_getSmiRange (env : Execution a.graph)
    (hunknown : ¬Unknown a.graph a.type d) (hknown : env.Known d) :
    ∃ r, getSmiRange a.graph a.type d = some r ∧ r.SmiSymbols env.toValuation ∧
      r.Contains env.value (env.value d) := by
  unfold getSmiRange
  split
  · rename_i r hr
    exact ⟨r, rfl, env.range_symbols d r hknown.1 hr, env.range_correct d r hknown.1 hr⟩
  · rename_i hr htype
    exact absurd ⟨hr, fun h => by rw [htype] at h; cases h⟩ hunknown
  · exact ⟨_, rfl, ⟨trivial, trivial⟩, Range.contains_full env.value hknown.2.1 hknown.2.2⟩

/-- A definition that is executed after definitions with known ranges has a known range. -/
lemma not_unknown_of_ready {executed : List ℕ} {env : Execution a.graph}
    (hexecuted : ∀ e ∈ executed, ¬Unknown a.graph a.type e) (hready : a.Ready executed d)
    (hexact : env.ExactSums) (hpassed : ∀ instr, a.kind d = .constraint instr →
      env.executed instr.value ∧ instr.origin.Passed env.toValuation (env.value instr.value)) :
    ¬Unknown a.graph a.type d := by
  intro hunknown
  have hstable := a.stable d hunknown
  unfold Ready at hready
  cases hkind : a.kind d with
  | constraint instr =>
    rw [hkind] at hstable hready
    obtain ⟨hvalue, hpass⟩ := hpassed instr hkind
    obtain ⟨r, hr, hsymbols, hcontains⟩ :=
      a.contains_getSmiRange env (hexecuted _ hready) ⟨hvalue, hpass.isSmi⟩
    obtain ⟨hsymbols', hcontains'⟩ := env.contains_constraintRange hpass
    have hnone : a.graph.inferConstraint (getSmiRange a.graph a.type instr.value)
      (a.graph.constraintRange instr.origin) = none := hstable
    rw [hr] at hnone
    exact env.inferConstraint_ne_none hexact hsymbols hsymbols' hcontains hcontains' hnone
  | phi inputs =>
    rw [hkind] at hstable hready
    obtain ⟨input, hinput, hmem⟩ := hready
    exact hexecuted input hmem (hstable input hinput)
  | operation operands =>
    rw [hkind] at hstable hready
    obtain ⟨operand, hoperand, hoperandUnknown⟩ := hstable
    exact hexecuted operand (hready operand hoperand) hoperandUnknown

lemma Run.not_unknown {a : Analysis} {trace : List (ℕ × Execution a.graph)} (h : a.Run trace) :
    ∀ d ∈ trace.map Prod.fst, ¬Unknown a.graph a.type d := by
  induction h with
  | start => exact fun d hd => absurd hd not_mem_nil
  | execute _ ready exact _ passed ih =>
    intro d hd
    rcases mem_cons.mp hd with rfl | hd
    · exact a.not_unknown_of_ready ih ready exact passed
    · exact ih d hd

lemma type_of_target {target : ℕ × Bool} (h : a.target d = some target) : a.type d = .smi := by
  unfold Analysis.target at h
  split at h
  · rename_i hkind
    exact a.constraint_type d _ hkind
  · cases h

lemma markUnreachable_eq {successor : Bool}
    (h : a.markUnreachable constantTarget d branch = some !successor) :
    constantTarget branch = some !successor ∨
      Unknown a.graph a.type d ∧ a.target d = some (branch, successor) := by
  unfold markUnreachable at h
  cases hr : (a.graph.definition d).range with
  | some r =>
    rw [hr] at h
    exact Or.inl h
  | none =>
    cases htarget : a.target d with
    | none =>
      rw [hr, htarget] at h
      exact Or.inl h
    | some target =>
      obtain ⟨b, s⟩ := target
      rw [hr, htarget] at h
      have hupdate : Function.update constantTarget b (some !s) branch = some !successor := h
      by_cases hb : branch = b
      · rw [hb, Function.update_self] at hupdate
        have hs : s = successor := Bool.not_inj (Option.some.inj hupdate)
        refine Or.inr ⟨⟨hr, fun htype => ?_⟩, by rw [hb, hs]⟩
        rw [a.type_of_target htarget] at htype
        cases htype
      · rw [Function.update_of_ne hb] at hupdate
        exact Or.inl hupdate

lemma foldl_markUnreachable {constraints : List ℕ} {successor : Bool}
    (h : constraints.foldl a.markUnreachable constantTarget branch = some !successor) :
    constantTarget branch = some !successor ∨
      ∃ d ∈ constraints, Unknown a.graph a.type d ∧ a.target d = some (branch, successor) := by
  induction constraints generalizing constantTarget with
  | nil => exact Or.inl h
  | cons d rest ih =>
    rcases ih h with hhead | ⟨e, he, hunknown⟩
    · rcases a.markUnreachable_eq hhead with hpre | hunknown
      · exact Or.inl hpre
      · exact Or.inr ⟨d, mem_cons_self, hunknown⟩
    · exact Or.inr ⟨e, mem_cons_of_mem d he, hunknown⟩

/-- A value in both ranges lies in their intersection, which is then not found to be empty, and no
run enters a successor that a branch is redirected away from. -/
theorem constraints_lose_no_value :
    (∀ env : Execution a.graph, env.ExactSums → ∀ valueRange constraint : Range,
      valueRange.SmiSymbols env.toValuation → constraint.SmiSymbols env.toValuation → ∀ v : ℤ,
      valueRange.Contains env.value v → constraint.Contains env.value v →
        (a.graph.intersect valueRange constraint).Contains env.value v ∧
          a.graph.isUnsatisfiable (a.graph.intersect valueRange constraint) = false) ∧
      ∀ (trace : List (ℕ × Execution a.graph)) (constantTarget : ℕ → Option Bool) (branch : ℕ)
        (successor : Bool), a.Run trace → a.Enters trace branch successor →
          a.markUnreachableBlocks constantTarget branch = some !successor →
            constantTarget branch = some !successor := by
  constructor
  · intro env hexact valueRange constraint hvalue hconstraint v hv hv'
    obtain ⟨hsymbols, hcontains⟩ := env.contains_intersect hexact hvalue hconstraint
    have hmem := hcontains v hv hv'
    exact ⟨hmem, env.isUnsatisfiable_of_contains hsymbols hmem⟩
  · intro trace constantTarget branch successor hrun henters hmarked
    rcases a.foldl_markUnreachable hmarked with hbefore | ⟨d, hd, hunknown, htarget⟩
    · exact hbefore
    · exact absurd hunknown (hrun.not_unknown d (henters d hd htarget))

end Analysis

/-- A number from zero to ten, five and zero. The first branch is on whether the number is below
five and both of its successors are live, the second one, where it is not, on whether it is below
zero. -/
def branchesGraph : FlowGraph where
  definition
    | 0 => ⟨.other, some ⟨.constant 0 isInt64_zero, .constant 10 (by decide), .refl false, rfl⟩, 0⟩
    | 1 => ⟨.constant 5 ⟨by decide, by decide⟩,
        some ⟨.constant 5 (by decide), .constant 5 (by decide), rfl, rfl⟩, 0⟩
    | 2 => ⟨.constant 0 isSmi_zero, some ⟨.constant 0 isInt64_zero, .constant 0 isInt64_zero,
        .refl false, .refl false⟩, 0⟩
    | 3 => ⟨.constraint 0,
        some ⟨.constant 0 isInt64_zero, .constant 4 (by decide), .refl false, rfl⟩,
        1⟩
    | 4 => ⟨.constraint 0, some ⟨.constant 5 (by decide), .constant 10 (by decide), rfl, rfl⟩, 2⟩
    | 5 => ⟨.constraint 4, none, 3⟩
    | 6 => ⟨.constraint 4, some ⟨.constant 5 (by decide), .constant 10 (by decide), rfl, rfl⟩, 4⟩
    | _ => ⟨.other, none, 0⟩
  cseEqual _ _ := false
  dominates _ _ := true
  constraint_lt d v h := by
    split at h <;> cases h
    all_goals decide
  binarySmiOp_lt d op left right t h := by
    split at h <;> cases h
  min_lt d r h s o ho hmin := by
    split at h <;> cases h <;> cases hmin
  max_lt d r h s o ho hmax := by
    split at h <;> cases h <;> cases hmax

def branchesAnalysis : Analysis where
  graph := branchesGraph
  type d := if d ≤ 6 then .smi else .other
  kind
    | 3 => .constraint ⟨0, .branch 0 .lt true 1 true⟩
    | 4 => .constraint ⟨0, .branch 0 .lt true 1 false⟩
    | 5 => .constraint ⟨4, .branch 1 .lt true 2 true⟩
    | 6 => .constraint ⟨4, .branch 1 .lt true 2 false⟩
    | _ => .operation []
  constraints := [3, 4, 5, 6]
  constraint_type d instr h := by
    split at h <;> first | rfl | cases h
  constraint_kind d instr h := by
    split at h <;> cases h <;> rfl
  stable d h := by
    obtain ⟨hr, htype⟩ := h
    match d with
    | 0 | 1 | 2 | 3 | 4 | 6 => cases hr
    | 5 =>
      show branchesGraph.inferConstraint _ _ = none
      decide +kernel
    | _ + 7 => exact absurd (if_neg (by omega)) htype

/-- The number is seven, and the definitions below `n` are executed but the constraint of the
successor that is not taken. -/
def sevenExecution (n : ℕ) : Execution branchesGraph where
  value
    | 0 | 4 | 6 => 7
    | 1 => 5
    | _ => 0
  executed d := d < n ∧ d ∈ [0, 1, 2, 4]
  constant_value d c h hkind := by
    match d with
    | 0 | 3 | 4 | 5 | 6 | _ + 7 => cases hkind
    | 1 | 2 =>
      cases hkind
      rfl
  arrayLength_smi d _ _ := by
    split <;> exact ⟨by decide, by decide⟩
  range_correct d r hexecuted h := by
    match d with
    | 0 =>
      cases h
      exact ⟨show (0 : ℤ) ≤ 7 by decide, show (7 : ℤ) ≤ 10 by decide⟩
    | 1 =>
      cases h
      exact ⟨le_refl (5 : ℤ), le_refl (5 : ℤ)⟩
    | 2 =>
      cases h
      exact ⟨le_refl (0 : ℤ), le_refl (0 : ℤ)⟩
    | 3 => exact absurd hexecuted.2 (by decide)
    | 4 | 6 =>
      cases h
      exact ⟨show (5 : ℤ) ≤ 7 by decide, show (7 : ℤ) ≤ 10 by decide⟩
    | 5 | _ + 7 => cases h
  range_symbols d r _ h := by
    match d with
    | 0 | 1 | 2 | 3 | 4 | 6 =>
      cases h
      exact ⟨trivial, trivial⟩
    | 5 | _ + 7 => cases h
  constraint_value d v hexecuted hkind := by
    match d with
    | 0 | 1 | 2 | _ + 7 => cases hkind
    | 3 | 5 | 6 => exact absurd hexecuted.2 (by decide)
    | 4 =>
      cases hkind
      exact ⟨⟨lt_of_le_of_lt (Nat.zero_le 4) hexecuted.1, by decide⟩, rfl⟩
  cse_value x y _ _ h := by cases h
  operands_known d op left right t _ hkind := by
    match d with
    | 0 | 1 | 2 | 3 | 4 | 5 | 6 | _ + 7 => cases hkind
  add_value d left right t _ hkind := by
    match d with
    | 0 | 1 | 2 | 3 | 4 | 5 | 6 | _ + 7 => cases hkind
  sub_value d left right t _ hkind := by
    match d with
    | 0 | 1 | 2 | 3 | 4 | 5 | 6 | _ + 7 => cases hkind

lemma sevenExecution_exactSums (n : ℕ) : (sevenExecution n).ExactSums where
  add d left right _ hkind := by
    match d with
    | 0 | 1 | 2 | 3 | 4 | 5 | 6 | _ + 7 => cases hkind
  sub d left right _ hkind := by
    match d with
    | 0 | 1 | 2 | 3 | 4 | 5 | 6 | _ + 7 => cases hkind

/-- The run takes the second successor of both branches. -/
def sevenTrace : List (ℕ × Execution branchesGraph) :=
  [(6, sevenExecution 5), (4, sevenExecution 3), (2, sevenExecution 0), (1, sevenExecution 0),
    (0, sevenExecution 0)]

lemma branchesAnalysis_run : branchesAnalysis.Run sevenTrace := by
  have hnone : ∀ e, ¬(sevenExecution 0).executed e := fun e h => Nat.not_lt_zero e h.1
  have hentry : branchesAnalysis.Run
      [(2, sevenExecution 0), (1, sevenExecution 0), (0, sevenExecution 0)] := by
    refine .execute (.execute (.execute .start ?_ (sevenExecution_exactSums 0) ?_ ?_) ?_
      (sevenExecution_exactSums 0) ?_ ?_) ?_ (sevenExecution_exactSums 0) ?_ ?_
    all_goals first
      | exact fun operand h => absurd h not_mem_nil
      | exact fun e h => absurd h (hnone e)
      | exact fun instr h => by cases h
  refine .execute (.execute hentry ?_ (sevenExecution_exactSums 3) ?_ ?_) ?_
    (sevenExecution_exactSums 5) ?_ ?_
  · exact mem_cons_of_mem 2 (mem_cons_of_mem 1 mem_cons_self)
  · intro e h
    obtain ⟨hlt, -⟩ := h
    interval_cases e <;> decide
  · intro instr h
    cases h
    exact ⟨⟨by decide, by decide⟩, ⟨by decide, by decide⟩,
      ⟨⟨by decide, by decide⟩, by decide, by decide⟩,
      rfl⟩
  · exact mem_cons_self
  · intro e h
    exact mem_reverse.mpr h.2
  · intro instr h
    cases h
    exact ⟨⟨by decide, by decide⟩, ⟨by decide, by decide⟩,
      ⟨⟨by decide, by decide⟩, by decide, by decide⟩,
      rfl⟩

lemma branchesAnalysis_enters (branch : ℕ) : branchesAnalysis.Enters sevenTrace branch false := by
  intro d hd htarget
  fin_cases hd
  · cases htarget
  · exact mem_cons_of_mem 6 mem_cons_self
  · cases htarget
  · exact mem_cons_self

/-- Seven lies in the intersection. Only the second branch is redirected, to the successor that the
run enters. -/
theorem constraints_lose_no_seven :
    (branchesGraph.intersect ⟨.constant 0 (by decide), .constant 10 (by decide), rfl, rfl⟩
        (branchesGraph.constraintSmiRange .gte 1)).Contains (sevenExecution 3).value 7 ∧
      branchesAnalysis.markUnreachableBlocks (fun _ => none) 0 = none ∧
      branchesAnalysis.markUnreachableBlocks (fun _ => none) 1 = some false ∧
      ∀ branch, branchesAnalysis.markUnreachableBlocks (fun _ => none) branch ≠ some true := by
  obtain ⟨hintersect, hmark⟩ := branchesAnalysis.constraints_lose_no_value
  have hseven : (Range.mk (.constant 0 (by decide)) (.constant 10 (by decide)) rfl rfl).Contains
      (sevenExecution 3).value 7 := ⟨show (0 : ℤ) ≤ 7 by decide, show (7 : ℤ) ≤ 10 by decide⟩
  have hgte : (branchesGraph.constraintSmiRange .gte 1).Contains (sevenExecution 3).value 7 :=
    ⟨show (5 : ℤ) + 0 ≤ 7 by decide, show 7 ≤ smiMax by decide⟩
  obtain ⟨hmem, -⟩ := hintersect (sevenExecution 3) (sevenExecution_exactSums 3)
    ⟨.constant 0 (by decide), .constant 10 (by decide), rfl, rfl⟩
      (branchesGraph.constraintSmiRange .gte 1)
    ⟨trivial, trivial⟩ ⟨trivial, trivial⟩ 7 hseven hgte
  refine ⟨hmem, by decide +kernel, by decide +kernel, ?_⟩
  intro branch hmarked
  have hbefore := hmark _ _ branch false branchesAnalysis_run
    (branchesAnalysis_enters branch) hmarked
  cases hbefore

/-- A number, the number plus one in small integers, and a number that is at least that. -/
def wrappingGraph : FlowGraph where
  definition
    | 1 => ⟨.constant 1 isSmi_one, none, 0⟩
    | 2 => ⟨.binarySmiOp .add 0 1 true, none, 0⟩
    | 3 => ⟨.other, some ⟨.symbol 2 0 (.refl true), .maxConstant .smi, .refl false, .refl false⟩, 0⟩
    | _ => ⟨.other, none, 0⟩
  cseEqual _ _ := false
  dominates _ _ := true
  constraint_lt d v h := by
    split at h <;> cases h
  binarySmiOp_lt d op left right t h := by
    split at h <;> cases h
    exact ⟨Nat.zero_lt_two, Nat.lt_succ_self 1⟩
  min_lt d r h s o ho hmin := by
    split at h <;> cases h
    cases hmin
    exact Nat.lt_succ_self 2
  max_lt d r h s o ho hmax := by
    split at h <;> cases h
    cases hmax

/-- The first number is the largest small integer. -/
def wrappingValue : ℕ → ℤ
  | 0 => smiMax
  | 1 => 1
  | 2 => smiMin
  | 3 => smiMin
  | _ => 0

lemma isSmi_wrappingValue (d : ℕ) : IsSmi (wrappingValue d) := by
  unfold wrappingValue
  split <;> exact ⟨by decide, by decide⟩

def wrappingExecution : Execution wrappingGraph where
  value := wrappingValue
  executed _ := True
  constant_value d c h hkind := by
    match d with
    | 0 | 2 | 3 | _ + 4 => cases hkind
    | 1 =>
      cases hkind
      rfl
  arrayLength_smi d _ _ := isSmi_wrappingValue d
  range_correct d r _ h := by
    match d with
    | 0 | 1 | 2 | _ + 4 => cases h
    | 3 =>
      cases h
      exact ⟨show smiMin + 0 ≤ smiMin by decide, show smiMin ≤ smiMax by decide⟩
  range_symbols d r _ _ := ⟨r.min.smiSymbol_of_forall fun d => ⟨trivial, isSmi_wrappingValue d⟩,
    r.max.smiSymbol_of_forall fun d => ⟨trivial, isSmi_wrappingValue d⟩⟩
  constraint_value d v _ hkind := by
    match d with
    | 0 | 1 | 2 | 3 | _ + 4 => cases hkind
  cse_value x y _ _ h := by cases h
  operands_known d op left right t _ _ :=
    ⟨⟨trivial, isSmi_wrappingValue left⟩, ⟨trivial, isSmi_wrappingValue right⟩⟩
  add_value d left right t _ hkind := by
    match d with
    | 0 | 1 | 3 | _ + 4 => cases hkind
    | 2 =>
      cases hkind
      decide
  sub_value d left right t _ hkind := by
    match d with
    | 0 | 1 | 2 | 3 | _ + 4 => cases hkind

/-- The largest small integer lies in both ranges but is lost: the third number is taken to be
larger than the first. -/
theorem wrapped_value_lost :
    (Range.mk (.symbol 3 0 rfl) (.symbol 0 0 rfl) rfl rfl).Contains wrappingExecution.value smiMax ∧
      (wrappingGraph.constraintSmiRange .gte 0).Contains wrappingExecution.value smiMax ∧
      wrappingGraph.intersect ⟨.symbol 3 0 rfl, .symbol 0 0 rfl, rfl, rfl⟩
          (wrappingGraph.constraintSmiRange .gte 0) =
        ⟨.symbol 0 1 rfl, .symbol 0 0 rfl, rfl, rfl⟩ ∧
      ¬(Range.mk (.symbol 0 1 rfl) (.symbol 0 0 rfl) rfl rfl).Contains wrappingExecution.value
        smiMax ∧
      wrappingGraph.isUnsatisfiable ⟨.symbol 0 1 rfl, .symbol 0 0 rfl, rfl, rfl⟩ = true := by
  refine ⟨⟨show smiMin + 0 ≤ smiMax by decide, show smiMax ≤ smiMax + 0 by decide⟩,
    ⟨show smiMax + 0 ≤ smiMax by decide, le_refl smiMax⟩, by decide +kernel, fun h => ?_,
    by decide +kernel⟩
  have hbelow : smiMax + 1 ≤ smiMax := h.below
  omega

end DartSdk.RangeAnalysis
