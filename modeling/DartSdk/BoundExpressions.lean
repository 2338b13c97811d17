import DartSdk.PlatformUtils

/-!
Simplification of the expressions that `BoundsCheckGeneralizer` builds for the bounds of an index
(`BoundsCheckGeneralizer::Simplify`). Constants are collected from sums and differences, and either
given to the caller or added to what remains. The expressions are trees: an operation that is
changed in place has one user.
-/

namespace DartSdk.BoundExpressions

open PlatformUtils SignedWords List

inductive OpKind where
  | add
  | sub
  | mul
  | other
  deriving DecidableEq, Repr

/-- A constant is a small integer or another integer object; an operation with an SSA temporary is
in the graph, one without is floating. -/
inductive Definition (ι : Type) where
  | constant (value : ℤ)
  | symbol (i : ι)
  | constraint (value : Definition ι)
  | binarySmiOp (opKind : OpKind) (hasSSATemp : Bool) (left right : Definition ι)
  deriving DecidableEq, Repr

variable {ι : Type}

def Definition.unwrapConstraint : Definition ι → Definition ι
  | .constraint value => value.unwrapConstraint
  | d => d

/-- The numbers that a simplification makes small integers of, and what it returns. -/
structure Run (α : Type) where
  created : List ℤ
  result : Option α

namespace Run

variable {α β : Type}

def pure (x : α) : Run α := ⟨[], some x⟩

def abort : Run α := ⟨[], none⟩

def bind (r : Run α) (f : α → Run β) : Run β :=
  match r.result with
  | none => ⟨r.created, none⟩
  | some x => ⟨r.created ++ (f x).created, (f x).result⟩

/-- `Smi::New` drops the bits that do not fit. -/
def newSmi (value : ℤ) : Run ℤ := ⟨[value], some (wrap 62 value)⟩

end Run

/-- What `Simplify` leaves in its arguments: the definition, if any is left, the constant, and
whether the pointer to the definition is the old one. -/
structure Simplified (ι : Type) where
  defn : Option (Definition ι)
  constant : ℤ
  isSame : Bool

open Run

/-- The operation on simplified operands, changed in place if it is floating. -/
def rebuild (opKind : OpKind) (hasSSATemp : Bool) (left right : Definition ι)
    (leftSame rightSame : Bool) : Definition ι × Bool :=
  if leftSame && rightSame then (.binarySmiOp opKind hasSSATemp left right, true)
  else if !hasSSATemp then (.binarySmiOp opKind false left right, true)
  else (.binarySmiOp opKind false left.unwrapConstraint right.unwrapConstraint, false)

/-- The end of `Simplify`: what is left of the constant is added unless the caller takes it. -/
def finish (wantsConstant : Bool) (c : ℤ) (defn : Definition ι × Bool) : Run (Simplified ι) :=
  if wantsConstant then pure ⟨some defn.1, c, defn.2⟩
  else if c ≠ 0 then
    (newSmi c).bind fun k =>
      pure ⟨some (.binarySmiOp .add false defn.1 (.constant k)), 0, false⟩
  else pure ⟨some defn.1, 0, defn.2⟩

/-- Both operands were constants. -/
def onlyConstant (wantsConstant : Bool) (c : ℤ) : Run (Simplified ι) :=
  if wantsConstant then pure ⟨none, c, false⟩
  else (newSmi c).bind fun k => pure ⟨some (.constant k), 0, false⟩

/-- One operand is left with a constant: the operand itself if nothing is to be added to it. -/
def oneOperand (wantsConstant : Bool) (c : ℤ) (operand : Definition ι)
    (otherwise : Run (Simplified ι)) : Run (Simplified ι) :=
  if wantsConstant then pure ⟨some operand, c, false⟩
  else if c = 0 then pure ⟨some operand, 0, false⟩
  else otherwise

def simplifyAdd (wantsConstant hasSSATemp : Bool) (left right : Simplified ι) :
    Run (Simplified ι) :=
  let c := left.constant + right.constant
  if willAddOverflow left.constant right.constant || !decide (IsSmi c) then abort
  else
    match left.defn, right.defn with
    | none, none => onlyConstant wantsConstant c
    | none, some r =>
      -- The operand moves to the left, the constant takes its place.
      oneOperand wantsConstant c r
        ((newSmi c).bind fun k =>
          finish wantsConstant 0 (rebuild .add hasSSATemp r (.constant k) false false))
    | some l, none =>
      oneOperand wantsConstant c l
        ((newSmi c).bind fun k =>
          finish wantsConstant 0 (rebuild .add hasSSATemp l (.constant k) left.isSame false))
    | some l, some r =>
      finish wantsConstant c (rebuild .add hasSSATemp l r left.isSame right.isSame)

def simplifySub (wantsConstant hasSSATemp : Bool) (left right : Simplified ι) :
    Run (Simplified ι) :=
  let c := left.constant - right.constant
  if willSubOverflow left.constant right.constant || !decide (IsSmi c) then abort
  else
    match left.defn, right.defn with
    | none, none => onlyConstant wantsConstant c
    | none, some r =>
      (newSmi 0).bind fun k =>
        finish wantsConstant c (rebuild .sub hasSSATemp (.constant k) r false right.isSame)
    | some l, none =>
      oneOperand wantsConstant c l
        ((newSmi (-c)).bind fun k =>
          finish wantsConstant 0 (rebuild .sub hasSSATemp l (.constant k) left.isSame false))
    | some l, some r =>
      finish wantsConstant c (rebuild .sub hasSSATemp l r left.isSame right.isSame)

def simplifyMul (wantsConstant hasSSATemp : Bool) (left right : Simplified ι) :
    Run (Simplified ι) :=
  match left.defn, right.defn with
  | some l, some r =>
    finish wantsConstant 0 (rebuild .mul hasSSATemp l r left.isSame right.isSame)
  | _, _ => abort

/-- `BoundsCheckGeneralizer::Simplify`. A constant is asked for by a pointer to a variable that
holds zero. -/
def simplify (wantsConstant : Bool) : Definition ι → Run (Simplified ι)
  | .binarySmiOp .add hasSSATemp left right =>
    (simplify true left).bind fun l =>
      (simplify true right).bind fun r => simplifyAdd wantsConstant hasSSATemp l r
  | .binarySmiOp .sub hasSSATemp left right =>
    (simplify true left).bind fun l =>
      (simplify true right).bind fun r => simplifySub wantsConstant hasSSATemp l r
  | .binarySmiOp .mul hasSSATemp left right =>
    (simplify false left).bind fun l =>
      (simplify false right).bind fun r => simplifyMul wantsConstant hasSSATemp l r
  | .constant value =>
    if wantsConstant && decide (IsSmi value) then pure ⟨none, value, false⟩
    else pure ⟨some (.constant value), 0, true⟩
  -- Don't attempt to simplify any other binary operation.
  | .binarySmiOp .other hasSSATemp left right =>
    pure ⟨some (.binarySmiOp .other hasSSATemp left right), 0, true⟩
  | .symbol i => pure ⟨some (.symbol i), 0, true⟩
  | .constraint value => pure ⟨some (.constraint value), 0, true⟩

/-- Numbers for the symbols, and the meaning of the operations that are not simplified. -/
structure Assignment (ι : Type) where
  symbol : ι → ℤ
  other : ℤ → ℤ → ℤ

/-- The value of a definition over the integers. -/
def Definition.eval (E : Assignment ι) : Definition ι → ℤ
  | .constant value => value
  | .symbol i => E.symbol i
  | .constraint value => value.eval E
  | .binarySmiOp .add _ left right => left.eval E + right.eval E
  | .binarySmiOp .sub _ left right => left.eval E - right.eval E
  | .binarySmiOp .mul _ left right => left.eval E * right.eval E
  | .binarySmiOp .other _ left right => E.other (left.eval E) (right.eval E)

/-- A missing definition counts as zero. -/
def Simplified.value (E : Assignment ι) (s : Simplified ι) : ℤ :=
  match s.defn with
  | none => 0
  | some d => d.eval E

/-- The subtree is a sum or difference of constants. -/
def Definition.IsConstant : Definition ι → Prop
  | .constant value => IsSmi value
  | .binarySmiOp .add _ left right => left.IsConstant ∧ right.IsConstant
  | .binarySmiOp .sub _ left right => left.IsConstant ∧ right.IsConstant
  | _ => False

/-- The constant that sums and differences collect from a subtree. -/
def Definition.constantPart : Definition ι → ℤ
  | .constant value => if IsSmi value then value else 0
  | .binarySmiOp .add _ left right => left.constantPart + right.constantPart
  | .binarySmiOp .sub _ left right => left.constantPart - right.constantPart
  | _ => 0

/-- Every constant that is collected on the way is a small integer. -/
def Definition.NoOverflow : Definition ι → Prop
  | .binarySmiOp .add _ left right =>
    left.NoOverflow ∧ right.NoOverflow ∧ IsSmi (left.constantPart + right.constantPart)
  | .binarySmiOp .sub _ left right =>
    left.NoOverflow ∧ right.NoOverflow ∧ IsSmi (left.constantPart - right.constantPart)
  | .binarySmiOp .mul _ left right => left.NoOverflow ∧ right.NoOverflow
  | _ => True

/-- A difference whose constant is not asked for collects the smallest small integer from a constant
on the right. -/
def NegatesMinimumHere (wantsConstant : Bool) (left right : Definition ι) : Prop :=
  wantsConstant = false ∧ ¬ left.IsConstant ∧ right.IsConstant ∧
    left.constantPart - right.constantPart = smiMin

/-- Simplification comes to such a difference before it gives up. -/
def NegatesMinimum : Bool → Definition ι → Prop
  | _, .binarySmiOp .add _ left right =>
    NegatesMinimum true left ∨ left.NoOverflow ∧ NegatesMinimum true right
  | wantsConstant, .binarySmiOp .sub _ left right =>
    NegatesMinimum true left ∨ left.NoOverflow ∧
      (NegatesMinimum true right ∨
        right.NoOverflow ∧ NegatesMinimumHere wantsConstant left right)
  | _, .binarySmiOp .mul _ left right =>
    NegatesMinimum false left ∨ left.NoOverflow ∧ NegatesMinimum false right
  | _, _ => False

/-- Every number that is made a small integer is one. -/
def Run.Valid {α : Type} (r : Run α) : Prop := ∀ v ∈ r.created, IsSmi v

namespace Run

variable {α β : Type}

lemma result_bind_eq_some {r : Run α} {f : α → Run β} {y : β} :
    (r.bind f).result = some y ↔ ∃ x, r.result = some x ∧ (f x).result = some y := by
  unfold Run.bind
  cases r.result with
  | none => simp
  | some x => simp

lemma valid_bind {r : Run α} {f : α → Run β} :
    (r.bind f).Valid ↔ r.Valid ∧ ∀ x, r.result = some x → (f x).Valid := by
  unfold Run.bind Valid
  cases r.result with
  | none => simp
  | some x =>
    simp only [mem_append, Option.some.injEq, forall_eq']
    exact ⟨fun h => ⟨fun v hv => h v (Or.inl hv), fun v hv => h v (Or.inr hv)⟩,
      fun h v hv => hv.elim (h.1 v) (h.2 v)⟩

lemma valid_pure (x : α) : (pure x).Valid := fun _ hv => absurd hv not_mem_nil

lemma valid_abort : (abort : Run α).Valid := fun _ hv => absurd hv not_mem_nil

lemma valid_newSmi {value : ℤ} : (newSmi value).Valid ↔ IsSmi value := by
  unfold Valid newSmi
  simp only [mem_singleton, forall_eq]

end Run

lemma wrap_of_isSmi {x : ℤ} (h : IsSmi x) : wrap 62 x = x := by
  apply wrap_of_fits
  unfold IsSmi smiMin smiMax at h
  unfold Fits
  omega

/-- A run returns the given constant, and the given value if it creates small integers only. -/
structure Yields (wantsConstant : Bool) (run : Run (Simplified ι)) (mayBeEmpty : Prop) (c : ℤ)
    (value : Assignment ι → ℤ) (s : Simplified ι) : Prop where
  result_eq : run.result = some s
  constant_eq : s.constant = if wantsConstant then c else 0
  defn_eq_none_iff : s.defn = none ↔ wantsConstant = true ∧ mayBeEmpty
  value_eq : run.Valid → ∀ E, s.value E + s.constant = value E

lemma onlyConstant_yields (wants : Bool) (c : ℤ) :
    ∃ s : Simplified ι, Yields wants (onlyConstant wants c) True c (fun _ => c) s := by
  unfold onlyConstant
  cases wants with
  | true => exact ⟨_, rfl, rfl, by simp, fun _ E => zero_add c⟩
  | false =>
    simp only [Bool.false_eq_true, if_false]
    refine ⟨_, rfl, rfl, by simp, fun hv E => ?_⟩
    have hc := valid_newSmi.mp (valid_bind.mp hv).1
    change wrap 62 c + 0 = c
    rw [wrap_of_isSmi hc, add_zero]

variable {wants : Bool} {c : ℤ}

lemma valid_onlyConstant (hc : IsSmi c) : (onlyConstant wants c : Run (Simplified ι)).Valid := by
  cases wants with
  | true => exact valid_pure _
  | false => exact valid_bind.mpr ⟨valid_newSmi.mpr hc, fun _ _ => valid_pure _⟩

lemma finish_yields (wants : Bool) (c : ℤ) (d : Definition ι × Bool) :
    ∃ s, Yields wants (finish wants c d) False c (fun E => d.1.eval E + c) s := by
  unfold finish
  cases wants with
  | true => exact ⟨_, rfl, rfl, by simp, fun _ E => rfl⟩
  | false =>
    by_cases hzero : c = 0
    · subst hzero
      exact ⟨_, rfl, rfl, by simp, fun _ E => rfl⟩
    · simp only [Bool.false_eq_true, if_false, if_pos hzero]
      refine ⟨_, rfl, rfl, by simp, fun hv E => ?_⟩
      have hc := valid_newSmi.mp (valid_bind.mp hv).1
      change d.1.eval E + wrap 62 c + 0 = d.1.eval E + c
      rw [wrap_of_isSmi hc, add_zero]

lemma valid_finish (hc : IsSmi c) (d : Definition ι × Bool) : (finish wants c d).Valid := by
  unfold finish
  split_ifs
  · exact valid_pure _
  · exact valid_bind.mpr ⟨valid_newSmi.mpr hc, fun _ _ => valid_pure _⟩
  · exact valid_pure _

lemma eval_unwrapConstraint (E : Assignment ι) (d : Definition ι) :
    d.unwrapConstraint.eval E = d.eval E := by
  induction d with
  | constant value => rfl
  | symbol i => rfl
  | constraint value ih => exact ih
  | binarySmiOp op ssa left right => rfl

lemma eval_rebuild (E : Assignment ι) (op : OpKind) (ssa : Bool) (left right : Definition ι)
    (leftSame rightSame : Bool) :
    (rebuild op ssa left right leftSame rightSame).1.eval E =
      (Definition.binarySmiOp op ssa left right).eval E := by
  unfold rebuild
  split_ifs
  · rfl
  · cases op <;> rfl
  · cases op <;> simp only [Definition.eval, eval_unwrapConstraint]

lemma newSmi_bind_yields {wants : Bool} {v : ℤ} {f : ℤ → Run (Simplified ι)} {empty : Prop}
    {c : ℤ} {value : ℤ → Assignment ι → ℤ} (hf : ∀ k, ∃ s, Yields wants (f k) empty c (value k) s) :
    ∃ s, Yields wants ((newSmi v).bind f) empty c (value v) s := by
  obtain ⟨s, hs⟩ := hf (wrap 62 v)
  refine ⟨s, hs.result_eq, hs.constant_eq, hs.defn_eq_none_iff, fun hv E => ?_⟩
  obtain ⟨hnew, hrest⟩ := valid_bind.mp hv
  have hval := hs.value_eq (hrest _ rfl) E
  rwa [wrap_of_isSmi (valid_newSmi.mp hnew)] at hval

variable {s : Simplified ι}

variable {value value' : Assignment ι → ℤ} {otherwise : Run (Simplified ι)} {mode ssa : Bool}

lemma Yields.congr {run : Run (Simplified ι)} {empty empty' : Prop}
    (h : Yields wants run empty c value s)
    (hemp : empty ↔ empty') (hval : ∀ E, value E = value' E) :
    Yields wants run empty' c value' s :=
  ⟨h.result_eq, h.constant_eq, h.defn_eq_none_iff.trans (and_congr_right fun _ => hemp),
    fun hv E => (h.value_eq hv E).trans (hval E)⟩

variable {d : Definition ι}

lemma oneOperand_yields
    (h : wants = false → ∃ s, Yields false otherwise False 0 (fun E => d.eval E + c) s) :
    ∃ s, Yields wants (oneOperand wants c d otherwise) False c (fun E => d.eval E + c) s := by
  unfold oneOperand
  cases wants with
  | true => exact ⟨_, rfl, rfl, by simp, fun _ E => rfl⟩
  | false =>
    by_cases hzero : c = 0
    · subst hzero
      exact ⟨_, rfl, rfl, by simp, fun _ E => rfl⟩
    · simp only [Bool.false_eq_true, if_false, if_neg hzero]
      obtain ⟨s, hs⟩ := h rfl
      exact ⟨s, hs.result_eq, hs.constant_eq, hs.defn_eq_none_iff, hs.value_eq⟩

lemma valid_oneOperand :
    (oneOperand wants c d otherwise).Valid ↔ (wants = false → c ≠ 0 → otherwise.Valid) := by
  unfold oneOperand
  cases wants with
  | true => simp [valid_pure]
  | false =>
    by_cases hzero : c = 0
    · simp [hzero, valid_pure]
    · simp [hzero]

lemma isSmi_zero : IsSmi 0 := by decide

lemma willAddOverflow_of_isSmi {a b : ℤ} (ha : IsSmi a) (hb : IsSmi b) :
    willAddOverflow a b = false := by
  unfold IsSmi smiMin smiMax at ha hb
  unfold willAddOverflow minInt64 maxInt64
  simp only [Bool.or_eq_false_iff, Bool.and_eq_false_iff, decide_eq_false_iff_not]
  omega

lemma willSubOverflow_of_isSmi {a b : ℤ} (ha : IsSmi a) (hb : IsSmi b) :
    willSubOverflow a b = false := by
  unfold IsSmi smiMin smiMax at ha hb
  unfold willSubOverflow minInt64 maxInt64
  simp only [Bool.or_eq_false_iff, Bool.and_eq_false_iff, decide_eq_false_iff_not]
  omega

lemma Simplified.value_of_none (h : s.defn = none) (E : Assignment ι) : s.value E = 0 := by
  unfold value
  rw [h]

lemma Simplified.value_of_some (h : s.defn = some d) (E : Assignment ι) : s.value E = d.eval E := by
  unfold value
  rw [h]

section Combine

variable {left right : Simplified ι} (wants ssa : Bool)

lemma attach_yields (op : OpKind) (d : Definition ι) (same : Bool) (v : ℤ) :
    ∃ s, Yields false
      ((newSmi v).bind fun k => finish false 0 (rebuild op ssa d (.constant k) same false)) False 0
      (fun E => (Definition.binarySmiOp op ssa d (.constant v)).eval E) s := by
  refine @newSmi_bind_yields _ _ v _ _ _
    (fun k E => (Definition.binarySmiOp op ssa d (.constant k)).eval E) fun k => ?_
  obtain ⟨s, hs⟩ := finish_yields false 0 (rebuild op ssa d (.constant k) same false)
  exact ⟨s, hs.congr Iff.rfl fun E => by rw [eval_rebuild, add_zero]⟩

section

variable (hl : IsSmi left.constant) (hr : IsSmi right.constant)

include hl hr

lemma simplifyAdd_yields (hc : IsSmi (left.constant + right.constant)) :
    ∃ s, Yields wants (simplifyAdd wants ssa left right) (left.defn = none ∧ right.defn = none)
      (left.constant + right.constant)
      (fun E => left.value E + right.value E + (left.constant + right.constant)) s := by
  have hgo : (willAddOverflow left.constant right.constant ||
      !decide (IsSmi (left.constant + right.constant))) = false := by
    rw [willAddOverflow_of_isSmi hl hr, decide_eq_true hc]
    rfl
  unfold simplifyAdd
  dsimp only
  rw [hgo]
  generalize left.constant + right.constant = c
  have hattached : ∀ (d : Definition ι) (same : Bool), wants = false →
      ∃ s, Yields false ((newSmi c).bind fun k =>
        finish wants 0 (rebuild .add ssa d (.constant k) same false)) False 0
          (fun E => d.eval E + c) s := by
    rintro d same rfl
    exact attach_yields ssa .add d same c
  cases hleft : left.defn with
  | none =>
    cases hright : right.defn with
    | none =>
      obtain ⟨s, hs⟩ := @onlyConstant_yields ι wants c
      refine ⟨s, hs.congr (by simp) fun E => ?_⟩
      rw [Simplified.value_of_none hleft, Simplified.value_of_none hright]
      ring
    | some r =>
      obtain ⟨s, hs⟩ := oneOperand_yields (hattached r false)
      refine ⟨s, hs.congr (by simp) fun E => ?_⟩
      rw [Simplified.value_of_none hleft, Simplified.value_of_some hright, zero_add]
  | some l =>
    cases hright : right.defn with
    | none =>
      obtain ⟨s, hs⟩ := oneOperand_yields (hattached l left.isSame)
      refine ⟨s, hs.congr (by simp) fun E => ?_⟩
      rw [Simplified.value_of_some hleft, Simplified.value_of_none hright, add_zero]
    | some r =>
      obtain ⟨s, hs⟩ :=
        finish_yields wants c (rebuild .add ssa l r left.isSame right.isSame)
      refine ⟨s, hs.congr (by simp) fun E => ?_⟩
      rw [eval_rebuild, Simplified.value_of_some hleft, Simplified.value_of_some hright]
      rfl

omit hl hr in
lemma valid_simplifyAdd : (simplifyAdd wants ssa left right).Valid := by
  unfold simplifyAdd
  dsimp only
  split_ifs with hstop
  · exact valid_abort
  · rw [Bool.or_eq_true, not_or, Bool.not_eq_true', decide_eq_false_iff_not, not_not] at hstop
    obtain ⟨-, hc⟩ := hstop
    have hattached : ∀ d : ℤ → Definition ι × Bool,
        ((newSmi (left.constant + right.constant)).bind fun k => finish wants 0 (d k)).Valid :=
      fun d => valid_bind.mpr ⟨valid_newSmi.mpr hc, fun _ _ => valid_finish isSmi_zero _⟩
    split
    · exact valid_onlyConstant hc
    · exact valid_oneOperand.mpr fun _ _ => hattached _
    · exact valid_oneOperand.mpr fun _ _ => hattached _
    · exact valid_finish hc _

omit hl hr in
lemma simplifyAdd_of_not_isSmi (hc : ¬ IsSmi (left.constant + right.constant)) :
    simplifyAdd wants ssa left right = abort := by
  unfold simplifyAdd
  rw [if_pos]
  rw [decide_eq_false hc]
  exact Bool.or_true _

lemma not_stops_sub (hc : IsSmi (left.constant - right.constant)) :
    (willSubOverflow left.constant right.constant ||
      !decide (IsSmi (left.constant - right.constant))) = false := by
  rw [willSubOverflow_of_isSmi hl hr, decide_eq_true hc]
  rfl

lemma simplifySub_yields (hc : IsSmi (left.constant - right.constant)) :
    ∃ s, Yields wants (simplifySub wants ssa left right) (left.defn = none ∧ right.defn = none)
      (left.constant - right.constant)
      (fun E => left.value E - right.value E + (left.constant - right.constant)) s := by
  unfold simplifySub
  dsimp only
  rw [not_stops_sub hl hr hc]
  generalize left.constant - right.constant = c
  cases hleft : left.defn with
  | none =>
    cases hright : right.defn with
    | none =>
      obtain ⟨s, hs⟩ := @onlyConstant_yields ι wants c
      refine ⟨s, hs.congr (by simp) fun E => ?_⟩
      rw [Simplified.value_of_none hleft, Simplified.value_of_none hright]
      ring
    | some r =>
      have hzero : ∃ s, Yields wants ((newSmi 0).bind fun k =>
          finish wants c (rebuild .sub ssa (.constant k) r false right.isSame)) False c
            (fun E => 0 - r.eval E + c) s := by
        refine @newSmi_bind_yields _ _ 0 _ _ _ (fun k E => k - r.eval E + c) fun k => ?_
        obtain ⟨s, hs⟩ :=
          finish_yields wants c (rebuild .sub ssa (.constant k) r false right.isSame)
        exact ⟨s, hs.congr Iff.rfl fun E => by rw [eval_rebuild]; rfl⟩
      obtain ⟨s, hs⟩ := hzero
      refine ⟨s, hs.congr (by simp) fun E => ?_⟩
      rw [Simplified.value_of_none hleft, Simplified.value_of_some hright]
  | some l =>
    cases hright : right.defn with
    | none =>
      have hattached : wants = false → ∃ s, Yields false ((newSmi (-c)).bind fun k =>
          finish wants 0 (rebuild .sub ssa l (.constant k) left.isSame false)) False 0
            (fun E => l.eval E + c) s := by
        rintro rfl
        obtain ⟨s, hs⟩ := attach_yields ssa .sub l left.isSame (-c)
        exact ⟨s, hs.congr Iff.rfl fun E => sub_neg_eq_add _ _⟩
      obtain ⟨s, hs⟩ := oneOperand_yields hattached
      refine ⟨s, hs.congr (by simp) fun E => ?_⟩
      rw [Simplified.value_of_some hleft, Simplified.value_of_none hright, sub_zero]
    | some r =>
      obtain ⟨s, hs⟩ :=
        finish_yields wants c (rebuild .sub ssa l r left.isSame right.isSame)
      refine ⟨s, hs.congr (by simp) fun E => ?_⟩
      rw [eval_rebuild, Simplified.value_of_some hleft, Simplified.value_of_some hright]
      rfl

omit hl hr in
lemma simplifySub_of_not_isSmi (hc : ¬ IsSmi (left.constant - right.constant)) :
    simplifySub wants ssa left right = abort := by
  unfold simplifySub
  rw [if_pos]
  rw [decide_eq_false hc]
  exact Bool.or_true _

/-- Only the smallest small integer has a negation that is not one. -/
lemma valid_simplifySub :
    (simplifySub wants ssa left right).Valid ↔
      ¬ (wants = false ∧ left.defn ≠ none ∧ right.defn = none ∧
        left.constant - right.constant = smiMin) := by
  by_cases hc : IsSmi (left.constant - right.constant)
  · unfold simplifySub
    dsimp only
    rw [not_stops_sub hl hr hc]
    simp only [Bool.false_eq_true, if_false]
    generalize left.constant - right.constant = c at hc ⊢
    cases left.defn with
    | none =>
      refine iff_of_true ?_ fun h => h.2.1 rfl
      cases right.defn with
      | none => exact valid_onlyConstant hc
      | some r => exact valid_bind.mpr ⟨valid_newSmi.mpr isSmi_zero, fun _ _ => valid_finish hc _⟩
    | some l =>
      cases right.defn with
      | none =>
        have hneg : IsSmi (-c) ↔ c ≠ smiMin := by
          unfold IsSmi smiMin smiMax at *
          omega
        rw [valid_oneOperand]
        constructor
        · rintro h ⟨hwants, -, -, hmin⟩
          have hnew := valid_newSmi.mp (valid_bind.mp (h hwants (by rw [hmin]; decide))).1
          exact hneg.mp hnew hmin
        · intro h hwants _
          have hmin : c ≠ smiMin := fun hmin => h ⟨hwants, by simp, rfl, hmin⟩
          exact valid_bind.mpr ⟨valid_newSmi.mpr (hneg.mpr hmin), fun _ _ =>
            valid_finish isSmi_zero _⟩
      | some r => exact iff_of_true (valid_finish hc _) fun h => by cases h.2.2.1
  · rw [simplifySub_of_not_isSmi wants ssa hc]
    refine iff_of_true valid_abort fun h => hc ?_
    rw [h.2.2.2]
    decide

end

lemma simplifyMul_yields {l r : Definition ι} (hleft : left.defn = some l)
    (hright : right.defn = some r) :
    ∃ s, Yields wants (simplifyMul wants ssa left right) False 0
      (fun E => left.value E * right.value E) s := by
  unfold simplifyMul
  rw [hleft, hright]
  obtain ⟨s, hs⟩ := finish_yields wants 0 (rebuild .mul ssa l r left.isSame right.isSame)
  refine ⟨s, hs.congr Iff.rfl fun E => ?_⟩
  rw [eval_rebuild, Simplified.value_of_some hleft, Simplified.value_of_some hright, add_zero]
  rfl

lemma valid_simplifyMul : (simplifyMul wants ssa left right).Valid := by
  unfold simplifyMul
  split
  · exact valid_finish isSmi_zero _
  · exact valid_abort

end Combine

variable {e : Definition ι}

lemma Definition.isSmi_constantPart (h : e.NoOverflow) : IsSmi e.constantPart := by
  cases e with
  | constant value =>
    unfold constantPart
    split_ifs with hv
    · exact hv
    · exact isSmi_zero
  | symbol i => exact isSmi_zero
  | constraint value => exact isSmi_zero
  | binarySmiOp op ssa left right =>
    cases op with
    | add => exact h.2.2
    | sub => exact h.2.2
    | mul => exact isSmi_zero
    | other => exact isSmi_zero

variable {wants : Bool} {f : Simplified ι → Simplified ι → Run (Simplified ι)} {s : Simplified ι}

lemma Yields.bind_bind {runLeft runRight : Run (Simplified ι)} {emptyLeft emptyRight empty : Prop}
    {cl cr c : ℤ} {valueLeft valueRight : Assignment ι → ℤ}
    {left right : Simplified ι} (hl : Yields mode runLeft emptyLeft cl valueLeft left)
    (hr : Yields mode runRight emptyRight cr valueRight right)
    (h : Yields wants (f left right) empty c value s)
    (hval : (∀ E, left.value E + left.constant = valueLeft E) →
      (∀ E, right.value E + right.constant = valueRight E) → ∀ E, value E = value' E) :
    Yields wants (runLeft.bind fun l => runRight.bind fun r => f l r) empty c value' s where
  result_eq := result_bind_eq_some.mpr
    ⟨left, hl.result_eq, result_bind_eq_some.mpr ⟨right, hr.result_eq, h.result_eq⟩⟩
  constant_eq := h.constant_eq
  defn_eq_none_iff := h.defn_eq_none_iff
  value_eq := by
    intro hv E
    obtain ⟨hvl, hrest⟩ := valid_bind.mp hv
    obtain ⟨hvr, hlast⟩ := valid_bind.mp (hrest left hl.result_eq)
    rw [h.value_eq (hlast right hr.result_eq) E]
    exact hval (hl.value_eq hvl) (hr.value_eq hvr) E

/-- Simplification returns what the expression is made of exactly if no constant overflows. -/
def Returns (wants : Bool) (e : Definition ι) : Prop :=
  (e.NoOverflow →
    ∃ s, Yields wants (simplify wants e) e.IsConstant e.constantPart (fun E => e.eval E) s) ∧
  (¬ e.NoOverflow → (simplify wants e).result = none)

lemma Returns.noOverflow (h : Returns wants e)
    (hs : (simplify wants e).result = some s) : e.NoOverflow := by
  by_contra hover
  rw [h.2 hover] at hs
  cases hs

lemma returns_leaf (hrun : simplify wants e = Run.pure ⟨some e, 0, true⟩) (hover : e.NoOverflow)
    (hconst : ¬ (wants = true ∧ e.IsConstant)) (hpart : wants = true → e.constantPart = 0) :
    Returns wants e := by
  refine ⟨fun _ => ⟨⟨some e, 0, true⟩, ?_, ?_, ?_, fun _ E => add_zero _⟩, fun h => absurd hover h⟩
  · rw [hrun]
    rfl
  · cases wants with
    | true => exact (hpart rfl).symm
    | false => rfl
  · simpa using hconst

lemma result_bind_bind_eq_none {α : Type} {runLeft runRight : Run α} {f : α → α → Run α}
    (h : ∀ l, runLeft.result = some l → ∀ r, runRight.result = some r → (f l r).result = none) :
    (runLeft.bind fun l => runRight.bind fun r => f l r).result = none := by
  rw [Option.eq_none_iff_forall_ne_some]
  intro y hy
  obtain ⟨l, hl, hy⟩ := result_bind_eq_some.mp hy
  obtain ⟨r, hr, hy⟩ := result_bind_eq_some.mp hy
  rw [h l hl r hr] at hy
  cases hy

lemma Returns.constant_eq (h : Returns true e) (hs : (simplify true e).result = some s) :
    s.constant = e.constantPart ∧ IsSmi s.constant ∧ (s.defn = none ↔ e.IsConstant) := by
  have hno := h.noOverflow hs
  obtain ⟨s', hs'⟩ := h.1 hno
  cases hs.symm.trans hs'.result_eq
  have heq : s.constant = e.constantPart := hs'.constant_eq
  refine ⟨heq, heq ▸ Definition.isSmi_constantPart hno, ?_⟩
  rw [hs'.defn_eq_none_iff, eq_self, true_and]

variable {left right : Definition ι}

/-- Sums and differences alike: the operation on what remains and the operation on the constants. -/
lemma returns_linear {g : ℤ → ℤ → ℤ} (hg : ∀ a b c d, g a c + g b d = g (a + b) (c + d))
    (hrun : simplify wants e =
      (simplify true left).bind fun l => (simplify true right).bind fun r => f l r)
    (hover : e.NoOverflow ↔
      left.NoOverflow ∧ right.NoOverflow ∧ IsSmi (g left.constantPart right.constantPart))
    (hconst : e.IsConstant ↔ left.IsConstant ∧ right.IsConstant)
    (hpart : e.constantPart = g left.constantPart right.constantPart)
    (heval : ∀ E, e.eval E = g (left.eval E) (right.eval E))
    (hyields : ∀ sl sr, IsSmi sl.constant → IsSmi sr.constant → IsSmi (g sl.constant sr.constant) →
      ∃ s, Yields wants (f sl sr) (sl.defn = none ∧ sr.defn = none) (g sl.constant sr.constant)
        (fun E => g (sl.value E) (sr.value E) + g sl.constant sr.constant) s)
    (habort : ∀ sl sr, ¬ IsSmi (g sl.constant sr.constant) → f sl sr = abort)
    (hl : Returns true left) (hr : Returns true right) : Returns wants e := by
  constructor
  · intro h
    obtain ⟨hnl, hnr, hc⟩ := hover.mp h
    obtain ⟨sl, hsl⟩ := hl.1 hnl
    obtain ⟨sr, hsr⟩ := hr.1 hnr
    obtain ⟨hcl, hsmil, hel⟩ := hl.constant_eq hsl.result_eq
    obtain ⟨hcr, hsmir, her⟩ := hr.constant_eq hsr.result_eq
    rw [← hcl, ← hcr] at hc
    obtain ⟨s, hs⟩ := hyields sl sr hsmil hsmir hc
    have hemp : sl.defn = none ∧ sr.defn = none ↔ e.IsConstant := by
      rw [hel, her, hconst]
    refine ⟨s, ?_⟩
    have hrest := hsl.bind_bind hsr (hs.congr hemp fun _ => rfl) fun hvl hvr E => by
      rw [hg, hvl, hvr, ← heval]
    rw [hrun, hpart, ← hcl, ← hcr]
    exact hrest
  · intro h
    rw [hrun]
    refine result_bind_bind_eq_none fun sl hsl sr hsr => ?_
    rw [habort sl sr fun hc => h (hover.mpr ⟨hl.noOverflow hsl, hr.noOverflow hsr, ?_⟩)]
    · rfl
    · rwa [(hl.constant_eq hsl).1, (hr.constant_eq hsr).1] at hc

lemma returns_mul (hl : Returns false left)
    (hr : Returns false right) : Returns wants (.binarySmiOp .mul ssa left right) := by
  constructor
  · rintro ⟨hnl, hnr⟩
    obtain ⟨sl, hsl⟩ := hl.1 hnl
    obtain ⟨sr, hsr⟩ := hr.1 hnr
    have hsome : ∀ {s : Simplified ι} {p : Prop}, (s.defn = none ↔ false = true ∧ p) →
        ∃ d, s.defn = some d := fun h =>
      Option.ne_none_iff_exists'.mp fun hnone => Bool.false_ne_true (h.mp hnone).1
    obtain ⟨l, hleft⟩ := hsome hsl.defn_eq_none_iff
    obtain ⟨r, hright⟩ := hsome hsr.defn_eq_none_iff
    have hcl : sl.constant = 0 := hsl.constant_eq
    have hcr : sr.constant = 0 := hsr.constant_eq
    obtain ⟨s, hs⟩ := simplifyMul_yields wants ssa hleft hright
    refine ⟨s, hsl.bind_bind hsr hs fun hvl hvr E => ?_⟩
    rw [hcl] at hvl
    rw [hcr] at hvr
    change _ = left.eval E * right.eval E
    rw [← hvl, ← hvr, add_zero, add_zero]
  · intro hover
    refine result_bind_bind_eq_none fun sl hsl sr hsr => ?_
    exact absurd ⟨hl.noOverflow hsl, hr.noOverflow hsr⟩ hover

lemma simplify_returns (wants : Bool) (e : Definition ι) : Returns wants e := by
  induction e generalizing wants with
  | constant value =>
    by_cases h : wants = true ∧ IsSmi value
    · obtain ⟨rfl, hv⟩ := h
      have hrun : simplify true (.constant value : Definition ι) =
          Run.pure ⟨none, value, false⟩ := by
        unfold simplify
        rw [decide_eq_true hv]
        rfl
      have hpart : (Definition.constant value : Definition ι).constantPart = value := if_pos hv
      refine ⟨fun _ => ⟨_, congrArg Run.result hrun, hpart.symm, ?_, fun _ E => zero_add _⟩,
        fun h => absurd trivial h⟩
      exact iff_of_true rfl ⟨rfl, hv⟩
    · have hrun : simplify wants (.constant value : Definition ι) =
          Run.pure ⟨some (.constant value), 0, true⟩ := by
        unfold simplify
        rw [if_neg (by simpa using h)]
      exact returns_leaf hrun trivial h fun hw => if_neg fun hv => h ⟨hw, hv⟩
  | symbol i => exact returns_leaf rfl trivial (fun h => h.2) fun _ => rfl
  | constraint value => exact returns_leaf rfl trivial (fun h => h.2) fun _ => rfl
  | binarySmiOp op ssa left right ihl ihr =>
    cases op with
    | add =>
      exact returns_linear (fun a b c d => by ring) rfl Iff.rfl Iff.rfl rfl (fun _ => rfl)
        (fun _ _ => simplifyAdd_yields wants ssa)
        (fun _ _ => simplifyAdd_of_not_isSmi wants ssa) (ihl true) (ihr true)
    | sub =>
      exact returns_linear (fun a b c d => by ring) rfl Iff.rfl Iff.rfl rfl (fun _ => rfl)
        (fun _ _ => simplifySub_yields wants ssa)
        (fun _ _ => simplifySub_of_not_isSmi wants ssa) (ihl true) (ihr true)
    | mul => exact returns_mul (ihl false) (ihr false)
    | other => exact returns_leaf rfl trivial (fun h => h.2) fun _ => rfl

lemma Returns.result_iff (h : Returns wants e) :
    (∃ s, (simplify wants e).result = some s) ↔ e.NoOverflow :=
  ⟨fun ⟨_, hs⟩ => h.noOverflow hs, fun hno => (h.1 hno).imp fun _ hs => hs.result_eq⟩

lemma valid_operands {p : Prop}
    (hf : ∀ l, (simplify mode left).result = some l → ∀ r, (simplify mode right).result = some r →
      ((f l r).Valid ↔ p)) :
    ((simplify mode left).bind fun l => (simplify mode right).bind fun r => f l r).Valid ↔
      (simplify mode left).Valid ∧
        (left.NoOverflow → (simplify mode right).Valid ∧ (right.NoOverflow → p)) := by
  rw [← (simplify_returns mode left).result_iff, ← (simplify_returns mode right).result_iff]
  simp only [valid_bind]
  refine and_congr_right fun _ => ⟨?_, ?_⟩
  · rintro h ⟨l, hl⟩
    refine ⟨(h l hl).1, ?_⟩
    rintro ⟨r, hr⟩
    exact (hf l hl r hr).mp ((h l hl).2 r hr)
  · intro h l hl
    obtain ⟨hright, hp⟩ := h ⟨l, hl⟩
    exact ⟨hright, fun r hr => (hf l hl r hr).mpr (hp ⟨r, hr⟩)⟩

lemma valid_sub {l r : Simplified ι}
    (hl : (simplify true left).result = some l) (hr : (simplify true right).result = some r) :
    (simplifySub wants ssa l r).Valid ↔ ¬ NegatesMinimumHere wants left right := by
  obtain ⟨hcl, hsmil, hel⟩ := (simplify_returns true left).constant_eq hl
  obtain ⟨hcr, hsmir, her⟩ := (simplify_returns true right).constant_eq hr
  rw [valid_simplifySub wants ssa hsmil hsmir, hcl, hcr]
  unfold NegatesMinimumHere
  rw [ne_eq, hel, her]

lemma valid_simplify_iff (wants : Bool) (e : Definition ι) :
    (simplify wants e).Valid ↔ ¬ NegatesMinimum wants e := by
  induction e generalizing wants with
  | constant value =>
    refine iff_of_true ?_ id
    unfold simplify
    split_ifs
    · exact valid_pure _
    · exact valid_pure _
  | symbol i => exact iff_of_true (valid_pure _) id
  | constraint value => exact iff_of_true (valid_pure _) id
  | binarySmiOp op ssa left right ihl ihr =>
    cases op with
    | add =>
      change Run.Valid (Run.bind _ _) ↔ ¬ (_ ∨ _)
      rw [valid_operands (p := True) fun l _ r _ => iff_of_true
        (valid_simplifyAdd wants ssa) trivial,
        ihl, ihr]
      tauto
    | sub =>
      change Run.Valid (Run.bind _ _) ↔ ¬ (_ ∨ _)
      rw [valid_operands fun l hl r hr => valid_sub hl hr, ihl, ihr]
      tauto
    | mul =>
      change Run.Valid (Run.bind _ _) ↔ ¬ (_ ∨ _)
      rw [valid_operands (p := True) fun l _ r _ => iff_of_true
        (valid_simplifyMul wants ssa) trivial,
        ihl, ihr]
      tauto
    | other => exact iff_of_true (valid_pure _) id

/-- What simplification returns has the value of the expression, and every number it makes a small
integer of is one. -/
def KeepsValue (wants : Bool) (e : Definition ι) : Prop :=
  (∀ s, (simplify wants e).result = some s →
    (wants = false → s.defn ≠ none) ∧
      ∀ E, s.value E + (if wants then s.constant else 0) = e.eval E) ∧
  (simplify wants e).Valid

theorem keepsValue_iff (wants : Bool) (e : Definition ι) :
    KeepsValue wants e ↔ ¬ NegatesMinimum wants e := by
  rw [← valid_simplify_iff]
  refine ⟨fun h => h.2, fun hv => ⟨fun s hs => ?_, hv⟩⟩
  have hreturns := simplify_returns wants e
  obtain ⟨s', hs'⟩ := hreturns.1 (hreturns.noOverflow hs)
  obtain rfl := Option.some.inj (hs.symm.trans hs'.result_eq)
  refine ⟨fun hwants hnone => ?_, fun E => ?_⟩
  · rw [hs'.defn_eq_none_iff, hwants] at hnone
    exact Bool.false_ne_true hnone.1
  · rw [← hs'.value_eq hv E, hs'.constant_eq]
    cases wants <;> rfl

/-- The smallest small integer is added and zero subtracted: what is left subtracts it again. -/
theorem negated_minimum_changes_value :
    (simplify false (.binarySmiOp .sub false
        (.binarySmiOp .add false (.symbol ()) (.constant smiMin)) (.constant 0))).created =
      [2 ^ 62] ∧
    (simplify false (.binarySmiOp .sub false
        (.binarySmiOp .add false (.symbol ()) (.constant smiMin)) (.constant 0))).result.map
          (fun s => s.value ⟨fun _ => 5, fun _ _ => 0⟩) = some (5 + 2 ^ 62) ∧
    ¬ IsSmi (2 ^ 62) ∧
    (Definition.binarySmiOp .sub false
        (.binarySmiOp .add false (.symbol ()) (.constant smiMin)) (.constant 0)).eval
          ⟨fun _ => 5, fun _ _ => 0⟩ = 5 - 2 ^ 62 := by
  decide +kernel

end DartSdk.BoundExpressions
