import Mathlib

/-!
The worklist of the type flow analysis, from pkg/vm/lib/transformations/type_flow/analysis.dart.
The process step of an invocation is the tree of the calls it applies, each followed by what the
step does with the result it reads; every call is processed immediately. An invocation is never
its own dependent.
-/

namespace DartSdk.TypeFlowConvergence

open Finset

def invalidationLimit : ℕ := 1000

inductive Body (I T : Type) where
  | result (type : T)
  | applyCall (callee : I) (isResultUsed : Bool) (next : T → Body I T)

/-- What is analysed, over types without infinite ascending chains. -/
structure Program (I T : Type) [PartialOrder T] where
  body : I → Body I T
  staticType : I → T
  union : T → T → T
  left_le_union : ∀ s t, s ≤ union s t
  right_le_union : ∀ s t, t ≤ union s t
  ascends : WellFoundedGT T

structure Invocation (T : Type) where
  result : Option T
  invalidatedResult : Option T
  invalidationCounter : ℕ

@[ext]
structure WorkList (I T : Type) where
  invocations : I → Invocation T
  dependentInvocations : (i : I) → List { j // j ≠ i }
  pending : List I

variable {I T : Type}

def Body.run (apply : I → Bool → WorkList I T → T × WorkList I T) :
    Body I T → WorkList I T → T × WorkList I T
  | .result type, w => (type, w)
  | .applyCall callee isResultUsed next, w =>
      let (type, w) := apply callee isResultUsed w
      (next type).run apply w

/-- The calls that a process step applies, each with the worklist it is applied to. -/
def Body.calls (apply : I → Bool → WorkList I T → T × WorkList I T) :
    Body I T → WorkList I T → List (I × Bool × WorkList I T)
  | .result _, _ => []
  | .applyCall callee isResultUsed next, w =>
      let (type, w') := apply callee isResultUsed w
      (callee, isResultUsed, w) :: (next type).calls apply w'

def Invocation.invalidate (v : Invocation T) : Invocation T :=
  match v.result with
  | none => v
  | some result => { v with invalidatedResult := some result, result := none }

/-- A pending invocation has been invalidated while it was processed. -/
def Invocation.settle (isPending : Bool) (result : T) (v : Invocation T) : Invocation T :=
  if isPending then { v with invalidatedResult := some result, result := none }
  else { v with invalidatedResult := none, result := some result }

section

variable [DecidableEq I]

namespace WorkList

def update (w : WorkList I T) (i : I) (f : Invocation T → Invocation T) : WorkList I T :=
  { w with invocations := Function.update w.invocations i (f (w.invocations i)) }

def addDependentInvocation (w : WorkList I T) (i invocation : I) : WorkList I T :=
  if h : invocation = i then w
  else if ⟨invocation, h⟩ ∈ w.dependentInvocations i then w
  else
    { w with dependentInvocations :=
        Function.update w.dependentInvocations i (w.dependentInvocations i ++ [⟨invocation, h⟩]) }

def enqueueInvocation (w : WorkList I T) (i : I) : WorkList I T :=
  { w with pending := w.pending.erase i ++ [i] }

def invalidateInvocation (w : WorkList I T) (i : I) : WorkList I T :=
  (w.update i Invocation.invalidate).enqueueInvocation i

def invalidateDependentInvocations (w : WorkList I T) (i : I) : WorkList I T :=
  ((w.dependentInvocations i).map Subtype.val).foldl invalidateInvocation w

/-- The worklist of an analysis when the given invocations become pending. -/
def start (w : WorkList I T) (pending : List I) : WorkList I T :=
  pending.foldl invalidateInvocation { w with pending := [] }

end WorkList

namespace Program

variable [PartialOrder T] [DecidableEq T] (p : Program I T)

/-- What `processInvocation` does with an invalidated result that has changed. -/
def compareResult (i : I) (result : T) (w : WorkList I T) : T × WorkList I T :=
  match (w.invocations i).invalidatedResult with
  | none => (result, w)
  | some invalidated =>
    if invalidated = result then (result, w)
    else
      let w := (w.invalidateDependentInvocations i).update i fun v =>
        { v with invalidationCounter := v.invalidationCounter + 1 }
      if invalidationLimit < (w.invocations i).invalidationCounter then
        (p.union result invalidated, w)
      else (result, w)

/-- `processInvocation` after the process step. The result is stored once. -/
def finish (i : I) (result : T) (w : WorkList I T) : T × WorkList I T :=
  let (result, w) := p.compareResult i result w
  (result, w.update i (Invocation.settle (i ∈ w.pending) result))

def processInvocation [Fintype I] (processing : Finset I) (i : I) (w : WorkList I T) :
    T × WorkList I T :=
  match (w.invocations i).result with
  | some result => (result, w)
  | none =>
    if _ : i ∈ processing then (p.staticType i, w)
    else
      let (result, w) := (p.body i).run
        (fun callee isResultUsed w => processInvocation (insert i processing) callee
          (if isResultUsed then w.addDependentInvocation callee i else w))
        { w with pending := w.pending.erase i }
      p.finish i result w
termination_by processingᶜ.card
decreasing_by
  exact Finset.card_lt_card (Finset.compl_ssubset_compl.2 (Finset.ssubset_insert ‹_›))

variable [Fintype I]

/-- What `applyCall` does with the callee while `i` is processed. -/
def applyCall (processing : Finset I) (i callee : I) (isResultUsed : Bool) (w : WorkList I T) :
    T × WorkList I T :=
  p.processInvocation (insert i processing) callee
    (if isResultUsed then w.addDependentInvocation callee i else w)

def step (w : WorkList I T) : WorkList I T :=
  match w.pending with
  | [] => w
  | first :: _ => (p.processInvocation ∅ first w).2

/-- The worklist after at most `n` iterations of the loop, which ends when nothing is pending. -/
def process (n : ℕ) (w : WorkList I T) : WorkList I T :=
  p.step^[n] w

end Program

end

/-- An invocation before the result of its process step is compared. -/
structure Comparison (T : Type) where
  invocation : Invocation T
  result : T

/-- Past the limit the process step has found less than the result that saturation stores again. -/
def Comparison.Sinks [PartialOrder T] (c : Comparison T) : Prop :=
  invalidationLimit ≤ c.invocation.invalidationCounter ∧
    ∃ old, c.invocation.invalidatedResult = some old ∧ c.result < old

section

variable [DecidableEq I] [PartialOrder T] [DecidableEq T] [Fintype I] (p : Program I T)

/-- The comparisons that `processInvocation` makes, those of the calls it applies included. -/
def Program.comparisons (processing : Finset I) (i : I) (w : WorkList I T) :
    List (Comparison T) :=
  match (w.invocations i).result with
  | some _ => []
  | none =>
    if _ : i ∈ processing then []
    else
      let apply := p.applyCall processing i
      let start := { w with pending := w.pending.erase i }
      let (result, w') := (p.body i).run apply start
      ((p.body i).calls apply start).flatMap (fun (callee, isResultUsed, w) =>
        comparisons (insert i processing) callee
          (if isResultUsed then w.addDependentInvocation callee i else w)) ++
        [⟨w'.invocations i, result⟩]
termination_by processingᶜ.card
decreasing_by
  exact Finset.card_lt_card (Finset.compl_ssubset_compl.2 (Finset.ssubset_insert ‹_›))

/-- The comparisons of one iteration of the loop. -/
def Program.compared (w : WorkList I T) : List (Comparison T) :=
  match w.pending with
  | [] => []
  | first :: _ => p.comparisons ∅ first w

end

/-- The last type that was found for an invocation. -/
def Invocation.last (v : Invocation T) : WithBot T :=
  v.result.or v.invalidatedResult

/-- How often the result may still change before it is saturated, and then the last type. -/
def Invocation.potential (v : Invocation T) : ℕ ×ₗ (WithBot T)ᵒᵈ :=
  toLex (invalidationLimit + 1 - v.invalidationCounter, OrderDual.toDual v.last)

lemma Invocation.invalidate_spec (v : Invocation T) : v.invalidate.result = none ∧
    v.invalidate.potential = v.potential := by
  unfold Invocation.invalidate
  cases h : v.result with
  | none => exact ⟨h, rfl⟩
  | some result => exact ⟨rfl, by simp [potential, last, h]⟩

namespace WorkList

def potentials (w : WorkList I T) (i : I) : ℕ ×ₗ (WithBot T)ᵒᵈ :=
  (w.invocations i).potential

/-- Processing decreases the potentials, and without a change also the pending invocations. -/
def measure (w : WorkList I T) : (I → ℕ ×ₗ (WithBot T)ᵒᵈ) ×ₗ ℕ :=
  toLex (w.potentials, w.pending.length)

/-- An invocation that is being processed or is pending has no result. -/
def NullAt (processing : Finset I) (w : WorkList I T) (i : I) : Prop :=
  i ∈ processing ∨ i ∈ w.pending → (w.invocations i).result = none

variable [DecidableEq I]

section

variable (w : WorkList I T) (i : I) (f : Invocation T → Invocation T)

lemma update_self : (w.update i f).invocations i = f (w.invocations i) :=
  Function.update_self ..

lemma potentials_update : (w.update i f).potentials =
    Function.update w.potentials i (f (w.invocations i)).potential :=
  Function.comp_update ..

end

lemma nullAt_invalidateInvocation {processing : Finset I} {w : WorkList I T} {j : I}
    (h : w.NullAt processing j) (i : I) : (w.invalidateInvocation i).NullAt processing j := by
  by_cases hji : j = i
  · intro _
    simp [invalidateInvocation, enqueueInvocation, update, hji,
      (w.invocations i).invalidate_spec.1]
  · simpa [NullAt, invalidateInvocation, enqueueInvocation, update, hji,
      List.mem_erase_of_ne hji] using h

lemma nullAt_start (w : WorkList I T) (pending : List I) (j : I) : (w.start pending).NullAt ∅ j :=
  List.foldlRecOn (motive := fun w => NullAt ∅ w j) pending _ (fun h => by simp at h)
    fun _ h i _ => nullAt_invalidateInvocation h i

/-- What the invalidation of the dependents of `i` keeps. -/
structure Invalidated (i : I) (w w' : WorkList I T) : Prop where
  invocation_eq : w'.invocations i = w.invocations i
  potentials_eq : w'.potentials = w.potentials
  nullAt : ∀ processing j, w.NullAt processing j → w'.NullAt processing j

omit [DecidableEq I] in
lemma Invalidated.refl {i : I} {w : WorkList I T} : Invalidated i w w :=
  ⟨rfl, rfl, fun _ _ h => h⟩

lemma invalidateDependentInvocations_spec (w : WorkList I T) (i : I) :
    Invalidated i w (w.invalidateDependentInvocations i) := by
  refine List.foldlRecOn (motive := Invalidated i w) _ _ Invalidated.refl
    fun w' h j hmem => ?_
  have hj := (w'.invocations j).invalidate_spec
  refine ⟨?_, ?_, fun processing k hk => nullAt_invalidateInvocation (h.nullAt _ k hk) _⟩
  · obtain ⟨d, _, rfl⟩ := List.mem_map.1 hmem
    exact (Function.update_of_ne d.2.symm _ _).trans h.invocation_eq
  · refine (w'.potentials_update j _).trans ?_
    rw [hj.2, ← h.potentials_eq]
    exact Function.update_eq_self ..

end WorkList

open WorkList

/-- Processing keeps null results and increases no measure if it is quiet. -/
def Keeps (processing : Finset I) [PartialOrder T] (quiet : Prop) (w w' : WorkList I T) : Prop :=
  (∀ i, w.NullAt processing i) →
    (∀ i, w'.NullAt processing i) ∧ (quiet → w'.measure ≤ w.measure)

variable [PartialOrder T] {p : Program I T} {processing : Finset I} {w w' w'' : WorkList I T}

lemma Keeps.trans {quiet quiet' : Prop} (h : Keeps processing quiet w w')
    (h' : Keeps processing quiet' w' w'') : Keeps processing (quiet ∧ quiet') w w'' := by
  intro hnull
  obtain ⟨hnull, hle⟩ := h hnull
  obtain ⟨hnull, hle'⟩ := h' hnull
  exact ⟨hnull, fun hquiet => (hle' hquiet.2).trans (hle hquiet.1)⟩

lemma Keeps.mono {quiet quiet' : Prop} (h : Keeps processing quiet w w')
    (hquiet : quiet' → quiet) : Keeps processing quiet' w w' :=
  fun hnull => (h hnull).imp_right fun hle hq => hle (hquiet hq)

lemma run_keeps {apply : I → Bool → WorkList I T → T × WorkList I T}
    {q : I × Bool × WorkList I T → Prop}
    (happly : ∀ callee isResultUsed w, Keeps processing (q (callee, isResultUsed, w)) w
      (apply callee isResultUsed w).2)
    (body : Body I T) (w : WorkList I T) :
    Keeps processing (∀ call ∈ body.calls apply w, q call) w (body.run apply w).2 := by
  induction body generalizing w with
  | result type => exact fun hnull => ⟨hnull, fun _ => le_rfl⟩
  | applyCall callee isResultUsed next ih =>
    exact (Keeps.trans (happly callee isResultUsed w) (ih _ _)).mono fun hquiet =>
      ⟨hquiet _ List.mem_cons_self, fun call hcall => hquiet call (List.mem_cons_of_mem _ hcall)⟩

lemma potential_le {v v' : Invocation T}
    (hcounter : v.invalidationCounter ≤ v'.invalidationCounter) (hlast : v.last ≤ v'.last) :
    v'.potential ≤ v.potential :=
  Prod.Lex.toLex_mono ⟨Nat.sub_le_sub_left hcounter _, hlast⟩

lemma potential_lt {v v' : Invocation T}
    (hcounter : v.invalidationCounter ≤ v'.invalidationCounter) (hlast : v.last < v'.last) :
    v'.potential < v.potential :=
  Prod.Lex.toLex_strictMono
    (Prod.mk_lt_mk.2 (Or.inr ⟨Nat.sub_le_sub_left hcounter _, OrderDual.toDual_lt_toDual.2 hlast⟩))

variable [DecidableEq I]

lemma addDependentInvocation_keeps (w : WorkList I T) (i invocation : I) :
    Keeps processing True w (w.addDependentInvocation i invocation) := by
  unfold addDependentInvocation
  split_ifs
  all_goals exact fun hnull => ⟨hnull, fun _ => le_rfl⟩

namespace Program

variable [DecidableEq T]

/-- A change lowers the distance to the limit or lets the type grow, unless it sinks. -/
lemma finish_spec (p : Program I T) (i : I) (raw : T) (w : WorkList I T) :
    ∃ w' r n, (p.finish i raw w).2 =
        w'.update i (fun v => { v with invalidationCounter := n }.settle (i ∈ w'.pending) r) ∧
      Invalidated i w w' ∧
      (¬ (⟨w.invocations i, raw⟩ : Comparison T).Sinks →
        (⟨some r, none, n⟩ : Invocation T).potential <
          { w.invocations i with result := none }.potential ∨
        (⟨some r, none, n⟩ : Invocation T).potential ≤
          { w.invocations i with result := none }.potential ∧ w' = w) := by
  unfold finish compareResult
  have h := w.invalidateDependentInvocations_spec i
  cases hinv : (w.invocations i).invalidatedResult with
  | none =>
    refine ⟨w, raw, (w.invocations i).invalidationCounter, rfl, Invalidated.refl, fun _ => ?_⟩
    refine Or.inr ⟨potential_le le_rfl ?_, rfl⟩
    simp only [Invocation.last, hinv]
    exact bot_le
  | some old =>
    have hlast : { w.invocations i with result := none }.last = (old : WithBot T) := by
      simp only [Invocation.last, hinv]
      rfl
    simp only [update_self, h.invocation_eq]
    split_ifs with hold hlimit
    · refine ⟨w, raw, (w.invocations i).invalidationCounter, rfl, Invalidated.refl, fun _ => ?_⟩
      exact Or.inr ⟨potential_le le_rfl (hlast.le.trans (WithBot.coe_le_coe.2 hold.le)), rfl⟩
    · refine ⟨_, p.union raw old, (w.invocations i).invalidationCounter + 1, ?_, h,
        fun hsinks => Or.inl (potential_lt (Nat.le_succ _) ?_)⟩
      · simp [update, h.invocation_eq]
      · -- The result did not sink, so it is not below the old one and the union is above.
        have hnot : ¬ raw ≤ old := fun hle =>
          hsinks ⟨Nat.le_of_lt_succ hlimit, old, hinv, hle.lt_of_ne (Ne.symm hold)⟩
        rw [hlast]
        exact WithBot.coe_lt_coe.2 ((p.right_le_union raw old).lt_of_ne fun heq =>
          hnot ((p.left_le_union raw old).trans heq.ge))
    · refine ⟨_, raw, (w.invocations i).invalidationCounter + 1, ?_, h,
        fun _ => Or.inl (Prod.Lex.toLex_lt_toLex.2 (Or.inl ?_))⟩
      · simp [update, h.invocation_eq]
      · exact Nat.sub_lt_sub_left (Nat.lt_succ_of_lt (not_lt.1 hlimit)) (Nat.lt_succ_self _)

lemma finish_keeps (p : Program I T) {i : I} (hi : i ∉ processing) (raw : T)
    (hnull : ∀ j, w.NullAt (insert i processing) j) :
    (∀ j, (p.finish i raw w).2.NullAt processing j) ∧
      (¬ (⟨w.invocations i, raw⟩ : Comparison T).Sinks →
        (p.finish i raw w).2.measure ≤ w.measure) := by
  obtain ⟨w', r, n, hfin, h, hpotential⟩ := p.finish_spec i raw w
  have hwi : { w.invocations i with result := none }.potential = w.potentials i := by
    rw [← hnull i (Or.inl (mem_insert_self ..))]
    rfl
  have hsettle : ({ w'.invocations i with invalidationCounter := n }.settle
      (i ∈ w'.pending) r).potential = (⟨some r, none, n⟩ : Invocation T).potential := by
    cases decide (i ∈ w'.pending) <;> rfl
  rw [hfin]
  refine ⟨fun j hj => ?_, fun hsinks => Prod.Lex.toLex_le_toLex.2 ?_⟩
  · by_cases hji : j = i
    · subst hji
      have hpend : j ∈ w'.pending := hj.resolve_left hi
      rw [update_self, Invocation.settle, if_pos (decide_eq_true hpend)]
    · refine (congrArg _ (Function.update_of_ne hji ..)).trans (h.nullAt processing j ?_ hj)
      exact fun hj => hnull j (hj.imp_left mem_insert_of_mem)
  · rw [potentials_update, h.potentials_eq, hsettle]
    rcases hpotential hsinks with hlt | ⟨hle, rfl⟩
    · exact Or.inl (update_lt_self_iff.2 (hlt.trans_eq hwi))
    · have hupdate : Function.update w'.potentials i _ ≤ w'.potentials :=
        update_le_self_iff.2 (hle.trans_eq hwi)
      exact hupdate.lt_or_eq.imp_right fun heq => ⟨heq, le_rfl⟩

variable [Fintype I]

lemma processInvocation_of_result {i : I} {result : T}
    (hres : (w.invocations i).result = some result) :
    p.processInvocation processing i w = (result, w) := by
  rw [processInvocation, hres]

lemma processInvocation_of_mem {i : I} (hres : (w.invocations i).result = none)
    (hi : i ∈ processing) : p.processInvocation processing i w = (p.staticType i, w) := by
  rw [processInvocation, hres]
  exact dif_pos hi

lemma processInvocation_of_notMem {i : I} (hres : (w.invocations i).result = none)
    (hi : i ∉ processing) :
    p.processInvocation processing i w =
      let (result, w) := (p.body i).run (p.applyCall processing i)
        { w with pending := w.pending.erase i }
      p.finish i result w := by
  rw [processInvocation, hres]
  exact dif_neg hi

lemma comparisons_of_notMem {i : I} (hres : (w.invocations i).result = none)
    (hi : i ∉ processing) :
    p.comparisons processing i w =
      ((p.body i).calls (p.applyCall processing i)
          { w with pending := w.pending.erase i }).flatMap (fun (callee, isResultUsed, w) =>
        p.comparisons (insert i processing) callee
          (if isResultUsed then w.addDependentInvocation callee i else w)) ++
        [⟨((p.body i).run (p.applyCall processing i)
            { w with pending := w.pending.erase i }).2.invocations i,
          ((p.body i).run (p.applyCall processing i)
            { w with pending := w.pending.erase i }).1⟩] := by
  rw [comparisons, hres]
  exact dif_neg hi

lemma processInvocation_fresh {i : I} (hi : i ∉ processing) (hres : (w.invocations i).result = none)
    (ih : ∀ callee w, Keeps (insert i processing)
      (∀ c ∈ p.comparisons (insert i processing) callee w, ¬ c.Sinks) w
      (p.processInvocation (insert i processing) callee w).2) (hnull : ∀ j, w.NullAt processing j) :
    (∀ j, (p.processInvocation processing i w).2.NullAt processing j) ∧
      ((∀ c ∈ p.comparisons processing i w, ¬ c.Sinks) →
        (p.processInvocation processing i w).2.measure ≤
          { w with pending := w.pending.erase i }.measure) := by
  have happly (callee : I) (isResultUsed : Bool) (w : WorkList I T) :
      Keeps (insert i processing)
        (∀ c ∈ p.comparisons (insert i processing) callee
          (if isResultUsed then w.addDependentInvocation callee i else w), ¬ c.Sinks) w
        (p.applyCall processing i callee isResultUsed w).2 := by
    cases isResultUsed with
    | false => exact ih callee w
    | true =>
      exact (Keeps.trans (addDependentInvocation_keeps w callee i) (ih callee _)).mono
        fun hquiet => ⟨trivial, hquiet⟩
  obtain ⟨hnull, hle⟩ := run_keeps
    (q := fun (callee, isResultUsed, w) => ∀ c ∈ p.comparisons (insert i processing) callee
      (if isResultUsed then w.addDependentInvocation callee i else w), ¬ c.Sinks)
    happly (p.body i) { w with pending := w.pending.erase i }
    fun j hj => by
      rcases hj.imp_left mem_insert.1 with (hji | hj) | hj
      · exact hji ▸ hres
      · exact hnull j (Or.inl hj)
      · exact hnull j (Or.inr (List.mem_of_mem_erase hj))
  obtain ⟨hnull, hfinish⟩ := p.finish_keeps hi
    ((p.body i).run (p.applyCall processing i) { w with pending := w.pending.erase i }).1 hnull
  rw [processInvocation_of_notMem hres hi, comparisons_of_notMem hres hi]
  refine ⟨hnull, fun hquiet => (hfinish (hquiet _ ?_)).trans (hle fun call hcall c hc => ?_)⟩
  · exact List.mem_append_right _ (List.mem_singleton_self _)
  · exact hquiet c (List.mem_append_left _ (List.mem_flatMap.2 ⟨call, hcall, hc⟩))

lemma processInvocation_keeps (p : Program I T) (processing : Finset I) (i : I)
    (w : WorkList I T) : Keeps processing (∀ c ∈ p.comparisons processing i w, ¬ c.Sinks) w
      (p.processInvocation processing i w).2 := by
  intro hnull
  cases hres : (w.invocations i).result with
  | some result =>
    rw [processInvocation_of_result hres]
    exact ⟨hnull, fun _ => le_rfl⟩
  | none =>
    by_cases hi : i ∈ processing
    · rw [processInvocation_of_mem hres hi]
      exact ⟨hnull, fun _ => le_rfl⟩
    · refine (processInvocation_fresh hi hres (p.processInvocation_keeps _) hnull).imp_right
        fun h hquiet => (h hquiet).trans ?_
      exact Prod.Lex.toLex_mono ⟨le_rfl, List.length_erase_le⟩
termination_by processingᶜ.card
decreasing_by
  exact card_lt_card (compl_ssubset_compl.2 (ssubset_insert hi))

/-- One iteration of `process`, which removes the first pending invocation. -/
lemma step_spec (p : Program I T) (hnull : ∀ j, w.NullAt ∅ j) :
    (∀ j, (p.step w).NullAt ∅ j) ∧
      (w.pending ≠ [] → (∀ c ∈ p.compared w, ¬ c.Sinks) → (p.step w).measure < w.measure) := by
  cases hw : w.pending with
  | nil =>
    rw [step, hw]
    exact ⟨hnull, fun h => absurd rfl h⟩
  | cons first rest =>
    have hfirst : first ∈ w.pending := hw ▸ List.mem_cons_self
    obtain ⟨hnull', hle⟩ := processInvocation_fresh (p := p) (notMem_empty first)
      (hnull first (Or.inr hfirst)) (fun callee w => p.processInvocation_keeps _ callee w) hnull
    rw [step, compared, hw]
    refine ⟨hnull', fun _ hquiet => (hle hquiet).trans_lt ?_⟩
    refine Prod.Lex.toLex_lt_toLex.2 (Or.inr ⟨rfl, ?_⟩)
    change (w.pending.erase first).length < w.pending.length
    rw [List.length_erase_of_mem hfirst]
    exact Nat.sub_one_lt_of_lt (List.length_pos_of_mem hfirst)

/-- `process` returns if from some iteration on no comparison sinks. -/
theorem process_returns (p : Program I T) (w : WorkList I T) (pending : List I) (n : ℕ)
    (h : ∀ m ≥ n, ∀ c ∈ p.compared (p.process m (w.start pending)), ¬ c.Sinks) :
    ∃ m, (p.process m (w.start pending)).pending = [] := by
  by_contra hnever
  have hsucc (m : ℕ) : p.process (m + 1) (w.start pending) =
      p.step (p.process m (w.start pending)) := Function.iterate_succ_apply' ..
  have hnull (m : ℕ) : ∀ j, (p.process m (w.start pending)).NullAt ∅ j := by
    induction m with
    | zero => exact nullAt_start w pending
    | succ m ih =>
      rw [hsucc]
      exact (p.step_spec ih).1
  -- From iteration `n` on the measure would decrease for ever.
  have := p.ascends
  obtain ⟨k, hk⟩ := WellFounded.not_rel_apply_succ (r := (· < ·)) fun k =>
    (p.process (n + k) (w.start pending)).measure
  refine hk ?_
  rw [← add_assoc, hsucc]
  exact (p.step_spec (hnull (n + k))).2 (fun hpending => hnever ⟨_, hpending⟩)
    (h _ (Nat.le_add_right n k))

section

variable {i : I} {old raw r : T}

omit [Fintype I]

lemma finish_changed (hinv : (w.invocations i).invalidatedResult = some old) (hne : old ≠ raw)
    (hr : (if invalidationLimit < (w.invocations i).invalidationCounter + 1 then p.union raw old
      else raw) = r) :
    p.finish i raw w = (r, (w.invalidateDependentInvocations i).update i fun v =>
      { v with invalidationCounter := v.invalidationCounter + 1 }.settle
        (i ∈ (w.invalidateDependentInvocations i).pending) r) := by
  have h := (w.invalidateDependentInvocations_spec i).invocation_eq
  unfold finish compareResult
  simp only [hinv, if_neg hne, update_self, h]
  split_ifs at hr ⊢
  all_goals
    subst hr
    simp only [update, Function.update_self, Function.update_idem]
    rfl

lemma finish_unchanged (hinv : (w.invocations i).invalidatedResult = some raw) :
    p.finish i raw w = (raw, w.update i (Invocation.settle (i ∈ w.pending) raw)) := by
  unfold finish compareResult
  simp only [hinv, if_true]

end

/-- The second invocation returns what it reads from the first one. -/
def relay : Program Bool (Finset Bool) where
  body
    | false => .result .univ
    | true => .applyCall false true .result
  staticType _ := .univ
  union s t := s ∪ t
  left_le_union _ _ := Finset.subset_union_left
  right_le_union _ _ := Finset.subset_union_right
  ascends := inferInstance

def relaying (first second : Invocation (Finset Bool)) (pending : List Bool) :
    WorkList Bool (Finset Bool) where
  invocations
    | false => first
    | true => second
  dependentInvocations
    | false => [⟨true, nofun⟩]
    | true => []
  pending := pending

/-- Both results have changed as often as is allowed, and then grow once more. -/
theorem relay_returns : ∃ m, (relay.process m (start
    (relaying ⟨some ∅, none, invalidationLimit⟩ ⟨some ∅, none, invalidationLimit⟩ [])
    [false])).pending = [] := by
  have hstart : start (relaying ⟨some ∅, none, invalidationLimit⟩
      ⟨some ∅, none, invalidationLimit⟩ []) [false] =
      relaying ⟨none, some ∅, invalidationLimit⟩ ⟨some ∅, none, invalidationLimit⟩ [false] :=
    WorkList.ext (funext fun i => by cases i <;> rfl) rfl rfl
  have hfirst : relay.step
      (relaying ⟨none, some ∅, invalidationLimit⟩ ⟨some ∅, none, invalidationLimit⟩ [false]) =
      relaying ⟨some .univ, none, invalidationLimit + 1⟩ ⟨none, some ∅, invalidationLimit⟩
        [true] := by
    change (relay.processInvocation ∅ false _).2 = _
    rw [processInvocation_of_notMem rfl (notMem_empty _)]
    change (relay.finish false .univ _).2 = _
    rw [finish_changed (r := .univ) rfl (by decide) (if_pos (Nat.lt_succ_self _))]
    exact WorkList.ext (funext fun i => by cases i <;> rfl) rfl rfl
  have hsecond : relay.step (relaying ⟨some .univ, none, invalidationLimit + 1⟩
      ⟨none, some ∅, invalidationLimit⟩ [true]) =
      relaying ⟨some .univ, none, invalidationLimit + 1⟩
        ⟨some .univ, none, invalidationLimit + 1⟩ [] := by
    change (relay.processInvocation ∅ true _).2 = _
    rw [processInvocation_of_notMem rfl (notMem_empty _)]
    change (let (type, w) := relay.processInvocation _ false _
      relay.finish true type w).2 = _
    rw [processInvocation_of_result rfl]
    dsimp only
    rw [finish_changed (r := .univ) rfl (by decide) (if_pos (Nat.lt_succ_self _))]
    exact WorkList.ext (funext fun i => by cases i <;> rfl) rfl rfl
  have hgrows : ¬ (⟨⟨none, some ∅, invalidationLimit⟩, .univ⟩ :
      Comparison (Finset Bool)).Sinks := by
    rintro ⟨-, old, hold, hlt⟩
    obtain rfl := Option.some.inj hold
    exact not_lt_bot hlt
  refine process_returns relay _ [false] 0 fun m _ c hc => ?_
  rw [hstart] at hc
  rcases m with _ | _ | m
  · change c ∈ relay.comparisons ∅ false _ at hc
    rw [comparisons_of_notMem rfl (notMem_empty _)] at hc
    obtain rfl := List.mem_singleton.1 hc
    exact hgrows
  · rw [zero_add, process, Function.iterate_one, hfirst] at hc
    change c ∈ relay.comparisons ∅ true _ at hc
    rw [comparisons_of_notMem rfl (notMem_empty _)] at hc
    rcases List.mem_append.1 hc with hc | hc
    · obtain ⟨call, hcall, hc⟩ := List.mem_flatMap.1 hc
      obtain rfl := List.mem_singleton.1 hcall
      change c ∈ relay.comparisons _ false _ at hc
      rw [comparisons] at hc
      cases hc
    · obtain rfl := List.mem_singleton.1 hc
      change ¬ Comparison.Sinks ⟨(relay.processInvocation _ false _).2.invocations true,
        (relay.processInvocation _ false _).1⟩
      rw [processInvocation_of_result rfl]
      exact hgrows
  · have hdone : relay.process (m + 2) (relaying ⟨none, some ∅, invalidationLimit⟩
        ⟨some ∅, none, invalidationLimit⟩ [false]) = relaying
        ⟨some .univ, none, invalidationLimit + 1⟩ ⟨some .univ, none, invalidationLimit + 1⟩ [] := by
      rw [process, Function.iterate_add_apply]
      change relay.step^[m] (relay.step (relay.step _)) = _
      rw [hfirst, hsecond]
      exact Function.iterate_fixed rfl m
    rw [hdone] at hc
    cases hc

inductive Site where
  | outer (c : Bool)
  | middle
  deriving DecidableEq, Fintype

open Site

/-- A method of the second class for the first receiver and of the first class for the second one,
each returning an instance of the first class. -/
def called (s t : Finset Bool) : Finset Bool :=
  if true ∈ s ∨ false ∈ t then {false} else ∅

/-- Summaries over two classes. Each outer invocation narrows what it reads from the middle one to
one class; the middle one calls a method on what it reads from them. -/
def swing : Program Site (Finset Bool) where
  body
    | outer c => .applyCall middle true fun type => .result (type ∩ {c})
    | middle => .applyCall (outer false) true fun s => .applyCall (outer true) true fun t =>
        .result (called s t)
  staticType _ := .univ
  union s t := s ∪ t
  left_le_union _ _ := Finset.subset_union_left
  right_le_union _ _ := Finset.subset_union_right
  ascends := inferInstance

/-- Everyone depends on what it reads. -/
def around (first center last : Invocation (Finset Bool)) (pending : List Site) :
    WorkList Site (Finset Bool) where
  invocations
    | outer false => first
    | middle => center
    | outer true => last
  dependentInvocations
    | outer _ => [⟨middle, nofun⟩]
    | middle => [⟨outer false, nofun⟩, ⟨outer true, nofun⟩]
  pending := pending

section

variable {first center last : Invocation (Finset Bool)} {pending : List Site}
  {processing : Finset Site}

lemma around_update_first (f : Invocation (Finset Bool) → Invocation (Finset Bool)) :
    (around first center last pending).update (outer false) f =
      around (f first) center last pending :=
  WorkList.ext (funext fun i => by rcases i with (_ | _) | _ <;> rfl) rfl rfl

lemma around_update_center (f : Invocation (Finset Bool) → Invocation (Finset Bool)) :
    (around first center last pending).update middle f = around first (f center) last pending :=
  WorkList.ext (funext fun i => by rcases i with (_ | _) | _ <;> rfl) rfl rfl

lemma around_update_last (f : Invocation (Finset Bool) → Invocation (Finset Bool)) :
    (around first center last pending).update (outer true) f =
      around first center (f last) pending :=
  WorkList.ext (funext fun i => by rcases i with (_ | _) | _ <;> rfl) rfl rfl

lemma around_invalidate_outer (c : Bool) :
    (around first center last pending).invalidateDependentInvocations (outer c) =
      around first center.invalidate last (pending.erase middle ++ [middle]) := by
  change ((around first center last pending).update middle _).enqueueInvocation middle = _
  rw [around_update_center]
  rfl

lemma around_invalidate_middle :
    (around first center last pending).invalidateDependentInvocations middle =
      around first.invalidate center last.invalidate
        ((pending.erase (outer false) ++ [outer false]).erase (outer true) ++ [outer true]) := by
  change ((((around first center last pending).update (outer false) _).enqueueInvocation
    (outer false)).update (outer true) _).enqueueInvocation (outer true) = _
  rw [around_update_first]
  change ((around _ _ _ _).update (outer true) _).enqueueInvocation (outer true) = _
  rw [around_update_last]
  rfl

lemma processInvocation_outer {c : Bool} (hc : outer c ∉ processing)
    (hres : ((around first center last pending).invocations (outer c)).result = none) :
    swing.processInvocation processing (outer c) (around first center last pending) =
      let (type, w) := swing.processInvocation (insert (outer c) processing) middle
        (around first center last (pending.erase (outer c)))
      swing.finish (outer c) (type ∩ {c}) w := by
  rw [processInvocation_of_notMem hres hc]
  cases c <;> rfl

lemma processInvocation_middle (hm : middle ∉ processing) (hres : center.result = none) :
    swing.processInvocation processing middle (around first center last pending) =
      let (s, w) := swing.processInvocation (insert middle processing) (outer false)
        (around first center last (pending.erase middle))
      let (t, w) := swing.applyCall processing middle (outer true) true w
      swing.finish middle (called s t) w := by
  rw [processInvocation_of_notMem hres hm]
  rfl

lemma applyCall_middle :
    swing.applyCall processing middle (outer true) true (around first center last pending) =
      swing.processInvocation (insert middle processing) (outer true)
        (around first center last pending) := rfl

end

/-- The middle invocation is pending, and each of the outer ones has found its class. -/
def swinging (k m n : ℕ) : WorkList Site (Finset Bool) :=
  around ⟨some {false}, none, k⟩ ⟨none, some {false}, m⟩ ⟨some {true}, none, n⟩ [middle]

lemma step_swinging (k m n : ℕ) {type : Finset Bool}
    (htype : (if invalidationLimit < m + 1 then ∅ ∪ {false} else ∅) = type) :
    swing.step (swinging k m n) =
      around ⟨none, some {false}, k⟩ ⟨some type, none, m + 1⟩ ⟨none, some {true}, n⟩
        [outer false, outer true] := by
  change (swing.processInvocation ∅ middle _).2 = _
  rw [swinging, processInvocation_middle (notMem_empty _) rfl, processInvocation_of_result rfl]
  dsimp only
  rw [applyCall_middle, processInvocation_of_result rfl]
  dsimp only
  have hneither : called {false} {true} = ∅ := by decide
  rw [hneither, finish_changed (r := type) rfl (singleton_ne_empty _) htype,
    around_invalidate_middle,
    around_update_center]
  rfl

lemma turn (n : ℕ) (h : n + 2 ≤ invalidationLimit) :
    swing.process 4 (swinging n n n) = swinging (n + 2) (n + 2) (n + 2) := by
  have hlimit : ¬ invalidationLimit < n + 1 := by omega
  have hlimit' : ¬ invalidationLimit < n + 1 + 1 := by omega
  have hfirst : swing.step (around ⟨none, some {false}, n⟩ ⟨some ∅, none, n + 1⟩
      ⟨none, some {true}, n⟩ [outer false, outer true]) =
      around ⟨some ∅, none, n + 1⟩ ⟨none, some ∅, n + 1⟩ ⟨none, some {true}, n⟩
        [outer true, middle] := by
    change (swing.processInvocation ∅ (outer false) _).2 = _
    rw [processInvocation_outer (notMem_empty _) rfl, processInvocation_of_result rfl]
    dsimp only
    rw [finish_changed (r := ∅) rfl (by decide) (if_neg hlimit), around_invalidate_outer,
      around_update_first]
    rfl
  have hlast : swing.step (around ⟨some ∅, none, n + 1⟩ ⟨none, some ∅, n + 1⟩
      ⟨none, some {true}, n⟩ [outer true, middle]) =
      around ⟨none, some ∅, n + 1⟩ ⟨none, some {false}, n + 2⟩ ⟨none, some ∅, n + 1⟩
        [outer false, outer true, middle] := by
    change (swing.processInvocation ∅ (outer true) _).2 = _
    rw [processInvocation_outer (notMem_empty _) rfl,
      processInvocation_middle (by decide) rfl, processInvocation_of_result rfl]
    dsimp only
    rw [applyCall_middle, processInvocation_of_mem rfl (by decide)]
    dsimp only
    rw [finish_changed (i := middle) (r := {false}) rfl (by decide) (if_neg hlimit'),
      around_invalidate_middle,
      around_update_center]
    dsimp only
    rw [finish_changed (r := ∅) rfl (by decide) (if_neg hlimit), around_invalidate_outer,
      around_update_last]
    rfl
  have hnested : swing.step (around ⟨none, some ∅, n + 1⟩ ⟨none, some {false}, n + 2⟩
      ⟨none, some ∅, n + 1⟩ [outer false, outer true, middle]) =
      swinging (n + 2) (n + 2) (n + 2) := by
    change (swing.processInvocation ∅ (outer false) _).2 = _
    rw [processInvocation_outer (notMem_empty _) rfl, processInvocation_middle (by decide) rfl,
      processInvocation_of_mem rfl (by decide)]
    dsimp only
    rw [applyCall_middle, processInvocation_outer (by decide) rfl,
      processInvocation_of_mem rfl (by decide)]
    dsimp only
    rw [finish_changed (i := outer true) (r := {true}) rfl (by decide) (if_neg hlimit'),
      around_invalidate_outer, around_update_last]
    dsimp only
    rw [finish_unchanged (i := middle) rfl, around_update_center]
    dsimp only
    rw [finish_changed (r := {false}) rfl (by decide) (if_neg hlimit'), around_invalidate_outer,
      around_update_first]
    rfl
  change swing.step (swing.step (swing.step (swing.step (swinging n n n)))) = _
  rw [step_swinging n n n (if_neg hlimit), hfirst, hlast, hnested]

/-- Past the limit the middle invocation sinks and is saturated, and so is the second outer one. -/
lemma turn_saturated (k : ℕ) {m n : ℕ} (hm : invalidationLimit ≤ m) (hn : invalidationLimit ≤ n) :
    swing.process 3 (swinging k m n) = swinging k (m + 1) (n + 1) := by
  have hfirst : swing.step (around ⟨none, some {false}, k⟩ ⟨some {false}, none, m + 1⟩
      ⟨none, some {true}, n⟩ [outer false, outer true]) =
      around ⟨some {false}, none, k⟩ ⟨some {false}, none, m + 1⟩ ⟨none, some {true}, n⟩
        [outer true] := by
    change (swing.processInvocation ∅ (outer false) _).2 = _
    rw [processInvocation_outer (notMem_empty _) rfl, processInvocation_of_result rfl]
    dsimp only
    rw [finish_unchanged rfl, around_update_first]
    rfl
  have hlast : swing.step (around ⟨some {false}, none, k⟩ ⟨some {false}, none, m + 1⟩
      ⟨none, some {true}, n⟩ [outer true]) = swinging k (m + 1) (n + 1) := by
    change (swing.processInvocation ∅ (outer true) _).2 = _
    rw [processInvocation_outer (notMem_empty _) rfl, processInvocation_of_result rfl]
    dsimp only
    rw [finish_changed (r := {true}) rfl (by decide) (if_pos (Nat.lt_succ_of_le hn)),
      around_invalidate_outer, around_update_last]
    rfl
  change swing.step (swing.step (swing.step (swinging k m n))) = _
  rw [step_swinging k m n (if_pos (Nat.lt_succ_of_le hm))]
  exact (congrArg swing.step hfirst).trans hlast

lemma process_swinging_until (n : ℕ) (h : 2 * n ≤ invalidationLimit) :
    swing.process (4 * n) (swinging 0 0 0) = swinging (2 * n) (2 * n) (2 * n) := by
  induction n with
  | zero => rfl
  | succ n ih =>
    rw [Nat.mul_succ, Nat.add_comm, process, Function.iterate_add_apply]
    exact (congrArg swing.step^[4] (ih (by omega))).trans (turn (2 * n) (by omega))

lemma process_swinging_after (n : ℕ) :
    swing.process (3 * n) (swinging invalidationLimit invalidationLimit invalidationLimit) =
      swinging invalidationLimit (invalidationLimit + n) (invalidationLimit + n) := by
  induction n with
  | zero => rfl
  | succ n ih =>
    rw [Nat.mul_succ, Nat.add_comm, process, Function.iterate_add_apply]
    exact (congrArg swing.step^[3] ih).trans
      (turn_saturated _ (Nat.le_add_right _ _) (Nat.le_add_right _ _))

/-- Nothing has been analysed. -/
def unanalysed : WorkList Site (Finset Bool) :=
  ⟨fun _ => ⟨none, none, 0⟩, fun _ => [], []⟩

/-- The first analysis finds a class for each invocation. -/
lemma process_unanalysed :
    (swing.process 1 (start unanalysed [outer false])).start [middle] = swinging 0 0 0 := by
  have hfirst : swing.process 1 (start unanalysed [outer false]) =
      around ⟨some {false}, none, 0⟩ ⟨some {false}, none, 0⟩ ⟨some {true}, none, 0⟩ [] := by
    change (swing.processInvocation ∅ (outer false) _).2 = _
    rw [processInvocation_of_notMem rfl (notMem_empty _)]
    change (let (type, w) := swing.processInvocation {outer false} middle _
      swing.finish (outer false) (type ∩ {false}) w).2 = _
    rw [processInvocation_of_notMem rfl (by decide)]
    change (let (type, w) :=
        (let (s, w) := swing.processInvocation {middle, outer false} (outer false) _
        let (t, w) := swing.applyCall {outer false} middle (outer true) true w
        swing.finish middle (called s t) w)
      swing.finish (outer false) (type ∩ {false}) w).2 = _
    rw [processInvocation_of_mem rfl (by decide)]
    dsimp only
    rw [applyCall, processInvocation_of_notMem rfl (by decide)]
    change (let (type, w) :=
        (let (t, w) := (let (type, w) := swing.processInvocation _ middle _
          swing.finish (outer true) (type ∩ {true}) w)
        swing.finish middle (called .univ t) w)
      swing.finish (outer false) (type ∩ {false}) w).2 = _
    rw [processInvocation_of_mem rfl (by decide)]
    exact WorkList.ext (funext fun i => by rcases i with (_ | _) | _ <;> rfl)
      (funext fun i => by rcases i with (_ | _) | _ <;> rfl) rfl
  rw [hfirst]
  change ((around _ _ _ []).update middle _).enqueueInvocation middle = _
  rw [around_update_center]
  rfl

/-- After a first analysis the middle invocation is invalidated. The results change until the limit;
past it the middle one and the second outer one go on invalidating each other, although every stored
result stays. -/
theorem process_never_returns : ¬ ∃ n, (swing.process n
    ((swing.process 1 (start unanalysed [outer false])).start [middle])).pending = [] := by
  rintro ⟨n, hn⟩
  rw [process_unanalysed] at hn
  have hstays : swing.process (3 * n + 4 * 500) (swinging 0 0 0) =
      swing.process n (swinging 0 0 0) := by
    obtain ⟨k, hk⟩ : ∃ k, 3 * n + 4 * 500 = k + n := ⟨2 * n + 4 * 500, by omega⟩
    rw [hk, process, Function.iterate_add_apply]
    refine Function.iterate_fixed ?_ k
    change swing.step (swing.process n (swinging 0 0 0)) = swing.process n (swinging 0 0 0)
    rw [step, hn]
  rw [← hstays, process, Function.iterate_add_apply] at hn
  have hlimit : swing.step^[4 * 500] (swinging 0 0 0) =
      swinging invalidationLimit invalidationLimit invalidationLimit :=
    process_swinging_until 500 (by decide)
  rw [hlimit, ← process, process_swinging_after] at hn
  cases hn

end Program

end DartSdk.TypeFlowConvergence
