import Mathlib

/-!
Instantiation marks of the classes of a program (pkg/compiler/lib/src/universe/class_set.dart).
Each node of the subclass tree has a mask with the kinds of instantiation of its class and a
count of the strict subclasses that are instantiated. Marking a class changes the counts of all
its superclasses. The class set of a class adds the classes that implement it, as a forest of
the subclass tree. A class that is marked twice, directly and abstractly, is counted twice.
-/

namespace DartSdk.ClassHierarchy

open Finset Function List

inductive Instantiation
  | uninstantiated
  | directlyInstantiated
  | indirectlyInstantiated
  | abstractlyInstantiated
  deriving DecidableEq

open Instantiation

structure ClassHierarchyNode where
  mask : Finset Instantiation
  instantiatedSubclassCount : ℤ

namespace ClassHierarchyNode

variable (n : ClassHierarchyNode) (i : Instantiation) (change : ℤ)

abbrev isExplicitlyInstantiated : Prop :=
  directlyInstantiated ∈ n.mask ∨ abstractlyInstantiated ∈ n.mask

abbrev isIndirectlyInstantiated : Prop := 0 < n.instantiatedSubclassCount

def addToMask : ClassHierarchyNode :=
  { n with mask := insert i (n.mask.erase uninstantiated) }

def removeFromMask : ClassHierarchyNode :=
  { n with mask := if n.mask.erase i = ∅ then {uninstantiated} else n.mask.erase i }

def updateInstantiatedSubclassCount : ClassHierarchyNode :=
  let after := { n with instantiatedSubclassCount := n.instantiatedSubclassCount + change }
  if n.isIndirectlyInstantiated ↔ after.isIndirectlyInstantiated then after
  else if after.isIndirectlyInstantiated then after.addToMask indirectlyInstantiated
  else after.removeFromMask indirectlyInstantiated

end ClassHierarchyNode

open ClassHierarchyNode

/-- The subclass tree. A class is deeper in it than its superclass. -/
structure Tree (C : Type*) where
  parentNode : C → Option C
  hierarchyDepth : C → ℕ
  depth_lt : ∀ c p, parentNode c = some p → hierarchyDepth p < hierarchyDepth c

inductive Assignment (C : Type*)
  | isDirectlyInstantiated (node : C) (value : Bool)
  | isAbstractlyInstantiated (node : C) (value : Bool)

/-- The value that the assignment gives to `isDirectlyInstantiated` of the class. -/
def Assignment.directly {C : Type*} [DecidableEq C] (c : C) : Assignment C → Option Bool
  | isDirectlyInstantiated node value => if node = c then some value else none
  | isAbstractlyInstantiated _ _ => none

def Assignment.abstractly {C : Type*} [DecidableEq C] (c : C) : Assignment C → Option Bool
  | isDirectlyInstantiated _ _ => none
  | isAbstractlyInstantiated node value => if node = c then some value else none

namespace Tree

variable {C : Type*} [DecidableEq C] (t : Tree C)

/-- The nodes that a loop over `parentNode` visits. -/
def superclasses (c : C) : List C :=
  match _h : t.parentNode c with
  | none => []
  | some p => p :: superclasses p
termination_by t.hierarchyDepth c
decreasing_by exact t.depth_lt c p _h

def updateParentInstantiatedSubclassCount (i : Instantiation) (add : Bool) (c : C)
    (nodes : C → ClassHierarchyNode) : C → ClassHierarchyNode :=
  let own := if add then (nodes c).addToMask i else (nodes c).removeFromMask i
  (t.superclasses c).foldl
    (fun nodes p => update nodes p
      ((nodes p).updateInstantiatedSubclassCount (if add then 1 else -1)))
    (update nodes c own)

/-- The setters of the two explicit kinds of instantiation. -/
def setInstantiation (i : Instantiation) (value : Bool) (c : C)
    (nodes : C → ClassHierarchyNode) : C → ClassHierarchyNode :=
  if value = decide (i ∈ (nodes c).mask) then nodes
  else t.updateParentInstantiatedSubclassCount i value c nodes

def assign (nodes : C → ClassHierarchyNode) : Assignment C → C → ClassHierarchyNode
  | .isDirectlyInstantiated c value => t.setInstantiation directlyInstantiated value c nodes
  | .isAbstractlyInstantiated c value => t.setInstantiation abstractlyInstantiated value c nodes

/-- The nodes after some assignments; at first no class is instantiated. -/
def run (assignments : List (Assignment C)) : C → ClassHierarchyNode :=
  assignments.foldl t.assign fun _ => ⟨{uninstantiated}, 0⟩

/-- Whether `other` is `c` or one of its subclasses. -/
abbrev hasSubclass (c other : C) : Prop := c = other ∨ c ∈ t.superclasses other

end Tree

/-- A class and the roots of the classes that implement it and are not its subclasses. -/
structure ClassSet {C : Type*} (t : Tree C) where
  node : C
  subtypes : List C
  unrelated : (node :: subtypes).Pairwise fun c d => ¬(t.hasSubclass c d ∨ t.hasSubclass d c)

def ClassSet.instantiatedSubtypeCount {C : Type*} {t : Tree C} (set : ClassSet t)
    (nodes : C → ClassHierarchyNode) : ℤ :=
  (nodes set.node).instantiatedSubclassCount + (set.subtypes.map fun d =>
    (if (nodes d).isExplicitlyInstantiated then 1 else 0) +
      (nodes d).instantiatedSubclassCount).sum

/-- The mask of a class by its kinds of instantiation. -/
def maskOf (direct abstract indirect : Bool) : Finset Instantiation :=
  if direct || abstract || indirect then
    (if direct then {directlyInstantiated} else ∅) ∪
      (if abstract then {abstractlyInstantiated} else ∅) ∪
        if indirect then {indirectlyInstantiated} else ∅
  else {uninstantiated}

lemma mem_maskOf : ∀ d a i : Bool, (directlyInstantiated ∈ maskOf d a i ↔ d) ∧
    (abstractlyInstantiated ∈ maskOf d a i ↔ a) ∧ (indirectlyInstantiated ∈ maskOf d a i ↔ i) ∧
      (uninstantiated ∈ maskOf d a i ↔ ¬(d ∨ a) ∧ ¬i) := by
  decide

/-- The node of a class with marks for direct and for abstract instantiation. -/
def node (marks : Bool × Bool) (count : ℤ) : ClassHierarchyNode :=
  ⟨maskOf marks.1 marks.2 (0 < count), count⟩

/-- The marks after an assignment. -/
def mark (i : Instantiation) (value : Bool) (marks : Bool × Bool) : Bool × Bool :=
  if i = directlyInstantiated then (value, marks.2) else (marks.1, value)

/-- How often the superclasses count the class. -/
def weight (marks : Bool × Bool) : ℤ := marks.1.toNat + marks.2.toNat

/-- How often they should count it. -/
def own (marks : Bool × Bool) : ℤ := if marks.1 ∨ marks.2 then 1 else 0

lemma own_cases (marks : Bool × Bool) : own marks ≤ weight marks ∧
    (own marks = weight marks ↔ ¬(marks.1 ∧ marks.2)) ∧ 0 ≤ weight marks ∧
      (0 < weight marks ↔ marks.1 ∨ marks.2) := by
  unfold own weight
  rcases marks with ⟨_ | _, _ | _⟩ <;> simp

section

variable {i : Instantiation} {value d a x : Bool} {marks : Bool × Bool} {count : ℤ}

lemma addToMask_maskOf (hi : i ≠ uninstantiated) :
    (ClassHierarchyNode.mk (maskOf d a x) count).addToMask i =
      ⟨maskOf (d || i = directlyInstantiated) (a || i = abstractlyInstantiated)
        (x || i = indirectlyInstantiated), count⟩ := by
  refine congrArg (ClassHierarchyNode.mk · count) ?_
  dsimp only
  revert d a x
  cases i <;> first | exact absurd rfl hi | decide

lemma removeFromMask_maskOf (hi : i ≠ uninstantiated) :
    (ClassHierarchyNode.mk (maskOf d a x) count).removeFromMask i =
      ⟨maskOf (d && i ≠ directlyInstantiated) (a && i ≠ abstractlyInstantiated)
        (x && i ≠ indirectlyInstantiated), count⟩ := by
  refine congrArg (ClassHierarchyNode.mk · count) ?_
  change (if (maskOf d a x).erase i = ∅ then {uninstantiated} else (maskOf d a x).erase i) = _
  revert d a x
  cases i <;> first | exact absurd rfl hi | decide

lemma updateInstantiatedSubclassCount_node (change : ℤ) :
    (node marks count).updateInstantiatedSubclassCount change = node marks (count + change) := by
  unfold updateInstantiatedSubclassCount node
  by_cases h : 0 < count <;> by_cases h' : 0 < count + change <;>
    simp [h, h', addToMask_maskOf, removeFromMask_maskOf]

variable (hi : i = directlyInstantiated ∨ i = abstractlyInstantiated)
include hi

lemma decide_mem_node : decide (i ∈ (node marks count).mask) =
    if i = directlyInstantiated then marks.1 else marks.2 := by
  obtain ⟨hd, ha, -⟩ := mem_maskOf marks.1 marks.2 (0 < count)
  rcases hi with rfl | rfl <;> simp [node, hd, ha]

lemma own_node :
    (if value then (node marks count).addToMask i else (node marks count).removeFromMask i) =
      node (mark i value marks) count := by
  obtain ⟨d, a⟩ := marks
  rcases hi with rfl | rfl <;> cases value <;>
    simp [node, mark, addToMask_maskOf, removeFromMask_maskOf]

lemma mark_self (hval : value = if i = directlyInstantiated then marks.1 else marks.2) :
    mark i value marks = marks := by
  rcases hi with rfl | rfl <;> simp [mark, hval]

lemma weight_mark (hval : ¬value = if i = directlyInstantiated then marks.1 else marks.2) :
    weight (mark i value marks) - weight marks = if value then 1 else -1 := by
  obtain ⟨d, a⟩ := marks
  rcases hi with rfl | rfl <;> cases value <;> cases d <;> cases a <;> simp_all [weight, mark]

end

namespace Tree

variable {C : Type*} {t : Tree C} {a b c d : C}

lemma superclasses_of_none (h : t.parentNode c = none) : t.superclasses c = [] := by
  rw [superclasses]
  split
  · rfl
  · simp_all

lemma superclasses_of_some (h : t.parentNode c = some d) :
    t.superclasses c = d :: t.superclasses d := by
  rw [superclasses]
  split <;> simp_all

lemma depth_lt_of_mem (h : c ∈ t.superclasses d) : t.hierarchyDepth c < t.hierarchyDepth d := by
  fun_induction superclasses t d with
  | case1 => exact absurd h not_mem_nil
  | case2 d p hp ih =>
    rcases mem_cons.mp h with rfl | h
    · exact t.depth_lt d c hp
    · exact (ih h).trans (t.depth_lt d p hp)

lemma not_mem_superclasses_self : c ∉ t.superclasses c := fun h => (depth_lt_of_mem h).false

lemma nodup_superclasses (t : Tree C) (c : C) : (t.superclasses c).Nodup := by
  fun_induction superclasses t c with
  | case1 => exact nodup_nil
  | case2 c p hp ih => exact nodup_cons.mpr ⟨fun h => (depth_lt_of_mem h).false, ih⟩

/-- The superclasses of a class are on one chain. -/
lemma hasSubclass_total (ha : t.hasSubclass a d) (hb : t.hasSubclass b d) :
    t.hasSubclass a b ∨ t.hasSubclass b a := by
  rcases ha with rfl | ha
  · exact .inr hb
  rcases hb with rfl | hb
  · exact .inl (.inr ha)
  fun_induction superclasses t d with
  | case1 => exact absurd ha not_mem_nil
  | case2 d p hp ih =>
    rcases mem_cons.mp ha with rfl | ha
    · exact .inr ((mem_cons.mp hb).imp_left id)
    rcases mem_cons.mp hb with rfl | hb
    · exact .inl (.inr ha)
    · exact ih ha hb

variable [DecidableEq C]

lemma foldl_update {β : Type*} (f : β → β) {l : List C} (hl : l.Nodup) (g : C → β) (c : C) :
    l.foldl (fun g p => update g p (f (g p))) g c = if c ∈ l then f (g c) else g c := by
  induction l generalizing g with
  | nil => rfl
  | cons p rest ih =>
    obtain ⟨hp, hrest⟩ := nodup_cons.mp hl
    rw [foldl_cons, ih hrest]
    by_cases hcp : c = p
    · subst hcp
      simp [hp]
    · simp [hcp]

variable [Fintype C] {marks : C → Bool × Bool} {i : Instantiation}

/-- How often the strict subclasses of a class are counted. -/
def counts (t : Tree C) (marks : C → Bool × Bool) (c : C) : ℤ :=
  ∑ d, if c ∈ t.superclasses d then weight (marks d) else 0

/-- The nodes of classes with the given marks. -/
def nodesOf (t : Tree C) (marks : C → Bool × Bool) (c : C) : ClassHierarchyNode :=
  node (marks c) (t.counts marks c)

lemma counts_update (m : Bool × Bool) (a : C) : t.counts (update marks c m) a =
    t.counts marks a + if a ∈ t.superclasses c then weight m - weight (marks c) else 0 := by
  rw [counts, counts, ← Fintype.sum_ite_eq' c fun d =>
    if a ∈ t.superclasses d then weight m - weight (marks d) else 0, ← sum_add_distrib]
  refine sum_congr rfl fun d _ => ?_
  by_cases hd : d = c
  · subst hd
    by_cases ha : a ∈ t.superclasses d <;> simp [ha]
  · simp [hd]

/-- An assignment does to the nodes what it does to the marks. -/
lemma setInstantiation_nodesOf (hi : i = directlyInstantiated ∨ i = abstractlyInstantiated)
    (value : Bool) (c : C) : t.setInstantiation i value c (t.nodesOf marks) =
      t.nodesOf (update marks c (mark i value (marks c))) := by
  have hmem : decide (i ∈ (t.nodesOf marks c).mask) = _ := decide_mem_node hi
  rw [setInstantiation, hmem]
  by_cases hsame : value = if i = directlyInstantiated then (marks c).1 else (marks c).2
  · rw [if_pos hsame, mark_self hi hsame, update_eq_self]
  rw [if_neg hsame]
  funext d
  have hown : (if value then (t.nodesOf marks c).addToMask i else
      (t.nodesOf marks c).removeFromMask i) = node (mark i value (marks c)) (t.counts marks c) :=
    own_node hi
  rw [updateParentInstantiatedSubclassCount, hown,
    foldl_update (updateInstantiatedSubclassCount · _) (t.nodup_superclasses c)]
  simp only [nodesOf, counts_update, weight_mark hi hsame]
  by_cases hd : d ∈ t.superclasses c
  · have hne : d ≠ c := by
      rintro rfl
      exact not_mem_superclasses_self hd
    rw [if_pos hd, if_pos hd, update_of_ne hne, update_of_ne hne]
    exact updateInstantiatedSubclassCount_node _
  · rw [if_neg hd, if_neg hd, add_zero]
    by_cases hdc : d = c
    · rw [hdc, update_self, update_self]
    · rw [update_of_ne hdc, update_of_ne hdc, nodesOf]

/-- The value last assigned to a flag, which is false at first. -/
def lastAssigned (assigns : Assignment C → Option Bool) (assignments : List (Assignment C)) :
    Bool :=
  (assignments.reverse.findSome? assigns).getD false

omit [DecidableEq C] [Fintype C] in
lemma lastAssigned_concat (assigns : Assignment C → Option Bool)
    (assignments : List (Assignment C)) (a : Assignment C) :
    lastAssigned assigns (assignments ++ [a]) =
      (assigns a).getD (lastAssigned assigns assignments) := by
  rw [lastAssigned, reverse_concat, findSome?_cons]
  cases assigns a <;> rfl

/-- Both flags of a class as they were last assigned. -/
def flags (assignments : List (Assignment C)) (c : C) : Bool × Bool :=
  (lastAssigned (Assignment.directly c) assignments,
    lastAssigned (Assignment.abstractly c) assignments)

lemma run_eq_nodesOf (t : Tree C) (assignments : List (Assignment C)) :
    t.run assignments = t.nodesOf (flags assignments) := by
  induction assignments using reverseRecOn with
  | nil =>
    funext c
    simp [run, nodesOf, counts, weight, node, maskOf, flags, lastAssigned]
  | append_singleton assignments a ih =>
    have hrun : t.run (assignments ++ [a]) = t.assign (t.run assignments) a := by
      rw [run, foldl_concat, run]
    rw [hrun, ih]
    -- Either way only the marks of `c` change.
    rcases a with ⟨c, value⟩ | ⟨c, value⟩
    · rw [assign, setInstantiation_nodesOf (.inl rfl)]
      refine congrArg _ (funext fun d => ?_)
      by_cases hd : d = c
      · simp [flags, mark, lastAssigned_concat, Assignment.directly, Assignment.abstractly, hd]
      · simp [flags, lastAssigned_concat, Assignment.directly, Assignment.abstractly, hd, Ne.symm hd]
    · rw [assign, setInstantiation_nodesOf (.inr rfl)]
      refine congrArg _ (funext fun d => ?_)
      by_cases hd : d = c
      · simp [flags, mark, lastAssigned_concat, Assignment.directly, Assignment.abstractly, hd]
      · simp [flags, lastAssigned_concat, Assignment.directly, Assignment.abstractly, hd, Ne.symm hd]

/-- The classes of a kind that are explicitly instantiated. -/
def explicit (nodes : C → ClassHierarchyNode) (kind : C → Prop) [DecidablePred kind] : Finset C :=
  univ.filter fun d => kind d ∧ (nodes d).isExplicitlyInstantiated

/-- The bookkeeping as its comments describe it. -/
structure Consistent (t : Tree C) (nodes : C → ClassHierarchyNode) : Prop where
  count : ∀ c, (nodes c).instantiatedSubclassCount = #(explicit nodes (c ∈ t.superclasses ·))
  indirectly : ∀ c, indirectlyInstantiated ∈ (nodes c).mask ↔
    0 < #(explicit nodes (c ∈ t.superclasses ·))
  uninstantiated : ∀ c, uninstantiated ∈ (nodes c).mask ↔
    ¬(nodes c).isExplicitlyInstantiated ∧ #(explicit nodes (c ∈ t.superclasses ·)) = 0
  subtypes : ∀ set : ClassSet t, set.instantiatedSubtypeCount nodes =
    #(explicit nodes fun d => d ≠ set.node ∧ ∃ c ∈ set.node :: set.subtypes, t.hasSubclass c d)

lemma explicit_nodesOf (d : C) :
    (t.nodesOf marks d).isExplicitlyInstantiated ↔ (marks d).1 ∨ (marks d).2 := by
  obtain ⟨hd, ha, -⟩ := mem_maskOf (marks d).1 (marks d).2 (0 < t.counts marks d)
  exact or_congr hd ha

lemma card_explicit (kind : C → Prop) [DecidablePred kind] :
    (#(explicit (t.nodesOf marks) kind) : ℤ) = ∑ d, if kind d then own (marks d) else 0 := by
  simp only [explicit, card_filter, ite_and, explicit_nodesOf, own]
  push_cast
  rfl

lemma counts_pos_iff (c : C) :
    0 < t.counts marks c ↔ 0 < #(explicit (t.nodesOf marks) (c ∈ t.superclasses ·)) := by
  have hnn : ∀ d ∈ univ, 0 ≤ if c ∈ t.superclasses d then weight (marks d) else 0 := by
    intro d _
    split_ifs
    exacts [(own_cases _).2.2.1, le_rfl]
  rw [counts, card_pos, sum_pos_iff_of_nonneg hnn]
  refine exists_congr fun d => ?_
  simp only [explicit, mem_univ, true_and, explicit_nodesOf, ← (own_cases _).2.2.2]
  split_ifs with hd <;> simp [hd]

/-- The sum over a forest counts every class of it once. -/
lemma sum_forest {l : List C} (f : C → ℤ)
    (h : l.Pairwise fun c d => ¬(t.hasSubclass c d ∨ t.hasSubclass d c)) :
    (l.map fun c => ∑ d, if t.hasSubclass c d then f d else 0).sum =
      ∑ d, if ∃ c ∈ l, t.hasSubclass c d then f d else 0 := by
  induction l with
  | nil => simp
  | cons c rest ih =>
    obtain ⟨hc, hrest⟩ := List.pairwise_cons.mp h
    rw [List.map_cons, List.sum_cons, ih hrest, ← sum_add_distrib]
    refine sum_congr rfl fun d _ => ?_
    by_cases hd : t.hasSubclass c d
    · have hno : ¬∃ b ∈ rest, t.hasSubclass b d :=
        fun ⟨b, hb, hbd⟩ => hc b hb (hasSubclass_total hd hbd)
      simp [hd, hno]
    · simp [hd]

section

variable (h : ∀ c d, c ∈ t.superclasses d → ¬((marks d).1 ∧ (marks d).2))
include h

lemma own_add_counts (c : C) : own (marks c) + t.counts marks c =
    ∑ d, if t.hasSubclass c d then own (marks d) else 0 := by
  rw [counts, ← Fintype.sum_ite_eq c (fun d => own (marks d)), ← sum_add_distrib]
  refine sum_congr rfl fun d _ => ?_
  by_cases hcd : c = d
  · subst hcd
    simp [hasSubclass, not_mem_superclasses_self]
  by_cases hd : c ∈ t.superclasses d
  · simp [hasSubclass, hcd, hd, (own_cases _).2.1.mpr (h c d hd)]
  · simp [hasSubclass, hcd, hd]

lemma instantiatedSubtypeCount_nodesOf (set : ClassSet t) :
    set.instantiatedSubtypeCount (t.nodesOf marks) = #(explicit (t.nodesOf marks) fun d =>
      d ≠ set.node ∧ ∃ c ∈ set.node :: set.subtypes, t.hasSubclass c d) := by
  have hforest := sum_forest (fun d => own (marks d)) set.unrelated
  have hstrict : ∀ d, (if ∃ c ∈ set.node :: set.subtypes, t.hasSubclass c d then
      own (marks d) else 0) = (if set.node = d then own (marks d) else 0) +
        if d ≠ set.node ∧ ∃ c ∈ set.node :: set.subtypes, t.hasSubclass c d then
          own (marks d) else 0 := by
    intro d
    by_cases hd : set.node = d
    · subst hd
      simp [hasSubclass]
    · simp [hd, Ne.symm hd]
  rw [sum_congr rfl fun d _ => hstrict d, sum_add_distrib, Fintype.sum_ite_eq, ← card_explicit]
    at hforest
  simp only [← own_add_counts h, List.map_cons, List.sum_cons] at hforest
  simp only [ClassSet.instantiatedSubtypeCount, explicit_nodesOf]
  exact add_left_cancel ((add_assoc ..).symm.trans hforest)

lemma consistent_of_single : Consistent t (t.nodesOf marks) := by
  refine ⟨fun c => ?_, fun c => ?_, fun c => ?_, instantiatedSubtypeCount_nodesOf h⟩
  · rw [card_explicit]
    refine sum_congr rfl fun d _ => ?_
    split_ifs with hd
    · exact ((own_cases _).2.1.mpr (h c d hd)).symm
    · rfl
  · exact (mem_maskOf _ _ _).2.2.1.trans (decide_eq_true_iff.trans (counts_pos_iff c))
  · have hzero : #(explicit (t.nodesOf marks) (c ∈ t.superclasses ·)) = 0 ↔
        ¬0 < t.counts marks c := by
      rw [counts_pos_iff, not_lt, Nat.le_zero]
    rw [hzero, explicit_nodesOf, ← decide_eq_true_iff (p := 0 < t.counts marks c)]
    exact (mem_maskOf _ _ _).2.2.2

end

lemma Consistent.single (h : Consistent t (t.nodesOf marks)) (hparent : t.parentNode c ≠ none) :
    ¬((marks c).1 ∧ (marks c).2) := by
  rw [← (own_cases _).2.1]
  by_contra hne
  obtain ⟨p, hp⟩ := Option.ne_none_iff_exists'.mp hparent
  have hmem : p ∈ t.superclasses c := by
    rw [superclasses_of_some hp]
    exact mem_cons_self
  have hlt : (#(explicit (t.nodesOf marks) (p ∈ t.superclasses ·)) : ℤ) < t.counts marks p := by
    rw [card_explicit]
    refine sum_lt_sum (fun d _ => ?_) ⟨c, mem_univ c, ?_⟩
    · split_ifs
      · exact (own_cases _).1
      · exact le_rfl
    · rw [if_pos hmem, if_pos hmem]
      exact lt_of_le_of_ne (own_cases _).1 hne
  exact hlt.ne' (h.count p)

/-- The bookkeeping is right exactly when no class with a superclass has both flags last assigned
true. -/
theorem consistent_run_iff (t : Tree C) (assignments : List (Assignment C)) :
    Consistent t (t.run assignments) ↔ ∀ c, t.parentNode c ≠ none →
      ¬(lastAssigned (Assignment.directly c) assignments ∧
        lastAssigned (Assignment.abstractly c) assignments) := by
  rw [run_eq_nodesOf]
  refine ⟨fun h c => h.single, fun h => consistent_of_single fun c d hcd => h d fun hnone => ?_⟩
  rw [superclasses_of_none hnone] at hcd
  exact absurd hcd List.not_mem_nil

/-- A class `true` with the superclass `false`. -/
def pair : Tree Bool where
  parentNode c := if c then some false else none
  hierarchyDepth c := c.toNat
  depth_lt := by decide

theorem not_consistent_pair : ¬Consistent pair (pair.run
    [.isDirectlyInstantiated true true, .isAbstractlyInstantiated true true]) := by
  rw [run_eq_nodesOf]
  exact fun h => h.single (c := true) (by decide) (by decide)

end Tree

end DartSdk.ClassHierarchy
