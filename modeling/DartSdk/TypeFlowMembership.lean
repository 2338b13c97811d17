import DartSdk.TypeFlowTypes

/-!
The values of a type, and what the operations on type arguments and on sorted lists of concrete
types do to them.
-/

namespace DartSdk.TypeFlow

open Checked

open List Option TypeArg ConcreteType

section

variable {C D : Type}

/-- Null, or an instance with its flattened type arguments; one of them may have no `RuntimeType`.
-/
inductive Value (C D : Type) where
  | null
  | instance (classNode : C) (typeArgs : List (Option (RuntimeType D)))

/-- The values of a program: which instances exist, and which classes are below a type. -/
structure World (C D : Type) where
  Instance : C → List (Option (RuntimeType D)) → Prop
  Below : C → D → Prop
  /-- The number of type parameters of a type. -/
  params : D → ℕ

/-- A type has a vector of type arguments exactly when it is generic. -/
inductive RuntimeType.Valid (params : D → ℕ) : RuntimeType D → Prop
  | mk {type : D} {typeArgs : List (RuntimeType D)} (hempty : params type = 0 ↔ typeArgs = [])
      (hargs : ∀ arg ∈ typeArgs, Valid params arg) : Valid params (.mk type typeArgs)

def TypeArg.Matches : TypeArg D → Option (RuntimeType D) → Prop
  | .any, _ => True
  | .runtime r, arg => arg = some r

def ConcreteType.Member (t : ConcreteType C D) (classNode : C)
    (typeArgs : List (Option (RuntimeType D))) : Prop :=
  classNode = t.classNode ∧ ∀ args ∈ t.typeArgs, List.Forall₂ TypeArg.Matches args typeArgs

def Ty.Member (w : World C D) : Ty C D → Value C D → Prop
  | .empty, _ => False
  | .nullable baseType, v => v = .null ∨ baseType.Member w v
  | .any, v => v ≠ .null
  | .set types, .instance c args => ∃ t ∈ types, t.Member c args
  | .cone d, .instance c _ => w.Below c d
  | .concrete t, .instance c args => t.Member c args
  | _, .null => False

def Value.Exists (w : World C D) : Value C D → Prop
  | .null => True
  | .instance c args => w.Instance c args

variable [LinearOrder C]

/-- Some argument is known, and instances that match in the arguments of the class match in all. -/
structure ValidVector (w : World C D) (h : TypeHierarchy C D) (c : C) (args : List (TypeArg D)) :
    Prop where
  generic : 0 < h.typeParameters c
  length_eq : args.length = h.flattenedLength c
  known : args.any TypeArg.isRuntime = true
  valid : ∀ r, TypeArg.runtime r ∈ args → r.Valid w.params
  implied : ∀ typeArgs, w.Instance c typeArgs →
    List.Forall₂ TypeArg.Matches (args.take (h.typeParameters c))
      (typeArgs.take (h.typeParameters c)) → List.Forall₂ TypeArg.Matches args typeArgs

structure ConcreteType.Valid (w : World C D) (h : TypeHierarchy C D) (t : ConcreteType C D) :
    Prop where
  notAbstract : h.isAbstract t.classNode = false
  vector : ∀ args ∈ t.typeArgs, ValidVector w h t.classNode args

/-- The types that the constructors allow. -/
def Ty.Valid (w : World C D) (h : TypeHierarchy C D) : Ty C D → Prop
  | .nullable baseType => baseType.isNullable = false ∧ baseType.Valid w h
  | .set types => 2 ≤ types.length ∧ types.Pairwise (fun a b => a.classNode < b.classNode) ∧
      ∀ t ∈ types, t.Valid w h
  | .concrete t => t.Valid w h
  | _ => True

/-- A cone is specialised to the empty type, to any, to a set or to a concrete type. -/
def Ty.isSpecialized : Ty C D → Bool
  | .empty => true
  | .any => true
  | .set _ => true
  | .concrete _ => true
  | _ => false

/-- The subtypes of classes are right, and specialised cones have every instance in the cone. -/
structure TypeHierarchy.Correct (h : TypeHierarchy C D) (w : World C D) : Prop where
  isSubtype_raw : ∀ c d, h.isSubtype (h.rawType c) d = true ↔ w.Below c d
  isSubtype_sound : ∀ d d', h.isSubtype d d' = true → ∀ c, w.Below c d → w.Below c d'
  flattened : ∀ c, h.typeParameters c ≤ h.flattenedLength c
  specialize_shape : ∀ d, (h.specializeTypeCone d).isSpecialized = true
  specialize_valid : ∀ d, (h.specializeTypeCone d).Valid w h
  specialize_sound : ∀ c args d, w.Instance c args → w.Below c d →
    (h.specializeTypeCone d).Member w (.instance c args)

end

section

variable {C D : Type} [DecidableEq D] {params : D → ℕ}

lemma sameAll_iff {as : List (RuntimeType D)}
    (h : ∀ a ∈ as, ∀ b, b.Valid params → (a.same b = true ↔ a = b)) (bs : List (RuntimeType D))
    (hbs : ∀ b ∈ bs, b.Valid params) : sameAll as bs = true ↔ as = bs := by
  induction as generalizing bs with
  | nil =>
    cases bs with
    | nil => simp [sameAll]
    | cons b bs => simp [sameAll]
  | cons a as ih =>
    cases bs with
    | nil => simp [sameAll]
    | cons b bs =>
      have hhead := h a (by simp) b (hbs b (by simp))
      have htail := ih (fun a ha => h a (by simp [ha])) bs (fun b hb => hbs b (by simp [hb]))
      rw [sameAll, Bool.and_eq_true, hhead, htail, List.cons.injEq]

lemma RuntimeType.same_iff {r : RuntimeType D} (hr : r.Valid params) (s : RuntimeType D)
    (hs : s.Valid params) : r.same s = true ↔ r = s := by
  induction hr generalizing s with
  | @mk type typeArgs hempty hargs ih =>
    cases hs with
    | @mk type' typeArgs' hempty' hargs' =>
      have hall := sameAll_iff (fun a ha b hb => ih a ha b hb) typeArgs' hargs'
      rw [RuntimeType.same, Bool.and_eq_true, Bool.or_eq_true, hall, decide_eq_true_eq,
        List.isEmpty_iff, RuntimeType.mk.injEq]
      constructor
      · rintro ⟨rfl, hnil | heq⟩
        · exact ⟨rfl, by rw [hnil, hempty'.mp (hempty.mpr hnil)]⟩
        · exact ⟨rfl, heq⟩
      · rintro ⟨rfl, rfl⟩
        exact ⟨rfl, .inr rfl⟩

/-- Every runtime type in the argument is valid. -/
def TypeArg.Valid (params : D → ℕ) (a : TypeArg D) : Prop :=
  ∀ r, a = .runtime r → r.Valid params

variable {a b : TypeArg D}

section

variable (ha : a.Valid params) (hb : b.Valid params)

include ha hb

lemma TypeArg.same_iff : a.same b = true ↔ a = b := by
  cases a with
  | any =>
    cases b with
    | any => simp [same]
    | runtime s => simp [same]
  | runtime r =>
    cases b with
    | any => simp [same]
    | runtime s =>
      rw [same, RuntimeType.same_iff (ha r rfl) s (hb s rfl), runtime.injEq]

omit ha hb in
lemma samePrefix_iff {n : ℕ} {as bs : List (TypeArg D)} (has : ∀ a ∈ as, a.Valid params)
    (hbs : ∀ b ∈ bs, b.Valid params) (hn : n ≤ as.length) (hn' : n ≤ bs.length) :
    samePrefix n as bs = true ↔ as.take n = bs.take n := by
  induction n generalizing as bs with
  | zero => simp [samePrefix]
  | succ n ih =>
    obtain ⟨a, as, rfl⟩ := exists_cons_of_length_pos (by omega : 0 < as.length)
    obtain ⟨b, bs, rfl⟩ := exists_cons_of_length_pos (by omega : 0 < bs.length)
    have htail := @ih as bs (fun a ha => has a (by simp [ha])) (fun b hb => hbs b (by simp [hb]))
      (by simpa using hn) (by simpa using hn')
    rw [samePrefix, Bool.and_eq_true, same_iff (has a (by simp)) (hbs b (by simp)), htail,
      take_succ_cons, take_succ_cons, List.cons.injEq]

lemma TypeArg.intersection_matches (arg : Option (RuntimeType D)) :
    a.Matches arg ∧ b.Matches arg ↔ ∃ c, a.intersection b = some c ∧ c.Matches arg := by
  cases a with
  | any => simp [intersection, TypeArg.Matches]
  | runtime r =>
    cases b with
    | any => simp [intersection, TypeArg.Matches]
    | runtime s =>
      have hsame := RuntimeType.same_iff (ha r rfl) s (hb s rfl)
      by_cases heq : r = s
      · subst heq
        simp [intersection, TypeArg.Matches, hsame]
      · simp only [intersection, TypeArg.Matches, hsame, heq, if_false]
        constructor
        · rintro ⟨hr, hs⟩
          rw [hr] at hs
          exact absurd (Option.some.inj hs) heq
        · rintro ⟨c, hc, _⟩
          cases hc

lemma TypeArg.intersection_valid {c : TypeArg D} (h : a.intersection b = some c) :
    c.Valid params := by
  cases a with
  | any =>
    cases h
    exact hb
  | runtime r =>
    cases b with
    | any =>
      cases h
      exact ha
    | runtime s =>
      rw [intersection] at h
      split_ifs at h
      cases h
      exact ha

end

lemma TypeArg.intersection_isRuntime {c : TypeArg D} (h : a.intersection b = some c)
    (ha : a.isRuntime = true) : c.isRuntime = true := by
  cases a with
  | any => cases ha
  | runtime r =>
    cases b with
    | any =>
      cases h
      rfl
    | runtime s =>
      rw [intersection] at h
      split_ifs at h
      cases h
      rfl

/-- The loop over two vectors of the same length keeps the instances in both. -/
lemma mergeTypeArgs_spec {as bs : List (TypeArg D)} (has : ∀ a ∈ as, a.Valid params)
    (hbs : ∀ b ∈ bs, b.Valid params) (hlength : as.length = bs.length) :
    ∃ result, mergeTypeArgs as bs = .ok result ∧
      (∀ args, List.Forall₂ TypeArg.Matches as args ∧ List.Forall₂ TypeArg.Matches bs args ↔
        ∃ merged, result = some merged ∧ List.Forall₂ TypeArg.Matches merged args) ∧
      ∀ merged, result = some merged → merged.length = as.length ∧
        (∀ c ∈ merged, c.Valid params) ∧
        (as.any TypeArg.isRuntime = true → merged.any TypeArg.isRuntime = true) ∧
        ∀ n args, List.Forall₂ TypeArg.Matches (merged.take n) args →
          List.Forall₂ TypeArg.Matches (as.take n) args ∧
          List.Forall₂ TypeArg.Matches (bs.take n) args := by
  induction as generalizing bs with
  | nil =>
    obtain rfl : bs = [] := length_eq_zero_iff.mp hlength.symm
    refine ⟨some [], rfl, ?_, ?_⟩
    · intro args
      simp
    · intro merged hmerged
      cases hmerged
      simp
  | cons a as ih =>
    obtain ⟨b, bs, rfl⟩ := exists_cons_of_length_eq_add_one hlength.symm
    have ha := has a (by simp)
    have hb := hbs b (by simp)
    obtain ⟨rest, hrest, hmatch, hmerged⟩ := @ih bs (fun a ha => has a (by simp [ha]))
      (fun b hb => hbs b (by simp [hb])) (by simpa using hlength)
    have hhead := intersection_matches ha hb
    rw [mergeTypeArgs]
    cases hab : a.intersection b with
    | none =>
      refine ⟨none, rfl, ?_, by simp⟩
      intro args
      simp only [hab] at hhead
      constructor
      · rintro ⟨h₁, h₂⟩
        cases h₁ with
        | cons h₁ _ =>
          cases h₂ with
          | cons h₂ _ => simpa using (hhead _).mp ⟨h₁, h₂⟩
      · rintro ⟨merged, hnone, _⟩
        cases hnone
    | some c =>
      simp only [hab, Option.some.injEq, exists_eq_left'] at hhead
      rw [hrest]
      cases rest with
      | none =>
        refine ⟨none, rfl, ?_, by simp⟩
        intro args
        constructor
        · rintro ⟨h₁, h₂⟩
          cases h₁ with
          | cons _ h₁ =>
            cases h₂ with
            | cons _ h₂ =>
              obtain ⟨merged, hnone, _⟩ := (hmatch _).mp ⟨h₁, h₂⟩
              cases hnone
        · rintro ⟨merged, hnone, _⟩
          cases hnone
      | some tail =>
        obtain ⟨hlen, hok, hruntime, hshared⟩ := hmerged tail rfl
        refine ⟨some (c :: tail), rfl, ?_, ?_⟩
        · intro args
          simp only [Option.some.injEq, exists_eq_left'] at hmatch ⊢
          cases args with
          | nil => simp
          | cons arg args =>
            simp only [List.forall₂_cons]
            rw [← hhead arg, ← hmatch args]
            tauto
        · intro merged heq
          cases heq
          refine ⟨by simp [hlen], ?_, ?_, ?_⟩
          · intro d hd
            rcases mem_cons.mp hd with rfl | hd
            · exact intersection_valid ha hb hab
            · exact hok d hd
          · intro hany
            rw [any_cons, Bool.or_eq_true] at hany ⊢
            rcases hany with hany | hany
            · exact .inl (intersection_isRuntime hab hany)
            · exact .inr (hruntime hany)
          · intro n args hargs
            cases n with
            | zero => simpa using hargs
            | succ n =>
              cases hargs with
              | @cons _ arg _ args' hc hrest' =>
                have h₁ := (hhead arg).mpr hc
                have h₂ := hshared n _ hrest'
                exact ⟨.cons h₁.1 h₂.1, .cons h₁.2 h₂.2⟩

end

section

variable {C D : Type} {h : TypeHierarchy C D} {w : World C D}

variable {c : C}

lemma newConcrete_valid {typeArgs : Option (List (TypeArg D))}
    (ht : ConcreteType.Valid w h ⟨c, typeArgs⟩) : newConcrete h c typeArgs = .ok ⟨c, typeArgs⟩ := by
  have habstract := ht.notAbstract
  rw [newConcrete, check_of (by simpa using habstract), ok_bind]
  cases typeArgs with
  | none => rfl
  | some args =>
    have hvector := ht.vector args rfl
    rw [check_of (by simpa using hvector.generic), ok_bind,
      check_of (by simpa using hvector.known), ok_bind]

variable {t : ConcreteType C D}

lemma ConcreteType.raw_spec (ht : t.Valid w h) :
    t.raw h = .ok ⟨t.classNode, none⟩ ∧ ConcreteType.Valid w h ⟨t.classNode, none⟩ := by
  have hraw : ConcreteType.Valid w h ⟨t.classNode, none⟩ := ⟨ht.notAbstract, by simp⟩
  exact ⟨newConcrete_valid hraw, hraw⟩

variable {args : List (Option (RuntimeType D))} {types : List (ConcreteType C D)}

lemma raw_member :
    (⟨c, none⟩ : ConcreteType C D).Member c args := ⟨rfl, by simp⟩

lemma validVector_args {args : List (TypeArg D)} (hargs : ValidVector w h c args) :
    ∀ a ∈ args, a.Valid w.params := by
  intro a ha r hr
  exact hargs.valid r (hr ▸ ha)

variable [LinearOrder C]

/-- A list that a set may hold. -/
structure ValidList (w : World C D) (h : TypeHierarchy C D) (types : List (ConcreteType C D)) :
    Prop where
  sorted : types.Pairwise fun a b => a.classNode < b.classNode
  valid : ∀ t ∈ types, t.Valid w h

variable {types : List (ConcreteType C D)}

lemma ValidList.tail (hl : ValidList w h (t :: types)) : ValidList w h types :=
  ⟨hl.sorted.of_cons, fun t ht => hl.valid t (mem_cons_of_mem _ ht)⟩

lemma ValidList.cons {t : ConcreteType C D} (ht : t.Valid w h) (hl : ValidList w h types)
    (hlt : ∀ t' ∈ types, t.classNode < t'.classNode) : ValidList w h (t :: types) := by
  refine ⟨pairwise_cons.mpr ⟨hlt, hl.sorted⟩, ?_⟩
  intro t' ht'
  rcases mem_cons.mp ht' with rfl | ht'
  · exact ht
  · exact hl.valid t' ht'

lemma newSet_valid (hl : ValidList w h types) (hlen : 2 ≤ types.length) :
    newSet types = .ok (.set types) ∧ (Ty.set types).Valid w h := by
  have hsort : ∀ types : List (ConcreteType C D),
      types.Pairwise (fun a b => a.classNode < b.classNode) → isSorted types = true := by
    intro types
    induction types with
    | nil => exact fun _ => rfl
    | cons a types ih =>
      intro hpair
      cases types with
      | nil => rfl
      | cons b types =>
        obtain ⟨hhead, htail⟩ := pairwise_cons.mp hpair
        rw [isSorted, ih htail, Bool.and_true]
        exact decide_eq_true (hhead b mem_cons_self)
  refine ⟨?_, hlen, hl.sorted, hl.valid⟩
  rw [newSet, check_of (decide_eq_true hlen), ok_bind, check_of (hsort types hl.sorted),
    ok_bind]

/-- Every class of the first list is a class of one of the others. -/
def ClassesIn (types types₁ types₂ : List (ConcreteType C D)) : Prop :=
  ∀ t ∈ types, ∃ t' ∈ types₁ ++ types₂, t.classNode = t'.classNode

/-- What a merge of two sorted lists keeps. -/
structure Merges (w : World C D) (h : TypeHierarchy C D)
    (types types₁ types₂ : List (ConcreteType C D)) : Prop where
  list : ValidList w h types
  classes : ClassesIn types types₁ types₂
  length₁ : types₁.length ≤ types.length
  length₂ : types₂.length ≤ types.length
  sound : ∀ c args, w.Instance c args → (∃ t ∈ types₁ ++ types₂, t.Member c args) →
    ∃ t ∈ types, t.Member c args

variable {types₁ types₂ : List (ConcreteType C D)}

lemma lt_of_classesIn
    (hclasses : ClassesIn types types₁ types₂) (h₁ : ∀ t ∈ types₁, c < t.classNode)
    (h₂ : ∀ t ∈ types₂, c < t.classNode) : ∀ t ∈ types, c < t.classNode := by
  intro t ht
  obtain ⟨t', ht', heq⟩ := hclasses t ht
  rw [heq]
  rcases mem_append.mp ht' with ht' | ht'
  · exact h₁ t' ht'
  · exact h₂ t' ht'

lemma lt_of_sorted_cons
    (hl : ValidList w h (t :: types)) : ∀ t' ∈ types, t.classNode < t'.classNode :=
  (pairwise_cons.mp hl.sorted).1

lemma le_of_sorted_cons (hl : ValidList w h (t :: types)) (hlt : c < t.classNode) :
    ∀ t' ∈ t :: types, c < t'.classNode := by
  intro t' ht'
  rcases mem_cons.mp ht' with rfl | ht'
  · exact hlt
  · exact hlt.trans (lt_of_sorted_cons hl t' ht')

lemma Merges.cons {t : ConcreteType C D} {types₁ types₂ : List (ConcreteType C D)}
    (hm : Merges w h types types₁ types₂) (ht : t.Valid w h)
    (hpre : ∀ t' ∈ types, t.classNode < t'.classNode) {all₁ all₂ : List (ConcreteType C D)}
    (hclass : ∃ t' ∈ all₁ ++ all₂, t.classNode = t'.classNode)
    (hsubset : ∀ t' ∈ types₁ ++ types₂, t' ∈ all₁ ++ all₂)
    (hlength₁ : all₁.length ≤ types₁.length + 1) (hlength₂ : all₂.length ≤ types₂.length + 1)
    (hleft : ∀ t' ∈ all₁ ++ all₂, t' ∈ types₁ ++ types₂ ∨
      ∀ c args, w.Instance c args → t'.Member c args → t.Member c args) :
    Merges w h (t :: types) all₁ all₂ := by
  have hlen₁ := hm.length₁
  have hlen₂ := hm.length₂
  refine ⟨hm.list.cons ht hpre, ?_, by rw [length_cons]; omega, by rw [length_cons]; omega, ?_⟩
  · intro t' ht'
    rcases mem_cons.mp ht' with rfl | ht'
    · exact hclass
    · obtain ⟨t'', ht'', heq⟩ := hm.classes t' ht'
      exact ⟨t'', hsubset t'' ht'', heq⟩
  · rintro c args hinst ⟨t', ht', hmem⟩
    rcases hleft t' ht' with htail | hhead
    · obtain ⟨t'', ht'', hmember'⟩ := hm.sound c args hinst ⟨t', htail, hmem⟩
      exact ⟨t'', mem_cons_of_mem _ ht'', hmember'⟩
    · exact ⟨t, mem_cons_self, hhead c args hinst hmem⟩

variable {t₁ : ConcreteType C D}

lemma Merges.both {t₂ : ConcreteType C D}
    (hm : Merges w h types types₁ types₂) (ht : t.Valid w h) (h₁ : ValidList w h (t₁ :: types₁))
    (h₂ : ValidList w h (t₂ :: types₂)) (hclass₁ : t.classNode = t₁.classNode)
    (hclass : t₁.classNode = t₂.classNode)
    (hsound₁ : ∀ c args, w.Instance c args → t₁.Member c args → t.Member c args)
    (hsound₂ : ∀ c args, w.Instance c args → t₂.Member c args → t.Member c args) :
    Merges w h (t :: types) (t₁ :: types₁) (t₂ :: types₂) := by
  apply hm.cons ht
  · rw [hclass₁]
    exact lt_of_classesIn hm.classes (lt_of_sorted_cons h₁) (hclass ▸ lt_of_sorted_cons h₂)
  · exact ⟨t₁, by simp, hclass₁⟩
  · intro t' ht'
    rw [mem_append] at ht' ⊢
    exact ht'.imp (mem_cons_of_mem _) (mem_cons_of_mem _)
  · exact le_refl _
  · exact le_refl _
  · intro t' ht'
    rcases mem_append.mp ht' with ht' | ht'
    · rcases mem_cons.mp ht' with rfl | ht'
      · exact .inr hsound₁
      · exact .inl (mem_append_left _ ht')
    · rcases mem_cons.mp ht' with rfl | ht'
      · exact .inr hsound₂
      · exact .inl (mem_append_right _ ht')

lemma class_mem
    (hmem : ∃ t ∈ types, t.Member c args) {c' : C} (hlt : ∀ t ∈ types, c' < t.classNode) :
    c' < c := by
  obtain ⟨t, ht, hmem⟩ := hmem
  rw [hmem.1]
  exact hlt t ht

/-- What the meet of two sorted lists keeps. -/
structure Meets (w : World C D) (h : TypeHierarchy C D)
    (types types₁ types₂ : List (ConcreteType C D)) : Prop where
  list : ValidList w h types
  classes : ∀ t ∈ types, ∃ t' ∈ types₁, t.classNode = t'.classNode
  sound : ∀ c args, w.Instance c args → (∃ t ∈ types₁, t.Member c args) →
    (∃ t ∈ types₂, t.Member c args) → ∃ t ∈ types, t.Member c args

section

variable (hm : Meets w h types types₁ types₂) (h₁ : ValidList w h (t₁ :: types₁))

include hm h₁

lemma Meets.lt : ∀ t ∈ types, t₁.classNode < t.classNode := by
  intro t ht
  obtain ⟨t', ht', heq⟩ := hm.classes t ht
  rw [heq]
  exact lt_of_sorted_cons h₁ t' ht'

lemma Meets.both {t₂ : ConcreteType C D} (h₂ : ValidList w h (t₂ :: types₂))
    (hclass : t₁.classNode = t₂.classNode) (result : Option (ConcreteType C D))
    (hres : ∀ r ∈ result, r.Valid w h ∧ r.classNode = t₁.classNode)
    (hsound : ∀ c args, w.Instance c args → t₁.Member c args → t₂.Member c args →
      ∃ r ∈ result, r.Member c args) :
    Meets w h (result.toList ++ types) (t₁ :: types₁) (t₂ :: types₂) := by
  constructor
  · cases result with
    | none => exact hm.list
    | some r =>
      obtain ⟨hr, hclass'⟩ := hres r rfl
      exact hm.list.cons hr (hclass' ▸ hm.lt h₁)
  · intro t ht
    rcases mem_append.mp ht with ht | ht
    · exact ⟨t₁, mem_cons_self, (hres t (mem_toList.mp ht)).2⟩
    · obtain ⟨t', ht', heq⟩ := hm.classes t ht
      exact ⟨t', mem_cons_of_mem _ ht', heq⟩
  · rintro c args hinst ⟨t, ht, hmem⟩ ⟨t', ht', hmember'⟩
    have hclasses := hmem.1.symm.trans hmember'.1
    rcases mem_cons.mp ht with rfl | ht
    · rcases mem_cons.mp ht' with rfl | ht'
      · obtain ⟨r, hr, hmember''⟩ := hsound c args hinst hmem hmember'
        exact ⟨r, mem_append_left _ (mem_toList.mpr hr), hmember''⟩
      · exact absurd (hclass.symm.trans hclasses) (lt_of_sorted_cons h₂ t' ht').ne
    · rcases mem_cons.mp ht' with rfl | ht'
      · exact absurd (hclass.trans hclasses.symm) (lt_of_sorted_cons h₁ t ht).ne
      · obtain ⟨r, hr, hmember''⟩ :=
          hm.sound c args hinst ⟨t, ht, hmem⟩ ⟨t', ht', hmember'⟩
        exact ⟨r, mem_append_right _ hr, hmember''⟩

end

variable [DecidableEq D]

variable {t' : ConcreteType C D}

lemma some_typeArgs (hclass : t.classNode = t'.classNode)
    (hsame : t.same h t' ≠ true) : (t.typeArgs.isSome || t'.typeArgs.isSome) = true := by
  by_contra hnone
  simp only [Bool.or_eq_true, not_or, Bool.not_eq_true, isSome_eq_false_iff,
    isNone_iff_eq_none] at hnone
  apply hsame
  rw [ConcreteType.same, if_neg (by simp [ConcreteType.numImmediateTypeArgs, hnone, hclass]),
    hnone.1]

lemma ConcreteType.same_spec (hc : h.Correct w) (ht : t.Valid w h)
    (ht' : t'.Valid w h) (hsame : t.same h t' = true) :
    t.classNode = t'.classNode ∧
      ∀ c args, w.Instance c args → (t.Member c args ↔ t'.Member c args) := by
  rw [same] at hsame
  split_ifs at hsame with hdiffer
  obtain ⟨hclass, hcnt⟩ := not_or.mp hdiffer
  have hclass := not_not.mp hclass
  refine ⟨hclass, ?_⟩
  intro c args hinst
  obtain ⟨c₁, targs⟩ := t
  obtain ⟨c₂, targs'⟩ := t'
  subst hclass
  cases targs with
  | none =>
    cases targs' with
    | none => exact Iff.rfl
    | some as' =>
      have hpos : 0 < h.typeParameters c₁ := (ht'.vector as' rfl).generic
      have hzero : 0 = h.typeParameters c₁ := not_not.mp hcnt
      omega
  | some as =>
    cases targs' with
    | none => cases hsame
    | some as' =>
      have hv : ValidVector w h c₁ as := ht.vector as rfl
      have hv' : ValidVector w h c₁ as' := ht'.vector as' rfl
      have hlong := hc.flattened c₁
      have hshared : as.take (h.typeParameters c₁) = as'.take (h.typeParameters c₁) :=
        (samePrefix_iff (validVector_args hv) (validVector_args hv')
        (by rw [hv.length_eq]; exact hlong) (by rw [hv'.length_eq]; exact hlong)).mp hsame
      simp only [ConcreteType.Member, mem_def, Option.some.injEq, forall_eq']
      constructor
      · rintro ⟨rfl, hmatch⟩
        refine ⟨rfl, hv'.implied args hinst ?_⟩
        rw [← hshared]
        exact List.forall₂_take _ hmatch
      · rintro ⟨rfl, hmatch⟩
        refine ⟨rfl, hv.implied args hinst ?_⟩
        rw [hshared]
        exact List.forall₂_take _ hmatch

lemma ConcreteType.intersection_spec (ht : t.Valid w h) (ht' : t'.Valid w h) :
    ∃ result, t.intersection h t' = .ok result ∧
      (∀ r ∈ result, r.Valid w h ∧ r.classNode = t.classNode) ∧
      ∀ c args, w.Instance c args → t.Member c args → t'.Member c args →
        ∃ r ∈ result, r.Member c args := by
  rw [intersection]
  by_cases hsame : t.same h t' = true
  · rw [if_pos hsame]
    refine ⟨some t, rfl, ?_, ?_⟩
    · rintro r ⟨⟩
      exact ⟨ht, rfl⟩
    · intro c args _ hmem _
      exact ⟨t, rfl, hmem⟩
  rw [if_neg hsame]
  by_cases hclass : t.classNode = t'.classNode
  swap
  · rw [if_pos hclass]
    refine ⟨none, rfl, by simp, ?_⟩
    intro c args _ hmem hmember'
    exact absurd (hmem.1.symm.trans hmember'.1) hclass
  rw [if_neg (not_not_intro hclass), check_of (some_typeArgs hclass hsame), ok_bind]
  cases hargs : t.typeArgs with
  | none =>
    refine ⟨some t', rfl, ?_, ?_⟩
    · rintro r ⟨⟩
      exact ⟨ht', hclass.symm⟩
    · intro c args _ _ hmember'
      exact ⟨t', rfl, hmember'⟩
  | some as =>
    cases hargs' : t'.typeArgs with
    | none =>
      refine ⟨some t, rfl, ?_, ?_⟩
      · rintro r ⟨⟩
        exact ⟨ht, rfl⟩
      · intro c args _ hmem _
        exact ⟨t, rfl, hmem⟩
    | some as' =>
      have hv := ht.vector as hargs
      have hv' := ht'.vector as' hargs'
      obtain ⟨result, hmerge, hmatch, hmerged⟩ := mergeTypeArgs_spec (validVector_args hv)
        (validVector_args hv') (by rw [hv.length_eq, hv'.length_eq, hclass])
      have hboth {c : C} {args : List (Option (RuntimeType D))} (hm : t.Member c args)
          (hm' : t'.Member c args) : ∃ merged, result = some merged ∧
            List.Forall₂ TypeArg.Matches merged args :=
        (hmatch args).mp ⟨hm.2 as hargs, hm'.2 as' hargs'⟩
      simp only [hmerge, ok_bind]
      cases result with
      | none =>
        refine ⟨none, rfl, by simp, ?_⟩
        intro c args _ hm hm'
        obtain ⟨merged, hnone, _⟩ := hboth hm hm'
        cases hnone
      | some merged =>
        obtain ⟨hlen, hok, hruntime, hshared⟩ := hmerged merged rfl
        have hknown := hruntime hv.known
        have hr : ConcreteType.Valid w h ⟨t.classNode, some merged⟩ := by
          refine ⟨ht.notAbstract, ?_⟩
          rintro args ⟨⟩
          refine ⟨hv.generic, hlen.trans hv.length_eq, hknown, fun r hr => hok _ hr r rfl, ?_⟩
          intro args hinst htake
          obtain ⟨h₁, h₂⟩ := hshared _ _ htake
          have h₂' := hv'.implied args (hclass ▸ hinst) (hclass ▸ h₂)
          obtain ⟨merged', heq, hforall⟩ := (hmatch args).mp ⟨hv.implied args hinst h₁, h₂'⟩
          cases heq
          exact hforall
        simp only [if_pos hknown, newConcrete_valid hr, ok_bind]
        refine ⟨some _, rfl, ?_, ?_⟩
        · rintro r ⟨⟩
          exact ⟨hr, rfl⟩
        · intro c args _ hm hm'
          obtain ⟨merged', heq, hforall⟩ := hboth hm hm'
          cases heq
          refine ⟨_, rfl, hm.1, ?_⟩
          rintro args ⟨⟩
          exact hforall

lemma unionLists_spec (hc : h.Correct w) (types₁ types₂ : List (ConcreteType C D))
    (h₁ : ValidList w h types₁) (h₂ : ValidList w h types₂) :
    ∃ types, unionLists h types₁ types₂ = .ok types ∧ Merges w h types types₁ types₂ := by
  induction types₁, types₂ using unionLists.induct h with
  | case1 types₂ =>
    exact ⟨types₂, by rw [unionLists], h₂, fun t ht => ⟨t, by simpa using ht, rfl⟩,
      Nat.zero_le _, le_refl _, fun c args _ hm => by simpa using hm⟩
  | case2 types₁ hne =>
    refine ⟨types₁, ?_, h₁, fun t ht => ⟨t, by simpa using ht, rfl⟩, le_refl _, Nat.zero_le _,
      fun c args _ hm => by simpa using hm⟩
    cases types₁ with
    | nil => exact absurd rfl hne
    | cons t types => rw [unionLists]; exact hne
  | case3 t₁ types₁ t₂ types₂ hlt ih =>
    obtain ⟨types, hunion, hm⟩ := ih h₁.tail h₂
    refine ⟨t₁ :: types, ?_, ?_⟩
    · rw [unionLists, if_pos hlt, hunion]
      rfl
    · apply hm.cons (h₁.valid t₁ mem_cons_self)
        (lt_of_classesIn hm.classes (lt_of_sorted_cons h₁) (le_of_sorted_cons h₂ hlt))
        ⟨t₁, by simp, rfl⟩
      · exact fun t' ht' => mem_cons_of_mem _ ht'
      · exact le_refl _
      · exact Nat.le_succ _
      · intro t' ht'
        rcases mem_cons.mp ht' with rfl | ht'
        · exact .inr fun _ _ _ hmem => hmem
        · exact .inl ht'
  | case4 t₁ types₁ t₂ types₂ hlt hgt ih =>
    obtain ⟨types, hunion, hm⟩ := ih h₁ h₂.tail
    refine ⟨t₂ :: types, ?_, ?_⟩
    · rw [unionLists, if_neg hlt, if_pos hgt, hunion]
      rfl
    · apply hm.cons (h₂.valid t₂ mem_cons_self)
        (lt_of_classesIn hm.classes (le_of_sorted_cons h₁ hgt) (lt_of_sorted_cons h₂))
        ⟨t₂, by simp, rfl⟩
      · intro t' ht'
        rw [mem_append] at ht' ⊢
        exact ht'.imp id (mem_cons_of_mem _)
      · exact Nat.le_succ _
      · exact le_refl _
      · intro t' ht'
        rcases mem_append.mp ht' with ht' | ht'
        · exact .inl (mem_append_left _ ht')
        · rcases mem_cons.mp ht' with rfl | ht'
          · exact .inr fun _ _ _ hmem => hmem
          · exact .inl (mem_append_right _ ht')
  | case5 t₁ types₁ t₂ types₂ hlt hgt hsame ih =>
    obtain ⟨types, hunion, hm⟩ := ih h₁.tail h₂.tail
    have hv₁ := h₁.valid t₁ mem_cons_self
    have hv₂ := h₂.valid t₂ mem_cons_self
    obtain ⟨hclass, hequal⟩ := same_spec hc hv₁ hv₂ hsame
    refine ⟨t₁ :: types, ?_, ?_⟩
    · rw [unionLists, if_neg hlt, if_neg hgt, if_pos hsame, hunion]
      rfl
    · apply Merges.both hm hv₁ h₁ h₂ rfl hclass
      · exact fun _ _ _ hmem => hmem
      · exact fun c args hinst hmem => (hequal c args hinst).mpr hmem
  | case6 t₁ types₁ t₂ types₂ hlt hgt hsame ih =>
    obtain ⟨types, hunion, hm⟩ := ih h₁.tail h₂.tail
    have hclass : t₁.classNode = t₂.classNode := le_antisymm (not_lt.mp hgt) (not_lt.mp hlt)
    obtain ⟨hraw, hok⟩ := raw_spec (h₁.valid t₁ mem_cons_self)
    refine ⟨⟨t₁.classNode, none⟩ :: types, ?_, ?_⟩
    · rw [unionLists, if_neg hlt, if_neg hgt, if_neg hsame, hraw, ok_bind, hunion]
      rfl
    · apply Merges.both hm hok h₁ h₂ rfl hclass
      · exact fun c args _ hmem => ⟨hmem.1, by simp⟩
      · exact fun c args _ hmem => ⟨hmem.1.trans hclass.symm, by simp⟩

lemma intersectLists_spec (types₁ types₂ : List (ConcreteType C D))
    (h₁ : ValidList w h types₁) (h₂ : ValidList w h types₂) :
    ∃ types, intersectLists h types₁ types₂ = .ok types ∧ Meets w h types types₁ types₂ := by
  have hempty : ValidList w h ([] : List (ConcreteType C D)) := ⟨.nil, by simp⟩
  induction types₁, types₂ using intersectLists.induct with
  | case1 types₂ =>
    exact ⟨[], by rw [intersectLists], hempty, by simp, fun c args _ hm => by simp at hm⟩
  | case2 types₁ hne =>
    refine ⟨[], ?_, hempty, by simp, fun c args _ _ hm => by simp at hm⟩
    cases types₁ with
    | nil => exact absurd rfl hne
    | cons t types => rw [intersectLists]; exact hne
  | case3 t₁ types₁ t₂ types₂ hlt ih =>
    obtain ⟨types, hinter, hm⟩ := ih h₁.tail h₂
    refine ⟨types, ?_, hm.list, ?_, ?_⟩
    · rw [intersectLists, if_pos hlt, hinter]
    · intro t ht
      obtain ⟨t', ht', heq⟩ := hm.classes t ht
      exact ⟨t', mem_cons_of_mem _ ht', heq⟩
    · rintro c args hinst ⟨t, ht, hmem⟩ hother
      rcases mem_cons.mp ht with rfl | ht
      · have hafter := class_mem hother (le_of_sorted_cons h₂ hlt)
        exact absurd hmem.1 hafter.ne'
      · exact hm.sound c args hinst ⟨t, ht, hmem⟩ hother
  | case4 t₁ types₁ t₂ types₂ hlt hgt ih =>
    obtain ⟨types, hinter, hm⟩ := ih h₁ h₂.tail
    refine ⟨types, ?_, hm.list, hm.classes, ?_⟩
    · rw [intersectLists, if_neg hlt, if_pos hgt, hinter]
    · rintro c args hinst hother ⟨t, ht, hmem⟩
      rcases mem_cons.mp ht with rfl | ht
      · have hafter := class_mem hother (le_of_sorted_cons h₁ hgt)
        exact absurd hmem.1 hafter.ne'
      · exact hm.sound c args hinst hother ⟨t, ht, hmem⟩
  | case5 t₁ types₁ t₂ types₂ hlt hgt hnone ih =>
    obtain ⟨types, hinter, hm⟩ := ih h₁.tail h₂.tail
    have hclass : t₁.classNode = t₂.classNode := le_antisymm (not_lt.mp hgt) (not_lt.mp hlt)
    refine ⟨t₁ :: types, ?_, ?_⟩
    · rw [intersectLists, if_neg hlt, if_neg hgt, if_pos hnone, hinter]
      rfl
    · apply hm.both h₁ h₂ hclass (some t₁)
      · rintro r ⟨⟩
        exact ⟨h₁.valid t₁ mem_cons_self, rfl⟩
      · intro c args _ hmem _
        exact ⟨t₁, rfl, hmem⟩
  | case6 t₁ types₁ t₂ types₂ hlt hgt hnone ih =>
    obtain ⟨types, hinter, hm⟩ := ih h₁.tail h₂.tail
    have hclass : t₁.classNode = t₂.classNode := le_antisymm (not_lt.mp hgt) (not_lt.mp hlt)
    obtain ⟨result, hres, hok, hsound⟩ := intersection_spec
      (h₁.valid t₁ mem_cons_self) (h₂.valid t₂ mem_cons_self)
    refine ⟨result.toList ++ types, ?_, hm.both h₁ h₂ hclass result hok hsound⟩
    rw [intersectLists, if_neg hlt, if_neg hgt, if_neg hnone, hres, ok_bind]
    cases result with
    | none => exact hinter
    | some r =>
      simp only [hinter, ok_bind]
      rfl

lemma intersectConcrete_spec {other : ConcreteType C D}
    (hother : other.Valid w h) (hl : ValidList w h types) :
    ∃ result : Option (ConcreteType C D),
      intersectConcrete h other types = .ok (ofOption result) ∧
      (∀ r ∈ result, r.Valid w h) ∧
      ∀ c args, w.Instance c args → (∃ t ∈ types, t.Member c args) → other.Member c args →
        ∃ r ∈ result, r.Member c args := by
  induction types with
  | nil => exact ⟨none, rfl, by simp, fun c args _ hm => by simp at hm⟩
  | cons t types ih =>
    have ht := hl.valid t mem_cons_self
    rw [intersectConcrete]
    by_cases hsame : t.same h other = true
    · rw [if_pos hsame]
      refine ⟨some other, rfl, ?_, ?_⟩
      · rintro r ⟨⟩
        exact hother
      · intro c args _ _ hmem
        exact ⟨other, rfl, hmem⟩
    rw [if_neg hsame]
    by_cases hclass : t.classNode = other.classNode
    · obtain ⟨result, hres, hok, hsound⟩ := intersection_spec ht hother
      refine ⟨result, ?_, fun r hr => (hok r hr).1, ?_⟩
      · rw [if_pos hclass, hres, ok_bind]
      · rintro c args hinst ⟨t', ht', hmember'⟩ hmem
        rcases mem_cons.mp ht' with rfl | ht'
        · exact hsound c args hinst hmember' hmem
        · have hclasses := hmem.1.symm.trans hmember'.1
          exact absurd (hclass.trans hclasses) (lt_of_sorted_cons hl t' ht').ne
    · obtain ⟨result, hres, hok, hsound⟩ := ih hl.tail
      refine ⟨result, ?_, hok, ?_⟩
      · rw [if_neg hclass, hres]
      · rintro c args hinst ⟨t', ht', hmember'⟩ hmem
        rcases mem_cons.mp ht' with rfl | ht'
        · exact absurd (hmember'.1.symm.trans hmem.1) hclass
        · exact hsound c args hinst ⟨t', ht', hmember'⟩ hmem

end

end DartSdk.TypeFlow
