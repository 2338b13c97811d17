import DartSdk.TypeFlowMembership

/-!
Types as an abstract domain: the union of two types has every value of either one, and the
intersection every value of both.
-/

namespace DartSdk.TypeFlow

open Checked

open List Option TypeArg ConcreteType

section

variable {C D : Type} {h : TypeHierarchy C D} {w : World C D}

variable {types : List (ConcreteType C D)} {v : Value C D}

variable {t : ConcreteType C D} {d : D} {a : Ty C D}

lemma member_instance_iff {P : C → List (Option (RuntimeType D)) → Prop}
    (hnull : ¬a.Member w .null) (hinst : ∀ c args, a.Member w (.instance c args) ↔ P c args) :
    a.Member w v ↔ ∃ c args, v = .instance c args ∧ P c args := by
  cases v with
  | null => simp [hnull]
  | «instance» c args =>
    rw [hinst]
    constructor
    · intro h
      exact ⟨c, args, rfl, h⟩
    · rintro ⟨c', args', heq, h⟩
      cases heq
      exact h

lemma member_set_iff :
    (Ty.set types).Member w v ↔ ∃ c args, v = .instance c args ∧ ∃ t ∈ types, t.Member c args :=
  member_instance_iff id fun _ _ => Iff.rfl

lemma member_concrete_iff :
    (Ty.concrete t).Member w v ↔ ∃ c args, v = .instance c args ∧ t.Member c args :=
  member_instance_iff id fun _ _ => Iff.rfl

lemma member_cone_iff : (Ty.cone d).Member w v ↔ ∃ c args, v = .instance c args ∧ w.Below c d :=
  member_instance_iff id fun _ _ => Iff.rfl

lemma not_member_null (ha : a.isNullable = false) : ¬a.Member w .null := by
  cases a with
  | empty => exact id
  | nullable b => cases ha
  | any => exact fun h => h rfl
  | set types => exact id
  | cone d => exact id
  | concrete t => exact id

lemma member_single : (Ty.set [t]).Member w v ↔ (Ty.concrete t).Member w v := by
  cases v with
  | null => exact Iff.rfl
  | «instance» c args =>
    constructor
    · rintro ⟨t', ht, hm⟩
      rw [mem_singleton.mp ht] at hm
      exact hm
    · intro hm
      exact ⟨t, mem_singleton.mpr rfl, hm⟩

lemma isSpecialized_cases (ha : a.isSpecialized = true) :
    a = .empty ∨ a = .any ∨ (∃ types, a = .set types) ∨ ∃ t, a = .concrete t := by
  cases a with
  | empty => exact .inl rfl
  | nullable b => cases ha
  | any => exact .inr (.inl rfl)
  | set types => exact .inr (.inr (.inl ⟨types, rfl⟩))
  | cone d => cases ha
  | concrete t => exact .inr (.inr (.inr ⟨t, rfl⟩))

lemma exists_of_isNullable (ha : a.isNullable = true) : ∃ b, a = .nullable b := by
  cases a with
  | nullable b => exact ⟨b, rfl⟩
  | _ => cases ha

variable {result : Option (ConcreteType C D)}

lemma member_ofOption {c : C}
    {args : List (Option (RuntimeType D))} (hm : ∃ r ∈ result, r.Member c args) :
    (ofOption result).Member w (.instance c args) := by
  obtain ⟨r, rfl, hm⟩ := hm
  exact hm

variable [LinearOrder C]

lemma Ty.Valid.list (ht : (Ty.set types).Valid w h) :
    ValidList w h types := ⟨ht.2.1, ht.2.2⟩

lemma validList_single (ht : t.Valid w h) : ValidList w h [t] :=
  ⟨pairwise_singleton _ _, by simpa using ht⟩

lemma member_of_merges {types₁ types₂ : List (ConcreteType C D)}
    (hm : Merges w h types types₁ types₂) (hv : v.Exists w)
    (hmem : (Ty.set types₁).Member w v ∨ (Ty.set types₂).Member w v) :
    (Ty.set types).Member w v := by
  rw [member_set_iff, member_set_iff] at hmem
  obtain ⟨c, args, rfl, t, ht, hmem⟩ : ∃ c args, v = .instance c args ∧
      ∃ t ∈ types₁ ++ types₂, t.Member c args := by
    rcases hmem with ⟨c, args, rfl, t, ht, hmem⟩ | ⟨c, args, rfl, t, ht, hmem⟩
    · exact ⟨c, args, rfl, t, mem_append_left _ ht, hmem⟩
    · exact ⟨c, args, rfl, t, mem_append_right _ ht, hmem⟩
  exact member_set_iff.mpr ⟨c, args, rfl, hm.sound c args hv ⟨t, ht, hmem⟩⟩

lemma member_specialize (hc : h.Correct w) (hv : v.Exists w)
    (hm : (Ty.cone d).Member w v) : (h.specializeTypeCone d).Member w v := by
  obtain ⟨c, args, rfl, hbelow⟩ := member_cone_iff.mp hm
  exact hc.specialize_sound c args d hv hbelow

lemma specialize_not_nullable (hc : h.Correct w) (d : D) :
    (h.specializeTypeCone d).isNullable = false := by
  rcases isSpecialized_cases (hc.specialize_shape d) with heq | heq | ⟨_, heq⟩ | ⟨_, heq⟩ <;>
    rw [heq] <;> rfl

lemma member_cone_of_subtype (hc : h.Correct w) {d' : D} (hsub : h.isSubtype d d' = true)
    (hm : (Ty.cone d).Member w v) : (Ty.cone d').Member w v := by
  obtain ⟨c, args, rfl, hbelow⟩ := member_cone_iff.mp hm
  exact member_cone_iff.mpr ⟨c, args, rfl, hc.isSubtype_sound d d' hsub c hbelow⟩

lemma newNullable_valid (ha : a.Valid w h) (hna : a.isNullable = false) :
    newNullable a = .ok (.nullable a) ∧ (Ty.nullable a).Valid w h := by
  refine ⟨?_, hna, ha⟩
  rw [newNullable, check_of (by simp [hna]), ok_bind]

lemma ofOption_valid (hr : ∀ r ∈ result, r.Valid w h) :
    (ofOption result).Valid w h ∧ (ofOption result).isNullable = false := by
  cases result with
  | none => exact ⟨trivial, rfl⟩
  | some t => exact ⟨hr t rfl, rfl⟩

lemma ofList_valid (hl : ValidList w h types) :
    ∃ u, ofList types = .ok u ∧ u.Valid w h ∧ u.isNullable = false ∧
      ∀ v, (Ty.set types).Member w v → u.Member w v := by
  match types, hl with
  | [], _ =>
    refine ⟨.empty, rfl, trivial, rfl, ?_⟩
    intro v hm
    obtain ⟨c, args, _, t, ht, _⟩ := member_set_iff.mp hm
    cases ht
  | [t], hl => exact ⟨.concrete t, rfl, hl.valid t mem_cons_self, rfl,
      fun v hm => member_single.mp hm⟩
  | t :: t' :: types, hl =>
    obtain ⟨hnew, hok⟩ := newSet_valid hl (by simp)
    exact ⟨_, hnew, hok, rfl, fun _ hm => hm⟩

variable [DecidableEq D]

/-- The union is defined and holds the values of both. -/
def UnionAt (h : TypeHierarchy C D) (w : World C D) (fuel : ℕ) (a b : Ty C D) : Prop :=
  ∃ u, union h fuel a b = .ok u ∧ u.Valid w h ∧
    (a.isNullable = false → b.isNullable = false → u.isNullable = false) ∧
    ∀ v, v.Exists w → a.Member w v ∨ b.Member w v → u.Member w v

variable {fuel : ℕ} {b : Ty C D}

lemma unionAt_swap (hlt : b.order < a.order)
    (hu : UnionAt h w fuel b a) : UnionAt h w (fuel + 1) a b := by
  obtain ⟨u, hunion, hok, hnull, hsound⟩ := hu
  refine ⟨u, ?_, hok, fun ha hb => hnull hb ha, fun v hv hm => hsound v hv hm.symm⟩
  rw [← hunion]
  cases a with
  | empty => cases b <;> simp [Ty.order] at hlt
  | nullable base => exact if_pos hlt
  | any => exact if_pos hlt
  | set types => exact if_pos hlt
  | cone d => exact if_pos hlt
  | concrete t => exact if_pos hlt

lemma unionAt_empty (fuel : ℕ) (hb : b.Valid w h) : UnionAt h w (fuel + 1) .empty b :=
  ⟨b, rfl, hb, fun _ hb => hb, fun _ _ hm => hm.resolve_left id⟩

lemma unionAt_any (fuel : ℕ) (hb : b.isNullable = false) (hempty : b ≠ .empty) :
    UnionAt h w (fuel + 1) .any b := by
  refine ⟨.any, ?_, trivial, fun _ _ => rfl, ?_⟩
  · exact union_any h fuel hb hempty
  · intro v _ hm hnull
    rcases hm with hm | hm
    · exact hm hnull
    · exact not_member_null hb (hnull ▸ hm)

variable {types' : List (ConcreteType C D)}

section

variable (hc : h.Correct w)

include hc

lemma unionAt_set_set (fuel : ℕ) (hs : (Ty.set types).Valid w h) (hs' : (Ty.set types').Valid w h) :
    UnionAt h w (fuel + 1) (.set types) (.set types') := by
  obtain ⟨merged, hmerge, hm⟩ := unionLists_spec hc types types' hs.list hs'.list
  obtain ⟨hnew, hok⟩ := newSet_valid hm.list (hs.1.trans hm.length₁)
  refine ⟨.set merged, ?_, hok, fun _ _ => rfl, fun v hv => member_of_merges hm hv⟩
  change (unionLists h types types' >>= newSet) = _
  rw [hmerge]
  exact hnew

lemma unionAt_set_concrete (fuel : ℕ) (hs : (Ty.set types).Valid w h) (ht : t.Valid w h) :
    UnionAt h w (fuel + 1) (.set types) (.concrete t) := by
  rw [UnionAt, union_set_concrete]
  by_cases hany : (types.any fun type => type.same h t) = true
  · simp only [if_pos hany]
    refine ⟨.set types, rfl, hs, fun _ _ => rfl, ?_⟩
    intro v hv hmem
    rcases hmem with hmem | hmem
    · exact hmem
    · obtain ⟨t', ht', hsame⟩ := any_eq_true.mp hany
      obtain ⟨c, args, rfl, hmem⟩ := member_concrete_iff.mp hmem
      have hequal := (same_spec hc (hs.2.2 t' ht') ht hsame).2 c args hv
      exact member_set_iff.mpr ⟨c, args, rfl, t', ht', hequal.mpr hmem⟩
  · simp only [if_neg hany]
    obtain ⟨merged, hmerge, hm⟩ := unionLists_spec hc types [t] hs.list (validList_single ht)
    obtain ⟨hnew, hok⟩ := newSet_valid hm.list (hs.1.trans hm.length₁)
    refine ⟨.set merged, ?_, hok, fun _ _ => rfl, ?_⟩
    · rw [hmerge]
      exact hnew
    · intro v hv hmem
      rw [← member_single] at hmem
      exact member_of_merges hm hv hmem

lemma unionAt_concrete_concrete (fuel : ℕ) {t' : ConcreteType C D} (ht : t.Valid w h)
    (ht' : t'.Valid w h) : UnionAt h w (fuel + 1) (.concrete t) (.concrete t') := by
  change ∃ u, t.union h t' = .ok u ∧ _
  rw [ConcreteType.union]
  by_cases hsame : t.same h t' = true
  · rw [if_pos hsame]
    refine ⟨.concrete t, rfl, ht, fun _ _ => rfl, ?_⟩
    intro v hv hmem
    rcases hmem with hmem | hmem
    · exact hmem
    · obtain ⟨c, args, rfl, hmem⟩ := member_concrete_iff.mp hmem
      have hequal := (ConcreteType.same_spec hc ht ht' hsame).2 c args hv
      exact member_concrete_iff.mpr ⟨c, args, rfl, hequal.mpr hmem⟩
  rw [if_neg hsame]
  by_cases hclass : t.classNode = t'.classNode
  · rw [if_neg (not_not_intro hclass), check_of (some_typeArgs hclass hsame), ok_bind]
    obtain ⟨hraw, hok⟩ := ConcreteType.raw_spec ht
    rw [hraw, ok_bind]
    refine ⟨_, rfl, hok, fun _ _ => rfl, ?_⟩
    intro v _ hmem
    rw [member_concrete_iff, member_concrete_iff] at hmem
    rw [member_concrete_iff]
    rcases hmem with ⟨c, args, rfl, hmem⟩ | ⟨c, args, rfl, hmem⟩
    · exact ⟨c, args, rfl, hmem.1, by simp⟩
    · exact ⟨c, args, rfl, hmem.1.trans hclass.symm, by simp⟩
  · rw [if_pos hclass]
    have hpair {a b : ConcreteType C D} (ha : a.Valid w h) (hb : b.Valid w h)
        (hlt : a.classNode < b.classNode) : ValidList w h [a, b] :=
      (validList_single hb).cons ha (by simpa using hlt)
    have hmem {a b : ConcreteType C D} {v : Value C D}
        (hmem : (Ty.concrete a).Member w v ∨ (Ty.concrete b).Member w v) :
        (Ty.set [a, b]).Member w v := by
      rw [member_set_iff]
      rcases hmem with hmem | hmem
      · obtain ⟨c, args, rfl, hmem⟩ := member_concrete_iff.mp hmem
        exact ⟨c, args, rfl, a, by simp, hmem⟩
      · obtain ⟨c, args, rfl, hmem⟩ := member_concrete_iff.mp hmem
        exact ⟨c, args, rfl, b, by simp, hmem⟩
    rcases lt_or_gt_of_ne hclass with hlt | hgt
    · rw [if_pos hlt]
      obtain ⟨hnew, hok⟩ := newSet_valid (hpair ht ht' hlt) (le_refl 2)
      exact ⟨_, hnew, hok, fun _ _ => rfl, fun v _ hm => hmem hm⟩
    · rw [if_neg hgt.not_gt]
      obtain ⟨hnew, hok⟩ := newSet_valid (hpair ht' ht hgt) (le_refl 2)
      exact ⟨_, hnew, hok, fun _ _ => rfl, fun v _ hm => hmem hm.symm⟩

lemma unionAt_specialized_concrete (fuel : ℕ) (hspecial : a.isSpecialized = true)
    (ha : a.Valid w h) (ht : t.Valid w h) : UnionAt h w (fuel + 1) a (.concrete t) := by
  rcases isSpecialized_cases hspecial with rfl | rfl | ⟨types, rfl⟩ | ⟨t', rfl⟩
  · exact unionAt_empty fuel ht
  · exact unionAt_any fuel rfl (by simp)
  · exact unionAt_set_concrete hc fuel ha ht
  · exact unionAt_concrete_concrete hc fuel ha ht

lemma unionAt_specialized_set (fuel : ℕ) (hspecial : a.isSpecialized = true) (ha : a.Valid w h)
    (hs : (Ty.set types).Valid w h) : UnionAt h w (fuel + 2) a (.set types) := by
  rcases isSpecialized_cases hspecial with rfl | rfl | ⟨types', rfl⟩ | ⟨t, rfl⟩
  · exact unionAt_empty _ hs
  · exact unionAt_any _ rfl (by simp)
  · exact unionAt_set_set hc _ ha hs
  · exact unionAt_swap (by simp [Ty.order]) (unionAt_set_concrete hc fuel hs ha)

lemma unionAt_specialize {fuel' : ℕ}
    (hunion : union h fuel' (.cone d) b = union h fuel (h.specializeTypeCone d) b)
    (hu : UnionAt h w fuel (h.specializeTypeCone d) b) : UnionAt h w fuel' (.cone d) b := by
  obtain ⟨u, heq, hok, hnull, hsound⟩ := hu
  refine ⟨u, hunion.trans heq, hok, fun _ hb => hnull (specialize_not_nullable hc d) hb, ?_⟩
  intro v hv hm
  exact hsound v hv (hm.imp (member_specialize hc hv) id)

lemma unionAt_set_cone (fuel : ℕ) (hs : (Ty.set types).Valid w h) (d : D) :
    UnionAt h w (fuel + 3) (.set types) (.cone d) := by
  obtain ⟨u, heq, hok, hnull, hsound⟩ := unionAt_specialized_set hc fuel
    (hc.specialize_shape d) (hc.specialize_valid d) hs
  refine ⟨u, ?_, hok, fun _ _ => hnull (specialize_not_nullable hc d) rfl, ?_⟩
  · exact heq
  · intro v hv hm
    exact hsound v hv (hm.symm.imp (member_specialize hc hv) id)

lemma unionAt_cone_concrete (fuel : ℕ) (d : D) (ht : t.Valid w h) :
    UnionAt h w (fuel + 2) (.cone d) (.concrete t) := by
  by_cases hsub : h.isSubtype (h.rawType t.classNode) d = true
  · refine ⟨.cone d, ?_, trivial, fun _ _ => rfl, ?_⟩
    · rw [union_cone_concrete, if_pos hsub]
    · intro v _ hm
      rcases hm with hm | hm
      · exact hm
      · obtain ⟨c, args, rfl, hmem⟩ := member_concrete_iff.mp hm
        exact member_cone_iff.mpr ⟨c, args, rfl, hmem.1 ▸ (hc.isSubtype_raw _ d).mp hsub⟩
  · refine unionAt_specialize hc ?_ (unionAt_specialized_concrete hc fuel (hc.specialize_shape d)
      (hc.specialize_valid d) ht)
    rw [union_cone_concrete, if_neg hsub]

lemma unionAt_specialized_cone (fuel : ℕ) (hspecial : a.isSpecialized = true) (ha : a.Valid w h)
    (d : D) : UnionAt h w (fuel + 3) a (.cone d) := by
  rcases isSpecialized_cases hspecial with rfl | rfl | ⟨types', rfl⟩ | ⟨t, rfl⟩
  · exact unionAt_empty _ trivial
  · exact unionAt_any _ rfl (by simp)
  · exact unionAt_set_cone hc fuel ha d
  · exact unionAt_swap (by simp [Ty.order]) (unionAt_cone_concrete hc fuel d ha)

lemma unionAt_cone_cone (fuel : ℕ) (d d' : D) : UnionAt h w (fuel + 4) (.cone d) (.cone d') := by
  by_cases heq : d = d'
  · subst heq
    refine ⟨.cone d, ?_, trivial, fun _ _ => rfl, fun v _ hm => hm.elim id id⟩
    rw [union_cone_cone, if_pos rfl]
  by_cases hsub : h.isSubtype d' d = true
  · refine ⟨.cone d, ?_, trivial, fun _ _ => rfl,
      fun v _ hm => hm.elim id (member_cone_of_subtype hc hsub)⟩
    rw [union_cone_cone, if_neg heq, if_pos hsub]
  by_cases hsub' : h.isSubtype d d' = true
  · refine ⟨.cone d', ?_, trivial, fun _ _ => rfl,
      fun v _ hm => hm.elim (member_cone_of_subtype hc hsub') id⟩
    rw [union_cone_cone, if_neg heq, if_neg hsub, if_pos hsub']
  · refine unionAt_specialize hc ?_ (unionAt_specialized_cone hc fuel (hc.specialize_shape d)
      (hc.specialize_valid d) d')
    rw [union_cone_cone, if_neg heq, if_neg hsub, if_neg hsub']

lemma unionAt_of_not_nullable (fuel : ℕ) (ha : a.Valid w h) (hb : b.Valid w h)
    (hna : a.isNullable = false) (hnb : b.isNullable = false) : UnionAt h w (fuel + 4) a b := by
  cases a with
  | empty => exact unionAt_empty _ hb
  | nullable a => cases hna
  | any =>
    cases b with
    | empty => exact unionAt_swap (by simp [Ty.order]) (unionAt_empty _ ha)
    | nullable b => cases hnb
    | any => exact unionAt_any _ rfl (by simp)
    | set types => exact unionAt_any _ rfl (by simp)
    | cone d => exact unionAt_any _ rfl (by simp)
    | concrete t => exact unionAt_any _ rfl (by simp)
  | set types =>
    cases b with
    | empty => exact unionAt_swap (by simp [Ty.order]) (unionAt_empty _ ha)
    | nullable b => cases hnb
    | any => exact unionAt_swap (by simp [Ty.order]) (unionAt_any _ rfl (by simp))
    | set types' => exact unionAt_set_set hc _ ha hb
    | cone d => exact unionAt_set_cone hc _ ha d
    | concrete t => exact unionAt_set_concrete hc _ ha hb
  | cone d =>
    cases b with
    | empty => exact unionAt_swap (by simp [Ty.order]) (unionAt_empty _ ha)
    | nullable b => cases hnb
    | any => exact unionAt_swap (by simp [Ty.order]) (unionAt_any _ rfl (by simp))
    | set types' => exact unionAt_swap (by simp [Ty.order]) (unionAt_set_cone hc fuel hb d)
    | cone d' => exact unionAt_cone_cone hc fuel d d'
    | concrete t => exact unionAt_cone_concrete hc _ d hb
  | concrete t =>
    cases b with
    | empty => exact unionAt_swap (by simp [Ty.order]) (unionAt_empty _ ha)
    | nullable b => cases hnb
    | any => exact unionAt_swap (by simp [Ty.order]) (unionAt_any _ rfl (by simp))
    | set types' => exact unionAt_swap (by simp [Ty.order]) (unionAt_set_concrete hc _ hb ha)
    | cone d' => exact unionAt_swap (by simp [Ty.order]) (unionAt_cone_concrete hc _ d' ha)
    | concrete t' => exact unionAt_concrete_concrete hc _ ha hb

lemma unionAt_nullable_nullable (fuel : ℕ) (ha : (Ty.nullable a).Valid w h)
    (hb : (Ty.nullable b).Valid w h) : UnionAt h w (fuel + 5) (.nullable a) (.nullable b) := by
  obtain ⟨u, heq, hok, hnull, hsound⟩ :=
    unionAt_of_not_nullable hc fuel ha.2 hb.2 ha.1 hb.1
  obtain ⟨hnew, hvalid'⟩ := newNullable_valid hok (hnull ha.1 hb.1)
  refine ⟨.nullable u, ?_, hvalid', by simp [Ty.isNullable], ?_⟩
  · change (union h _ a b >>= newNullable) = _
    rw [heq, ok_bind, hnew]
  · intro v hv hm
    rcases hm with (hm | hm) | (hm | hm)
    · exact .inl hm
    · exact .inr (hsound v hv (.inl hm))
    · exact .inl hm
    · exact .inr (hsound v hv (.inr hm))

lemma unionAt_nullable (fuel : ℕ) (ha : (Ty.nullable a).Valid w h) (hb : b.Valid w h)
    (hnb : b.isNullable = false) : UnionAt h w (fuel + 5) (.nullable a) b := by
  obtain ⟨u, heq, hok, hnull, hsound⟩ := unionAt_of_not_nullable hc fuel ha.2 hb ha.1 hnb
  obtain ⟨hnew, hvalid'⟩ := newNullable_valid hok (hnull ha.1 hnb)
  by_cases hempty : b = .empty
  · subst hempty
    exact unionAt_swap (by simp [Ty.order]) (unionAt_empty _ ha)
  refine ⟨.nullable u, ?_, hvalid', by simp [Ty.isNullable], ?_⟩
  · rw [union_nullable h (fuel + 4) hnb hempty, heq, ok_bind, hnew]
  · intro v hv hm
    rcases hm with (hm | hm) | hm
    · exact .inl hm
    · exact .inr (hsound v hv (.inl hm))
    · exact .inr (hsound v hv (.inr hm))

lemma unionAt_all (fuel : ℕ) (ha : a.Valid w h) (hb : b.Valid w h) :
    UnionAt h w (fuel + 6) a b := by
  cases hna : a.isNullable with
  | false =>
    cases hnb : b.isNullable with
    | false => exact unionAt_of_not_nullable hc (fuel + 2) ha hb hna hnb
    | true =>
      obtain ⟨b, rfl⟩ := exists_of_isNullable hnb
      by_cases hempty : a = .empty
      · subst hempty
        exact unionAt_empty _ hb
      · refine unionAt_swap ?_ (unionAt_nullable hc fuel hb ha hna)
        cases a <;> simp_all [Ty.order, Ty.isNullable]
  | true =>
    obtain ⟨a, rfl⟩ := exists_of_isNullable hna
    cases hnb : b.isNullable with
    | false => exact unionAt_nullable hc (fuel + 1) ha hb hnb
    | true =>
      obtain ⟨b, rfl⟩ := exists_of_isNullable hnb
      exact unionAt_nullable_nullable hc (fuel + 1) ha hb

/-- The intersection is defined and holds the values that both have. -/
def InterAt (h : TypeHierarchy C D) (w : World C D) (fuel : ℕ) (a b : Ty C D) : Prop :=
  ∃ u, intersection h fuel a b = .ok u ∧ u.Valid w h ∧
    (a.isNullable = false → b.isNullable = false → u.isNullable = false) ∧
    ∀ v, v.Exists w → a.Member w v → b.Member w v → u.Member w v

omit hc in
lemma interAt_swap (hlt : b.order < a.order)
    (hu : InterAt h w fuel b a) : InterAt h w (fuel + 1) a b := by
  obtain ⟨u, hinter, hok, hnull, hsound⟩ := hu
  refine ⟨u, ?_, hok, fun ha hb => hnull hb ha, fun v hv ha hb => hsound v hv hb ha⟩
  rw [← hinter]
  cases a with
  | empty => cases b <;> simp [Ty.order] at hlt
  | nullable base => exact if_pos hlt
  | any => exact if_pos hlt
  | set types => exact if_pos hlt
  | cone d => exact if_pos hlt
  | concrete t => exact if_pos hlt

omit hc in
lemma interAt_empty (fuel : ℕ) (b : Ty C D) : InterAt h w (fuel + 1) .empty b :=
  ⟨.empty, rfl, trivial, fun _ _ => rfl, fun _ _ hm _ => hm⟩

omit hc in
lemma interAt_any (fuel : ℕ) (hok : b.Valid w h) (hb : b.isNullable = false)
    (hempty : b ≠ .empty) : InterAt h w (fuel + 1) .any b := by
  refine ⟨b, ?_, hok, fun _ hb => hb, fun _ _ _ hm => hm⟩
  exact intersection_any h fuel hb hempty

omit hc in
lemma interAt_set_set (fuel : ℕ) (hs : (Ty.set types).Valid w h) (hs' : (Ty.set types').Valid w h) :
    InterAt h w (fuel + 1) (.set types) (.set types') := by
  obtain ⟨met, hinter, hm⟩ := intersectLists_spec types types' hs.list hs'.list
  obtain ⟨u, hu, hok, hnull, hmem⟩ := ofList_valid hm.list
  refine ⟨u, ?_, hok, fun _ _ => hnull, ?_⟩
  · change (intersectLists h types types' >>= ofList) = _
    rw [hinter]
    exact hu
  · intro v hv ha hb
    obtain ⟨c, args, rfl, hmember₁⟩ := member_set_iff.mp ha
    exact hmem _ (member_set_iff.mpr ⟨c, args, rfl, hm.sound c args hv hmember₁ hb⟩)

omit hc in
lemma interAt_set_concrete (fuel : ℕ) (hs : (Ty.set types).Valid w h) (ht : t.Valid w h) :
    InterAt h w (fuel + 1) (.set types) (.concrete t) := by
  obtain ⟨result, hinter, hok, hsound⟩ := intersectConcrete_spec ht hs.list
  obtain ⟨hvalid', hnull⟩ := ofOption_valid hok
  refine ⟨ofOption result, ?_, hvalid', fun _ _ => hnull, ?_⟩
  · exact hinter
  · intro v hv ha hb
    obtain ⟨c, args, rfl, hmem⟩ := member_set_iff.mp ha
    exact member_ofOption (hsound c args hv hmem hb)

omit hc in
lemma interAt_concrete_concrete (fuel : ℕ) {t' : ConcreteType C D}
    (ht : t.Valid w h) (ht' : t'.Valid w h) :
    InterAt h w (fuel + 1) (.concrete t) (.concrete t') := by
  obtain ⟨result, hinter, hok, hsound⟩ := intersection_spec ht ht'
  obtain ⟨hvalid', hnull⟩ := ofOption_valid fun r hr => (hok r hr).1
  refine ⟨ofOption result, ?_, hvalid', fun _ _ => hnull, ?_⟩
  · change (t.intersection h t' >>= fun r => .ok (ofOption r)) = _
    rw [hinter, ok_bind]
  · intro v hv ha hb
    obtain ⟨c, args, rfl, hmem⟩ := member_concrete_iff.mp ha
    exact member_ofOption (hsound c args hv hmem hb)

omit hc in
lemma interAt_specialized_set (fuel : ℕ) (hspecial : a.isSpecialized = true) (ha : a.Valid w h)
    (hs : (Ty.set types).Valid w h) : InterAt h w (fuel + 2) a (.set types) := by
  rcases isSpecialized_cases hspecial with rfl | rfl | ⟨types', rfl⟩ | ⟨t, rfl⟩
  · exact interAt_empty _ _
  · exact interAt_any _ hs rfl (by simp)
  · exact interAt_set_set _ ha hs
  · exact interAt_swap (by simp [Ty.order]) (interAt_set_concrete fuel hs ha)

lemma interAt_set_cone (fuel : ℕ) (hs : (Ty.set types).Valid w h) (d : D) :
    InterAt h w (fuel + 3) (.set types) (.cone d) := by
  obtain ⟨u, heq, hok, hnull, hsound⟩ := interAt_specialized_set fuel
    (hc.specialize_shape d) (hc.specialize_valid d) hs
  refine ⟨u, ?_, hok, fun _ _ => hnull (specialize_not_nullable hc d) rfl, ?_⟩
  · exact heq
  · intro v hv ha hb
    exact hsound v hv (member_specialize hc hv hb) ha

lemma interAt_cone_concrete (fuel : ℕ) (d : D) (ht : t.Valid w h) :
    InterAt h w (fuel + 1) (.cone d) (.concrete t) := by
  by_cases hsub : h.isSubtype (h.rawType t.classNode) d = true
  · refine ⟨.concrete t, ?_, ht, fun _ _ => rfl, fun v _ _ hm => hm⟩
    rw [intersection_cone_concrete, if_pos hsub]
  · refine ⟨.empty, ?_, trivial, fun _ _ => rfl, ?_⟩
    · rw [intersection_cone_concrete, if_neg hsub]
    · intro v _ ha hb
      obtain ⟨c, args, rfl, hmem⟩ := member_concrete_iff.mp hb
      have hbelow : w.Below t.classNode d := hmem.1 ▸ ha
      exact hsub ((hc.isSubtype_raw _ d).mpr hbelow)

lemma interAt_specialized_cone (fuel : ℕ) (hspecial : a.isSpecialized = true) (ha : a.Valid w h)
    (d : D) : InterAt h w (fuel + 3) a (.cone d) := by
  rcases isSpecialized_cases hspecial with rfl | rfl | ⟨types', rfl⟩ | ⟨t, rfl⟩
  · exact interAt_empty _ _
  · exact interAt_any _ trivial rfl (by simp)
  · exact interAt_set_cone hc fuel ha d
  · exact interAt_swap (by simp [Ty.order]) (interAt_cone_concrete hc _ d ha)

lemma interAt_cone_cone (fuel : ℕ) (d d' : D) : InterAt h w (fuel + 4) (.cone d) (.cone d') := by
  by_cases heq : d = d'
  · subst heq
    refine ⟨.cone d, ?_, trivial, fun _ _ => rfl, fun v _ hm _ => hm⟩
    rw [intersection_cone_cone, if_pos rfl]
  by_cases hsub : h.isSubtype d' d = true
  · refine ⟨.cone d', ?_, trivial, fun _ _ => rfl, fun v _ _ hm => hm⟩
    rw [intersection_cone_cone, if_neg heq, if_pos hsub]
  by_cases hsub' : h.isSubtype d d' = true
  · refine ⟨.cone d, ?_, trivial, fun _ _ => rfl, fun v _ hm _ => hm⟩
    rw [intersection_cone_cone, if_neg heq, if_neg hsub, if_pos hsub']
  · obtain ⟨u, hinter, hok, hnull, hsound⟩ := interAt_specialized_cone hc fuel
      (hc.specialize_shape d) (hc.specialize_valid d) d'
    refine ⟨u, ?_, hok, fun _ hb => hnull (specialize_not_nullable hc d) hb, ?_⟩
    · rw [intersection_cone_cone, if_neg heq, if_neg hsub, if_neg hsub', hinter]
    · intro v hv ha hb
      exact hsound v hv (member_specialize hc hv ha) hb

lemma interAt_of_not_nullable (fuel : ℕ) (ha : a.Valid w h) (hb : b.Valid w h)
    (hna : a.isNullable = false) (hnb : b.isNullable = false) : InterAt h w (fuel + 4) a b := by
  by_cases hempty : b = .empty
  · subst hempty
    by_cases hempty' : a = .empty
    · subst hempty'
      exact interAt_empty _ _
    · refine interAt_swap ?_ (interAt_empty _ a)
      cases a <;> simp_all [Ty.order]
  cases a with
  | empty => exact interAt_empty _ _
  | nullable a => cases hna
  | any => exact interAt_any _ hb hnb hempty
  | set types =>
    cases b with
    | empty => exact absurd rfl hempty
    | nullable b => cases hnb
    | any => exact interAt_swap (by simp [Ty.order]) (interAt_any _ ha rfl (by simp))
    | set types' => exact interAt_set_set _ ha hb
    | cone d => exact interAt_set_cone hc _ ha d
    | concrete t => exact interAt_set_concrete _ ha hb
  | cone d =>
    cases b with
    | empty => exact absurd rfl hempty
    | nullable b => cases hnb
    | any => exact interAt_swap (by simp [Ty.order]) (interAt_any _ ha rfl (by simp))
    | set types' => exact interAt_swap (by simp [Ty.order]) (interAt_set_cone hc fuel hb d)
    | cone d' => exact interAt_cone_cone hc fuel d d'
    | concrete t => exact interAt_cone_concrete hc _ d hb
  | concrete t =>
    cases b with
    | empty => exact absurd rfl hempty
    | nullable b => cases hnb
    | any => exact interAt_swap (by simp [Ty.order]) (interAt_any _ ha rfl (by simp))
    | set types' => exact interAt_swap (by simp [Ty.order]) (interAt_set_concrete _ hb ha)
    | cone d' => exact interAt_swap (by simp [Ty.order]) (interAt_cone_concrete hc _ d' ha)
    | concrete t' => exact interAt_concrete_concrete _ ha hb

lemma interAt_nullable_nullable (fuel : ℕ) (ha : (Ty.nullable a).Valid w h)
    (hb : (Ty.nullable b).Valid w h) : InterAt h w (fuel + 5) (.nullable a) (.nullable b) := by
  obtain ⟨u, heq, hok, hnull, hsound⟩ :=
    interAt_of_not_nullable hc fuel ha.2 hb.2 ha.1 hb.1
  obtain ⟨hnew, hvalid'⟩ := newNullable_valid hok (hnull ha.1 hb.1)
  refine ⟨.nullable u, ?_, hvalid', by simp [Ty.isNullable], ?_⟩
  · change (intersection h _ a b >>= newNullable) = _
    rw [heq, ok_bind, hnew]
  · rintro v hv (hm | hm) (hm' | hm')
    · exact .inl hm
    · exact .inl hm
    · exact .inl hm'
    · exact .inr (hsound v hv hm hm')

lemma interAt_nullable (fuel : ℕ) (ha : (Ty.nullable a).Valid w h) (hb : b.Valid w h)
    (hnb : b.isNullable = false) : InterAt h w (fuel + 5) (.nullable a) b := by
  obtain ⟨u, heq, hok, hnull, hsound⟩ := interAt_of_not_nullable hc fuel ha.2 hb ha.1 hnb
  by_cases hempty : b = .empty
  · subst hempty
    exact interAt_swap (by simp [Ty.order]) (interAt_empty _ _)
  refine ⟨u, ?_, hok, fun _ hb => hnull ha.1 hb, ?_⟩
  · rw [intersection_nullable h (fuel + 4) hnb hempty, heq]
  · rintro v hv (hm | hm) hm'
    · exact absurd (hm ▸ hm') (not_member_null hnb)
    · exact hsound v hv hm hm'

lemma interAt_all (fuel : ℕ) (ha : a.Valid w h) (hb : b.Valid w h) :
    InterAt h w (fuel + 6) a b := by
  cases hna : a.isNullable with
  | false =>
    cases hnb : b.isNullable with
    | false => exact interAt_of_not_nullable hc (fuel + 2) ha hb hna hnb
    | true =>
      obtain ⟨b, rfl⟩ := exists_of_isNullable hnb
      by_cases hempty : a = .empty
      · subst hempty
        exact interAt_empty _ _
      · refine interAt_swap ?_ (interAt_nullable hc fuel hb ha hna)
        cases a <;> simp_all [Ty.order, Ty.isNullable]
  | true =>
    obtain ⟨a, rfl⟩ := exists_of_isNullable hna
    cases hnb : b.isNullable with
    | false => exact interAt_nullable hc (fuel + 1) ha hb hnb
    | true =>
      obtain ⟨b, rfl⟩ := exists_of_isNullable hnb
      exact interAt_nullable_nullable hc (fuel + 1) ha hb

lemma sameTypes_spec (hs : ∀ t ∈ types, t.Valid w h) (hs' : ∀ t ∈ types', t.Valid w h)
    (hsame : sameTypes h types types' = true) {c : C} {args : List (Option (RuntimeType D))}
    (hinst : w.Instance c args) :
    (∃ t ∈ types, t.Member c args) ↔ ∃ t ∈ types', t.Member c args := by
  induction types generalizing types' with
  | nil =>
    cases types' with
    | nil => exact Iff.rfl
    | cons t types' => cases hsame
  | cons t types ih =>
    cases types' with
    | nil => cases hsame
    | cons t' types' =>
      rw [sameTypes, Bool.and_eq_true] at hsame
      have hhead := (same_spec hc (hs t mem_cons_self)
        (hs' t' mem_cons_self) hsame.1).2 c args hinst
      have htail := ih (fun t ht => hs t (mem_cons_of_mem _ ht))
        (fun t ht => hs' t (mem_cons_of_mem _ ht)) hsame.2
      simp only [mem_cons, exists_eq_or_imp, hhead, htail]

lemma same_spec (ha : a.Valid w h) (hb : b.Valid w h) (hsame : a.same h b = true)
    (hv : v.Exists w) : a.Member w v ↔ b.Member w v := by
  induction a generalizing b with
  | empty => cases b <;> first | exact Iff.rfl | cases hsame
  | nullable a ih =>
    cases b with
    | nullable b => exact or_congr Iff.rfl (ih ha.2 hb.2 hsame)
    | _ => cases hsame
  | any => cases b <;> first | exact Iff.rfl | cases hsame
  | set types =>
    cases b with
    | set types' =>
      cases v with
      | null => exact Iff.rfl
      | «instance» c args => exact sameTypes_spec hc ha.2.2 hb.2.2 hsame hv
    | _ => cases hsame
  | cone d =>
    cases b with
    | cone d' =>
      rw [of_decide_eq_true hsame]
    | _ => cases hsame
  | concrete t =>
    cases b with
    | concrete t' =>
      cases v with
      | null => exact Iff.rfl
      | «instance» c args => exact (same_spec hc ha hb hsame).2 c args hv
    | _ => cases hsame

end

/-- Unions and intersections are defined and keep the values of the operands, and equal types denote
the same values. -/
theorem types_form_sound_domain (hc : h.Correct w) (a b : Ty C D) (ha : a.Valid w h)
    (hb : b.Valid w h) :
    (∀ fuel, 6 ≤ fuel → ∃ u, union h fuel a b = .ok u ∧
      ∀ v, v.Exists w → a.Member w v ∨ b.Member w v → u.Member w v) ∧
    (∀ fuel, 6 ≤ fuel → ∃ u, intersection h fuel a b = .ok u ∧
      ∀ v, v.Exists w → a.Member w v ∧ b.Member w v → u.Member w v) ∧
    (a.same h b = true → ∀ v, v.Exists w → (a.Member w v ↔ b.Member w v)) := by
  refine ⟨?_, ?_, fun hsame v hv => same_spec hc ha hb hsame hv⟩
  · intro fuel hfuel
    obtain ⟨extra, rfl⟩ := Nat.exists_eq_add_of_le' hfuel
    obtain ⟨u, hunion, _, _, hsound⟩ := unionAt_all hc extra ha hb
    exact ⟨u, hunion, hsound⟩
  · intro fuel hfuel
    obtain ⟨extra, rfl⟩ := Nat.exists_eq_add_of_le' hfuel
    obtain ⟨u, hinter, _, _, hsound⟩ := interAt_all hc extra ha hb
    exact ⟨u, hinter, fun v hv hm => hsound v hv hm.1 hm.2⟩

end

/-- A class `false` and its generic subclass `true`. -/
def twoClasses : TypeHierarchy Bool Bool where
  isAbstract _ := false
  typeParameters c := if c then 1 else 0
  flattenedLength c := if c then 1 else 0
  rawType c := c
  isSubtype d d' := d' ≤ d
  specializeTypeCone d :=
    if d then .concrete ⟨true, none⟩ else .set [⟨false, none⟩, ⟨true, none⟩]

/-- Every class has instances, with any type argument. -/
def twoClassesWorld : World Bool Bool where
  Instance c args := args.length = twoClasses.flattenedLength c
  Below c d := d ≤ c
  params _ := 0

lemma twoClasses_correct : twoClasses.Correct twoClassesWorld := by
  have hraw (c : Bool) : ConcreteType.Valid twoClassesWorld twoClasses ⟨c, none⟩ :=
    ⟨rfl, by simp⟩
  constructor
  · intro c d
    simp [twoClasses, twoClassesWorld]
  · intro d d' hsub c hbelow
    exact le_trans (of_decide_eq_true hsub) hbelow
  · intro c
    exact le_refl _
  · intro d
    cases d <;> rfl
  · intro d
    cases d with
    | false => exact ⟨le_refl 2, by simp, by simpa [twoClasses] using ⟨hraw _, hraw _⟩⟩
    | true => exact hraw true
  · intro c args d _ hbelow
    cases d with
    | false => cases c <;> simp [twoClasses, Ty.Member, ConcreteType.Member]
    | true =>
      cases c with
      | false => exact absurd hbelow (by simp [twoClassesWorld])
      | true => exact raw_member

/-- The cone of the base class and the subclass with a known type argument. -/
theorem types_form_sound_domain_two_classes :
    ∃ u, union twoClasses 6 (.cone false) (.concrete ⟨true, some [.runtime (.mk false [])]⟩) =
      .ok u ∧
      u.Member twoClassesWorld (.instance true [some (.mk false [])]) := by
  have hvector : ValidVector twoClassesWorld twoClasses true [.runtime (.mk false [])] := by
    refine ⟨by decide, rfl, rfl, ?_, ?_⟩
    · intro r hr
      obtain rfl : r = .mk false [] := by simpa using hr
      exact .mk (by simp [twoClassesWorld]) (by simp)
    · intro args hlen hmatch
      have hlength' : args.length = 1 := hlen
      rwa [show twoClasses.typeParameters true = 1 from rfl, take_of_length_le (by simp),
        take_of_length_le (by omega)] at hmatch
  have hvalid : ConcreteType.Valid twoClassesWorld twoClasses
      ⟨true, some [.runtime (.mk false [])]⟩ := by
    refine ⟨rfl, ?_⟩
    rintro args ⟨⟩
    exact hvector
  obtain ⟨u, hunion, hsound⟩ := (types_form_sound_domain twoClasses_correct (.cone false)
    (.concrete ⟨true, some [.runtime (.mk false [])]⟩) trivial hvalid).1 6 (le_refl 6)
  refine ⟨u, hunion, hsound _ rfl (.inr ⟨rfl, ?_⟩)⟩
  rintro args ⟨⟩
  exact .cons rfl .nil

end DartSdk.TypeFlow
