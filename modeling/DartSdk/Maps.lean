import Mathlib

/-!
Finite maps as lists of associations, in the order of insertion with keys up to an equivalence, or
in increasing order of the keys, and programs that pass callbacks to `putIfAbsent` which use the
same map. The rule at the end proves an implementation correct for every program from facts about
single operations: a context is tracked through the operations of the callback by their effects.
-/

namespace DartSdk.Associations

open List

/-- An equality on keys that a user may choose. -/
structure KeyEquality (K : Type) where
  equals : K → K → Bool
  refl : ∀ k, equals k k = true
  symm : ∀ k k', equals k k' = true → equals k' k = true
  trans : ∀ k₁ k₂ k₃, equals k₁ k₂ = true → equals k₂ k₃ = true → equals k₁ k₃ = true

variable {K V : Type} (E : KeyEquality K)

def get (l : List (K × V)) (key : K) : Option V :=
  (l.find? fun p => E.equals p.1 key).map Prod.snd

def set : List (K × V) → K → V → List (K × V)
  | [], key, value => [(key, value)]
  | p :: l, key, value =>
    if E.equals p.1 key then (p.1, value) :: l else p :: set l key value

def erase (l : List (K × V)) (key : K) : List (K × V) := l.eraseP fun p => E.equals p.1 key

/-- No key occurs twice. -/
def Distinct (l : List (K × V)) : Prop := l.Pairwise fun p q => E.equals p.1 q.1 = false

def Absent (l : List (K × V)) (key : K) : Prop := ∀ p ∈ l, E.equals p.1 key = false

variable {E} {l l' : List (K × V)} {key : K} {value : V}

lemma KeyEquality.comm (E : KeyEquality K) (k k' : K) : E.equals k k' = E.equals k' k := by
  rw [Bool.eq_iff_iff]
  exact ⟨E.symm k k', E.symm k' k⟩

variable {k : K}

lemma KeyEquality.congr_left (E : KeyEquality K) {k' : K} (h : E.equals k k' = true) (k'' : K) :
    E.equals k k'' = E.equals k' k'' := by
  rw [Bool.eq_iff_iff]
  exact ⟨E.trans k' k k'' (E.symm k k' h), E.trans k k' k'' h⟩

lemma Absent.not_true (h : Absent E l key) : ∀ p ∈ l, ¬E.equals p.1 key = true := by
  intro p hp
  rw [h p hp]
  decide

lemma get_eq_none_iff : get E l key = none ↔ Absent E l key := by
  rw [get, Option.map_eq_none_iff, List.find?_eq_none]
  simp only [Absent, Bool.not_eq_true]

lemma get_congr (l : List (K × V)) (h : E.equals key k = true) : get E l key = get E l k := by
  have hmatch : (fun p : K × V => E.equals p.1 key) = fun p => E.equals p.1 k := by
    funext p
    rw [E.comm, E.congr_left h, E.comm]
  rw [get, get, hmatch]

lemma not_absent_iff : ¬Absent E l key ↔ ∃ v, get E l key = some v := by
  rw [← get_eq_none_iff, ← Option.ne_none_iff_exists']

lemma exists_split_of_get (h : get E l key = some value) :
    ∃ l₁ k l₂, l = l₁ ++ (k, value) :: l₂ ∧ E.equals k key = true ∧ Absent E l₁ key := by
  rw [get, Option.map_eq_some_iff] at h
  obtain ⟨p, hfind, rfl⟩ := h
  obtain ⟨hp, l₁, l₂, rfl, hl1⟩ := List.find?_eq_some_iff_append.mp hfind
  refine ⟨l₁, p.1, l₂, rfl, hp, fun q hq => ?_⟩
  simpa using hl1 q hq

variable {l₁ l₂ : List (K × V)}

lemma get_of_split (hk : E.equals k key = true)
    (h : Absent E l₁ key) : get E (l₁ ++ (k, value) :: l₂) key = some value := by
  rw [get, List.find?_append, List.find?_eq_none.mpr h.not_true,
    List.find?_cons_of_pos (by exact hk)]
  rfl

lemma set_of_absent (h : Absent E l key) : set E l key value = l ++ [(key, value)] := by
  induction l with
  | nil => rfl
  | cons p l ih =>
    rw [set, if_neg (by simp [h p mem_cons_self]), ih fun q hq => h q (mem_cons_of_mem _ hq),
      cons_append]

lemma set_of_split {l₁ l₂ : List (K × V)} {k : K} {v : V} (hk : E.equals k key = true)
    (h : Absent E l₁ key) : set E (l₁ ++ (k, v) :: l₂) key value = l₁ ++ (k, value) :: l₂ := by
  induction l₁ with
  | nil => rw [nil_append, set, if_pos hk, nil_append]
  | cons p l₁ ih =>
    rw [cons_append, set, if_neg (by simp [h p mem_cons_self]),
      ih fun q hq => h q (mem_cons_of_mem _ hq), cons_append]

lemma erase_of_absent (h : Absent E l key) : erase E l key = l :=
  eraseP_of_forall_not h.not_true

lemma erase_of_split {l₁ l₂ : List (K × V)} {k : K} {v : V} (hk : E.equals k key = true)
    (h : Absent E l₁ key) : erase E (l₁ ++ (k, v) :: l₂) key = l₁ ++ l₂ := by
  rw [erase, eraseP_append_right _ h.not_true, eraseP_cons_of_pos (by exact hk)]

lemma get_set (l : List (K × V)) (key : K) (value : V) (k : K) :
    get E (set E l key value) k = if E.equals key k then some value else get E l k := by
  induction l with
  | nil =>
    rw [set, get, List.find?_singleton]
    cases E.equals key k <;> rfl
  | cons p l ih =>
    rw [set]
    cases hmatch : E.equals p.1 key with
    | true =>
      rw [if_pos rfl, get, List.find?_cons, ← E.congr_left hmatch, get, List.find?_cons]
      cases E.equals p.1 k <;> rfl
    | false =>
      rw [if_neg (by decide), get, List.find?_cons, get, List.find?_cons]
      cases hk : E.equals p.1 k with
      | true =>
        have hne : E.equals key k = false := by
          rw [E.comm, ← E.congr_left hk, hmatch]
        rw [hne]
        rfl
      | false => exact ih

lemma length_set (l : List (K × V)) (key : K) (value : V) :
    (set E l key value).length = if (get E l key).isSome then l.length else l.length + 1 := by
  by_cases habs : Absent E l key
  · rw [set_of_absent habs, get_eq_none_iff.mpr habs]
    simp
  · obtain ⟨v, hv⟩ := not_absent_iff.mp habs
    obtain ⟨l₁, k, l₂, rfl, hk, hl1⟩ := exists_split_of_get hv
    rw [set_of_split hk hl1, hv]
    simp

lemma Absent.append (h : Absent E l key) (h' : Absent E l' key) : Absent E (l ++ l') key := by
  intro p hp
  rcases mem_append.mp hp with hp | hp
  · exact h p hp
  · exact h' p hp

lemma get_middle (h1 : Absent E l₁ key) (h2 : Absent E l₂ key) :
    get E (l₁ ++ l ++ l₂) key = get E l key := by
  cases hget : get E l key with
  | none => exact get_eq_none_iff.mpr ((h1.append (get_eq_none_iff.mp hget)).append h2)
  | some v =>
    obtain ⟨m1, k, m2, rfl, hk, hm1⟩ := exists_split_of_get hget
    rw [append_assoc, append_assoc, cons_append, ← append_assoc]
    exact get_of_split hk (h1.append hm1)

lemma set_middle (h1 : Absent E l₁ key) (hl : ¬Absent E l key) :
    set E (l₁ ++ l ++ l₂) key value = l₁ ++ set E l key value ++ l₂ := by
  obtain ⟨v, hv⟩ := not_absent_iff.mp hl
  obtain ⟨m1, k, m2, rfl, hk, hm1⟩ := exists_split_of_get hv
  have hset := @set_of_split _ _ _ _ value _ (m2 ++ l₂) _ v hk (h1.append hm1)
  rw [set_of_split hk hm1]
  simpa using hset

lemma erase_middle (h1 : Absent E l₁ key) (hl : ¬Absent E l key) :
    erase E (l₁ ++ l ++ l₂) key = l₁ ++ erase E l key ++ l₂ := by
  obtain ⟨v, hv⟩ := not_absent_iff.mp hl
  obtain ⟨m1, k, m2, rfl, hk, hm1⟩ := exists_split_of_get hv
  have herase := @erase_of_split _ _ _ _ _ (m2 ++ l₂) _ v hk (h1.append hm1)
  rw [erase_of_split hk hm1]
  simpa using herase

section

variable (h : Distinct E l)

include h

lemma Distinct.perm (hperm : l.Perm l') : Distinct E l' :=
  (hperm.pairwise_iff fun {p q} h => by rw [E.comm]; exact h).mp h

omit h in
lemma Distinct.absent_of_split {v : V}
    (h : Distinct E (l₁ ++ (k, v) :: l₂)) (hk : E.equals k key = true) :
    Absent E l₁ key ∧ Absent E l₂ key := by
  obtain ⟨-, h2, h1⟩ := pairwise_append.mp h
  obtain ⟨h2, -⟩ := pairwise_cons.mp h2
  constructor
  · intro p hp
    rw [← Bool.not_eq_true]
    intro hmatch
    have hfalse := h1 p hp (k, v) mem_cons_self
    rw [E.trans p.1 key k hmatch (E.symm k key hk)] at hfalse
    exact absurd hfalse (by decide)
  · intro p hp
    have hfalse := h2 p hp
    rwa [E.congr_left hk, E.comm] at hfalse

lemma Distinct.get_of_mem {p : K × V} (hp : p ∈ l) (hk : E.equals p.1 key = true) :
    get E l key = some p.2 := by
  obtain ⟨l₁, l₂, rfl⟩ := append_of_mem hp
  exact get_of_split hk (h.absent_of_split hk).1

lemma Distinct.get_perm (hperm : l.Perm l') (key : K) : get E l key = get E l' key := by
  cases hget : get E l key with
  | none =>
    rw [get_eq_none_iff] at hget
    exact (get_eq_none_iff.mpr fun p hp => hget p (hperm.mem_iff.mpr hp)).symm
  | some v =>
    obtain ⟨l₁, k, l₂, rfl, hk, -⟩ := exists_split_of_get hget
    have hmem : (k, v) ∈ l' := hperm.mem_iff.mp (by simp)
    exact ((h.perm hperm).get_of_mem hmem hk).symm

lemma Distinct.set (key : K) (value : V) : Distinct E (set E l key value) := by
  by_cases habs : Absent E l key
  · rw [set_of_absent habs]
    refine pairwise_append.mpr ⟨h, pairwise_singleton _ _, fun p hp q hq => ?_⟩
    rw [mem_singleton] at hq
    rw [hq]
    exact habs p hp
  · obtain ⟨v, hv⟩ := not_absent_iff.mp habs
    obtain ⟨l₁, k, l₂, rfl, hk, hl1⟩ := exists_split_of_get hv
    rw [set_of_split hk hl1]
    rw [Distinct, ← pairwise_map (f := Prod.fst) (R := fun k k' => E.equals k k' = false)] at h ⊢
    simpa using h

lemma Distinct.erase (key : K) : Distinct E (erase E l key) :=
  List.Pairwise.sublist eraseP_sublist h

lemma Distinct.set_perm (hperm : l.Perm l') (key : K) (value : V) :
    (Associations.set E l key value).Perm (Associations.set E l' key value) := by
  have h' := h.perm hperm
  cases hget : get E l key with
  | none =>
    have hget' := hget
    rw [h.get_perm hperm] at hget'
    rw [get_eq_none_iff] at hget hget'
    rw [set_of_absent hget, set_of_absent hget']
    exact hperm.append_right _
  | some v =>
    obtain ⟨l₁, k, l₂, rfl, hk, hl1⟩ := exists_split_of_get hget
    have hmem : (k, v) ∈ l' := hperm.mem_iff.mp (by simp)
    obtain ⟨l1', l2', rfl⟩ := append_of_mem hmem
    rw [set_of_split hk hl1, set_of_split hk (h'.absent_of_split hk).1]
    have hrest : (l₁ ++ l₂).Perm (l1' ++ l2') :=
      List.Perm.cons_inv ((perm_middle.symm.trans hperm).trans perm_middle)
    exact (perm_middle.trans (hrest.cons _)).trans perm_middle.symm

lemma Distinct.erase_perm (hperm : l.Perm l') (key : K) :
    (Associations.erase E l key).Perm (Associations.erase E l' key) := by
  have h' := h.perm hperm
  cases hget : get E l key with
  | none =>
    have hget' := hget
    rw [h.get_perm hperm] at hget'
    rw [get_eq_none_iff] at hget hget'
    rwa [erase_of_absent hget, erase_of_absent hget']
  | some v =>
    obtain ⟨l₁, k, l₂, rfl, hk, hl1⟩ := exists_split_of_get hget
    have hmem : (k, v) ∈ l' := hperm.mem_iff.mp (by simp)
    obtain ⟨l1', l2', rfl⟩ := append_of_mem hmem
    rw [erase_of_split hk hl1, erase_of_split hk (h'.absent_of_split hk).1]
    exact List.Perm.cons_inv ((perm_middle.symm.trans hperm).trans perm_middle)

end

/-- A finite map with its order of insertion. -/
structure OrderedMap (E : KeyEquality K) (V : Type) where
  entries : List (K × V)
  distinct : Distinct E entries

namespace OrderedMap

def empty (E : KeyEquality K) (V : Type) : OrderedMap E V := ⟨[], .nil⟩

def get (m : OrderedMap E V) (key : K) : Option V := Associations.get E m.entries key

def set (m : OrderedMap E V) (key : K) (value : V) : OrderedMap E V :=
  ⟨Associations.set E m.entries key value, m.distinct.set key value⟩

def erase (m : OrderedMap E V) (key : K) : OrderedMap E V :=
  ⟨Associations.erase E m.entries key, m.distinct.erase key⟩

variable (m : OrderedMap E V) (key : K) (value : V)

lemma get_set (k : K) :
    (m.set key value).get k = if E.equals key k then some value else m.get k :=
  Associations.get_set m.entries key value k

lemma length_set : (m.set key value).entries.length =
    if (m.get key).isSome then m.entries.length else m.entries.length + 1 :=
  Associations.length_set m.entries key value

end OrderedMap

end DartSdk.Associations

namespace DartSdk.SortedMaps

open List

/-- A comparison of keys by the sign of a number, which may take different keys for equal. -/
structure Comparator (K : Type) where
  compare : K → K → ℤ
  swap : ∀ a b, compare a b < 0 ↔ 0 < compare b a
  trans : ∀ a b c, compare a b ≤ 0 → compare b c ≤ 0 → compare a c ≤ 0

variable {K V : Type} (C : Comparator K)

lemma Comparator.lt_trans {a b c : K} (h : C.compare a b < 0) (h' : C.compare b c ≤ 0) :
    C.compare a c < 0 := by
  by_contra hge
  have hca : C.compare c a ≤ 0 := by
    have := C.swap a c
    omega
  have hba := C.trans b c a h' hca
  have := (C.swap a b).mp h
  omega

lemma Comparator.lt_trans' {a b c : K} (h : C.compare a b ≤ 0) (h' : C.compare b c < 0) :
    C.compare a c < 0 := by
  by_contra hge
  have hca : C.compare c a ≤ 0 := by
    have := C.swap a c
    omega
  have hcb := C.trans c a b hca h
  have := (C.swap b c).mp h'
  omega

lemma Comparator.eq_comm {a b : K} : C.compare a b = 0 ↔ C.compare b a = 0 := by
  have := C.swap a b
  have := C.swap b a
  omega

lemma Comparator.self (a : K) : C.compare a a = 0 := by
  have := C.swap a a
  omega

/-- The keys increase. -/
def Sorted (l : List (K × V)) : Prop := l.Pairwise fun p q => C.compare p.1 q.1 < 0

def below (l : List (K × V)) (key : K) : List (K × V) := l.filter fun p => C.compare p.1 key < 0

def equal (l : List (K × V)) (key : K) : Option (K × V) := l.find? fun p => C.compare p.1 key = 0

def above (l : List (K × V)) (key : K) : List (K × V) := l.filter fun p => 0 < C.compare p.1 key

variable {C} {l l₁ l₂ : List (K × V)} {key k : K} {v : V}

lemma below_of_lt (h : ∀ p ∈ l, C.compare p.1 key < 0) : below C l key = l :=
  filter_eq_self.mpr (by simpa using h)

lemma below_of_ge (h : ∀ p ∈ l, 0 ≤ C.compare p.1 key) : below C l key = [] :=
  filter_eq_nil_iff.mpr (by simpa using h)

lemma above_of_gt (h : ∀ p ∈ l, 0 < C.compare p.1 key) : above C l key = l :=
  filter_eq_self.mpr (by simpa using h)

lemma above_of_le (h : ∀ p ∈ l, C.compare p.1 key ≤ 0) : above C l key = [] :=
  filter_eq_nil_iff.mpr (by simpa using h)

lemma equal_of_ne (h : ∀ p ∈ l, C.compare p.1 key ≠ 0) : equal C l key = none :=
  List.find?_eq_none.mpr (by simpa using h)

lemma split_absent (h1 : ∀ p ∈ l₁, C.compare p.1 key < 0) (h2 : ∀ p ∈ l₂, 0 < C.compare p.1 key) :
    below C (l₁ ++ l₂) key = l₁ ∧ equal C (l₁ ++ l₂) key = none ∧ above C (l₁ ++ l₂) key = l₂ := by
  refine ⟨?_, equal_of_ne fun p hp => ?_, ?_⟩
  · rw [below, filter_append]
    change below C l₁ key ++ below C l₂ key = l₁
    rw [below_of_lt h1, below_of_ge fun p hp => (h2 p hp).le, append_nil]
  · rcases mem_append.mp hp with hp | hp
    · exact (h1 p hp).ne
    · exact (h2 p hp).ne'
  · rw [above, filter_append]
    change above C l₁ key ++ above C l₂ key = l₂
    rw [above_of_le fun p hp => (h1 p hp).le, above_of_gt h2, nil_append]

lemma split_present (h1 : ∀ p ∈ l₁, C.compare p.1 key < 0) (hk : C.compare k key = 0)
    (h2 : ∀ p ∈ l₂, 0 < C.compare p.1 key) :
    below C (l₁ ++ (k, v) :: l₂) key = l₁ ∧ equal C (l₁ ++ (k, v) :: l₂) key = some (k, v) ∧
      above C (l₁ ++ (k, v) :: l₂) key = l₂ := by
  refine ⟨?_, ?_, ?_⟩
  · rw [below, filter_append, filter_cons_of_neg (by simp [hk])]
    change below C l₁ key ++ below C l₂ key = l₁
    rw [below_of_lt h1, below_of_ge fun p hp => (h2 p hp).le, append_nil]
  · rw [equal, List.find?_append, List.find?_eq_none.mpr,
      List.find?_cons_of_pos (by simpa using hk)]
    · rfl
    · intro p hp
      have := h1 p hp
      simp only [decide_eq_true_eq]
      omega
  · rw [above, filter_append, filter_cons_of_neg (by simp [hk])]
    change above C l₁ key ++ above C l₂ key = l₂
    rw [above_of_le fun p hp => (h1 p hp).le, above_of_gt h2, nil_append]

lemma Sorted.below_of_le (h : Sorted C (l₁ ++ (k, v) :: l₂)) (hk : C.compare k key ≤ 0) :
    ∀ p ∈ l₁, C.compare p.1 key < 0 := by
  intro p hp
  exact C.lt_trans ((pairwise_append.mp h).2.2 p hp (k, v) mem_cons_self) hk

lemma Sorted.above_of_ge (h : Sorted C (l₁ ++ (k, v) :: l₂)) (hk : 0 ≤ C.compare k key) :
    ∀ p ∈ l₂, 0 < C.compare p.1 key := by
  intro p hp
  have hkp := (pairwise_cons.mp (pairwise_append.mp h).2.1).1 p hp
  have hle : C.compare key k ≤ 0 := by
    have := C.swap k key
    omega
  exact (C.swap key p.1).mp (C.lt_trans' hle hkp)

/-- A finite map with its keys in increasing order. -/
@[ext]
structure SortedMap (C : Comparator K) (V : Type) where
  entries : List (K × V)
  sorted : Sorted C entries

namespace SortedMap

def empty (C : Comparator K) (V : Type) : SortedMap C V := ⟨[], .nil⟩

variable (m : SortedMap C V)

def get (key : K) : Option V := (equal C m.entries key).map Prod.snd

lemma get_eq_none_iff {m : SortedMap C V} {key : K} :
    m.get key = none ↔ ∀ k ∈ m.entries.map Prod.fst, C.compare k key ≠ 0 := by
  rw [get, Option.map_eq_none_iff, equal, List.find?_eq_none]
  simp

/-- The key that is present stays. -/
def set (key : K) (value : V) : SortedMap C V where
  entries := below C m.entries key ++
    (((equal C m.entries key).map Prod.fst).getD key, value) :: above C m.entries key
  sorted := by
    have hkey : C.compare (((equal C m.entries key).map Prod.fst).getD key) key = 0 := by
      cases heq : equal C m.entries key with
      | none => exact C.self key
      | some p => simpa using List.find?_some heq
    refine pairwise_append.mpr ⟨m.sorted.filter _, pairwise_cons.mpr
      ⟨fun p hp => ?_, m.sorted.filter _⟩, fun p hp q hq => ?_⟩
    · have habove := (mem_filter.mp hp).2
      simp only [decide_eq_true_eq] at habove
      exact C.lt_trans' hkey.le ((C.swap key p.1).mpr habove)
    · have hbelow := (mem_filter.mp hp).2
      simp only [decide_eq_true_eq] at hbelow
      rcases mem_cons.mp hq with rfl | hq
      · exact C.lt_trans hbelow (C.eq_comm.mp hkey).le
      · have habove := (mem_filter.mp hq).2
        simp only [decide_eq_true_eq] at habove
        exact C.lt_trans hbelow ((C.swap key q.1).mpr habove).le

lemma entries_set (key : K) (value : V) :
    (m.set key value).entries = below C m.entries key ++
      (((equal C m.entries key).map Prod.fst).getD key, value) :: above C m.entries key := rfl

def erase (key : K) : SortedMap C V where
  entries := below C m.entries key ++ above C m.entries key
  sorted := by
    refine pairwise_append.mpr ⟨m.sorted.filter _, m.sorted.filter _, fun p hp q hq => ?_⟩
    have hbelow := (mem_filter.mp hp).2
    have habove := (mem_filter.mp hq).2
    simp only [decide_eq_true_eq] at hbelow habove
    exact C.lt_trans hbelow ((C.swap key q.1).mpr habove).le

lemma entries_erase (key : K) :
    (m.erase key).entries = below C m.entries key ++ above C m.entries key := rfl

def firstKey : Option K := m.entries.head?.map Prod.fst

def lastKey : Option K := m.entries.getLast?.map Prod.fst

/-- The greatest key below the given one. -/
def lastKeyBefore (key : K) : Option K := (below C m.entries key).getLast?.map Prod.fst

/-- The least key above the given one. -/
def firstKeyAfter (key : K) : Option K := (above C m.entries key).head?.map Prod.fst

end SortedMap

end DartSdk.SortedMaps

namespace DartSdk.Reentrant

/-- A program with operations `O` and answers `A` on a map from `K` to `V`. -/
inductive Script (K V O A : Type)
  | ret (value : V)
  | perform (o : O) (next : A → Script K V O A)
  | putIfAbsent (key : K) (callback : Script K V O A) (next : V → Script K V O A)

/-- A map with states `S`, contexts `C` and errors `ε`. -/
structure Implementation (S K V O A C ε : Type) where
  perform : O → S → Except ε (A × S)
  /-- `putIfAbsent` up to the callback: the value of the key, or the context. -/
  start : K → S → Except ε ((V ⊕ C) × S)
  /-- `putIfAbsent` after the callback. -/
  finish : C → V → S → Except ε S

/-- What a map is meant to do, and the effects of the operations on pending callbacks. -/
structure Specification (M K V O A E : Type) where
  perform : O → M → A × M
  get : M → K → Option V
  set : M → K → V → M
  effect : O → M → E
  /-- The effect of `putIfAbsent` up to the callback, and of its assignment after it. -/
  startEffect : M → K → E
  setEffect : M → K → V → E

variable {S M K V O A C E ε : Type}

def Script.run (impl : Implementation S K V O A C ε) : Script K V O A → S → Except ε (V × S)
  | .ret value, s => .ok (value, s)
  | .perform o next, s => do
      let (answer, s) ← impl.perform o s
      (next answer).run impl s
  | .putIfAbsent key callback next, s => do
      let (found, s) ← impl.start key s
      match found with
      | .inl value => (next value).run impl s
      | .inr context => do
          let (value, s) ← callback.run impl s
          let s ← impl.finish context value s
          (next value).run impl s

/-- What a program returns, the map it leaves, and its effects. -/
structure Outcome (M V E : Type) where
  value : V
  map : M
  effect : E

section

variable [Monoid E]

/-- The program on the abstract map: the callback's value is stored after its effects. -/
def Script.eval (spec : Specification M K V O A E) : Script K V O A → M → Outcome M V E
  | .ret value, m => ⟨value, m, 1⟩
  | .perform o next, m =>
    let r := (next (spec.perform o m).1).eval spec (spec.perform o m).2
    ⟨r.value, r.map, spec.effect o m * r.effect⟩
  | .putIfAbsent key callback next, m =>
    match spec.get m key with
    | some value =>
      let r := (next value).eval spec m
      ⟨r.value, r.map, spec.startEffect m key * r.effect⟩
    | none =>
      let c := callback.eval spec m
      let r := (next c.value).eval spec (spec.set c.map key c.value)
      ⟨r.value, r.map, spec.startEffect m key * (c.effect *
        (spec.setEffect c.map key c.value * r.effect))⟩

/-- Every map that the program leads to fits, and the effects of every callback are good. -/
def Script.Safe (spec : Specification M K V O A E) (Fits : M → Prop) (Good : E → Prop) :
    Script K V O A → M → Prop
  | .ret _, _ => True
  | .perform o next, m =>
    Fits (spec.perform o m).2 ∧ (next (spec.perform o m).1).Safe spec Fits Good (spec.perform o m).2
  | .putIfAbsent key callback next, m =>
    match spec.get m key with
    | some value => (next value).Safe spec Fits Good m
    | none =>
      let c := callback.eval spec m
      callback.Safe spec Fits Good m ∧ Good c.effect ∧ Fits (spec.set c.map key c.value) ∧
        (next c.value).Safe spec Fits Good (spec.set c.map key c.value)

/-- A state represents a map, and `Track key c e s m` says what the context `c` of a pending
`putIfAbsent` is worth after the effects `e`. -/
structure Simulation (impl : Implementation S K V O A C ε) (spec : Specification M K V O A E)
    (Fits : M → Prop) (Good : E → Prop) (Represents : S → M → Prop)
    (Track : K → C → E → S → M → Prop) : Prop where
  perform : ∀ {s m} o, Represents s m → Fits (spec.perform o m).2 →
    ∃ s', impl.perform o s = .ok ((spec.perform o m).1, s') ∧ Represents s' (spec.perform o m).2 ∧
      ∀ k c e, Track k c e s m → Track k c (e * spec.effect o m) s' (spec.perform o m).2
  found : ∀ {s m} k v, Represents s m → spec.get m k = some v →
    ∃ s', impl.start k s = .ok (.inl v, s') ∧ Represents s' m ∧
      ∀ k' c e, Track k' c e s m → Track k' c (e * spec.startEffect m k) s' m
  absent : ∀ {s m} k, Represents s m → spec.get m k = none →
    ∃ c s', impl.start k s = .ok (.inr c, s') ∧ Represents s' m ∧ Track k c 1 s' m ∧
      ∀ k' c' e, Track k' c' e s m → Track k' c' (e * spec.startEffect m k) s' m
  finish : ∀ {s m} k c e v, Represents s m → Track k c e s m → Good e → Fits (spec.set m k v) →
    ∃ s', impl.finish c v s = .ok s' ∧ Represents s' (spec.set m k v) ∧
      ∀ k' c' e', Track k' c' e' s m → Track k' c' (e' * spec.setEffect m k v) s' (spec.set m k v)

lemma Simulation.run_spec {impl : Implementation S K V O A C ε}
    {spec : Specification M K V O A E} {Fits : M → Prop} {Good : E → Prop}
    {Represents : S → M → Prop} {Track : K → C → E → S → M → Prop}
    (h : Simulation impl spec Fits Good Represents Track) (script : Script K V O A) {s : S} {m : M}
    (hs : Represents s m) (hsafe : script.Safe spec Fits Good m) :
    ∃ s', script.run impl s = .ok ((script.eval spec m).value, s') ∧
      Represents s' (script.eval spec m).map ∧
      ∀ k c e, Track k c e s m →
        Track k c (e * (script.eval spec m).effect) s' (script.eval spec m).map := by
  induction script generalizing s m with
  | ret value =>
    refine ⟨s, rfl, hs, fun k c e htrack => ?_⟩
    rw [Script.eval, mul_one]
    exact htrack
  | perform o next ih =>
    obtain ⟨hfits, hsafe⟩ := hsafe
    obtain ⟨s1, hrun1, hs1, htrack1⟩ := h.perform o hs hfits
    obtain ⟨s2, hrun2, hs2, htrack2⟩ := ih _ hs1 hsafe
    refine ⟨s2, ?_, hs2, fun k c e htrack => ?_⟩
    · rw [Script.run, hrun1]
      exact hrun2
    · have htracked := htrack2 k c _ (htrack1 k c e htrack)
      rwa [mul_assoc] at htracked
  | putIfAbsent key callback next ihc ihn =>
    rw [Script.Safe] at hsafe
    rw [Script.eval, Script.run]
    cases hget : spec.get m key with
    | some value =>
      rw [hget] at hsafe
      obtain ⟨s1, hrun1, hs1, htrack1⟩ := h.found key value hs hget
      obtain ⟨s2, hrun2, hs2, htrack2⟩ := ihn value hs1 hsafe
      refine ⟨s2, ?_, hs2, fun k c e htrack => ?_⟩
      · rw [hrun1]
        exact hrun2
      · have htracked := htrack2 k c _ (htrack1 k c e htrack)
        rwa [mul_assoc] at htracked
    | none =>
      rw [hget] at hsafe
      obtain ⟨hcallback, hgood, hfits, hnext⟩ := hsafe
      obtain ⟨c, s1, hrun1, hs1, hown, htrack1⟩ := h.absent key hs hget
      obtain ⟨s2, hrun2, hs2, htrack2⟩ := ihc hs1 hcallback
      have hown2 := htrack2 key c 1 hown
      rw [one_mul] at hown2
      obtain ⟨s3, hrun3, hs3, htrack3⟩ := h.finish key c _ (callback.eval spec m).value hs2 hown2
        hgood hfits
      obtain ⟨s4, hrun4, hs4, htrack4⟩ := ihn _ hs3 hnext
      refine ⟨s4, ?_, hs4, fun k c' e htrack => ?_⟩
      · rw [hrun1]
        change (do
          let (value, s) ← callback.run impl s1
          let s ← impl.finish c value s
          (next value).run impl s) = _
        rw [hrun2]
        change (do
          let s ← impl.finish c (callback.eval spec m).value s2
          (next (callback.eval spec m).value).run impl s) = _
        rw [hrun3]
        exact hrun4
      · have htracked := htrack4 k c' _ (htrack3 k c' _ (htrack2 k c' _ (htrack1 k c' e htrack)))
        rwa [mul_assoc, mul_assoc, mul_assoc] at htracked

end

end DartSdk.Reentrant
