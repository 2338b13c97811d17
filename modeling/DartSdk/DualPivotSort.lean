import Mathlib

/-!
The third partitioning loop of `Sort._dualPivotQuicksort` (sdk/lib/internal/sort.dart). When the
middle part of the list is large, the loop takes the elements that are equal to one of the pivots
out of it. An element equal to `pivot2` changes places with the last one that is not. If this one
is equal to `pivot1`, it stays in the middle part. The list is given by its elements at all
indices, and the loop stays inside the part on which it is started.
-/

namespace DartSdk.DualPivotSort

open Finset Function

/-- A comparison function for a preorder. -/
structure Comparison (α : Type) [Preorder α] where
  compare : α → α → ℤ
  neg_iff : ∀ x y, compare x y < 0 ↔ x < y
  zero_iff : ∀ x y, compare x y = 0 ↔ x ≤ y ∧ y ≤ x

structure State (α : Type) where
  a : ℤ → α
  less : ℤ
  great : ℤ

variable {α : Type} [Preorder α] (c : Comparison α) (pivot1 pivot2 : α)

/-- The inner loop. It ends below `k` if all elements from there on are equal to the pivot. -/
def findGreat (a : ℤ → α) (k great : ℤ) : ℤ :=
  if c.compare (a great) pivot2 = 0 then
    if great - 1 < k then great - 1 else findGreat a k (great - 1)
  else great
termination_by (great - k).toNat

def step (k : ℤ) (s : State α) : State α :=
  let ak := s.a k
  if c.compare ak pivot1 = 0 then
    { s with
      a := if k ≠ s.less then update (update s.a k (s.a s.less)) s.less ak else s.a
      less := s.less + 1 }
  else if c.compare ak pivot2 = 0 then
    let great := findGreat c pivot2 s.a k s.great
    if great < k then { s with great := great }
    else if c.compare (s.a great) pivot1 < 0 then
      -- Triple exchange.
      let a := update s.a k (s.a s.less)
      { a := update (update a s.less (a great)) great ak, less := s.less + 1, great := great - 1 }
    else { s with a := update (update s.a k (s.a great)) great ak, great := great - 1 }
  else s

variable {k great : ℤ} {s : State α}

/-- Where the inner loop ends: behind it everything is equal to the pivot. -/
lemma findGreat_spec (a : ℤ → α) (hk : k ≤ great) :
    ∃ g, k ≤ g ∧ g ≤ great ∧ (∀ i, g < i → i ≤ great → c.compare (a i) pivot2 = 0) ∧
      (findGreat c pivot2 a k great = g ∧ c.compare (a g) pivot2 ≠ 0 ∨
        findGreat c pivot2 a k great = g - 1 ∧ g = k ∧ c.compare (a g) pivot2 = 0) := by
  fun_induction findGreat c pivot2 a k great with
  | case1 great heq hlt => exact ⟨great, hk, le_rfl, by grind, .inr ⟨rfl, by omega, heq⟩⟩
  | case2 great heq hlt ih =>
    obtain ⟨g, hkg, hg, hall, hend⟩ := ih (by omega)
    exact ⟨g, hkg, by omega, by grind, hend⟩
  | case3 great hne => exact ⟨great, hk, le_rfl, by grind, .inl ⟨rfl, hne⟩⟩

lemma step_great_le (hk : k ≤ s.great) : (step c pivot1 pivot2 k s).great ≤ s.great := by
  have := findGreat_spec c pivot2 s.a hk
  grind [step]

/-- The loop from `k` on. -/
def partition (k : ℤ) (s : State α) : State α :=
  if hk : k ≤ s.great then partition (k + 1) (step c pivot1 pivot2 k s) else s
termination_by (s.great + 1 - k).toNat
decreasing_by
  have := step_great_le c pivot1 pivot2 hk
  omega

/-- The elements from `lo` to `hi` that are equal to the pivot. -/
noncomputable def equalTo (a : ℤ → α) (lo hi : ℤ) : Finset ℤ :=
  {i ∈ Icc lo hi | c.compare (a i) pivot2 = 0}

/-- The parts that the comments of the loop describe. -/
structure Isolated (lo hi : ℤ) (s : State α) : Prop where
  ones : ∀ i, lo ≤ i → i < s.less → c.compare (s.a i) pivot1 = 0
  middle : ∀ i, s.less ≤ i → i ≤ s.great → pivot1 < s.a i ∧ s.a i < pivot2
  twos : ∀ i, s.great < i → i ≤ hi → c.compare (s.a i) pivot2 = 0

/-- What the loop keeps, with `a` as the list at its start. -/
structure Partitioned (a : ℤ → α) (lo hi k : ℤ) (s : State α) : Prop where
  less : lo ≤ s.less ∧ s.less ≤ k
  great : s.great ≤ hi
  ones : ∀ i, lo ≤ i → i < s.less → c.compare (s.a i) pivot1 = 0
  middle : ∀ i, s.less ≤ i → i < k → i ≤ s.great → c.compare (s.a i) pivot2 ≠ 0
  twos : ∀ i, s.great < i → i ≤ hi → c.compare (s.a i) pivot2 = 0
  rest : ∀ i, k ≤ i → i ≤ s.great → s.a i = a i
  between : ∀ i, lo ≤ i → i ≤ hi → pivot1 ≤ s.a i ∧ s.a i ≤ pivot2
  fetched : (∃ i, s.less ≤ i ∧ i < k ∧ i ≤ s.great ∧ c.compare (s.a i) pivot1 = 0) ↔
    ∃ i, lo ≤ i ∧ s.great < i ∧ i ≤ hi ∧ c.compare (a i) pivot1 = 0
  count : #(equalTo c pivot2 s.a lo hi) = #(equalTo c pivot2 a lo hi)

variable {c pivot1 pivot2} {a : ℤ → α} {lo hi : ℤ}

lemma card_equalTo_exchange {i j : ℤ} (hi' : i ∈ Icc lo hi) (hj : j ∈ Icc lo hi) :
    #(equalTo c pivot2 (update (update a i (a j)) j (a i)) lo hi) =
      #(equalTo c pivot2 a lo hi) := by
  refine card_equiv (Equiv.swap i j) fun k => ?_
  simp only [equalTo, mem_filter]
  grind

variable (hlt : pivot1 < pivot2)

include hlt

lemma compare_ne {x : α} (h : c.compare x pivot1 = 0) : c.compare x pivot2 ≠ 0 := fun h' =>
  hlt.not_ge (((c.zero_iff _ _).mp h').2.trans ((c.zero_iff _ _).mp h).1)

lemma Partitioned.step (h : Partitioned c pivot1 pivot2 a lo hi k s) (hk : k ≤ s.great) :
    Partitioned c pivot1 pivot2 a lo hi (k + 1) (step c pivot1 pivot2 k s) := by
  obtain ⟨⟨hlo, hless⟩, hgreat, hones, hmid, htwos, hrest, hbetween, hfetched, hcnt⟩ := h
  have hne := @compare_ne _ _ c _ _ hlt
  unfold DualPivotSort.step
  dsimp only
  have hg := findGreat_spec c pivot2 s.a hk
  split_ifs with hone hdiff htwo hend htriple
  · -- An element equal to `pivot1` changes places with the first one that is not.
    refine
      { less := by grind
        great := hgreat
        ones := by grind
        middle := by grind
        twos := by grind
        rest := by grind
        between := by grind
        fetched := ?_
        count := ?_ }
    · rw [← hfetched]
      constructor
      · rintro ⟨i, hi⟩
        by_cases hik : i = k
        · exact ⟨s.less, by grind⟩
        · exact ⟨i, by grind⟩
      · rintro ⟨i, hi⟩
        by_cases hil : i = s.less
        · exact ⟨k, by grind⟩
        · exact ⟨i, by grind⟩
    · rw [← hcnt]
      exact card_equalTo_exchange (mem_Icc.mpr (by omega)) (mem_Icc.mpr (by omega))
  · -- It is the first one itself.
    exact
      { less := by grind
        great := hgreat
        ones := by grind
        middle := by grind
        twos := htwos
        rest := by grind
        between := hbetween
        fetched := by grind
        count := hcnt }
  · -- Everything from `k` on is equal to `pivot2`, and the loop ends.
    exact
      { less := by grind
        great := by grind
        ones := hones
        middle := by grind
        twos := by grind
        rest := by grind
        between := hbetween
        fetched := by grind
        count := hcnt }
  · -- Nothing is below `pivot1`, so there is no triple exchange.
    obtain ⟨g, hkg, hg, -, hend⟩ := hg
    have := (c.neg_iff _ _).mp htriple
    have := hbetween g
    grind
  · -- The element at `g` goes into the middle part, also if it is equal to `pivot1`.
    obtain ⟨g, hkg, hgle, hall, ⟨heq, hgne⟩ | hends⟩ := hg
    · rw [heq] at hend htriple ⊢
      refine
        { less := by grind
          great := by grind
          ones := by grind
          middle := by grind
          twos := by grind
          rest := by grind
          between := by grind
          fetched := ?_
          count := ?_ }
      · constructor
        · rintro ⟨i, hi⟩
          by_cases hik : i = k
          · exact ⟨g, by grind⟩
          · obtain ⟨j, hj⟩ := hfetched.mp ⟨i, by grind⟩
            exact ⟨j, by grind⟩
        · rintro ⟨i, hi⟩
          by_cases hig : i ≤ s.great
          · exact ⟨k, by grind⟩
          · obtain ⟨j, hj⟩ := hfetched.mpr ⟨i, by grind⟩
            exact ⟨j, by grind⟩
      · rw [← hcnt]
        exact card_equalTo_exchange (mem_Icc.mpr (by omega)) (mem_Icc.mpr (by omega))
    · omega
  · -- An element between the pivots stays.
    exact
      { less := by grind
        great := hgreat
        ones := hones
        middle := by grind
        twos := htwos
        rest := by grind
        between := hbetween
        fetched := by grind
        count := hcnt }

lemma Partitioned.partition (h : Partitioned c pivot1 pivot2 a lo hi k s) :
    ∃ k', (partition c pivot1 pivot2 k s).great < k' ∧
      Partitioned c pivot1 pivot2 a lo hi k' (partition c pivot1 pivot2 k s) := by
  fun_induction DualPivotSort.partition c pivot1 pivot2 k s with
  | case1 k s hk ih => exact ih (h.step hlt hk)
  | case2 k s hk => exact ⟨k, not_le.mp hk, h⟩

lemma Partitioned.equalTo_eq (h : Partitioned c pivot1 pivot2 a lo hi k s) (hk : s.great < k) :
    equalTo c pivot2 s.a lo hi = Icc (max lo (s.great + 1)) hi := by
  ext i
  have hne := @compare_ne _ _ c _ _ hlt (s.a i)
  have hones := h.ones i
  have hmid := h.middle i
  have htwos := h.twos i
  simp only [equalTo, mem_filter, mem_Icc]
  grind

theorem isolated_partition_iff (c : Comparison α) {less great : ℤ}
    (h : ∀ i, less ≤ i → i ≤ great → pivot1 ≤ a i ∧ a i ≤ pivot2) :
    Isolated c pivot1 pivot2 less great (partition c pivot1 pivot2 less ⟨a, less, great⟩) ↔
      ∀ i, less ≤ i → i ≤ great → great - i < #(equalTo c pivot2 a less great) →
        c.compare (a i) pivot1 ≠ 0 := by
  have hstart : Partitioned c pivot1 pivot2 a less great less ⟨a, less, great⟩ :=
    ⟨by simp, le_rfl, by grind, by grind, by grind, by simp, h, by grind, rfl⟩
  obtain ⟨k, hk, hend⟩ := hstart.partition hlt
  generalize partition c pivot1 pivot2 less ⟨a, less, great⟩ = s at hk hend
  rw [← hend.count, hend.equalTo_eq hlt hk, Int.card_Icc]
  have hfetched := hend.fetched
  constructor
  · intro hs i hi hi' hlast hone
    obtain ⟨j, hj, -, hjs, heq⟩ := hfetched.mpr ⟨i, hi, by omega, hi', hone⟩
    exact (hs.middle j hj hjs).1.not_ge ((c.zero_iff _ _).mp heq).1
  · intro hall
    refine ⟨hend.ones, fun i hi hi' => ?_, hend.twos⟩
    have hone : c.compare (s.a i) pivot1 ≠ 0 := by
      intro heq
      obtain ⟨j, hj, hjs, hjg, hone⟩ := hfetched.mp ⟨i, hi, by omega, hi', heq⟩
      exact hall j hj hjg (by omega) hone
    have htwo := hend.middle i hi (by omega) hi'
    obtain ⟨hle, hge⟩ := hend.between i (hend.less.1.trans hi) (hi'.trans hend.great)
    rw [Ne, c.zero_iff] at hone htwo
    exact ⟨lt_of_le_not_ge hle fun h => hone ⟨h, hle⟩, lt_of_le_not_ge hge fun h => htwo ⟨hge, h⟩⟩

omit hlt

def differences : Comparison ℤ where
  compare x y := x - y
  neg_iff _ _ := sub_neg
  zero_iff _ _ := sub_eq_zero.trans le_antisymm_iff

/-- Both pivots and an element between them; both pivots are moved. -/
def threeElements (i : ℤ) : ℤ := if i = 0 then 3 else if i = 1 then 1 else 2

theorem isolated_three :
    Isolated differences 1 3 0 2 (partition differences 1 3 0 ⟨threeElements, 0, 2⟩) := by
  refine (isolated_partition_iff (by decide) _ fun i _ _ => ?_).mpr fun i _ hi hlast => ?_
  · unfold threeElements
    split_ifs <;> decide
  · have hcard : #(equalTo differences 3 threeElements 0 2) = 1 := by decide
    obtain rfl : i = 2 := by omega
    decide

/-- The elements 3 and 1 between the pivots 1 and 3. -/
theorem not_isolated_pair : ¬Isolated differences 1 3 0 1
    (partition differences 1 3 0 ⟨fun i => if i = 0 then 3 else 1, 0, 1⟩) := by
  intro h
  have hmiddle := h.middle 0
  rw [partition, partition] at hmiddle
  simp [step, findGreat, differences] at hmiddle

end DartSdk.DualPivotSort
