import DartSdk.FreeList

/-!
What every operation keeps of a free list: each list is a chain of blocks of its size class, the
bits of the map say which lists have elements, and the search bounds fit.
-/

namespace DartSdk.FreeLists

open Checked BitSets List Nat Function

variable {A : Arch}

def blocksOf (lists : ℕ → List Block) : List Block :=
  (List.range (kNumLists + 1)).flatMap lists

lemma mem_blocksOf {lists : ℕ → List Block} {b : Block} :
    b ∈ blocksOf lists ↔ ∃ i ≤ kNumLists, b ∈ lists i := by
  simp [blocksOf]

lemma exists_others (lists : ℕ → List Block) {i : ℕ} (hi : i ≤ kNumLists) :
    ∃ others, (blocksOf lists).Perm (lists i ++ others) ∧
      ∀ l, (blocksOf (update lists i l)).Perm (l ++ others) := by
  have hmem : i ∈ List.range (kNumLists + 1) := mem_range.mpr (by omega)
  have hperm := perm_cons_erase hmem
  have hrest : ∀ l, ((List.range (kNumLists + 1)).erase i).flatMap (update lists i l) =
      ((List.range (kNumLists + 1)).erase i).flatMap lists := by
    intro l
    refine flatMap_congr fun j hj => ?_
    have hji : j ≠ i := by
      rintro rfl
      exact nodup_range.not_mem_erase hj
    rw [update_of_ne hji]
  refine ⟨((List.range (kNumLists + 1)).erase i).flatMap lists, ?_, fun l => ?_⟩
  · exact hperm.flatMap_right lists
  · have hupdated := hperm.flatMap_right (update lists i l)
    rw [flatMap_cons, update_self, hrest l] at hupdated
    exact hupdated

lemma pairwise_perm {l l' : List Block} (h : l.Pairwise Block.Disjoint) (hperm : l.Perm l') :
    l'.Pairwise Block.Disjoint :=
  (hperm.pairwise_iff fun h => Block.Disjoint.symm h).mp h

lemma sizeClass_le (A : Arch) (size : ℕ) : sizeClass A size ≤ kNumLists := by
  rw [sizeClass]
  split_ifs with h
  · exact le_rfl
  · exact (not_le.mp h).le

lemma sizeClass_mul (A : Arch) (q : ℕ) :
    sizeClass A (q * A.objectAlignment) = if kNumLists ≤ q then kNumLists else q := by
  rw [sizeClass, Nat.shiftRight_eq_div_pow]
  exact congrArg (fun q => if kNumLists ≤ q then kNumLists else q)
    (Nat.mul_div_cancel q (Nat.two_pow_pos _))

lemma size_eq_of_sizeClass {size i : ℕ} (hdvd : A.objectAlignment ∣ size)
    (h : sizeClass A size = i) (hi : i < kNumLists) : size = i * A.objectAlignment := by
  obtain ⟨q, rfl⟩ := hdvd
  rw [mul_comm, sizeClass_mul] at h
  split_ifs at h with hq
  · omega
  · rw [h, mul_comm]

lemma le_size_of_sizeClass {size : ℕ} (hdvd : A.objectAlignment ∣ size)
    (h : sizeClass A size = kNumLists) : kNumLists * A.objectAlignment ≤ size := by
  obtain ⟨q, rfl⟩ := hdvd
  rw [mul_comm, sizeClass_mul] at h
  split_ifs at h with hq
  · rw [mul_comm A.objectAlignment]
    exact Nat.mul_le_mul_right _ hq
  · omega

lemma index_shiftLeft (A : Arch) (i : ℕ) : i <<< A.objectAlignmentLog2 = i * A.objectAlignment :=
  Nat.shiftLeft_eq i _

lemma objectAlignment_pos (A : Arch) : 0 < A.objectAlignment := Nat.two_pow_pos _

/-- The cached size is that of the last small list with a bit, or negative. -/
def LastSize (s : FreeList A) : Prop :=
  (s.lastFreeSmallSize < 0 ∧ s.freeMap.IsLast (-1)) ∨
    ∃ r : ℕ, s.freeMap.IsLast r ∧ s.lastFreeSmallSize = r * A.objectAlignment

structure Invariant (s : FreeList A) (lists : ℕ → List Block) : Prop where
  chain : ∀ i ≤ kNumLists, Chain A s.memory (s.freeLists i) (lists i)
  valid : ∀ i ≤ kNumLists, ∀ b ∈ lists i, b.Valid A
  inClass : ∀ i ≤ kNumLists, ∀ b ∈ lists i, sizeClass A b.size = i
  disjoint : (blocksOf lists).Pairwise Block.Disjoint
  bits : ∀ i, s.freeMap.mem i = true ↔ i < kNumLists ∧ lists i ≠ []
  last : LastSize s

section

variable {s : FreeList A} {lists : ℕ → List Block}

lemma invariant_reset (A : Arch) (memory : Memory) :
    Invariant (reset A memory) fun _ => [] where
  chain i _ := rfl
  valid i _ b hb := absurd hb not_mem_nil
  inClass i _ b hb := absurd hb not_mem_nil
  disjoint := by
    exact List.Pairwise.nil
  bits i := by
    rw [reset, BitSet.mem_reset]
    simp
  last := .inl ⟨show (-1 : ℤ) < 0 by decide, .inl ⟨rfl, BitSet.mem_reset⟩⟩

variable {i : ℕ} {b : Block}

section

variable (h : Invariant s lists)

include h

lemma Invariant.disjoint_of_ne {j : ℕ} (hi : i ≤ kNumLists) (hj : j ≤ kNumLists) (hij : i ≠ j)
    {c : Block} (hb : b ∈ lists i) (hc : c ∈ lists j) : b.Disjoint c := by
  obtain ⟨others, hperm, hupdate⟩ := exists_others lists hi
  have hothers : c ∈ others := by
    have hmem : c ∈ blocksOf (update lists i []) :=
      mem_blocksOf.mpr ⟨j, hj, by rwa [update_of_ne (Ne.symm hij)]⟩
    exact (hupdate []).mem_iff.mp hmem
  exact (pairwise_append.mp (pairwise_perm h.disjoint hperm)).2.2 b hb c hothers

lemma Invariant.pairwise (hi : i ≤ kNumLists) : (lists i).Pairwise Block.Disjoint := by
  obtain ⟨others, hperm, -⟩ := exists_others lists hi
  exact (pairwise_append.mp (pairwise_perm h.disjoint hperm)).1

lemma Invariant.head_eq_zero_iff (hi : i ≤ kNumLists) :
    s.freeLists i = 0 ↔ lists i = [] := (h.chain i hi).head_eq_zero_iff (h.valid i hi)

omit h in
lemma LastSize.set {s' : FreeList A} (h : LastSize s)
    (hmem : ∀ j, s'.freeMap.mem j = if j = i then true else s.freeMap.mem j)
    (hsize : s'.lastFreeSmallSize = max s.lastFreeSmallSize ((i * A.objectAlignment : ℕ) : ℤ)) :
    LastSize s' := by
  have hi : s'.freeMap.mem i = true := by rw [hmem, if_pos rfl]
  rcases h with ⟨hneg, hnone⟩ | ⟨r, hr, heq⟩
  · obtain ⟨-, hnone⟩ | ⟨m, hm, -⟩ := hnone
    · refine .inr ⟨i, .inr ⟨i, rfl, hi, fun j hj => ?_⟩, ?_⟩
      · rw [hmem, if_neg (by omega), hnone]
      · rw [hsize, max_eq_right (by omega)]
        rfl
    · omega
  · obtain ⟨hneg, -⟩ | ⟨m, hm, htrue, hafter⟩ := hr
    · omega
    obtain rfl : r = m := by omega
    rcases lt_or_ge r i with hlt | hge
    · refine .inr ⟨i, .inr ⟨i, rfl, hi, fun j hj => ?_⟩, ?_⟩
      · rw [hmem, if_neg (by omega), hafter j (by omega)]
      · have hle : (r : ℤ) * A.objectAlignment ≤ i * A.objectAlignment :=
          mul_le_mul_of_nonneg_right (by omega) (by omega)
        rw [hsize, heq]
        exact max_eq_right hle
    · refine .inr ⟨r, .inr ⟨r, rfl, ?_, fun j hj => ?_⟩, ?_⟩
      · rw [hmem]
        split_ifs
        · rfl
        · exact htrue
      · rw [hmem, if_neg (by omega), hafter j (by omega)]
      · have hle : (i : ℤ) * A.objectAlignment ≤ r * A.objectAlignment :=
          mul_le_mul_of_nonneg_right (by omega) (by omega)
        rw [hsize, heq]
        exact max_eq_left hle

omit h in
lemma LastSize.isLast (h : LastSize s)
    (heq : ((i * A.objectAlignment : ℕ) : ℤ) = s.lastFreeSmallSize) : s.freeMap.IsLast i := by
  have hpos := objectAlignment_pos A
  rcases h with ⟨hneg, -⟩ | ⟨r, hr, hsize⟩
  · omega
  · obtain rfl : r = i := by
      rw [hsize] at heq
      have hcancel : i = r := eq_of_mul_eq_mul_right hpos (by exact_mod_cast heq)
      exact hcancel.symm
    exact hr

omit h in
lemma clearIndex_spec (h : LastSize s) (hi : i < kNumLists) (hmem : s.freeMap.mem i = true) :
    ∃ freeMap lastSize, clearIndex i s =
        .ok { s with freeMap := freeMap, lastFreeSmallSize := lastSize } ∧
      (∀ j, freeMap.mem j = if j = i then false else s.freeMap.mem j) ∧
      LastSize { s with freeMap := freeMap, lastFreeSmallSize := lastSize } := by
  rw [clearIndex, index_shiftLeft]
  split_ifs with heq
  · obtain ⟨freeMap, r, hclear, hmem', hlast⟩ :=
      s.freeMap.clearLastAndFindPrevious_spec hi (h.isLast heq)
    refine ⟨freeMap, r * A.objectAlignment, by rw [hclear]; rfl, hmem', ?_⟩
    have hpos := objectAlignment_pos A
    rcases hlast with ⟨rfl, hnone⟩ | ⟨m, rfl, hm⟩
    · exact .inl ⟨by dsimp only; omega, .inl ⟨rfl, hnone⟩⟩
    · exact .inr ⟨m, .inr ⟨m, rfl, hm⟩, rfl⟩
  · obtain ⟨freeMap, hset, hmem'⟩ := s.freeMap.set_spec hi false
    refine ⟨freeMap, s.lastFreeSmallSize, by rw [hset]; rfl, hmem', ?_⟩
    rcases h with ⟨hneg, hnone⟩ | ⟨r, hr, hsize⟩
    · obtain ⟨-, hnone⟩ | ⟨m, hm, -⟩ := hnone
      · rw [hnone] at hmem
        cases hmem
      · omega
    · have hne : r ≠ i := by
        rintro rfl
        exact heq (by rw [hsize]; push_cast; rfl)
      obtain ⟨hneg, -⟩ | ⟨m, hm, htrue, hafter⟩ := hr
      · omega
      obtain rfl : r = m := by omega
      refine .inr ⟨r, .inr ⟨r, rfl, ?_, fun j hj => ?_⟩, hsize⟩
      · dsimp only
        rw [hmem', if_neg hne, htrue]
      · dsimp only
        rw [hmem', hafter j hj]
        split_ifs <;> rfl

/-- The lists with a block put first in its class. -/
def pushBlock (A : Arch) (lists : ℕ → List Block) (b : Block) : ℕ → List Block :=
  Function.update lists (sizeClass A b.size) (b :: lists (sizeClass A b.size))

omit h in
lemma blocksOf_pushBlock (A : Arch) (lists : ℕ → List Block) (b : Block) :
    (blocksOf (pushBlock A lists b)).Perm (b :: blocksOf lists) := by
  obtain ⟨others, hperm, hupdate⟩ := exists_others lists (sizeClass_le A b.size)
  exact (hupdate _).trans (hperm.symm.cons b)

lemma Invariant.enqueueElement_eq (b : Block) (memory : Memory) :
    ∃ freeMap lastSize, enqueueElement b.addr (sizeClass A b.size) { s with memory := memory } =
        .ok { s with
          memory := setNext A memory b.addr (s.freeLists (sizeClass A b.size))
          freeMap := freeMap
          lastFreeSmallSize := lastSize
          freeLists := update s.freeLists (sizeClass A b.size) b.addr } ∧
      (∀ j, freeMap.mem j = true ↔ j < kNumLists ∧ pushBlock A lists b j ≠ []) ∧
      LastSize { s with freeMap := freeMap, lastFreeSmallSize := lastSize } := by
  have hle := sizeClass_le A b.size
  have hpush : ∀ j, pushBlock A lists b j ≠ [] ↔ j = sizeClass A b.size ∨ lists j ≠ [] := by
    intro j
    by_cases hj : j = sizeClass A b.size
    · rw [hj, pushBlock, update_self]
      simp
    · rw [pushBlock, update_of_ne hj]
      simp [hj]
  rw [enqueueElement]
  by_cases hemp : s.freeLists (sizeClass A b.size) = 0 ∧ sizeClass A b.size ≠ kNumLists
  · have hlt : sizeClass A b.size < kNumLists := lt_of_le_of_ne hle hemp.2
    obtain ⟨freeMap, hset, hmem⟩ := s.freeMap.set_spec hlt true
    refine ⟨freeMap, max s.lastFreeSmallSize ((sizeClass A b.size * A.objectAlignment : ℕ) : ℤ),
      ?_, fun j => ?_, h.last.set hmem rfl⟩
    · rw [if_pos hemp, hset, index_shiftLeft]
      rfl
    · rw [hmem, hpush]
      by_cases hj : j = sizeClass A b.size
      · simp [hj, hlt]
      · rw [if_neg hj, h.bits]
        simp [hj]
  · refine ⟨s.freeMap, s.lastFreeSmallSize, by rw [if_neg hemp, ok_bind], fun j => ?_, h.last⟩
    rw [h.bits, hpush]
    refine and_congr_right fun hj => ⟨.inr, ?_⟩
    rintro (rfl | hlists)
    · exact fun hnil => hemp ⟨(h.head_eq_zero_iff hle).mpr hnil, hj.ne⟩
    · exact hlists

lemma Invariant.enqueue_spec (hb : b.Valid A) (hdisj : ∀ c ∈ blocksOf lists, b.Disjoint c) :
    ∃ s', enqueueElement b.addr (sizeClass A b.size)
        { s with memory := writeElement A b.addr b.size s.memory } = .ok s' ∧
      Invariant s' (pushBlock A lists b) ∧ ∀ x, ¬ b.Contains x → s'.memory x = s.memory x := by
  have hle := sizeClass_le A b.size
  obtain ⟨freeMap, lastSize, henqueue, hbits, hlast⟩ :=
    h.enqueueElement_eq b (writeElement A b.addr b.size s.memory)
  have hmemory : ∀ x, ¬ b.Contains x → setNext A (writeElement A b.addr b.size s.memory) b.addr
      (s.freeLists (sizeClass A b.size)) x = s.memory x := by
    intro x hx
    have hnext : x ≠ nextAddress A b.addr := fun heq => hx (heq ▸ hb.contains_nextAddress)
    rw [setNext, update_of_ne hnext, writeElement_of_not_contains hb _ hx]
  have hothers : ∀ i ≤ kNumLists, Chain A (setNext A (writeElement A b.addr b.size s.memory) b.addr
      (s.freeLists (sizeClass A b.size))) (s.freeLists i) (lists i) := by
    intro i hi
    refine (h.chain i hi).congr (h.valid i hi) fun c hc x hx => hmemory x fun hbx => ?_
    exact (hdisj c (mem_blocksOf.mpr ⟨i, hi, hc⟩)).not_contains hbx hx
  refine ⟨_, henqueue, ⟨fun i hi => ?_, fun i hi c hc => ?_, fun i hi c hc => ?_, ?_, hbits, hlast⟩,
    hmemory⟩
  · dsimp only
    by_cases heq : i = sizeClass A b.size
    · rw [heq, pushBlock, update_self, update_self]
      exact ⟨rfl, _, (encodes_writeElement b s.memory).setNext _, hothers _ hle⟩
    · rw [pushBlock, update_of_ne heq, update_of_ne heq]
      exact hothers i hi
  · by_cases heq : i = sizeClass A b.size
    · rw [heq, pushBlock, update_self] at hc
      rcases mem_cons.mp hc with rfl | hc
      · exact hb
      · exact h.valid _ hle c hc
    · rw [pushBlock, update_of_ne heq] at hc
      exact h.valid i hi c hc
  · by_cases heq : i = sizeClass A b.size
    · rw [heq, pushBlock, update_self] at hc
      rcases mem_cons.mp hc with rfl | hc
      · exact heq.symm
      · rw [heq]
        exact h.inClass _ hle c hc
    · rw [pushBlock, update_of_ne heq] at hc
      exact h.inClass i hi c hc
  · refine pairwise_perm ?_ (blocksOf_pushBlock A lists b).symm
    exact pairwise_cons.mpr ⟨hdisj, h.disjoint⟩

lemma Invariant.remove {s' : FreeList A} (hi : i ≤ kNumLists) {before after : List Block}
    (hlist : lists i = before ++ b :: after)
    (hchain : Chain A s'.memory (s'.freeLists i) (before ++ after))
    (hheads : ∀ j, j ≠ i → s'.freeLists j = s.freeLists j)
    (hmemory : ∀ j ≤ kNumLists, j ≠ i → ∀ c ∈ lists j, ∀ x, c.Contains x → s'.memory x = s.memory x)
    (hbits : ∀ j, s'.freeMap.mem j = true ↔ j < kNumLists ∧ update lists i (before ++
      after) j ≠ []) (hlast : LastSize s') :
    Invariant s' (update lists i (before ++ after)) ∧
      (blocksOf lists).Perm (b :: blocksOf (update lists i (before ++ after))) := by
  obtain ⟨others, hperm, hupdate⟩ := exists_others lists hi
  have hsub : ∀ c ∈ before ++ after, c ∈ lists i := by
    intro c hc
    rw [hlist]
    rcases mem_append.mp hc with hc | hc
    · exact mem_append_left _ hc
    · exact mem_append_right _ (mem_cons_of_mem _ hc)
  have hblocks : (blocksOf lists).Perm
      (b :: blocksOf (update lists i (before ++ after))) := by
    refine hperm.trans ?_
    rw [hlist]
    refine (perm_middle.append_right others).trans ?_
    exact (hupdate _).symm.cons b
  refine ⟨⟨fun j hj => ?_, fun j hj c hc => ?_, fun j hj c hc => ?_, ?_, hbits, hlast⟩, hblocks⟩
  · by_cases heq : j = i
    · rw [heq, update_self]
      exact hchain
    · rw [update_of_ne heq, hheads j heq]
      exact (h.chain j hj).congr (h.valid j hj) (hmemory j hj heq)
  · by_cases heq : j = i
    · rw [heq, update_self] at hc
      exact h.valid i hi c (hsub c hc)
    · rw [update_of_ne heq] at hc
      exact h.valid j hj c hc
  · by_cases heq : j = i
    · rw [heq, update_self] at hc
      rw [heq]
      exact h.inClass i hi c (hsub c hc)
    · rw [update_of_ne heq] at hc
      exact h.inClass j hj c hc
  · exact (pairwise_cons.mp (pairwise_perm h.disjoint hblocks)).2

lemma Invariant.dequeueElement_spec (hi : i < kNumLists) {rest : List Block}
    (hlist : lists i = b :: rest) :
    ∃ s', dequeueElement i s = .ok (s', b.addr) ∧ s'.memory = s.memory ∧
      Invariant s' (update lists i rest) ∧
      (blocksOf lists).Perm (b :: blocksOf (update lists i rest)) := by
  have hlist' : lists i = [] ++ b :: rest := hlist
  have hchain := h.chain i hi.le
  rw [hlist] at hchain
  obtain ⟨hhead, nextElement, henc, hrest⟩ := hchain
  have hok : ∀ c ∈ b :: rest, c.Valid A := fun c hc => h.valid i hi.le c (hlist ▸ hc)
  have hnil := hrest.head_eq_zero_iff fun c hc => hok c (mem_cons_of_mem _ hc)
  have hmem : s.freeMap.mem i = true := (h.bits i).mpr ⟨hi, by rw [hlist]; exact cons_ne_nil _ _⟩
  have hbits : ∀ freeMap : BitSet A.bitsPerWordLog2 kNumLists,
      (∀ j, freeMap.mem j = if j = i then decide (rest ≠ []) else s.freeMap.mem j) →
      ∀ j, freeMap.mem j = true ↔ j < kNumLists ∧ update lists i ([] ++ rest) j ≠ [] := by
    intro freeMap hfree j
    rw [hfree, nil_append]
    by_cases hj : j = i
    · rw [if_pos hj, hj, update_self]
      simp [hi]
    · rw [if_neg hj, update_of_ne hj, h.bits]
  rw [dequeueElement, hhead]
  rw [if_neg (hok b mem_cons_self).notNull, henc.next]
  by_cases hemp : nextElement = 0
  · obtain ⟨freeMap, lastSize, hclear, hfree, hlast⟩ := clearIndex_spec h.last hi hmem
    rw [if_pos ⟨hemp, hi.ne⟩, hclear, ok_bind]
    refine ⟨_, rfl, rfl, h.remove hi.le hlist' ?_ (fun j hj => ?_)
      (fun _ _ _ _ _ _ _ => rfl) (hbits freeMap fun j => ?_) hlast⟩
    · dsimp only
      rw [update_self]
      exact hrest
    · exact update_of_ne hj _ _
    · rw [hfree, decide_eq_false (by rw [not_not]; exact hnil.mp hemp)]
  · rw [if_neg fun hboth => hemp hboth.1, ok_bind]
    refine ⟨_, rfl, rfl, h.remove hi.le hlist' ?_ (fun j hj => ?_)
      (fun _ _ _ _ _ _ _ => rfl) (hbits s.freeMap fun j => ?_) h.last⟩
    · dsimp only
      rw [update_self]
      exact hrest
    · exact update_of_ne hj _ _
    · by_cases hj : j = i
      · have hne : rest ≠ [] := fun hrest => hemp (hnil.mpr hrest)
        rw [if_pos hj, hj, hmem, decide_eq_true hne]
      · rw [if_neg hj]

/-- The address of the last block, or null. -/
def lastAddr (blocks : List Block) : ℕ := (blocks.getLast?.map Block.addr).getD 0

lemma Invariant.unlinkLarge_spec {before after : List Block}
    (hlist : lists kNumLists = before ++ b :: after) (triesLeft : ℤ) :
    Invariant (unlinkLarge (lastAddr before) b.addr triesLeft s)
        (update lists kNumLists (before ++ after)) ∧
      (blocksOf lists).Perm
        (b :: blocksOf (update lists kNumLists (before ++ after))) ∧
      heapSize A (unlinkLarge (lastAddr before) b.addr triesLeft s).memory b.addr = b.size := by
  have hok : ∀ c ∈ before ++ b :: after, c.Valid A :=
    fun c hc => h.valid _ le_rfl c (hlist ▸ hc)
  have hchain := h.chain _ le_rfl
  rw [hlist] at hchain
  have hbits : ∀ j, s.freeMap.mem j = true ↔
      j < kNumLists ∧ update lists kNumLists (before ++ after) j ≠ [] := by
    intro j
    rw [h.bits]
    refine and_congr_right fun hj => ?_
    rw [update_of_ne hj.ne]
  obtain ⟨nextElement, henc⟩ := hchain.encodes mem_append_cons_self
  have hsize := henc.heapSize_eq (hok b mem_append_cons_self)
  rcases eq_nil_or_concat before with rfl | ⟨init, previous, rfl⟩
  · rw [show lastAddr [] = 0 from rfl, unlinkLarge, if_pos rfl, henc.next]
    refine (and_assoc.mp ⟨h.remove le_rfl hlist ?_ (fun j hj => update_of_ne hj _ _)
      (fun _ _ _ _ _ _ _ => rfl) hbits h.last, hsize⟩)
    obtain ⟨-, nextElement', henc', hrest⟩ := hchain
    dsimp only
    rw [update_self, ← henc.next, henc'.next]
    exact hrest
  · have hprev : previous ∈ init.concat previous ++ b :: after := by simp
    have haddr : lastAddr (init.concat previous) = previous.addr := by simp [lastAddr]
    have hnext := (hok previous hprev).contains_nextAddress
    rw [haddr, unlinkLarge, if_neg (hok previous hprev).notNull, henc.next]
    have hpair := h.pairwise (le_refl kNumLists)
    rw [hlist] at hpair
    rw [concat_eq_append, append_assoc, singleton_append] at hpair hchain hok
    have hpb : previous.Disjoint b :=
      (pairwise_cons.mp (pairwise_append.mp hpair).2.1).1 b mem_cons_self
    refine (and_assoc.mp ⟨h.remove le_rfl hlist ?_ (fun j _ => rfl) (fun j hj hne c hc x hx => ?_)
      hbits h.last, ?_⟩)
    · rw [concat_eq_append, append_assoc, singleton_append]
      exact hchain.unlink hok hpair henc
    · have hpc := h.disjoint_of_ne le_rfl hj (Ne.symm hne) (hlist ▸ hprev) hc
      have hxn : x ≠ nextAddress A previous.addr := by
        rintro rfl
        exact hpc.not_contains hnext hx
      exact update_of_ne hxn _ _
    · refine (henc.congr (hok b (by simp)) fun x hx => ?_).heapSize_eq (hok b (by simp))
      have hxn : x ≠ nextAddress A previous.addr := by
        rintro rfl
        exact hpb.not_contains hnext hx
      exact update_of_ne hxn _ _

/-- What is left of a block when its first `size` bytes are taken. -/
def Block.remainder (b : Block) (size : ℕ) : List Block :=
  if b.size = size then [] else [⟨b.addr + size, b.size - size⟩]

/-- The sizes that may be asked for. -/
structure ValidSize (A : Arch) (size : ℕ) : Prop where
  minimal : A.objectAlignment ≤ size
  aligned : A.objectAlignment ∣ size

omit h in
lemma indexForSize_eq {size : ℕ} (h : ValidSize A size) :
    indexForSize A size = .ok (sizeClass A size) := by
  rw [indexForSize, check_of (decide_eq_true h.minimal), ok_bind,
    check_of (decide_eq_true (mod_eq_zero_of_dvd h.aligned)), ok_bind]

lemma Invariant.split_spec (hb : b.Valid A) (hdisj : ∀ c ∈ blocksOf lists, b.Disjoint c)
    (hheap : heapSize A s.memory b.addr = b.size) {size : ℕ} (hsize : ValidSize A size)
    (hle : size ≤ b.size) :
    ∃ s' lists', splitElementAfterAndEnqueue b.addr size s = .ok s' ∧ Invariant s' lists' ∧
      (blocksOf lists').Perm (b.remainder size ++ blocksOf lists) := by
  rw [splitElementAfterAndEnqueue, hheap]
  by_cases heq : b.size = size
  · refine ⟨s, lists, if_pos (by omega), h, ?_⟩
    rw [Block.remainder, if_pos heq]
    rfl
  · have hdvd : A.objectAlignment ∣ b.size - size := Nat.dvd_sub hb.alignedSize hsize.aligned
    have hpos : 0 < b.size - size := by omega
    have hrest : Block.Valid A ⟨b.addr + size, b.size - size⟩ := {
      notNull := by have := hb.notNull; dsimp only; omega
      alignedAddr := Nat.dvd_add hb.alignedAddr hsize.aligned
      minimal := le_of_dvd hpos hdvd
      alignedSize := hdvd }
    obtain ⟨s', henqueue, hinv, -⟩ := h.enqueue_spec hrest (by
      intro c hc
      have hbc := hdisj c hc
      unfold Block.Disjoint at hbc ⊢
      dsimp only
      omega)
    have hnat : ((b.size : ℤ) - size).toNat = b.size - size := by omega
    refine ⟨s', _, ?_, hinv, ?_⟩
    · rw [if_neg (by omega), hnat, asElement_eq hrest, ok_bind,
        indexForSize_eq ⟨hrest.minimal, hrest.alignedSize⟩, ok_bind, henqueue]
    · rw [Block.remainder, if_neg heq]
      exact blocksOf_pushBlock A lists _

end

end

end DartSdk.FreeLists
