import DartSdk.FreeListInvariant

/-!
Runs of a free list. The lists hold the bytes that have been freed and not handed out since. An
allocation cuts its block from one free block and leaves the remainder on the list, and it fails only
when no block is large enough or the large list has been searched past its budget.
-/

namespace DartSdk.FreeLists

open Function

open Checked BitSets List

variable {A : Arch}

/-- A block of which the first `size` bytes are handed out. -/
structure CutFrom (lists lists' : ℕ → List Block) (b : Block) (size : ℕ) : Prop where
  large : size ≤ b.size
  cut : ∃ rest, (blocksOf lists).Perm (b :: rest) ∧
    (blocksOf lists').Perm (b.remainder size ++ rest)

section

variable {s : FreeList A} {lists : ℕ → List Block}

variable {b : Block}

lemma Invariant.valid_of_mem (h : Invariant s lists) (hb : b ∈ blocksOf lists) : b.Valid A := by
  obtain ⟨i, hi, hmem⟩ := mem_blocksOf.mp hb
  exact h.valid i hi b hmem

variable {size : ℕ}

lemma Invariant.split_removed (h : Invariant s lists) {s1 : FreeList A}
    {lists1 : ℕ → List Block} (h1 : Invariant s1 lists1)
    (hperm : (blocksOf lists).Perm (b :: blocksOf lists1))
    (hheap : heapSize A s1.memory b.addr = b.size) (hsize : ValidSize A size)
    (hle : size ≤ b.size) :
    ∃ s' lists', splitElementAfterAndEnqueue b.addr size s1 = .ok s' ∧ Invariant s' lists' ∧
      CutFrom lists lists' b size := by
  have hok := h.valid_of_mem (hperm.mem_iff.mpr mem_cons_self)
  have hdisj := (pairwise_cons.mp (pairwise_perm h.disjoint hperm)).1
  obtain ⟨s', lists', hsplit, hinv, hperm'⟩ := h1.split_spec hok hdisj hheap hsize hle
  exact ⟨s', lists', hsplit, hinv, hle, _, hperm, hperm'⟩

variable {i : ℕ}

section

variable (h : Invariant s lists)

include h

lemma Invariant.heapSize_head (hi : i ≤ kNumLists) (hb : b ∈ lists i) :
    heapSize A s.memory b.addr = b.size := by
  obtain ⟨nextElement, henc⟩ := (h.chain i hi).encodes hb
  exact henc.heapSize_eq (h.valid i hi b hb)

/-- The size classes order the sizes of small blocks. -/
lemma Invariant.size_eq (hi : i < kNumLists) (hb : b ∈ lists i) :
    b.size = i * A.objectAlignment :=
  size_eq_of_sizeClass (h.valid i hi.le b hb).alignedSize (h.inClass i hi.le b hb) hi

lemma Invariant.size_lt (hi : i < kNumLists) (hb : b ∈ lists i) (hsize : ValidSize A size)
    (hlt : i < sizeClass A size) : b.size < size := by
  have hpos := objectAlignment_pos A
  rw [h.size_eq hi hb]
  have hmul : (i + 1) * A.objectAlignment ≤ size := by
    rcases lt_or_eq_of_le (sizeClass_le A size) with hsmall | hlarge
    · rw [size_eq_of_sizeClass hsize.aligned rfl hsmall]
      exact Nat.mul_le_mul_right _ hlt
    · exact (Nat.mul_le_mul_right _ (by omega)).trans (le_size_of_sizeClass hsize.aligned hlarge)
  rw [add_mul, one_mul] at hmul
  omega

lemma Invariant.exists_cons (hmem : s.freeMap.mem i = true) :
    i < kNumLists ∧ ∃ b rest, lists i = b :: rest := by
  obtain ⟨hi, hne⟩ := (h.bits i).mp hmem
  exact ⟨hi, exists_cons_of_ne_nil hne⟩

lemma dequeue_and_split (hmem : s.freeMap.mem i = true) (hsize : ValidSize A size)
    (hle : size ≤ i * A.objectAlignment) :
    ∃ s1 b, dequeueElement i s = .ok (s1, b.addr) ∧ b ∈ blocksOf lists ∧
      b.size = i * A.objectAlignment ∧
      ∃ s' lists', splitElementAfterAndEnqueue b.addr size s1 = .ok s' ∧ Invariant s' lists' ∧
        CutFrom lists lists' b size := by
  obtain ⟨hi, b, rest, hlist⟩ := h.exists_cons hmem
  have hb : b ∈ lists i := hlist ▸ mem_cons_self
  have hbsize := h.size_eq hi hb
  obtain ⟨s1, hdequeue, hmemory, hinv, hperm⟩ := h.dequeueElement_spec hi hlist
  refine ⟨s1, b, hdequeue, mem_blocksOf.mpr ⟨i, hi.le, hb⟩, hbsize,
    h.split_removed hinv hperm ?_ hsize (hbsize ▸ hle)⟩
  rw [hmemory, h.heapSize_head hi.le hb]

lemma Invariant.hasElements_eq (hi : i ≤ kNumLists) :
    hasElements i s = .ok (s.freeMap.mem i) := by
  rw [hasElements]
  split_ifs with hne
  · exact s.freeMap.test_eq (lt_of_le_of_ne hi hne)
  · have hfalse : s.freeMap.mem i = false :=
      Bool.eq_false_of_not_eq_true fun hmem => hne ((h.bits i).mp hmem).1.ne
    rw [hfalse]

lemma Invariant.allocateFromSmall_spec (hsize : ValidSize A size) :
    (allocateFromSmall (sizeClass A size) size s = .ok none ∧
        ∀ i < kNumLists, ∀ b ∈ lists i, b.size < size) ∨
      ∃ s' lists' b, allocateFromSmall (sizeClass A size) size s = .ok (some (s', b.addr)) ∧
        Invariant s' lists' ∧ b ∈ blocksOf lists ∧ CutFrom lists lists' b size := by
  have hle := sizeClass_le A size
  rw [allocateFromSmall, h.hasElements_eq hle, ok_bind]
  cases hmem : s.freeMap.mem (sizeClass A size) with
  | true =>
    obtain ⟨hi, b, rest, hlist⟩ := h.exists_cons hmem
    have hb : b ∈ lists (sizeClass A size) := hlist ▸ mem_cons_self
    have hbsize : b.size = size :=
      (h.size_eq hi hb).trans (size_eq_of_sizeClass hsize.aligned rfl hi).symm
    obtain ⟨s', hdequeue, -, hinv, hperm⟩ := h.dequeueElement_spec hi hlist
    refine .inr ⟨s', _, b, by rw [hdequeue]; rfl, hinv, mem_blocksOf.mpr ⟨_, hle, hb⟩,
      hbsize.ge, _, hperm, ?_⟩
    rw [Block.remainder, if_pos hbsize]
    rfl
  | false =>
    rw [if_neg Bool.false_ne_true]
    have hupto : ∀ i < kNumLists, i ≤ sizeClass A size → ∀ b ∈ lists i, b.size < size := by
      intro i hi hile b hb
      rcases lt_or_eq_of_le hile with hlt | rfl
      · exact h.size_lt hi hb hsize hlt
      · rw [(h.bits _).mpr ⟨hi, ne_nil_of_mem hb⟩] at hmem
        cases hmem
    by_cases hnext : sizeClass A size + 1 < kNumLists
    · obtain ⟨r, hr, hisNext⟩ := s.freeMap.next_spec hnext
      rw [if_pos hnext, hr, ok_bind]
      rcases hisNext with ⟨rfl, hnone⟩ | ⟨m, rfl, hm, hmemM, -⟩
      · refine .inl ⟨rfl, fun i hi b hb => ?_⟩
        rcases lt_or_ge (sizeClass A size) i with hlt | hge
        · have hmemI := (h.bits i).mpr ⟨hi, ne_nil_of_mem hb⟩
          rw [hnone i hlt] at hmemI
          cases hmemI
        · exact hupto i hi hge b hb
      · have hsizeM : size ≤ m * A.objectAlignment := by
          rw [size_eq_of_sizeClass hsize.aligned rfl (by omega)]
          exact Nat.mul_le_mul_right _ (by omega)
        obtain ⟨s1, b, hdequeue, hb, -, s', lists', hsplit, hinv, hcut⟩ :=
          dequeue_and_split h hmemM hsize hsizeM
        refine .inr ⟨s', lists', b, ?_, hinv, hb, hcut⟩
        rw [if_pos (by omega), Int.toNat_natCast, hdequeue, ok_bind]
        dsimp only
        rw [hsplit, ok_bind]
    · rw [if_neg hnext]
      refine .inl ⟨rfl, fun i hi => hupto i hi (by omega)⟩

/-- The large list has been searched through more blocks than there were tries. -/
def PastBudget (s : FreeList A) (lists : ℕ → List Block) (size : ℕ) : Prop :=
  ∃ before after, lists kNumLists = before ++ after ∧ (∀ c ∈ before, c.size < size) ∧
    searchTries size s < before.length

/-- A search that has passed the blocks `before`. -/
structure Searching (s : FreeList A) (lists : ℕ → List Block) (size : ℕ)
    (before after : List Block) (state : ℕ × ℕ × ℤ) : Prop where
  split : lists kNumLists = before ++ after
  chain : Chain A s.memory state.2.1 after
  previous : state.1 = lastAddr before
  tooSmall : ∀ c ∈ before, c.size < size
  tries : state.2.2 = searchTries size s - before.length

/-- What a search of the large list says about it. -/
def SearchOutcome (s : FreeList A) (lists : ℕ → List Block) (size : ℕ) : Search → Prop
  | .found previous current _ => ∃ before b after, lists kNumLists = before ++ b :: after ∧
      previous = lastAddr before ∧ current = b.addr ∧ size ≤ b.size
  | .endOfList => ∀ b ∈ lists kNumLists, b.size < size
  | .overBudget => PastBudget s lists size

lemma Searching.step {size : ℕ} {before after : List Block} {state : ℕ × ℕ × ℤ}
    (hs : Searching s lists size before after state) :
    (∃ r, searchBody (A := A) s.memory size state = .ok (.inr r) ∧ SearchOutcome s lists size r) ∨
      ∃ before' after' state', searchBody (A := A) s.memory size state = .ok (.inl state') ∧
        Searching s lists size before' after' state' ∧ 0 ≤ state.2.2 ∧
        state'.2.2 = state.2.2 - 1 := by
  obtain ⟨previous, current, triesLeft⟩ := state
  rw [searchBody]
  cases after with
  | nil =>
    refine .inl ⟨.endOfList, if_pos hs.chain, fun b hb => hs.tooSmall b ?_⟩
    have hsplit := hs.split
    rw [append_nil] at hsplit
    exact hsplit ▸ hb
  | cons b rest =>
    have hb : b ∈ lists kNumLists := by
      rw [hs.split]
      exact mem_append_cons_self
    obtain ⟨hcurrent, nextElement, henc, hrest⟩ := hs.chain
    dsimp only at hcurrent
    rw [hcurrent, if_neg (h.valid _ le_rfl b hb).notNull, h.heapSize_head le_rfl hb]
    split_ifs with hlarge hbudget
    · exact .inl ⟨_, rfl, before, b, rest, hs.split, hs.previous, rfl, hlarge⟩
    · refine .inl ⟨_, rfl, before ++ [b], rest, ?_, fun c hc => ?_, ?_⟩
      · rw [hs.split, append_assoc, singleton_append]
      · rcases mem_append.mp hc with hc | hc
        · exact hs.tooSmall c hc
        · rw [mem_singleton.mp hc]
          omega
      · have htries := hs.tries
        dsimp only at htries
        rw [length_append, length_singleton]
        omega
    · refine .inr ⟨before ++ [b], rest, _, rfl, ⟨?_, ?_, ?_, fun c hc => ?_, ?_⟩, by
        dsimp only; omega, rfl⟩
      · rw [hs.split, append_assoc, singleton_append]
      · rw [henc.next]
        exact hrest
      · rw [lastAddr, List.getLast?_concat]
        rfl
      · rcases mem_append.mp hc with hc | hc
        · exact hs.tooSmall c hc
        · rw [mem_singleton.mp hc]
          omega
      · have htries := hs.tries
        dsimp only at htries ⊢
        rw [length_append, length_singleton]
        omega

lemma Invariant.searchLarge_spec (size : ℕ) :
    ∃ r, searchLarge size s = .ok r ∧ SearchOutcome s lists size r := by
  -- The tries left bound the rounds to go, whatever the length of the list.
  refine loop_spec (searchBody (A := A) s.memory size)
    (fun n state => ∃ before after, Searching s lists size before after state ∧
      n = (state.2.2 + 2).toNat)
    (SearchOutcome s lists size) ?_ _ (n := (searchTries size s + 2).toNat)
    ⟨[], lists kNumLists, ⟨rfl, h.chain _ le_rfl, rfl, fun c hc => absurd hc not_mem_nil, ?_⟩,
      rfl⟩ (by omega)
  · rintro n state ⟨before, after, hs, rfl⟩
    rcases hs.step h with hexit | ⟨before', after', state', hnext, hs', hnn, htries⟩
    · exact .inl hexit
    · exact .inr ⟨(state'.2.2 + 2).toNat, by omega, state', hnext, before', after', hs', rfl⟩
  · rw [length_nil, Nat.cast_zero, sub_zero]

lemma Invariant.unlink_found {previous current : ℕ} {triesLeft : ℤ}
    (hfound : SearchOutcome s lists size (.found previous current triesLeft)) :
    ∃ lists1 b, current = b.addr ∧ size ≤ b.size ∧ b ∈ blocksOf lists ∧
      Invariant (unlinkLarge previous current triesLeft s) lists1 ∧
      (blocksOf lists).Perm (b :: blocksOf lists1) ∧
      heapSize A (unlinkLarge previous current triesLeft s).memory b.addr = b.size := by
  obtain ⟨before, b, after, hlist, rfl, rfl, hle⟩ := hfound
  obtain ⟨hinv, hperm, hheap⟩ := h.unlinkLarge_spec hlist triesLeft
  exact ⟨_, b, rfl, hle, hperm.mem_iff.mpr mem_cons_self, hinv, hperm, hheap⟩

lemma Invariant.withBudget (budget : ℤ) :
    Invariant { s with freelistSearchBudget := budget } lists where
  chain := h.chain
  valid := h.valid
  inClass := h.inClass
  disjoint := h.disjoint
  bits := h.bits
  last := h.last

lemma Invariant.freeLocked_spec (hb : b.Valid A) (hdisj : ∀ c ∈ blocksOf lists, b.Disjoint c) :
    ∃ s', freeLocked b.addr b.size s = .ok s' ∧ Invariant s' (pushBlock A lists b) := by
  obtain ⟨s', henqueue, hinv, -⟩ := h.enqueue_spec hb hdisj
  refine ⟨s', ?_, hinv⟩
  rw [freeLocked, indexForSize_eq ⟨hb.minimal, hb.alignedSize⟩, ok_bind, asElement_eq hb, ok_bind,
    henqueue]

lemma Invariant.tryAllocateLocked_spec (hsize : ValidSize A size) :
    (∃ s', tryAllocateLocked size s = .ok (s', 0) ∧ Invariant s' lists ∧
        ((∀ b ∈ blocksOf lists, b.size < size) ∨ PastBudget s lists size)) ∨
      ∃ s' lists' b, tryAllocateLocked size s = .ok (s', b.addr) ∧ Invariant s' lists' ∧
        b ∈ blocksOf lists ∧ CutFrom lists lists' b size := by
  rw [tryAllocateLocked, indexForSize_eq hsize, ok_bind]
  rcases h.allocateFromSmall_spec hsize with ⟨hsmall, htooSmall⟩ | ⟨s', lists', b, hsmall, hrest⟩
  · obtain ⟨r, hsearch, hr⟩ := h.searchLarge_spec size
    rw [hsmall, ok_bind]
    rw [hsearch, ok_bind]
    cases r with
    | found previous current triesLeft =>
      obtain ⟨lists1, b, rfl, hle, hb, hinv, hperm, hheap⟩ := h.unlink_found hr
      obtain ⟨s', lists', hsplit, hinv', hcut⟩ := h.split_removed hinv hperm hheap hsize hle
      refine .inr ⟨s', lists', b, ?_, hinv', hb, hcut⟩
      dsimp only
      rw [hsplit, ok_bind]
    | endOfList =>
      refine .inl ⟨s, rfl, h, .inl fun b hb => ?_⟩
      obtain ⟨i, hi, hmem⟩ := mem_blocksOf.mp hb
      rcases lt_or_eq_of_le hi with hlt | rfl
      · exact htooSmall i hlt b hmem
      · exact hr b hmem
    | overBudget => exact .inl ⟨_, rfl, h.withBudget _, .inr hr⟩
  · rw [hsmall, ok_bind]
    exact .inr ⟨s', lists', b, rfl, hrest⟩

lemma Invariant.tryAllocateSmallLocked_spec (hsize : ValidSize A size) :
    tryAllocateSmallLocked size s = .ok (s, 0) ∨
      ∃ s' lists' b, tryAllocateSmallLocked size s = .ok (s', b.addr) ∧ Invariant s' lists' ∧
        b ∈ blocksOf lists ∧ CutFrom lists lists' b size := by
  rw [tryAllocateSmallLocked]
  split_ifs with hlast
  · exact .inl rfl
  · rw [indexForSize_eq hsize, ok_bind]
    rcases h.allocateFromSmall_spec hsize with ⟨hsmall, -⟩ | ⟨s', lists', b, hsmall, hrest⟩
    · rw [hsmall, ok_bind]
      exact .inl rfl
    · rw [hsmall, ok_bind]
      exact .inr ⟨s', lists', b, rfl, hrest⟩

lemma Invariant.tryAllocateLargeLocked_spec (minimumSize : ℕ) :
    (∃ s', tryAllocateLargeLocked minimumSize s = .ok (s', 0) ∧ Invariant s' lists) ∨
      ∃ s' lists' b, tryAllocateLargeLocked minimumSize s = .ok (s', b.addr) ∧
        Invariant s' lists' ∧ b ∈ blocksOf lists ∧ minimumSize ≤ b.size ∧
        CutFrom lists lists' b b.size := by
  obtain ⟨r, hsearch, hr⟩ := h.searchLarge_spec minimumSize
  rw [tryAllocateLargeLocked, hsearch, ok_bind]
  cases r with
  | found previous current triesLeft =>
    obtain ⟨lists1, b, rfl, hle, hb, hinv, hperm, -⟩ := h.unlink_found hr
    refine .inr ⟨_, lists1, b, rfl, hinv, hb, hle, le_rfl, _, hperm, ?_⟩
    rw [Block.remainder, if_pos rfl]
    rfl
  | endOfList => exact .inl ⟨s, rfl, h⟩
  | overBudget => exact .inl ⟨_, rfl, h.withBudget _⟩

end

end

def bytesOf (blocks : List Block) : Set ℕ := {x | ∃ b ∈ blocks, b.Contains x}

lemma bytesOf_perm {l l' : List Block} (h : l.Perm l') : bytesOf l = bytesOf l' := by
  ext x
  exact exists_congr fun b => and_congr_left fun _ => h.mem_iff

lemma bytesOf_cons (b : Block) (l : List Block) : bytesOf (b :: l) = bytesOf [b] ∪ bytesOf l := by
  ext x
  simp [bytesOf]

lemma CutFrom.bytesOf_eq {lists lists' : ℕ → List Block} {b : Block} {size : ℕ}
    (h : CutFrom lists lists' b size) (hdisj : (blocksOf lists).Pairwise Block.Disjoint) :
    bytesOf (blocksOf lists') = bytesOf (blocksOf lists) \ bytesOf [⟨b.addr, size⟩] := by
  obtain ⟨hle, rest, hperm, hperm'⟩ := h
  have hrest := (pairwise_cons.mp (pairwise_perm hdisj hperm)).1
  rw [bytesOf_perm hperm, bytesOf_perm hperm']
  ext x
  have houtside : ∀ c ∈ rest, c.Contains x → ¬ (b.addr ≤ x ∧ x < b.addr + size) := by
    intro c hc hcx hx
    exact (hrest c hc).not_contains ⟨hx.1, by omega⟩ hcx
  have hrem : (∃ c ∈ b.remainder size, c.Contains x) ↔
      b.Contains x ∧ ¬ (b.addr ≤ x ∧ x < b.addr + size) := by
    rw [Block.remainder]
    split_ifs with heq
    · simp only [not_mem_nil, false_and, exists_false, false_iff, Block.Contains]
      omega
    · simp only [mem_singleton, exists_eq_left, Block.Contains]
      omega
  constructor
  · rintro ⟨c, hc, hcx⟩
    rcases mem_append.mp hc with hc | hc
    · obtain ⟨hbx, hno⟩ := hrem.mp ⟨c, hc, hcx⟩
      refine ⟨⟨b, mem_cons_self, hbx⟩, ?_⟩
      rintro ⟨d, hd, hdx⟩
      rw [mem_singleton.mp hd] at hdx
      exact hno hdx
    · refine ⟨⟨c, mem_cons_of_mem _ hc, hcx⟩, ?_⟩
      rintro ⟨d, hd, hdx⟩
      rw [mem_singleton.mp hd] at hdx
      exact houtside c hc hcx hdx
  · rintro ⟨⟨c, hc, hcx⟩, hno⟩
    have hno' : ¬ (b.addr ≤ x ∧ x < b.addr + size) :=
      fun hx => hno ⟨_, mem_singleton_self _, hx⟩
    rcases mem_cons.mp hc with rfl | hc
    · obtain ⟨d, hd, hdx⟩ := hrem.mpr ⟨hcx, hno'⟩
      exact ⟨d, mem_append_left _ hd, hdx⟩
    · exact ⟨c, mem_append_right _ hc, hcx⟩

inductive Request
  | tryAllocate (size : ℕ)
  | tryAllocateSmall (size : ℕ)
  | tryAllocateLarge (minimumSize : ℕ)

def allocate : Request → FreeList A → Result (FreeList A × ℕ)
  | .tryAllocate size => tryAllocateLocked size
  | .tryAllocateSmall size => tryAllocateSmallLocked size
  | .tryAllocateLarge minimumSize => tryAllocateLargeLocked minimumSize

/-- The requests that the ASSERTs let pass. -/
def Request.Valid (A : Arch) : Request → Prop
  | .tryAllocate size => ValidSize A size
  | .tryAllocateSmall size => ValidSize A size
  | .tryAllocateLarge _ => True

/-- The block that a request hands out at the address `result`; null is no block. -/
def handedOut (s : FreeList A) (request : Request) (result : ℕ) : Block :=
  match request with
  | .tryAllocate size => ⟨result, if result = 0 then 0 else size⟩
  | .tryAllocateSmall size => ⟨result, if result = 0 then 0 else size⟩
  | .tryAllocateLarge _ => ⟨result, if result = 0 then 0 else heapSize A s.memory result⟩

/-- The runs of a free list, with the bytes that are freed and not handed out since. Elsewhere
anything may be written. -/
inductive Run (A : Arch) : FreeList A → Set ℕ → Prop
  | reset (memory : Memory) : Run A (reset A memory) ∅
  | write {s : FreeList A} {free : Set ℕ} (memory : Memory) : Run A s free →
      (∀ x ∈ free, memory x = s.memory x) → Run A { s with memory := memory } free
  | free {s s' : FreeList A} {free : Set ℕ} {b : Block} : Run A s free → b.Valid A →
      Disjoint (bytesOf [b]) free → freeLocked b.addr b.size s = .ok s' →
      Run A s' (bytesOf [b] ∪ free)
  | allocate {s s' : FreeList A} {free : Set ℕ} {request : Request} {result : ℕ} : Run A s free →
      request.Valid A → allocate request s = .ok (s', result) →
      Run A s' (free \ bytesOf [handedOut s request result])

/-- The lists of a free list in order. -/
structure WellFormed (s : FreeList A) (lists : ℕ → List Block) : Prop where
  linked : ∀ i ≤ kNumLists, Chain A s.memory (s.freeLists i) (lists i)
  classes : ∀ i ≤ kNumLists, ∀ b ∈ lists i, b.Valid A ∧ sizeClass A b.size = i
  disjoint : (blocksOf lists).Pairwise Block.Disjoint
  bits : ∀ i < kNumLists, s.freeMap.test i = .ok (decide (lists i ≠ []))
  last : (s.lastFreeSmallSize < 0 ∧ ∀ i < kNumLists, lists i = []) ∨
    ∃ i < kNumLists, lists i ≠ [] ∧ s.lastFreeSmallSize = i * A.objectAlignment ∧
      ∀ j < kNumLists, lists j ≠ [] → j ≤ i

lemma Invariant.wellFormed {s : FreeList A} {lists : ℕ → List Block} (h : Invariant s lists) :
    WellFormed s lists where
  linked := h.chain
  classes i hi b hb := ⟨h.valid i hi b hb, h.inClass i hi b hb⟩
  disjoint := h.disjoint
  bits i hi := by
    rw [s.freeMap.test_eq hi]
    refine congrArg Except.ok (Bool.eq_iff_iff.mpr ?_)
    rw [h.bits, decide_eq_true_iff]
    exact and_iff_right hi
  last := by
    rcases h.last with ⟨hneg, hnone⟩ | ⟨r, hr, hsize⟩
    · refine .inl ⟨hneg, fun i hi => ?_⟩
      obtain ⟨-, hnone⟩ | ⟨m, hm, -⟩ := hnone
      · by_contra hne
        exact absurd ((h.bits i).mpr ⟨hi, hne⟩) (by rw [hnone]; decide)
      · omega
    · obtain ⟨hneg, -⟩ | ⟨m, hm, htrue, hafter⟩ := hr
      · omega
      obtain rfl : r = m := by omega
      obtain ⟨hi, hne⟩ := (h.bits r).mp htrue
      refine .inr ⟨r, hi, hne, hsize, fun j hj hnej => ?_⟩
      by_contra hlt
      exact absurd ((h.bits j).mpr ⟨hj, hnej⟩) (by rw [hafter j (by omega)]; decide)

/-- What a request that is answered at `result` has done to the lists. -/
def Outcome (s : FreeList A) (lists lists' : ℕ → List Block) (result : ℕ) : Request → Prop
  | .tryAllocate size =>
    (result = 0 ∧ lists' = lists ∧
        ((∀ b ∈ blocksOf lists, b.size < size) ∨ PastBudget s lists size)) ∨
      result ≠ 0 ∧ ∃ b ∈ blocksOf lists, b.addr = result ∧ CutFrom lists lists' b size
  | .tryAllocateSmall size =>
    (result = 0 ∧ lists' = lists) ∨
      result ≠ 0 ∧ ∃ b ∈ blocksOf lists, b.addr = result ∧ CutFrom lists lists' b size
  | .tryAllocateLarge minimumSize =>
    (result = 0 ∧ lists' = lists) ∨
      result ≠ 0 ∧ ∃ b ∈ blocksOf lists, b.addr = result ∧ minimumSize ≤ b.size ∧
        heapSize A s.memory result = b.size ∧ CutFrom lists lists' b b.size

section

variable {s : FreeList A} {lists : ℕ → List Block}

lemma Invariant.heapSize_eq (h : Invariant s lists) {b : Block} (hb : b ∈ blocksOf lists) :
    heapSize A s.memory b.addr = b.size := by
  obtain ⟨i, hi, hmem⟩ := mem_blocksOf.mp hb
  exact h.heapSize_head hi hmem

lemma Invariant.allocate_spec (h : Invariant s lists) {request : Request}
    (hrequest : request.Valid A) :
    ∃ s' lists' result, allocate request s = .ok (s', result) ∧ Invariant s' lists' ∧
      Outcome s lists lists' result request := by
  cases request with
  | tryAllocate size =>
    rcases h.tryAllocateLocked_spec hrequest with ⟨s', heq, hinv, hno⟩ |
      ⟨s', lists', b, heq, hinv, hb, hcut⟩
    · exact ⟨s', lists, 0, heq, hinv, .inl ⟨rfl, rfl, hno⟩⟩
    · exact ⟨s', lists', b.addr, heq, hinv, .inr ⟨(h.valid_of_mem hb).notNull, b, hb, rfl, hcut⟩⟩
  | tryAllocateSmall size =>
    rcases h.tryAllocateSmallLocked_spec hrequest with heq | ⟨s', lists', b, heq, hinv, hb, hcut⟩
    · exact ⟨s, lists, 0, heq, h, .inl ⟨rfl, rfl⟩⟩
    · exact ⟨s', lists', b.addr, heq, hinv, .inr ⟨(h.valid_of_mem hb).notNull, b, hb, rfl, hcut⟩⟩
  | tryAllocateLarge minimumSize =>
    rcases h.tryAllocateLargeLocked_spec minimumSize with
      ⟨s', heq, hinv⟩ | ⟨s', lists', b, heq, hinv, hb, hle, hcut⟩
    · exact ⟨s', lists, 0, heq, hinv, .inl ⟨rfl, rfl⟩⟩
    · exact ⟨s', lists', b.addr, heq, hinv,
        Or.inr ⟨(h.valid_of_mem hb).notNull, b, hb, rfl, hle, h.heapSize_eq hb, hcut⟩⟩

lemma bytesOf_empty (addr : ℕ) : bytesOf [⟨addr, 0⟩] = ∅ := by
  ext x
  simp [bytesOf, Block.Contains]

lemma Outcome.bytesOf_eq {lists' : ℕ → List Block} {result : ℕ} {request : Request}
    (h : Outcome s lists lists' result request) (hdisj : (blocksOf lists).Pairwise Block.Disjoint) :
    bytesOf (blocksOf lists') =
      bytesOf (blocksOf lists) \ bytesOf [handedOut s request result] := by
  cases request with
  | tryAllocate size =>
    rcases h with ⟨rfl, rfl, -⟩ | ⟨hne, b, -, rfl, hcut⟩
    · rw [handedOut, if_pos rfl, bytesOf_empty, Set.sdiff_empty]
    · rw [handedOut, if_neg hne, hcut.bytesOf_eq hdisj]
  | tryAllocateSmall size =>
    rcases h with ⟨rfl, rfl⟩ | ⟨hne, b, -, rfl, hcut⟩
    · rw [handedOut, if_pos rfl, bytesOf_empty, Set.sdiff_empty]
    · rw [handedOut, if_neg hne, hcut.bytesOf_eq hdisj]
  | tryAllocateLarge minimumSize =>
    rcases h with ⟨rfl, rfl⟩ | ⟨hne, b, -, rfl, -, hheap, hcut⟩
    · rw [handedOut, if_pos rfl, bytesOf_empty, Set.sdiff_empty]
    · rw [handedOut, if_neg hne, hheap, hcut.bytesOf_eq hdisj]

lemma disjoint_of_bytesOf {b : Block} (hb : b.Valid A) (h : Invariant s lists)
    (hdisj : Disjoint (bytesOf [b]) (bytesOf (blocksOf lists))) :
    ∀ c ∈ blocksOf lists, b.Disjoint c := by
  intro c hc
  have hbmin := hb.minimal
  have hcmin := (h.valid_of_mem hc).minimal
  have hpos := objectAlignment_pos A
  -- The later of the two addresses would be in both blocks.
  by_contra hno
  unfold Block.Disjoint at hno
  have hbx : b.Contains (max b.addr c.addr) := by
    unfold Block.Contains
    omega
  have hcx : c.Contains (max b.addr c.addr) := by
    unfold Block.Contains
    omega
  exact Set.disjoint_left.mp hdisj ⟨b, mem_singleton_self b, hbx⟩ ⟨c, hc, hcx⟩

end

lemma Run.invariant {s : FreeList A} {free : Set ℕ} (h : Run A s free) :
    ∃ lists, Invariant s lists ∧ bytesOf (blocksOf lists) = free := by
  induction h with
  | reset memory =>
    refine ⟨_, invariant_reset A memory, ?_⟩
    rw [blocksOf, flatMap_eq_nil_iff.mpr fun _ _ => rfl]
    simp [bytesOf]
  | write memory _ hsame ih =>
    obtain ⟨lists, hinv, rfl⟩ := ih
    refine ⟨lists, { hinv with chain := fun i hi => ?_ }, rfl⟩
    refine (hinv.chain i hi).congr (hinv.valid i hi) fun b hb x hx => hsame x ?_
    exact ⟨b, mem_blocksOf.mpr ⟨i, hi, hb⟩, hx⟩
  | @free s s' free b _ hb hdisj hfree ih =>
    obtain ⟨lists, hinv, rfl⟩ := ih
    obtain ⟨s'', hfree', hinv'⟩ := hinv.freeLocked_spec hb (disjoint_of_bytesOf hb hinv hdisj)
    rw [hfree] at hfree'
    cases hfree'
    refine ⟨_, hinv', ?_⟩
    rw [bytesOf_perm (blocksOf_pushBlock A lists b), bytesOf_cons]
  | allocate _ hrequest hallocate ih =>
    obtain ⟨lists, hinv, rfl⟩ := ih
    obtain ⟨s'', lists', result', hallocate', hinv', houtcome⟩ := hinv.allocate_spec hrequest
    rw [hallocate] at hallocate'
    cases hallocate'
    exact ⟨lists', hinv', houtcome.bytesOf_eq hinv.disjoint⟩

/-- After every run the lists hold exactly the bytes freed and not handed out since; a freed block
goes on the list, and a request gets a block cut from a free one, or null. -/
theorem run_wellFormed (s : FreeList A) (free : Set ℕ) (h : Run A s free) :
    ∃ lists, WellFormed s lists ∧ bytesOf (blocksOf lists) = free ∧
      (∀ b : Block, b.Valid A → Disjoint (bytesOf [b]) free → ∃ s' lists',
        freeLocked b.addr b.size s = .ok s' ∧ WellFormed s' lists' ∧
        (blocksOf lists').Perm (b :: blocksOf lists)) ∧
      ∀ request : Request, request.Valid A → ∃ s' lists' result,
        allocate request s = .ok (s', result) ∧ WellFormed s' lists' ∧
        Outcome s lists lists' result request := by
  obtain ⟨lists, hinv, rfl⟩ := h.invariant
  refine ⟨lists, hinv.wellFormed, rfl, fun b hb hdisjoint => ?_, fun request hrequest => ?_⟩
  · obtain ⟨s', hfree, hinv'⟩ := hinv.freeLocked_spec hb (disjoint_of_bytesOf hb hinv hdisjoint)
    exact ⟨s', _, hfree, hinv'.wellFormed, blocksOf_pushBlock A lists b⟩
  · obtain ⟨s', lists', result, hallocate, hinv', houtcome⟩ := hinv.allocate_spec hrequest
    exact ⟨s', lists', result, hallocate, hinv'.wellFormed, houtcome⟩

/-- A block of 48 bytes is freed, and a request for 16 bytes splits it. -/
theorem run_wellFormed_split : ∃ (s₁ s₂ : FreeList .arch64) (lists : ℕ → List Block),
    freeLocked 64 48 (reset .arch64 fun _ => 0) = .ok s₁ ∧
      allocate (.tryAllocate 16) s₁ = .ok (s₂, 64) ∧ WellFormed s₂ lists ∧
      bytesOf (blocksOf lists) = {x | 80 ≤ x ∧ x < 112} := by
  have hruns : ((freeLocked 64 48 (reset .arch64 fun _ => 0) >>= allocate (.tryAllocate 16)).map
      Prod.snd : Result ℕ) = .ok 64 := by
    decide +kernel
  have hblock : (⟨64, 48⟩ : Block).Valid .arch64 := ⟨by decide, by decide, by decide, by decide⟩
  cases hfree : freeLocked 64 48 (reset .arch64 fun _ => 0) with
  | error e =>
    rw [hfree] at hruns
    cases hruns
  | ok s₁ =>
    cases hallocate : allocate (.tryAllocate 16) s₁ with
    | error e =>
      rw [hfree, ok_bind, hallocate] at hruns
      cases hruns
    | ok split =>
      obtain ⟨s₂, result⟩ := split
      rw [hfree, ok_bind, hallocate] at hruns
      obtain rfl : result = 64 := Except.ok.inj hruns
      obtain ⟨lists, hlists, hbytes, -⟩ := run_wellFormed s₂ _ (.allocate
        (.free (b := ⟨64, 48⟩) (.reset fun _ => 0) hblock (Set.disjoint_empty _) hfree)
        (show Request.Valid .arch64 (.tryAllocate 16) from ⟨by decide, by decide⟩) hallocate)
      refine ⟨s₁, s₂, lists, rfl, hallocate, hlists, hbytes.trans ?_⟩
      ext x
      simp [bytesOf, handedOut, Block.Contains]
      omega

end DartSdk.FreeLists
