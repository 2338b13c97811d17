import DartSdk.BitSets

/-!
The old-space free list (runtime/vm/heap/freelist.h, freelist.cc). An element lives in the freed
memory itself: its first word holds the tags, with the size of the element when it can be encoded
there, the second word the next element, and the third word the size of an element that is too
large for its tags. Blocks of one small size share a list, with a bit that tells whether the list
has any, and all larger blocks share the last list, which is searched with a budget. The elements
of each list are disjoint blocks, so that an operation writes only into blocks of no other list.
The protection of pages, which the list changes around its writes, is left out.
-/

namespace DartSdk.FreeLists

open Function

section

open Checked List Nat Function

inductive Arch
  | arch32
  | arch64
  deriving DecidableEq

namespace Arch

def wordSizeLog2 : Arch → ℕ
  | arch32 => 2
  | arch64 => 3

def wordSize (A : Arch) : ℕ := 2 ^ A.wordSizeLog2

def bitsPerWordLog2 (A : Arch) : ℕ := A.wordSizeLog2 + 3

def objectAlignmentLog2 (A : Arch) : ℕ := A.wordSizeLog2 + 1

def objectAlignment (A : Arch) : ℕ := 2 ^ A.objectAlignmentLog2

lemma objectAlignment_eq (A : Arch) : A.objectAlignment = 2 * A.wordSize := by
  rw [objectAlignment, objectAlignmentLog2, pow_succ, wordSize, mul_comm]

lemma wordSize_pos (A : Arch) : 0 < A.wordSize := Nat.two_pow_pos _

end Arch

abbrev Memory := ℕ → ℕ

def updateField (position size : ℕ) (value original : BitVec 32) : BitVec 32 :=
  (value <<< position) ||| (~~~((BitVec.ofNat 32 (2 ^ size - 1)) <<< position) &&& original)

def decodeField (position size : ℕ) (value : BitVec 32) : BitVec 32 :=
  (value >>> position) &&& BitVec.ofNat 32 (2 ^ size - 1)

def kSizeTagPos : ℕ := 8

def kSizeTagSize : ℕ := 8

def kFreeListElement : BitVec 32 := 2

section

variable (A : Arch)

def kMaxSizeTag : ℕ := (2 ^ kSizeTagSize - 1) <<< A.objectAlignmentLog2

def sizeToTagValue (size : ℕ) : ℕ :=
  if kMaxSizeTag A < size then 0 else size >>> A.objectAlignmentLog2

/-- The tags of a free element whose size field holds `value`. -/
def elementTags (value : ℕ) : BitVec 32 :=
  let tags := updateField kSizeTagPos kSizeTagSize (BitVec.ofNat 32 value) 0
  let tags := updateField 16 16 kFreeListElement tags
  let tags := updateField 3 1 1 tags
  let tags := updateField 1 1 1 tags
  let tags := updateField 4 1 1 tags
  updateField 2 1 0 tags

/-- `SizeTag::decode`. -/
def sizeOfTags (tags : BitVec 32) : ℕ :=
  (decodeField kSizeTagPos kSizeTagSize tags).toNat <<< A.objectAlignmentLog2

def nextAddress (element : ℕ) : ℕ := element + A.wordSize

def sizeAddress (element : ℕ) : ℕ := nextAddress A element + A.wordSize

def next (memory : Memory) (element : ℕ) : ℕ := memory (nextAddress A element)

def setNext (memory : Memory) (element next : ℕ) : Memory :=
  Function.update memory (nextAddress A element) next

def heapSize (memory : Memory) (element : ℕ) : ℕ :=
  let size := sizeOfTags A (BitVec.ofNat 32 (memory element))
  if size ≠ 0 then size else memory (sizeAddress A element)

def writeElement (addr size : ℕ) (memory : Memory) : Memory :=
  let memory := Function.update memory addr (elementTags (sizeToTagValue A size)).toNat
  let memory :=
    if kMaxSizeTag A < size then Function.update memory (sizeAddress A addr) size else memory
  setNext A memory addr 0

def asElement (addr size : ℕ) (memory : Memory) : Result Memory := do
  check (A.objectAlignment ≤ size)
  check (size % A.objectAlignment = 0)
  check (addr &&& A.wordSize = 0)
  .ok (writeElement A addr size memory)

end

lemma decode_elementTags (value : ℕ) (h : value < 256) :
    (decodeField kSizeTagPos kSizeTagSize (elementTags value)).toNat = value := by
  have hall : ∀ v : Fin 256,
      (decodeField kSizeTagPos kSizeTagSize (elementTags v.val)).toNat = v.val := by
    decide +kernel
  exact hall ⟨value, h⟩

structure Block where
  addr : ℕ
  size : ℕ
  deriving DecidableEq

namespace Block

def Contains (b : Block) (x : ℕ) : Prop := b.addr ≤ x ∧ x < b.addr + b.size

def Disjoint (b c : Block) : Prop := b.addr + b.size ≤ c.addr ∨ c.addr + c.size ≤ b.addr

lemma Disjoint.symm {b c : Block} (h : b.Disjoint c) : c.Disjoint b := Or.symm h

lemma Disjoint.not_contains {b c : Block} (h : b.Disjoint c) {x : ℕ} (hb : b.Contains x) :
    ¬ c.Contains x := by
  unfold Disjoint at h
  unfold Contains at hb ⊢
  omega

/-- A block that can be an element: aligned, not at the null address, and not empty. -/
structure Valid (A : Arch) (b : Block) : Prop where
  notNull : b.addr ≠ 0
  alignedAddr : A.objectAlignment ∣ b.addr
  minimal : A.objectAlignment ≤ b.size
  alignedSize : A.objectAlignment ∣ b.size

end Block

section

variable {A : Arch} {b : Block} {memory memory' : Memory}

lemma kMaxSizeTag_eq (A : Arch) : kMaxSizeTag A = 255 * A.objectAlignment := by
  rw [kMaxSizeTag, shiftLeft_eq]
  rfl

namespace Block.Valid

lemma contains_addr (h : b.Valid A) : b.Contains b.addr := by
  have := h.minimal
  have := A.objectAlignment_eq
  have := A.wordSize_pos
  exact ⟨le_rfl, by omega⟩

lemma contains_nextAddress (h : b.Valid A) : b.Contains (nextAddress A b.addr) := by
  have := h.minimal
  have := A.objectAlignment_eq
  have := A.wordSize_pos
  unfold Contains nextAddress
  omega

end Block.Valid

lemma Block.contains_sizeAddress (hlarge : kMaxSizeTag A < b.size) :
    b.Contains (sizeAddress A b.addr) := by
  rw [kMaxSizeTag_eq] at hlarge
  have := A.objectAlignment_eq
  unfold Contains sizeAddress nextAddress
  omega

/-- The memory holds a block as an element with the given next element. -/
structure Encodes (A : Arch) (memory : Memory) (b : Block) (nextElement : ℕ) : Prop where
  tags : memory b.addr = (elementTags (sizeToTagValue A b.size)).toNat
  size : kMaxSizeTag A < b.size → memory (sizeAddress A b.addr) = b.size
  next : next A memory b.addr = nextElement

variable {nextElement : ℕ}

section

variable (h : Encodes A memory b nextElement)

include h

lemma Encodes.congr (hb : b.Valid A) (hsame : ∀ x, b.Contains x → memory' x = memory x) :
    Encodes A memory' b nextElement where
  tags := by rw [hsame _ hb.contains_addr, h.tags]
  size hlarge := by rw [hsame _ (Block.contains_sizeAddress hlarge), h.size hlarge]
  next := by
    rw [FreeLists.next, hsame _ hb.contains_nextAddress]
    exact h.next

lemma Encodes.setNext (e : ℕ) : Encodes A (setNext A memory b.addr e) b e := by
  have hpos := A.wordSize_pos
  refine ⟨?_, fun hlarge => ?_, update_self ..⟩
  · rw [FreeLists.setNext, update_of_ne (by unfold nextAddress; omega), h.tags]
  · rw [FreeLists.setNext, update_of_ne (by unfold sizeAddress; omega), h.size hlarge]

/-- The size that the tags cannot hold is read from the third word. -/
lemma Encodes.heapSize_eq (hb : b.Valid A) : heapSize A memory b.addr = b.size := by
  have hpos : 0 < A.objectAlignment := Nat.two_pow_pos _
  have hmin := hb.minimal
  have htags : sizeOfTags A (BitVec.ofNat 32 (memory b.addr)) =
      sizeToTagValue A b.size * A.objectAlignment := by
    have hlt : sizeToTagValue A b.size < 256 := by
      unfold sizeToTagValue
      split_ifs with hlarge
      · decide
      · rw [kMaxSizeTag_eq] at hlarge
        rw [Nat.shiftRight_eq_div_pow]
        exact Nat.div_lt_of_lt_mul (by unfold Arch.objectAlignment at hlarge hpos; omega)
    rw [h.tags, sizeOfTags, BitVec.ofNat_toNat, BitVec.setWidth_eq, decode_elementTags _ hlt,
      Nat.shiftLeft_eq]
    rfl
  rw [heapSize, htags, sizeToTagValue]
  by_cases hlarge : kMaxSizeTag A < b.size
  · rw [if_pos hlarge, zero_mul, if_neg (not_not.mpr rfl), h.size hlarge]
  · have hsize : b.size >>> A.objectAlignmentLog2 * A.objectAlignment = b.size := by
      rw [shiftRight_eq_div_pow]
      exact Nat.div_mul_cancel hb.alignedSize
    rw [if_neg hlarge, hsize, if_pos (by omega)]

end

lemma asElement_eq (hb : b.Valid A) (memory : Memory) :
    asElement A b.addr b.size memory = .ok (writeElement A b.addr b.size memory) := by
  have halign : b.addr &&& A.wordSize = 0 := by
    obtain ⟨q, hq⟩ := hb.alignedAddr
    rw [hq, Arch.objectAlignment, Arch.objectAlignmentLog2, Arch.wordSize]
    refine eq_of_testBit_eq fun i => ?_
    rw [testBit_and, testBit_two_pow, testBit_two_pow_mul, zero_testBit]
    by_cases hi : A.wordSizeLog2 = i
    · rw [decide_eq_false (by omega), Bool.false_and, Bool.false_and]
    · rw [decide_eq_false hi, Bool.and_false]
  rw [asElement, check_of (decide_eq_true hb.minimal), ok_bind,
    check_of (decide_eq_true (mod_eq_zero_of_dvd hb.alignedSize)), ok_bind,
    check_of (decide_eq_true halign), ok_bind]

lemma encodes_writeElement (b : Block) (memory : Memory) :
    Encodes A (writeElement A b.addr b.size memory) b 0 := by
  have hpos := A.wordSize_pos
  refine ⟨?_, fun hlarge => ?_, update_self ..⟩
  · rw [writeElement, setNext, update_of_ne (by unfold nextAddress; omega)]
    split_ifs
    · rw [update_of_ne (by unfold sizeAddress nextAddress; omega), update_self]
    · rw [update_self]
  · rw [writeElement, setNext, update_of_ne (by unfold sizeAddress; omega),
      if_pos hlarge, update_self]

lemma writeElement_of_not_contains (hb : b.Valid A) (memory : Memory) {x : ℕ}
    (hx : ¬ b.Contains x) : writeElement A b.addr b.size memory x = memory x := by
  have haddr : x ≠ b.addr := fun h => hx (h ▸ hb.contains_addr)
  have hnext : x ≠ nextAddress A b.addr := fun h => hx (h ▸ hb.contains_nextAddress)
  rw [writeElement, setNext, update_of_ne hnext]
  split_ifs with hlarge
  · have hsize : x ≠ sizeAddress A b.addr := fun h => hx (h ▸ Block.contains_sizeAddress hlarge)
    rw [update_of_ne hsize, update_of_ne haddr]
  · rw [update_of_ne haddr]

/-- The elements from `head` on. -/
def Chain (A : Arch) (memory : Memory) : ℕ → List Block → Prop
  | head, [] => head = 0
  | head, b :: rest =>
    head = b.addr ∧ ∃ nextElement, Encodes A memory b nextElement ∧
      Chain A memory nextElement rest

variable {head : ℕ} {blocks : List Block}

section

variable (h : Chain A memory head blocks)

include h

/-- A list can be read as long as nothing is written into its blocks. -/
lemma Chain.congr (hok : ∀ b ∈ blocks, b.Valid A)
    (hsame : ∀ b ∈ blocks, ∀ x, b.Contains x → memory' x = memory x) :
    Chain A memory' head blocks := by
  induction blocks generalizing head with
  | nil => exact h
  | cons b rest ih =>
    obtain ⟨rfl, nextElement, henc, hrest⟩ := h
    refine ⟨rfl, nextElement, henc.congr (hok b mem_cons_self)
      (hsame b mem_cons_self), ih hrest (fun c hc => hok c (mem_cons_of_mem _ hc))
      fun c hc => hsame c (mem_cons_of_mem _ hc)⟩

lemma Chain.head_eq_zero_iff (hok : ∀ b ∈ blocks, b.Valid A) : head = 0 ↔ blocks = [] := by
  cases blocks with
  | nil => exact ⟨fun _ => rfl, fun _ => h⟩
  | cons b rest =>
    obtain ⟨rfl, -⟩ := h
    have := (hok b mem_cons_self).notNull
    simp [this]

lemma Chain.encodes (hb : b ∈ blocks) : ∃ nextElement, Encodes A memory b nextElement := by
  induction blocks generalizing head with
  | nil => exact absurd hb not_mem_nil
  | cons c rest ih =>
    obtain ⟨rfl, nextElement, henc, hrest⟩ := h
    rcases mem_cons.mp hb with rfl | hb
    · exact ⟨nextElement, henc⟩
    · exact ih hrest hb

end

lemma Chain.unlink {before after : List Block} {previous b : Block}
    (h : Chain A memory head (before ++ previous :: b :: after))
    (hok : ∀ c ∈ before ++ previous :: b :: after, c.Valid A)
    (hdisj : (before ++ previous :: b :: after).Pairwise Block.Disjoint)
    (hb : Encodes A memory b nextElement) :
    Chain A (setNext A memory previous.addr nextElement) head (before ++ previous :: after) := by
  induction before generalizing head with
  | nil =>
    obtain ⟨rfl, _, hprev, rfl, nextElement', hb', hafter⟩ := h
    obtain rfl : nextElement = nextElement' := hb.next.symm.trans hb'.next
    refine ⟨rfl, nextElement, hprev.setNext nextElement, hafter.congr ?_ ?_⟩
    · exact fun c hc => hok c (mem_cons_of_mem _ (mem_cons_of_mem _ hc))
    · intro c hc x hx
      have hpc := (pairwise_cons.mp hdisj).1 c (mem_cons_of_mem _ hc)
      have hnext := (hok previous mem_cons_self).contains_nextAddress
      refine update_of_ne (fun heq => hpc.not_contains ?_ hx) _ _
      rw [heq]
      exact hnext
  | cons c rest ih =>
    obtain ⟨rfl, _, hc, hrest⟩ := h
    refine ⟨rfl, _, hc.congr (hok c mem_cons_self) ?_,
      ih hrest (fun d hd => hok d (mem_cons_of_mem _ hd)) (pairwise_cons.mp hdisj).2⟩
    intro x hx
    have hprev : previous ∈ rest ++ previous :: b :: after := by simp
    have hcp := (pairwise_cons.mp hdisj).1 previous hprev
    have hnext := (hok previous (mem_cons_of_mem _ hprev)).contains_nextAddress
    refine update_of_ne (fun heq => hcp.not_contains hx ?_) _ _
    rw [heq]
    exact hnext

end

end

open Checked BitSets

def kNumLists : ℕ := 128

def kInitialFreeListSearchBudget : ℤ := 1000

structure FreeList (A : Arch) where
  memory : Memory
  freeMap : BitSet A.bitsPerWordLog2 kNumLists
  /-- The first element of each list, or null. -/
  freeLists : ℕ → ℕ
  freelistSearchBudget : ℤ
  lastFreeSmallSize : ℤ

variable {A : Arch}

/-- The list after `Reset`. -/
def reset (A : Arch) (memory : Memory) : FreeList A where
  memory := memory
  freeMap := BitSet.reset _ _
  freeLists := fun _ => 0
  freelistSearchBudget := kInitialFreeListSearchBudget
  lastFreeSmallSize := -1

def sizeClass (A : Arch) (size : ℕ) : ℕ :=
  let index := size >>> A.objectAlignmentLog2
  if kNumLists ≤ index then kNumLists else index

def indexForSize (A : Arch) (size : ℕ) : Result ℕ := do
  check (A.objectAlignment ≤ size)
  check (size % A.objectAlignment = 0)
  .ok (sizeClass A size)

def enqueueElement (element index : ℕ) (s : FreeList A) : Result (FreeList A) := do
  let next := s.freeLists index
  let s ← if next = 0 ∧ index ≠ kNumLists then do
      let freeMap ← s.freeMap.set index true
      let size : ℤ := ((index <<< A.objectAlignmentLog2 : ℕ) : ℤ)
      .ok { s with freeMap := freeMap, lastFreeSmallSize := max s.lastFreeSmallSize size }
    else .ok s
  .ok { s with
    memory := setNext A s.memory element next
    freeLists := Function.update s.freeLists index element }

/-- The bit and the largest small size when the list `index` loses its last element. -/
def clearIndex (index : ℕ) (s : FreeList A) : Result (FreeList A) := do
  let size : ℤ := ((index <<< A.objectAlignmentLog2 : ℕ) : ℤ)
  if size = s.lastFreeSmallSize then do
    let (freeMap, previous) ← s.freeMap.clearLastAndFindPrevious index
    .ok { s with freeMap := freeMap, lastFreeSmallSize := previous * A.objectAlignment }
  else do
    let freeMap ← s.freeMap.set index false
    .ok { s with freeMap := freeMap }

def dequeueElement (index : ℕ) (s : FreeList A) : Result (FreeList A × ℕ) := do
  let result := s.freeLists index
  if result = 0 then .error .fatal
  else do
    let nextElement := next A s.memory result
    let s ← if nextElement = 0 ∧ index ≠ kNumLists then clearIndex index s else .ok s
    .ok ({ s with freeLists := Function.update s.freeLists index nextElement }, result)

def splitElementAfterAndEnqueue (element size : ℕ) (s : FreeList A) : Result (FreeList A) := do
  let remainderSize : ℤ := (heapSize A s.memory element : ℤ) - size
  if remainderSize = 0 then .ok s
  else do
    let memory ← asElement A (element + size) remainderSize.toNat s.memory
    let remainderIndex ← indexForSize A remainderSize.toNat
    enqueueElement (element + size) remainderIndex { s with memory := memory }

/-- Whether a block of the exact size can be taken from a small list. -/
def hasElements (index : ℕ) (s : FreeList A) : Result Bool :=
  if index ≠ kNumLists then s.freeMap.test index else .ok false

/-- The small lists in `TryAllocateLocked` and `TryAllocateSmallLocked`. -/
def allocateFromSmall (index size : ℕ) (s : FreeList A) : Result (Option (FreeList A × ℕ)) := do
  let found ← hasElements index s
  if found then do
    let (s, element) ← dequeueElement index s
    .ok (some (s, element))
  else if index + 1 < kNumLists then do
    let nextIndex ← s.freeMap.next (index + 1)
    if nextIndex ≠ -1 then do
      let (s, element) ← dequeueElement nextIndex.toNat s
      let s ← splitElementAfterAndEnqueue element size s
      .ok (some (s, element))
    else .ok none
  else .ok none

/-- How a search of the large list ends. -/
inductive Search
  | found (previous current : ℕ) (triesLeft : ℤ)
  | endOfList
  | overBudget

/-- One round of the search: the previous element, the current one and the tries left. -/
def searchBody (memory : Memory) (minimumSize : ℕ) :
    ℕ × ℕ × ℤ → Result ((ℕ × ℕ × ℤ) ⊕ Search)
  | (previous, current, triesLeft) =>
    if current = 0 then .ok (.inr .endOfList)
    else if minimumSize ≤ heapSize A memory current then
      .ok (.inr (.found previous current triesLeft))
    else if triesLeft < 0 then .ok (.inr .overBudget)
    else .ok (.inl (current, next A memory current, triesLeft - 1))

def searchTries (size : ℕ) (s : FreeList A) : ℤ :=
  s.freelistSearchBudget + ((size >>> A.wordSizeLog2 : ℕ) : ℤ)

/-- The search of the large list in `TryAllocateLocked` and `TryAllocateLargeLocked`. -/
def searchLarge (size : ℕ) (s : FreeList A) : Result Search :=
  loop (searchBody (A := A) s.memory size) ((searchTries size s).toNat + 3)
    (0, s.freeLists kNumLists, searchTries size s)

/-- Takes an element found by a search out of the large list. -/
def unlinkLarge (previous current : ℕ) (triesLeft : ℤ) (s : FreeList A) : FreeList A :=
  let s := if previous = 0 then
      { s with freeLists := Function.update s.freeLists kNumLists (next A s.memory current) }
    else { s with memory := setNext A s.memory previous (next A s.memory current) }
  { s with freelistSearchBudget := min triesLeft kInitialFreeListSearchBudget }

def tryAllocateLocked (size : ℕ) (s : FreeList A) : Result (FreeList A × ℕ) := do
  let index ← indexForSize A size
  match ← allocateFromSmall index size s with
  | some (s, element) => .ok (s, element)
  | none =>
    match ← searchLarge size s with
    | .found previous current triesLeft => do
        let s ← splitElementAfterAndEnqueue current size
          (unlinkLarge previous current triesLeft s)
        .ok (s, current)
    | .endOfList => .ok (s, 0)
    | .overBudget => .ok ({ s with freelistSearchBudget := kInitialFreeListSearchBudget }, 0)

def tryAllocateSmallLocked (size : ℕ) (s : FreeList A) : Result (FreeList A × ℕ) :=
  if s.lastFreeSmallSize < size then .ok (s, 0)
  else do
    let index ← indexForSize A size
    match ← allocateFromSmall index size s with
    | some (s, element) => .ok (s, element)
    | none => .ok (s, 0)

def tryAllocateLargeLocked (minimumSize : ℕ) (s : FreeList A) : Result (FreeList A × ℕ) := do
  match ← searchLarge minimumSize s with
  | .found previous current triesLeft => .ok (unlinkLarge previous current triesLeft s, current)
  | .endOfList => .ok (s, 0)
  | .overBudget => .ok ({ s with freelistSearchBudget := kInitialFreeListSearchBudget }, 0)

def freeLocked (addr size : ℕ) (s : FreeList A) : Result (FreeList A) := do
  let index ← indexForSize A size
  let memory ← asElement A addr size s.memory
  enqueueElement addr index { s with memory := memory }

end DartSdk.FreeLists
