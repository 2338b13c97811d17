import Mathlib

/-!
Spill slots of the linear scan register allocator (`FlowGraphAllocator::AllocateSpillSlotFor`). A
slot is reused when the position at which its last value dies is not after the start of the new
range. The position never decreases, so it bounds the ends of all ranges that were ever given the
slot, whatever the order in which they are spilled. Ranges for vectors take pairs of slots, which
are found by their lower index because both halves always expire together.
-/

namespace DartSdk.SpillSlots

inductive Representation where
  | tagged
  | untagged
  | unboxedInt32
  | unboxedUint32
  | unboxedInt64
  | unboxedFloat
  | unboxedDouble
  | unboxedFloat32x4
  | unboxedInt32x4
  | unboxedFloat64x2
  deriving DecidableEq, Repr

def Representation.isQuad : Representation → Bool
  | unboxedFloat32x4 => true
  | unboxedInt32x4 => true
  | unboxedFloat64x2 => true
  | _ => false

/-- The representations that are allocated to floating-point registers. -/
def Representation.isFpu : Representation → Bool
  | unboxedFloat => true
  | unboxedDouble => true
  | r => r.isQuad

/-- The positions from the start of the first use interval of a range to the end of its last. -/
structure Span where
  start : ℕ
  stop : ℕ
  nonempty : start < stop

/-- A live range that was split into siblings. -/
structure LiveRange where
  representation : Representation
  span : Span
  siblings : List Span
  ordered : List.IsChain (fun a b : Span => a.stop ≤ b.start) (span :: siblings)

def lastSibling : Span → List Span → Span
  | span, [] => span
  | _, next :: rest => lastSibling next rest

namespace LiveRange

def start (r : LiveRange) : ℕ := r.span.start

/-- The end of the last sibling. -/
def stop (r : LiveRange) : ℕ := (lastSibling r.span r.siblings).stop

lemma start_lt_stop_lastSibling (span : Span) (siblings : List Span)
    (h : List.IsChain (fun a b : Span => a.stop ≤ b.start) (span :: siblings)) :
    span.start < (lastSibling span siblings).stop := by
  induction siblings generalizing span with
  | nil => exact span.nonempty
  | cons next rest ih =>
    obtain ⟨hle, hrest⟩ := List.isChain_cons_cons.mp h
    have hnext := ih next hrest
    have hspan := span.nonempty
    show span.start < (lastSibling next rest).stop
    omega

lemma start_lt_stop (r : LiveRange) : r.start < r.stop :=
  start_lt_stop_lastSibling r.span r.siblings r.ordered

/-- The values of the two ranges are never alive at the same position. -/
def Disjoint (r r' : LiveRange) : Prop := r.stop ≤ r'.start ∨ r'.stop ≤ r.start

end LiveRange

inductive RegisterKind where
  | cpu
  | fpu
  deriving DecidableEq, Repr

/-- A spill slot: the position at which its value is dead, and its type. -/
structure Slot where
  expiration : ℕ
  quad : Bool
  untagged : Bool
  deriving DecidableEq

def maxPosition : ℕ := 0x7FFFFFFF

/-- A stack location by the lowest of its frame slots. -/
inductive Location where
  | stackSlot (index : ℤ)
  | doubleStackSlot (index : ℤ)
  | quadStackSlot (index : ℤ)
  deriving DecidableEq

/-- What the frame of the function fixes. -/
structure Frame where
  /-- The slots that are reserved for catch entries. -/
  fixedSlotCount : ℕ
  /-- The words of a double, `kDoubleSize / kWordSize`. -/
  doubleSpillFactor : ℕ
  firstLocalFromFp : ℤ
  factor_pos : 0 < doubleSpillFactor

namespace Frame

variable (f : Frame)

/-- `FrameLayout::FrameSlotForVariableIndex`, for the indices of local variables. -/
def frameSlotForVariableIndex (index : ℤ) : ℤ := index + f.firstLocalFromFp

def Covers : Location → ℤ → Prop
  | .stackSlot index, w => w = index
  | .doubleStackSlot index, w => index ≤ w ∧ w < index + f.doubleSpillFactor
  | .quadStackSlot index, w => index ≤ w ∧ w < index + 2 * f.doubleSpillFactor

end Frame

/-- The part of the allocator that deals with spill slots. -/
structure Allocator where
  registerKind : RegisterKind
  slots : List Slot
  cpuSpillSlotCount : ℕ
  /-- The ranges that were given a slot, the last one first. -/
  spilled : List (LiveRange × Location)

namespace Allocator

variable (f : Frame) (s : Allocator)

def needQuad (r : LiveRange) : Bool :=
  decide (s.registerKind = .fpu) && r.representation.isQuad

def needUntagged (r : LiveRange) : Bool :=
  decide (s.registerKind = .cpu) && decide (r.representation = .untagged)

/-- The value in the slot is dead and its type matches. -/
def fits (r : LiveRange) (slot : Slot) : Bool :=
  decide (s.needQuad r = slot.quad) && decide (s.needUntagged r = slot.untagged) &&
    decide (slot.expiration ≤ r.start)

def firstSlot : ℕ :=
  match s.registerKind with
  | .cpu => f.fixedSlotCount
  | .fpu => 0

/-- The first slot that fits, or the number of slots, reserved ones included. -/
def findSlot (r : LiveRange) : ℕ :=
  s.firstSlot f + (s.slots.drop (s.firstSlot f)).findIdx (s.fits r)

/-- The slots with those up to the index reserved. -/
def padded (idx : ℕ) : List Slot :=
  s.slots ++ List.replicate (idx - s.slots.length) ⟨maxPosition, false, false⟩

/-- The slots with a new one at the index if there is none, or two for a quad. -/
def extended (r : LiveRange) (idx : ℕ) : List Slot :=
  if idx = (s.padded idx).length then
    s.padded idx ++ List.replicate (if s.needQuad r then 2 else 1)
      ⟨0, s.needQuad r, s.needUntagged r⟩
  else s.padded idx

end Allocator

def setExpiration (slots : List Slot) (idx position : ℕ) : List Slot :=
  slots.modify idx fun slot => {slot with expiration := position}

namespace Allocator

variable (f : Frame) (s : Allocator)

/-- The location of a slot for the range; for a quad the index is the higher one. -/
def locationOf (r : LiveRange) (idx : ℕ) : Location :=
  match s.registerKind with
  | .cpu => .stackSlot (f.frameSlotForVariableIndex (-idx))
  | .fpu =>
    -- The slot with the lowest address has the highest index.
    let slotIdx := f.frameSlotForVariableIndex
      (-(s.cpuSpillSlotCount + idx * f.doubleSpillFactor + (f.doubleSpillFactor - 1)))
    if r.representation.isQuad then .quadStackSlot slotIdx else .doubleStackSlot slotIdx

def allocateSpillSlotFor (r : LiveRange) : Allocator :=
  let idx := s.findSlot f r
  let slots := setExpiration (s.extended r idx) idx r.stop
  if s.needQuad r then
    {s with
      slots := setExpiration slots (idx + 1) r.stop
      spilled := (r, s.locationOf f r (idx + 1)) :: s.spilled}
  else
    {s with
      slots := slots
      spilled := (r, s.locationOf f r idx) :: s.spilled}

/-- What happens to the slots between the allocation of the two kinds of registers. -/
def startFpu : Allocator :=
  {s with
    registerKind := .fpu
    slots := []
    cpuSpillSlotCount := max s.slots.length f.fixedSlotCount}

end Allocator

/-- The allocator after parameters and constants took the first slots, until the given positions. -/
def initial (ends : List ℕ) : Allocator where
  registerKind := .cpu
  slots := ends.map fun stop => ⟨stop, false, false⟩
  cpuSpillSlotCount := 0
  spilled := []

/-- Spill ranges of the one kind of registers, then of the other. -/
def run (f : Frame) (ends : List ℕ)
    (cpu : List {r : LiveRange // r.representation.isFpu = false})
    (fpu : List {r : LiveRange // r.representation.isFpu = true}) : Allocator :=
  (fpu.map Subtype.val).foldl (Allocator.allocateSpillSlotFor f)
    (((cpu.map Subtype.val).foldl (Allocator.allocateSpillSlotFor f) (initial ends)).startFpu f)

open List Nat Option

lemma getElem?_setExpiration (slots : List Slot) (idx position i : ℕ) :
    (setExpiration slots idx position)[i]? =
      slots[i]?.map fun slot => if idx = i then {slot with expiration := position} else slot := by
  unfold setExpiration
  rw [List.getElem?_modify]
  rfl

variable {slot : Slot}

namespace Allocator

variable (f : Frame) (s : Allocator) (r : LiveRange)

/-- The highest index of the slots that the range is given from the index on. -/
def lastIndex (idx : ℕ) : ℕ := if s.needQuad r then idx + 1 else idx

lemma le_lastIndex (idx : ℕ) : idx ≤ s.lastIndex r idx := by
  unfold lastIndex
  split_ifs <;> omega

lemma findSlot_fits (h : s.findSlot f r < s.slots.length) :
    ∃ slot, s.slots[s.findSlot f r]? = some slot ∧ s.fits r slot = true := by
  unfold findSlot at h ⊢
  have hlt : (s.slots.drop (s.firstSlot f)).findIdx (s.fits r) <
      (s.slots.drop (s.firstSlot f)).length := by
    rw [length_drop]
    omega
  refine ⟨_, ?_, @List.findIdx_getElem _ (s.fits r) _ hlt⟩
  rw [← List.getElem?_drop]
  exact List.getElem?_eq_getElem hlt

lemma not_fits_of_lt_findSlot {i : ℕ} (hfirst : s.firstSlot f ≤ i) (hlt : i < s.findSlot f r)
    (hslot : s.slots[i]? = some slot) : s.fits r slot = false := by
  unfold findSlot at hlt
  have hidx : i - s.firstSlot f < (s.slots.drop (s.firstSlot f)).findIdx (s.fits r) := by omega
  have hnot := not_of_lt_findIdx hidx
  have hget : (s.slots.drop (s.firstSlot f))[i - s.firstSlot f]? = some slot := by
    rw [List.getElem?_drop, Nat.add_sub_cancel' hfirst, hslot]
  rw [List.getElem?_eq_some_iff] at hget
  obtain ⟨hlen, heq⟩ := hget
  rw [← heq]
  exact hnot

lemma length_padded (idx : ℕ) : (s.padded idx).length = max s.slots.length idx := by
  unfold padded
  rw [length_append, length_replicate]
  omega

variable {idx : ℕ}

lemma padded_of_le (h : idx ≤ s.slots.length) : s.padded idx = s.slots := by
  unfold padded
  rw [Nat.sub_eq_zero_of_le h, replicate_zero, append_nil]

lemma extended_of_lt (h : idx < s.slots.length) : s.extended r idx = s.slots := by
  unfold extended
  rw [s.padded_of_le h.le, if_neg h.ne]

lemma extended_of_le (h : s.slots.length ≤ idx) :
    s.extended r idx = s.padded idx ++
      List.replicate (if s.needQuad r then 2 else 1) ⟨0, s.needQuad r, s.needUntagged r⟩ := by
  unfold extended
  rw [length_padded, max_eq_right h, if_pos rfl]

lemma getElem?_extended_of_lt {idx i : ℕ} (hi : i < s.slots.length) :
    (s.extended r idx)[i]? = s.slots[i]? := by
  rcases lt_or_ge idx s.slots.length with h | h
  · rw [s.extended_of_lt r h]
  · have hpadded : i < (s.padded idx).length := by
      rw [length_padded]
      omega
    rw [s.extended_of_le r h, List.getElem?_append_left hpadded, padded,
      List.getElem?_append_left hi]

lemma getElem?_extended_new {idx i : ℕ} (h : s.slots.length ≤ idx) (hle : idx ≤ i)
    (hlast : i ≤ s.lastIndex r idx) :
    (s.extended r idx)[i]? = some ⟨0, s.needQuad r, s.needUntagged r⟩ := by
  have hlen : (s.padded idx).length = idx := by rw [length_padded, max_eq_right h]
  rw [s.extended_of_le r h, List.getElem?_append_right (by omega), hlen, List.getElem?_replicate]
  unfold lastIndex at hlast
  rw [if_pos (by split_ifs at hlast ⊢ <;> omega)]

lemma quad_extended_other {i : ℕ} (hi : s.slots.length ≤ i)
    (hother : ¬(idx ≤ i ∧ i ≤ s.lastIndex r idx)) (hslot : (s.extended r idx)[i]? = some slot) :
    slot.quad = false := by
  rcases lt_or_ge idx s.slots.length with h | h
  · rw [s.extended_of_lt r h, List.getElem?_eq_none hi] at hslot
    cases hslot
  · have hlen : (s.padded idx).length = idx := by rw [length_padded, max_eq_right h]
    rw [s.extended_of_le r h] at hslot
    rcases lt_or_ge i idx with hlt | hge
    · rw [List.getElem?_append_left (by omega), padded, List.getElem?_append_right hi,
        List.getElem?_replicate, if_pos (by omega)] at hslot
      cases hslot
      rfl
    · rw [List.getElem?_append_right (by omega), hlen, List.getElem?_replicate] at hslot
      unfold lastIndex at hother
      rw [if_neg (by split_ifs at hother ⊢ <;> omega)] at hslot
      cases hslot

lemma getElem?_allocate (i : ℕ) :
    (s.allocateSpillSlotFor f r).slots[i]? =
      (s.extended r (s.findSlot f r))[i]?.map fun slot =>
        if s.findSlot f r ≤ i ∧ i ≤ s.lastIndex r (s.findSlot f r) then
          {slot with expiration := r.stop}
        else slot := by
  unfold allocateSpillSlotFor lastIndex
  cases hquad : s.needQuad r with
  | true =>
    rw [if_pos rfl]
    rw [getElem?_setExpiration, getElem?_setExpiration, Option.map_map]
    simp only [↓reduceIte]
    split_ifs <;> first | rfl | omega
  | false =>
    rw [if_neg Bool.false_ne_true]
    rw [getElem?_setExpiration]
    simp only [Bool.false_eq_true, ↓reduceIte]
    split_ifs <;> first | rfl | omega

lemma spilled_allocate :
    (s.allocateSpillSlotFor f r).spilled =
      (r, s.locationOf f r (s.lastIndex r (s.findSlot f r))) :: s.spilled := by
  unfold allocateSpillSlotFor lastIndex
  split_ifs <;> rfl

lemma registerKind_allocate : (s.allocateSpillSlotFor f r).registerKind = s.registerKind := by
  unfold allocateSpillSlotFor
  split_ifs <;> rfl

lemma cpuSpillSlotCount_allocate :
    (s.allocateSpillSlotFor f r).cpuSpillSlotCount = s.cpuSpillSlotCount := by
  unfold allocateSpillSlotFor
  split_ifs <;> rfl

end Allocator

/-- The quad slots are pairs that begin at the marked indices and expire together. -/
structure Pairs (slots : List Slot) (first : ℕ → Prop) : Prop where
  pair : ∀ i, first i → ∃ a b, slots[i]? = some a ∧ slots[i + 1]? = some b ∧ a.quad = true ∧
    b.quad = true ∧ b.untagged = a.untagged ∧ b.expiration = a.expiration
  covered : ∀ i a, slots[i]? = some a → a.quad = true → first i ∨ ∃ j, i = j + 1 ∧ first j
  apart : ∀ i, first i → ¬first (i + 1)

lemma Pairs.lt_length {slots : List Slot} {first : ℕ → Prop} (h : Pairs slots first) {i : ℕ}
    (hi : first i) : i + 1 < slots.length := by
  obtain ⟨a, b, -, hb, -⟩ := h.pair i hi
  exact (List.getElem?_eq_some_iff.mp hb).1

namespace Allocator

variable {f : Frame} {s : Allocator} {r : LiveRange} {first : ℕ → Prop}

lemma fits_iff :
    s.fits r slot = true ↔
      slot.quad = s.needQuad r ∧ slot.untagged = s.needUntagged r ∧ slot.expiration ≤ r.start := by
  unfold fits
  rw [Bool.and_eq_true_iff, Bool.and_eq_true_iff, decide_eq_true_iff, decide_eq_true_iff,
    decide_eq_true_iff, eq_comm, eq_comm (a := s.needUntagged r), and_assoc]

lemma first_findSlot (hpairs : Pairs s.slots first) (hquad : s.needQuad r = true)
    (hlt : s.findSlot f r < s.slots.length) : first (s.findSlot f r) := by
  obtain ⟨slot, hslot, hfits⟩ := s.findSlot_fits f r hlt
  obtain ⟨hslotQuad, huntagged, hexpired⟩ := fits_iff.mp hfits
  rcases hpairs.covered _ slot hslot (hslotQuad.trans hquad) with hfirst | ⟨j, hj, hfirst⟩
  · exact hfirst
  · exfalso
    obtain ⟨a, b, ha, hb, haQuad, -, hsameTag, hsameExpiration⟩ := hpairs.pair j hfirst
    rw [← hj, hslot] at hb
    cases hb
    have hfpu : s.registerKind = .fpu := of_decide_eq_true (Bool.and_eq_true_iff.mp hquad).1
    have hzero : s.firstSlot f ≤ j := by
      unfold firstSlot
      rw [hfpu]
      exact zero_le j
    have hnot := s.not_fits_of_lt_findSlot f r hzero (by omega) ha
    have hfitsA : s.fits r a = true := fits_iff.mpr
      ⟨haQuad.trans hquad.symm, hsameTag.symm.trans huntagged, hsameExpiration ▸ hexpired⟩
    rw [hfitsA] at hnot
    cases hnot

variable {i : ℕ}

section

variable (hpairs : Pairs s.slots first)

include hpairs

lemma slots_available (hle : s.findSlot f r ≤ i) (hlast : i ≤ s.lastIndex r (s.findSlot f r))
    (hslot : s.slots[i]? = some slot) :
    slot.quad = s.needQuad r ∧ slot.untagged = s.needUntagged r ∧ slot.expiration ≤ r.start := by
  have hlt : s.findSlot f r < s.slots.length :=
    hle.trans_lt (List.getElem?_eq_some_iff.mp hslot).1
  obtain ⟨a, ha, hfits⟩ := s.findSlot_fits f r hlt
  obtain ⟨hquadA, huntaggedA, hexpiredA⟩ := fits_iff.mp hfits
  rcases hle.eq_or_lt with heq | hgt
  · rw [heq, hslot] at ha
    cases ha
    exact ⟨hquadA, huntaggedA, hexpiredA⟩
  · -- Only a quad is given a second slot, the other half of the pair.
    unfold lastIndex at hlast
    cases hquad : s.needQuad r with
    | false =>
      rw [hquad, if_neg Bool.false_ne_true] at hlast
      omega
    | true =>
      rw [hquad, if_pos rfl] at hlast
      obtain ⟨a', b, ha', hb, -, hbQuad, hbTag, hbExpiration⟩ :=
        hpairs.pair _ (first_findSlot hpairs hquad hlt)
      rw [ha] at ha'
      cases ha'
      have hi : i = s.findSlot f r + 1 := by omega
      rw [hi, hb] at hslot
      cases hslot
      exact ⟨hbQuad, hbTag.trans huntaggedA, hbExpiration ▸ hexpiredA⟩

omit hpairs in
lemma getElem?_allocate_other {i : ℕ}
    (hother : ¬(s.findSlot f r ≤ i ∧ i ≤ s.lastIndex r (s.findSlot f r))) :
    (s.allocateSpillSlotFor f r).slots[i]? = (s.extended r (s.findSlot f r))[i]? := by
  rw [getElem?_allocate]
  simp only [if_neg hother, Option.map_id']

lemma getElem?_allocate_own {i : ℕ} (hle : s.findSlot f r ≤ i)
    (hlast : i ≤ s.lastIndex r (s.findSlot f r)) :
    (s.allocateSpillSlotFor f r).slots[i]? = some ⟨r.stop, s.needQuad r, s.needUntagged r⟩ := by
  rw [getElem?_allocate]
  simp only [if_pos (And.intro hle hlast)]
  rcases lt_or_ge (s.findSlot f r) s.slots.length with hlt | hge
  · have hi : i < s.slots.length := by
      unfold lastIndex at hlast
      cases hquad : s.needQuad r with
      | false =>
        rw [hquad, if_neg Bool.false_ne_true] at hlast
        omega
      | true =>
        rw [hquad, if_pos rfl] at hlast
        have hpair := hpairs.lt_length (first_findSlot hpairs hquad hlt)
        omega
    have hslot : s.slots[i]? = some (s.slots.get ⟨i, hi⟩) := List.getElem?_eq_getElem hi
    obtain ⟨hquad, huntagged, -⟩ := slots_available hpairs hle hlast hslot
    rw [s.extended_of_lt r hlt, hslot]
    simp only [map_some, hquad, huntagged]
  · rw [s.getElem?_extended_new r hge hle hlast]
    rfl

/-- The lower indices of the pairs after the allocation. -/
def firstAfter (f : Frame) (s : Allocator) (r : LiveRange) (first : ℕ → Prop) (i : ℕ) : Prop :=
  first i ∨ s.needQuad r = true ∧ i = s.findSlot f r

/-- A pair that is not given to the range is left alone. -/
lemma pair_not_own (hi : first i) (hne : ¬(s.needQuad r = true ∧ i = s.findSlot f r)) :
    ¬(s.findSlot f r ≤ i ∧ i ≤ s.lastIndex r (s.findSlot f r)) ∧
      ¬(s.findSlot f r ≤ i + 1 ∧ i + 1 ≤ s.lastIndex r (s.findSlot f r)) := by
  have hlen := hpairs.lt_length hi
  obtain ⟨a, b, ha, hb, haQuad, hbQuad, -, -⟩ := hpairs.pair i hi
  cases hquad : s.needQuad r with
  | false =>
    -- The one slot of the range is not a quad.
    constructor
    · rintro ⟨hle, hlast⟩
      have hmatch := (slots_available hpairs hle hlast ha).1
      rw [haQuad, hquad] at hmatch
      cases hmatch
    · rintro ⟨hle, hlast⟩
      have hmatch := (slots_available hpairs hle hlast hb).1
      rw [hbQuad, hquad] at hmatch
      cases hmatch
  | true =>
    have hneSlot : i ≠ s.findSlot f r := fun h => hne ⟨hquad, h⟩
    have hlastIndex : s.lastIndex r (s.findSlot f r) = s.findSlot f r + 1 := by
      unfold lastIndex
      rw [hquad, if_pos rfl]
    rcases lt_or_ge (s.findSlot f r) s.slots.length with hlt | hge
    · have hown := first_findSlot hpairs hquad hlt
      have hpre : i + 1 ≠ s.findSlot f r := fun h => hpairs.apart i hi (h ▸ hown)
      have hafter : i ≠ s.findSlot f r + 1 := fun h => hpairs.apart _ hown (h ▸ hi)
      omega
    · omega

lemma pairs_allocate :
    Pairs (s.allocateSpillSlotFor f r).slots (firstAfter f s r first) where
  pair i hi := by
    by_cases hown : s.needQuad r = true ∧ i = s.findSlot f r
    · obtain ⟨hquad, rfl⟩ := hown
      have hlast : s.lastIndex r (s.findSlot f r) = s.findSlot f r + 1 := by
        unfold lastIndex
        rw [hquad, if_pos rfl]
      refine ⟨_, _, getElem?_allocate_own hpairs le_rfl (s.le_lastIndex r _),
        getElem?_allocate_own hpairs (le_succ _) hlast.ge, hquad, hquad, rfl, rfl⟩
    · have hfirst : first i := hi.resolve_right hown
      have hlen := hpairs.lt_length hfirst
      obtain ⟨hother, hother'⟩ := pair_not_own hpairs hfirst hown
      rw [getElem?_allocate_other hother, getElem?_allocate_other hother',
        s.getElem?_extended_of_lt r (by omega), s.getElem?_extended_of_lt r hlen]
      exact hpairs.pair i hfirst
  covered i a ha hquad := by
    by_cases hown : s.findSlot f r ≤ i ∧ i ≤ s.lastIndex r (s.findSlot f r)
    · rw [getElem?_allocate_own hpairs hown.1 hown.2] at ha
      cases ha
      have hneed : s.needQuad r = true := hquad
      unfold lastIndex at hown
      rw [hneed, if_pos rfl] at hown
      rcases hown.1.eq_or_lt with heq | hgt
      · exact .inl (.inr ⟨hneed, heq.symm⟩)
      · exact .inr ⟨s.findSlot f r, by omega, .inr ⟨hneed, rfl⟩⟩
    · rw [getElem?_allocate_other hown] at ha
      rcases lt_or_ge i s.slots.length with hlt | hge
      · rw [s.getElem?_extended_of_lt r hlt] at ha
        rcases hpairs.covered i a ha hquad with hfirst | ⟨j, hj, hfirst⟩
        · exact .inl (.inl hfirst)
        · exact .inr ⟨j, hj, .inl hfirst⟩
      · rw [s.quad_extended_other r hge hown ha] at hquad
        cases hquad
  apart i hi hnext := by
    rcases lt_or_ge (s.findSlot f r) s.slots.length with hlt | hge
    · -- The range was given an old pair.
      have hold : ∀ j, firstAfter f s r first j → first j := by
        rintro j (hj | ⟨hquad, rfl⟩)
        · exact hj
        · exact first_findSlot hpairs hquad hlt
      exact hpairs.apart i (hold i hi) (hold (i + 1) hnext)
    · rcases hi with hi | ⟨hquad, hi⟩
      · have hlen := hpairs.lt_length hi
        rcases hnext with hnext | ⟨-, hnext⟩
        · exact hpairs.apart i hi hnext
        · omega
      · rcases hnext with hnext | ⟨-, hnext⟩
        · have hlen := hpairs.lt_length hnext
          omega
        · omega

end

/-- The frame slot belongs to the spill slot with the index. -/
def WordOf (f : Frame) (s : Allocator) (i : ℕ) (w : ℤ) : Prop :=
  match s.registerKind with
  | .cpu => w = f.frameSlotForVariableIndex (-i)
  | .fpu => ∃ j < f.doubleSpillFactor,
      w = f.frameSlotForVariableIndex (-(s.cpuSpillSlotCount + i * f.doubleSpillFactor + j))

lemma WordOf.unique {i' : ℕ} {w : ℤ} (h : WordOf f s i w) (h' : WordOf f s i' w) : i = i' := by
  unfold WordOf at h h'
  cases hkind : s.registerKind with
  | cpu =>
    rw [hkind] at h h'
    have heq : f.frameSlotForVariableIndex (-i) = f.frameSlotForVariableIndex (-i') :=
      h.symm.trans h'
    unfold Frame.frameSlotForVariableIndex at heq
    omega
  | fpu =>
    rw [hkind] at h h'
    obtain ⟨j, hj, hw⟩ := h
    obtain ⟨j', hj', hw'⟩ := h'
    unfold Frame.frameSlotForVariableIndex at hw hw'
    have heq : i * f.doubleSpillFactor + j = i' * f.doubleSpillFactor + j' := by
      have hcast : ((i * f.doubleSpillFactor + j : ℕ) : ℤ) =
          ((i' * f.doubleSpillFactor + j' : ℕ) : ℤ) := by
        omega
      exact_mod_cast hcast
    have hdiv : ∀ n m : ℕ, m < f.doubleSpillFactor →
        (n * f.doubleSpillFactor + m) / f.doubleSpillFactor = n := by
      intro n m hm
      rw [mul_comm, mul_add_div f.factor_pos, div_eq_of_lt hm, add_zero]
    rw [← hdiv i j hj, heq, hdiv i' j' hj']

/-- The location of a range consists of the frame slots of its spill slots. -/
lemma exists_wordOf_of_covers {k : ℕ} {w : ℤ}
    (h : f.Covers (s.locationOf f r (s.lastIndex r k)) w) :
    ∃ i, k ≤ i ∧ i ≤ s.lastIndex r k ∧ WordOf f s i w := by
  unfold locationOf at h
  unfold WordOf
  cases hkind : s.registerKind with
  | cpu =>
    rw [hkind] at h
    exact ⟨_, s.le_lastIndex r k, le_rfl, h⟩
  | fpu =>
    rw [hkind] at h
    cases hquad : r.representation.isQuad with
    | false =>
      rw [hquad, if_neg Bool.false_ne_true] at h
      refine ⟨_, s.le_lastIndex r k, le_rfl, ?_⟩
      obtain ⟨hlow, hhigh⟩ := h
      unfold Frame.frameSlotForVariableIndex at hlow hhigh ⊢
      refine ⟨(f.firstLocalFromFp - w - s.cpuSpillSlotCount -
        s.lastIndex r k * f.doubleSpillFactor).toNat, by omega, by omega⟩
    | true =>
      have hneed : s.needQuad r = true := by
        unfold needQuad
        rw [hkind, hquad]
        rfl
      have hlast : s.lastIndex r k = k + 1 := by
        unfold lastIndex
        rw [hneed, if_pos rfl]
      rw [hquad, if_pos rfl, hlast] at h
      rw [hlast]
      obtain ⟨hlow, hhigh⟩ := h
      unfold Frame.frameSlotForVariableIndex at hlow hhigh ⊢
      have hmul : ((k + 1 : ℕ) : ℤ) * f.doubleSpillFactor =
          k * f.doubleSpillFactor + f.doubleSpillFactor := by
        push_cast
        ring
      by_cases hupper : f.firstLocalFromFp - w <
          s.cpuSpillSlotCount + k * f.doubleSpillFactor + f.doubleSpillFactor
      · exact ⟨k, le_rfl, le_succ k, (f.firstLocalFromFp - w - s.cpuSpillSlotCount -
          k * f.doubleSpillFactor).toNat, by omega, by omega⟩
      · refine ⟨k + 1, le_succ k, le_rfl, (f.firstLocalFromFp - w - s.cpuSpillSlotCount -
          k * f.doubleSpillFactor - f.doubleSpillFactor).toNat, by omega, ?_⟩
        omega

end Allocator

/-- The locations have a frame slot in common. -/
def Share (f : Frame) (l l' : Location) : Prop := ∃ w, f.Covers l w ∧ f.Covers l' w

/-- Of ranges that share a frame slot, both or none is untagged. -/
def SameTagging (f : Frame) (e e' : LiveRange × Location) : Prop :=
  Share f e.2 e'.2 → (e.1.representation = .untagged ↔ e'.1.representation = .untagged)

instance (f : Frame) : Std.Symm (SameTagging f) :=
  ⟨fun _ _ h ⟨w, hw, hw'⟩ => (h ⟨w, hw', hw⟩).symm⟩

/-- Ranges that share a frame slot are disjoint, and both or none of them is untagged. -/
def Compatible (f : Frame) (e e' : LiveRange × Location) : Prop :=
  Share f e.2 e'.2 → e.1.Disjoint e'.1 ∧
    (e.1.representation = .untagged ↔ e'.1.representation = .untagged)

/-- The range holds the slots from the index on. -/
structure Placed (f : Frame) (s : Allocator) (e : LiveRange × Location) (k : ℕ) : Prop where
  kind : s.registerKind = .fpu ↔ e.1.representation.isFpu = true
  location : e.2 = s.locationOf f e.1 (s.lastIndex e.1 k)
  slots : ∀ i, k ≤ i → i ≤ s.lastIndex e.1 k → ∃ slot, s.slots[i]? = some slot ∧
    slot.quad = s.needQuad e.1 ∧ slot.untagged = s.needUntagged e.1 ∧ e.1.stop ≤ slot.expiration

/-- The range was given a slot while CPU registers were allocated. -/
structure PlacedBefore (f : Frame) (s : Allocator) (e : LiveRange × Location) : Prop where
  kind : s.registerKind = .fpu
  representation : e.1.representation.isFpu = false
  location : ∃ k < s.cpuSpillSlotCount, e.2 = .stackSlot (f.frameSlotForVariableIndex (-k))

structure Invariant (f : Frame) (s : Allocator) : Prop where
  pairs : ∃ first, Pairs s.slots first
  placed : ∀ e ∈ s.spilled, (∃ k, Placed f s e k) ∨ PlacedBefore f s e
  compatible : s.spilled.Pairwise (Compatible f)

namespace Allocator

variable {f : Frame} {s : Allocator} {r : LiveRange}

lemma needQuad_allocate (r' : LiveRange) :
    (s.allocateSpillSlotFor f r).needQuad r' = s.needQuad r' := by
  unfold needQuad
  rw [registerKind_allocate]

lemma needUntagged_allocate (r' : LiveRange) :
    (s.allocateSpillSlotFor f r).needUntagged r' = s.needUntagged r' := by
  unfold needUntagged
  rw [registerKind_allocate]

lemma lastIndex_allocate (r' : LiveRange) (k : ℕ) :
    (s.allocateSpillSlotFor f r).lastIndex r' k = s.lastIndex r' k := by
  unfold lastIndex
  rw [needQuad_allocate]

lemma locationOf_allocate (r' : LiveRange) (idx : ℕ) :
    (s.allocateSpillSlotFor f r).locationOf f r' idx = s.locationOf f r' idx := by
  unfold locationOf
  rw [registerKind_allocate, cpuSpillSlotCount_allocate]

variable {first : ℕ → Prop}

lemma placed_allocate_new (hpairs : Pairs s.slots first)
    (hkind : s.registerKind = .fpu ↔ r.representation.isFpu = true) :
    Placed f (s.allocateSpillSlotFor f r)
      (r, s.locationOf f r (s.lastIndex r (s.findSlot f r))) (s.findSlot f r) where
  kind := by rw [registerKind_allocate]; exact hkind
  location := by rw [lastIndex_allocate, locationOf_allocate]
  slots i hle hlast := by
    rw [lastIndex_allocate] at hlast
    rw [needQuad_allocate, needUntagged_allocate]
    exact ⟨_, getElem?_allocate_own hpairs hle hlast, rfl, rfl, le_rfl⟩

lemma placed_allocate_old (hpairs : Pairs s.slots first)
    {e : LiveRange × Location} {k : ℕ} (h : Placed f s e k) :
    Placed f (s.allocateSpillSlotFor f r) e k where
  kind := by rw [registerKind_allocate]; exact h.kind
  location := by rw [lastIndex_allocate, locationOf_allocate]; exact h.location
  slots i hle hlast := by
    rw [lastIndex_allocate] at hlast
    rw [needQuad_allocate, needUntagged_allocate]
    obtain ⟨slot, hslot, hquad, huntagged, hstop⟩ := h.slots i hle hlast
    by_cases hown : s.findSlot f r ≤ i ∧ i ≤ s.lastIndex r (s.findSlot f r)
    · obtain ⟨hquad', huntagged', hexpired⟩ := slots_available hpairs hown.1 hown.2 hslot
      have hlt := r.start_lt_stop
      refine ⟨_, getElem?_allocate_own hpairs hown.1 hown.2, hquad'.symm.trans hquad,
        huntagged'.symm.trans huntagged, ?_⟩
      dsimp only
      omega
    · have hi : i < s.slots.length := (List.getElem?_eq_some_iff.mp hslot).1
      refine ⟨slot, ?_, hquad, huntagged, hstop⟩
      rw [getElem?_allocate_other hown, s.getElem?_extended_of_lt r hi, hslot]

lemma untagged_iff_of_needUntagged {r' : LiveRange}
    (hkind : s.registerKind = .fpu ↔ r.representation.isFpu = true)
    (hkind' : s.registerKind = .fpu ↔ r'.representation.isFpu = true)
    (h : s.needUntagged r = s.needUntagged r') :
    r.representation = .untagged ↔ r'.representation = .untagged := by
  cases hreg : s.registerKind with
  | cpu =>
    unfold needUntagged at h
    rw [hreg] at h
    exact decide_eq_decide.mp h
  | fpu =>
    have hr := hkind.mp hreg
    have hr' := hkind'.mp hreg
    constructor
    · intro heq
      rw [heq] at hr
      cases hr
    · intro heq
      rw [heq] at hr'
      cases hr'

lemma compatible_allocate (hpairs : Pairs s.slots first)
    (hkind : s.registerKind = .fpu ↔ r.representation.isFpu = true)
    {e : LiveRange × Location} (h : (∃ k, Placed f s e k) ∨ PlacedBefore f s e) :
    Compatible f (r, s.locationOf f r (s.lastIndex r (s.findSlot f r))) e := by
  rintro ⟨w, hw, hw'⟩
  obtain ⟨i, hle, hlast, hword⟩ := exists_wordOf_of_covers hw
  rcases h with ⟨k, hplaced⟩ | hpre
  · rw [hplaced.location] at hw'
    obtain ⟨i', hle', hlast', hword'⟩ := exists_wordOf_of_covers hw'
    obtain rfl := hword.unique hword'
    obtain ⟨slot, hslot, -, huntagged, hstop⟩ := hplaced.slots i hle' hlast'
    obtain ⟨-, huntagged', hexpired⟩ := slots_available hpairs hle hlast hslot
    exact ⟨.inr (hstop.trans hexpired),
      untagged_iff_of_needUntagged hkind hplaced.kind (huntagged'.symm.trans huntagged)⟩
  · exfalso
    obtain ⟨k, hk, hlocation⟩ := hpre.location
    rw [hlocation] at hw'
    have hcpu : w = f.frameSlotForVariableIndex (-k) := hw'
    unfold WordOf at hword
    rw [hpre.kind] at hword
    obtain ⟨j, hj, hfpu⟩ := hword
    unfold Frame.frameSlotForVariableIndex at hcpu hfpu
    have hnn : (0 : ℤ) ≤ i * f.doubleSpillFactor := by positivity
    omega

lemma invariant_allocate (h : Invariant f s)
    (hkind : s.registerKind = .fpu ↔ r.representation.isFpu = true) :
    Invariant f (s.allocateSpillSlotFor f r) := by
  obtain ⟨⟨first, hpairs⟩, hplaced, hcompatible⟩ := h
  refine ⟨⟨_, pairs_allocate hpairs⟩, ?_, ?_⟩
  · intro e he
    rw [spilled_allocate] at he
    rcases mem_cons.mp he with rfl | he
    · exact .inl ⟨_, placed_allocate_new hpairs hkind⟩
    · rcases hplaced e he with ⟨k, hk⟩ | hpre
      · exact .inl ⟨k, placed_allocate_old hpairs hk⟩
      · refine .inr ⟨?_, hpre.representation, ?_⟩
        · rw [registerKind_allocate]
          exact hpre.kind
        · rw [cpuSpillSlotCount_allocate]
          exact hpre.location
  · rw [spilled_allocate]
    exact pairwise_cons.mpr
      ⟨fun e he => compatible_allocate hpairs hkind (hplaced e he), hcompatible⟩

lemma invariant_foldl (ranges : List LiveRange) (h : Invariant f s)
    (hkind : ∀ r ∈ ranges, s.registerKind = .fpu ↔ r.representation.isFpu = true) :
    Invariant f (ranges.foldl (allocateSpillSlotFor f) s) ∧
      (ranges.foldl (allocateSpillSlotFor f) s).registerKind = s.registerKind ∧
      (ranges.foldl (allocateSpillSlotFor f) s).spilled.map Prod.fst =
        ranges.reverse ++ s.spilled.map Prod.fst := by
  induction ranges generalizing s with
  | nil => exact ⟨h, rfl, rfl⟩
  | cons r rest ih =>
    have hstep := invariant_allocate h (hkind r mem_cons_self)
    obtain ⟨hinv, hreg, hspilled⟩ := ih hstep fun r' hr' => by
      rw [registerKind_allocate]
      exact hkind r' (mem_cons_of_mem r hr')
    refine ⟨hinv, hreg.trans (registerKind_allocate f s r), ?_⟩
    rw [foldl_cons, hspilled, spilled_allocate, reverse_cons, append_assoc]
    rfl

lemma invariant_startFpu (h : Invariant f s) (hkind : s.registerKind = .cpu) :
    Invariant f (s.startFpu f) where
  pairs := by
    refine ⟨fun _ => False, fun _ hi => hi.elim, fun i a ha _ => ?_, fun _ hi => hi.elim⟩
    cases ha
  placed e he := by
    rcases h.placed e he with ⟨k, hk⟩ | hpre
    · right
      have hrep : e.1.representation.isFpu = false := by
        rw [Bool.eq_false_iff]
        intro hfpu
        rw [hk.kind.mpr hfpu] at hkind
        cases hkind
      obtain ⟨slot, hslot, -⟩ := hk.slots _ (s.le_lastIndex e.1 k) le_rfl
      have hlt := (List.getElem?_eq_some_iff.mp hslot).1
      refine ⟨rfl, hrep, s.lastIndex e.1 k, lt_max_of_lt_left hlt, ?_⟩
      rw [hk.location]
      unfold locationOf
      rw [hkind]
    · rw [hpre.kind] at hkind
      cases hkind
  compatible := h.compatible

end Allocator

lemma invariant_initial (f : Frame) (ends : List ℕ) : Invariant f (initial ends) where
  pairs := by
    refine ⟨fun _ => False, fun _ hi => hi.elim, fun i a ha hquad => ?_, fun _ hi => hi.elim⟩
    unfold initial at ha
    rw [List.getElem?_map] at ha
    obtain ⟨stop, -, rfl⟩ := map_eq_some_iff.mp ha
    cases hquad
  placed e he := absurd he not_mem_nil
  compatible := List.Pairwise.nil

/-- Whatever is spilled in whatever order, ranges with overlapping stack locations are disjoint, a
quad has two adjacent quad slots, and tagged and untagged values share no slot. -/
theorem spill_slots_not_shared (f : Frame) (ends : List ℕ)
    (cpu : List {r : LiveRange // r.representation.isFpu = false})
    (fpu : List {r : LiveRange // r.representation.isFpu = true}) :
    (run f ends cpu fpu).spilled.map Prod.fst =
        (fpu.map Subtype.val).reverse ++ (cpu.map Subtype.val).reverse ∧
      (run f ends cpu fpu).spilled.Pairwise
        (fun e e' => Share f e.2 e'.2 → e.1.Disjoint e'.1) ∧
      (∀ e ∈ (run f ends cpu fpu).spilled, e.1.representation.isQuad = true →
        ∃ k a b, e.2 = (run f ends cpu fpu).locationOf f e.1 (k + 1) ∧
          (run f ends cpu fpu).slots[k]? = some a ∧ (run f ends cpu fpu).slots[k + 1]? = some b ∧
          a.quad = true ∧ b.quad = true) ∧
      ∀ e ∈ (run f ends cpu fpu).spilled, ∀ e' ∈ (run f ends cpu fpu).spilled,
        e.1.representation = .tagged → e'.1.representation = .untagged → ¬Share f e.2 e'.2 := by
  have hcpuKinds : ∀ r ∈ cpu.map Subtype.val,
      (initial ends).registerKind = .fpu ↔ r.representation.isFpu = true := by
    intro r hr
    obtain ⟨⟨r, hrep⟩, -, rfl⟩ := mem_map.mp hr
    exact ⟨fun h => (by cases h), fun h => by rw [hrep] at h; cases h⟩
  have hfpuKinds : ∀ r ∈ fpu.map Subtype.val,
      RegisterKind.fpu = .fpu ↔ r.representation.isFpu = true := by
    intro r hr
    obtain ⟨⟨r, hrep⟩, -, rfl⟩ := mem_map.mp hr
    exact ⟨fun _ => hrep, fun _ => rfl⟩
  obtain ⟨hcpu, hcpuKind, hcpuSpilled⟩ :=
    Allocator.invariant_foldl (cpu.map Subtype.val) (invariant_initial f ends) hcpuKinds
  obtain ⟨hinv, hkind, hspilled⟩ := Allocator.invariant_foldl (fpu.map Subtype.val)
    (Allocator.invariant_startFpu hcpu hcpuKind) hfpuKinds
  refine ⟨?_, ?_, ?_, ?_⟩
  · exact hspilled.trans (congrArg _ (hcpuSpilled.trans (append_nil _)))
  · exact hinv.compatible.imp fun hcompatible hshare => (hcompatible hshare).1
  · intro e he hquad
    have hfpu : e.1.representation.isFpu = true := by
      cases hrep : e.1.representation <;> rw [hrep] at hquad <;> first | rfl | cases hquad
    rcases hinv.placed e he with ⟨k, hk⟩ | hbefore
    · have hneed : (run f ends cpu fpu).needQuad e.1 = true :=
        Bool.and_eq_true_iff.mpr ⟨decide_eq_true hkind, hquad⟩
      have hlast : (run f ends cpu fpu).lastIndex e.1 k = k + 1 := by
        unfold Allocator.lastIndex
        rw [hneed, if_pos rfl]
      obtain ⟨a, ha, haQuad, -⟩ := hk.slots k le_rfl (Allocator.le_lastIndex _ e.1 k)
      obtain ⟨b, hb, hbQuad, -⟩ := hk.slots (k + 1) (le_succ k) hlast.ge
      exact ⟨k, a, b, hlast ▸ hk.location, ha, hb, haQuad.trans hneed, hbQuad.trans hneed⟩
    · rw [hbefore.representation] at hfpu
      cases hfpu
  · intro e he e' he' htagged huntagged hshare
    have hall : ∀ ⦃e⦄, e ∈ (run f ends cpu fpu).spilled → ∀ ⦃e'⦄,
        e' ∈ (run f ends cpu fpu).spilled → SameTagging f e e' :=
      List.Pairwise.forall_of_forall (fun _ _ _ => Iff.rfl)
        (hinv.compatible.imp fun hcompatible hshare => (hcompatible hshare).2)
    have hboth := (hall he he' hshare).mpr huntagged
    rw [htagged] at hboth
    cases hboth

/-- A range of one interval. -/
def unsplit (representation : Representation) (start stop : ℕ) (h : start < stop) : LiveRange :=
  ⟨representation, ⟨start, stop, h⟩, [], isChain_singleton _⟩

def smallFrame : Frame := ⟨1, 1, -1, Nat.one_pos⟩

/-- Two tagged values that fit in one slot and an untagged value. -/
def smallCpu : List {r : LiveRange // r.representation.isFpu = false} :=
  [⟨unsplit .tagged 8 12 (by decide), rfl⟩, ⟨unsplit .untagged 12 14 (by decide), rfl⟩,
    ⟨unsplit .tagged 12 16 (by decide), rfl⟩]

/-- A vector. -/
def smallFpu : List {r : LiveRange // r.representation.isFpu = true} :=
  [⟨unsplit .unboxedFloat32x4 2 6 (by decide), rfl⟩]

lemma spilled_small :
    (run smallFrame [] smallCpu smallFpu).spilled =
      [(unsplit .unboxedFloat32x4 2 6 (by decide), .quadStackSlot (-5)),
        (unsplit .tagged 12 16 (by decide), .stackSlot (-2)),
        (unsplit .untagged 12 14 (by decide), .stackSlot (-3)),
        (unsplit .tagged 8 12 (by decide), .stackSlot (-2))] :=
  rfl

/-- The tagged values share the slot after the reserved one, and the untagged value has its own. -/
theorem spill_slots_not_shared_small :
    (unsplit .tagged 12 16 (by decide)).Disjoint (unsplit .tagged 8 12 (by decide)) ∧
      ¬Share smallFrame (.stackSlot (-2)) (.stackSlot (-3)) := by
  obtain ⟨-, hdisjoint, -, htagging⟩ := spill_slots_not_shared smallFrame [] smallCpu smallFpu
  rw [spilled_small] at hdisjoint htagging
  constructor
  · obtain ⟨-, hrest⟩ := pairwise_cons.mp hdisjoint
    obtain ⟨htagged, -⟩ := pairwise_cons.mp hrest
    exact htagged (unsplit .tagged 8 12 (by decide), .stackSlot (-2))
      (mem_cons_of_mem _ mem_cons_self) ⟨-2, rfl, rfl⟩
  · exact htagging (unsplit .tagged 12 16 (by decide), .stackSlot (-2))
      (mem_cons_of_mem _ mem_cons_self)
      (unsplit .untagged 12 14 (by decide), .stackSlot (-3))
      (mem_cons_of_mem _ (mem_cons_of_mem _ mem_cons_self)) rfl rfl

end DartSdk.SpillSlots
