import DartSdk.Checked
import DartSdk.Words

/-!
The open-addressing tables of runtime/vm/hash_table.h: HashTable with one payload
component, HashTables and HashMap. The backing array is the list of its entries together
with the two counters of its header; the statistics kept in the header when
`KeyTraits::ReportStats` is set are read by no function and are left out. A failed ASSERT,
the FATAL of Array::New and a probe that does not end are the failures of the model. The
invariant keeps an unused entry, and the walk of a stored key free of unused entries.
-/

namespace DartSdk.HashTable

section

open Checked PowersOfTwo SignedWords

/-- The build: the word size and whether PRODUCT is defined. -/
structure Platform where
  is64Bit : Bool
  product : Bool

namespace Platform

variable (P : Platform)

def wordBits : ℕ := if P.is64Bit then 64 else 32

/-- `Array::kMaxElements`, the quotient of kSmiMax and the size of a word. -/
def kMaxElements : ℕ := (2 ^ (P.wordBits - 2) - 1) / (P.wordBits / 8)

def kHeaderSize : ℕ := if P.product then 2 else 7

def kMetaDataSize : ℕ := 0

def kFirstKeyIndex : ℕ := P.kHeaderSize + kMetaDataSize

def kPayloadSize : ℕ := 1

def kEntrySize : ℕ := 1 + kPayloadSize

def roundUpToPowerOfTwo (x : ℕ) : ℕ :=
  let x := (x + (2 ^ P.wordBits - 1)) % 2 ^ P.wordBits
  let x := smear x 1
  let x := smear x 2
  let x := smear x 4
  let x := smear x 8
  let x := smear x 16
  let x := if P.is64Bit then smear x 32 else x
  (x + 1) % 2 ^ P.wordBits

/-- The product and the sum are of intptr_t. -/
def arrayLengthForNumOccupied (numOccupied : ℕ) : ℤ :=
  let numEntries := P.roundUpToPowerOfTwo (numOccupied + 1)
  wrap (P.wordBits - 1) (P.kFirstKeyIndex + kEntrySize * numEntries)

def isValidLength (len : ℤ) : Bool := 0 ≤ len && len ≤ P.kMaxElements

/-- `NumEntries` of a table in an array of the length. -/
def numEntries (len : ℤ) : ℕ := ((len - P.kFirstKeyIndex) / kEntrySize).toNat

end Platform

def isPowerOfTwo (x : ℕ) : Bool := x &&& (x - 1) == 0 && x != 0

/-- `IsMatch` and `Hash` of the KeyTraits. -/
structure KeyTraits (K : Type) where
  isMatch : K → K → Bool
  hash : K → ℕ
  refl : ∀ k, isMatch k k = true
  symm : ∀ k k', isMatch k k' = true → isMatch k' k = true
  trans : ∀ k k' k'', isMatch k k' = true → isMatch k' k'' = true → isMatch k k'' = true
  hash_eq : ∀ k k', isMatch k k' = true → hash k = hash k'

/-- The objects that the tables store or return by themselves. -/
structure Objects (V : Type) where
  null : V
  sentinel : V
  transitionSentinel : V

/-- The key slot of an entry: unused, deleted or occupied. -/
inductive Slot (K : Type)
  | sentinel
  | transitionSentinel
  | object (key : K)

structure Entry (K V : Type) where
  key : Slot K
  payload : V

structure Table (K V : Type) where
  entries : List (Entry K V)
  numOccupied : ℤ
  numDeleted : ℤ

variable {K V : Type}

namespace Table

def numEntries (t : Table K V) : ℕ := t.entries.length

/-- The entry at an index; `KeyIndex` asserts that there is one. -/
def entryAt (t : Table K V) (entry : ℕ) : Result (Entry K V) :=
  match t.entries[entry]? with
  | some e => .ok e
  | none => .error .assertion

def internalGetKey (t : Table K V) (entry : ℕ) : Result (Slot K) :=
  (t.entryAt entry).map Entry.key

def setEntry (t : Table K V) (entry : ℕ) (e : Entry K V) : Table K V :=
  { t with entries := t.entries.set entry e }

end Table

def Slot.isUnused : Slot K → Bool
  | .sentinel => true
  | _ => false

def Slot.isDeleted : Slot K → Bool
  | .transitionSentinel => true
  | _ => false

def Slot.isOccupied (slot : Slot K) : Bool := !slot.isUnused && !slot.isDeleted

/-- `Initialize`. The ASSERT compares with the length of an array of one entry. -/
def initializeTable (objects : Objects V) (t : Table K V) : Result (Table K V) := do
  check (t.numEntries ≥ 1)
  .ok ⟨t.entries.map fun _ => ⟨.sentinel, objects.sentinel⟩, 0, 0⟩

/-- The advance of the probe in both loops. -/
def nextProbe (t : Table K V) (probe probeDistance : ℕ) : ℕ :=
  (probe + probeDistance) &&& (t.numEntries - 1)

/-- The loop of `FindKey`, which has no bound in the source. -/
def findKeyLoop (traits : KeyTraits K) (t : Table K V) (key : K) :
    ℕ → ℕ → ℕ → Result (Option ℕ)
  | 0, _, _ => .error .diverges
  | fuel + 1, probe, probeDistance => do
      match ← t.internalGetKey probe with
      | .sentinel => .ok none
      | .transitionSentinel =>
        findKeyLoop traits t key fuel (nextProbe t probe probeDistance) (probeDistance + 1)
      | .object k =>
        if traits.isMatch key k then .ok (some probe)
        else findKeyLoop traits t key fuel (nextProbe t probe probeDistance) (probeDistance + 1)

/-- `FindKey`; `none` stands for the result -1. -/
def findKey (traits : KeyTraits K) (t : Table K V) (key : K) : Result (Option ℕ) := do
  check (t.numOccupied < t.numEntries)
  check (isPowerOfTwo t.numEntries)
  findKeyLoop traits t key t.numEntries (traits.hash key &&& (t.numEntries - 1)) 1

/-- The loop of `FindKeyOrDeletedOrUnused`: the result and `*entry`. -/
def findKeyOrDeletedOrUnusedLoop (traits : KeyTraits K) (t : Table K V) (key : K) :
    ℕ → ℕ → ℕ → Option ℕ → Result (Bool × ℕ)
  | 0, _, _, _ => .error .diverges
  | fuel + 1, probe, probeDistance, deleted => do
      match ← t.internalGetKey probe with
      | .sentinel => .ok (false, deleted.getD probe)
      | .transitionSentinel =>
        findKeyOrDeletedOrUnusedLoop traits t key fuel (nextProbe t probe probeDistance)
          (probeDistance + 1) (if deleted.isNone then some probe else deleted)
      | .object k =>
        if traits.isMatch key k then .ok (true, probe)
        else
          findKeyOrDeletedOrUnusedLoop traits t key fuel (nextProbe t probe probeDistance)
            (probeDistance + 1) deleted

def findKeyOrDeletedOrUnused (traits : KeyTraits K) (t : Table K V) (key : K) :
    Result (Bool × ℕ) := do
  check (t.numOccupied < t.numEntries)
  check (isPowerOfTwo t.numEntries)
  findKeyOrDeletedOrUnusedLoop traits t key t.numEntries
    (traits.hash key &&& (t.numEntries - 1)) 1 none

def containsKey (traits : KeyTraits K) (t : Table K V) (key : K) : Result Bool :=
  (findKey traits t key).map Option.isSome

def insertKey (t : Table K V) (entry : ℕ) (key : K) : Result (Table K V) := do
  let e ← t.entryAt entry
  check (!e.key.isOccupied)
  let t := { t with numOccupied := t.numOccupied + 1 }
  let t := if e.key.isDeleted then { t with numDeleted := t.numDeleted - 1 } else t
  let t := t.setEntry entry { e with key := .object key }
  check (t.numOccupied < t.numEntries)
  .ok t

def getPayload (t : Table K V) (entry : ℕ) : Result V := do
  let e ← t.entryAt entry
  check e.key.isOccupied
  .ok e.payload

def updatePayload (t : Table K V) (entry : ℕ) (value : V) : Result (Table K V) := do
  let e ← t.entryAt entry
  check e.key.isOccupied
  .ok (t.setEntry entry { e with payload := value })

def deleteEntry (objects : Objects V) (t : Table K V) (entry : ℕ) : Result (Table K V) := do
  let e ← t.entryAt entry
  check e.key.isOccupied
  let t ← updatePayload t entry objects.transitionSentinel
  let t := t.setEntry entry ⟨.transitionSentinel, objects.transitionSentinel⟩
  .ok { t with numOccupied := t.numOccupied - 1, numDeleted := t.numDeleted + 1 }

section

variable (P : Platform) (traits : KeyTraits K) (objects : Objects V)

/-- `HashTables::New`. The slots of the fresh array are overwritten by `Initialize`. -/
def new (initialCapacity : ℕ) : Result (Table K V) :=
  let len := P.arrayLengthForNumOccupied initialCapacity
  if P.isValidLength len then
    initializeTable objects ⟨List.replicate (P.numEntries len) ⟨.sentinel, objects.null⟩, 0, 0⟩
  else .error .fatal

/-- The loop of `Copy` over the entries of `from` that the iterator has yet to visit. -/
def copyLoop : List (Entry K V) → Table K V → Result (Table K V)
  | [], toTable => .ok toTable
  | e :: rest, toTable =>
    match e.key with
    | .object key => do
        let (present, toEntry) ← findKeyOrDeletedOrUnused traits toTable key
        check (!present)
        let toTable ← insertKey toTable toEntry key
        let toTable ← updatePayload toTable toEntry e.payload
        copyLoop rest toTable
    | _ => copyLoop rest toTable

def copy (fromTable toTable : Table K V) : Result (Table K V) := do
  let toTable ← initializeTable objects toTable
  check (fromTable.numOccupied < toTable.numEntries)
  copyLoop traits fromTable.entries toTable

/-- `EnsureLoadFactor`. Quotients of doubles by a power of two are exact, and `high` is the value of
the double. -/
def ensureLoadFactor (high : ℚ) (t : Table K V) : Result (Table K V) := do
  let current : ℚ := (1 + t.numOccupied + t.numDeleted) / t.numEntries
  let tooManyDeleted : Bool := t.numOccupied ≤ t.numDeleted
  if current < high && !tooManyDeleted then .ok t
  else
    let newCapacity := t.numOccupied * 2 + 1
    check (t.numOccupied == 0 ||
      ((1 + t.numOccupied : ℚ) / P.roundUpToPowerOfTwo newCapacity.toNat ≤ high : Bool))
    let newTable ← new P objects newCapacity.toNat
    copy traits objects t newTable

/-- The double 0.71. -/
def kMaxLoadFactor : ℚ := 799388933858263 / 1125899906842624

def ensureCapacity (t : Table K V) : Result (Table K V) :=
  ensureLoadFactor P traits objects kMaxLoadFactor t

/-- `GetOrNull`: the result and `*present`. -/
def getOrNull (t : Table K V) (key : K) : Result (V × Bool) := do
  match ← findKey traits t key with
  | none => .ok (objects.null, false)
  | some entry => .ok (← getPayload t entry, true)

def updateOrInsert (t : Table K V) (key : K) (value : V) : Result (Table K V × Bool) := do
  let t ← ensureCapacity P traits objects t
  let (present, entry) ← findKeyOrDeletedOrUnused traits t key
  let t ← if !present then insertKey t entry key else .ok t
  let t ← updatePayload t entry value
  .ok (t, present)

def updateValue (t : Table K V) (key : K) (value : V) : Result (Table K V) := do
  match ← findKey traits t key with
  | none => .error .assertion
  | some entry => updatePayload t entry value

def insertOrGetValue (t : Table K V) (key : K) (valueIfAbsent : V) : Result (Table K V × V) := do
  let t ← ensureCapacity P traits objects t
  let (present, entry) ← findKeyOrDeletedOrUnused traits t key
  if !present then
    let t ← insertKey t entry key
    let t ← updatePayload t entry valueIfAbsent
    .ok (t, valueIfAbsent)
  else .ok (t, ← getPayload t entry)

def remove (t : Table K V) (key : K) : Result (Table K V × Bool) := do
  match ← findKey traits t key with
  | none => .ok (t, false)
  | some entry => .ok (← deleteEntry objects t entry, true)

def clear (t : Table K V) : Result (Table K V) := initializeTable objects t

end

end

open Checked PowersOfTwo List Option

variable {K V : Type}

namespace Table

def keyAt (t : Table K V) (s : ℕ) : Option (Slot K) := t.entries[s]?.map Entry.key

variable {t : Table K V} {s : ℕ}

lemma internalGetKey_of_keyAt {slot : Slot K}
    (h : t.keyAt s = some slot) : t.internalGetKey s = .ok slot := by
  obtain ⟨e, he, rfl⟩ := map_eq_some_iff.mp h
  simp only [internalGetKey, entryAt, he]
  rfl

lemma keyAt_lt {slot : Slot K} (h : t.keyAt s = some slot) : s < t.numEntries := by
  obtain ⟨e, he, -⟩ := map_eq_some_iff.mp h
  exact (List.getElem?_eq_some_iff.mp he).1

lemma exists_keyAt (h : s < t.numEntries) : ∃ slot, t.keyAt s = some slot := by
  unfold keyAt
  rw [List.getElem?_eq_getElem h]
  exact ⟨_, rfl⟩

def countOccupied (t : Table K V) : ℕ := t.entries.countP fun e => e.key.isOccupied

def countDeleted (t : Table K V) : ℕ := t.entries.countP fun e => e.key.isDeleted

def countUnused (t : Table K V) : ℕ := t.entries.countP fun e => e.key.isUnused

lemma count_states (t : Table K V) :
    t.countOccupied + t.countDeleted + t.countUnused = t.numEntries := by
  unfold countOccupied countDeleted countUnused numEntries
  induction t.entries with
  | nil => rfl
  | cons e rest ih =>
    simp only [countP_cons, length_cons]
    have hone : (if e.key.isOccupied then 1 else 0) + (if e.key.isDeleted then 1 else 0) +
        (if e.key.isUnused then 1 else 0) = 1 := by
      cases e.key <;> rfl
    omega

lemma exists_unused (h : 0 < t.countUnused) : ∃ s, t.keyAt s = some .sentinel := by
  obtain ⟨e, he, hunused⟩ := countP_pos_iff.mp h
  obtain ⟨s, hs⟩ := mem_iff_getElem?.mp he
  refine ⟨s, ?_⟩
  rw [keyAt, hs, map_some]
  cases hkey : e.key with
  | sentinel => rfl
  | transitionSentinel => simp [hkey, Slot.isUnused] at hunused
  | object k => simp [hkey, Slot.isUnused] at hunused

end Table

/-- The `i`-th entry that a probe for `key` visits in a table of `2 ^ m` entries. -/
def visited (traits : KeyTraits K) (m : ℕ) (key : K) (i : ℕ) : ℕ :=
  triangularSlot m (traits.hash key) i

lemma visited_congr (traits : KeyTraits K) (m : ℕ) {key key' : K}
    (h : traits.isMatch key key' = true) : visited traits m key = visited traits m key' := by
  funext i
  rw [visited, visited, traits.hash_eq key key' h]

/-- A table between two operations. -/
structure Invariant (P : Platform) (traits : KeyTraits K) (m : ℕ) (t : Table K V) : Prop where
  size : t.numEntries = 2 ^ m
  valid : P.kFirstKeyIndex + Platform.kEntrySize * t.numEntries ≤ P.kMaxElements
  occupied : t.numOccupied = t.countOccupied
  deleted : t.numDeleted = t.countDeleted
  unused : 0 < t.countUnused
  /-- The walk of a stored key meets no unused entry before the key. -/
  reachable : ∀ s k, t.keyAt s = some (.object k) →
    ∃ i, visited traits m k i = s ∧ ∀ j < i, t.keyAt (visited traits m k j) ≠ some .sentinel
  distinct : ∀ s s' k k', t.keyAt s = some (.object k) → t.keyAt s' = some (.object k') →
    traits.isMatch k k' = true → s = s'

section

variable {P : Platform} {traits : KeyTraits K} {m : ℕ} {t : Table K V}

lemma and_pred_eq_mod (x m : ℕ) : x &&& (2 ^ m - 1) = x % 2 ^ m :=
  Nat.and_two_pow_sub_one_eq_mod x m

lemma isPowerOfTwo_two_pow (m : ℕ) : isPowerOfTwo (2 ^ m) = true := by
  unfold isPowerOfTwo
  simp

section

variable (h : Invariant P traits m t)

include h

lemma Invariant.numOccupied_lt : t.numOccupied < t.numEntries := by
  have hcnt := t.count_states
  have hunused := h.unused
  rw [h.occupied]
  omega

lemma Invariant.visited_lt (key : K) (i : ℕ) : visited traits m key i < t.numEntries := by
  rw [h.size]
  exact triangularSlot_lt m _ i

lemma Invariant.nextProbe_visited (key : K) (i : ℕ) :
    nextProbe t (visited traits m key i) (i + 1) = visited traits m key (i + 1) := by
  rw [nextProbe, h.size, and_pred_eq_mod]
  exact (triangularSlot_succ m _ i).symm

lemma Invariant.first_visited (key : K) :
    traits.hash key &&& (t.numEntries - 1) = visited traits m key 0 := by
  rw [h.size, and_pred_eq_mod]
  exact (triangularSlot_zero m _).symm

end

/-- An entry that a probe for `key` passes over. -/
def Passed (traits : KeyTraits K) (t : Table K V) (key : K) (s : ℕ) : Prop :=
  t.keyAt s = some .transitionSentinel ∨
    ∃ k, t.keyAt s = some (.object k) ∧ traits.isMatch key k = false

/-- The walk for `key` stops at its step `u`. -/
structure StopsAt (traits : KeyTraits K) (m : ℕ) (t : Table K V) (key : K) (u : ℕ) : Prop where
  lt : u < 2 ^ m
  passed : ∀ j < u, Passed traits t key (visited traits m key j)
  stop : t.keyAt (visited traits m key u) = some .sentinel ∨
    ∃ k, t.keyAt (visited traits m key u) = some (.object k) ∧ traits.isMatch key k = true

variable {key : K}

lemma Passed.ne_sentinel {s : ℕ} (h : Passed traits t key s) : t.keyAt s ≠ some .sentinel := by
  rcases h with h | ⟨k, h, -⟩
  · rw [h]
    simp
  · rw [h]
    simp

lemma passed_or_stop (key : K) (s : ℕ) (hs : s < t.numEntries) :
    Passed traits t key s ∨ t.keyAt s = some .sentinel ∨
      ∃ k, t.keyAt s = some (.object k) ∧ traits.isMatch key k = true := by
  obtain ⟨slot, hslot⟩ := t.exists_keyAt hs
  cases slot with
  | sentinel => exact .inr (.inl hslot)
  | transitionSentinel => exact .inl (.inl hslot)
  | object k =>
    cases hmatch : traits.isMatch key k with
    | true => exact .inr (.inr ⟨k, hslot, hmatch⟩)
    | false => exact .inl (.inr ⟨k, hslot, hmatch⟩)

/-- Every walk stops, since it visits all entries and one is unused. -/
lemma Invariant.exists_stopsAt (h : Invariant P traits m t) (key : K) :
    ∃ u, StopsAt traits m t key u := by
  obtain ⟨s, hs⟩ := t.exists_unused h.unused
  obtain ⟨i, hi, hvisit⟩ := triangularSlot_surjective m (traits.hash key) s
    (h.size ▸ t.keyAt_lt hs)
  have hex : ∃ u, ¬ Passed traits t key (visited traits m key u) := by
    refine ⟨i, fun hpassed => hpassed.ne_sentinel ?_⟩
    rw [visited, hvisit, hs]
  classical
  have hle : Nat.find hex ≤ i := Nat.find_min' hex fun hpassed => hpassed.ne_sentinel (by
    rw [visited, hvisit, hs])
  refine ⟨Nat.find hex, by omega, fun j hj => not_not.mp (Nat.find_min hex hj), ?_⟩
  exact (passed_or_stop key _ (h.visited_lt key _)).resolve_left (Nat.find_spec hex)

variable {u : ℕ}

section

variable (h : Invariant P traits m t)

include h

lemma Invariant.absent_of_unused (hstop : StopsAt traits m t key u)
    (hunused : t.keyAt (visited traits m key u) = some .sentinel) (s : ℕ) (k : K)
    (hk : t.keyAt s = some (.object k)) : traits.isMatch key k = false := by
  cases hmatch : traits.isMatch key k with
  | false => rfl
  | true =>
    obtain ⟨i, hvisit, hpre⟩ := h.reachable s k hk
    rw [← visited_congr traits m hmatch] at hvisit hpre
    rcases lt_trichotomy i u with hlt | rfl | hgt
    · rcases hstop.passed i hlt with hpass | ⟨k', hpass, hno⟩
      · rw [hvisit, hk] at hpass
        cases hpass
      · rw [hvisit, hk] at hpass
        cases hpass
        exact absurd hmatch (by rw [hno]; decide)
    · rw [hvisit, hk] at hunused
      cases hunused
    · exact absurd hunused (hpre u hgt)

lemma findKeyLoop_eq (hstop : StopsAt traits m t key u) (i fuel : ℕ) (hi : i ≤ u)
    (hfuel : u < i + fuel) :
    (t.keyAt (visited traits m key u) = some .sentinel ∧
        findKeyLoop traits t key fuel (visited traits m key i) (i + 1) = .ok none) ∨
      ∃ k, t.keyAt (visited traits m key u) = some (.object k) ∧ traits.isMatch key k = true ∧
        findKeyLoop traits t key fuel (visited traits m key i) (i + 1) =
          .ok (some (visited traits m key u)) := by
  -- Induction on the fuel, the walk having u - i steps left.
  induction fuel generalizing i with
  | zero => omega
  | succ fuel ih =>
    rcases lt_or_eq_of_le hi with hlt | rfl
    · have hnext := ih (i + 1) hlt (by omega)
      rcases hstop.passed i hlt with hdel | ⟨k, hocc, hno⟩
      · rw [findKeyLoop, t.internalGetKey_of_keyAt hdel, ok_bind, h.nextProbe_visited]
        exact hnext
      · rw [findKeyLoop, t.internalGetKey_of_keyAt hocc, ok_bind, h.nextProbe_visited]
        simp only [hno, Bool.false_eq_true, if_false]
        exact hnext
    · rcases hstop.stop with hunused | ⟨k, hocc, hyes⟩
      · refine .inl ⟨hunused, ?_⟩
        rw [findKeyLoop, t.internalGetKey_of_keyAt hunused, ok_bind]
      · refine .inr ⟨k, hocc, hyes, ?_⟩
        rw [findKeyLoop, t.internalGetKey_of_keyAt hocc, ok_bind]
        simp only [hyes, if_true]

lemma Invariant.findKey_spec (key : K) :
    (findKey traits t key = .ok none ∧
        ∀ s k, t.keyAt s = some (.object k) → traits.isMatch key k = false) ∨
      ∃ s k, findKey traits t key = .ok (some s) ∧ t.keyAt s = some (.object k) ∧
        traits.isMatch key k = true := by
  obtain ⟨u, hstop⟩ := h.exists_stopsAt key
  have hloop := findKeyLoop_eq h hstop 0 t.numEntries zero_le
    (by rw [h.size]; have := hstop.lt; omega)
  have hfind : findKey traits t key =
      findKeyLoop traits t key t.numEntries (visited traits m key 0) (0 + 1) := by
    rw [findKey, check_of (decide_eq_true h.numOccupied_lt), ok_bind, h.size,
      check_of (isPowerOfTwo_two_pow m), ok_bind, ← h.size, h.first_visited]
  rw [← hfind] at hloop
  rcases hloop with ⟨hunused, hres⟩ | ⟨k, hocc, hyes, hres⟩
  · exact .inl ⟨hres, h.absent_of_unused hstop hunused⟩
  · exact .inr ⟨_, k, hres, hocc, hyes⟩

/-- An entry on the walk of `key` where the key may be inserted. -/
structure Insertable (traits : KeyTraits K) (m : ℕ) (t : Table K V) (key : K) (s : ℕ) : Prop where
  free : t.keyAt s = some .sentinel ∨ t.keyAt s = some .transitionSentinel
  reachable : ∃ i, visited traits m key i = s ∧
    ∀ j < i, t.keyAt (visited traits m key j) ≠ some .sentinel

lemma findKeyOrDeletedOrUnusedLoop_eq (hstop : StopsAt traits m t key u) (i fuel : ℕ)
    (deleted : Option ℕ) (hi : i ≤ u) (hfuel : u < i + fuel)
    (hdeleted : ∀ s, deleted = some s → Insertable traits m t key s) :
    (t.keyAt (visited traits m key u) = some .sentinel ∧ ∃ s,
        findKeyOrDeletedOrUnusedLoop traits t key fuel (visited traits m key i) (i + 1) deleted =
          .ok (false, s) ∧ Insertable traits m t key s) ∨
      ∃ k, t.keyAt (visited traits m key u) = some (.object k) ∧ traits.isMatch key k = true ∧
        findKeyOrDeletedOrUnusedLoop traits t key fuel (visited traits m key i) (i + 1) deleted =
          .ok (true, visited traits m key u) := by
  induction fuel generalizing i deleted with
  | zero => omega
  | succ fuel ih =>
    rcases lt_or_eq_of_le hi with hlt | rfl
    · rcases hstop.passed i hlt with hdel | ⟨k, hocc, hno⟩
      · rw [findKeyOrDeletedOrUnusedLoop, t.internalGetKey_of_keyAt hdel, ok_bind,
          h.nextProbe_visited]
        refine ih (i + 1) _ hlt (by omega) ?_
        intro s hs
        split at hs
        · cases hs
          exact ⟨.inr hdel, i, rfl, fun j hj => (hstop.passed j (by omega)).ne_sentinel⟩
        · exact hdeleted s hs
      · rw [findKeyOrDeletedOrUnusedLoop, t.internalGetKey_of_keyAt hocc, ok_bind,
          h.nextProbe_visited]
        simp only [hno, Bool.false_eq_true, if_false]
        exact ih (i + 1) deleted hlt (by omega) hdeleted
    · rcases hstop.stop with hunused | ⟨k, hocc, hyes⟩
      · refine .inl ⟨hunused, deleted.getD (visited traits m key i), ?_, ?_⟩
        · rw [findKeyOrDeletedOrUnusedLoop, t.internalGetKey_of_keyAt hunused, ok_bind]
        · cases deleted with
          | none => exact ⟨.inl hunused, i, rfl, fun j hj => (hstop.passed j hj).ne_sentinel⟩
          | some s => exact hdeleted s rfl
      · refine .inr ⟨k, hocc, hyes, ?_⟩
        rw [findKeyOrDeletedOrUnusedLoop, t.internalGetKey_of_keyAt hocc, ok_bind]
        simp only [hyes, if_true]

/-- `FindKeyOrDeletedOrUnused` yields a matching key or, when there is none, an entry where it may
be inserted. -/
lemma Invariant.findKeyOrDeletedOrUnused_spec (key : K) :
    (∃ s, findKeyOrDeletedOrUnused traits t key = .ok (false, s) ∧ Insertable traits m t key s ∧
        ∀ s' k, t.keyAt s' = some (.object k) → traits.isMatch key k = false) ∨
      ∃ s k, findKeyOrDeletedOrUnused traits t key = .ok (true, s) ∧
        t.keyAt s = some (.object k) ∧ traits.isMatch key k = true := by
  obtain ⟨u, hstop⟩ := h.exists_stopsAt key
  have hloop := findKeyOrDeletedOrUnusedLoop_eq h hstop 0 t.numEntries none zero_le
    (by rw [h.size]; have := hstop.lt; omega) (by simp)
  have hfind : findKeyOrDeletedOrUnused traits t key =
      findKeyOrDeletedOrUnusedLoop traits t key t.numEntries (visited traits m key 0) (0 + 1)
        none := by
    rw [findKeyOrDeletedOrUnused, check_of (decide_eq_true h.numOccupied_lt), ok_bind, h.size,
      check_of (isPowerOfTwo_two_pow m), ok_bind, ← h.size, h.first_visited]
  rw [← hfind] at hloop
  rcases hloop with ⟨hunused, s, hres, hins⟩ | ⟨k, hocc, hyes, hres⟩
  · exact .inl ⟨s, hres, hins, h.absent_of_unused hstop hunused⟩
  · exact .inr ⟨_, k, hres, hocc, hyes⟩

end

end

end DartSdk.HashTable
