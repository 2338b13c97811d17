import DartSdk.Words
import DartSdk.Tables

/-!
The class `ListQueue` of sdk/lib/collection/queue.dart with its iterator. An element may be
null, which is `none`. Callbacks are programs that use the queue themselves, and so do the
callers: a program goes on after an exception of the queue, which is an answer here, while an
access outside a list, a failed assertion or a loop without end stops the run. An iterable
that is not a list and that uses the queue while it is walked is a program of `addLast`. Seen
from the head, the table holds the elements in order and then only null.
-/

namespace DartSdk.ListQueue

section

open Checked Buffers

variable {α O : Type}

structure Queue (α : Type) where
  table : List (Option α)
  head : ℕ
  tail : ℕ
  modificationCount : ℕ
  deriving DecidableEq

/-- What the methods throw. -/
inductive Thrown
  | noElement
  | tooMany
  | index
  | concurrentModification
  | user
  deriving DecidableEq

def newList (length : ℕ) : List (Option α) := List.replicate length none

def read (list : List (Option α)) (i : ℕ) : Result (Option α) :=
  match list[i]? with
  | some element => .ok element
  | none => .error .outOfBounds

def write (list : List (Option α)) (i : ℕ) (element : Option α) : Result (List (Option α)) :=
  if i < list.length then .ok (list.set i element) else .error .outOfBounds

/-- `target.setRange(first, last, source, skipCount)` from another list. -/
def setRange (target : List (Option α)) (first last : ℕ) (source : List (Option α))
    (skipCount : ℕ) : Result (List (Option α)) :=
  if target.length < first then .error .outOfBounds
  else if last < first ∨ target.length < last then .error .outOfBounds
  else if last - first = 0 then .ok target
  else if source.length < skipCount + (last - first) then .error .outOfBounds
  else .ok (overwrite target first ((source.drop skipCount).take (last - first)))

/-- `offset & (length - 1)`. -/
def wrap (offset : ℤ) (length : ℕ) : ℕ := (offset.land ((length - 1 : ℕ) : ℤ)).toNat

def initialCapacity : ℕ := 8

def isPowerOf2 (number : ℕ) : Bool := number &&& (number - 1) == 0

def nextPowerOf2 (number : ℕ) : Result ℕ := do
  check (0 < number)
  let number := number <<< 1 - 1
  loop (fun number =>
    let nextNumber := number &&& (number - 1)
    if nextNumber = 0 then .ok (.inr number) else .ok (.inl nextNumber)) (number + 1) number

/-- Copies the elements in order to the front of the target, and counts them. -/
def writeToList (q : Queue α) (target : List (Option α)) : Result (ℕ × List (Option α)) := do
  check (wrap ((q.tail : ℤ) - q.head) q.table.length ≤ target.length)
  if q.head ≤ q.tail then do
    let length := q.tail - q.head
    let target ← setRange target 0 length q.table q.head
    .ok (length, target)
  else do
    let firstPartSize := q.table.length - q.head
    let target ← setRange target 0 firstPartSize q.table q.head
    let target ← setRange target firstPartSize (firstPartSize + q.tail) q.table 0
    .ok (q.tail + firstPartSize, target)

/-- Doubles a table that is full. -/
def grow (q : Queue α) : Result (Queue α) := do
  let newTable := newList (q.table.length * 2)
  let split := q.table.length - q.head
  let newTable ← setRange newTable 0 split q.table q.head
  let newTable ← setRange newTable split (split + q.head) q.table 0
  .ok { q with head := 0, tail := q.table.length, table := newTable }

def growIfFull (q : Queue α) : Result (Queue α) := if q.head = q.tail then grow q else .ok q

def modified (q : Queue α) : Queue α := { q with modificationCount := q.modificationCount + 1 }

def isEmpty (q : Queue α) : Bool := q.head == q.tail

def length (q : Queue α) : ℕ := wrap ((q.tail : ℤ) - q.head) q.table.length

def preGrow (q : Queue α) (newElementCount : ℕ) : Result (Queue α) := do
  check (length q ≤ newElementCount)
  let newElementCount := newElementCount + newElementCount >>> 1
  let newCapacity ← nextPowerOf2 newElementCount
  let (tail, newTable) ← writeToList q (newList newCapacity)
  .ok { q with tail, table := newTable, head := 0 }

def first (q : Queue α) : Result (Except Thrown (Option α)) :=
  if q.head = q.tail then .ok (.error .noElement)
  else do
    let element ← read q.table q.head
    .ok (.ok element)

def last (q : Queue α) : Result (Except Thrown (Option α)) :=
  if q.head = q.tail then .ok (.error .noElement)
  else do
    let element ← read q.table (wrap ((q.tail : ℤ) - 1) q.table.length)
    .ok (.ok element)

def single (q : Queue α) : Result (Except Thrown (Option α)) :=
  if q.head = q.tail then .ok (.error .noElement)
  else if 1 < length q then .ok (.error .tooMany)
  else do
    let element ← read q.table q.head
    .ok (.ok element)

def elementAt (q : Queue α) (index : ℤ) : Result (Except Thrown (Option α)) :=
  if 0 > index ∨ index ≥ length q then .ok (.error .index)
  else do
    let element ← read q.table (wrap (q.head + index) q.table.length)
    .ok (.ok element)

def toList (q : Queue α) : Result (List (Option α)) := do
  let (_, list) ← writeToList q (newList (length q))
  .ok list

/-- `_add`, which is also `add` and `addLast`. -/
def addLast (q : Queue α) (value : Option α) : Result (Queue α) := do
  let table ← write q.table q.tail value
  let q := { q with table, tail := wrap (q.tail + 1) table.length }
  let q ← growIfFull q
  .ok (modified q)

def addFirst (q : Queue α) (value : Option α) : Result (Queue α) := do
  let head := wrap ((q.head : ℤ) - 1) q.table.length
  let table ← write q.table head value
  let q ← growIfFull { q with head, table }
  .ok (modified q)

/-- The argument of `addAll`. -/
inductive Elements (α : Type)
  | list (elements : List (Option α))
  | iterable (elements : List (Option α))

def addAll (q : Queue α) : Elements α → Result (Queue α)
  | .list list => do
      let addCount := list.length
      let length := length q
      if q.table.length ≤ length + addCount then do
        let q ← preGrow q (length + addCount)
        let table ← setRange q.table length (length + addCount) list 0
        .ok (modified { q with table, tail := q.tail + addCount })
      else
        let endSpace := q.table.length - q.tail
        if addCount < endSpace then do
          let table ← setRange q.table q.tail (q.tail + addCount) list 0
          .ok (modified { q with table, tail := q.tail + addCount })
        else do
          let preSpace := addCount - endSpace
          let table ← setRange q.table q.tail (q.tail + endSpace) list 0
          let table ← setRange table 0 preSpace list endSpace
          .ok (modified { q with table, tail := preSpace })
  | .iterable elements => elements.foldlM addLast q

/-- `_remove`: moves the elements on the shorter side and returns the slot of the element that
follows. -/
def removeSlot (q : Queue α) (offset : ℕ) : Result (ℕ × Queue α) :=
  let n := q.table.length
  let startDistance := wrap ((offset : ℤ) - q.head) n
  let endDistance := wrap ((q.tail : ℤ) - offset) n
  if startDistance < endDistance then do
    let table ← loop (fun (s : List (Option α) × ℕ) =>
      if s.2 = q.head then .ok (.inr s.1)
      else do
        let prevOffset := wrap ((s.2 : ℤ) - 1) n
        let element ← read s.1 prevOffset
        let table ← write s.1 s.2 element
        .ok (.inl (table, prevOffset))) n (q.table, offset)
    let table ← write table q.head none
    .ok (wrap (offset + 1) n, { q with table, head := wrap (q.head + 1) n })
  else do
    let tail := wrap ((q.tail : ℤ) - 1) n
    let table ← loop (fun (s : List (Option α) × ℕ) =>
      if s.2 = tail then .ok (.inr s.1)
      else do
        let nextOffset := wrap (s.2 + 1) n
        let element ← read s.1 nextOffset
        let table ← write s.1 s.2 element
        .ok (.inl (table, nextOffset))) n (q.table, offset)
    let table ← write table tail none
    .ok (offset, { q with table, tail })

def removeFirst (q : Queue α) : Result (Except Thrown (Option α) × Queue α) :=
  if q.head = q.tail then .ok (.error .noElement, q)
  else do
    let q := modified q
    let result ← read q.table q.head
    let table ← write q.table q.head none
    .ok (.ok result, { q with table, head := wrap (q.head + 1) table.length })

def removeLast (q : Queue α) : Result (Except Thrown (Option α) × Queue α) :=
  if q.head = q.tail then .ok (.error .noElement, q)
  else do
    let q := modified q
    let tail := wrap ((q.tail : ℤ) - 1) q.table.length
    let result ← read q.table tail
    let table ← write q.table tail none
    .ok (.ok result, { q with table, tail })

/-- `remove(value)`, where `equals element value` is `element == value`. -/
def remove (equals : Option α → O → Bool) (q : Queue α) (value : O) : Result (Bool × Queue α) :=
  loop (fun i =>
    if i = q.tail then .ok (.inr (false, q))
    else do
      let element ← read q.table i
      if equals element value then do
        let (_, q) ← removeSlot q i
        .ok (.inr (true, modified q))
      else .ok (.inl (wrap (i + 1) q.table.length))) q.table.length q.head

def clear (q : Queue α) : Result (Queue α) :=
  if q.head ≠ q.tail then do
    let table ← loop (fun (s : List (Option α) × ℕ) =>
      if s.2 = q.tail then .ok (.inr s.1)
      else do
        let table ← write s.1 s.2 none
        .ok (.inl (table, wrap (s.2 + 1) table.length))) q.table.length (q.table, q.head)
    .ok (modified { q with table, head := 0, tail := 0 })
  else .ok q

/-- The length of the table for the capacity that is asked for, if any. -/
def tableCapacity : Option ℤ → Result ℕ
  | none => .ok initialCapacity
  | some capacity =>
    if capacity < initialCapacity then .ok initialCapacity
    else if isPowerOf2 capacity.toNat then .ok capacity.toNat
    else nextPowerOf2 capacity.toNat

/-- `ListQueue([initialCapacity])`. -/
def empty (capacity : Option ℤ) : Result (Queue α) := do
  let capacity ← tableCapacity capacity
  check (isPowerOf2 capacity)
  .ok ⟨newList capacity, 0, 0, 0⟩

inductive Construction (α : Type)
  | empty (capacity : Option ℤ)
  | fromList (elements : List (Option α))
  /-- `ListQueue.from` of another iterable, with its length if it has one at hand. -/
  | fromIterable (length : Option ℤ) (elements : List (Option α))
  /-- `ListQueue.of`. -/
  | of (elements : Elements α)

def construct : Construction α → Result (Queue α)
  | .empty capacity => empty capacity
  | .fromList elements => do
      let length := elements.length
      let queue ← empty (some (length + 1))
      check (length < queue.table.length)
      let table ← forUp length (fun i table => do
        let element ← read elements i
        write table i element) queue.table
      .ok { queue with table, tail := length }
  | .fromIterable length elements => do
      let capacity := length.getD initialCapacity
      let result ← empty (some capacity)
      elements.foldlM addLast result
  | .of elements => do
      let queue ← empty none
      addAll queue elements

/-- `_ListQueueIterator`. -/
structure QueueIterator (α : Type) where
  last : ℕ
  modificationCount : ℕ
  position : ℕ
  current : Option α
  deriving DecidableEq

def iterator (q : Queue α) : QueueIterator α := ⟨q.tail, q.modificationCount, q.head, none⟩

def moveNext (it : QueueIterator α) (q : Queue α) :
    Result (Except Thrown Bool × QueueIterator α) :=
  if it.modificationCount ≠ q.modificationCount then .ok (.error .concurrentModification, it)
  else if it.position = it.last then .ok (.ok false, { it with current := none })
  else do
    let current ← read q.table it.position
    .ok (.ok true, { it with current, position := wrap (it.position + 1) q.table.length })

inductive Operation (α O : Type)
  | addLast (value : Option α)
  | addFirst (value : Option α)
  | addAll (elements : Elements α)
  | removeFirst
  | removeLast
  | remove (value : O)
  | clear
  | isEmpty
  | length
  | first
  | last
  | single
  | elementAt (index : ℤ)
  | toList
  | iterator
  | moveNext (iterator : ℕ)
  | current (iterator : ℕ)

inductive Answer (α : Type)
  | void
  | flag (value : Bool)
  | count (n : ℕ)
  | element (value : Option α)
  | list (elements : List (Option α))
  | thrown (exception : Thrown)
  deriving DecidableEq

/-- An element or the exception in its place. -/
def Answer.ofElement : Except Thrown (Option α) → Answer α
  | .ok value => .element value
  | .error exception => .thrown exception

def Answer.ofFlag : Except Thrown Bool → Answer α
  | .ok value => .flag value
  | .error exception => .thrown exception

/-- A queue with the iterators made from it, numbered in order. -/
structure System (α : Type) where
  queue : Queue α
  iterators : List (QueueIterator α)
  deriving DecidableEq

def Operation.run (equals : Option α → O → Bool) (o : Operation α O) (s : System α) :
    Result (Answer α × System α) :=
  match o with
  | .addLast value => do
      let queue ← ListQueue.addLast s.queue value
      .ok (.void, { s with queue })
  | .addFirst value => do
      let queue ← ListQueue.addFirst s.queue value
      .ok (.void, { s with queue })
  | .addAll elements => do
      let queue ← ListQueue.addAll s.queue elements
      .ok (.void, { s with queue })
  | .removeFirst => do
      let (result, queue) ← ListQueue.removeFirst s.queue
      .ok (.ofElement result, { s with queue })
  | .removeLast => do
      let (result, queue) ← ListQueue.removeLast s.queue
      .ok (.ofElement result, { s with queue })
  | .remove value => do
      let (removed, queue) ← ListQueue.remove equals s.queue value
      .ok (.flag removed, { s with queue })
  | .clear => do
      let queue ← ListQueue.clear s.queue
      .ok (.void, { s with queue })
  | .isEmpty => .ok (.flag (ListQueue.isEmpty s.queue), s)
  | .length => .ok (.count (ListQueue.length s.queue), s)
  | .first => do
      let result ← ListQueue.first s.queue
      .ok (.ofElement result, s)
  | .last => do
      let result ← ListQueue.last s.queue
      .ok (.ofElement result, s)
  | .single => do
      let result ← ListQueue.single s.queue
      .ok (.ofElement result, s)
  | .elementAt index => do
      let result ← ListQueue.elementAt s.queue index
      .ok (.ofElement result, s)
  | .toList => do
      let elements ← ListQueue.toList s.queue
      .ok (.list elements, s)
  | .iterator =>
    .ok (.void, { s with iterators := s.iterators ++ [ListQueue.iterator s.queue] })
  | .moveNext i =>
    match s.iterators[i]? with
    | none => .ok (.void, s)
    | some it => do
        let (moved, it) ← ListQueue.moveNext it s.queue
        .ok (.ofFlag moved, { s with iterators := s.iterators.set i it })
  | .current i =>
    match s.iterators[i]? with
    | none => .ok (.void, s)
    | some it => .ok (.element it.current, s)

/-- The methods that call a function for every element. -/
inductive Traversal
  | forEach
  | removeWhere
  | retainWhere
  deriving DecidableEq

/-- A caller of the queue, or a function that is passed to it. -/
inductive Program (α O : Type)
  | ret (value : Bool)
  | throw
  | perform (o : Operation α O) (next : Answer α → Program α O)
  | traverse (t : Traversal) (f : Option α → Program α O) (next : Answer α → Program α O)

/-- What a function does with an element: its value, or `none` when it throws. -/
abbrev Callback (α : Type) := Option α → System α → Result (Option Bool × System α)

def forEach (f : Callback α) (s : System α) : Result (Answer α × System α) :=
  let modificationCount := s.queue.modificationCount
  loop (fun (l : System α × ℕ) =>
    if l.2 = l.1.queue.tail then .ok (.inr (.void, l.1))
    else do
      let element ← read l.1.queue.table l.2
      match ← f element l.1 with
      | (none, s) => .ok (.inr (.thrown .user, s))
      | (some _, s) =>
        if modificationCount ≠ s.queue.modificationCount then
          .ok (.inr (.thrown .concurrentModification, s))
        else .ok (.inl (s, wrap (l.2 + 1) s.queue.table.length)))
    s.queue.table.length (s, s.queue.head)

def filterWhere (test : Callback α) (removeMatching : Bool) (s : System α) :
    Result (Answer α × System α) :=
  loop (fun (l : System α × ℕ × ℕ) =>
    let (s, i, modificationCount) := l
    if i = s.queue.tail then .ok (.inr (.void, s))
    else do
      let element ← read s.queue.table i
      match ← test element s with
      | (none, s) => .ok (.inr (.thrown .user, s))
      | (some matching, s) =>
        if modificationCount ≠ s.queue.modificationCount then
          .ok (.inr (.thrown .concurrentModification, s))
        else if removeMatching = matching then do
          let (i, queue) ← removeSlot s.queue i
          let queue := modified queue
          .ok (.inl ({ s with queue }, i, queue.modificationCount))
        else .ok (.inl (s, wrap (i + 1) s.queue.table.length, modificationCount)))
    s.queue.table.length (s, s.queue.head, s.queue.modificationCount)

def Traversal.run (f : Callback α) : Traversal → System α → Result (Answer α × System α)
  | .forEach => ListQueue.forEach f
  | .removeWhere => filterWhere f true
  | .retainWhere => filterWhere f false

def Program.run (equals : Option α → O → Bool) :
    Program α O → System α → Result (Option Bool × System α)
  | .ret value, s => .ok (some value, s)
  | .throw, s => .ok (none, s)
  | .perform o next, s => do
      let (answer, s) ← o.run equals s
      (next answer).run equals s
  | .traverse t f next, s => do
      let (answer, s) ← t.run (fun element s => (f element).run equals s) s
      (next answer).run equals s

end

open Checked Buffers TwosComplement PowersOfTwo CyclicTables List Nat

variable {α O : Type}

section

variable {n : ℕ} (hn : ∃ p, n = 2 ^ p)

include hn

lemma wrap_eq (x : ℤ) : (wrap x n : ℤ) = x % n := by
  obtain ⟨p, rfl⟩ := hn
  have hpos : ((2 ^ p : ℕ) : ℤ) ≠ 0 := by exact_mod_cast (Nat.two_pow_pos p).ne'
  rw [wrap, land_two_pow_sub_one, Int.toNat_of_nonneg (Int.emod_nonneg x hpos)]

lemma wrap_eq_of_mod {x : ℤ} {m : ℕ} (h : x % n = (m : ℤ) % n) : wrap x n = m % n := by
  have hcast := wrap_eq hn x
  rw [h, ← Int.natCast_mod] at hcast
  exact_mod_cast hcast

lemma wrap_add (m k : ℕ) : wrap ((m : ℤ) + k) n = (m + k) % n :=
  wrap_eq_of_mod hn (by rw [cast_add])

lemma wrap_next (m : ℕ) : wrap ((m : ℤ) + 1) n = (m + 1) % n := by
  have h := wrap_add hn m 1
  rwa [cast_one] at h

lemma wrap_previous (m : ℕ) : wrap ((m : ℤ) - 1) n = (m + (n - 1)) % n := by
  have hpos : 0 < n := by
    obtain ⟨p, rfl⟩ := hn
    exact Nat.two_pow_pos p
  refine wrap_eq_of_mod hn ?_
  rw [Nat.cast_add, Nat.cast_sub hpos, Nat.cast_one, ← Int.add_emod_right]
  congr 1
  ring

lemma wrap_distance {start m k : ℕ} (hm : m = (start + k) % n) (hk : k < n) :
    wrap ((m : ℤ) - start) n = k := by
  have h : ((m : ℤ) - start) % n = (k : ℤ) % n := by
    rw [hm, Int.natCast_mod, Int.emod_sub_emod, cast_add, add_sub_cancel_left]
  rw [wrap_eq_of_mod hn h, mod_eq_of_lt hk]

end

/-- A step back from a slot. -/
lemma previous_mod {start k n : ℕ} (hn : 0 < n) :
    ((start + (k + 1)) % n + (n - 1)) % n = (start + k) % n := by
  rw [mod_add_mod, show start + (k + 1) + (n - 1) = start + k + n by omega, add_mod_right]

lemma next_mod (start k n : ℕ) : ((start + k) % n + 1) % n = (start + (k + 1)) % n := by
  rw [mod_add_mod, add_assoc]

/-- Slots at different distances are different. -/
lemma mod_inj {start j k n : ℕ} (hj : j < n) (hk : k < n)
    (h : (start + j) % n = (start + k) % n) : j = k := by
  have hmod : j ≡ k [MOD n] := Nat.ModEq.add_left_cancel' start h
  rwa [Nat.ModEq, mod_eq_of_lt hj, mod_eq_of_lt hk] at hmod

section

variable {table a c : List (Option α)} {start : ℕ} {x : Option α}

section

variable (hview : table.rotate start = a ++ x :: c)

include hview

lemma length_of_view : table.length = a.length + c.length + 1 := by
  rw [← length_rotate table start, hview, length_append, length_cons]
  omega

lemma read_view : read table ((start + a.length) % table.length) = .ok x := by
  have hlen := length_of_view hview
  rw [read, getElem?_view (by omega), hview, List.getElem?_append_right (le_refl _), Nat.sub_self]
  rfl

lemma write_view (y : Option α) :
    ∃ table', write table ((start + a.length) % table.length) y = .ok table' ∧
      table'.length = table.length ∧ table'.rotate start = a ++ y :: c := by
  have hlen := length_of_view hview
  refine ⟨_, if_pos (mod_lt _ (by omega)), List.length_set, ?_⟩
  rw [set_view y (by omega), hview, set_append_right _ _ (le_refl _), Nat.sub_self, set_cons_zero]

end

end

variable {target : List (Option α)}

lemma setRange_eq {source : List (Option α)} {first last skipCount : ℕ}
    (hfirst : first ≤ last) (hlast : last ≤ target.length)
    (hsrc : skipCount + (last - first) ≤ source.length) :
    setRange target first last source skipCount =
      .ok (overwrite target first ((source.drop skipCount).take (last - first))) := by
  rw [setRange, if_neg (by omega), if_neg (by omega)]
  by_cases hemp : last - first = 0
  · rw [if_pos hemp, hemp, take_zero, overwrite_nil]
  · rw [if_neg hemp, if_neg (by omega)]

lemma setRange_all {source : List (Option α)} {first : ℕ}
    (hlast : first + source.length ≤ target.length) :
    setRange target first (first + source.length) source 0 =
      .ok (overwrite target first source) := by
  rw [setRange_eq (by omega) hlast (by omega), Nat.add_sub_cancel_left, drop_zero, take_length]

lemma isPowerOf2_two_pow (p : ℕ) : isPowerOf2 (2 ^ p) = true := by
  rw [isPowerOf2, and_two_pow_sub_one_eq_mod, mod_self]
  rfl

variable {m : ℕ}

lemma exists_of_isPowerOf2 (hm : 0 < m) (h : isPowerOf2 m = true) : ∃ p, m = 2 ^ p := by
  have hlog := log2_self_le hm.ne'
  rcases eq_or_le_and_pred hlog lt_log2_self with heq | hle
  · exact ⟨_, heq⟩
  · rw [isPowerOf2, beq_iff_eq] at h
    have := Nat.two_pow_pos m.log2
    omega

lemma nextPowerOf2_spec {m : ℕ} (hm : 0 < m) : ∃ p, nextPowerOf2 m = .ok (2 ^ p) ∧ m ≤ 2 ^ p := by
  have hstart : m <<< 1 - 1 ≠ 0 := by
    omega
  have hlow := log2_self_le hstart
  have hhigh := @Nat.lt_log2_self (m <<< 1 - 1)
  generalize (m <<< 1 - 1).log2 = k at hlow hhigh
  -- The top bit of the number stays until it is alone.
  obtain ⟨r, hloop, rfl⟩ := loop_spec (fun number : ℕ =>
      let nextNumber := number &&& (number - 1)
      if nextNumber = 0 then .ok (.inr number) else .ok (.inl nextNumber))
    (fun n number => n = number ∧ 2 ^ k ≤ number ∧ number < 2 ^ (k + 1)) (fun r => r = 2 ^ k)
    (fun n number ⟨hn, hle, hlt⟩ => by
      have hpred : number &&& (number - 1) ≤ number - 1 := and_le_right
      rcases eq_or_le_and_pred hle hlt with rfl | hnext
      · left
        have hzero : 2 ^ k &&& (2 ^ k - 1) = 0 := by
          rw [and_two_pow_sub_one_eq_mod, mod_self]
        exact ⟨_, if_pos hzero, rfl⟩
      · right
        exact ⟨_, by omega, _, if_neg (by omega), rfl, hnext, by omega⟩)
    (m <<< 1 - 1 + 1) ⟨rfl, hlow, hhigh⟩ (lt_succ_self _)
  refine ⟨k, ?_, ?_⟩
  · rw [nextPowerOf2, check_of (decide_eq_true hm), ok_bind]
    exact hloop
  · rw [shiftLeft_eq, pow_succ] at *
    omega

/-- The table holds the elements from the head on, and null in all other slots. -/
structure Fills (q : Queue α) (l : List (Option α)) : Prop where
  power : ∃ p, q.table.length = 2 ^ p
  capacity : initialCapacity ≤ q.table.length
  head_lt : q.head < q.table.length
  fits : l.length ≤ q.table.length
  tail_eq : q.tail = (q.head + l.length) % q.table.length
  view : q.table.rotate q.head = l ++ List.replicate (q.table.length - l.length) none

/-- The elements of a queue between two operations: a slot is free. -/
structure Represents (q : Queue α) (l : List (Option α)) : Prop extends Fills q l where
  short : l.length < q.table.length

variable {q : Queue α} {l : List (Option α)}

lemma Fills.slot_zero (h : Fills q l) :
    (q.head + 0) % q.table.length = q.head := mod_eq_of_lt h.head_lt

section

variable (h : Represents q l)

include h

lemma Represents.tail_lt : q.tail < q.table.length := by
  rw [h.tail_eq]
  exact mod_lt _ (by have := h.head_lt; omega)

lemma Represents.head_eq_tail_iff : q.head = q.tail ↔ l = [] := by
  have hshort := h.short
  rw [← length_eq_zero_iff]
  refine ⟨fun heq => ?_, fun hemp => ?_⟩
  · exact mod_inj hshort (by omega) (h.tail_eq.symm.trans (heq.symm.trans h.slot_zero.symm))
  · rw [h.tail_eq, hemp, h.slot_zero]

lemma Represents.free_slot {k : ℕ} (hk : l.length ≤ k) (hlt : k < q.table.length) :
    q.table[(q.head + k) % q.table.length]? = some none := by
  rw [getElem?_view hlt, h.view, List.getElem?_append_right hk,
    List.getElem?_replicate_of_lt (by omega)]

lemma Represents.length_eq :
    length q = l.length := wrap_distance h.power h.tail_eq h.short

end

lemma Fills.wrap_slot (h : Fills q l) (k : ℕ) :
    wrap (((q.head + k) % q.table.length : ℕ) + 1 : ℤ) q.table.length =
      (q.head + (k + 1)) % q.table.length := by
  rw [wrap_next h.power, next_mod]

variable {a c : List (Option α)} {x : Option α}

lemma Represents.slot_ne_tail
    (h : Represents q (a ++ x :: c)) : (q.head + a.length) % q.table.length ≠ q.tail := by
  have hshort := h.short
  rw [h.tail_eq]
  intro heq
  rw [length_append, length_cons] at hshort heq
  have := mod_inj (by omega) hshort heq
  omega

lemma Represents.slot_eq_tail (h : Represents q (a ++ [])) :
    (q.head + a.length) % q.table.length = q.tail := by rw [h.tail_eq, append_nil]

lemma overwrite_free (l xs : List (Option α)) (m : ℕ) :
    overwrite (l ++ List.replicate m none) l.length xs =
      l ++ xs ++ List.replicate (m - xs.length) none := by
  rw [overwrite, take_left, ← drop_drop, drop_left, drop_replicate]

lemma overwrite_newList (xs : List (Option α)) (m : ℕ) :
    overwrite (newList m) 0 xs = xs ++ List.replicate (m - xs.length) none :=
  overwrite_free [] xs m

lemma represents_front (l : List (Option α)) (hm : ∃ p, m = 2 ^ p)
    (hcap : initialCapacity ≤ m) (h : l.length < m) (count : ℕ) :
    Represents ⟨l ++ List.replicate (m - l.length) none, 0, l.length, count⟩ l := by
  have hlen : (l ++ List.replicate (m - l.length) none).length = m := by
    rw [length_append, length_replicate]
    omega
  refine ⟨⟨?_, ?_, ?_, ?_, ?_, ?_⟩, ?_⟩
  · rwa [hlen]
  · rwa [hlen]
  · rw [hlen]
    exact zero_lt_of_lt h
  · rw [hlen]
    exact h.le
  · rw [hlen, zero_add, mod_eq_of_lt h]
  · rw [hlen, rotate_zero]
  · rwa [hlen]

lemma Fills.drop_append_take (h : Fills q l) :
    q.table.drop q.head ++ q.table.take q.head =
      l ++ List.replicate (q.table.length - l.length) none := by
  rw [← h.view, rotate_eq_drop_append_take h.head_lt.le]

lemma Fills.grow_spec (h : Fills q l) (hfull : l.length = q.table.length) :
    ∃ q', grow q = .ok q' ∧ Represents q' l ∧ q'.modificationCount = q.modificationCount := by
  have hhead := h.head_lt
  have hparts := h.drop_append_take
  rw [hfull, Nat.sub_self, replicate_zero, append_nil] at hparts
  have hnew : (newList (q.table.length * 2) : List (Option α)).length = q.table.length * 2 :=
    length_replicate
  have hdrop : (q.table.drop q.head).length = q.table.length - q.head := length_drop
  have hfirst : setRange (newList (q.table.length * 2)) 0 (q.table.length - q.head) q.table q.head =
      .ok (overwrite (newList (q.table.length * 2)) 0 (q.table.drop q.head)) := by
    rw [setRange_eq (by omega) (by omega) (by omega), Nat.sub_zero, ← hdrop, take_length]
  have hlen := length_overwrite (newList (q.table.length * 2)) 0 (q.table.drop q.head) (by omega)
  have hsecond : setRange (overwrite (newList (q.table.length * 2)) 0 (q.table.drop q.head))
      (q.table.length - q.head) (q.table.length - q.head + q.head) q.table 0 =
      .ok (l ++ List.replicate (q.table.length * 2 - l.length) none) := by
    rw [setRange_eq (by omega) (by omega) (by omega), drop_zero, Nat.add_sub_cancel_left]
    have hadj := overwrite_overwrite (newList (q.table.length * 2)) 0 (q.table.drop q.head)
      (q.table.take q.head) (by omega)
    rw [zero_add, hdrop] at hadj
    rw [hadj, hparts, overwrite_newList l]
  obtain ⟨p, hp⟩ := h.power
  have hcap := h.capacity
  refine ⟨_, ?_, represents_front l (m := q.table.length * 2) ⟨p + 1, by rw [hp, pow_succ]⟩
    (by omega) (by omega) q.modificationCount, rfl⟩
  rw [grow, hfirst, ok_bind, hsecond, ok_bind, hfull]

/-- After one more element the table is doubled if it is full. -/
lemma Fills.growIfFull_spec (h : Fills q l) (hl : 0 < l.length) :
    ∃ q', growIfFull q = .ok q' ∧ Represents q' l ∧ q'.modificationCount = q.modificationCount := by
  rcases h.fits.eq_or_lt with hfull | hshort
  · have heq : q.head = q.tail := by
      rw [h.tail_eq, hfull, add_mod_right, mod_eq_of_lt h.head_lt]
    rw [growIfFull, if_pos heq]
    exact h.grow_spec hfull
  · have hrep : Represents q l := ⟨h, hshort⟩
    refine ⟨q, if_neg fun heq => ?_, hrep, rfl⟩
    rw [hrep.head_eq_tail_iff] at heq
    rw [heq, length_nil] at hl
    omega

section

variable (h : Represents q l)

include h

/-- The elements are copied in one piece, or in two when they pass the end of the table. -/
lemma Represents.writeToList_spec (hroom : l.length ≤ target.length) :
    writeToList q target = .ok (l.length, overwrite target 0 l) := by
  have hhead := h.head_lt
  have hshort := h.short
  have hparts := h.drop_append_take
  have hdrop : (q.table.drop q.head).length = q.table.length - q.head := length_drop
  have hassert : decide (wrap ((q.tail : ℤ) - q.head) q.table.length ≤ target.length) = true := by
    rw [wrap_distance h.power h.tail_eq hshort]
    exact decide_eq_true hroom
  have hl : l = (q.table.drop q.head ++ q.table.take q.head).take l.length := by
    rw [hparts, take_left]
  rw [writeToList, check_of hassert, ok_bind]
  by_cases hwraps : q.head + l.length < q.table.length
  · have htail : q.tail = q.head + l.length := by rw [h.tail_eq, mod_eq_of_lt hwraps]
    rw [take_append_of_le_length (by omega)] at hl
    have hcopy : setRange target 0 l.length q.table q.head = .ok (overwrite target 0 l) := by
      rw [setRange_eq (by omega) hroom (by omega), Nat.sub_zero, ← hl]
    rw [if_pos (by omega), htail, Nat.add_sub_cancel_left]
    show setRange target 0 l.length q.table q.head >>= _ = _
    rw [hcopy, ok_bind]
  · have htail : q.tail = q.head + l.length - q.table.length := by
      rw [h.tail_eq, mod_eq_sub_mod (by omega), mod_eq_of_lt (by omega)]
    have hfirst : setRange target 0 (q.table.length - q.head) q.table q.head =
        .ok (overwrite target 0 (q.table.drop q.head)) := by
      rw [setRange_eq (by omega) (by omega) (by omega), Nat.sub_zero, ← hdrop, take_length]
    have hlen := length_overwrite target 0 (q.table.drop q.head) (by omega)
    have htake : (q.table.take q.head).take q.tail = q.table.take q.tail := by
      rw [take_take, Nat.min_eq_left (by omega)]
    rw [take_append, take_of_length_le (by omega), hdrop,
      show l.length - (q.table.length - q.head) = q.tail by omega, htake] at hl
    have hadj := overwrite_overwrite target 0 (q.table.drop q.head) (q.table.take q.tail)
      (by omega)
    rw [zero_add, hdrop, ← hl] at hadj
    have hsecond : setRange (overwrite target 0 (q.table.drop q.head)) (q.table.length - q.head)
        (q.table.length - q.head + q.tail) q.table 0 = .ok (overwrite target 0 l) := by
      rw [setRange_eq (by omega) (by omega) (by omega), Nat.add_sub_cancel_left, drop_zero,
        hadj]
    rw [if_neg (by omega)]
    show setRange target 0 (q.table.length - q.head) q.table q.head >>= _ = _
    rw [hfirst, ok_bind, hsecond, ok_bind,
      show q.tail + (q.table.length - q.head) = l.length by omega]

lemma Represents.toList_spec : toList q = .ok l := by
  have hroom : l.length ≤ (newList (length q) : List (Option α)).length := by
    rw [newList, length_replicate, h.length_eq]
  rw [toList, h.writeToList_spec hroom, ok_bind, h.length_eq, overwrite_newList l,
    Nat.sub_self, replicate_zero, append_nil]

/-- The elements at the front of a table with room for half as many more. -/
lemma Represents.preGrow_spec (hm : q.table.length ≤ m) :
    ∃ p, m < 2 ^ p ∧ preGrow q m =
      .ok ⟨l ++ List.replicate (2 ^ p - l.length) none, 0, l.length, q.modificationCount⟩ := by
  have hshort := h.short
  have hcap : 8 ≤ q.table.length := h.capacity
  obtain ⟨p, hp, hle⟩ := @nextPowerOf2_spec (m + m >>> 1) (by omega)
  refine ⟨p, by omega, ?_⟩
  have hroom : l.length ≤ (newList (2 ^ p) : List (Option α)).length := by
    rw [newList, length_replicate]
    omega
  rw [preGrow, check_of (decide_eq_true (by rw [h.length_eq]; omega)), ok_bind]
  show nextPowerOf2 (m + m >>> 1) >>= _ = _
  rw [hp, ok_bind, h.writeToList_spec hroom, ok_bind, overwrite_newList l]

omit h in
lemma Fills.view_split (h : Fills q (a ++ x :: c)) :
    q.table.rotate q.head =
      a ++ x :: (c ++ List.replicate (q.table.length - (a ++ x :: c).length) none) := by
  rw [h.view, append_assoc, cons_append]

omit h in
lemma Fills.read_at {q : Queue α} {a c : List (Option α)} {x : Option α}
    (h : Fills q (a ++ x :: c)) :
    read q.table ((q.head + a.length) % q.table.length) = .ok x := read_view h.view_split

omit h in
lemma Fills.read_head (h : Fills q (x :: c)) : read q.table q.head = .ok x := by
  have hread := @Fills.read_at α q [] c x h
  rwa [length_nil, h.slot_zero] at hread

omit h in
lemma Fills.wrap_tail (h : Fills q (a ++ [x])) :
    wrap ((q.tail : ℤ) - 1) q.table.length = (q.head + a.length) % q.table.length := by
  have hhead := h.head_lt
  rw [wrap_previous h.power, h.tail_eq, length_append, length_singleton, previous_mod (by omega)]

/-! What the queries answer for a sequence of elements. -/

def firstOf : List (Option α) → Except Thrown (Option α)
  | [] => .error .noElement
  | x :: _ => .ok x

def lastOf (l : List (Option α)) : Except Thrown (Option α) :=
  match l.getLast? with
  | none => .error .noElement
  | some x => .ok x

def singleOf : List (Option α) → Except Thrown (Option α)
  | [] => .error .noElement
  | [x] => .ok x
  | _ => .error .tooMany

def itemAt (l : List (Option α)) (index : ℤ) : Except Thrown (Option α) :=
  match if index < 0 then none else l[index.toNat]? with
  | none => .error .index
  | some x => .ok x

lemma Represents.first_spec : first q = .ok (firstOf l) := by
  cases l with
  | nil =>
    rw [first, if_pos (h.head_eq_tail_iff.mpr rfl)]
    rfl
  | cons x c =>
    rw [first, if_neg (fun heq => by simp [h.head_eq_tail_iff] at heq), h.read_head, ok_bind]
    rfl

lemma Represents.last_spec : last q = .ok (lastOf l) := by
  rcases l.eq_nil_or_concat' with rfl | ⟨a, x, rfl⟩
  · rw [last, if_pos (h.head_eq_tail_iff.mpr rfl)]
    rfl
  · rw [last, if_neg (fun heq => by simp [h.head_eq_tail_iff] at heq), h.wrap_tail, h.read_at,
      ok_bind, lastOf, List.getLast?_concat]

lemma Represents.single_spec : single q = .ok (singleOf l) := by
  match l with
  | [] =>
    rw [single, if_pos (h.head_eq_tail_iff.mpr rfl)]
    rfl
  | [x] =>
    rw [single, if_neg (fun heq => by simp [h.head_eq_tail_iff] at heq),
      if_neg (by rw [h.length_eq, length_singleton]; omega), h.read_head, ok_bind]
    rfl
  | x :: y :: c =>
    rw [single, if_neg (fun heq => by simp [h.head_eq_tail_iff] at heq),
      if_pos (by rw [h.length_eq]; simp)]
    rfl

lemma Represents.elementAt_spec (index : ℤ) : elementAt q index = .ok (itemAt l index) := by
  rw [itemAt]
  by_cases hneg : index < 0
  · rw [elementAt, if_pos (Or.inl hneg), if_pos hneg]
  · obtain ⟨i, rfl⟩ := Int.eq_ofNat_of_zero_le (not_lt.mp hneg)
    rw [if_neg hneg, Int.toNat_natCast, elementAt, h.length_eq]
    by_cases hi : i < l.length
    · have hsplit : l = l.take i ++ l[i] :: l.drop (i + 1) := by
        rw [getElem_cons_drop, take_append_drop]
      have htake : (l.take i).length = i := by
        rw [length_take]
        omega
      rw [hsplit] at h
      have hread := h.read_at
      rw [htake] at hread
      rw [if_neg (by omega), wrap_add h.power, hread, ok_bind, List.getElem?_eq_getElem hi]
    · rw [if_pos (by omega), List.getElem?_eq_none (by omega)]

end

end DartSdk.ListQueue
