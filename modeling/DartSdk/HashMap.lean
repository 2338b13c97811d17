import DartSdk.Checked
import DartSdk.Maps
import DartSdk.Words

/-!
The class `_HashMap` of runtime/lib/collection_patch.dart, and `_CustomHashMap`, which differs
from it in the equality and the hash code that it uses, as finite maps in re-entrant programs. A
list of buckets is an object on the heap: an operation may hold on to it while the map goes on with
another one. The chain of a bucket is a list of entries. A lookup with an object that is not a valid
key is one of `none`. The one operation that replaces the list of buckets without moving the
modification count on is `clear` on an empty map, so a callback that clears has to change the keys
as well.
-/

namespace DartSdk.HashMap

section

open Checked Associations

variable {K V : Type}

/-- An equality with a compatible hash code. -/
structure Hashing (K : Type) extends KeyEquality K where
  hashCode : K → ℤ
  compatible : ∀ k k', equals k k' = true → hashCode k = hashCode k'

structure Entry (K V : Type) where
  key : K
  value : V
  hashCode : ℤ
  deriving DecidableEq

/-- A list of buckets, each with the chain of its entries. -/
abbrev Buckets (K V : Type) := List (List (Entry K V))

structure State (K V : Type) where
  elementCount : ℕ
  /-- The position of the list of buckets on the heap. -/
  buckets : ℕ
  modificationCount : ℕ
  heap : List (Buckets K V)
  deriving DecidableEq

def initialCapacity : ℕ := 8
def modificationCountMask : ℕ := 0x3fffffff

def newBuckets (length : ℕ) : Buckets K V := List.replicate length []

/-- A new map. -/
def initial : State K V := ⟨0, 0, 0, [newBuckets initialCapacity]⟩

def State.list (s : State K V) (reference : ℕ) : Result (Buckets K V) :=
  match s.heap[reference]? with
  | some buckets => .ok buckets
  | none => .error .outOfBounds

/-- `buckets[index]`. -/
def chainAt (buckets : Buckets K V) (index : ℕ) : Result (List (Entry K V)) :=
  match buckets[index]? with
  | some chain => .ok chain
  | none => .error .outOfBounds

def setChain (buckets : Buckets K V) (index : ℕ) (chain : List (Entry K V)) :
    Result (Buckets K V) :=
  if index < buckets.length then .ok (buckets.set index chain) else .error .outOfBounds

def State.store (s : State K V) (reference : ℕ) (buckets : Buckets K V) : State K V :=
  { s with heap := s.heap.set reference buckets }

/-- `hashCode & (length - 1)`. -/
def bucketIndex (hashCode : ℤ) (length : ℕ) : ℕ := (hashCode.land (length - 1 : ℕ)).toNat

def nextModification (count : ℕ) : ℕ := (count + 1) &&& modificationCountMask

section

variable (H : Hashing K)

def Entry.matches (e : Entry K V) (hashCode : ℤ) (key : K) : Bool :=
  hashCode == e.hashCode && H.equals e.key key

def findEntry (s : State K V) (key : K) : Result (Option (Entry K V)) := do
  let hashCode := H.hashCode key
  let buckets ← s.list s.buckets
  let chain ← chainAt buckets (bucketIndex hashCode buckets.length)
  .ok (chain.find? fun e => e.matches H hashCode key)

def containsKey (s : State K V) : Option K → Result Bool
  | none => .ok false
  | some key => do
      let entry ← findEntry H s key
      .ok entry.isSome

/-- `operator []`. -/
def lookup (s : State K V) : Option K → Result (Option V)
  | none => .ok none
  | some key => do
      let entry ← findEntry H s key
      .ok (entry.map Entry.value)

/-- The entries of the old buckets, moved one after another to the front of their new chains. -/
def resize (s : State K V) : Result (State K V) := do
  let oldBuckets ← s.list s.buckets
  let newLength := oldBuckets.length <<< 1
  let buckets ← oldBuckets.flatten.foldlM (fun buckets e => do
    let index := bucketIndex e.hashCode newLength
    let chain ← chainAt buckets index
    setChain buckets index (e :: chain)) (newBuckets newLength)
  .ok { s with heap := s.heap ++ [buckets], buckets := s.heap.length }

/-- Resizes when more than three quarters of the buckets would be in use. -/
def resizeIfFull (s : State K V) (newElements length : ℕ) : Result (State K V) :=
  if newElements <<< 2 > length <<< 1 + length then resize s else .ok s

/-- `_addEntry` to the list of buckets with this reference, which need not be that of the map. -/
def addEntry (s : State K V) (reference index length : ℕ) (e : Entry K V) : Result (State K V) := do
  let buckets ← s.list reference
  let chain ← chainAt buckets index
  let buckets ← setChain buckets index (e :: chain)
  let newElements := s.elementCount + 1
  let s := { s.store reference buckets with elementCount := newElements }
  let s ← resizeIfFull s newElements length
  .ok { s with modificationCount := nextModification s.modificationCount }

/-- The chain after `entry.value = value` for the first entry that matches. -/
def assign (hashCode : ℤ) (key : K) (value : V) : List (Entry K V) → Option (List (Entry K V))
  | [] => none
  | e :: chain =>
    if e.matches H hashCode key then some ({ e with value } :: chain)
    else (assign hashCode key value chain).map (e :: ·)

/-- `operator []=`. -/
def assignKey (s : State K V) (key : K) (value : V) : Result (State K V) := do
  let hashCode := H.hashCode key
  let buckets ← s.list s.buckets
  let length := buckets.length
  let index := bucketIndex hashCode length
  let chain ← chainAt buckets index
  match assign H hashCode key value chain with
  | some chain => do
      let buckets ← setChain buckets index chain
      .ok (s.store s.buckets buckets)
  | none => addEntry s s.buckets index length ⟨key, value, hashCode⟩

def addAll (s : State K V) (other : List (K × V)) : Result (State K V) :=
  other.foldlM (fun s p => assignKey H s p.1 p.2) s

/-- The chain without the first entry that matches, and the value of that entry. -/
def unlink (hashCode : ℤ) (key : K) : List (Entry K V) → Option (V × List (Entry K V))
  | [] => none
  | e :: chain =>
    if e.matches H hashCode key then some (e.value, chain)
    else (unlink hashCode key chain).map fun (value, chain) => (value, e :: chain)

def remove (s : State K V) : Option K → Result (Option V × State K V)
  | none => .ok (none, s)
  | some key => do
      let hashCode := H.hashCode key
      let buckets ← s.list s.buckets
      let index := bucketIndex hashCode buckets.length
      let chain ← chainAt buckets index
      match unlink H hashCode key chain with
      | some (value, chain) => do
          let buckets ← setChain buckets index chain
          .ok (some value, { s.store s.buckets buckets with
            elementCount := s.elementCount - 1
            modificationCount := nextModification s.modificationCount })
      | none => .ok (none, s)

end

def clear (s : State K V) : State K V :=
  let s := { s with heap := s.heap ++ [newBuckets initialCapacity], buckets := s.heap.length }
  if 0 < s.elementCount then
    { s with elementCount := 0, modificationCount := nextModification s.modificationCount }
  else s

/-- What `putIfAbsent` holds on to while its callback runs. -/
structure Context (K : Type) where
  key : K
  hashCode : ℤ
  buckets : ℕ
  length : ℕ
  index : ℕ
  stamp : ℕ

inductive Operation (K V : Type)
  | assign (key : K) (value : V)
  | lookup (key : Option K)
  | containsKey (key : Option K)
  | remove (key : Option K)
  | clear
  | addAll (other : List (K × V))
  | length

inductive Answer (V : Type)
  | void
  | flag (present : Bool)
  | value (v : Option V)
  | count (n : ℕ)

section

variable (H : Hashing K)

def Operation.run (o : Operation K V) (s : State K V) : Result (Answer V × State K V) :=
  match o with
  | .assign key value => do
      let s ← assignKey H s key value
      .ok (.void, s)
  | .lookup key => do
      let v ← HashMap.lookup H s key
      .ok (.value v, s)
  | .containsKey key => do
      let present ← HashMap.containsKey H s key
      .ok (.flag present, s)
  | .remove key => do
      let (v, s) ← HashMap.remove H s key
      .ok (.value v, s)
  | .clear => .ok (.void, HashMap.clear s)
  | .addAll other => do
      let s ← HashMap.addAll H s other
      .ok (.void, s)
  | .length => .ok (.count s.elementCount, s)

def putIfAbsentStart (key : K) (s : State K V) : Result ((V ⊕ Context K) × State K V) := do
  let hashCode := H.hashCode key
  let buckets ← s.list s.buckets
  let length := buckets.length
  let index := bucketIndex hashCode length
  let chain ← chainAt buckets index
  match chain.find? fun e => e.matches H hashCode key with
  | some e => .ok (.inl e.value, s)
  | none => .ok (.inr ⟨key, hashCode, s.buckets, length, index, s.modificationCount⟩, s)

def putIfAbsentFinish (c : Context K) (value : V) (s : State K V) : Result (State K V) :=
  if c.stamp = s.modificationCount then
    addEntry s c.buckets c.index c.length ⟨c.key, value, c.hashCode⟩
  else assignKey H s c.key value

def implementation :
    Reentrant.Implementation (State K V) K V (Operation K V) (Answer V) (Context K) Failure where
  perform := Operation.run H
  start := putIfAbsentStart H
  finish := putIfAbsentFinish H

end

end

open Checked Associations TwosComplement List Option

variable {K V : Type} {H : Hashing K}

lemma bucketIndex_eq (hashCode : ℤ) (p : ℕ) :
    bucketIndex hashCode (2 ^ p) = (hashCode % (2 ^ p : ℕ)).toNat := by
  rw [bucketIndex, land_two_pow_sub_one]

lemma bucketIndex_lt (hashCode : ℤ) (p : ℕ) : bucketIndex hashCode (2 ^ p) < 2 ^ p := by
  rw [bucketIndex_eq]
  omega

lemma nextModification_eq (count : ℕ) : nextModification count = (count + 1) % 2 ^ 30 :=
  Nat.and_two_pow_sub_one_eq_mod (count + 1) 30

def Entry.pair (e : Entry K V) : K × V := (e.key, e.value)

/-- The entries carry the hash codes of their keys. -/
def Hashed (H : Hashing K) (chain : List (Entry K V)) : Prop :=
  ∀ e ∈ chain, e.hashCode = H.hashCode e.key

lemma matches_eq {e : Entry K V} (he : e.hashCode = H.hashCode e.key) (key : K) :
    e.matches H (H.hashCode key) key = H.equals e.key key := by
  rw [Entry.matches, he, Bool.eq_iff_iff, Bool.and_eq_true, beq_iff_eq]
  exact ⟨And.right, fun h => ⟨(H.compatible _ _ h).symm, h⟩⟩

section

variable {chain : List (Entry K V)}

section

variable (h : Hashed H chain) (key : K)

include h

lemma find_eq :
    (chain.find? fun e => e.matches H (H.hashCode key) key).map Entry.value =
      get H.toKeyEquality (chain.map Entry.pair) key := by
  induction chain with
  | nil => rfl
  | cons e chain ih =>
    have ih := ih fun e' he' => h e' (mem_cons_of_mem _ he')
    rw [Associations.get] at ih ⊢
    rw [map_cons, List.find?_cons, List.find?_cons, matches_eq (h e mem_cons_self)]
    cases hmatch : H.equals e.key key with
    | true => simp [Entry.pair, hmatch]
    | false =>
      simp only [Entry.pair, hmatch]
      exact ih

lemma assign_eq (value : V) :
    (Absent H.toKeyEquality (chain.map Entry.pair) key ∧
        assign H (H.hashCode key) key value chain = none) ∨
      (¬Absent H.toKeyEquality (chain.map Entry.pair) key ∧
        ∃ chain', assign H (H.hashCode key) key value chain = some chain' ∧
          chain'.map Entry.pair =
            Associations.set H.toKeyEquality (chain.map Entry.pair) key value ∧
          Hashed H chain' ∧ chain'.map Entry.hashCode = chain.map Entry.hashCode) := by
  induction chain with
  | nil => exact .inl ⟨by simp [Absent], rfl⟩
  | cons e chain ih =>
    have hrest : Hashed H chain := fun e' he' => h e' (mem_cons_of_mem _ he')
    have he := h e mem_cons_self
    rw [assign, matches_eq he, map_cons]
    cases hmatch : H.equals e.key key with
    | true =>
      refine .inr ⟨fun habs => ?_, _, if_pos rfl, ?_, ?_, rfl⟩
      · have hfalse := habs e.pair mem_cons_self
        rw [Entry.pair, hmatch] at hfalse
        exact absurd hfalse (by decide)
      · rw [Associations.set, if_pos (show H.equals e.pair.1 key = true from hmatch)]
        rfl
      · intro e' he'
        rcases mem_cons.mp he' with rfl | he'
        · exact he
        · exact hrest e' he'
    | false =>
      rw [if_neg (by decide)]
      rcases ih hrest with ⟨habs, hnone⟩ | ⟨hpresent, chain', hsome, hpairs, hhashed, hcodes⟩
      · refine .inl ⟨fun p hp => ?_, by rw [hnone, map_none]⟩
        rcases mem_cons.mp hp with rfl | hp
        · exact hmatch
        · exact habs p hp
      · refine .inr ⟨fun habs => hpresent fun p hp => habs p (mem_cons_of_mem _ hp),
          e :: chain', by rw [hsome, map_some], ?_, ?_, ?_⟩
        · rw [Associations.set,
            if_neg (show ¬H.equals e.pair.1 key = true by simp [Entry.pair, hmatch]),
            map_cons, hpairs]
        · intro e' he'
          rcases mem_cons.mp he' with rfl | he'
          · exact he
          · exact hhashed e' he'
        · rw [map_cons, hcodes, map_cons]

lemma unlink_eq :
    (get H.toKeyEquality (chain.map Entry.pair) key = none ∧
        unlink H (H.hashCode key) key chain = none) ∨
      ∃ value chain', get H.toKeyEquality (chain.map Entry.pair) key = some value ∧
        unlink H (H.hashCode key) key chain = some (value, chain') ∧
        chain'.map Entry.pair = Associations.erase H.toKeyEquality (chain.map Entry.pair) key ∧
        chain'.Sublist chain := by
  induction chain with
  | nil => exact .inl ⟨rfl, rfl⟩
  | cons e chain ih =>
    have hrest : Hashed H chain := fun e' he' => h e' (mem_cons_of_mem _ he')
    have he := h e mem_cons_self
    rw [unlink, matches_eq he, map_cons, Associations.get, List.find?_cons, erase]
    cases hmatch : H.equals e.key key with
    | true =>
      refine .inr ⟨e.value, chain, ?_, if_pos rfl, ?_, sublist_cons_self ..⟩
      · simp [Entry.pair, hmatch]
      · rw [eraseP_cons_of_pos (by exact hmatch)]
    | false =>
      rw [if_neg (by decide), eraseP_cons_of_neg (by simp [Entry.pair, hmatch])]
      simp only [Entry.pair, hmatch]
      rcases ih hrest with ⟨hget, hnone⟩ | ⟨value, chain', hget, hsome, hpairs, hsub⟩
      · exact .inl ⟨hget, by rw [hnone, map_none]⟩
      · refine .inr ⟨value, e :: chain', hget, by rw [hsome, map_some], ?_, hsub.cons_cons e⟩
        rw [map_cons, hpairs]
        rfl

end

/-- Every entry stands in the chain of its hash code. -/
structure Placed (H : Hashing K) (buckets : Buckets K V) : Prop where
  length : ∃ p, buckets.length = 2 ^ p
  hashed : ∀ chain ∈ buckets, Hashed H chain
  index : ∀ i chain, buckets[i]? = some chain → ∀ e ∈ chain,
    bucketIndex e.hashCode buckets.length = i

def pairs (buckets : Buckets K V) : List (K × V) := buckets.flatten.map Entry.pair

variable {buckets : Buckets K V}

lemma Placed.index_lt (h : Placed H buckets) (hashCode : ℤ) :
    bucketIndex hashCode buckets.length < buckets.length := by
  obtain ⟨p, hp⟩ := h.length
  rw [hp]
  exact bucketIndex_lt hashCode p

lemma Placed.split (h : Placed H buckets) (key : K) :
    ∃ left chain right, buckets = left ++ chain :: right ∧
      left.length = bucketIndex (H.hashCode key) buckets.length ∧
      chainAt buckets (bucketIndex (H.hashCode key) buckets.length) = .ok chain ∧ Hashed H chain ∧
      Absent H.toKeyEquality (pairs left) key ∧ Absent H.toKeyEquality (pairs right) key := by
  have hlt := h.index_lt (H.hashCode key)
  generalize hi : bucketIndex (H.hashCode key) buckets.length = i at hlt ⊢
  have hget : buckets[i]? = some buckets[i] := List.getElem?_eq_getElem hlt
  have hsplit : buckets = buckets.take i ++ buckets[i] :: buckets.drop (i + 1) := by
    rw [← drop_eq_getElem_cons hlt, take_append_drop]
  have hother : ∀ j chain, buckets[j]? = some chain → j ≠ i → ∀ e ∈ chain,
      H.equals e.key key = false := by
    intro j chain hj hne e he
    rw [← Bool.not_eq_true]
    intro hmatch
    apply hne
    rw [← h.index j chain hj e he, h.hashed chain (mem_of_getElem? hj) e he,
      H.compatible _ _ hmatch, hi]
  refine ⟨buckets.take i, buckets[i], buckets.drop (i + 1), hsplit,
    by rw [length_take]; omega, by rw [chainAt, hget],
    h.hashed _ (mem_of_getElem? hget), ?_, ?_⟩
  · rintro p hp
    obtain ⟨e, he, rfl⟩ := mem_map.mp hp
    obtain ⟨chain, hchain, he⟩ := mem_flatten.mp he
    obtain ⟨j, hj⟩ := mem_iff_getElem?.mp hchain
    have hji : j < i := by
      by_contra hge
      rw [List.getElem?_take, if_neg hge] at hj
      cases hj
    rw [List.getElem?_take, if_pos hji] at hj
    exact hother j chain hj hji.ne e he
  · rintro p hp
    obtain ⟨e, he, rfl⟩ := mem_map.mp hp
    obtain ⟨chain, hchain, he⟩ := mem_flatten.mp he
    obtain ⟨j, hj⟩ := mem_iff_getElem?.mp hchain
    rw [List.getElem?_drop] at hj
    exact hother (i + 1 + j) chain hj (by omega) e he

lemma pairs_split (left : Buckets K V) (chain : List (Entry K V)) (right : Buckets K V) :
    pairs (left ++ chain :: right) = pairs left ++ chain.map Entry.pair ++ pairs right := by
  simp [pairs]

lemma setChain_split (left : Buckets K V) (chain chain' : List (Entry K V)) (right : Buckets K V) :
    setChain (left ++ chain :: right) left.length chain' = .ok (left ++ chain' :: right) := by
  rw [setChain, if_pos (by simp)]
  simp

lemma Placed.replace {left right : Buckets K V} {chain' : List (Entry K V)}
    (h : Placed H (left ++ chain :: right)) (hhashed : Hashed H chain')
    (hidx : ∀ e ∈ chain', bucketIndex e.hashCode (left ++ chain :: right).length = left.length) :
    Placed H (left ++ chain' :: right) := by
  have hlen : (left ++ chain' :: right).length = (left ++ chain :: right).length := by simp
  refine ⟨by rw [hlen]; exact h.length, fun c hc => ?_, fun i c hc e he => ?_⟩
  · rcases mem_append.mp hc with hc | hc
    · exact h.hashed c (mem_append_left _ hc)
    · rcases mem_cons.mp hc with rfl | hc
      · exact hhashed
      · exact h.hashed c (mem_append_right _ (mem_cons_of_mem _ hc))
  · rw [hlen]
    by_cases hi : i = left.length
    · subst hi
      rw [List.getElem?_append_right le_rfl, Nat.sub_self] at hc
      cases hc
      exact hidx e he
    · refine h.index i c ?_ e he
      rw [List.getElem?_append] at hc ⊢
      split at hc
      · rename_i hlt
        rw [if_pos hlt]
        exact hc
      · rename_i hge
        rw [if_neg hge]
        obtain ⟨j, hj⟩ : ∃ j, i - left.length = j + 1 := ⟨i - left.length - 1, by omega⟩
        rw [hj, List.getElem?_cons_succ] at hc ⊢
        exact hc

lemma Placed.get_eq (h : Placed H buckets) (key : K) :
    ∃ chain, chainAt buckets (bucketIndex (H.hashCode key) buckets.length) = .ok chain ∧
      (chain.find? fun e => e.matches H (H.hashCode key) key).map Entry.value =
        get H.toKeyEquality (pairs buckets) key := by
  obtain ⟨left, chain, right, hsplit, -, hchain, hhashed, hleft, hright⟩ := h.split key
  refine ⟨chain, hchain, ?_⟩
  rw [find_eq hhashed]
  conv_rhs => rw [hsplit, pairs_split, get_middle hleft hright]

lemma newBuckets_placed (p : ℕ) : Placed H (newBuckets (2 ^ p) : Buckets K V) := by
  refine ⟨⟨p, length_replicate⟩, fun chain hchain => ?_, fun i chain hchain e he => ?_⟩
  · rw [eq_of_mem_replicate hchain]
    simp [Hashed]
  · rw [eq_of_mem_replicate (mem_of_getElem? hchain)] at he
    cases he

lemma pairs_newBuckets (n : ℕ) : pairs (newBuckets n : Buckets K V) = [] := by
  simp [pairs, newBuckets]

lemma Placed.push (h : Placed H buckets) {e : Entry K V} (he : e.hashCode = H.hashCode e.key) :
    ∃ chain buckets', chainAt buckets (bucketIndex e.hashCode buckets.length) = .ok chain ∧
      setChain buckets (bucketIndex e.hashCode buckets.length) (e :: chain) = .ok buckets' ∧
      Placed H buckets' ∧ buckets'.length = buckets.length ∧
      (buckets'.flatten).Perm (e :: buckets.flatten) := by
  rw [he]
  obtain ⟨left, chain, right, hsplit, hlen, hchain, hhashed, -, -⟩ := h.split e.key
  refine ⟨chain, left ++ (e :: chain) :: right, hchain, ?_, ?_, ?_, ?_⟩
  · rw [← hlen]
    conv_lhs => rw [hsplit]
    exact setChain_split left chain (e :: chain) right
  · have hidx : ∀ e' ∈ chain, bucketIndex e'.hashCode buckets.length = left.length := by
      intro e' he'
      refine h.index _ chain ?_ e' he'
      rw [hsplit]
      simp
    have h' := h
    rw [hsplit] at h'
    refine h'.replace (fun e' he' => ?_) fun e' he' => ?_
    · rcases mem_cons.mp he' with rfl | he'
      · exact he
      · exact hhashed e' he'
    · rw [← hsplit]
      rcases mem_cons.mp he' with rfl | he'
      · rw [he, hlen]
      · exact hidx e' he'
  · conv_rhs => rw [hsplit]
    simp
  · conv_rhs => rw [hsplit]
    simp only [flatten_append, flatten_cons, cons_append]
    exact perm_middle

/-- The loop of `_resize`. -/
lemma Placed.move (h : Placed H buckets) {entries : List (Entry K V)}
    (hents : ∀ e ∈ entries, e.hashCode = H.hashCode e.key) :
    ∃ buckets', entries.foldlM (fun buckets' e => do
        let index := bucketIndex e.hashCode buckets.length
        let chain ← chainAt buckets' index
        setChain buckets' index (e :: chain)) buckets = .ok buckets' ∧
      Placed H buckets' ∧ buckets'.length = buckets.length ∧
      buckets'.flatten.Perm (entries ++ buckets.flatten) := by
  generalize hn : buckets.length = n
  induction entries generalizing buckets with
  | nil => exact ⟨buckets, rfl, h, hn, .refl _⟩
  | cons e entries ih =>
    obtain ⟨chain, buckets1, hchain, hset, hplaced, hlen, hperm⟩ :=
      h.push (hents e mem_cons_self)
    rw [hn] at hchain hset
    obtain ⟨buckets2, hfold, hplaced2, hlen2, hperm2⟩ := ih hplaced
      (fun e' he' => hents e' (mem_cons_of_mem _ he')) (hlen.trans hn)
    refine ⟨buckets2, ?_, hplaced2, hlen2, ?_⟩
    · rw [foldlM_cons]
      dsimp only
      rw [hchain, ok_bind, hset, ok_bind]
      exact hfold
    · refine hperm2.trans ((hperm.append_left entries).trans ?_)
      exact perm_middle

end

open Reentrant Nat Bool

abbrev Map (H : Hashing K) (V : Type) := OrderedMap H.toKeyEquality V

/-- What operations do to a pending `putIfAbsent`: whether they clear the map or change its keys,
and how many keys they access. -/
@[ext] structure Effects where
  cleared : Bool
  changed : Bool
  cost : ℕ

instance : Monoid Effects where
  one := ⟨false, false, 0⟩
  mul a b := ⟨a.cleared || b.cleared, a.changed || b.changed, a.cost + b.cost⟩
  mul_assoc a b c := Effects.ext (Bool.or_assoc ..) (Bool.or_assoc ..) (Nat.add_assoc ..)
  one_mul a := Effects.ext (Bool.false_or _) (Bool.false_or _) (Nat.zero_add _)
  mul_one a := Effects.ext (Bool.or_false _) (Bool.or_false _) (Nat.add_zero _)

def assignEffect (m : Map H V) (key : K) : Effects := ⟨false, (m.get key).isNone, 1⟩

def addAllEffect : List (K × V) → Map H V → Effects
  | [], _ => 1
  | p :: other, m => assignEffect m p.1 * addAllEffect other (m.set p.1 p.2)

def Operation.effect (o : Operation K V) (m : Map H V) : Effects :=
  match o with
  | .assign key _ => assignEffect m key
  | .lookup _ => ⟨false, false, 1⟩
  | .containsKey _ => ⟨false, false, 1⟩
  | .remove key => ⟨false, (key.bind m.get).isSome, 1⟩
  | .clear => ⟨true, !m.entries.isEmpty, 1⟩
  | .addAll other => addAllEffect other m
  | .length => ⟨false, false, 1⟩

/-- The operation on the finite map. -/
def Operation.spec (o : Operation K V) (m : Map H V) : Answer V × Map H V :=
  match o with
  | .assign key value => (.void, m.set key value)
  | .lookup key => (.value (key.bind m.get), m)
  | .containsKey key => (.flag (key.bind m.get).isSome, m)
  | .remove none => (.value none, m)
  | .remove (some key) => (.value (m.get key), m.erase key)
  | .clear => (.void, .empty _ V)
  | .addAll other => (.void, other.foldl (fun m p => m.set p.1 p.2) m)
  | .length => (.count m.entries.length, m)

def specification (H : Hashing K) (V : Type) :
    Specification (Map H V) K V (Operation K V) (Answer V) Effects where
  perform := Operation.spec
  get := OrderedMap.get
  set := OrderedMap.set
  effect := Operation.effect
  startEffect _ _ := 1
  setEffect m key _ := assignEffect m key

/-- The map between operations: every entry stands once in the chain of its hash code. -/
structure Represents (s : State K V) (m : Map H V) : Prop where
  buckets : ∃ buckets, s.heap[s.buckets]? = some buckets ∧ Placed H buckets ∧
    (pairs buckets).Perm m.entries
  count : s.elementCount = m.entries.length
  stamp : s.modificationCount < 2 ^ 30

/-- The number of buckets. -/
def State.length (s : State K V) : ℕ := ((s.heap[s.buckets]?).getD []).length

/-- How operations with these effects may change the state. -/
structure Moves (s s' : State K V) (m m' : Map H V) (e : Effects) : Prop where
  stamp : e.changed = false → s'.modificationCount = s.modificationCount
  keys : e.changed = false → ∀ key, m.get key = none → m'.get key = none
  list : e.changed = false → e.cleared = false → s'.buckets = s.buckets ∧ s'.length = s.length
  changed : e.changed = true → ∃ d, 0 < d ∧ d ≤ e.cost ∧
    s'.modificationCount = (s.modificationCount + d) % 2 ^ 30

lemma Moves.refl (s : State K V) (m : Map H V) {e : Effects} (h : e.changed = false) :
    Moves s s m m e :=
  ⟨fun _ => rfl, fun _ _ h => h, fun _ _ => ⟨rfl, rfl⟩, by simp [h]⟩

lemma Moves.trans {s s' s'' : State K V} {m m' m'' : Map H V} {e e' : Effects}
    (h : Moves s s' m m' e) (h' : Moves s' s'' m' m'' e') : Moves s s'' m m'' (e * e') := by
  refine ⟨fun hchg => ?_, fun hchg key hkey => ?_, fun hchg hcleared => ?_, fun hchg => ?_⟩
  · obtain ⟨h1, h2⟩ := or_eq_false_iff.mp hchg
    rw [h'.stamp h2, h.stamp h1]
  · obtain ⟨h1, h2⟩ := or_eq_false_iff.mp hchg
    exact h'.keys h2 key (h.keys h1 key hkey)
  · obtain ⟨h1, h2⟩ := or_eq_false_iff.mp hchg
    obtain ⟨h3, h4⟩ := or_eq_false_iff.mp hcleared
    obtain ⟨hb, hl⟩ := h.list h1 h3
    obtain ⟨hb', hl'⟩ := h'.list h2 h4
    exact ⟨hb'.trans hb, hl'.trans hl⟩
  · have hcost : (e * e').cost = e.cost + e'.cost := rfl
    cases h1 : e.changed with
    | true =>
      obtain ⟨d, hd, hle, hs⟩ := h.changed h1
      cases h2 : e'.changed with
      | true =>
        obtain ⟨d', hd', hle', hs'⟩ := h'.changed h2
        refine ⟨d + d', by omega, by omega, ?_⟩
        rw [hs', hs, mod_add_mod, add_assoc]
      | false => exact ⟨d, hd, by omega, by rw [h'.stamp h2, hs]⟩
    | false =>
      have h2 : e'.changed = true := by
        have : (e.changed || e'.changed) = true := hchg
        rwa [h1, Bool.false_or] at this
      obtain ⟨d', hd', hle', hs'⟩ := h'.changed h2
      exact ⟨d', hd', by omega, by rw [hs', h.stamp h1]⟩

section

variable {s : State K V} {m : Map H V}

variable {buckets : Buckets K V}

lemma Represents.get_eq (h : Represents s m) (hlist : s.heap[s.buckets]? = some buckets) (key : K) :
    get H.toKeyEquality (pairs buckets) key = m.get key := by
  obtain ⟨buckets', hlist', -, hperm⟩ := h.buckets
  rw [hlist] at hlist'
  cases hlist'
  exact (m.distinct.get_perm hperm.symm key).symm

lemma list_eq {reference : ℕ} (h : s.heap[reference]? = some buckets) :
    s.list reference = .ok buckets := by
  rw [State.list, h]

lemma Represents.findEntry_spec (h : Represents s m) (key : K) :
    ∃ entry, findEntry H s key = .ok entry ∧ entry.map Entry.value = m.get key := by
  obtain ⟨buckets, hlist, hplaced, -⟩ := h.buckets
  obtain ⟨chain, hchain, hfind⟩ := hplaced.get_eq key
  refine ⟨_, ?_, hfind.trans (h.get_eq hlist key)⟩
  rw [findEntry, list_eq hlist, ok_bind, hchain, ok_bind]

lemma Represents.lookup_spec (h : Represents s m) (key : Option K) :
    HashMap.lookup H s key = .ok (key.bind m.get) := by
  cases key with
  | none => rfl
  | some key =>
    obtain ⟨entry, hfind, hentry⟩ := h.findEntry_spec key
    rw [HashMap.lookup, hfind, ok_bind, hentry]
    rfl

lemma Represents.containsKey_spec (h : Represents s m) (key : Option K) :
    HashMap.containsKey H s key = .ok (key.bind m.get).isSome := by
  cases key with
  | none => rfl
  | some key =>
    obtain ⟨entry, hfind, hentry⟩ := h.findEntry_spec key
    rw [HashMap.containsKey, hfind, ok_bind]
    change Except.ok entry.isSome = Except.ok (m.get key).isSome
    rw [← hentry, isSome_map]

lemma resize_spec (hlist : s.heap[s.buckets]? = some buckets) (hplaced : Placed H buckets) :
    ∃ s' buckets', resize s = .ok s' ∧ s'.heap[s'.buckets]? = some buckets' ∧ Placed H buckets' ∧
      (pairs buckets').Perm (pairs buckets) ∧ s'.elementCount = s.elementCount ∧
      s'.modificationCount = s.modificationCount := by
  obtain ⟨p, hp⟩ := hplaced.length
  have hnew : newBuckets (buckets.length <<< 1) = (newBuckets (2 ^ (p + 1)) : Buckets K V) := by
    rw [hp, shiftLeft_eq, pow_one, pow_succ]
  have hlen : (newBuckets (2 ^ (p + 1)) : Buckets K V).length = buckets.length <<< 1 := by
    rw [← hnew, newBuckets, length_replicate]
  have hhashed : ∀ e ∈ buckets.flatten, e.hashCode = H.hashCode e.key := by
    intro e he
    obtain ⟨chain, hchain, he⟩ := mem_flatten.mp he
    exact hplaced.hashed chain hchain e he
  obtain ⟨buckets', hmove, hplaced', -, hperm⟩ := (newBuckets_placed (p + 1)).move hhashed
  rw [hlen] at hmove
  refine ⟨{ s with heap := s.heap ++ [buckets'], buckets := s.heap.length }, buckets', ?_, by simp,
    hplaced', ?_, rfl, rfl⟩
  · rw [resize, list_eq hlist, ok_bind]
    dsimp only
    rw [hnew]
    rw [hmove, ok_bind]
  · have hemp : (newBuckets (2 ^ (p + 1)) : Buckets K V).flatten = [] := by simp [newBuckets]
    rw [hemp, append_nil] at hperm
    exact hperm.map _

variable {key : K}

section

variable (h : Represents s m)

include h

lemma Represents.addEntry_spec (value : V) (habs : m.get key = none) :
    ∃ s', addEntry s s.buckets (bucketIndex (H.hashCode key) s.length) s.length
        ⟨key, value, H.hashCode key⟩ = .ok s' ∧ Represents s' (m.set key value) ∧
      Moves s s' m (m.set key value) (assignEffect m key) := by
  obtain ⟨buckets, hlist, hplaced, hperm⟩ := h.buckets
  have hlen : s.length = buckets.length := by rw [State.length, hlist, getD_some]
  obtain ⟨chain, buckets1, hchain, hset, hplaced1, -, hperm1⟩ := hplaced.push
    (e := (⟨key, value, H.hashCode key⟩ : Entry K V)) rfl
  rw [hlen]
  -- the state with the new entry, before it may be resized
  obtain ⟨s1, hs1⟩ : ∃ s1 : State K V, s1 =
      { s.store s.buckets buckets1 with elementCount := s.elementCount + 1 } := ⟨_, rfl⟩
  have hlist1 : s1.heap[s1.buckets]? = some buckets1 := by
    rw [hs1]
    exact List.getElem?_set_self (List.getElem?_eq_some_iff.mp hlist).1
  have hset_m : (m.set key value).entries = m.entries ++ [(key, value)] :=
    set_of_absent (get_eq_none_iff.mp habs)
  have hperm' : (pairs buckets1).Perm (m.set key value).entries := by
    rw [hset_m]
    refine (hperm1.map Entry.pair).trans ?_
    exact (hperm.cons _).trans (perm_append_singleton _ _).symm
  have hcnt : s1.elementCount = (m.set key value).entries.length := by
    rw [hset_m, hs1, length_append, length_singleton, h.count]
  have hresized : ∃ s2 buckets2, resizeIfFull s1 (s.elementCount + 1) buckets.length = .ok s2 ∧
      s2.heap[s2.buckets]? = some buckets2 ∧ Placed H buckets2 ∧
      (pairs buckets2).Perm (pairs buckets1) ∧ s2.elementCount = s1.elementCount ∧
      s2.modificationCount = s1.modificationCount := by
    rw [resizeIfFull]
    split
    · exact resize_spec hlist1 hplaced1
    · exact ⟨s1, buckets1, rfl, hlist1, hplaced1, .refl _, rfl, rfl⟩
  obtain ⟨s2, buckets2, hs2, hlist2, hplaced2, hperm2, hcount2, hstamp2⟩ := hresized
  have hstamp : nextModification s2.modificationCount = (s.modificationCount + 1) % 2 ^ 30 := by
    rw [nextModification_eq, hstamp2, hs1]
    rfl
  have hchg : (assignEffect m key).changed = true := by rw [assignEffect, habs]; rfl
  refine ⟨{ s2 with modificationCount := nextModification s2.modificationCount }, ?_,
    ⟨⟨buckets2, hlist2, hplaced2, hperm2.trans hperm'⟩, hcount2.trans hcnt, ?_⟩, ?_, ?_, ?_, ?_⟩
  · rw [addEntry, list_eq hlist, ok_bind, hchain, ok_bind, hset, ok_bind]
    dsimp only
    rw [← hs1, hs2, ok_bind]
  · rw [hstamp]
    exact mod_lt _ (by decide)
  · simp [hchg]
  · simp [hchg]
  · simp [hchg]
  · exact fun _ => ⟨1, by decide, le_rfl, hstamp⟩

omit h in
/-- Another chain with the same hash codes in the list of the map. -/
lemma length_store {buckets buckets' : Buckets K V} (hlist : s.heap[s.buckets]? = some buckets)
    (hlen : buckets'.length = buckets.length) :
    (s.store s.buckets buckets').heap[s.buckets]? = some buckets' ∧
      (s.store s.buckets buckets').length = s.length := by
  have hget : (s.heap.set s.buckets buckets')[s.buckets]? = some buckets' :=
    List.getElem?_set_self (List.getElem?_eq_some_iff.mp hlist).1
  refine ⟨hget, ?_⟩
  rw [State.length, State.length, hlist]
  change ((s.heap.set s.buckets buckets')[s.buckets]?.getD []).length = _
  rw [hget, getD_some, getD_some, hlen]

lemma Represents.assignKey_spec (key : K) (value : V) :
    ∃ s', assignKey H s key value = .ok s' ∧ Represents s' (m.set key value) ∧
      Moves s s' m (m.set key value) (assignEffect m key) := by
  obtain ⟨buckets, hlist, hplaced, hperm⟩ := h.buckets
  have hlen : s.length = buckets.length := by rw [State.length, hlist, getD_some]
  obtain ⟨left, chain, right, hsplit, hleft, hchain, hhashed, habsentL, habsentR⟩ :=
    hplaced.split key
  rw [assignKey]
  dsimp only
  rw [list_eq hlist, ok_bind, hchain, ok_bind]
  rcases assign_eq hhashed key value with ⟨habs, hnone⟩ |
    ⟨hpresent, chain', hsome, hpairs, hhashed', hcodes⟩
  · have hget : m.get key = none := by
      rw [← h.get_eq hlist, get_eq_none_iff, hsplit, pairs_split]
      exact (habsentL.append habs).append habsentR
    rw [hnone]
    have hadd := h.addEntry_spec value hget
    rw [hlen] at hadd
    exact hadd
  · rw [hsome]
    have hget : m.get key ≠ none := by
      rw [← h.get_eq hlist, Ne, get_eq_none_iff, hsplit, pairs_split]
      exact fun habs => hpresent fun p hp => habs p (by simp [hp])
    have hset : setChain buckets (bucketIndex (H.hashCode key) buckets.length) chain' =
        .ok (left ++ chain' :: right) := by
      rw [← hleft]
      conv_lhs => rw [hsplit]
      exact setChain_split ..
    have hpairs' : pairs (left ++ chain' :: right) =
        Associations.set H.toKeyEquality (pairs buckets) key value := by
      conv_rhs => rw [hsplit, pairs_split, set_middle habsentL hpresent]
      rw [pairs_split, hpairs]
    have hplaced' : Placed H (left ++ chain' :: right) := by
      have hplaced1 := hplaced
      rw [hsplit] at hplaced1
      refine hplaced1.replace hhashed' fun e he => ?_
      have hcode : e.hashCode ∈ chain.map Entry.hashCode := by
        rw [← hcodes]
        exact mem_map_of_mem he
      obtain ⟨e', he', heq⟩ := mem_map.mp hcode
      rw [← heq]
      exact hplaced1.index left.length chain (by simp) e' he'
    obtain ⟨hlist', hlength'⟩ := @length_store _ _ s _ (left ++ chain' :: right) hlist
      (by conv_rhs => rw [hsplit]
          simp)
    have hperm' : (pairs (left ++ chain' :: right)).Perm (m.set key value).entries := by
      rw [hpairs']
      exact (m.distinct.set_perm hperm.symm key value).symm
    have hsome' : (m.get key).isSome = true := isSome_iff_ne_none.mpr hget
    have hsame : (assignEffect m key).changed = false := by
      rw [assignEffect, ← not_isSome, hsome']
      rfl
    refine ⟨s.store s.buckets (left ++ chain' :: right), ?_,
      ⟨⟨_, hlist', hplaced', hperm'⟩, ?_, h.stamp⟩,
      fun _ => rfl, fun _ k hk => ?_, fun _ _ => ⟨rfl, hlength'⟩, by simp [hsame]⟩
    · change (setChain buckets _ chain' >>= fun buckets => Except.ok (s.store s.buckets buckets)) =
        _
      rw [hset, ok_bind]
    · rw [OrderedMap.length_set, if_pos hsome']
      exact h.count
    · rw [OrderedMap.get_set, if_neg, hk]
      intro hmatch
      rw [OrderedMap.get, ← get_congr m.entries hmatch] at hk
      exact hget hk

lemma Represents.addAll_spec (other : List (K × V)) :
    ∃ s', addAll H s other = .ok s' ∧
      Represents s' (other.foldl (fun m p => m.set p.1 p.2) m) ∧
      Moves s s' m (other.foldl (fun m p => m.set p.1 p.2) m) (addAllEffect other m) := by
  induction other generalizing s m with
  | nil => exact ⟨s, rfl, h, .refl s m rfl⟩
  | cons p other ih =>
    obtain ⟨s1, hs1, h1, hmoves1⟩ := h.assignKey_spec p.1 p.2
    obtain ⟨s2, hs2, h2, hmoves2⟩ := ih h1
    refine ⟨s2, ?_, h2, hmoves1.trans hmoves2⟩
    rw [addAll, foldlM_cons, hs1, ok_bind]
    exact hs2

lemma Represents.remove_spec (key : K) :
    ∃ s', remove H s (some key) = .ok (m.get key, s') ∧ Represents s' (m.erase key) ∧
      Moves s s' m (m.erase key) ⟨false, (m.get key).isSome, 1⟩ := by
  obtain ⟨buckets, hlist, hplaced, hperm⟩ := h.buckets
  obtain ⟨left, chain, right, hsplit, hleft, hchain, hhashed, habsentL, habsentR⟩ :=
    hplaced.split key
  have hget := h.get_eq hlist key
  have hmid : get H.toKeyEquality (pairs buckets) key =
      get H.toKeyEquality (chain.map Entry.pair) key := by
    conv_lhs => rw [hsplit, pairs_split, get_middle habsentL habsentR]
  rw [hmid] at hget
  rw [remove]
  dsimp only
  rw [list_eq hlist, ok_bind, hchain, ok_bind]
  rcases unlink_eq hhashed key with ⟨hnone, hunlink⟩ | ⟨value, chain', hsome, hunlink, hpairs, hsub⟩
  · rw [hunlink, ← hget, hnone]
    have hsame : m.erase key = m := by
      rw [hnone] at hget
      have hents := erase_of_absent (get_eq_none_iff.mp hget.symm)
      cases m
      simpa [OrderedMap.erase] using hents
    refine ⟨s, rfl, ?_, ?_⟩
    · rw [hsame]
      exact h
    · rw [hsame]
      exact .refl s m rfl
  · rw [hunlink, ← hget, hsome]
    have hpresent : ¬Absent H.toKeyEquality (chain.map Entry.pair) key := by
      rw [← get_eq_none_iff, hsome]
      exact some_ne_none value
    have hset : setChain buckets (bucketIndex (H.hashCode key) buckets.length) chain' =
        .ok (left ++ chain' :: right) := by
      rw [← hleft]
      conv_lhs => rw [hsplit]
      exact setChain_split ..
    have hpairs' : pairs (left ++ chain' :: right) =
        Associations.erase H.toKeyEquality (pairs buckets) key := by
      conv_rhs => rw [hsplit, pairs_split, erase_middle habsentL hpresent]
      rw [pairs_split, hpairs]
    have hplaced' : Placed H (left ++ chain' :: right) := by
      have hplaced1 := hplaced
      rw [hsplit] at hplaced1
      exact hplaced1.replace (fun e he => hhashed e (hsub.mem he)) fun e he =>
        hplaced1.index left.length chain (by simp) e (hsub.mem he)
    obtain ⟨hlist', -⟩ := @length_store _ _ s _ (left ++ chain' :: right) hlist
      (by conv_rhs => rw [hsplit]
          simp)
    have hperm' : (pairs (left ++ chain' :: right)).Perm (m.erase key).entries := by
      rw [hpairs']
      exact (m.distinct.erase_perm hperm.symm key).symm
    have hcnt : (m.erase key).entries.length = m.entries.length - 1 := by
      rw [hsome] at hget
      obtain ⟨l1, k, l2, hents, hk, hl1⟩ := exists_split_of_get hget.symm
      have herase : (m.erase key).entries = l1 ++ l2 := by
        rw [OrderedMap.erase]
        dsimp only
        rw [hents, erase_of_split hk hl1]
      rw [herase, hents]
      simp
    refine ⟨{ s.store s.buckets (left ++ chain' :: right) with
        elementCount := s.elementCount - 1
        modificationCount := nextModification s.modificationCount }, ?_,
      ⟨⟨_, hlist', hplaced', hperm'⟩, ?_, ?_⟩, by simp, by simp, by simp,
      fun _ => ⟨1, by decide, le_rfl, nextModification_eq _⟩⟩
    · change (setChain buckets _ chain' >>= fun buckets => _) = _
      rw [hset, ok_bind]
    · rw [hcnt, ← h.count]
    · rw [nextModification_eq]
      exact mod_lt _ (by decide)

lemma Represents.clear_spec :
    Represents (clear s) (OrderedMap.empty H.toKeyEquality V) ∧
      Moves s (clear s) m (OrderedMap.empty H.toKeyEquality V) ⟨true, !m.entries.isEmpty, 1⟩ := by
  have hbuckets : ∃ buckets, (clear s).heap[(clear s).buckets]? = some buckets ∧ Placed H buckets ∧
      (pairs buckets).Perm (OrderedMap.empty H.toKeyEquality V).entries := by
    refine ⟨newBuckets (2 ^ 3), ?_, newBuckets_placed 3, by rw [pairs_newBuckets]; exact .refl _⟩
    rw [clear]
    split <;> simp [initialCapacity]
  have hcnt := h.count
  cases hents : m.entries with
  | nil =>
    rw [hents] at hcnt
    have hclear : clear s = { s with
        heap := s.heap ++ [newBuckets initialCapacity], buckets := s.heap.length } := by
      exact if_neg (by rw [hcnt]; simp)
    refine ⟨⟨hbuckets, ?_, ?_⟩, ?_, fun _ _ _ => rfl, by simp, by simp⟩
    · rw [hclear]
      exact hcnt
    · rw [hclear]
      exact h.stamp
    · intro _
      rw [hclear]
  | cons p rest =>
    rw [hents] at hcnt
    have hclear : clear s = { s with
        heap := s.heap ++ [newBuckets initialCapacity], buckets := s.heap.length
        elementCount := 0, modificationCount := nextModification s.modificationCount } := by
      exact if_pos (by rw [hcnt]; simp)
    refine ⟨⟨hbuckets, ?_, ?_⟩, by simp, by simp, by simp, fun _ => ⟨1, by decide, le_rfl, ?_⟩⟩
    · rw [hclear]
      rfl
    · rw [hclear]
      rw [nextModification_eq]
      exact mod_lt _ (by decide)
    · rw [hclear]
      exact nextModification_eq _

lemma Represents.run_spec (o : Operation K V) :
    ∃ s', o.run H s = .ok ((o.spec m).1, s') ∧ Represents s' (o.spec m).2 ∧
      Moves s s' m (o.spec m).2 (o.effect m) := by
  cases o with
  | assign key value =>
    obtain ⟨s', hs', h', hmoves⟩ := h.assignKey_spec key value
    exact ⟨s', by rw [Operation.run, hs', ok_bind]; rfl, h', hmoves⟩
  | lookup key => exact ⟨s, by rw [Operation.run, h.lookup_spec, ok_bind]; rfl, h, .refl s m rfl⟩
  | containsKey key =>
    exact ⟨s, by rw [Operation.run, h.containsKey_spec, ok_bind]; rfl, h, .refl s m rfl⟩
  | remove key =>
    cases key with
    | none => exact ⟨s, rfl, h, .refl s m rfl⟩
    | some key =>
      obtain ⟨s', hs', h', hmoves⟩ := h.remove_spec key
      exact ⟨s', by rw [Operation.run, hs', ok_bind]; rfl, h', hmoves⟩
  | clear =>
    obtain ⟨h', hmoves⟩ := h.clear_spec
    exact ⟨HashMap.clear s, rfl, h', hmoves⟩
  | addAll other =>
    obtain ⟨s', hs', h', hmoves⟩ := h.addAll_spec other
    exact ⟨s', by rw [Operation.run, hs', ok_bind]; rfl, h', hmoves⟩
  | length =>
    refine ⟨s, ?_, h, .refl s m rfl⟩
    rw [Operation.run, h.count]
    rfl

/-- What `putIfAbsent` remembers of a state. -/
def contextOf (H : Hashing K) (key : K) (s : State K V) : Context K :=
  ⟨key, H.hashCode key, s.buckets, s.length, bucketIndex (H.hashCode key) s.length,
    s.modificationCount⟩

/-- The context is of an earlier state, where the key was absent. -/
def Track (key : K) (c : Context K) (e : Effects) (s : State K V) (m : Map H V) : Prop :=
  ∃ s₀ m₀, c = contextOf H key s₀ ∧ s₀.modificationCount < 2 ^ 30 ∧ OrderedMap.get m₀ key = none ∧
    Moves s₀ s m₀ m e

omit h in
lemma Track.moves {c : Context K} {e e' : Effects} {s' : State K V} {m' : Map H V}
    (h : Track key c e s m) (hmoves : Moves s s' m m' e') : Track key c (e * e') s' m' := by
  obtain ⟨s0, m0, hc, hstamp, hkey, hmoves0⟩ := h
  exact ⟨s0, m0, hc, hstamp, hkey, hmoves0.trans hmoves⟩

/-- A callback that clears the map changes its keys and accesses fewer keys than there are
modification counts. -/
def Harmless (e : Effects) : Prop := (e.cleared = true → e.changed = true) ∧ e.cost < 2 ^ 30

lemma Represents.start_spec (key : K) :
    putIfAbsentStart H key s = .ok
      (match m.get key with
        | some value => .inl value
        | none => .inr (contextOf H key s), s) := by
  obtain ⟨buckets, hlist, hplaced, -⟩ := h.buckets
  have hlen : s.length = buckets.length := by rw [State.length, hlist, getD_some]
  obtain ⟨chain, hchain, hfind⟩ := hplaced.get_eq key
  rw [putIfAbsentStart]
  dsimp only
  rw [list_eq hlist, ok_bind, hchain, ok_bind, ← h.get_eq hlist, ← hfind, contextOf, hlen]
  cases chain.find? fun e => e.matches H (H.hashCode key) key with
  | none => rfl
  | some e => rfl

lemma Represents.finish_spec {c : Context K} {e : Effects} (htrack : Track key c e s m)
    (hgood : Harmless e) (value : V) :
    ∃ s', putIfAbsentFinish H c value s = .ok s' ∧ Represents s' (m.set key value) ∧
      Moves s s' m (m.set key value) (assignEffect m key) := by
  obtain ⟨s0, m0, rfl, hstamp, hkey, hmoves⟩ := htrack
  rw [putIfAbsentFinish]
  cases hchg : e.changed with
  | true =>
    obtain ⟨d, hd, hle, hcnt⟩ := hmoves.changed hchg
    have hcost := hgood.2
    rw [if_neg (by change ¬s0.modificationCount = s.modificationCount; omega)]
    exact h.assignKey_spec key value
  | false =>
    have hcleared : e.cleared = false := by
      rw [← not_eq_true]
      intro hcleared
      rw [hgood.1 hcleared] at hchg
      exact absurd hchg (by decide)
    obtain ⟨hbuckets, hlen⟩ := hmoves.list hchg hcleared
    have hsame : (contextOf H key s0).stamp = s.modificationCount := (hmoves.stamp hchg).symm
    rw [if_pos hsame, contextOf, ← hbuckets, ← hlen]
    exact h.addEntry_spec value (hmoves.keys hchg key hkey)

end

lemma simulation (H : Hashing K) (V : Type) :
    Simulation (implementation H) (specification H V)
      (fun _ => True) Harmless Represents Track where
  perform o h _ := by
    obtain ⟨s', hrun, h', hmoves⟩ := h.run_spec o
    exact ⟨s', hrun, h', fun _ _ _ htrack => htrack.moves hmoves⟩
  found {s m} key value h hget := by
    refine ⟨s, ?_, h, fun _ _ _ htrack => htrack.moves (.refl s m rfl)⟩
    change putIfAbsentStart H key s = _
    rw [h.start_spec, show m.get key = some value from hget]
  absent {s m} key h hget := by
    refine ⟨contextOf H key s, s, ?_, h, ⟨s, m, rfl, h.stamp, hget, .refl s m rfl⟩,
      fun _ _ _ htrack => htrack.moves (.refl s m rfl)⟩
    change putIfAbsentStart H key s = _
    rw [h.start_spec, show m.get key = none from hget]
  finish key c e value h htrack hgood _ := by
    obtain ⟨s', hrun, h', hmoves⟩ := h.finish_spec htrack hgood value
    exact ⟨s', hrun, h', fun _ _ _ htrack => htrack.moves hmoves⟩

lemma initial_represents : Represents (initial : State K V)
    (OrderedMap.empty H.toKeyEquality V) := by
  refine ⟨⟨newBuckets (2 ^ 3), rfl, newBuckets_placed 3, ?_⟩, rfl, Nat.two_pow_pos 30⟩
  exact .refl _

end

/-- What a user can see of a map, and how its entries are stored. -/
structure Faithful (H : Hashing K) (s : State K V) (m : Map H V) : Prop where
  lookup : ∀ key, HashMap.lookup H s (some key) = .ok (m.get key)
  containsKey : ∀ key, HashMap.containsKey H s (some key) = .ok (m.get key).isSome
  length : s.elementCount = m.entries.length
  /-- The entries stand in the chains of their hash codes, no key stands twice, and every
  entry that an iteration meets is found by a lookup of its key. -/
  buckets : ∃ buckets, s.list s.buckets = .ok buckets ∧ Placed H buckets ∧
    Distinct H.toKeyEquality (pairs buckets) ∧
    ∀ p ∈ pairs buckets, HashMap.lookup H s (some p.1) = .ok (some p.2)

lemma Represents.faithful {s : State K V} {m : Map H V} (h : Represents s m) :
    Faithful H s m := by
  refine ⟨fun key => h.lookup_spec (some key), fun key => h.containsKey_spec (some key),
    h.count, ?_⟩
  obtain ⟨buckets, hlist, hplaced, hperm⟩ := h.buckets
  have hdist := m.distinct.perm hperm.symm
  refine ⟨buckets, list_eq hlist, hplaced, hdist, fun p hp => ?_⟩
  rw [h.lookup_spec]
  change Except.ok (m.get p.1) = _
  rw [← h.get_eq hlist, hdist.get_of_mem hp (H.refl p.1)]

/-- Every program whose callbacks are harmless gets the answers of the finite map, also inside them.
-/
theorem run_refines_finite_map (H : Hashing K) (script : Script K V (Operation K V) (Answer V))
    (hsafe : script.Safe (specification H V) (fun _ => True) Harmless (.empty H.toKeyEquality V)) :
    ∃ s, script.run (implementation H) initial =
        .ok ((script.eval (specification H V) (.empty H.toKeyEquality V)).value, s) ∧
      Faithful H s (script.eval (specification H V) (.empty H.toKeyEquality V)).map := by
  obtain ⟨s, hrun, h, -⟩ := (simulation H V).run_spec script initial_represents hsafe
  exact ⟨s, hrun, h.faithful⟩

def natHashing : Hashing ℕ where
  equals k k' := k == k'
  refl k := beq_self_eq_true k
  symm k k' h := by rw [beq_iff_eq] at *; exact h.symm
  trans k₁ k₂ k₃ h h' := by rw [beq_iff_eq] at *; exact h.trans h'
  hashCode k := k
  compatible k k' h := by rw [beq_iff_eq] at h; rw [h]

/-- A callback that inserts and removes another key. -/
def busyScript : Script ℕ ℕ (Operation ℕ ℕ) (Answer ℕ) :=
  .putIfAbsent 1
    (.perform (.assign 2 5) fun _ => .perform (.remove (some 2)) fun _ => .perform .clear fun _ =>
      .ret 6)
    fun value => .ret value

theorem run_refines_finite_map_busy :
    ∃ s, busyScript.run (implementation natHashing) initial = .ok (6, s) ∧
      Faithful natHashing s ⟨[(1, 6)], pairwise_singleton _ _⟩ :=
  run_refines_finite_map natHashing busyScript
    ⟨⟨trivial, trivial, trivial, trivial⟩, ⟨fun _ => rfl, by decide⟩, trivial, trivial⟩

/-- A callback that clears the empty map. -/
def clearingScript : Script ℕ ℕ (Operation ℕ ℕ) (Answer ℕ) :=
  .putIfAbsent 1 (.perform .clear fun _ => .ret 6) fun value => .ret value

/-- The map after the callback: the entry is in the list of buckets that `clear` has replaced. -/
def lostEntry : State ℕ ℕ :=
  ⟨1, 1, 1, [(newBuckets 8).set 1 [⟨1, 6, 1⟩], newBuckets 8]⟩

/-- The map counts an entry that it does not find. -/
theorem clearing_callback_loses_entry :
    clearingScript.run (implementation natHashing) initial = .ok (6, lostEntry) ∧
      (clearingScript.eval (specification natHashing ℕ) (.empty _ ℕ)).map.get 1 = some 6 ∧
      lookup natHashing lostEntry (some 1) = .ok none ∧ lostEntry.elementCount = 1 := by
  decide +kernel

end DartSdk.HashMap
