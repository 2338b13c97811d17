import Mathlib
import DartSdk.Checked

/-!
The hash tables of runtime/lib/compact_hash.dart, which keep an index apart from the entries. A
map has two words for an entry and a set has one; counted in entries, their code is the same.
There are places for half as many entries as the index has slots. What `putIfAbsent` is given is
inserted as `[]=` does. A key is never equal to the array, which marks deleted entries.
-/

namespace DartSdk.CompactHash

open Checked List

/-- The hash code as a bit pattern, and the equality. -/
structure Keys (K : Type) where
  hashCode : K → ℕ
  equals : K → K → Bool

/-- `data` holds the entries in use, with `none` for a deleted one; `allocation` tells their arrays
apart. -/
structure Table (K V : Type) where
  index : List ℕ
  hashMask : ℕ
  data : List (Option (K × V))
  deletedKeys : ℕ
  allocation : ℕ
  counted : deletedKeys = data.countP Option.isNone
  deriving DecidableEq

def initialIndexSize : ℕ := 1 <<< (3 + 1)

def unusedPair : ℕ := 0

def deletedPair : ℕ := 1

def indexSizeToHashMask (is64Bit : Bool) (indexSize : ℕ) : ℕ :=
  let indexBits := indexSize.size - 2
  if is64Bit then 1 <<< (32 - indexBits) - 1 else 1 <<< (30 - indexBits) - 1

def hashPattern (fullHash hashMask size : ℕ) : ℕ :=
  let maskedHash := fullHash &&& hashMask
  if maskedHash = 0 then size >>> 1 else maskedHash * (size >>> 1)

def firstProbe (fullHash sizeMask : ℕ) : ℕ :=
  let i := fullHash &&& sizeMask
  (i <<< 1 + i) &&& sizeMask

def nextProbe (i sizeMask : ℕ) : ℕ := (i + 1) &&& sizeMask

variable {K V : Type}

namespace Table

/-- A table without entries. -/
def new (size hashMask allocation : ℕ) : Table K V :=
  ⟨replicate size unusedPair, hashMask, [], 0, allocation, rfl⟩

def empty (is64Bit : Bool) : Table K V :=
  new initialIndexSize (indexSizeToHashMask is64Bit initialIndexSize) 0

def length (t : Table K V) : ℕ := t.data.length - t.deletedKeys

variable (keys : Keys K)

def pattern (t : Table K V) (key : K) : ℕ :=
  hashPattern (keys.hashCode key) t.hashMask t.index.length

/-- An entry that is not deleted. -/
structure Found (t : Table K V) where
  entry : ℕ
  key : K
  value : V
  here : t.data[entry]? = some (some (key, value))

lemma Found.countP_set {t : Table K V} (found : t.Found) (e : Option (K × V)) :
    (t.data.set found.entry e).countP Option.isNone = t.deletedKeys + e.isNone.toNat := by
  obtain ⟨hlt, hget⟩ := List.getElem?_eq_some_iff.mp found.here
  rw [List.countP_set hlt, hget, t.counted]
  cases e with
  | none => rfl
  | some e => rfl

/-- The entry, if its key is equal to the one given. -/
def entryOf (t : Table K V) (key : K) (entry : ℕ) : Option t.Found :=
  if entry < t.index.length >>> 1 then
    match h : t.data[entry]? with
    | some (some (k, v)) => if keys.equals key k then some ⟨entry, k, v, h⟩ else none
    | _ => none
  else none

/-- The search from a slot on, with the first deleted slot before it. -/
def searchFrom (t : Table K V) (key : K) : ℕ → ℕ → Option ℕ → Result ((ℕ × t.Found) ⊕ ℕ)
  | 0, _, _ => .error .diverges
  | fuel + 1, i, firstDeleted =>
    let next := nextProbe i (t.index.length - 1)
    match t.index[i]? with
    | none => .error .outOfBounds
    | some pair =>
      if pair = unusedPair then .ok (.inr (firstDeleted.getD i))
      else if pair = deletedPair then searchFrom t key fuel next (firstDeleted.or (some i))
      else
        match t.entryOf keys key (t.pattern keys key ^^^ pair) with
        | some found => .ok (.inl (i, found))
        | none => searchFrom t key fuel next firstDeleted

def search (t : Table K V) (key : K) : Result ((ℕ × t.Found) ⊕ ℕ) :=
  t.searchFrom keys key (t.index.length + 1)
    (firstProbe (keys.hashCode key) (t.index.length - 1)) none

def init (put : Table K V → K → V → Result (Table K V)) (size hashMask : ℕ) (old : Table K V) :
    Result (Table K V) :=
  old.data.foldlM (fun t entry =>
    match entry with
    | some (key, value) => put t key value
    | none => .ok t) (new size hashMask (old.allocation + 1))

def rehash (put : Table K V → K → V → Result (Table K V)) (t : Table K V) : Result (Table K V) :=
  if t.data.length < 2 * t.deletedKeys then init put t.index.length t.hashMask t
  else init put (t.index.length <<< 1) (t.hashMask >>> 1) t

/-- `[]=` of a map and `add` of a set, with a bound for the calls inside calls. -/
def put : ℕ → Table K V → K → V → Result (Table K V)
  | 0, _, _, _ => .error .diverges
  | depth + 1, t, key, value => do
      match ← t.search keys key with
      | .inl (_, found) => .ok { t with
          data := t.data.set found.entry (some (found.key, value))
          counted := (found.countP_set (some (found.key, value))).symm }
      | .inr i =>
        if t.data.length = t.index.length >>> 1 then do
          let t ← t.rehash (put depth)
          put depth t key value
        else
          .ok { t with
            index := t.index.set i ((t.pattern keys key ||| t.data.length) % 2 ^ 32)
            data := t.data ++ [some (key, value)]
            counted := by simp [t.counted] }

def remove (t : Table K V) (key : K) : Result (Table K V) := do
  match ← t.search keys key with
  | .inl (i, found) => .ok { t with
      index := t.index.set i deletedPair
      data := t.data.set found.entry none
      deletedKeys := t.deletedKeys + 1
      counted := (found.countP_set none).symm }
  | .inr _ => .ok t

/-- `clear` starts anew, but with the mask that the table has. -/
def clear (t : Table K V) : Table K V :=
  if t.length = 0 then t else new initialIndexSize t.hashMask (t.allocation + 1)

end Table

inductive Operation (K V : Type)
  | put (key : K) (value : V)
  | remove (key : K)
  | rehash
  | clear

def Operation.step (keys : Keys K) (t : Table K V) : Operation K V → Result (Table K V)
  | put key value => t.put keys 2 key value
  | remove key => t.remove keys key
  | rehash => t.rehash (Table.put keys 2)
  | clear => .ok t.clear

def run (keys : Keys K) (is64Bit : Bool) (operations : List (Operation K V)) : Result (Table K V) :=
  operations.foldlM (Operation.step keys) (Table.empty is64Bit)

lemma exists_of_bind_eq_ok {α β : Type} {r : Result α} {f : α → Result β} {b : β}
    (h : (r >>= f) = .ok b) : ∃ a, r = .ok a ∧ f a = .ok b := by
  cases r with
  | error e => cases h
  | ok a => exact ⟨a, rfl, h⟩

namespace Table

variable {keys : Keys K} {t t' : Table K V}

/-- The mask loses a bit each time that the index doubles, and arrays are never taken again. -/
def Follows (t t' : Table K V) : Prop :=
  (∃ d, t'.index.length = 2 ^ d * t.index.length ∧ t'.hashMask = t.hashMask >>> d) ∧
    t.allocation ≤ t'.allocation

lemma Follows.of_eq (hidx : t'.index.length = t.index.length) (hmask : t'.hashMask = t.hashMask)
    (hallocation : t.allocation ≤ t'.allocation) : Follows t t' :=
  ⟨⟨0, by rw [hidx, pow_zero, one_mul], hmask⟩, hallocation⟩

lemma Follows.trans {t'' : Table K V} (h : Follows t t') (h' : Follows t' t'') :
    Follows t t'' := by
  obtain ⟨⟨d, hsize, hmask⟩, hle⟩ := h
  obtain ⟨⟨d', hsize', hmask'⟩, hle'⟩ := h'
  refine ⟨⟨d + d', ?_, ?_⟩, hle.trans hle'⟩
  · rw [hsize', hsize, pow_add]
    ring
  · rw [hmask', hmask, Nat.shiftRight_add]

lemma foldlM_follows {α : Type} {f : Table K V → α → Result (Table K V)}
    (hf : ∀ t a t', f t a = .ok t' → Follows t t') {l : List α} (h : l.foldlM f t = .ok t') :
    Follows t t' := by
  induction l generalizing t with
  | nil =>
    cases h
    exact .of_eq rfl rfl le_rfl
  | cons a l ih =>
    rw [foldlM_cons] at h
    obtain ⟨t1, hfirst, hrest⟩ := exists_of_bind_eq_ok h
    exact (hf t a t1 hfirst).trans (ih hrest)

lemma rehash_follows {put : Table K V → K → V → Result (Table K V)}
    (hput : ∀ t k v t', put t k v = .ok t' → Follows t t') (h : t.rehash put = .ok t') :
    Follows t t' ∧ t.allocation < t'.allocation := by
  have hinit : ∀ size mask, Follows t (new size mask (t.allocation + 1)) →
      t.init put size mask = .ok t' → Follows t t' ∧ t.allocation < t'.allocation := by
    intro size mask hnew hrun
    have hfill : Follows (new size mask (t.allocation + 1)) t' := by
      refine foldlM_follows (fun t entry t' hstep => ?_) hrun
      rcases entry with _ | ⟨k, v⟩
      · cases hstep
        exact .of_eq rfl rfl le_rfl
      · exact hput t k v t' hstep
    exact ⟨hnew.trans hfill, hfill.2⟩
  unfold rehash at h
  split_ifs at h
  · exact hinit _ _ (.of_eq length_replicate rfl (Nat.le_succ _)) h
  · refine hinit _ _ ⟨⟨1, ?_, rfl⟩, Nat.le_succ _⟩ h
    rw [new, length_replicate, Nat.shiftLeft_eq, mul_comm]

lemma put_follows {depth : ℕ} {key : K} {value : V}
    (h : t.put keys depth key value = .ok t') : Follows t t' := by
  induction depth generalizing t t' key value with
  | zero => cases h
  | succ depth ih =>
    rw [put] at h
    obtain ⟨r, -, h⟩ := exists_of_bind_eq_ok h
    rcases r with ⟨i, found⟩ | i
    · cases h
      exact .of_eq rfl rfl le_rfl
    · dsimp only at h
      split_ifs at h
      · obtain ⟨t1, hrehash, hput⟩ := exists_of_bind_eq_ok h
        exact (rehash_follows (fun _ _ _ _ => ih) hrehash).1.trans (ih hput)
      · cases h
        exact .of_eq length_set rfl le_rfl

lemma remove_follows {key : K} (h : t.remove keys key = .ok t') : Follows t t' := by
  obtain ⟨r, -, h⟩ := exists_of_bind_eq_ok h
  rcases r with ⟨i, found⟩ | i
  · cases h
    exact .of_eq length_set rfl le_rfl
  · cases h
    exact .of_eq rfl rfl le_rfl

end Table

variable {keys : Keys K} {is64Bit : Bool} {t t' : Table K V} {before : List (Operation K V)}
  {operation : Operation K V}

lemma Operation.step_follows (h : operation.step keys t = .ok t')
    (hclear : operation = .clear → t.length = 0) : t.Follows t' := by
  cases operation with
  | put key value => exact Table.put_follows h
  | remove key => exact Table.remove_follows h
  | rehash => exact (Table.rehash_follows (fun _ _ _ _ => Table.put_follows) h).1
  | clear =>
    obtain rfl : t.clear = t' := Except.ok.inj h
    rw [Table.clear, if_pos (hclear rfl)]
    exact .of_eq rfl rfl le_rfl

lemma run_concat (h : run keys is64Bit (before ++ [operation]) = .ok t') :
    ∃ t, run keys is64Bit before = .ok t ∧ operation.step keys t = .ok t' := by
  rw [run, foldlM_append] at h
  obtain ⟨t, hpre, h⟩ := exists_of_bind_eq_ok h
  rw [foldlM_cons] at h
  obtain ⟨t1, hstep, h⟩ := exists_of_bind_eq_ok h
  cases h
  exact ⟨t, hpre, hstep⟩

lemma run_index (h : run keys is64Bit before = .ok t) : ∃ k, t.index.length = 2 ^ (k + 4) := by
  induction before using reverseRecOn generalizing t with
  | nil =>
    cases h
    exact ⟨0, rfl⟩
  | append_singleton before operation ih =>
    obtain ⟨s, hpre, hstep⟩ := run_concat h
    obtain ⟨k, hk⟩ := ih hpre
    by_cases hclear : operation = .clear → s.length = 0
    · obtain ⟨⟨d, hd, -⟩, -⟩ := Operation.step_follows hstep hclear
      exact ⟨d + k, by rw [hd, hk]; ring⟩
    · obtain ⟨rfl, hne⟩ := Classical.not_imp.mp hclear
      obtain rfl : s.clear = t := Except.ok.inj hstep
      rw [Table.clear, if_neg hne]
      exact ⟨0, rfl⟩

def Table.MaskFits (is64Bit : Bool) (t : Table K V) : Prop :=
  t.hashMask = indexSizeToHashMask is64Bit t.index.length

lemma indexSizeToHashMask_two_pow (is64Bit : Bool) (k : ℕ) :
    indexSizeToHashMask is64Bit (2 ^ (k + 4)) = 2 ^ ((if is64Bit then 29 else 27) - k) - 1 := by
  rw [indexSizeToHashMask, Nat.size_pow]
  cases is64Bit with
  | true => simp [Nat.shiftLeft_eq]
  | false => simp [Nat.shiftLeft_eq]

lemma two_pow_sub_one_shiftRight (n d : ℕ) : (2 ^ n - 1) >>> d = 2 ^ (n - d) - 1 := by
  refine Nat.eq_of_testBit_eq fun i => ?_
  rw [Nat.testBit_shiftRight, Nat.testBit_two_pow_sub_one, Nat.testBit_two_pow_sub_one]
  exact decide_eq_decide.mpr (by omega)

lemma Table.Follows.maskFits {k : ℕ} (h : t.Follows t') (hk : t.index.length = 2 ^ (k + 4))
    (hfits : t.MaskFits is64Bit) : t'.MaskFits is64Bit := by
  obtain ⟨⟨d, hsize, hmask⟩, -⟩ := h
  rw [Table.MaskFits, hk, indexSizeToHashMask_two_pow] at hfits
  rw [Table.MaskFits, hsize, hk, hmask, hfits, two_pow_sub_one_shiftRight,
    show 2 ^ d * 2 ^ (k + 4) = 2 ^ (k + d + 4) by ring, indexSizeToHashMask_two_pow, Nat.sub_sub]

lemma eq_initialIndexSize {k : ℕ} (h : indexSizeToHashMask is64Bit (2 ^ (k + 4)) =
    indexSizeToHashMask is64Bit initialIndexSize) : 2 ^ (k + 4) = initialIndexSize := by
  rw [show initialIndexSize = 2 ^ (0 + 4) from rfl, indexSizeToHashMask_two_pow,
    indexSizeToHashMask_two_pow] at h
  have hsub := Nat.pow_right_injective (le_refl 2)
    (Nat.sub_one_cancel (Nat.two_pow_pos _) (Nat.two_pow_pos _) h)
  obtain rfl : k = 0 := by
    split_ifs at hsub <;> omega
  rfl

/-- The mask always fits exactly when entries are only cleared while the index has its first size.
-/
theorem maskFits_iff (keys : Keys K) (is64Bit : Bool) (operations : List (Operation K V)) :
    (∀ before, before <+: operations → ∀ t, run keys is64Bit before = .ok t →
      t.MaskFits is64Bit) ↔
    ∀ before, before ++ [.clear] <+: operations → ∀ t, run keys is64Bit before = .ok t →
      t.length ≠ 0 → t.index.length = initialIndexSize := by
  constructor
  · intro h before hprefix t hrun hne
    have hfits := h before ((prefix_append _ _).trans hprefix) t hrun
    have hcleared : run keys is64Bit (before ++ [.clear]) = .ok t.clear := by
      rw [run, foldlM_append]
      exact (congrArg (· >>= _) hrun).trans rfl
    have hfits' := h _ hprefix t.clear hcleared
    obtain ⟨k, hk⟩ := run_index hrun
    rw [Table.MaskFits, hk] at hfits
    rw [Table.MaskFits, Table.clear, if_neg hne] at hfits'
    rw [hk]
    refine eq_initialIndexSize (hfits.symm.trans (hfits'.trans ?_))
    rw [Table.new, length_replicate]
  · intro h before
    induction before using reverseRecOn with
    | nil =>
      intro _ t hrun
      cases hrun
      rfl
    | append_singleton before operation ih =>
      intro hprefix t hrun
      obtain ⟨s, hbefore, hstep⟩ := run_concat hrun
      have hfits := ih ((prefix_append _ _).trans hprefix) s hbefore
      obtain ⟨k, hk⟩ := run_index hbefore
      by_cases hclear : operation = .clear → s.length = 0
      · exact (Operation.step_follows hstep hclear).maskFits hk hfits
      · obtain ⟨rfl, hne⟩ := Classical.not_imp.mp hclear
        obtain rfl : s.clear = t := Except.ok.inj hstep
        rw [Table.MaskFits, h before hprefix s hbefore hne] at hfits
        rw [Table.clear, if_neg hne]
        exact hfits

def numbers : Keys ℕ := ⟨id, fun a b => a == b⟩

/-- Nine entries make the index grow; after `clear` the mask lacks a bit. -/
theorem clear_keeps_mask :
    ∃ t : Table ℕ Unit, run numbers true ((List.range 9).map (.put · ()) ++ [.clear]) = .ok t ∧
      t.index.length = 16 ∧ t.hashMask = 2 ^ 28 - 1 ∧ ¬t.MaskFits true :=
  ⟨⟨replicate 16 0, 2 ^ 28 - 1, [], 0, 2, rfl⟩, by decide +kernel, rfl, rfl,
    by rw [Table.MaskFits]; decide⟩

/-- `_CompactIterable`: the array and its used part when `keys` or `values` was called. -/
structure View where
  allocation : ℕ
  len : ℕ

def Table.view (t : Table K V) : View := ⟨t.allocation, t.data.length⟩

/-- `moveNext` until it returns false, on the entries ahead. Each call looks at the array; `none` is
a ConcurrentModificationError. -/
def View.iterate {α : Type} (view : View) (part : K × V → α) (t : Table K V) :
    List (Option (K × V)) → Option (List α)
  | none :: rest => view.iterate part t rest
  | some e :: rest =>
    if t.allocation = view.allocation then (view.iterate part t rest).map (part e :: ·) else none
  | [] => if t.allocation = view.allocation then some [] else none

/-- What a new iterator yields. -/
def View.toList {α : Type} (view : View) (part : K × V → α) (t : Table K V) : Option (List α) :=
  view.iterate part t (t.data.take view.len)

lemma View.iterate_eq {α : Type} (view : View) (part : K × V → α) (t : Table K V)
    (l : List (Option (K × V))) : view.iterate part t l =
      if t.allocation = view.allocation then some (l.reduceOption.map part) else none := by
  induction l with
  | nil => rfl
  | cons e l ih =>
    cases e with
    | none => exact ih
    | some e =>
      rw [View.iterate, ih]
      split_ifs
      · rfl
      · rfl

def Table.entries (t : Table K V) : List (K × V) := t.data.reduceOption

lemma Table.length_entries (t : Table K V) : t.entries.length = t.length := by
  have hsum := @length_eq_reduceOption_length_add_filter_none _ t.data
  rw [← countP_eq_length_filter, ← t.counted] at hsum
  exact Nat.eq_sub_of_add_eq hsum.symm

/-- The operation gives the table a new array: a rehash, also one for a new key in a full table, and
`clear` of a table with entries. -/
def Operation.Reallocates (keys : Keys K) (t : Table K V) : Operation K V → Prop
  | put key _ => (∃ i, t.search keys key = .ok (.inr i)) ∧ t.data.length = t.index.length >>> 1
  | remove _ => False
  | rehash => True
  | clear => t.length ≠ 0

lemma Operation.allocation_step (h : operation.step keys t = .ok t') :
    t.allocation ≤ t'.allocation ∧
      (t'.allocation = t.allocation ↔ ¬operation.Reallocates keys t) := by
  cases operation with
  | put key value =>
    refine ⟨(Table.put_follows h).2, ?_⟩
    change t.put keys 2 key value = .ok t' at h
    rw [Table.put] at h
    obtain ⟨r, hsearch, h⟩ := exists_of_bind_eq_ok h
    rcases r with ⟨i, found⟩ | i
    · cases h
      refine iff_of_true rfl fun hre => ?_
      obtain ⟨⟨j, hj⟩, -⟩ := hre
      cases hsearch.symm.trans hj
    · dsimp only at h
      split_ifs at h with hfull
      · obtain ⟨t1, hrehash, hput⟩ := exists_of_bind_eq_ok h
        have hlt := (Table.rehash_follows (fun _ _ _ _ => Table.put_follows) hrehash).2
        exact iff_of_false (hlt.trans_le (Table.put_follows hput).2).ne'
          fun hnot => hnot ⟨⟨i, hsearch⟩, hfull⟩
      · cases h
        exact iff_of_true rfl fun hre => hfull hre.2
  | remove key =>
    obtain ⟨r, -, h⟩ := exists_of_bind_eq_ok h
    rcases r with ⟨i, found⟩ | i
    · cases h
      exact ⟨le_rfl, iff_of_true rfl not_false⟩
    · cases h
      exact ⟨le_rfl, iff_of_true rfl not_false⟩
  | rehash =>
    have hlt := (Table.rehash_follows (fun _ _ _ _ => Table.put_follows) h).2
    exact ⟨hlt.le, iff_of_false hlt.ne' fun hnot => hnot trivial⟩
  | clear =>
    obtain rfl : t.clear = t' := Except.ok.inj h
    by_cases hlength : t.length = 0
    · rw [Table.clear, if_pos hlength]
      exact ⟨le_rfl, iff_of_true rfl fun hne => hne hlength⟩
    · rw [Table.clear, if_neg hlength]
      exact ⟨Nat.le_succ _, iff_of_false (Nat.succ_ne_self _) fun hnot => hnot hlength⟩

/-- A table keeps its array as long as no operation reallocates. -/
lemma allocation_run {s : Table K V} {after : List (Operation K V)}
    (h : after.foldlM (Operation.step keys) s = .ok t') : s.allocation ≤ t'.allocation ∧
      (t'.allocation = s.allocation ↔ ∀ mid op, mid ++ [op] <+: after →
        ∀ t, mid.foldlM (Operation.step keys) s = .ok t → ¬op.Reallocates keys t) := by
  induction after using reverseRecOn generalizing t' with
  | nil =>
    cases h
    refine ⟨le_rfl, iff_of_true rfl fun mid op hpre => ?_⟩
    exact absurd (prefix_nil.mp hpre) (append_ne_nil_of_right_ne_nil _ (cons_ne_nil _ _))
  | append_singleton after op ih =>
    rw [foldlM_append] at h
    obtain ⟨t, hbefore, h⟩ := exists_of_bind_eq_ok h
    rw [foldlM_cons] at h
    obtain ⟨t1, hstep, h⟩ := exists_of_bind_eq_ok h
    cases h
    obtain ⟨hle, hiff⟩ := ih hbefore
    obtain ⟨hle', hiff'⟩ := Operation.allocation_step hstep
    refine ⟨hle.trans hle', ?_⟩
    have hsplit : t'.allocation = s.allocation ↔
        t.allocation = s.allocation ∧ t'.allocation = t.allocation := by
      omega
    rw [hsplit, hiff, hiff']
    constructor
    · rintro ⟨hmid, hlast⟩ mid o hpre u hu
      rcases prefix_concat_iff.mp hpre with hwhole | hpre
      · obtain ⟨hmid, hop⟩ := append_inj' hwhole rfl
        subst hmid
        cases hop
        rw [hbefore] at hu
        cases hu
        exact hlast
      · exact hmid mid o hpre u hu
    · intro hall
      exact ⟨fun mid o hpre => hall mid o (hpre.trans (prefix_append _ _)),
        hall after op (prefix_refl _) t hbefore⟩

/-- A view yields what the table has now exactly when the array is the same and all that was added
since has been deleted. -/
theorem view_live_iff {α : Type} (keys : Keys K) (is64Bit : Bool) (part : K × V → α)
    (before after : List (Operation K V)) :
    (∀ t t', run keys is64Bit before = .ok t → run keys is64Bit (before ++ after) = .ok t' →
      t.view.toList part t' = some (t'.entries.map part) ∧
        (t'.entries.map part).length = t'.length) ↔
    ∀ t t', run keys is64Bit before = .ok t → run keys is64Bit (before ++ after) = .ok t' →
      t'.allocation = t.allocation ∧ ∀ e ∈ t'.data.drop t.data.length, e = none := by
  refine forall₄_congr fun t t' _ _ => ?_
  rw [length_map, and_iff_left t'.length_entries, View.toList, View.iterate_eq]
  have hsplit : t'.entries.map part = (t'.data.take t.data.length).reduceOption.map part ++
      (t'.data.drop t.data.length).reduceOption.map part := by
    rw [← map_append, ← reduceOption_append, take_append_drop]
    rfl
  split_ifs with hsame
  · rw [hsplit, Option.some_inj]
    refine self_eq_append_right.trans ?_
    rw [map_eq_nil_iff, reduceOption, filterMap_eq_nil_iff]
    exact (and_iff_right hsame).symm
  · exact iff_of_false nofun fun h => hsame h.1

/-- A key that is added later is not in the view, and the view does not survive `clear`. -/
theorem view_misses_changes :
    (do
      let t ← run numbers true [.put 1 ()]
      let t₁ ← run numbers true [.put 1 (), .put 2 ()]
      let t₂ ← run numbers true [.put 1 (), .clear]
      let view := t.view
      Except.ok (view.toList Prod.fst t₁, t₁.entries.map Prod.fst, view.toList Prod.fst t₂)) =
    (.ok (some [1], [1, 2], none) : Result _) := by
  decide +kernel

end DartSdk.CompactHash
