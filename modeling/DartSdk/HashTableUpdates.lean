import DartSdk.HashTable

/-!
The hash map as a finite map. Changes of single entries keep the invariant, and what the table
holds afterwards differs at the keys that match only. A copy into a fresh table of more entries than
keys keeps everything, and the load factor check leaves at least two unused entries. Every operation
of the table does to what it holds what the abstract operation does to the map.
-/

namespace DartSdk.HashTable

open Checked PowersOfTwo SignedWords List Table HashTable Invariant

section

section

variable {K V : Type} {P : Platform} {traits : KeyTraits K} {m : ℕ} {t : Table K V}

/-- The entry holds `v` under the key `k`. -/
def Entry.Holds (traits : KeyTraits K) (e : Entry K V) (k : K) (v : V) : Prop :=
  ∃ k', e.key = .object k' ∧ traits.isMatch k k' = true ∧ e.payload = v

/-- Some entry holds `v` under the key `k`. -/
def Table.Holds (traits : KeyTraits K) (t : Table K V) (k : K) (v : V) : Prop :=
  ∃ (s : ℕ) (e : Entry K V), t.entries[s]? = some e ∧ e.Holds traits k v

lemma Table.holds_iff_mem (k : K) (v : V) :
    t.Holds traits k v ↔ ∃ e ∈ t.entries, e.Holds traits k v := by
  constructor
  · rintro ⟨s, e, he, hholds⟩
    exact ⟨e, mem_of_getElem? he, hholds⟩
  · rintro ⟨e, he, hholds⟩
    obtain ⟨s, hs⟩ := mem_iff_getElem?.mp he
    exact ⟨s, e, hs, hholds⟩

lemma Table.keyAt_of_getElem? {s : ℕ} {e : Entry K V} (h : t.entries[s]? = some e) :
    t.keyAt s = some e.key := by
  rw [keyAt, h, Option.map_some]

lemma Table.getElem?_of_keyAt {s : ℕ} {slot : Slot K} (h : t.keyAt s = some slot) :
    ∃ e, t.entries[s]? = some e ∧ e.key = slot :=
  Option.map_eq_some_iff.mp h

lemma Invariant.holds_of_match (h : Invariant P traits m t) {s : ℕ} {e : Entry K V} {k k' : K}
    {v : V} (he : t.entries[s]? = some e) (hkey : e.key = .object k')
    (hmatch : traits.isMatch k k' = true) : t.Holds traits k v ↔ e.payload = v := by
  constructor
  · rintro ⟨s', e', he', k'', hkey', hmatch', rfl⟩
    have hsame : s' = s := by
      apply h.distinct s' s k'' k'
      · rw [t.keyAt_of_getElem? he', hkey']
      · rw [t.keyAt_of_getElem? he, hkey]
      · exact traits.trans k'' k k' (traits.symm k k'' hmatch') hmatch
    rw [hsame, he] at he'
    rw [Option.some.inj he']
  · rintro rfl
    exact ⟨s, e, he, k', hkey, hmatch, rfl⟩

lemma not_holds_of_absent {k : K} (h : ∀ s k', t.keyAt s = some (.object k') →
    traits.isMatch k k' = false) (v : V) : ¬ t.Holds traits k v := by
  rintro ⟨s, e, he, k', hkey, hmatch, -⟩
  have hno := h s k' (by rw [t.keyAt_of_getElem? he, hkey])
  rw [hmatch] at hno
  cases hno

namespace Table

lemma entryAt_of_getElem? {s : ℕ} {e : Entry K V} (h : t.entries[s]? = some e) :
    t.entryAt s = .ok e := by
  rw [entryAt, h]

@[simp] lemma numEntries_setEntry (s : ℕ) (e : Entry K V) :
    (t.setEntry s e).numEntries = t.numEntries := by
  rw [numEntries, setEntry, List.length_set, numEntries]

lemma getElem?_setEntry {s : ℕ} (hs : s < t.numEntries) (e : Entry K V) (s' : ℕ) :
    (t.setEntry s e).entries[s']? = if s = s' then some e else t.entries[s']? := by
  rw [setEntry, List.getElem?_set]
  split
  · rename_i heq
    rw [if_pos (heq ▸ hs)]
  · rfl

variable {s : ℕ}

lemma keyAt_setEntry (hs : s < t.numEntries) (e : Entry K V) (s' : ℕ) :
    (t.setEntry s e).keyAt s' = if s = s' then some e.key else t.keyAt s' := by
  rw [keyAt, getElem?_setEntry hs]
  split
  · rfl
  · rfl

lemma holds_setEntry (hs : s < t.numEntries) (e : Entry K V) (k : K) (v : V) :
    (t.setEntry s e).Holds traits k v ↔
      e.Holds traits k v ∨ ∃ s' e', s ≠ s' ∧ t.entries[s']? = some e' ∧ e'.Holds traits k v := by
  constructor
  · rintro ⟨s', e', he', hholds⟩
    rw [getElem?_setEntry hs] at he'
    split at he'
    · cases he'
      exact Or.inl hholds
    · exact Or.inr ⟨s', e', ‹_›, he', hholds⟩
  · rintro (hholds | ⟨s', e', hne, he', hholds⟩)
    · exact ⟨s, e, by rw [getElem?_setEntry hs, if_pos rfl], hholds⟩
    · exact ⟨s', e', by rw [getElem?_setEntry hs, if_neg hne, he'], hholds⟩

lemma countP_setEntry {old : Entry K V} (h : t.entries[s]? = some old) (e : Entry K V)
    (p : Entry K V → Bool) :
    (t.setEntry s e).entries.countP p + (if p old then 1 else 0) =
      t.entries.countP p + (if p e then 1 else 0) := by
  obtain ⟨hs, rfl⟩ := List.getElem?_eq_some_iff.mp h
  rw [setEntry, countP_set hs]
  have hle : (if p t.entries[s] then 1 else 0) ≤ t.entries.countP p := by
    split
    · exact countP_pos_iff.mpr ⟨_, getElem_mem hs, ‹_›⟩
    · exact zero_le
  omega

end Table

variable {s : ℕ} {e : Entry K V} {k : K}

lemma updatePayload_eq (he : t.entries[s]? = some e) (hkey : e.key = .object k) (v : V) :
    updatePayload t s v = .ok (t.setEntry s { e with payload := v }) := by
  rw [updatePayload, t.entryAt_of_getElem? he, ok_bind, check_of (by rw [hkey]; rfl), ok_bind]

lemma getPayload_eq (he : t.entries[s]? = some e)
    (hkey : e.key = .object k) : getPayload t s = .ok e.payload := by
  rw [getPayload, t.entryAt_of_getElem? he, ok_bind, check_of (by rw [hkey]; rfl), ok_bind]

lemma Invariant.setPayload (h : Invariant P traits m t) (he : t.entries[s]? = some e) (v : V) :
    Invariant P traits m (t.setEntry s { e with payload := v }) := by
  have hs : s < t.numEntries := (List.getElem?_eq_some_iff.mp he).1
  have hkeys : ∀ s', (t.setEntry s { e with payload := v }).keyAt s' = t.keyAt s' := by
    intro s'
    rw [keyAt_setEntry hs]
    split_ifs with heq
    · rw [← heq, t.keyAt_of_getElem? he]
    · rfl
  have hcnt : ∀ p : Slot K → Bool,
      (t.setEntry s { e with payload := v }).entries.countP (fun e => p e.key) =
        t.entries.countP fun e => p e.key := by
    intro p
    have := countP_setEntry he { e with payload := v } fun e => p e.key
    simpa using this
  constructor
  · rw [numEntries_setEntry, h.size]
  · rw [numEntries_setEntry]
    exact h.valid
  · rw [countOccupied, hcnt]
    exact h.occupied
  · rw [countDeleted, hcnt]
    exact h.deleted
  · rw [countUnused, hcnt]
    exact h.unused
  · intro s' k hk
    rw [hkeys] at hk
    obtain ⟨i, hi, hpre⟩ := h.reachable s' k hk
    exact ⟨i, hi, fun j hj => by rw [hkeys]; exact hpre j hj⟩
  · intro s1 s2 k1 k2 h1 h2
    rw [hkeys] at h1 h2
    exact h.distinct s1 s2 k1 k2 h1 h2

variable {key : K}

section

variable (h : Invariant P traits m t)

include h

lemma Invariant.holds_setPayload {k' : K} (he : t.entries[s]? = some e)
    (hkey : e.key = .object k') (hmatch : traits.isMatch key k' = true) (v : V) (k : K) (w : V) :
    (t.setEntry s { e with payload := v }).Holds traits k w ↔
      if traits.isMatch key k then v = w else t.Holds traits k w := by
  have hs : s < t.numEntries := (List.getElem?_eq_some_iff.mp he).1
  have he' : (t.setEntry s { e with payload := v }).entries[s]? = some { e with payload := v } := by
    rw [getElem?_setEntry hs, if_pos rfl]
  split_ifs with hk
  · have hkk' := traits.trans k key k' (traits.symm key k hk) hmatch
    exact (h.setPayload he v).holds_of_match he' hkey hkk'
  · have hno : ∀ e' : Entry K V, e'.key = .object k' → ∀ w, ¬ e'.Holds traits k w := by
      rintro e' hkey' w ⟨k'', hkey'', hmatch'', -⟩
      rw [hkey'] at hkey''
      cases hkey''
      exact hk (traits.trans key k' k hmatch (traits.symm k k' hmatch''))
    rw [holds_setEntry hs]
    constructor
    · rintro (hnew | ⟨s', e'', -, he'', hholds⟩)
      · exact absurd hnew (hno { e with payload := v } hkey w)
      · exact ⟨s', e'', he'', hholds⟩
    · rintro ⟨s', e'', he'', hholds⟩
      refine Or.inr ⟨s', e'', ?_, he'', hholds⟩
      rintro rfl
      rw [he] at he''
      cases he''
      exact hno e hkey w hholds

/-- The table after `InsertKey` into the entry `old` and `UpdatePayload`. -/
def inserted (t : Table K V) (s : ℕ) (old : Entry K V) (key : K) (v : V) : Table K V :=
  ⟨t.entries.set s ⟨.object key, v⟩, t.numOccupied + 1,
    if old.key.isDeleted then t.numDeleted - 1 else t.numDeleted⟩

omit h in
lemma insertKey_updatePayload_eq {old : Entry K V} (hold : t.entries[s]? = some old)
    (hfree : old.key.isOccupied = false) (hroom : t.numOccupied + 1 < t.numEntries) (key : K)
    (v : V) :
    (insertKey t s key >>= fun t => updatePayload t s v) = .ok (inserted t s old key v) := by
  have hs : s < t.entries.length := (List.getElem?_eq_some_iff.mp hold).1
  have hinsert : insertKey t s key = .ok ⟨t.entries.set s { old with key := .object key },
      t.numOccupied + 1, if old.key.isDeleted then t.numDeleted - 1 else t.numDeleted⟩ := by
    rw [insertKey, t.entryAt_of_getElem? hold, ok_bind, check_of (by rw [hfree]; rfl), ok_bind]
    dsimp only
    split
    · rw [check_of (by simpa [numEntries, setEntry] using hroom), ok_bind]
      rfl
    · rw [check_of (by simpa [numEntries, setEntry] using hroom), ok_bind]
      rfl
  rw [hinsert, ok_bind, updatePayload_eq (e := { old with key := .object key }) (k := key)]
  · rw [setEntry, set_set]
    rfl
  · rw [List.getElem?_set, if_pos rfl, if_pos hs]
  · rfl

omit h in
lemma Insertable.exists_free (h : Insertable traits m t key s) :
    ∃ old, t.entries[s]? = some old ∧ old.key.isOccupied = false ∧
      ∀ k w, ¬ old.Holds traits k w := by
  have hcases : ∃ old, t.entries[s]? = some old ∧
      (old.key = .sentinel ∨ old.key = .transitionSentinel) := by
    rcases h.free with hfree | hfree
    · obtain ⟨old, hold, hkey⟩ := getElem?_of_keyAt hfree
      exact ⟨old, hold, Or.inl hkey⟩
    · obtain ⟨old, hold, hkey⟩ := getElem?_of_keyAt hfree
      exact ⟨old, hold, Or.inr hkey⟩
  obtain ⟨old, hold, hkey⟩ := hcases
  refine ⟨old, hold, ?_, ?_⟩
  · rcases hkey with hkey | hkey <;> rw [hkey] <;> rfl
  · rintro k w ⟨k', hobject, -⟩
    rcases hkey with hkey | hkey <;> (rw [hkey] at hobject; cases hobject)

lemma Invariant.inserted {old : Entry K V} (hold : t.entries[s]? = some old)
    (hins : Insertable traits m t key s)
    (habs : ∀ s' k, t.keyAt s' = some (.object k) → traits.isMatch key k = false)
    (hfree : old.key.isOccupied = false)
    (hroom : t.countOccupied + t.countDeleted + 1 < t.numEntries) (v : V) :
    Invariant P traits m (inserted t s old key v) ∧
      (HashTable.inserted t s old key v).countOccupied = t.countOccupied + 1 ∧
      (HashTable.inserted t s old key v).countDeleted ≤ t.countDeleted := by
  have hs : s < t.numEntries := (List.getElem?_eq_some_iff.mp hold).1
  have hkeys : ∀ s', (HashTable.inserted t s old key v).keyAt s' =
      if s = s' then some (.object key) else t.keyAt s' :=
    Table.keyAt_setEntry hs ⟨.object key, v⟩
  have hocc := Table.countP_setEntry hold ⟨.object key, v⟩ fun e => e.key.isOccupied
  have hdel := Table.countP_setEntry hold ⟨.object key, v⟩ fun e => e.key.isDeleted
  have hstates' := (HashTable.inserted t s old key v).count_states
  have hsize : (HashTable.inserted t s old key v).numEntries = t.numEntries :=
    Table.numEntries_setEntry s ⟨.object key, v⟩
  rw [if_neg (by rw [hfree]; decide), if_pos (by rfl)] at hocc
  have hocc' : (HashTable.inserted t s old key v).countOccupied = t.countOccupied + 1 := hocc
  have hdel' : (HashTable.inserted t s old key v).countDeleted +
      (if old.key.isDeleted then 1 else 0) = t.countDeleted := hdel
  have hkept : ∀ s', t.keyAt s' ≠ some .sentinel →
      (HashTable.inserted t s old key v).keyAt s' ≠ some .sentinel := by
    intro s' hs'
    rw [hkeys]
    split
    · simp
    · exact hs'
  refine ⟨?_, hocc', by omega⟩
  constructor
  · rw [hsize, h.size]
  · rw [hsize]
    exact h.valid
  · rw [hocc', HashTable.inserted, h.occupied]
    rfl
  · have hnum := h.deleted
    change (if old.key.isDeleted then t.numDeleted - 1 else t.numDeleted) = _
    split_ifs with hdeleted
    · rw [if_pos hdeleted] at hdel'
      omega
    · rw [if_neg hdeleted] at hdel'
      omega
  · omega
  · intro s' k hk
    rw [hkeys] at hk
    split_ifs at hk with heq
    · cases hk
      obtain ⟨i, hi, hpre⟩ := hins.reachable
      exact ⟨i, hi.trans heq, fun j hj => hkept _ (hpre j hj)⟩
    · obtain ⟨i, hi, hpre⟩ := h.reachable s' k hk
      exact ⟨i, hi, fun j hj => hkept _ (hpre j hj)⟩
  · intro s1 s2 k1 k2 h1 h2 hmatch
    rw [hkeys] at h1 h2
    split at h1 <;> split at h2
    · rename_i heq1 heq2
      exact heq1.symm.trans heq2
    · cases h1
      rw [habs s2 k2 h2] at hmatch
      cases hmatch
    · cases h2
      have hno := habs s1 k1 h1
      rw [traits.symm k1 key hmatch] at hno
      cases hno
    · exact h.distinct s1 s2 k1 k2 h1 h2 hmatch

lemma Invariant.insert_spec (hins : Insertable traits m t key s)
    (habs : ∀ s' k, t.keyAt s' = some (.object k) → traits.isMatch key k = false)
    (hroom : t.countOccupied + t.countDeleted + 1 < t.numEntries) (v : V) :
    ∃ t', (insertKey t s key >>= fun t => updatePayload t s v) = .ok t' ∧
      Invariant P traits m t' ∧ t'.countOccupied = t.countOccupied + 1 ∧
      t'.countDeleted ≤ t.countDeleted ∧
      ∀ k w, t'.Holds traits k w ↔ if traits.isMatch key k then v = w else t.Holds traits k w := by
  obtain ⟨old, hold, hfree, hnone⟩ := hins.exists_free
  have hs : s < t.numEntries := (List.getElem?_eq_some_iff.mp hold).1
  obtain ⟨hinv, hocc, hdel⟩ := h.inserted hold hins habs hfree hroom v
  have hocc' := h.occupied
  refine ⟨HashTable.inserted t s old key v,
    insertKey_updatePayload_eq hold hfree (by omega) key v, hinv, hocc, hdel, ?_⟩
  intro k w
  have hset : (HashTable.inserted t s old key v).Holds traits k w ↔ _ :=
    Table.holds_setEntry hs ⟨.object key, v⟩ k w
  rw [hset]
  split_ifs with hk
  · constructor
    · rintro (⟨k', -, -, hpayload⟩ | ⟨s', e', -, he', k', hkey', hmatch', -⟩)
      · exact hpayload
      · have hno := habs s' k' (by rw [t.keyAt_of_getElem? he', hkey'])
        rw [traits.trans key k k' hk hmatch'] at hno
        cases hno
    · rintro rfl
      exact Or.inl ⟨key, rfl, traits.symm key k hk, rfl⟩
  · constructor
    · rintro (⟨k', hkey', hmatch', -⟩ | ⟨s', e', -, he', hholds⟩)
      · cases hkey'
        exact absurd (traits.symm k key hmatch') hk
      · exact ⟨s', e', he', hholds⟩
    · rintro ⟨s', e', he', hholds⟩
      refine Or.inr ⟨s', e', ?_, he', hholds⟩
      rintro rfl
      rw [hold] at he'
      cases he'
      exact hnone k w hholds

/-- The table after `DeleteEntry`. -/
def removed (objects : Objects V) (t : Table K V) (s : ℕ) : Table K V :=
  ⟨t.entries.set s ⟨.transitionSentinel, objects.transitionSentinel⟩, t.numOccupied - 1,
    t.numDeleted + 1⟩

omit h in
lemma deleteEntry_eq (objects : Objects V)
    (he : t.entries[s]? = some e) (hkey : e.key = .object k) :
    deleteEntry objects t s = .ok (removed objects t s) := by
  rw [deleteEntry, t.entryAt_of_getElem? he, ok_bind, check_of (by rw [hkey]; rfl), ok_bind,
    updatePayload_eq he hkey, ok_bind]
  simp only [setEntry, set_set]
  rfl

omit h in
lemma keyAt_removed (objects : Objects V) (hs : s < t.numEntries) (s' : ℕ) :
    (removed objects t s).keyAt s' = if s = s' then some .transitionSentinel else t.keyAt s' :=
  keyAt_setEntry hs ⟨.transitionSentinel, objects.transitionSentinel⟩ s'

lemma Invariant.removed (objects : Objects V) (he : t.entries[s]? = some e)
    (hkey : e.key = .object k) : Invariant P traits m (removed objects t s) := by
  have hs : s < t.numEntries := (List.getElem?_eq_some_iff.mp he).1
  have hcnt := fun p : Slot K → Bool => Table.countP_setEntry he
    ⟨.transitionSentinel, objects.transitionSentinel⟩ fun e => p e.key
  simp only [hkey] at hcnt
  have hocc : (HashTable.removed objects t s).countOccupied + 1 = t.countOccupied :=
    hcnt Slot.isOccupied
  have hdel : (HashTable.removed objects t s).countDeleted = t.countDeleted + 1 :=
    hcnt Slot.isDeleted
  have hunu : (HashTable.removed objects t s).countUnused = t.countUnused :=
    hcnt Slot.isUnused
  have hsize : (HashTable.removed objects t s).numEntries = t.numEntries :=
    Table.numEntries_setEntry s ⟨.transitionSentinel, objects.transitionSentinel⟩
  have hkept : ∀ s', t.keyAt s' ≠ some .sentinel →
      (HashTable.removed objects t s).keyAt s' ≠ some .sentinel := by
    intro s' hs'
    rw [keyAt_removed objects hs]
    split
    · simp
    · exact hs'
  have hold : ∀ s' k, (HashTable.removed objects t s).keyAt s' = some (.object k) →
      t.keyAt s' = some (.object k) := by
    intro s' k hk
    rw [keyAt_removed objects hs] at hk
    split at hk
    · cases hk
    · exact hk
  constructor
  · rw [hsize, h.size]
  · rw [hsize]
    exact h.valid
  · have hnum := h.occupied
    change t.numOccupied - 1 = _
    omega
  · have hnum := h.deleted
    change t.numDeleted + 1 = _
    omega
  · rw [hunu]
    exact h.unused
  · intro s' k hk
    obtain ⟨i, hi, hpre⟩ := h.reachable s' k (hold s' k hk)
    exact ⟨i, hi, fun j hj => hkept _ (hpre j hj)⟩
  · intro s1 s2 k1 k2 h1 h2
    exact h.distinct s1 s2 k1 k2 (hold s1 k1 h1) (hold s2 k2 h2)

lemma Invariant.holds_removed (objects : Objects V) {k' : K} (he : t.entries[s]? = some e)
    (hkey : e.key = .object k') (hmatch : traits.isMatch key k' = true) (k : K) (w : V) :
    (HashTable.removed objects t s).Holds traits k w ↔
      traits.isMatch key k = false ∧ t.Holds traits k w := by
  have hs : s < t.numEntries := (List.getElem?_eq_some_iff.mp he).1
  have hset : (HashTable.removed objects t s).Holds traits k w ↔ _ :=
    Table.holds_setEntry hs ⟨.transitionSentinel, objects.transitionSentinel⟩ k w
  rw [hset]
  constructor
  · rintro (⟨k'', hgone, -⟩ | ⟨s', e', hne, he', hholds⟩)
    · cases hgone
    · refine ⟨?_, s', e', he', hholds⟩
      obtain ⟨k'', hkey'', hmatch'', -⟩ := hholds
      cases hk : traits.isMatch key k with
      | false => rfl
      | true =>
        refine absurd (h.distinct s s' k' k'' ?_ ?_ ?_) hne
        · rw [t.keyAt_of_getElem? he, hkey]
        · rw [t.keyAt_of_getElem? he', hkey'']
        · exact traits.trans k' key k'' (traits.symm key k' hmatch)
            (traits.trans key k k'' hk hmatch'')
  · rintro ⟨hk, s', e', he', hholds⟩
    refine Or.inr ⟨s', e', ?_, he', hholds⟩
    rintro rfl
    rw [he] at he'
    cases he'
    obtain ⟨k'', hkey'', hmatch'', -⟩ := hholds
    rw [hkey] at hkey''
    cases hkey''
    rw [traits.trans key k' k hmatch (traits.symm k k' hmatch'')] at hk
    cases hk

end

end

variable {K V : Type} {P : Platform} {traits : KeyTraits K} {m : ℕ} {t : Table K V}

namespace Platform

lemma wordBits_cases (P : Platform) :
    (P.is64Bit = true ∧ P.wordBits = 64) ∨ (P.is64Bit = false ∧ P.wordBits = 32) := by
  cases h : P.is64Bit with
  | true => exact Or.inl ⟨rfl, by rw [wordBits, h]; rfl⟩
  | false => exact Or.inr ⟨rfl, by rw [wordBits, h]; rfl⟩

lemma smear_word (P : Platform) (x : ℕ) (hx : x.size < P.wordBits) :
    (if P.is64Bit then smear (smear (smear (smear (smear (smear x 1) 2) 4) 8) 16) 32
      else smear (smear (smear (smear (smear x 1) 2) 4) 8) 16) = 2 ^ x.size - 1 := by
  have h16 := (topBits_one x).smear.smear.smear.smear.smear
  rcases P.wordBits_cases with ⟨h64, hbits⟩ | ⟨h32, hbits⟩
  · rw [h64, if_pos rfl]
    exact h16.smear.eq_pred (by omega)
  · rw [h32, if_neg Bool.false_ne_true]
    exact h16.eq_pred (by omega)

lemma roundUpToPowerOfTwo_spec (P : Platform) (x : ℕ) (hpos : 0 < x)
    (hx : x ≤ 2 ^ (P.wordBits - 1)) :
    ∃ m, P.roundUpToPowerOfTwo x = 2 ^ m ∧ x ≤ 2 ^ m ∧ 2 ^ m < 2 * x := by
  have hword : 2 ^ P.wordBits = 2 * 2 ^ (P.wordBits - 1) := by
    rcases P.wordBits_cases with ⟨-, hbits⟩ | ⟨-, hbits⟩ <;> rw [hbits] <;> norm_num
  have hpred : (x + (2 ^ P.wordBits - 1)) % 2 ^ P.wordBits = x - 1 := by
    rw [show x + (2 ^ P.wordBits - 1) = (x - 1) + 2 ^ P.wordBits by omega, Nat.add_mod_right,
      Nat.mod_eq_of_lt (by omega)]
  have hsize : (x - 1).size ≤ P.wordBits - 1 := Nat.size_le.mpr (by omega)
  have hbits : 0 < P.wordBits := by
    rcases P.wordBits_cases with ⟨-, hbits⟩ | ⟨-, hbits⟩ <;> omega
  have hlt : x - 1 < 2 ^ (x - 1).size := Nat.lt_size_self _
  have hle : 2 ^ (x - 1).size ≤ 2 ^ (P.wordBits - 1) := Nat.pow_le_pow_right (by decide) hsize
  refine ⟨(x - 1).size, ?_, by omega, ?_⟩
  · simp only [roundUpToPowerOfTwo, hpred]
    rw [P.smear_word (x - 1) (by omega)]
    have hone := Nat.two_pow_pos (x - 1).size
    rw [Nat.sub_add_cancel hone, Nat.mod_eq_of_lt (by omega)]
  · rcases Nat.eq_zero_or_pos (x - 1) with hzero | hpos'
    · rw [hzero, Nat.size_zero]
      omega
    · have htop : 2 ^ ((x - 1).size - 1) ≤ x - 1 :=
        Nat.lt_size.mp (by have := Nat.size_pos.mpr hpos'; omega)
      have hdouble : 2 ^ (x - 1).size = 2 * 2 ^ ((x - 1).size - 1) := by
        rw [← pow_succ', Nat.sub_add_cancel (Nat.size_pos.mpr hpos')]
      omega

lemma kMaxElements_lt (P : Platform) :
    4 * P.kMaxElements < 2 ^ (P.wordBits - 2) ∧ 2 ^ (P.wordBits - 2) ≤ 2 ^ (P.wordBits - 1) := by
  unfold kMaxElements
  rcases P.wordBits_cases with ⟨-, hbits⟩ | ⟨-, hbits⟩ <;> rw [hbits] <;> norm_num

/-- Up to a quarter of the words the length does not wrap, or wraps to a negative one. -/
lemma arrayLengthForNumOccupied_spec (P : Platform) (capacity : ℕ)
    (hcap : capacity < 2 ^ (P.wordBits - 2)) :
    ∃ m, P.roundUpToPowerOfTwo (capacity + 1) = 2 ^ m ∧ capacity + 1 ≤ 2 ^ m ∧
      (P.isValidLength (P.arrayLengthForNumOccupied capacity) = true →
        P.kFirstKeyIndex + kEntrySize * 2 ^ m ≤ P.kMaxElements ∧
          P.numEntries (P.arrayLengthForNumOccupied capacity) = 2 ^ m) := by
  have hhalf : 2 ^ (P.wordBits - 1) = 2 * 2 ^ (P.wordBits - 2) := by
    rcases P.wordBits_cases with ⟨-, hbits⟩ | ⟨-, hbits⟩ <;> rw [hbits] <;> norm_num
  obtain ⟨m, hround, hle, hlt⟩ := P.roundUpToPowerOfTwo_spec (capacity + 1) (by omega) (by omega)
  refine ⟨m, hround, hle, fun hok => ?_⟩
  have hm : 2 ^ m ≤ 2 ^ (P.wordBits - 2) := by
    have hexp := (Nat.pow_lt_pow_iff_right (show 1 < 2 by decide)).mp
      (show 2 ^ m < 2 ^ (P.wordBits - 1) by omega)
    exact Nat.pow_le_pow_right (by decide) (by omega)
  have hfirst : P.kFirstKeyIndex ≤ 7 := by
    unfold kFirstKeyIndex kHeaderSize kMetaDataSize
    split_ifs <;> omega
  have hlen : P.arrayLengthForNumOccupied capacity =
      wrap (P.wordBits - 1) (P.kFirstKeyIndex + 2 * (2 ^ m : ℕ)) := by
    rw [arrayLengthForNumOccupied, hround]
    rfl
  rw [isValidLength, Bool.and_eq_true, decide_eq_true_iff, decide_eq_true_iff, hlen] at hok
  have hword : wrap (P.wordBits - 1) (P.kFirstKeyIndex + 2 * (2 ^ m : ℕ)) =
      P.kFirstKeyIndex + 2 * (2 ^ m : ℕ) := by
    obtain ⟨k, hk⟩ := exists_wrap_eq (P.wordBits - 1) (P.kFirstKeyIndex + 2 * (2 ^ m : ℕ))
    obtain ⟨hnonneg, -⟩ := hok
    have hfits := (fits_wrap (P.wordBits - 1) (P.kFirstKeyIndex + 2 * (2 ^ m : ℕ))).2
    rw [hk] at hnonneg hfits ⊢
    have hsmall : ((2 ^ m : ℕ) : ℤ) ≤ (2 ^ (P.wordBits - 2) : ℕ) := by exact_mod_cast hm
    have hpow : (0 : ℤ) ≤ 2 ^ m := by positivity
    rcases P.wordBits_cases with ⟨-, hbits⟩ | ⟨-, hbits⟩
    all_goals
      rw [hbits] at hsmall hnonneg hfits ⊢
      norm_num at hsmall hnonneg hfits ⊢
      omega
  rw [hword] at hok hlen
  refine ⟨?_, ?_⟩
  · exact_mod_cast hok.2
  · rw [numEntries, hlen, add_sub_cancel_left]
    show (2 * ((2 ^ m : ℕ) : ℤ) / 2).toNat = 2 ^ m
    omega

end Platform

/-- A table without keys and without deleted entries. -/
structure Fresh (P : Platform) (traits : KeyTraits K) (m : ℕ) (t : Table K V) : Prop where
  invariant : Invariant P traits m t
  noOccupied : t.countOccupied = 0
  noDeleted : t.countDeleted = 0
  empty : ∀ k v, ¬ t.Holds traits k v

lemma fresh_of_unused (hsize : t.numEntries = 2 ^ m)
    (hok : P.kFirstKeyIndex + Platform.kEntrySize * t.numEntries ≤ P.kMaxElements)
    (hocc : t.numOccupied = 0) (hdel : t.numDeleted = 0)
    (hunused : ∀ e ∈ t.entries, e.key = .sentinel) : Fresh P traits m t := by
  have hkeys : ∀ s k, t.keyAt s ≠ some (.object k) := by
    intro s k hk
    obtain ⟨e, he, hkey⟩ := getElem?_of_keyAt hk
    rw [hunused e (mem_of_getElem? he)] at hkey
    cases hkey
  have hocc' : t.countOccupied = 0 :=
    countP_eq_zero.mpr fun e he => by rw [hunused e he]; exact Bool.false_ne_true
  have hdel' : t.countDeleted = 0 :=
    countP_eq_zero.mpr fun e he => by rw [hunused e he]; exact Bool.false_ne_true
  have hstates := t.count_states
  have hpos := Nat.two_pow_pos m
  refine ⟨?_, hocc', hdel', ?_⟩
  · refine ⟨hsize, hok, by omega, by omega, by omega, ?_, ?_⟩
    · intro s k hk
      exact absurd hk (hkeys s k)
    · intro s s' k k' hk
      exact absurd hk (hkeys s k)
  · rintro k v ⟨s, e, he, k', hkey, -⟩
    rw [hunused e (mem_of_getElem? he)] at hkey
    cases hkey

lemma initializeTable_spec (traits : KeyTraits K) (objects : Objects V)
    (hsize : t.numEntries = 2 ^ m)
    (hok : P.kFirstKeyIndex + Platform.kEntrySize * t.numEntries ≤ P.kMaxElements) :
    ∃ t', initializeTable objects t = .ok t' ∧ Fresh P traits m t' := by
  have hpos := Nat.two_pow_pos m
  refine ⟨⟨t.entries.map fun _ => ⟨.sentinel, objects.sentinel⟩, 0, 0⟩, ?_, ?_⟩
  · rw [initializeTable, check_of (decide_eq_true (show t.numEntries ≥ 1 by omega)), ok_bind]
  · have hlen : (t.entries.map fun _ => (⟨.sentinel, objects.sentinel⟩ : Entry K V)).length =
        t.numEntries := length_map _
    refine fresh_of_unused (hlen.trans hsize) (by rw [numEntries, hlen]; exact hok) rfl
      rfl ?_
    simp only [mem_map, forall_exists_index, and_imp]
    rintro e x - rfl
    rfl

lemma new_spec (traits : KeyTraits K) (objects : Objects V) (capacity : ℕ)
    (hcap : capacity < 2 ^ (P.wordBits - 2)) :
    ((new P objects capacity : Result (Table K V)) = .error .fatal ∧
        P.isValidLength (P.arrayLengthForNumOccupied capacity) = false) ∨
      ∃ (m : ℕ) (t : Table K V), new P objects capacity = .ok t ∧ Fresh P traits m t ∧
        capacity + 1 ≤ t.numEntries := by
  obtain ⟨m, -, hle, hvalid⟩ := P.arrayLengthForNumOccupied_spec capacity hcap
  cases hok : P.isValidLength (P.arrayLengthForNumOccupied capacity) with
  | false =>
    refine Or.inl ⟨?_, rfl⟩
    simp only [new, hok, if_neg Bool.false_ne_true]
  | true =>
    obtain ⟨hlen, hentries⟩ := hvalid hok
    have hsize : (⟨List.replicate (2 ^ m) ⟨.sentinel, objects.null⟩, 0, 0⟩ :
        Table K V).numEntries = 2 ^ m := length_replicate
    obtain ⟨t', hinit, hfresh⟩ := initializeTable_spec (P := P) traits objects hsize
      (by rw [hsize]; exact hlen)
    refine Or.inr ⟨m, t', ?_, hfresh, by rw [hfresh.invariant.size]; exact hle⟩
    simp only [new, hok, if_pos, hentries, hinit]

/-- No two of the entries have matching keys. -/
def DistinctKeys (traits : KeyTraits K) (entries : List (Entry K V)) : Prop :=
  entries.Pairwise fun e e' =>
    ∀ k k', e.key = .object k → e'.key = .object k' → traits.isMatch k k' = false

lemma Invariant.distinctKeys (h : Invariant P traits m t) : DistinctKeys traits t.entries := by
  rw [DistinctKeys, pairwise_iff_getElem]
  intro s s' hs hs' hlt k k' hk hk'
  cases hmatch : traits.isMatch k k' with
  | false => rfl
  | true =>
    have hsame : s = s' := by
      apply h.distinct s s' k k' _ _ hmatch
      · rw [t.keyAt_of_getElem? (List.getElem?_eq_getElem hs), hk]
      · rw [t.keyAt_of_getElem? (List.getElem?_eq_getElem hs'), hk']
    omega

/-- The number of keys among the entries that are still to be copied. -/
def pending (entries : List (Entry K V)) : ℕ := entries.countP fun e => e.key.isOccupied

/-- The keys still to be copied are distinct and absent from the new table, which has room for them.
-/
structure Copying (P : Platform) (traits : KeyTraits K) (m : ℕ) (rest : List (Entry K V))
    (t : Table K V) : Prop where
  invariant : Invariant P traits m t
  noDeleted : t.countDeleted = 0
  room : t.countOccupied + pending rest < t.numEntries
  distinct : DistinctKeys traits rest
  absent : ∀ e ∈ rest, ∀ k v, e.key = .object k → ¬ t.Holds traits k v

variable {e : Entry K V}

lemma Copying.step {rest : List (Entry K V)} {key : K}
    (h : Copying P traits m (e :: rest) t) (hkey : e.key = .object key) :
    ∃ t', (∀ f : Table K V → Result (Table K V), (do
        let (present, toEntry) ← findKeyOrDeletedOrUnused traits t key
        check (!present)
        let t ← insertKey t toEntry key
        let t ← updatePayload t toEntry e.payload
        f t) = f t') ∧
      Copying P traits m rest t' ∧ t'.countOccupied = t.countOccupied + 1 ∧
      ∀ k v, t'.Holds traits k v ↔ t.Holds traits k v ∨ e.Holds traits k v := by
  have hpend : pending (e :: rest) = pending rest + 1 := by
    rw [pending, countP_cons_of_pos (by rw [hkey]; rfl)]
    rfl
  have hroom := h.room
  have hnoDeleted := h.noDeleted
  have habs := h.absent e (mem_cons_self ..) key
  obtain ⟨hfirst, hrest⟩ := pairwise_cons.mp h.distinct
  rcases h.invariant.findKeyOrDeletedOrUnused_spec key with
    ⟨s, hfind, hins, hnone⟩ | ⟨s, k, -, hs, hmatch⟩
  · obtain ⟨t', hinsert, hinv, hocc, hdel, hholds⟩ :=
      h.invariant.insert_spec hins hnone (by omega) e.payload
    have hsize : t'.numEntries = t.numEntries := by rw [hinv.size, h.invariant.size]
    refine ⟨t', ?_, ⟨hinv, by omega, by omega, hrest, ?_⟩, hocc, ?_⟩
    · intro f
      rw [hfind, ok_bind]
      simp only [Bool.not_false, check_true, ok_bind]
      rw [← ok_bind t' f, ← hinsert, bind_assoc]
    · intro e' he' k v hk hold
      rw [hholds, hfirst e' he' key k hkey hk, if_neg Bool.false_ne_true] at hold
      exact h.absent e' (mem_cons_of_mem e he') k v hk hold
    · intro k v
      rw [hholds]
      split_ifs with hmatch
      · constructor
        · rintro rfl
          exact Or.inr ⟨key, hkey, traits.symm key k hmatch, rfl⟩
        · rintro (hold | ⟨k', -, -, hpayload⟩)
          · obtain ⟨s', e', he', k', hkey', hmatch', hpayload⟩ := hold
            exact absurd ⟨s', e', he', k', hkey', traits.trans key k k' hmatch hmatch', hpayload⟩
              (habs v hkey)
          · exact hpayload
      · refine ⟨Or.inl, ?_⟩
        rintro (hold | ⟨k', hkey', hmatch', -⟩)
        · exact hold
        · rw [hkey] at hkey'
          cases hkey'
          exact absurd (traits.symm k key hmatch') hmatch
  · obtain ⟨e', he', hkey'⟩ := getElem?_of_keyAt hs
    exact absurd ⟨s, e', he', k, hkey', hmatch, rfl⟩ (habs e'.payload hkey)

lemma Copying.skip {rest : List (Entry K V)}
    (h : Copying P traits m (e :: rest) t) : Copying P traits m rest t := by
  have hroom := h.room
  have hle : pending rest ≤ pending (e :: rest) := (sublist_cons_self e rest).countP_le
  exact ⟨h.invariant, h.noDeleted, by omega, (pairwise_cons.mp h.distinct).2,
    fun e' he' => h.absent e' (mem_cons_of_mem e he')⟩

lemma pending_cons_object {key : K} (hkey : e.key = .object key)
    (rest : List (Entry K V)) : pending (e :: rest) = pending rest + 1 := by
  rw [pending, countP_cons_of_pos (by rw [hkey]; rfl), pending]

lemma pending_cons_skip (hkey : e.key.isOccupied = false)
    (rest : List (Entry K V)) : pending (e :: rest) = pending rest := by
  rw [pending, countP_cons_of_neg (by rw [hkey]; exact Bool.false_ne_true), pending]

lemma Copying.copyLoop_spec (rest : List (Entry K V)) (h : Copying P traits m rest t) :
    ∃ t', copyLoop traits rest t = .ok t' ∧ Invariant P traits m t' ∧ t'.countDeleted = 0 ∧
      t'.countOccupied = t.countOccupied + pending rest ∧
      ∀ k v, t'.Holds traits k v ↔ t.Holds traits k v ∨ ∃ e ∈ rest, e.Holds traits k v := by
  induction rest generalizing t with
  | nil => exact ⟨t, rfl, h.invariant, h.noDeleted, rfl, by simp⟩
  | cons e rest ih =>
    have hskip (hloop : copyLoop traits (e :: rest) t = copyLoop traits rest t)
        (hkey : ∀ k, e.key ≠ .object k) (hfree : e.key.isOccupied = false) :
        ∃ t', copyLoop traits (e :: rest) t = .ok t' ∧ Invariant P traits m t' ∧
          t'.countDeleted = 0 ∧ t'.countOccupied = t.countOccupied + pending (e :: rest) ∧
          ∀ k v, t'.Holds traits k v ↔ t.Holds traits k v ∨
            ∃ x ∈ e :: rest, x.Holds traits k v := by
      obtain ⟨t', hloop', hinv, hdel, hocc, hholds⟩ := ih h.skip
      refine ⟨t', hloop.trans hloop', hinv, hdel, by rw [pending_cons_skip hfree, hocc], ?_⟩
      intro k v
      have hno : ¬ e.Holds traits k v := fun ⟨k', hkey', _⟩ => hkey k' hkey'
      rw [hholds]
      simp only [mem_cons, exists_eq_or_imp, hno, false_or]
    cases hkey : e.key with
    | sentinel => exact hskip (by simp only [copyLoop, hkey]) (by simp [hkey]) (by rw [hkey]; rfl)
    | transitionSentinel =>
      exact hskip (by simp only [copyLoop, hkey]) (by simp [hkey]) (by rw [hkey]; rfl)
    | object key =>
      obtain ⟨t1, hstep, hcopying, hocc1, hholds1⟩ := h.step hkey
      obtain ⟨t', hloop, hinv, hdel, hocc', hholds'⟩ := ih hcopying
      refine ⟨t', ?_, hinv, hdel, by rw [pending_cons_object hkey]; omega, ?_⟩
      · simp only [copyLoop, hkey]
        rw [hstep, hloop]
      · intro k v
        rw [hholds', hholds1, or_assoc]
        simp only [mem_cons, exists_eq_or_imp]

lemma Fresh.copying {m' : ℕ} {t' : Table K V} (hfresh : Fresh P traits m' t')
    (h : Invariant P traits m t) (hroom : t.countOccupied < t'.numEntries) :
    Copying P traits m' t.entries t' :=
  ⟨hfresh.invariant, hfresh.noDeleted, by rw [hfresh.noOccupied, zero_add]; exact hroom,
    h.distinctKeys, fun _ _ k v _ => hfresh.empty k v⟩

lemma copy_spec (objects : Objects V) {m' : ℕ} {t' : Table K V} (hfresh : Fresh P traits m' t')
    (h : Invariant P traits m t) (hroom : t.countOccupied < t'.numEntries) :
    ∃ t'', copy traits objects t t' = .ok t'' ∧ Invariant P traits m' t'' ∧
      t''.countDeleted = 0 ∧ t''.countOccupied = t.countOccupied ∧
      ∀ k v, t''.Holds traits k v ↔ t.Holds traits k v := by
  obtain ⟨t0, hinit, hfresh0⟩ := initializeTable_spec (P := P) traits objects
    hfresh.invariant.size hfresh.invariant.valid
  have hsize : t0.numEntries = t'.numEntries := by
    rw [hfresh0.invariant.size, hfresh.invariant.size]
  obtain ⟨t'', hloop, hinv, hdel, hocc, hholds⟩ :=
    (hfresh0.copying h (by omega)).copyLoop_spec t.entries
  refine ⟨t'', ?_, hinv, hdel, ?_, ?_⟩
  · have hlt : t.numOccupied < t0.numEntries := by
      rw [h.occupied]
      omega
    rw [copy, hinit, ok_bind, check_of (decide_eq_true hlt), ok_bind, hloop]
  · rw [hocc, hfresh0.noOccupied, zero_add]
    rfl
  · intro k v
    rw [hholds, t.holds_iff_mem]
    simp only [hfresh0.empty k v, false_or]

lemma loadFactor_check (P : Platform) (n : ℕ) (hn : 2 * n + 1 ≤ 2 ^ (P.wordBits - 1)) :
    (((n : ℤ) == 0) || ((1 + ((n : ℤ) : ℚ)) /
      P.roundUpToPowerOfTwo ((n : ℤ) * 2 + 1).toNat ≤ kMaxLoadFactor : Bool)) = true := by
  rcases Nat.eq_zero_or_pos n with rfl | hpos
  · rfl
  · rw [Bool.or_eq_true, decide_eq_true_iff]
    right
    have hcap : ((n : ℤ) * 2 + 1).toNat = 2 * n + 1 := by omega
    obtain ⟨m, hround, hle, -⟩ := P.roundUpToPowerOfTwo_spec (2 * n + 1) (by omega) hn
    -- The rounded capacity is even, so it is above the odd 2 n + 1.
    have heven : 2 * n + 2 ≤ 2 ^ m := by
      cases m with
      | zero => omega
      | succ m =>
        omega
    have hcast : (2 : ℚ) * n + 2 ≤ 2 ^ m := by exact_mod_cast heven
    rw [hcap, hround, div_le_iff₀ (by positivity)]
    unfold kMaxLoadFactor
    push_cast
    linarith

/-- `EnsureLoadFactor` aborts on a large array or leaves a table with the same contents and room for
another key. -/
lemma Invariant.ensureCapacity_spec (h : Invariant P traits m t) (objects : Objects V) :
    (ensureCapacity P traits objects t = .error .fatal ∧
        P.isValidLength (P.arrayLengthForNumOccupied (2 * t.countOccupied + 1)) = false) ∨
      ∃ m' t', ensureCapacity P traits objects t = .ok t' ∧ Invariant P traits m' t' ∧
        t'.countOccupied + t'.countDeleted + 1 < t'.numEntries ∧
        t'.countOccupied = t.countOccupied ∧ ∀ k v, t'.Holds traits k v ↔ t.Holds traits k v := by
  have hstates := t.count_states
  have hunused := h.unused
  have hok := h.valid
  have hlimit := P.kMaxElements_lt
  rw [show Platform.kEntrySize = 2 from rfl] at hok
  simp only [ensureCapacity, ensureLoadFactor]
  split
  · -- The load is below the limit, which is less than one.
    rename_i hload
    rw [Bool.and_eq_true, decide_eq_true_iff] at hload
    refine Or.inr ⟨m, t, rfl, h, ?_, rfl, fun k v => Iff.rfl⟩
    have hpos : (0 : ℚ) < t.numEntries := by
      rw [h.size]
      positivity
    have hlt := hload.1
    rw [h.occupied, h.deleted, div_lt_iff₀ hpos] at hlt
    have hone : (1 + t.countOccupied + t.countDeleted : ℚ) < t.numEntries := by
      refine lt_of_lt_of_le hlt ?_
      unfold kMaxLoadFactor
      nlinarith
    have hcast : 1 + t.countOccupied + t.countDeleted < t.numEntries := by exact_mod_cast hone
    omega
  · have hcap : ((t.countOccupied : ℤ) * 2 + 1).toNat = 2 * t.countOccupied + 1 := by omega
    rw [h.occupied, check_of (loadFactor_check P t.countOccupied (by omega)), ok_bind, hcap]
    rcases new_spec (P := P) traits objects (2 * t.countOccupied + 1) (by omega) with
      ⟨hnew, hlarge⟩ | ⟨m', t', hnew, hfresh, hroom⟩
    · refine Or.inl ⟨?_, hlarge⟩
      rw [hnew]
      rfl
    · obtain ⟨t'', hcopy, hinv, hdel, hocc, hholds⟩ :=
        copy_spec objects hfresh h (by omega)
      have hsize : t''.numEntries = t'.numEntries := by rw [hinv.size, hfresh.invariant.size]
      refine Or.inr ⟨m', t'', ?_, hinv, by omega, hocc, hholds⟩
      rw [hnew, ok_bind, hcopy]

end

section

open Checked

variable {K V : Type}

/-- A map on keys up to matching. -/
structure KeyMap (traits : KeyTraits K) (V : Type) where
  get : K → Option V
  congr : ∀ k k', traits.isMatch k k' = true → get k = get k'

namespace KeyMap

variable {traits : KeyTraits K}

def empty (traits : KeyTraits K) (V : Type) : KeyMap traits V := ⟨fun _ => none, fun _ _ _ => rfl⟩

lemma isMatch_congr (traits : KeyTraits K) (key : K) {k k' : K}
    (h : traits.isMatch k k' = true) : traits.isMatch key k = traits.isMatch key k' := by
  rw [Bool.eq_iff_iff]
  constructor
  · exact fun hk => traits.trans key k k' hk h
  · exact fun hk => traits.trans key k' k hk (traits.symm k k' h)

def set (map : KeyMap traits V) (key : K) (value : V) : KeyMap traits V where
  get k := if traits.isMatch key k then some value else map.get k
  congr k k' h := by
    simp only [isMatch_congr traits key h, map.congr k k' h]

def erase (map : KeyMap traits V) (key : K) : KeyMap traits V where
  get k := if traits.isMatch key k then none else map.get k
  congr k k' h := by
    simp only [isMatch_congr traits key h, map.congr k k' h]

end KeyMap

inductive Operation (K V : Type)
  | updateOrInsert (key : K) (value : V)
  | insertOrGetValue (key : K) (valueIfAbsent : V)
  | updateValue (key : K) (value : V)
  | remove (key : K)
  | clear

/-- What an operation returns. -/
inductive Answer (V : Type)
  | void
  | flag (present : Bool)
  | object (value : V)
  deriving DecidableEq

def Operation.run (P : Platform) (traits : KeyTraits K) (objects : Objects V) (t : Table K V) :
    Operation K V → Result (Table K V × Answer V)
  | .updateOrInsert key value => do
      let (t, present) ← HashTable.updateOrInsert P traits objects t key value
      .ok (t, .flag present)
  | .insertOrGetValue key valueIfAbsent => do
      let (t, value) ← HashTable.insertOrGetValue P traits objects t key valueIfAbsent
      .ok (t, .object value)
  | .updateValue key value => do
      let t ← HashTable.updateValue traits t key value
      .ok (t, .void)
  | .remove key => do
      let (t, present) ← HashTable.remove traits objects t key
      .ok (t, .flag present)
  | .clear => do
      let t ← HashTable.clear objects t
      .ok (t, .void)

/-- The operation on the abstract map. `UpdateValue` asserts that the key is present. -/
def Operation.spec {traits : KeyTraits K} (map : KeyMap traits V) :
    Operation K V → Result (KeyMap traits V × Answer V)
  | .updateOrInsert key value => .ok (map.set key value, .flag (map.get key).isSome)
  | .insertOrGetValue key valueIfAbsent =>
    match map.get key with
    | some value => .ok (map, .object value)
    | none => .ok (map.set key valueIfAbsent, .object valueIfAbsent)
  | .updateValue key value =>
    match map.get key with
    | some _ => .ok (map.set key value, .void)
    | none => .error .assertion
  | .remove key => .ok (map.erase key, .flag (map.get key).isSome)
  | .clear => .ok (KeyMap.empty traits V, .void)

/-- A sequence of operations, with the answers in order. -/
def runAll {S : Type} (step : S → Operation K V → Result (S × Answer V)) :
    List (Operation K V) → S → Result (S × List (Answer V))
  | [], s => .ok (s, [])
  | op :: ops, s => do
      let (s, answer) ← step s op
      let (s, answers) ← runAll step ops s
      .ok (s, answer :: answers)

/-- The table holds what the map says. -/
structure Represents (P : Platform) (traits : KeyTraits K) (t : Table K V)
    (map : KeyMap traits V) : Prop where
  invariant : ∃ m, Invariant P traits m t
  holds : ∀ k v, t.Holds traits k v ↔ map.get k = some v

section

variable {P : Platform} {traits : KeyTraits K} {t : Table K V} {map : KeyMap traits V}

section

variable (h : Represents P traits t map)

include h

lemma Represents.findKey_spec (key : K) :
    (findKey traits t key = .ok none ∧ map.get key = none) ∨
      ∃ s e k, findKey traits t key = .ok (some s) ∧ t.entries[s]? = some e ∧
        e.key = .object k ∧ traits.isMatch key k = true ∧ map.get key = some e.payload := by
  obtain ⟨m, hinv⟩ := h.invariant
  rcases hinv.findKey_spec key with ⟨hfind, hnone⟩ | ⟨s, k, hfind, hk, hmatch⟩
  · refine Or.inl ⟨hfind, Option.eq_none_iff_forall_ne_some.mpr ?_⟩
    intro v hv
    exact not_holds_of_absent hnone v ((h.holds key v).mpr hv)
  · obtain ⟨e, he, hkey⟩ := Table.getElem?_of_keyAt hk
    refine Or.inr ⟨s, e, k, hfind, he, hkey, hmatch, ?_⟩
    exact (h.holds key e.payload).mp ⟨s, e, he, k, hkey, hmatch, rfl⟩

lemma Represents.containsKey_eq (key : K) :
    containsKey traits t key = .ok (map.get key).isSome := by
  rcases h.findKey_spec key with ⟨hfind, hget⟩ | ⟨s, e, k, hfind, -, -, -, hget⟩
  · rw [containsKey, hfind, hget]
    rfl
  · rw [containsKey, hfind, hget]
    rfl

lemma Represents.getOrNull_eq (objects : Objects V) (key : K) :
    getOrNull traits objects t key =
      .ok ((map.get key).getD objects.null, (map.get key).isSome) := by
  rcases h.findKey_spec key with ⟨hfind, hget⟩ | ⟨s, e, k, hfind, he, hkey, -, hget⟩
  · rw [getOrNull, hfind, ok_bind, hget]
    rfl
  · rw [getOrNull, hfind, ok_bind, hget]
    simp only [getPayload_eq he hkey, ok_bind]
    rfl

lemma Represents.setPayload {s : ℕ} {e : Entry K V} {key k : K} (he : t.entries[s]? = some e)
    (hkey : e.key = .object k) (hmatch : traits.isMatch key k = true) (v : V) :
    Represents P traits (t.setEntry s { e with payload := v }) (map.set key v) := by
  obtain ⟨m, hinv⟩ := h.invariant
  refine ⟨⟨m, hinv.setPayload he v⟩, ?_⟩
  intro k' w
  rw [hinv.holds_setPayload he hkey hmatch, KeyMap.set]
  dsimp only
  split
  · exact Option.some_inj.symm
  · exact h.holds k' w

lemma Represents.ensureCapacity_spec (objects : Objects V) :
    (ensureCapacity P traits objects t = .error .fatal ∧
        P.isValidLength (P.arrayLengthForNumOccupied (2 * t.countOccupied + 1)) = false) ∨
      ∃ t', ensureCapacity P traits objects t = .ok t' ∧ Represents P traits t' map ∧
        t'.countOccupied + t'.countDeleted + 1 < t'.numEntries ∧
        t'.countOccupied = t.countOccupied := by
  obtain ⟨m, hinv⟩ := h.invariant
  rcases hinv.ensureCapacity_spec objects with hfatal |
    ⟨m', t', hensure, hinv', hroom, hocc, hholds⟩
  · exact Or.inl hfatal
  · exact Or.inr ⟨t', hensure, ⟨⟨m', hinv'⟩, fun k v => (hholds k v).trans (h.holds k v)⟩, hroom,
      hocc⟩

/-- With room for another key, the search finds the key or a place where the insertion does what the
map does. -/
lemma Represents.search_spec (hroom : t.countOccupied + t.countDeleted + 1 < t.numEntries)
    (key : K) :
    (∃ s, findKeyOrDeletedOrUnused traits t key = .ok (false, s) ∧ map.get key = none ∧
        ∀ v, ∃ t', (insertKey t s key >>= fun t => updatePayload t s v) = .ok t' ∧
          Represents P traits t' (map.set key v) ∧ t'.countOccupied = t.countOccupied + 1) ∨
      ∃ s e k, findKeyOrDeletedOrUnused traits t key = .ok (true, s) ∧ t.entries[s]? = some e ∧
        e.key = .object k ∧ traits.isMatch key k = true ∧ map.get key = some e.payload := by
  obtain ⟨m, hinv⟩ := h.invariant
  rcases hinv.findKeyOrDeletedOrUnused_spec key with
    ⟨s, hfind, hins, hnone⟩ | ⟨s, k, hfind, hk, hmatch⟩
  · refine Or.inl ⟨s, hfind, ?_, ?_⟩
    · refine Option.eq_none_iff_forall_ne_some.mpr fun v hv => ?_
      exact not_holds_of_absent hnone v ((h.holds key v).mpr hv)
    · intro v
      obtain ⟨t', hinsert, hinv', hocc, -, hholds⟩ := hinv.insert_spec hins hnone hroom v
      refine ⟨t', hinsert, ⟨⟨m, hinv'⟩, ?_⟩, hocc⟩
      intro k w
      rw [hholds, KeyMap.set]
      dsimp only
      split
      · exact Option.some_inj.symm
      · exact h.holds k w
  · obtain ⟨e, he, hkey⟩ := Table.getElem?_of_keyAt hk
    refine Or.inr ⟨s, e, k, hfind, he, hkey, hmatch, ?_⟩
    exact (h.holds key e.payload).mp ⟨s, e, he, k, hkey, hmatch, rfl⟩

omit h in
lemma countOccupied_setPayload {s : ℕ} {e : Entry K V} (he : t.entries[s]? = some e) (v : V) :
    (t.setEntry s { e with payload := v }).countOccupied = t.countOccupied := by
  have hcnt := Table.countP_setEntry he { e with payload := v } fun e => e.key.isOccupied
  exact Nat.add_right_cancel hcnt

/-- The outcomes on the table and on the map fail alike, or the table represents the new map with at
most one key more. The only other outcome is the FATAL on a large backing array. -/
def Refines (P : Platform) (traits : KeyTraits K) (t : Table K V)
    (actual : Result (Table K V × Answer V)) (expected : Result (KeyMap traits V × Answer V)) :
    Prop :=
  (actual = .error .fatal ∧
    P.isValidLength (P.arrayLengthForNumOccupied (2 * t.countOccupied + 1)) = false) ∨
  (∃ failure, actual = .error failure ∧ expected = .error failure) ∨
  ∃ t' map' answer, actual = .ok (t', answer) ∧ expected = .ok (map', answer) ∧
    Represents P traits t' map' ∧ t'.countOccupied ≤ t.countOccupied + 1

lemma Represents.updateOrInsert_spec (objects : Objects V) (key : K) (value : V) :
    Refines P traits t ((Operation.updateOrInsert key value).run P traits objects t)
      ((Operation.updateOrInsert key value).spec map) := by
  simp only [Operation.run, Operation.spec, updateOrInsert]
  rcases h.ensureCapacity_spec objects with ⟨hensure, hlarge⟩ | ⟨t1, hensure, h1, hroom, hocc⟩
  · rw [hensure]
    exact Or.inl ⟨rfl, hlarge⟩
  refine Or.inr (Or.inr ?_)
  rw [hensure, ok_bind]
  rcases h1.search_spec hroom key with
    ⟨s, hfind, hnone, hinsert⟩ | ⟨s, e, k, hfind, he, hkey, hmatch, hsome⟩
  · obtain ⟨t', hins, hrep, hocc'⟩ := hinsert value
    refine ⟨t', map.set key value, .flag false, ?_, by rw [hnone]; rfl, hrep, by omega⟩
    rw [hfind, ok_bind]
    simp only [Bool.not_false, if_true]
    rw [← bind_assoc, hins, ok_bind, ok_bind]
  · refine ⟨_, map.set key value, .flag true, ?_, by rw [hsome]; rfl,
      h1.setPayload he hkey hmatch value, ?_⟩
    · rw [hfind, ok_bind]
      simp only [Bool.not_true, Bool.false_eq_true, if_false, ok_bind]
      rw [updatePayload_eq he hkey, ok_bind, ok_bind]
    · rw [countOccupied_setPayload he]
      omega

lemma Represents.insertOrGetValue_spec (objects : Objects V) (key : K) (value : V) :
    Refines P traits t ((Operation.insertOrGetValue key value).run P traits objects t)
      ((Operation.insertOrGetValue key value).spec map) := by
  simp only [Operation.run, Operation.spec, insertOrGetValue]
  rcases h.ensureCapacity_spec objects with ⟨hensure, hlarge⟩ | ⟨t1, hensure, h1, hroom, hocc⟩
  · rw [hensure]
    exact Or.inl ⟨rfl, hlarge⟩
  refine Or.inr (Or.inr ?_)
  rw [hensure, ok_bind]
  rcases h1.search_spec hroom key with
    ⟨s, hfind, hnone, hinsert⟩ | ⟨s, e, k, hfind, he, hkey, hmatch, hsome⟩
  · obtain ⟨t', hins, hrep, hocc'⟩ := hinsert value
    refine ⟨t', map.set key value, .object value, ?_, by rw [hnone], hrep, by omega⟩
    rw [hfind, ok_bind]
    simp only [Bool.not_false, if_true]
    rw [← bind_assoc, hins, ok_bind, ok_bind]
  · refine ⟨t1, map, .object e.payload, ?_, by rw [hsome], h1, by omega⟩
    rw [hfind, ok_bind]
    simp only [Bool.not_true, Bool.false_eq_true, if_false]
    rw [getPayload_eq he hkey, ok_bind, ok_bind]

lemma Represents.updateValue_spec (objects : Objects V) (key : K) (value : V) :
    Refines P traits t ((Operation.updateValue key value).run P traits objects t)
      ((Operation.updateValue key value).spec map) := by
  simp only [Operation.run, Operation.spec, updateValue]
  rcases h.findKey_spec key with ⟨hfind, hnone⟩ | ⟨s, e, k, hfind, he, hkey, hmatch, hsome⟩
  · refine Or.inr (Or.inl ⟨.assertion, ?_, by rw [hnone]⟩)
    rw [hfind]
    rfl
  · refine Or.inr (Or.inr ⟨_, map.set key value, .void, ?_, by rw [hsome],
      h.setPayload he hkey hmatch value, ?_⟩)
    · rw [hfind, ok_bind]
      dsimp only
      rw [updatePayload_eq he hkey, ok_bind]
    · rw [countOccupied_setPayload he]
      omega

lemma Represents.remove_spec (objects : Objects V) (key : K) :
    Refines P traits t ((Operation.remove key).run P traits objects t)
      ((Operation.remove key).spec map) := by
  obtain ⟨m, hinv⟩ := h.invariant
  refine Or.inr (Or.inr ?_)
  simp only [Operation.run, Operation.spec, remove]
  rcases h.findKey_spec key with ⟨hfind, hnone⟩ | ⟨s, e, k, hfind, he, hkey, hmatch, hsome⟩
  · refine ⟨t, map.erase key, .flag false, ?_, by rw [hnone]; rfl, ⟨⟨m, hinv⟩, ?_⟩, by omega⟩
    · rw [hfind]
      rfl
    · intro k v
      rw [h.holds, KeyMap.erase]
      dsimp only
      split
      · rename_i hk
        rw [← map.congr key k hk, hnone]
      · rfl
  · refine ⟨removed objects t s, map.erase key, .flag true, ?_, by rw [hsome]; rfl,
      ⟨⟨m, hinv.removed objects he hkey⟩, ?_⟩, ?_⟩
    · rw [hfind, ok_bind]
      dsimp only
      rw [deleteEntry_eq objects he hkey]
      rfl
    · intro k' v
      rw [hinv.holds_removed objects he hkey hmatch, h.holds, KeyMap.erase]
      dsimp only
      split_ifs with hk
      · simp [hk]
      · simp [hk]
    · have hocc : t.numOccupied - 1 = _ := (hinv.removed objects he hkey).occupied
      have hocc' := hinv.occupied
      omega

lemma Represents.clear_spec (objects : Objects V) :
    Refines P traits t ((Operation.clear).run P traits objects t) ((Operation.clear).spec map) := by
  obtain ⟨m, hinv⟩ := h.invariant
  obtain ⟨t', hinit, hfresh⟩ := initializeTable_spec traits objects hinv.size hinv.valid
  refine Or.inr (Or.inr ⟨t', KeyMap.empty traits V, .void, ?_, rfl,
    ⟨⟨m, hfresh.invariant⟩, ?_⟩, by rw [hfresh.noOccupied]; omega⟩)
  · simp only [Operation.run, clear]
    rw [hinit, ok_bind]
  · intro k v
    simp only [hfresh.empty k v, KeyMap.empty, reduceCtorEq]

/-- Every operation refines its abstract counterpart. -/
lemma Represents.run_spec (objects : Objects V) (op : Operation K V) :
    Refines P traits t (op.run P traits objects t) (op.spec map) := by
  cases op with
  | updateOrInsert key value => exact h.updateOrInsert_spec objects key value
  | insertOrGetValue key value => exact h.insertOrGetValue_spec objects key value
  | updateValue key value => exact h.updateValue_spec objects key value
  | remove key => exact h.remove_spec objects key
  | clear => exact h.clear_spec objects

end

end

end

open Checked List

variable {K V : Type} {P : Platform} {traits : KeyTraits K} {t : Table K V} {map : KeyMap traits V}

/-- `New` with a capacity for which the length does not wrap to one of an array, or `Initialize` on
an array of the length that `ArrayLengthForNumOccupied` gives, whatever it holds. -/
inductive Start (P : Platform) (K V : Type)
  | new (capacity : ℕ) (inRange : capacity < 2 ^ (P.wordBits - 2))
  | initializeArray (t : Table K V) (capacity : ℕ) (inRange : capacity < 2 ^ (P.wordBits - 2))
      (size : t.numEntries = P.numEntries (P.arrayLengthForNumOccupied capacity))
      (valid : P.isValidLength (P.arrayLengthForNumOccupied capacity) = true)

def Start.capacity {P : Platform} : Start P K V → ℕ
  | .new capacity _ => capacity
  | .initializeArray _ capacity _ _ _ => capacity

def Start.table {P : Platform} (objects : Objects V) : Start P K V → Result (Table K V)
  | .new capacity _ => HashTable.new P objects capacity
  | .initializeArray t _ _ _ _ => initializeTable objects t

lemma Start.table_spec {P : Platform} (traits : KeyTraits K) (objects : Objects V)
    (start : Start P K V) :
    (start.table objects = .error .fatal ∧
        P.isValidLength (P.arrayLengthForNumOccupied start.capacity) = false) ∨
      ∃ t, start.table objects = .ok t ∧ Represents P traits t (KeyMap.empty traits V) ∧
        t.countOccupied = 0 := by
  have hfresh_represents : ∀ {m : ℕ} {t : Table K V}, Fresh P traits m t →
      Represents P traits t (KeyMap.empty traits V) := by
    intro m t hfresh
    refine ⟨⟨m, hfresh.invariant⟩, fun k v => ?_⟩
    simp only [hfresh.empty k v, KeyMap.empty, reduceCtorEq]
  cases start with
  | new capacity inRange =>
    rcases new_spec traits objects capacity inRange with hfatal | ⟨m, t, hnew, hfresh, -⟩
    · exact .inl hfatal
    · exact .inr ⟨t, hnew, hfresh_represents hfresh, hfresh.noOccupied⟩
  | initializeArray t capacity inRange size valid =>
    obtain ⟨m, -, -, hvalid⟩ := P.arrayLengthForNumOccupied_spec capacity inRange
    obtain ⟨hok, hentries⟩ := hvalid valid
    obtain ⟨t', hinit, hfresh⟩ := initializeTable_spec (P := P) traits objects
      (size.trans hentries) (by rw [size, hentries]; exact hok)
    exact .inr ⟨t', hinit, hfresh_represents hfresh, hfresh.noOccupied⟩

/-- What a user of the table and its probes can rely on between two operations. -/
structure Faithful (P : Platform) (traits : KeyTraits K) (objects : Objects V) (t : Table K V)
    (map : KeyMap traits V) : Prop where
  containsKey : ∀ key, containsKey traits t key = .ok (map.get key).isSome
  getOrNull : ∀ key, getOrNull traits objects t key =
    .ok ((map.get key).getD objects.null, (map.get key).isSome)
  distinct : ∀ s s' k k', t.keyAt s = some (.object k) → t.keyAt s' = some (.object k') →
    traits.isMatch k k' = true → s = s'
  numOccupied : t.numOccupied = t.countOccupied
  numDeleted : t.numDeleted = t.countDeleted
  /-- The probes of lookups start with an unused entry, -/
  unused : ∃ s, t.keyAt s = some .sentinel
  /-- so do those of insertions, -/
  unusedAfterEnsure : ∀ t', ensureCapacity P traits objects t = .ok t' →
    ∃ s, t'.keyAt s = some .sentinel
  /-- and those of `Copy` after any number of entries of the old table. -/
  unusedInCopy : ∀ n t₀ t₁ t₂, HashTable.new P objects (t.numOccupied * 2 + 1).toNat = .ok t₀ →
    initializeTable objects t₀ = .ok t₁ → copyLoop traits (t.entries.take n) t₁ = .ok t₂ →
    ∃ s, t₂.keyAt s = some .sentinel

lemma DistinctKeys.take {entries : List (Entry K V)} (h : DistinctKeys traits entries) (n : ℕ) :
    DistinctKeys traits (entries.take n) :=
  List.Pairwise.sublist (take_sublist n entries) h

lemma Represents.unusedInCopy (h : Represents P traits t map) (objects : Objects V) (n : ℕ)
    (t0 t1 t2 : Table K V) (hnew : HashTable.new P objects (t.numOccupied * 2 + 1).toNat = .ok t0)
    (hinit : initializeTable objects t0 = .ok t1)
    (hcopy : copyLoop traits (t.entries.take n) t1 = .ok t2) :
    ∃ s, t2.keyAt s = some .sentinel := by
  obtain ⟨m, hinv⟩ := h.invariant
  have hstates := t.count_states
  have hunused := hinv.unused
  have hok := hinv.valid
  have hlimit := P.kMaxElements_lt
  rw [show Platform.kEntrySize = 2 from rfl] at hok
  have hcap : (t.numOccupied * 2 + 1).toNat = 2 * t.countOccupied + 1 := by
    rw [hinv.occupied]
    omega
  rw [hcap] at hnew
  rcases new_spec (P := P) traits objects (2 * t.countOccupied + 1) (by omega) with
    ⟨hfatal, -⟩ | ⟨m', t0', hnew', hfresh, hroom⟩
  · rw [hnew] at hfatal
    cases hfatal
  · rw [hnew] at hnew'
    cases hnew'
    obtain ⟨t1', hinit', hfresh1⟩ := initializeTable_spec (P := P) traits objects
      hfresh.invariant.size hfresh.invariant.valid
    rw [hinit] at hinit'
    cases hinit'
    have hsize : t1.numEntries = t0.numEntries := by
      rw [hfresh1.invariant.size, hfresh.invariant.size]
    have hall := hfresh1.copying hinv (by omega)
    have hle : pending (t.entries.take n) ≤ pending t.entries :=
      (take_sublist n t.entries).countP_le
    have hsome : Copying P traits m' (t.entries.take n) t1 :=
      ⟨hall.invariant, hall.noDeleted, by have := hall.room; omega, hall.distinct.take n,
        fun e he => hall.absent e (mem_of_mem_take he)⟩
    obtain ⟨t2', hloop, hinv2, -⟩ := hsome.copyLoop_spec
    rw [hcopy] at hloop
    cases hloop
    exact t2.exists_unused hinv2.unused

lemma Represents.faithful (h : Represents P traits t map) (objects : Objects V) :
    Faithful P traits objects t map := by
  obtain ⟨m, hinv⟩ := h.invariant
  refine ⟨h.containsKey_eq, h.getOrNull_eq objects, hinv.distinct, hinv.occupied, hinv.deleted,
    t.exists_unused hinv.unused, ?_, h.unusedInCopy objects⟩
  intro t' hensure
  rcases h.ensureCapacity_spec objects with ⟨hfatal, -⟩ | ⟨t'', hensure', h'', -⟩
  · rw [hensure] at hfatal
    cases hfatal
  · rw [hensure] at hensure'
    cases hensure'
    obtain ⟨m'', hinv''⟩ := h''.invariant
    exact t'.exists_unused hinv''.unused

/-- A run of the table against the run of the map, from a state that represents the map. -/
lemma Represents.runAll_spec (objects : Objects V) (ops : List (Operation K V))
    (h : Represents P traits t map) :
    (runAll (fun t op => op.run P traits objects t) ops t = .error .fatal ∧
        ∃ n < t.countOccupied + ops.length,
          P.isValidLength (P.arrayLengthForNumOccupied (2 * n + 1)) = false) ∨
      (∃ failure, runAll (fun t op => op.run P traits objects t) ops t = .error failure ∧
        runAll (fun map op => op.spec map) ops map = .error failure) ∨
      ∃ t' map' answers,
        runAll (fun t op => op.run P traits objects t) ops t = .ok (t', answers) ∧
        runAll (fun map op => op.spec map) ops map = .ok (map', answers) ∧
        Represents P traits t' map' := by
  induction ops generalizing t map with
  | nil => exact .inr (.inr ⟨t, map, [], rfl, rfl, h⟩)
  | cons op ops ih =>
    simp only [runAll, length_cons]
    rcases h.run_spec objects op with
      ⟨hrun, hlarge⟩ | ⟨failure, hrun, hspec⟩ | ⟨t1, map1, answer, hrun, hspec, h1, hocc⟩
    · rw [hrun]
      exact .inl ⟨rfl, t.countOccupied, by omega, hlarge⟩
    · rw [hrun, hspec]
      exact .inr (.inl ⟨failure, rfl, rfl⟩)
    · rw [hrun, hspec, ok_bind, ok_bind]
      rcases ih h1 with ⟨hruns, n, hn, hlarge⟩ | ⟨failure, hruns, hspecs⟩ |
        ⟨t', map', answers, hruns, hspecs, h'⟩
      · rw [hruns]
        exact .inl ⟨rfl, n, by omega, hlarge⟩
      · rw [hruns, hspecs]
        exact .inr (.inl ⟨failure, rfl, rfl⟩)
      · rw [hruns, hspecs]
        exact .inr (.inr ⟨t', map', answer :: answers, rfl, rfl, h'⟩)

/-- From `New` below a quarter of the words or `Initialize`, after any operations, the table has
given the answers of the map and
is faithful to it. It fails an ASSERT only where the map does, at an `UpdateValue` of an absent key;
the one other way to end is the FATAL above kMaxElements. -/
theorem run_refines_map (P : Platform) (traits : KeyTraits K) (objects : Objects V)
    (start : Start P K V) (ops : List (Operation K V)) :
    ((start.table objects >>= runAll (fun t op => op.run P traits objects t) ops) =
          .error .fatal ∧
        ∃ capacity ≤ max start.capacity (2 * ops.length),
          P.isValidLength (P.arrayLengthForNumOccupied capacity) = false) ∨
      (∃ failure,
        (start.table objects >>= runAll (fun t op => op.run P traits objects t) ops) =
          .error failure ∧
        runAll (fun map op => op.spec map) ops (KeyMap.empty traits V) = .error failure) ∨
      ∃ t map answers,
        (start.table objects >>= runAll (fun t op => op.run P traits objects t) ops) =
          .ok (t, answers) ∧
        runAll (fun map op => op.spec map) ops (KeyMap.empty traits V) = .ok (map, answers) ∧
        Faithful P traits objects t map := by
  rcases start.table_spec traits objects with ⟨hstart, hlarge⟩ | ⟨t, hstart, h, hocc⟩
  · rw [hstart]
    exact .inl ⟨rfl, start.capacity, le_max_left _ _, hlarge⟩
  · rw [hstart, ok_bind]
    rcases h.runAll_spec objects ops with ⟨hrun, n, hn, hlarge⟩ | ⟨failure, hrun, hspec⟩ |
      ⟨t', map', answers, hrun, hspec, h'⟩
    · exact .inl ⟨hrun, 2 * n + 1, by omega, hlarge⟩
    · exact .inr (.inl ⟨failure, hrun, hspec⟩)
    · exact .inr (.inr ⟨t', map', answers, hrun, hspec, h'.faithful objects⟩)

/-- Numbers with the same last digit match. -/
def lastDigits : KeyTraits ℕ where
  isMatch k k' := k % 10 == k' % 10
  hash k := k % 10 % 2
  refl _ := beq_self_eq_true _
  symm _ _ h := beq_iff_eq.mpr (beq_iff_eq.mp h).symm
  trans _ _ _ h h' := beq_iff_eq.mpr ((beq_iff_eq.mp h).trans (beq_iff_eq.mp h'))
  hash_eq _ _ h := congrArg (· % 2) (beq_iff_eq.mp h)

example : ((Start.new 1 (by decide) : Start ⟨true, true⟩ ℕ ℕ).table ⟨0, 1, 2⟩ >>=
    runAll (fun t op => op.run ⟨true, true⟩ lastDigits ⟨0, 1, 2⟩ t)
      [.updateOrInsert 3 30, .updateOrInsert 5 50, .updateOrInsert 13 31, .remove 5,
        .insertOrGetValue 23 9]).map Prod.snd =
    .ok [.flag false, .flag false, .flag true, .flag true, .object 31] := by
  decide +kernel

/-- From a quarter of the words on the number of entries is half of them, twice that wraps to zero,
and `Initialize` finds an array without entries. -/
theorem new_quarter_fails :
    (new ⟨true, true⟩ ⟨0, 1, 2⟩ (2 ^ 62) : Result (Table ℕ ℕ)) = .error .assertion ∧
      (new ⟨false, true⟩ ⟨0, 1, 2⟩ (2 ^ 30) : Result (Table ℕ ℕ)) = .error .assertion := by
  have hwraps : (Platform.mk true true).arrayLengthForNumOccupied (2 ^ 62) =
      (Platform.mk true true).kFirstKeyIndex ∧
    (Platform.mk false true).arrayLengthForNumOccupied (2 ^ 30) =
      (Platform.mk false true).kFirstKeyIndex := by
    decide +kernel
  simp only [new, hwraps]
  exact ⟨rfl, rfl⟩

end DartSdk.HashTable
