import Mathlib
import DartSdk.Checked

/-!
Tables whose slots are used in a circle. The view from a start slot is a rotation of the table, and
reading and writing the slot some steps after the start is reading and writing the view. A walk that
advances by one slot visits every slot once in a round. An element is reached from its home when the
slots between hold no gap, and then a walk that stops at gaps cannot stop before it.
-/

namespace DartSdk.CyclicTables

open Buffers List Nat

variable {α : Type} {table : List α} {start k : ℕ}

lemma getElem?_view (hk : k < table.length) :
    table[(start + k) % table.length]? = (table.rotate start)[k]? := by
  rw [List.getElem?_rotate hk, add_comm]

lemma set_view (x : α) (hk : k < table.length) :
    (table.set ((start + k) % table.length) x).rotate start = (table.rotate start).set k x := by
  have hpos : 0 < table.length := by omega
  refine ext_getElem? fun i => ?_
  by_cases hi : i < table.length
  · rw [List.getElem?_rotate (by rwa [List.length_set]), List.getElem?_set, List.getElem?_set,
      List.length_set, length_rotate, List.getElem?_rotate hi]
    -- Slots at different distances below the length are different.
    have hsame : (start + k) % table.length = (i + start) % table.length ↔ k = i := by
      rw [add_comm start k]
      refine ⟨fun h => ?_, fun h => by rw [h]⟩
      have hmod : k ≡ i [MOD table.length] := Nat.ModEq.add_right_cancel' start h
      rwa [Nat.ModEq, mod_eq_of_lt hk, mod_eq_of_lt hi] at hmod
    simp only [hsame, hk, mod_lt _ hpos, if_true]
  · rw [List.getElem?_eq_none (by rw [length_rotate, List.length_set]; omega),
      List.getElem?_eq_none (by rw [List.length_set, length_rotate]; omega)]

lemma overwrite_cons (j : ℕ) (x : α) (xs : List α) (h : j < table.length) :
    overwrite table j (x :: xs) = overwrite (table.set j x) (j + 1) xs := by
  have hstore := overwrite_overwrite table j [x] xs (by simpa using h)
  have hset : overwrite table j [x] = table.set j x := by
    rw [overwrite, set_eq_take_append_cons_drop, if_pos h, append_assoc]
    rfl
  rw [hset] at hstore
  exact hstore.symm

lemma overwrite_view (xs : List α) (hk : k + xs.length ≤ table.length)
    (hend : (start + k) % table.length + xs.length ≤ table.length) :
    (overwrite table ((start + k) % table.length) xs).rotate start =
      overwrite (table.rotate start) k xs := by
  induction xs generalizing table k with
  | nil => rw [overwrite_nil, overwrite_nil]
  | cons x xs ih =>
    rw [length_cons] at hk hend
    have hslot : (start + k) % table.length < table.length := by omega
    rw [overwrite_cons _ x xs hslot,
      overwrite_cons k x xs (by rw [length_rotate]; omega), ← set_view x (by omega)]
    cases xs with
    | nil => rw [overwrite_nil, overwrite_nil]
    | cons y xs =>
      rw [length_cons] at hk hend
      have hnext : (start + k) % table.length + 1 = (start + (k + 1)) % table.length := by
        have hlast : (start + k) % table.length + 1 < table.length := by omega
        rw [← add_assoc, ← mod_add_mod (start + k), mod_eq_of_lt hlast]
      have hlen : (table.set ((start + k) % table.length) x).length = table.length :=
        List.length_set
      have hrest := @ih (table.set ((start + k) % table.length) x) (k + 1)
        (by rw [hlen, length_cons]; omega)
        (by rw [hlen, length_cons, ← hnext]; omega)
      rwa [hlen, ← hnext] at hrest

lemma view_next {x : α} {rest : List α} (h : table.rotate start = x :: rest) :
    table.rotate ((start + 1) % table.length) = rest ++ [x] := by
  rw [rotate_mod, ← rotate_rotate, h, rotate_cons_succ, rotate_zero]

lemma view_previous {x : α} {rest : List α} (h : table.rotate start = rest ++ [x]) :
    table.rotate ((start + (table.length - 1)) % table.length) = x :: rest := by
  have hlen : table.length = rest.length + 1 := by
    rw [← length_rotate table start, h, length_append, length_singleton]
  rw [rotate_mod, ← rotate_rotate, h, hlen, Nat.add_sub_cancel, rotate_append_length_eq]
  rfl

end DartSdk.CyclicTables

namespace DartSdk.LinearProbing

open Nat

/-- The slot that a walk from `home` visits after `i` steps. -/
def slot (m home i : ℕ) : ℕ := (home + i) % m

section Slots

variable {m home : ℕ}

lemma slot_zero (h : home < m) : slot m home 0 = home := mod_eq_of_lt h

lemma slot_lt (h : home < m) (i : ℕ) : slot m home i < m := mod_lt _ (by omega)

lemma slot_succ (i : ℕ) : (slot m home i + 1) % m = slot m home (i + 1) :=
  mod_add_mod _ _ _

lemma exists_slot (h : home < m) {s : ℕ} (hs : s < m) : ∃ i < m, slot m home i = s := by
  refine ⟨(s + (m - home)) % m, mod_lt _ (by omega), ?_⟩
  rw [slot, add_mod_mod, show home + (s + (m - home)) = s + m by omega, add_mod_right]
  exact mod_eq_of_lt hs

lemma slot_ne_home (h : home < m) {i : ℕ} (hpos : 0 < i) (hi : i < m) : slot m home i ≠ home := by
  intro heq
  have hzero : home + i ≡ home + 0 [MOD m] := by
    rw [Nat.ModEq, add_zero, mod_eq_of_lt h]
    exact heq
  have hdvd := (modEq_zero_iff_dvd).mp (Nat.ModEq.add_left_cancel' home hzero)
  exact absurd (le_of_dvd hpos hdvd) (by omega)

end Slots

variable {α : Type} {table : List α} {home : ℕ}

/-- The walk first meets an element with the property after `u` steps. -/
structure FirstAt (P : α → Prop) (table : List α) (home u : ℕ) (a : α) : Prop where
  lt : u < table.length
  found : table[slot table.length home u]? = some a
  holds : P a
  before : ∀ j < u, ∀ b, table[slot table.length home j]? = some b → ¬ P b

variable {P : α → Prop}

lemma exists_firstAt (hhome : home < table.length) (h : ∃ a ∈ table, P a) :
    ∃ u a, FirstAt P table home u a := by
  obtain ⟨a, ha, hPa⟩ := h
  obtain ⟨s, hs⟩ := List.mem_iff_getElem?.mp ha
  obtain ⟨i, hi, hslot⟩ := exists_slot hhome (List.getElem?_eq_some_iff.mp hs).1
  have hex : ∃ u, ∃ b, table[slot table.length home u]? = some b ∧ P b :=
    ⟨i, a, hslot ▸ hs, hPa⟩
  classical
  obtain ⟨b, hb, hPb⟩ := Nat.find_spec hex
  have hle : Nat.find hex ≤ i := Nat.find_min' hex ⟨a, hslot ▸ hs, hPa⟩
  refine ⟨Nat.find hex, b, by omega, hb, hPb, ?_⟩
  intro j hj c hc hPc
  exact Nat.find_min hex hj ⟨c, hc, hPc⟩

/-- The walk from `home` comes to slot `s` with no gap before it. -/
def Reached (Gap : α → Prop) (table : List α) (home s : ℕ) : Prop :=
  ∃ u < table.length, slot table.length home u = s ∧
    ∀ j < u, ∀ b, table[slot table.length home j]? = some b → ¬ Gap b

variable {Gap : α → Prop}

/-- A walk that stops at gaps and at an element it looks for does not stop at a gap when the
element can be reached. -/
lemma FirstAt.not_gap {u s : ℕ} {a b : α}
    (h : FirstAt (fun c => Gap c ∨ P c) table home u a) (hreached : Reached Gap table home s)
    (hs : table[s]? = some b) (hb : P b) (hgap : ¬ Gap b) : ¬ Gap a := by
  obtain ⟨v, hv, rfl, hpre⟩ := hreached
  rcases lt_trichotomy u v with hlt | rfl | hgt
  · exact hpre u hlt a h.found
  · rw [h.found] at hs
    cases hs
    exact hgap
  · exact absurd (Or.inr hb) (h.before v hgt b hs)

lemma FirstAt.reached {u : ℕ} {a : α} (h : FirstAt P table home u a)
    (hgap : ∀ b, Gap b → P b) : Reached Gap table home (slot table.length home u) :=
  ⟨u, h.lt, rfl, fun j hj b hb hg => h.before j hj b hb (hgap b hg)⟩

lemma Reached.set {s i : ℕ} {x : α} (h : Reached Gap table home s) (hx : ¬ Gap x) :
    Reached Gap (table.set i x) home s := by
  obtain ⟨u, hu, hslot, hpre⟩ := h
  refine ⟨u, by rwa [List.length_set], by rwa [List.length_set], ?_⟩
  intro j hj b hb
  rw [List.length_set, List.getElem?_set] at hb
  split_ifs at hb with hsame hin
  · cases hb
    exact hx
  · exact hpre j hj b hb

end DartSdk.LinearProbing
