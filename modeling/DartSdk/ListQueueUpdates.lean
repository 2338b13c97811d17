import DartSdk.ListQueue

/-!
A `ListQueue` is a double-ended sequence for every program that uses it. An element in the middle
is removed by moving a hole to the nearer end. The sequence counts the elements that were added or
removed, and an iteration that began at another count is a concurrent modification. The queue also
counts an empty list that is passed to `addAll`; the sequence notes when an iteration goes on
although only empty lists came since it began, which the queue refuses.
-/

namespace DartSdk.ListQueue

open Checked Buffers CyclicTables List Nat

section

variable {α O : Type}

variable {q : Queue α} {l : List (Option α)}

lemma Represents.modified (h : Represents q l) : Represents (modified q) l :=
  ⟨⟨h.power, h.capacity, h.head_lt, h.fits, h.tail_eq, h.view⟩, h.short⟩

lemma Represents.addLast_spec (h : Represents q l) (x : Option α) :
    ∃ q', addLast q x = .ok q' ∧ Represents q' (l ++ [x]) ∧
      q'.modificationCount = q.modificationCount + 1 := by
  have hshort := h.short
  obtain ⟨m, hm⟩ : ∃ m, q.table.length - l.length = m + 1 := ⟨_, (succ_pred (by omega)).symm⟩
  have hview := h.view
  rw [hm, replicate_succ] at hview
  obtain ⟨table, hwrite, hlen, hview'⟩ := write_view hview x
  have hfills : Fills { q with table, tail := wrap (q.tail + 1) table.length } (l ++ [x]) := by
    refine ⟨hlen ▸ h.power, hlen ▸ h.capacity, hlen ▸ h.head_lt, ?_, ?_, ?_⟩
    · rw [hlen, length_append, length_singleton]
      exact hshort
    · show wrap (q.tail + 1) table.length = _
      rw [hlen, wrap_next h.power, h.tail_eq, next_mod, length_append, length_singleton]
    · rw [hview', hlen, length_append, length_singleton,
        show q.table.length - (l.length + 1) = m by omega, append_assoc, singleton_append]
  obtain ⟨q', hgrow, hrep, hcnt⟩ := hfills.growIfFull_spec (by simp)
  refine ⟨ListQueue.modified q', ?_, hrep.modified, congrArg (· + 1) hcnt⟩
  rw [addLast, h.tail_eq, hwrite, ok_bind, ← h.tail_eq]
  show growIfFull { q with table, tail := wrap (q.tail + 1) table.length } >>= _ = _
  rw [hgrow, ok_bind]

lemma Represents.addFirst_spec (h : Represents q l) (x : Option α) :
    ∃ q', addFirst q x = .ok q' ∧ Represents q' (x :: l) ∧
      q'.modificationCount = q.modificationCount + 1 := by
  have hshort := h.short
  obtain ⟨m, hm⟩ : ∃ m, q.table.length - l.length = m + 1 := ⟨_, (succ_pred (by omega)).symm⟩
  have hview := h.view
  rw [hm, replicate_succ', ← append_assoc] at hview
  -- Seen from the slot before the head, the free slot comes first.
  have hprevious := view_previous hview
  rw [← wrap_previous h.power] at hprevious
  have hwrap : wrap ((q.head : ℤ) - 1) q.table.length < q.table.length := by
    rw [wrap_previous h.power]
    exact mod_lt _ (by omega)
  obtain ⟨table, hwrite, hlen, hview'⟩ := @write_view α q.table [] _ _ _ hprevious x
  rw [length_nil, add_zero, mod_eq_of_lt hwrap] at hwrite
  have hfills : Fills { q with head := wrap ((q.head : ℤ) - 1) q.table.length, table }
    (x :: l) := by
    refine ⟨hlen ▸ h.power, hlen ▸ h.capacity, hlen ▸ hwrap, ?_, ?_, ?_⟩
    · rw [hlen, length_cons]
      exact hshort
    · show q.tail = (wrap ((q.head : ℤ) - 1) q.table.length + (l.length + 1)) % table.length
      rw [hlen, wrap_previous h.power, mod_add_mod, h.tail_eq,
        show q.head + (q.table.length - 1) + (l.length + 1) = q.head + l.length + q.table.length by
          omega, add_mod_right]
    · rw [hview', hlen, length_cons, show q.table.length - (l.length + 1) = m by omega]
      rfl
  obtain ⟨q', hgrow, hrep, hcnt⟩ := hfills.growIfFull_spec (by simp)
  refine ⟨ListQueue.modified q', ?_, hrep.modified, congrArg (· + 1) hcnt⟩
  rw [addFirst]
  rw [hwrite, ok_bind, hgrow, ok_bind]

variable {table : List (Option α)}

section

variable (h : Represents q l)

include h

/-- Elements written to the free slots after the last element. -/
lemma Represents.appended {xs : List (Option α)} {tail : ℕ}
    (hroom : l.length + xs.length < q.table.length)
    (hview : table.rotate q.head = overwrite (q.table.rotate q.head) l.length xs)
    (htail : tail = (q.head + (l.length + xs.length)) % q.table.length) :
    Represents { q with table, tail } (l ++ xs) := by
  have hview' : table.rotate q.head =
      l ++ xs ++ List.replicate (q.table.length - l.length - xs.length) none := by
    rw [hview, h.view, overwrite_free]
  have hlen : table.length = q.table.length := by
    rw [← length_rotate table q.head, hview', length_append, length_append, length_replicate]
    omega
  refine ⟨⟨hlen ▸ h.power, hlen ▸ h.capacity, hlen ▸ h.head_lt, ?_, ?_, ?_⟩, ?_⟩
  · rw [length_append, hlen]
    exact hroom.le
  · rw [length_append, hlen]
    exact htail
  · rw [hview', hlen, length_append, Nat.sub_sub]
  · rw [length_append, hlen]
    exact hroom

lemma Represents.wrapped_view {xs : List (Option α)}
    (hroom : l.length + xs.length < q.table.length) (hend : q.table.length - q.tail ≤ xs.length) :
    (overwrite (overwrite q.table q.tail (xs.take (q.table.length - q.tail))) 0
      (xs.drop (q.table.length - q.tail))).rotate q.head =
      overwrite (q.table.rotate q.head) l.length xs := by
  have htail := h.tail_lt
  have hfirst : (xs.take (q.table.length - q.tail)).length = q.table.length - q.tail := by
    rw [length_take]
    omega
  have hrest : (xs.drop (q.table.length - q.tail)).length = xs.length - (q.table.length - q.tail) :=
    length_drop
  have hlen := length_overwrite q.table q.tail (xs.take (q.table.length - q.tail)) (by omega)
  have hstart : 0 = (q.head + (l.length + (q.table.length - q.tail))) % q.table.length := by
    rw [← add_assoc, ← Nat.mod_add_mod (q.head + l.length), ← h.tail_eq,
      Nat.add_sub_cancel' htail.le, Nat.mod_self]
  have hsecond := @overwrite_view _ (overwrite q.table q.tail (xs.take (q.table.length - q.tail)))
    q.head (l.length + (q.table.length - q.tail)) (xs.drop (q.table.length - q.tail))
    (by omega) (by rw [hlen, ← hstart]; omega)
  rw [hlen, ← hstart] at hsecond
  have hview : (overwrite q.table q.tail (xs.take (q.table.length - q.tail))).rotate q.head =
      overwrite (q.table.rotate q.head) l.length (xs.take (q.table.length - q.tail)) := by
    nth_rewrite 1 [h.tail_eq]
    rw [overwrite_view _ (by omega) (by rw [← h.tail_eq]; omega)]
  have hadj := overwrite_overwrite (q.table.rotate q.head) l.length
    (xs.take (q.table.length - q.tail)) (xs.drop (q.table.length - q.tail))
    (by rw [length_rotate]; omega)
  rw [hfirst, take_append_drop] at hadj
  rw [hsecond, hview, hadj]

lemma Represents.addAll_list_spec (xs : List (Option α)) :
    ∃ q', addAll q (.list xs) = .ok q' ∧ Represents q' (l ++ xs) ∧
      q'.modificationCount = q.modificationCount + 1 := by
  have htail := h.tail_lt
  have hcap := h.capacity
  rw [addAll, h.length_eq]
  by_cases hgrow : q.table.length ≤ l.length + xs.length
  · obtain ⟨p, hp, hpre⟩ := h.preGrow_spec hgrow
    have hlen : (l ++ xs).length = l.length + xs.length := length_append
    have hcopy : setRange (l ++ List.replicate (2 ^ p - l.length) none) l.length
        (l.length + xs.length) xs 0 =
        .ok (l ++ xs ++ List.replicate (2 ^ p - (l ++ xs).length) none) := by
      rw [setRange_all (by rw [length_append, length_replicate]; omega), overwrite_free,
        hlen, Nat.sub_sub]
    have hfront := represents_front (l ++ xs) ⟨p, rfl⟩ (by omega) (by omega) q.modificationCount
    refine ⟨_, ?_, hfront.modified, rfl⟩
    rw [if_pos hgrow, hpre, ok_bind, hcopy, ok_bind, hlen]
  · rw [if_neg hgrow]
    have hroom : l.length + xs.length < q.table.length := by omega
    have htails : (q.tail + xs.length) % q.table.length =
        (q.head + (l.length + xs.length)) % q.table.length := by
      rw [h.tail_eq, mod_add_mod, add_assoc]
    by_cases hend : xs.length < q.table.length - q.tail
    · rw [mod_eq_of_lt (by omega)] at htails
      have hview : (overwrite q.table q.tail xs).rotate q.head =
          overwrite (q.table.rotate q.head) l.length xs := by
        nth_rewrite 1 [h.tail_eq]
        rw [overwrite_view xs hroom.le (by rw [← h.tail_eq]; omega)]
      refine ⟨_, ?_, (h.appended hroom hview htails).modified, rfl⟩
      rw [if_pos hend, setRange_all (by omega), ok_bind]
    · rw [mod_eq_sub_mod (by omega), mod_eq_of_lt (by omega),
        show q.tail + xs.length - q.table.length = xs.length - (q.table.length - q.tail) by omega]
        at htails
      refine ⟨_, ?_, (h.appended hroom (h.wrapped_view hroom (by omega)) htails).modified, rfl⟩
      have hfirst : setRange q.table q.tail (q.tail + (q.table.length - q.tail)) xs 0 =
          .ok (overwrite q.table q.tail (xs.take (q.table.length - q.tail))) := by
        rw [setRange_eq (by omega) (by omega) (by omega), drop_zero, Nat.add_sub_cancel_left]
      have hlen := length_overwrite q.table q.tail (xs.take (q.table.length - q.tail))
        (by rw [length_take]; omega)
      rw [if_neg hend]
      have hrest : (xs.drop (q.table.length - q.tail)).take
          (xs.length - (q.table.length - q.tail)) = xs.drop (q.table.length - q.tail) :=
        take_of_length_le (by rw [length_drop])
      rw [hfirst, ok_bind, setRange_eq (by omega) (by omega) (by omega), ok_bind, Nat.sub_zero,
        hrest]

lemma Represents.addAll_iterable_spec (xs : List (Option α)) :
    ∃ q', xs.foldlM addLast q = .ok q' ∧ Represents q' (l ++ xs) ∧
      q'.modificationCount = q.modificationCount + xs.length := by
  induction xs generalizing q l with
  | nil => exact ⟨q, rfl, by rwa [append_nil], rfl⟩
  | cons x xs ih =>
    obtain ⟨q1, hadd, hrep1, hcount1⟩ := h.addLast_spec x
    obtain ⟨q2, hrest, hrep2, hcount2⟩ := ih hrep1
    refine ⟨q2, ?_, ?_, ?_⟩
    · rw [foldlM_cons, hadd, ok_bind, hrest]
    · rwa [append_assoc, singleton_append] at hrep2
    · rw [hcount2, hcount1, length_cons]
      omega

end

lemma Represents.ne_of_concat {q : Queue α} {a : List (Option α)} {x : Option α}
    {c : List (Option α)} (h : Represents q (a ++ x :: c)) : q.head ≠ q.tail :=
  fun heq => by simp [h.head_eq_tail_iff] at heq

/-- One element less, with the slot at the head free. -/
lemma Fills.without_head {l' : List (Option α)} (h : Fills q l')
    (hcnt : l'.length = l.length + 1) (hlen : table.length = q.table.length)
    (hview : table.rotate q.head =
      none :: (l ++ List.replicate (q.table.length - (l.length + 1)) none)) :
    Represents { q with table, head := (q.head + 1) % q.table.length } l := by
  have hfits := h.fits
  refine ⟨⟨hlen ▸ h.power, hlen ▸ h.capacity, ?_, ?_, ?_, ?_⟩, ?_⟩
  · rw [hlen]
    exact mod_lt _ (by omega)
  · rw [hlen]
    omega
  · show q.tail = ((q.head + 1) % q.table.length + l.length) % table.length
    rw [hlen, mod_add_mod, h.tail_eq, hcnt, add_assoc, add_comm 1]
  · have hnext := view_next hview
    rw [hlen] at hnext ⊢
    rw [hnext, append_assoc, ← replicate_succ',
      show q.table.length - (l.length + 1) + 1 = q.table.length - l.length by omega]
  · rw [hlen]
    omega

/-- One element less, with the slot of the last one free. -/
lemma Fills.without_last {l' : List (Option α)} (h : Fills q l')
    (hcnt : l'.length = l.length + 1) (hlen : table.length = q.table.length)
    (hview : table.rotate q.head =
      l ++ none :: List.replicate (q.table.length - (l.length + 1)) none) :
    Represents { q with table, tail := (q.head + l.length) % q.table.length } l := by
  have hfits := h.fits
  refine ⟨⟨hlen ▸ h.power, hlen ▸ h.capacity, hlen ▸ h.head_lt, ?_, ?_, ?_⟩, ?_⟩
  · rw [hlen]
    omega
  · rw [hlen]
  · rw [hview, hlen, ← replicate_succ,
      show q.table.length - (l.length + 1) + 1 = q.table.length - l.length by omega]
  · rw [hlen]
    omega

variable {x : Option α}

lemma Represents.removeFirst_spec (h : Represents q (x :: l)) :
    ∃ q', removeFirst q = .ok (.ok x, q') ∧ Represents q' l ∧
      q'.modificationCount = q.modificationCount + 1 := by
  have hview : q.table.rotate q.head = [] ++ x :: _ := h.view
  obtain ⟨table, hwrite, hlen, hview'⟩ := write_view hview none
  rw [length_nil, h.slot_zero] at hwrite
  refine ⟨_, ?_, (h.without_head length_cons hlen hview').modified, rfl⟩
  rw [removeFirst, if_neg (@Represents.ne_of_concat α q [] x l h)]
  show read q.table q.head >>= _ = _
  rw [h.read_head, ok_bind]
  show write q.table q.head none >>= _ = _
  rw [hwrite, ok_bind, hlen]
  simp only [ListQueue.modified, wrap_next h.power]

lemma Represents.removeLast_spec (h : Represents q (l ++ [x])) :
    ∃ q', removeLast q = .ok (.ok x, q') ∧ Represents q' l ∧
      q'.modificationCount = q.modificationCount + 1 := by
  have hview := h.view_split
  obtain ⟨table, hwrite, hlen, hview'⟩ := write_view hview none
  rw [length_append, length_singleton] at hview'
  refine ⟨_, ?_, (h.without_last length_append hlen hview').modified, rfl⟩
  rw [removeLast, if_neg h.ne_of_concat]
  show read q.table (wrap ((q.tail : ℤ) - 1) q.table.length) >>= _ = _
  rw [h.wrap_tail, h.read_at, ok_bind]
  show write q.table (wrap ((q.tail : ℤ) - 1) q.table.length) none >>= _ = _
  rw [h.wrap_tail, hwrite, ok_bind]
  simp only [ListQueue.modified, h.wrap_tail]

/-- A hole in the view of a table, whose other slots are fixed. -/
structure Hole (n start : ℕ) (goal : List (Option α)) (k : ℕ) (table : List (Option α)) : Prop where
  length_eq : table.length = n
  view : ∃ a x c, table.rotate start = a ++ x :: c ∧ a.length = k ∧ a ++ c = goal

variable {k n start : ℕ} {goal : List (Option α)}

lemma Hole.back (h : Hole n start goal (k + 1) table) :
    ∃ element table', read table ((start + k) % n) = .ok element ∧
      write table ((start + (k + 1)) % n) element = .ok table' ∧ Hole n start goal k table' := by
  obtain ⟨rfl, a, x, c, hview, hk, hgoal⟩ := h
  rcases a.eq_nil_or_concat' with rfl | ⟨a, y, rfl⟩
  · simp at hk
  · rw [length_append, length_singleton, add_right_cancel_iff] at hk
    have hread : table.rotate start = a ++ y :: x :: c := by
      rw [hview, append_assoc, singleton_append]
    obtain ⟨table', hwrite, hlen, hview'⟩ := write_view hview y
    rw [length_append, length_singleton, hk] at hwrite
    refine ⟨y, table', hk ▸ read_view hread, hwrite, hlen, a, y, y :: c, ?_, hk, ?_⟩
    · rw [hview', append_assoc, singleton_append]
    · rw [← hgoal, append_assoc, singleton_append]

lemma Hole.forward (h : Hole n start goal k table) (hk : k + 1 < n) :
    ∃ element table', read table ((start + (k + 1)) % n) = .ok element ∧
      write table ((start + k) % n) element = .ok table' ∧ Hole n start goal (k + 1) table' := by
  obtain ⟨rfl, a, x, c, hview, rfl, hgoal⟩ := h
  have hlen := length_of_view hview
  cases c with
  | nil =>
    rw [length_nil] at hlen
    omega
  | cons y c =>
    have hread : table.rotate start = (a ++ [x]) ++ y :: c := by
      rw [hview, append_assoc, singleton_append]
    have helement := read_view hread
    rw [length_append, length_singleton] at helement
    obtain ⟨table', hwrite, hlength', hview'⟩ := write_view hview y
    refine ⟨y, table', helement, hwrite, hlength', a ++ [y], y, c, ?_, ?_, ?_⟩
    · rw [hview', append_assoc, singleton_append]
    · rw [length_append, length_singleton]
    · rw [← hgoal, append_assoc, singleton_append]

lemma Represents.hole {a c : List (Option α)} (h : Represents q (a ++ x :: c)) :
    Hole q.table.length q.head
      (a ++ c ++ List.replicate (q.table.length - (a ++ x :: c).length) none) a.length q.table :=
  ⟨rfl, a, x, _, h.view_split, rfl, (append_assoc _ _ _).symm⟩

lemma Hole.loop_back (hpower : ∃ p, q.table.length = 2 ^ p) (hhead : q.head < q.table.length)
    (hk : k < q.table.length) (h : Hole q.table.length q.head goal k table) :
    ∃ table', loop (fun (s : List (Option α) × ℕ) =>
        if s.2 = q.head then .ok (.inr s.1)
        else do
          let prevOffset := wrap ((s.2 : ℤ) - 1) q.table.length
          let element ← read s.1 prevOffset
          let table ← write s.1 s.2 element
          .ok (.inl (table, prevOffset))) q.table.length
        (table, (q.head + k) % q.table.length) = .ok table' ∧
      Hole q.table.length q.head goal 0 table' := by
  refine loop_spec _ (fun j s => j < q.table.length ∧ s.2 = (q.head + j) % q.table.length ∧
    Hole q.table.length q.head goal j s.1) _ ?_ _ ⟨hk, rfl, h⟩ hk
  rintro j ⟨table, i⟩ ⟨hj, rfl, hole⟩
  cases j with
  | zero => exact Or.inl ⟨table, if_pos (mod_eq_of_lt hhead), hole⟩
  | succ j =>
    right
    obtain ⟨element, table', hread, hwrite, hole'⟩ := hole.back
    have hprevious : wrap (((q.head + (j + 1)) % q.table.length : ℕ) - 1 : ℤ) q.table.length =
        (q.head + j) % q.table.length := by
      rw [wrap_previous hpower, previous_mod (by omega)]
    have hne : (q.head + (j + 1)) % q.table.length ≠ q.head := fun heq => by
      have := mod_inj hj (by omega : 0 < q.table.length) (heq.trans (mod_eq_of_lt hhead).symm)
      omega
    refine ⟨j, by omega, (table', (q.head + j) % q.table.length), ?_, by omega, rfl, hole'⟩
    rw [if_neg hne]
    show read table (wrap _ _) >>= _ = _
    rw [hprevious, hread, ok_bind, hwrite, ok_bind]

lemma Hole.loop_forward {last : ℕ}
    (hpower : ∃ p, n = 2 ^ p) (hlast : last < n) (hk : k ≤ last) (h : Hole n start goal k table) :
    ∃ table', loop (fun (s : List (Option α) × ℕ) =>
        if s.2 = (start + last) % n then .ok (.inr s.1)
        else do
          let nextOffset := wrap (s.2 + 1) n
          let element ← read s.1 nextOffset
          let table ← write s.1 s.2 element
          .ok (.inl (table, nextOffset))) n (table, (start + k) % n) = .ok table' ∧
      Hole n start goal last table' := by
  refine loop_spec _ (fun m s => ∃ j, j + m = last ∧ s.2 = (start + j) % n ∧
    Hole n start goal j s.1) _ ?_ _ ⟨k, Nat.add_sub_cancel' hk, rfl, h⟩ (by omega)
  rintro m ⟨table, i⟩ ⟨j, rfl, rfl, hole⟩
  cases m with
  | zero => exact Or.inl ⟨table, if_pos rfl, hole⟩
  | succ m =>
    right
    obtain ⟨element, table', hread, hwrite, hole'⟩ := hole.forward (by omega)
    have hnext : wrap (((start + j) % n : ℕ) + 1 : ℤ) n = (start + (j + 1)) % n := by
      rw [wrap_next hpower, next_mod]
    have hne : (start + j) % n ≠ (start + (j + (m + 1))) % n := fun heq => by
      have := mod_inj (by omega) hlast heq
      omega
    refine ⟨m, by omega, (table', (start + (j + 1)) % n), ?_, j + 1, by omega, rfl, hole'⟩
    rw [if_neg hne]
    show read table (wrap _ _) >>= _ = _
    rw [hnext, hread, ok_bind, hwrite, ok_bind]

lemma Represents.removeSlot_spec {a c : List (Option α)} (h : Represents q (a ++ x :: c)) :
    ∃ q', removeSlot q ((q.head + a.length) % q.table.length) =
        .ok ((q'.head + a.length) % q'.table.length, q') ∧
      Represents q' (a ++ c) ∧ q'.modificationCount = q.modificationCount ∧
      q'.table.length = q.table.length := by
  have hshort := h.short
  have hlen : (a ++ x :: c).length = (a ++ c).length + 1 := by
    simp only [length_append, length_cons, add_assoc]
  have hsum : (a ++ c).length = a.length + c.length := length_append
  have hstart : wrap (((q.head + a.length) % q.table.length : ℕ) - q.head : ℤ) q.table.length =
      a.length := wrap_distance h.power rfl (by omega)
  have hend : wrap ((q.tail : ℤ) - ((q.head + a.length) % q.table.length : ℕ)) q.table.length =
      c.length + 1 := by
    refine wrap_distance h.power ?_ (by omega)
    rw [h.tail_eq, mod_add_mod, add_assoc, hlen, hsum, add_assoc a.length]
  by_cases hside : a.length < c.length + 1
  · obtain ⟨table, hloop, hole⟩ := h.hole.loop_back h.power h.head_lt (by omega)
    obtain ⟨htable, b, y, d, hview, hb, hgoal⟩ := hole
    rw [length_eq_zero_iff] at hb
    subst hb
    rw [nil_append] at hgoal
    obtain ⟨table', hwrite, htable', hview'⟩ := write_view hview none
    rw [length_nil, htable, h.slot_zero] at hwrite
    rw [htable] at htable'
    rw [nil_append, hgoal, hlen] at hview'
    refine ⟨_, ?_, h.without_head hlen htable' hview', rfl, htable'⟩
    rw [removeSlot, hstart, hend]
    rw [if_pos hside, hloop, ok_bind, hwrite, ok_bind, wrap_next h.power, wrap_next h.power,
      next_mod, htable', mod_add_mod, add_assoc, add_comm 1]
  · have htail : wrap ((q.tail : ℤ) - 1) q.table.length =
        (q.head + (a ++ c).length) % q.table.length := by
      rw [wrap_previous h.power, h.tail_eq, hlen, previous_mod (by omega)]
    obtain ⟨table, hloop, hole⟩ := h.hole.loop_forward h.power (by omega : (a ++ c).length < _)
      (by omega)
    obtain ⟨htable, b, y, d, hview, hb, hgoal⟩ := hole
    obtain ⟨table', hwrite, htable', hview'⟩ := write_view hview none
    rw [htable, hb] at hwrite
    rw [htable] at htable'
    obtain ⟨rfl, rfl⟩ := append_inj hgoal hb
    rw [hlen] at hview'
    refine ⟨_, ?_, h.without_last hlen htable' hview', rfl, htable'⟩
    rw [removeSlot, hstart, hend]
    rw [if_neg hside, htail]
    show loop _ _ _ >>= _ = _
    rw [hloop, ok_bind, hwrite, ok_bind, htable']

lemma Represents.remove_spec (h : Represents q l) (equals : Option α → O → Bool) (value : O) :
    ∃ q', remove equals q value = .ok (l.any (equals · value), q') ∧
      Represents q' (l.eraseP (equals · value)) ∧
      q'.modificationCount = q.modificationCount + (if l.any (equals · value) then 1 else 0) ∧
      (l.any (equals · value) = false → q' = q) := by
  suffices hloop : ∃ r : Bool × Queue α, remove equals q value = .ok r ∧
      r.1 = l.any (equals · value) ∧ Represents r.2 (l.eraseP (equals · value)) ∧
      r.2.modificationCount = q.modificationCount + (if l.any (equals · value) then 1 else 0) ∧
      (l.any (equals · value) = false → r.2 = q) by
    obtain ⟨⟨found, q'⟩, hrun, rfl, hrest⟩ := hloop
    exact ⟨q', hrun, hrest⟩
  -- The elements seen so far do not match.
  refine loop_spec _ (fun n i => ∃ a c, l = a ++ c ∧ c.length = n ∧
      i = (q.head + a.length) % q.table.length ∧ ∀ y ∈ a, ¬equals y value = true) _
    ?_ _ ⟨[], l, rfl, rfl, h.slot_zero.symm, by simp⟩ h.short
  rintro n i ⟨a, c, rfl, rfl, rfl, hseen⟩
  cases c with
  | nil =>
    left
    have hnone : (a ++ []).any (equals · value) = false := by simpa using hseen
    have hkeep : (a ++ []).eraseP (equals · value) = a ++ [] :=
      eraseP_of_forall_not (by simpa using hseen)
    refine ⟨(false, q), if_pos h.slot_eq_tail, ?_⟩
    rw [hnone, hkeep]
    exact ⟨rfl, h, rfl, fun _ => rfl⟩
  | cons x c =>
    rw [if_neg h.slot_ne_tail, h.read_at, ok_bind]
    by_cases hx : equals x value = true
    · left
      obtain ⟨q', hremove, hrep, hcnt, -⟩ := h.removeSlot_spec
      have hany : (a ++ x :: c).any (equals · value) = true := by simp [hx]
      have herase : (a ++ x :: c).eraseP (equals · value) = a ++ c := by
        rw [eraseP_append_right _ hseen]
        exact congrArg (a ++ ·) (eraseP_cons_of_pos hx)
      refine ⟨(true, ListQueue.modified q'), ?_, hany.symm, ?_, ?_, fun hfalse => ?_⟩
      · rw [if_pos hx, hremove, ok_bind]
      · rw [herase]
        exact hrep.modified
      · rw [if_pos hany, ← hcnt]
        rfl
      · rw [hany] at hfalse
        cases hfalse
    · right
      have hnext : (q.head + (a.length + 1)) % q.table.length =
          (q.head + (a ++ [x]).length) % q.table.length := by
        rw [length_append, length_singleton]
      refine ⟨c.length, lt_succ_self _, _, if_neg hx, a ++ [x], c, by simp, rfl,
        (h.wrap_slot a.length).trans hnext, fun y hy => ?_⟩
      rcases mem_append.mp hy with hy | hy
      · exact hseen y hy
      · rwa [mem_singleton.mp hy]

lemma Represents.clear_loop (h : Represents q l) :
    ∃ table, loop (fun (s : List (Option α) × ℕ) =>
        if s.2 = q.tail then .ok (.inr s.1)
        else do
          let table ← write s.1 s.2 none
          .ok (.inl (table, wrap (s.2 + 1) table.length))) q.table.length (q.table, q.head) =
        .ok table ∧ table = newList q.table.length := by
  refine loop_spec _ (fun n s => ∃ a c, l = a ++ c ∧ c.length = n ∧
      s.2 = (q.head + a.length) % q.table.length ∧ s.1.length = q.table.length ∧
      s.1.rotate q.head = List.replicate a.length none ++
        (c ++ List.replicate (q.table.length - l.length) none)) _
    ?_ _ ⟨[], l, rfl, rfl, h.slot_zero.symm, rfl, h.view⟩ h.short
  rintro n ⟨table, i⟩ ⟨a, c, rfl, rfl, rfl, hlen, hview⟩
  cases c with
  | nil =>
    left
    refine ⟨table, if_pos h.slot_eq_tail, eq_replicate_iff.mpr ⟨hlen, fun y hy => ?_⟩⟩
    have hmem : y ∈ table.rotate q.head := mem_rotate.mpr hy
    rw [hview] at hmem
    simp only [nil_append, mem_append, mem_replicate] at hmem
    rcases hmem with ⟨-, hnone⟩ | ⟨-, hnone⟩ <;> exact hnone
  | cons x c =>
    right
    have hview' : table.rotate q.head = List.replicate a.length none ++ x :: _ := hview
    obtain ⟨table', hwrite, hlength', hview''⟩ := write_view hview' none
    rw [length_replicate, hlen] at hwrite
    refine ⟨c.length, lt_succ_self _,
      (table', (q.head + (a ++ [x]).length) % q.table.length), ?_, a ++ [x], c, by simp, rfl, rfl,
      hlength'.trans hlen, ?_⟩
    · rw [if_neg h.slot_ne_tail, hwrite, ok_bind, hlength', hlen, h.wrap_slot, length_append,
        length_singleton]
    · have hcnt : (a ++ [x]).length = a.length + 1 := length_append
      rw [hview'', hcnt, replicate_succ', append_assoc]
      rfl

lemma Represents.clear_spec (h : Represents q l) :
    ∃ q', clear q = .ok q' ∧ Represents q' [] ∧
      q'.modificationCount = q.modificationCount + (if l = [] then 0 else 1) ∧
      (l = [] → q' = q) := by
  by_cases hl : l = []
  · have heq := h.head_eq_tail_iff.mpr hl
    refine ⟨q, if_neg (not_not.mpr heq), hl ▸ h, ?_, fun _ => rfl⟩
    rw [if_pos hl]
    rfl
  · have hne : q.head ≠ q.tail := fun heq => hl (h.head_eq_tail_iff.mp heq)
    obtain ⟨table, hloop, rfl⟩ := h.clear_loop
    have hshort := h.short
    refine ⟨_, ?_, (represents_front [] h.power h.capacity (by simp; omega)
      q.modificationCount).modified, ?_, fun hnil => absurd hnil hl⟩
    · rw [clear, if_pos hne, hloop, ok_bind]
      rfl
    · rw [if_neg hl]
      rfl

lemma tableCapacity_spec (capacity : Option ℤ) :
    ∃ p, initialCapacity ≤ 2 ^ p ∧ (∀ c, capacity = some c → c ≤ 2 ^ p) ∧
      tableCapacity capacity = .ok (2 ^ p) := by
  cases capacity with
  | none => exact ⟨3, le_refl _, by simp, rfl⟩
  | some c =>
    by_cases hsmall : c < initialCapacity
    · refine ⟨3, le_refl _, fun c' hc' => ?_, if_pos hsmall⟩
      cases hc'
      exact hsmall.le
    · obtain ⟨m, rfl⟩ := Int.eq_ofNat_of_zero_le (by omega : 0 ≤ c)
      have hm : initialCapacity ≤ m := by exact_mod_cast not_lt.mp hsmall
      have hpos : 0 < m := lt_of_lt_of_le (by decide) hm
      rw [tableCapacity, if_neg hsmall, Int.toNat_natCast]
      by_cases hpower : isPowerOf2 m = true
      · obtain ⟨p, rfl⟩ := exists_of_isPowerOf2 hpos hpower
        refine ⟨p, hm, fun c' hc' => ?_, if_pos hpower⟩
        cases hc'
        rw [cast_pow, cast_ofNat]
      · obtain ⟨p, hp, hle⟩ := nextPowerOf2_spec hpos
        refine ⟨p, hm.trans hle, fun c' hc' => ?_, by rw [if_neg hpower, hp]⟩
        cases hc'
        exact_mod_cast hle

lemma empty_spec (capacity : Option ℤ) :
    ∃ p, initialCapacity ≤ 2 ^ p ∧ (∀ c, capacity = some c → c ≤ 2 ^ p) ∧
      (empty capacity : Result (Queue α)) = .ok ⟨newList (2 ^ p), 0, 0, 0⟩ := by
  obtain ⟨p, hp, hc, hcap⟩ := tableCapacity_spec capacity
  refine ⟨p, hp, hc, ?_⟩
  rw [empty, hcap, ok_bind, isPowerOf2_two_pow, check_true, ok_bind]

lemma empty_represents (capacity : Option ℤ) :
    ∃ q : Queue α, empty capacity = .ok q ∧ Represents q [] := by
  obtain ⟨p, hp, -, hemp⟩ := @empty_spec α capacity
  have hpos : ([] : List (Option α)).length < 2 ^ p := Nat.two_pow_pos p
  exact ⟨_, hemp, represents_front [] ⟨p, rfl⟩ hp hpos 0⟩

def Elements.items : Elements α → List (Option α)
  | .list elements => elements
  | .iterable elements => elements

def Construction.items : Construction α → List (Option α)
  | .empty _ => []
  | .fromList elements => elements
  | .fromIterable _ elements => elements
  | .of elements => elements.items

lemma copy_loop (elements : List (Option α)) {m : ℕ} (h : elements.length ≤ m) :
    forUp elements.length (fun i table => do
      let element ← read elements i
      write table i element) (newList m) =
      .ok (elements ++ List.replicate (m - elements.length) none) := by
  obtain ⟨table, hloop, rfl⟩ := forUp_spec (fun i table => do
      let element ← read elements i
      write table i element)
    (fun i table => table = elements.take i ++ List.replicate (m - i) none) elements.length
    (s := newList m) rfl (fun i hi table htable => by
      obtain ⟨k, hk⟩ : ∃ k, m - i = k + 1 := ⟨m - i - 1, by omega⟩
      have htake : (elements.take i).length = i := by
        rw [length_take]
        omega
      have hi' : i < table.length := by
        rw [htable, length_append, length_replicate, htake]
        omega
      refine ⟨table.set i elements[i], ?_, ?_⟩
      · rw [read, List.getElem?_eq_getElem hi]
        exact if_pos hi'
      · rw [htable, hk, set_append_right _ _ (by omega), htake, Nat.sub_self,
          replicate_succ, set_cons_zero, show m - (i + 1) = k by omega,
          ← take_append_getElem hi, append_assoc]
        rfl)
  rw [hloop, take_length]

lemma construct_spec (c : Construction α) : ∃ q, construct c = .ok q ∧ Represents q c.items := by
  cases c with
  | empty capacity => exact empty_represents capacity
  | fromList elements =>
    obtain ⟨p, hp, hroom, hemp⟩ := @empty_spec α (some (elements.length + 1))
    have hshort : elements.length < 2 ^ p := by exact_mod_cast hroom _ rfl
    have hlen : (newList (2 ^ p) : List (Option α)).length = 2 ^ p := length_replicate
    refine ⟨_, ?_, represents_front elements ⟨p, rfl⟩ hp hshort 0⟩
    rw [construct]
    rw [hemp, ok_bind, check_of (decide_eq_true (by rw [hlen]; exact hshort)), ok_bind,
      copy_loop elements hshort.le, ok_bind]
  | fromIterable length elements =>
    obtain ⟨q, hemp, hq⟩ := @empty_represents α (some (length.getD initialCapacity))
    obtain ⟨q', hadd, hq', -⟩ := hq.addAll_iterable_spec elements
    refine ⟨q', ?_, hq'⟩
    rw [construct]
    rw [hemp, ok_bind, hadd]
  | of elements =>
    obtain ⟨q, hemp, hq⟩ := @empty_represents α none
    rw [construct, hemp, ok_bind]
    cases elements with
    | list elements =>
      obtain ⟨q', hadd, hq', -⟩ := hq.addAll_list_spec elements
      exact ⟨q', hadd, hq'⟩
    | iterable elements =>
      obtain ⟨q', hadd, hq', -⟩ := hq.addAll_iterable_spec elements
      exact ⟨q', hadd, hq'⟩

end

open Operation

variable {α O : Type}

/-- An iterator of a sequence: the elements to come, and the counts when it was made. -/
structure Walk (α : Type) where
  rest : List (Option α)
  changes : ℕ
  emptyLists : ℕ
  current : Option α

structure Sequence (α : Type) where
  items : List (Option α)
  /-- The number of elements added or removed so far. -/
  changes : ℕ
  /-- The number of empty lists passed to `addAll`. -/
  emptyLists : ℕ
  walks : List (Walk α)
  /-- An iteration went on after nothing but empty lists came since it began. -/
  missed : Bool

def Sequence.ofList (items : List (Option α)) : Sequence α := ⟨items, 0, 0, [], false⟩

def Sequence.update (d : Sequence α) (items : List (Option α)) (changes : ℕ) : Sequence α :=
  { d with items, changes := d.changes + changes }

/-- An iteration that began with so many empty lists goes on. -/
def Sequence.resume (d : Sequence α) (emptyLists : ℕ) : Sequence α :=
  { d with missed := d.missed || emptyLists != d.emptyLists }

def Elements.isEmptyList : Elements α → Bool
  | .list [] => true
  | _ => false

def Walk.next (w : Walk α) : Bool × Walk α :=
  match w.rest with
  | [] => (false, { w with current := none })
  | x :: rest => (true, { w with rest, current := x })

def Operation.spec (equals : Option α → O → Bool) (o : Operation α O) (d : Sequence α) :
    Answer α × Sequence α :=
  match o with
  | .addLast value => (.void, d.update (d.items ++ [value]) 1)
  | .addFirst value => (.void, d.update (value :: d.items) 1)
  | .addAll elements =>
    (.void, { d.update (d.items ++ elements.items) elements.items.length with
      emptyLists := d.emptyLists + elements.isEmptyList.toNat })
  | .removeFirst =>
    match d.items with
    | [] => (.thrown .noElement, d)
    | x :: rest => (.element x, d.update rest 1)
  | .removeLast =>
    match d.items.getLast? with
    | none => (.thrown .noElement, d)
    | some x => (.element x, d.update d.items.dropLast 1)
  | .remove value =>
    let found := d.items.any (equals · value)
    (.flag found, d.update (d.items.eraseP (equals · value)) found.toNat)
  | .clear => (.void, d.update [] d.items.length)
  | .isEmpty => (.flag d.items.isEmpty, d)
  | .length => (.count d.items.length, d)
  | .first => (.ofElement (firstOf d.items), d)
  | .last => (.ofElement (lastOf d.items), d)
  | .single => (.ofElement (singleOf d.items), d)
  | .elementAt index => (.ofElement (itemAt d.items index), d)
  | .toList => (.list d.items, d)
  | .iterator =>
    (.void, { d with walks := d.walks ++ [⟨d.items, d.changes, d.emptyLists, none⟩] })
  | .moveNext i =>
    match d.walks[i]? with
    | none => (.void, d)
    | some w =>
      if w.changes ≠ d.changes then (.thrown .concurrentModification, d)
      else (.flag w.next.1, { d.resume w.emptyLists with walks := d.walks.set i w.next.2 })
  | .current i =>
    match d.walks[i]? with
    | none => (.void, d)
    | some w => (.element w.current, d)

/-- Calls the function for the elements in order, after those that were kept. -/
def visit (f : Option α → Sequence α → Option Bool × Sequence α) (removes : Bool → Bool) :
    List (Option α) → List (Option α) → Sequence α → Answer α × Sequence α
  | _, [], d => (.void, d)
  | kept, x :: rest, d =>
    match f x d with
    | (none, d') => (.thrown .user, d')
    | (some value, d') =>
      if d'.changes ≠ d.changes then (.thrown .concurrentModification, d')
      else
        let d' := d'.resume d.emptyLists
        if removes value then visit f removes kept rest (d'.update (kept ++ rest) 1)
        else visit f removes (kept ++ [x]) rest d'

def Traversal.removes : Traversal → Bool → Bool
  | .forEach, _ => false
  | .removeWhere, value => value
  | .retainWhere, value => !value

def Program.eval (equals : Option α → O → Bool) :
    Program α O → Sequence α → Option Bool × Sequence α
  | .ret value, d => (some value, d)
  | .throw, d => (none, d)
  | .perform o next, d =>
    let (answer, d) := o.spec equals d
    (next answer).eval equals d
  | .traverse t f next, d =>
    let (answer, d) := visit (fun x d => (f x).eval equals d) t.removes [] d.items d
    (next answer).eval equals d

variable {d : Sequence α}

lemma resume_missed {n : ℕ} (h : (d.resume n).missed = false) :
    d.missed = false ∧ n = d.emptyLists := by
  simpa [Sequence.resume] using h

lemma Operation.missed_of_spec (equals : Option α → O → Bool) (o : Operation α O)
    (h : (o.spec equals d).2.missed = false) : d.missed = false := by
  cases o with
  | moveNext i =>
    simp only [spec] at h
    split at h
    · exact h
    · split at h
      · exact h
      · exact (resume_missed h).1
  | _ =>
    simp only [spec] at h
    first
      | exact h
      | (split at h <;> exact h)

lemma missed_of_visit {f : Option α → Sequence α → Option Bool × Sequence α}
    (hf : ∀ x d, (f x d).2.missed = false → d.missed = false) (removes : Bool → Bool)
    {kept rest : List (Option α)} (h : (visit f removes kept rest d).2.missed = false) :
    d.missed = false ∧ ∀ x ∈ rest.head?, (f x d).2.missed = false := by
  induction rest generalizing kept d with
  | nil => exact ⟨h, fun x hx => by cases hx⟩
  | cons x rest ih =>
    suffices hcall : (f x d).2.missed = false from
      ⟨hf x d hcall, fun y hy => by cases hy; exact hcall⟩
    rw [visit] at h
    split at h
    next d' heq =>
      rw [heq]
      exact h
    next value d' heq =>
      rw [heq]
      split at h
      · exact h
      · have hresumed : (d'.resume d.emptyLists).missed = false := by
          split at h
          · have hupdated : ((d'.resume d.emptyLists).update (kept ++ rest) 1).missed = false :=
              (ih h).1
            exact hupdated
          · exact (ih h).1
        exact (resume_missed hresumed).1

lemma Program.missed_of_eval (equals : Option α → O → Bool) (p : Program α O)
    (h : (p.eval equals d).2.missed = false) : d.missed = false := by
  induction p generalizing d with
  | ret value => exact h
  | throw => exact h
  | perform o next ih => exact o.missed_of_spec equals (ih _ h)
  | traverse t f next ihf ihn => exact (missed_of_visit (fun x d => ihf x) _ (ihn _ h)).1

/-- The queue counts an update whenever elements or empty lists came or elements went. -/
structure Advances (q q' : Queue α) (d d' : Sequence α) : Prop where
  count_le : q.modificationCount ≤ q'.modificationCount
  changes_le : d.changes ≤ d'.changes
  emptyLists_le : d.emptyLists ≤ d'.emptyLists
  count_iff : q.modificationCount = q'.modificationCount ↔
    d.changes = d'.changes ∧ d.emptyLists = d'.emptyLists
  unchanged : q.modificationCount = q'.modificationCount → q = q' ∧ d.items = d'.items

variable {d' : Sequence α}

lemma Advances.refl (q : Queue α) (hitems : d.items = d'.items)
    (hchg : d.changes = d'.changes) (hemp : d.emptyLists = d'.emptyLists) :
    Advances q q d d' :=
  ⟨le_refl _, hchg.le, hemp.le, ⟨fun _ => ⟨hchg, hemp⟩, fun _ => rfl⟩,
    fun _ => ⟨rfl, hitems⟩⟩

variable {q : Queue α}

lemma Advances.trans {q' q'' : Queue α} {d'' : Sequence α} (h : Advances q q' d d')
    (h' : Advances q' q'' d' d'') : Advances q q'' d d'' := by
  have hcnt := h.count_le
  have hcount' := h'.count_le
  have hchg := h.changes_le
  have hchanges' := h'.changes_le
  have hemp := h.emptyLists_le
  have hempty' := h'.emptyLists_le
  have hiff := h.count_iff
  have hiff' := h'.count_iff
  refine ⟨by omega, by omega, by omega, by omega, fun heq => ?_⟩
  obtain ⟨rfl, hitems⟩ := h.unchanged (by omega)
  obtain ⟨rfl, hitems'⟩ := h'.unchanged (by omega)
  exact ⟨rfl, hitems.trans hitems'⟩

lemma Advances.step {q q' : Queue α} {d d' : Sequence α}
    (hcnt : q.modificationCount < q'.modificationCount) (hchg : d.changes ≤ d'.changes)
    (hemp : d.emptyLists ≤ d'.emptyLists)
    (hnew : d.changes + d.emptyLists < d'.changes + d'.emptyLists) : Advances q q' d d' :=
  ⟨hcnt.le, hchg, hemp, by omega, fun heq => by omega⟩

lemma Advances.update {q q' : Queue α} {d : Sequence α} {items : List (Option α)} {n : ℕ}
    (hcnt : q.modificationCount < q'.modificationCount) (hpos : 0 < n) :
    Advances q q' d (d.update items n) :=
  .step hcnt (le_add_right _ _) le_rfl (by dsimp only [Sequence.update]; omega)

/-- As long as nothing changes, the position of an iterator is that of the elements to come. -/
structure Tracks (q : Queue α) (d : Sequence α) (it : QueueIterator α) (w : Walk α) : Prop where
  count_le : it.modificationCount ≤ q.modificationCount
  changes_le : w.changes ≤ d.changes
  emptyLists_le : w.emptyLists ≤ d.emptyLists
  count_iff : it.modificationCount = q.modificationCount ↔
    w.changes = d.changes ∧ w.emptyLists = d.emptyLists
  place : it.modificationCount = q.modificationCount → ∃ seen, d.items = seen ++ w.rest ∧
    it.position = (q.head + seen.length) % q.table.length ∧ it.last = q.tail
  current_eq : it.current = w.current

variable {it : QueueIterator α} {w : Walk α}

lemma Tracks.advance {q' : Queue α}
    (h : Tracks q d it w) (ha : Advances q q' d d') : Tracks q' d' it w := by
  have hcnt := h.count_le
  have hcount' := ha.count_le
  have hchg := h.changes_le
  have hchanges' := ha.changes_le
  have hemp := h.emptyLists_le
  have hempty' := ha.emptyLists_le
  have hiff := h.count_iff
  have hiff' := ha.count_iff
  refine ⟨by omega, by omega, by omega, by omega, fun heq => ?_, h.current_eq⟩
  obtain ⟨rfl, hitems⟩ := ha.unchanged (by omega)
  obtain ⟨seen, hseen, hplace⟩ := h.place (by omega)
  exact ⟨seen, hitems ▸ hseen, hplace⟩

/-- A queue with its iterators and a sequence with its iterators. -/
structure Simulates (s : System α) (d : Sequence α) : Prop where
  queue : Represents s.queue d.items
  iterators : List.Forall₂ (Tracks s.queue d) s.iterators d.walks

variable {s : System α}

lemma Simulates.advance (h : Simulates s d)
    (hq : Represents q d'.items) (ha : Advances s.queue q d d') (hwalks : d'.walks = d.walks) :
    Simulates { s with queue := q } d' :=
  ⟨hq, hwalks ▸ h.iterators.imp fun _ _ htracks => htracks.advance ha⟩

lemma iterator_tracks (h : Represents q d.items) :
    Tracks q d (iterator q) ⟨d.items, d.changes, d.emptyLists, none⟩ :=
  ⟨le_refl _, le_refl _, le_refl _, ⟨fun _ => ⟨rfl, rfl⟩, fun _ => rfl⟩,
    fun _ => ⟨[], rfl, h.slot_zero.symm, rfl⟩, rfl⟩

lemma Tracks.moveNext_changed (h : Tracks q d it w) (hchg : w.changes ≠ d.changes) :
    moveNext it q = .ok (.error .concurrentModification, it) :=
  if_pos fun heq => hchg (h.count_iff.mp heq).1

lemma Tracks.moveNext_same
    (h : Tracks q d it w) (hq : Represents q d.items) (hchg : w.changes = d.changes)
    (hemp : w.emptyLists = d.emptyLists) :
    ∃ it', moveNext it q = .ok (.ok w.next.1, it') ∧ Tracks q d it' w.next.2 := by
  have heq := h.count_iff.mpr ⟨hchg, hemp⟩
  obtain ⟨seen, hseen, hposition, hlast⟩ := h.place heq
  rw [hseen] at hq
  rw [moveNext, if_neg (not_not.mpr heq), Walk.next]
  cases hrest : w.rest with
  | nil =>
    rw [hrest] at hq hseen
    refine ⟨_, if_pos (by rw [hposition, hlast, hq.slot_eq_tail]), h.count_le, h.changes_le,
      h.emptyLists_le, h.count_iff, fun _ => ⟨seen, hseen, hposition, hlast⟩, rfl⟩
  | cons x rest =>
    rw [hrest] at hq hseen
    refine ⟨{ it with current := x, position := wrap (it.position + 1) q.table.length }, ?_,
      h.count_le, h.changes_le, h.emptyLists_le, h.count_iff, fun _ => ⟨seen ++ [x], ?_, ?_, hlast⟩,
      rfl⟩
    · rw [if_neg (by rw [hposition, hlast]; exact hq.slot_ne_tail), hposition, hq.read_at]
      rfl
    · rw [hseen, append_assoc, singleton_append]
    · rw [hposition, length_append, length_singleton]
      exact hq.wrap_slot seen.length

lemma forall₂_getElem? {β γ : Type} {R : β → γ → Prop} {l : List β} {l' : List γ}
    (h : List.Forall₂ R l l') (i : ℕ) :
    (l[i]? = none ∧ l'[i]? = none) ∨ ∃ x y, l[i]? = some x ∧ l'[i]? = some y ∧ R x y := by
  induction h generalizing i with
  | nil => exact Or.inl ⟨rfl, rfl⟩
  | cons hxy _ ih =>
    cases i with
    | zero => exact Or.inr ⟨_, _, rfl, rfl, hxy⟩
    | succ i => exact ih i

lemma forall₂_set {β γ : Type} {R : β → γ → Prop} {l : List β} {l' : List γ} {x : β} {y : γ}
    (h : List.Forall₂ R l l') (hxy : R x y) (i : ℕ) : List.Forall₂ R (l.set i x) (l'.set i y) := by
  induction h generalizing i with
  | nil => exact .nil
  | cons hzw h ih =>
    cases i with
    | zero => exact .cons hxy h
    | succ i => exact .cons hzw (ih i)

lemma Simulates.of_queue {answer : Answer α}
    (h : Simulates s d) (hq : Represents q d'.items) (ha : Advances s.queue q d d')
    (hwalks : d'.walks = d.walks) :
    ∃ s', (.ok (answer, { s with queue := q }) : Result (Answer α × System α)) = .ok (answer, s') ∧
      Simulates s' d' ∧ Advances s.queue s'.queue d d' :=
  ⟨_, rfl, h.advance hq ha hwalks, ha⟩

lemma Simulates.operation (h : Simulates s d) (equals : Option α → O → Bool) (o : Operation α O)
    (hmissed : (o.spec equals d).2.missed = false) :
    ∃ s', o.run equals s = .ok ((o.spec equals d).1, s') ∧ Simulates s' (o.spec equals d).2 ∧
      Advances s.queue s'.queue d (o.spec equals d).2 := by
  have hq := h.queue
  have hsame : ∀ answer : Answer α, ∃ s',
      (.ok (answer, s) : Result (Answer α × System α)) = .ok (answer, s') ∧ Simulates s' d ∧
        Advances s.queue s'.queue d d := fun answer =>
    ⟨s, rfl, h, Advances.refl _ rfl rfl rfl⟩
  cases o with
  | addLast value =>
    obtain ⟨q, hrun, hrep, hcnt⟩ := hq.addLast_spec value
    rw [run, hrun, ok_bind]
    exact h.of_queue hrep (.update (by omega) (by omega)) rfl
  | addFirst value =>
    obtain ⟨q, hrun, hrep, hcnt⟩ := hq.addFirst_spec value
    rw [run, hrun, ok_bind]
    exact h.of_queue hrep (.update (by omega) (by omega)) rfl
  | addAll elements =>
    cases elements with
    | list elements =>
      obtain ⟨q, hrun, hrep, hcnt⟩ := hq.addAll_list_spec elements
      rw [run, hrun, ok_bind]
      refine h.of_queue hrep (Advances.step (by omega) (le_add_right _ _)
        (le_add_right _ _) ?_) rfl
      -- An empty list is not a change, but it is counted as one.
      cases elements with
      | nil => simp [spec, Sequence.update, Elements.isEmptyList, Elements.items]
      | cons x elements =>
        simp [spec, Sequence.update, Elements.isEmptyList, Elements.items]
    | iterable elements =>
      cases elements with
      | nil =>
        refine h.of_queue (q := s.queue) ?_ (Advances.refl _ ?_ rfl rfl) rfl
        · simpa [spec, Sequence.update, Elements.items] using hq
        · simp [spec, Sequence.update, Elements.items]
      | cons x elements =>
        obtain ⟨q, hrun, hrep, hcnt⟩ := hq.addAll_iterable_spec (x :: elements)
        rw [run, show addAll s.queue (.iterable (x :: elements)) = .ok q from hrun, ok_bind]
        rw [length_cons] at hcnt
        refine h.of_queue hrep (Advances.step (by omega) (le_add_right _ _)
          (le_add_right _ _) ?_) rfl
        simp [spec, Sequence.update, Elements.isEmptyList, Elements.items]
  | removeFirst =>
    cases hitems : d.items with
    | nil =>
      have hemp : s.queue.head = s.queue.tail := hq.head_eq_tail_iff.mpr hitems
      simp only [run, removeFirst, if_pos hemp, ok_bind, spec, hitems]
      exact hsame _
    | cons x rest =>
      rw [hitems] at hq
      obtain ⟨q, hrun, hrep, hcnt⟩ := hq.removeFirst_spec
      simp only [run, hrun, ok_bind, spec, hitems]
      exact h.of_queue hrep (.update (by omega) (by omega)) rfl
  | removeLast =>
    rcases d.items.eq_nil_or_concat' with hitems | ⟨l, x, hitems⟩
    · have hemp : s.queue.head = s.queue.tail := hq.head_eq_tail_iff.mpr hitems
      simp only [run, removeLast, if_pos hemp, ok_bind, spec, hitems,
        List.getLast?_nil]
      exact hsame _
    · rw [hitems] at hq
      obtain ⟨q, hrun, hrep, hcnt⟩ := hq.removeLast_spec
      simp only [run, hrun, ok_bind, spec, hitems, List.getLast?_concat,
        dropLast_concat]
      exact h.of_queue hrep (.update (by omega) (by omega)) rfl
  | remove value =>
    obtain ⟨q, hrun, hrep, hcnt, hnone⟩ := hq.remove_spec equals value
    simp only [run, hrun, ok_bind, spec]
    cases hfound : d.items.any (equals · value) with
    | false =>
      obtain rfl := hnone hfound
      have hitems : d.items.eraseP (equals · value) = d.items :=
        eraseP_of_forall_not (by simpa using hfound)
      rw [hitems]
      exact hsame _
    | true =>
      rw [hfound, if_pos rfl] at hcnt
      exact h.of_queue hrep (.update (by omega) (by decide)) rfl
  | clear =>
    obtain ⟨q, hrun, hrep, hcnt, hnone⟩ := hq.clear_spec
    simp only [run, hrun, ok_bind, spec]
    by_cases hitems : d.items = []
    · obtain rfl := hnone hitems
      have hupdate : d.update [] d.items.length = d := by
        obtain ⟨items, changes, emptyLists, walks, missed⟩ := d
        subst hitems
        rfl
      rw [hupdate]
      exact hsame _
    · rw [if_neg hitems] at hcnt
      have hpos := length_pos_iff.mpr hitems
      exact h.of_queue hrep (.update (by omega) (by omega)) rfl
  | isEmpty =>
    have hemp : isEmpty s.queue = d.items.isEmpty := by
      rw [Bool.eq_iff_iff, ListQueue.isEmpty, beq_iff_eq, hq.head_eq_tail_iff, List.isEmpty_iff]
    rw [run, hemp]
    exact hsame _
  | length =>
    rw [run, hq.length_eq]
    exact hsame _
  | first =>
    rw [run, hq.first_spec, ok_bind]
    exact hsame _
  | last =>
    rw [run, hq.last_spec, ok_bind]
    exact hsame _
  | single =>
    rw [run, hq.single_spec, ok_bind]
    exact hsame _
  | elementAt index =>
    rw [run, hq.elementAt_spec, ok_bind]
    exact hsame _
  | toList =>
    rw [run, hq.toList_spec]
    exact hsame _
  | iterator =>
    have ha : Advances s.queue s.queue d (spec equals .iterator d).2 :=
      Advances.refl _ rfl rfl rfl
    refine ⟨_, rfl, ⟨hq, ?_⟩, ha⟩
    exact rel_append (h.iterators.imp fun _ _ htracks => htracks.advance ha)
      (.cons ((iterator_tracks hq).advance ha) .nil)
  | moveNext i =>
    rcases forall₂_getElem? h.iterators i with ⟨hit, hw⟩ | ⟨it, w, hit, hw, htracks⟩
    · simp only [spec, run, hit, hw]
      exact hsame _
    · simp only [spec, run, hit, hw] at hmissed ⊢
      by_cases hchg : w.changes = d.changes
      · rw [if_neg (not_not.mpr hchg)] at hmissed ⊢
        obtain ⟨it', hmove, htracks'⟩ :=
          htracks.moveNext_same hq hchg (resume_missed hmissed).2
        have ha : Advances s.queue s.queue d
            { d.resume w.emptyLists with walks := d.walks.set i w.next.2 } :=
          Advances.refl _ rfl rfl rfl
        rw [hmove, ok_bind]
        exact ⟨_, rfl, ⟨hq, forall₂_set (h.iterators.imp fun _ _ ht => ht.advance ha)
          (htracks'.advance ha) i⟩, ha⟩
      · rw [if_pos hchg, htracks.moveNext_changed hchg, ok_bind]
        have hset : s.iterators.set i it = s.iterators := by
          obtain ⟨hi, rfl⟩ := List.getElem?_eq_some_iff.mp hit
          exact set_getElem_self hi
        rw [hset]
        exact hsame _
  | current i =>
    rcases forall₂_getElem? h.iterators i with ⟨hit, hw⟩ | ⟨it, w, hit, hw, htracks⟩
    · simp only [spec, run, hit, hw]
      exact hsame _
    · simp only [spec, run, hit, hw, htracks.current_eq]
      exact hsame _

/-- A callback does on the queue what a function does on the sequence. -/
def Implements (f : Callback α) (g : Option α → Sequence α → Option Bool × Sequence α) : Prop :=
  ∀ x {s d}, Simulates s d → (g x d).2.missed = false →
    ∃ s', f x s = .ok ((g x d).1, s') ∧ Simulates s' (g x d).2 ∧
      Advances s.queue s'.queue d (g x d).2

variable {f : Callback α} {g : Option α → Sequence α → Option Bool × Sequence α}

section

variable (hf : Implements f g) (hg : ∀ x d, (g x d).2.missed = false → d.missed = false)

include hf hg

/-- One call of a traversal: the function throws, or changes the sequence, or leaves it alone. -/
lemma Simulates.call {removes : Bool → Bool} {kept rest : List (Option α)} {x : Option α}
    (h : Simulates s d) (hmissed : (visit g removes kept (x :: rest) d).2.missed = false) :
    ∃ r s', f x s = .ok (r, s') ∧
      ((r = none ∧ ∃ d', Simulates s' d' ∧ Advances s.queue s'.queue d d' ∧
          visit g removes kept (x :: rest) d = (.thrown .user, d')) ∨
        (∃ value, r = some value ∧ s.queue.modificationCount ≠ s'.queue.modificationCount ∧
          ∃ d', Simulates s' d' ∧ Advances s.queue s'.queue d d' ∧
            visit g removes kept (x :: rest) d = (.thrown .concurrentModification, d')) ∨
        ∃ value, r = some value ∧ s'.queue = s.queue ∧
          ∃ d', Simulates s' d' ∧ d'.items = d.items ∧ Advances s.queue s'.queue d d' ∧
            visit g removes kept (x :: rest) d =
              if removes value then visit g removes kept rest (d'.update (kept ++ rest) 1)
              else visit g removes (kept ++ [x]) rest d') := by
  obtain ⟨s', hrun, hsim, ha⟩ := hf x h ((missed_of_visit hg removes hmissed).2 x rfl)
  rw [visit] at hmissed ⊢
  generalize g x d = r at hrun hsim ha hmissed
  obtain ⟨_ | value, d'⟩ := r
  · exact ⟨none, s', hrun, Or.inl ⟨rfl, d', hsim, ha, rfl⟩⟩
  · refine ⟨some value, s', hrun, Or.inr ?_⟩
    by_cases hchg : d'.changes = d.changes
    · right
      simp only [if_neg (not_not.mpr hchg)] at hmissed ⊢
      have hresumed : (d'.resume d.emptyLists).missed = false := by
        split at hmissed
        · have hupdated : ((d'.resume d.emptyLists).update (kept ++ rest) 1).missed = false :=
            (missed_of_visit hg removes hmissed).1
          exact hupdated
        · exact (missed_of_visit hg removes hmissed).1
      obtain ⟨hqueue, hitems⟩ :=
        ha.unchanged (ha.count_iff.mpr ⟨hchg.symm, (resume_missed hresumed).2⟩)
      have ha' : Advances s'.queue s'.queue d' (d'.resume d.emptyLists) :=
        Advances.refl _ rfl rfl rfl
      exact ⟨value, rfl, hqueue.symm, d'.resume d.emptyLists, hsim.advance hsim.queue ha' rfl,
        hitems.symm, ha.trans ha', rfl⟩
    · left
      exact ⟨value, rfl, fun heq => hchg (ha.count_iff.mp heq).1.symm, d', hsim, ha,
        if_pos hchg⟩

/-- Where a traversal ends. -/
def Ends (s : System α) (d : Sequence α) (result : Answer α × Sequence α)
    (r : Answer α × System α) : Prop :=
  r.1 = result.1 ∧ Simulates r.2 result.2 ∧ Advances s.queue r.2.queue d result.2

lemma Simulates.filterWhere_spec (removeMatching : Bool) (h : Simulates s d)
    (hmissed : (visit g (removeMatching == ·) [] d.items d).2.missed = false) :
    ∃ r, filterWhere f removeMatching s = .ok r ∧
      Ends s d (visit g (removeMatching == ·) [] d.items d) r := by
  refine loop_spec _ (fun n (l : System α × ℕ × ℕ) => ∃ d' kept rest, rest.length = n ∧
      Simulates l.1 d' ∧ d'.items = kept ++ rest ∧
      l.2.1 = (l.1.queue.head + kept.length) % l.1.queue.table.length ∧
      l.2.2 = l.1.queue.modificationCount ∧ Advances s.queue l.1.queue d d' ∧
      visit g (removeMatching == ·) kept rest d' = visit g (removeMatching == ·) [] d.items d) _
    ?_ _ ⟨d, [], d.items, rfl, h, rfl, h.queue.slot_zero.symm, rfl, Advances.refl _ rfl rfl rfl,
      rfl⟩
    h.queue.short
  rintro n ⟨s1, i, count⟩ ⟨d1, kept, rest, rfl, hsim, hitems, hi, hcnt, hadv, hvisit⟩
  dsimp only at hsim hi hcnt hadv
  subst hi hcnt
  have hq := hsim.queue
  rw [hitems] at hq
  cases rest with
  | nil =>
    left
    rw [← hvisit]
    exact ⟨_, if_pos hq.slot_eq_tail, rfl, hsim, hadv⟩
  | cons x rest =>
    obtain ⟨r, s2, hcall, hcases⟩ := hsim.call hf hg (hvisit ▸ hmissed)
    simp only [if_neg hq.slot_ne_tail, hq.read_at, ok_bind, hcall]
    rw [← hvisit]
    rcases hcases with ⟨rfl, d2, hsim2, ha, hend⟩ | ⟨value, rfl, hcnt, d2, hsim2, ha, hend⟩ |
      ⟨value, rfl, hsame, d2, hsim2, hitems2, ha, hend⟩
    · left
      rw [hend]
      exact ⟨_, rfl, rfl, hsim2, hadv.trans ha⟩
    · left
      rw [hend]
      exact ⟨_, if_pos hcnt, rfl, hsim2, hadv.trans ha⟩
    · right
      have hunchanged : ¬s1.queue.modificationCount ≠ s2.queue.modificationCount := by
        rw [hsame]
        exact not_not.mpr rfl
      refine ⟨rest.length, lt_succ_self _, ?_⟩
      simp only [if_neg hunchanged, hend]
      rw [hitems] at hitems2
      by_cases hmatch : removeMatching = value
      · rw [← hsame] at hq
        obtain ⟨q, hremove, hrep, hcnt, hlen⟩ := hq.removeSlot_spec
        have ha3 : Advances s2.queue (modified q) d2 (d2.update (kept ++ rest) 1) :=
          Advances.step (by rw [modified, ← hcnt]; exact lt_succ_self _)
            (le_add_right _ _) (le_refl _) (by simp only [Sequence.update]; omega)
        rw [hsame] at hremove
        rw [if_pos hmatch, if_pos (beq_iff_eq.mpr hmatch), hsame, hremove, ok_bind]
        exact ⟨_, rfl, d2.update (kept ++ rest) 1, kept, rest, rfl,
          hsim2.advance hrep.modified ha3 rfl, rfl, rfl, rfl, (hadv.trans ha).trans ha3, rfl⟩
      · rw [if_neg hmatch, if_neg (fun heq => hmatch (beq_iff_eq.mp heq)), hsame]
        refine ⟨_, rfl, d2, kept ++ [x], rest, rfl, hsim2, ?_, ?_, ?_, hadv.trans ha, rfl⟩
        · rw [hitems2, append_assoc, singleton_append]
        · dsimp only
          rw [hq.wrap_slot, hsame, length_append, length_singleton]
        · rw [hsame]

lemma Simulates.forEach_spec (h : Simulates s d)
    (hmissed : (visit g (fun _ => false) [] d.items d).2.missed = false) :
    ∃ r, forEach f s = .ok r ∧ Ends s d (visit g (fun _ => false) [] d.items d) r := by
  refine loop_spec _ (fun n (l : System α × ℕ) => ∃ d' kept rest, rest.length = n ∧
      Simulates l.1 d' ∧ d'.items = kept ++ rest ∧
      l.2 = (l.1.queue.head + kept.length) % l.1.queue.table.length ∧
      l.1.queue = s.queue ∧ Advances s.queue l.1.queue d d' ∧
      visit g (fun _ => false) kept rest d' = visit g (fun _ => false) [] d.items d) _
    ?_ _ ⟨d, [], d.items, rfl, h, rfl, h.queue.slot_zero.symm, rfl, Advances.refl _ rfl rfl rfl,
      rfl⟩
    h.queue.short
  rintro n ⟨s1, i⟩ ⟨d1, kept, rest, rfl, hsim, hitems, hi, hqueue, hadv, hvisit⟩
  dsimp only at hsim hi hqueue hadv
  subst hi
  have hq := hsim.queue
  rw [hitems] at hq
  cases rest with
  | nil =>
    left
    rw [← hvisit]
    exact ⟨_, if_pos hq.slot_eq_tail, rfl, hsim, hadv⟩
  | cons x rest =>
    obtain ⟨r, s2, hcall, hcases⟩ := hsim.call hf hg (hvisit ▸ hmissed)
    simp only [if_neg hq.slot_ne_tail, hq.read_at, ok_bind, hcall]
    rw [← hvisit, ← hqueue]
    rcases hcases with ⟨rfl, d2, hsim2, ha, hend⟩ | ⟨value, rfl, hcnt, d2, hsim2, ha, hend⟩ |
      ⟨value, rfl, hsame, d2, hsim2, hitems2, ha, hend⟩
    · left
      rw [hend]
      exact ⟨_, rfl, rfl, hsim2, hadv.trans ha⟩
    · left
      rw [hend]
      exact ⟨_, if_pos hcnt, rfl, hsim2, hadv.trans ha⟩
    · right
      refine ⟨rest.length, lt_succ_self _, ?_⟩
      simp only [hsame, ne_eq, not_true_eq_false, if_false]
      refine ⟨_, rfl, d2, kept ++ [x], rest, rfl, hsim2, ?_, ?_, hsame, ?_, ?_⟩
      · rw [hitems2, hitems, append_assoc, singleton_append]
      · dsimp only
        rw [hq.wrap_slot, hsame, length_append, length_singleton]
      · rw [hqueue]
        exact hadv.trans ha
      · rw [hend]
        rfl

lemma Simulates.traversal (t : Traversal) (h : Simulates s d)
    (hmissed : (visit g t.removes [] d.items d).2.missed = false) :
    ∃ r, t.run f s = .ok r ∧ Ends s d (visit g t.removes [] d.items d) r := by
  cases t with
  | forEach => exact h.forEach_spec hf hg hmissed
  | removeWhere =>
    have hremoves : Traversal.removes .removeWhere = (true == ·) := by
      funext value
      cases value <;> rfl
    rw [hremoves] at hmissed ⊢
    exact h.filterWhere_spec hf hg true hmissed
  | retainWhere =>
    have hremoves : Traversal.removes .retainWhere = (false == ·) := by
      funext value
      cases value <;> rfl
    rw [hremoves] at hmissed ⊢
    exact h.filterWhere_spec hf hg false hmissed

end

/-- Every program does on the queue what it does on the sequence. -/
lemma Simulates.program (equals : Option α → O → Bool) (p : Program α O) (h : Simulates s d)
    (hmissed : (p.eval equals d).2.missed = false) :
    ∃ s', p.run equals s = .ok ((p.eval equals d).1, s') ∧ Simulates s' (p.eval equals d).2 ∧
      Advances s.queue s'.queue d (p.eval equals d).2 := by
  induction p generalizing s d with
  | ret value => exact ⟨s, rfl, h, Advances.refl _ rfl rfl rfl⟩
  | throw => exact ⟨s, rfl, h, Advances.refl _ rfl rfl rfl⟩
  | perform o next ih =>
    have hfirst : (o.spec equals d).2.missed = false :=
      Program.missed_of_eval equals (next (o.spec equals d).1) hmissed
    obtain ⟨s1, hrun, hsim, ha⟩ := h.operation equals o hfirst
    obtain ⟨s2, hrun2, hsim2, ha2⟩ := ih _ hsim hmissed
    refine ⟨s2, ?_, hsim2, ha.trans ha2⟩
    rw [Program.run, hrun, ok_bind]
    exact hrun2
  | traverse t f next ihf ihn =>
    have hfirst : (visit (fun x d => (f x).eval equals d) t.removes [] d.items d).2.missed =
        false :=
      Program.missed_of_eval equals (next _) hmissed
    obtain ⟨⟨answer, s1⟩, hrun, hanswer, hsim, ha⟩ := h.traversal
      (fun x _ _ hs hm => ihf x hs hm) (fun x _ => Program.missed_of_eval equals (f x)) t hfirst
    subst hanswer
    obtain ⟨s2, hrun2, hsim2, ha2⟩ := ihn _ hsim hmissed
    refine ⟨s2, ?_, hsim2, ha.trans ha2⟩
    rw [Program.run, hrun, ok_bind]
    exact hrun2

/-- What a sequence says about the table that stands for it. -/
structure Faithful (q : Queue α) (items : List (Option α)) : Prop where
  power_of_two : ∃ p, q.table.length = 2 ^ p
  not_full : items.length < q.table.length
  empty_iff : q.head = q.tail ↔ items = []
  tail_eq : q.tail = (q.head + items.length) % q.table.length
  live_slots : ∀ k x, items[k]? = some x → q.table[(q.head + k) % q.table.length]? = some x
  free_slots : ∀ k, items.length ≤ k → k < q.table.length →
    q.table[(q.head + k) % q.table.length]? = some none

lemma Represents.faithful {l : List (Option α)} (h : Represents q l) :
    Faithful q l where
  power_of_two := h.power
  not_full := h.short
  empty_iff := h.head_eq_tail_iff
  tail_eq := h.tail_eq
  live_slots k x hx := by
    obtain ⟨hk, -⟩ := List.getElem?_eq_some_iff.mp hx
    have hshort := h.short
    rw [CyclicTables.getElem?_view (by omega), h.view, List.getElem?_append_left hk, hx]
  free_slots _ hk hlt := h.free_slot hk hlt

/-- A queue made by any constructor answers every program as the sequence of its elements does,
unless an iteration goes on after nothing but empty lists were added; its table keeps its form. -/
theorem run_refines_sequence (equals : Option α → O → Bool) (c : Construction α)
    (p : Program α O) (h : (p.eval equals (Sequence.ofList c.items)).2.missed = false) :
    ∃ q s, construct c = .ok q ∧
      p.run equals ⟨q, []⟩ = .ok ((p.eval equals (Sequence.ofList c.items)).1, s) ∧
      Faithful s.queue (p.eval equals (Sequence.ofList c.items)).2.items := by
  obtain ⟨q, hconstruct, hq⟩ := construct_spec c
  have hsim : Simulates ⟨q, []⟩ (Sequence.ofList c.items) := ⟨hq, .nil⟩
  obtain ⟨s, hrun, hsim', -⟩ := hsim.program equals p h
  exact ⟨q, s, hconstruct, hrun, hsim'.queue.faithful⟩

def natEquals (element : Option ℕ) (value : ℕ) : Bool := element == some value

/-- Removes the even elements by a test that walks the queue, then modifies it under an iterator. -/
def busyProgram : Program ℕ ℕ :=
  .perform .iterator fun _ =>
  .traverse .removeWhere (fun x =>
    .perform .iterator fun _ =>
    .perform (.moveNext 1) fun _ => .ret (x.getD 0 % 2 == 0)) fun _ =>
  .perform (.addFirst none) fun _ =>
  .perform (.moveNext 0) fun answer => .ret (answer == .thrown .concurrentModification)

theorem run_refines_sequence_busy :
    ∃ q s, construct (.fromList [some 1, some 2, some 3]) = .ok q ∧
      busyProgram.run natEquals ⟨q, []⟩ = .ok (some true, s) ∧
      Faithful s.queue [none, some 1, some 3] :=
  run_refines_sequence natEquals (.fromList [some 1, some 2, some 3]) busyProgram rfl

/-- An iterator of a queue of one element, to which an empty list is added. -/
def emptyListProgram : Program ℕ ℕ :=
  .perform .iterator fun _ =>
  .perform (.addAll (.list [])) fun _ =>
  .perform (.moveNext 0) fun answer => .ret (answer == .flag true)

/-- No element was added, but the iterator reports a concurrent modification. -/
theorem empty_list_stops_iteration :
    (emptyListProgram.eval natEquals (Sequence.ofList [some 1])).1 = some true ∧
      construct (.fromList [some 1]) = .ok ⟨some 1 :: List.replicate 7 none, 0, 1, 0⟩ ∧
      emptyListProgram.run natEquals ⟨⟨some 1 :: List.replicate 7 none, 0, 1, 0⟩, []⟩ =
        .ok (some false, ⟨⟨some 1 :: List.replicate 7 none, 0, 1, 1⟩, [⟨1, 0, 0, none⟩]⟩) :=
  ⟨rfl, rfl, rfl⟩

end DartSdk.ListQueue
