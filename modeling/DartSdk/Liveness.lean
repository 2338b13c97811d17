import Mathlib

/-!
Liveness analysis (`LivenessAnalysis` of runtime/vm/compiler/backend/flow_graph.cc). A block is
named by its postorder number, and a bit vector is the set of its bits. Passes over the blocks
enlarge the sets until no live-in set changes. At the end a variable is live at the start of a block
exactly when a path leads from there to a use of it and no block before kills it.
-/

namespace DartSdk.Liveness

open Finset Function

/-- An analysis after `ComputeInitialSets`, which fills the live-in and kill sets. -/
structure LivenessAnalysis (n : ℕ) where
  variableCount : ℕ
  successors : Fin n → List (Fin n)
  kill : Fin n → Finset ℕ
  initial : Fin n → Finset ℕ
  initial_subset : ∀ b, initial b ⊆ range variableCount

/-- The sets of a block. -/
structure Sets where
  liveIn : Finset ℕ
  liveOut : Finset ℕ

/-- `BitVector::AddAll`, with whether the set changes. -/
def addAll (set from_ : Finset ℕ) : Finset ℕ × Bool := (set ∪ from_, set ∪ from_ ≠ set)

/-- `BitVector::KillAndAdd`. -/
def killAndAdd (set kill gen : Finset ℕ) : Finset ℕ × Bool := addAll set (gen \ kill)

namespace LivenessAnalysis

variable {n : ℕ} (a : LivenessAnalysis n)

def addLiveIn (s : Fin n → Sets) (live : Finset ℕ × Bool) (succ : Fin n) : Finset ℕ × Bool :=
  let added := addAll live.1 (s succ).liveIn
  (added.1, live.2 || added.2)

def updateLiveOut (s : Fin n → Sets) (b : Fin n) : Finset ℕ × Bool :=
  (a.successors b).foldl (addLiveIn s) ((s b).liveOut, false)

def updateLiveIn (sets : Sets) (b : Fin n) : Finset ℕ × Bool :=
  killAndAdd sets.liveIn (a.kill b) sets.liveOut

/-- The body of the loop over the blocks. -/
def updateBlock (state : (Fin n → Sets) × Bool) (b : Fin n) : (Fin n → Sets) × Bool :=
  let out := a.updateLiveOut state.1 b
  let sets := { state.1 b with liveOut := out.1 }
  if out.2 then
    let live := a.updateLiveIn sets b
    (update state.1 b { sets with liveIn := live.1 }, state.2 || live.2)
  else (update state.1 b sets, state.2)

def computeLiveInAndLiveOutSets : ℕ → (Fin n → Sets) → Option (Fin n → Sets)
  | 0, _ => none
  | fuel + 1, s =>
    let pass := (List.finRange n).foldl a.updateBlock (s, false)
    if pass.2 then computeLiveInAndLiveOutSets fuel pass.1 else some pass.1

def analyze (fuel : ℕ) : Option (Fin n → Sets) :=
  a.computeLiveInAndLiveOutSets fuel fun b => ⟨a.initial b, ∅⟩

/-- A path leads from the start of the block to one that has the variable in its initial set, and no
block before that kills the variable. -/
inductive Live (v : ℕ) : Fin n → Prop
  | here {b : Fin n} (h : v ∈ a.initial b) : Live v b
  | next {b succ : Fin n} (hsucc : succ ∈ a.successors b) (hkill : v ∉ a.kill b)
    (h : Live v succ) : Live v b

/-- What every step keeps for the sets of a block. Only that the live-in set of a successor is in
the live-out set may fail before the end. -/
structure Sound (b : Fin n) (sets : Sets) : Prop where
  initial : a.initial b ⊆ sets.liveIn
  through : sets.liveOut \ a.kill b ⊆ sets.liveIn
  liveIn : ∀ v ∈ sets.liveIn, a.Live v b
  liveOut : ∀ v ∈ sets.liveOut, ∃ succ ∈ a.successors b, a.Live v succ

/-- How the sets before and after an update of the blocks are related. -/
structure Advances (s : Fin n → Sets) (changed : Bool) (blocks : List (Fin n))
    (r : (Fin n → Sets) × Bool) : Prop where
  sound : ∀ b, a.Sound b (r.1 b)
  liveIn : ∀ b, (s b).liveIn ⊆ (r.1 b).liveIn
  liveOut : ∀ b, (s b).liveOut ⊆ (r.1 b).liveOut
  flag : r.2 = false ↔ changed = false ∧ ∀ b, (r.1 b).liveIn = (s b).liveIn
  edges : ∀ b ∈ blocks, ∀ succ ∈ a.successors b, (s succ).liveIn ⊆ (r.1 b).liveOut

variable {a} {s : Fin n → Sets} {v : ℕ} {b : Fin n}

lemma mem_updateLiveOut : v ∈ (a.updateLiveOut s b).1 ↔
    v ∈ (s b).liveOut ∨ ∃ succ ∈ a.successors b, v ∈ (s succ).liveIn := by
  unfold updateLiveOut
  generalize (s b).liveOut = out, false = changed
  induction a.successors b generalizing out changed with
  | nil => simp
  | cons succ rest ih =>
    rw [List.foldl_cons, ih, List.exists_mem_cons_iff, ← or_assoc]
    exact or_congr_left mem_union

lemma foldl_addLiveIn {l : List (Fin n)} {live : Finset ℕ × Bool}
    (h : (l.foldl (addLiveIn s) live).2 = false) :
    (l.foldl (addLiveIn s) live).1 = live.1 ∧ live.2 = false := by
  induction l generalizing live with
  | nil => exact ⟨rfl, h⟩
  | cons succ rest ih =>
    obtain ⟨heq, hchg⟩ := ih h
    obtain ⟨hlive, hadded⟩ := Bool.or_eq_false_iff.mp hchg
    exact ⟨heq.trans (not_not.mp (of_decide_eq_false hadded)), hlive⟩

/-- Not updating the live-in set of a block whose live-out set stays makes no difference. -/
lemma updateBlock_eq (h : ∀ b, a.Sound b (s b)) (changed : Bool) (b : Fin n) :
    a.updateBlock (s, changed) b =
      let out := (a.updateLiveOut s b).1
      let live := addAll (s b).liveIn (out \ a.kill b)
      (update s b ⟨live.1, out⟩, changed || live.2) := by
  dsimp only [updateBlock]
  split
  · rfl
  · rename_i hflag
    have hsame : (s b).liveIn ∪ (a.updateLiveOut s b).1 \ a.kill b = (s b).liveIn := by
      rw [updateLiveOut, (foldl_addLiveIn (eq_false_of_ne_true hflag)).1]
      exact union_eq_left.mpr (h b).through
    simp [addAll, hsame]

lemma advances_updateBlock (h : ∀ b, a.Sound b (s b)) (changed : Bool) (b : Fin n) :
    a.Advances s changed [b] (a.updateBlock (s, changed) b) := by
  have hout : ∀ v ∈ (a.updateLiveOut s b).1, ∃ succ ∈ a.successors b, a.Live v succ := by
    intro v hv
    rcases mem_updateLiveOut.mp hv with hv | ⟨succ, hsucc, hv⟩
    · exact (h b).liveOut v hv
    · exact ⟨succ, hsucc, (h succ).liveIn v hv⟩
  have hin : ∀ v ∈ (s b).liveIn ∪ (a.updateLiveOut s b).1 \ a.kill b, a.Live v b := by
    intro v hv
    rcases mem_union.mp hv with hv | hv
    · exact (h b).liveIn v hv
    · obtain ⟨hv, hkill⟩ := mem_sdiff.mp hv
      obtain ⟨succ, hsucc, hlive⟩ := hout v hv
      exact .next hsucc hkill hlive
  rw [updateBlock_eq h]
  constructor
  · rw [forall_update_iff s (a.Sound ·)]
    exact ⟨⟨(h b).initial.trans subset_union_left, subset_union_right, hin, hout⟩, fun c _ => h c⟩
  · rw [forall_update_iff s fun c sets => (s c).liveIn ⊆ sets.liveIn]
    exact ⟨subset_union_left, fun _ _ => subset_rfl⟩
  · rw [forall_update_iff s fun c sets => (s c).liveOut ⊆ sets.liveOut]
    exact ⟨fun _ hv => mem_updateLiveOut.mpr (.inl hv), fun _ _ => subset_rfl⟩
  · rw [forall_update_iff s fun c sets => sets.liveIn = (s c).liveIn]
    simp [addAll]
  · intro c hc succ hsucc v hv
    obtain rfl := List.mem_singleton.mp hc
    simp only [update_self]
    exact mem_updateLiveOut.mpr (.inr ⟨succ, hsucc, hv⟩)

lemma advances_foldl (h : ∀ b, a.Sound b (s b)) (changed : Bool) (blocks : List (Fin n)) :
    a.Advances s changed blocks (blocks.foldl a.updateBlock (s, changed)) := by
  induction blocks generalizing s changed with
  | nil => exact ⟨h, fun _ => subset_rfl, fun _ => subset_rfl, by simp, by simp⟩
  | cons b blocks ih =>
    have h₁ := advances_updateBlock h changed b
    have h₂ := ih h₁.sound (a.updateBlock (s, changed) b).2
    refine ⟨h₂.sound, fun c => (h₁.liveIn c).trans (h₂.liveIn c),
      fun c => (h₁.liveOut c).trans (h₂.liveOut c), ?_, ?_⟩
    · rw [List.foldl_cons, h₂.flag, h₁.flag, and_assoc, ← forall_and]
      refine and_congr_right fun _ => forall_congr' fun c => ⟨fun h => h.2.trans h.1, fun heq => ?_⟩
      have hfirst := subset_antisymm (heq ▸ h₂.liveIn c) (h₁.liveIn c)
      exact ⟨hfirst, heq.trans hfirst.symm⟩
    · rw [List.forall_mem_cons]
      refine ⟨fun succ hsucc => ?_, fun c hc succ hsucc => ?_⟩
      · exact (h₁.edges b List.mem_cons_self succ hsucc).trans (h₂.liveOut b)
      · exact (h₁.liveIn succ).trans (h₂.edges c hc succ hsucc)

lemma Live.lt (h : a.Live v b) : v < a.variableCount := by
  induction h with
  | here h => exact mem_range.mp (a.initial_subset _ h)
  | next _ _ _ ih => exact ih

/-- Every pass but the last adds to a live-in set, so enough passes reach the end. -/
lemma computeLiveInAndLiveOutSets_spec (h : ∀ b, a.Sound b (s b)) (passes extra : ℕ)
    (hpasses : n * a.variableCount < passes + ∑ b, #(s b).liveIn) :
    ∃ r, a.computeLiveInAndLiveOutSets (passes + extra) s = some r ∧ (∀ b, a.Sound b (r b)) ∧
      ∀ b, ∀ succ ∈ a.successors b, (r succ).liveIn ⊆ (r b).liveOut := by
  induction passes generalizing s with
  | zero =>
    have hcard : ∀ b ∈ univ, #(s b).liveIn ≤ a.variableCount := by
      intro b _
      have hsubset : (s b).liveIn ⊆ range a.variableCount :=
        fun v hv => mem_range.mpr ((h b).liveIn v hv).lt
      exact (card_le_card hsubset).trans_eq (card_range _)
    have hsum := sum_le_card_nsmul univ _ _ hcard
    rw [card_univ, Fintype.card_fin, smul_eq_mul] at hsum
    omega
  | succ passes ih =>
    have hr := advances_foldl h false (List.finRange n)
    rw [Nat.add_right_comm, computeLiveInAndLiveOutSets]
    split
    · rename_i hchg
      obtain ⟨b, hb⟩ := not_forall.mp fun hall =>
        Bool.false_ne_true ((hr.flag.mpr ⟨rfl, hall⟩).symm.trans hchg)
      have hsum := sum_lt_sum (fun c _ => card_le_card (hr.liveIn c))
        ⟨b, mem_univ b, card_lt_card ((hr.liveIn b).ssubset_of_ne (Ne.symm hb))⟩
      exact ih hr.sound (by omega)
    · rename_i hchg
      have hsame := (hr.flag.mp (eq_false_of_ne_true hchg)).2
      refine ⟨_, rfl, hr.sound, fun b succ hsucc => ?_⟩
      rw [hsame]
      exact hr.edges b (List.mem_finRange b) succ hsucc

end LivenessAnalysis
/-- The entry, block 2, writes variable 0 and goes to a loop, block 1, that reads it and writes
variable 1 before it goes round or to the exit, block 0, where variable 1 is read. -/
def loopAnalysis : LivenessAnalysis 3 where
  variableCount := 2
  successors := ![[], [1, 0], [1]]
  kill := ![∅, {1}, {0}]
  initial := ![{1}, {0}, ∅]
  initial_subset := by decide

example : (loopAnalysis.analyze 3).map (fun s => (List.finRange 3).map fun b =>
    ((s b).liveIn, (s b).liveOut)) = some [({1}, ∅), ({0}, {0, 1}), (∅, {0})] := by
  decide +kernel

end DartSdk.Liveness
