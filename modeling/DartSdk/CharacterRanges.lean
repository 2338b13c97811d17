import Mathlib.Tactic.Common
import Mathlib.Algebra.Order.Ring.Int

/-!
Character classes of regular expressions as lists of code point ranges. Negate walks a
canonical list once. Code points are far below `2 ^ 31`, so that the 32-bit sums of the source
are those of `ℤ`.
-/

namespace DartSdk.CharacterRanges

open List

/-- CharacterRange; both ends belong to the range. -/
structure CharacterRange where
  from_ : ℤ
  to_ : ℤ
  deriving DecidableEq

variable {r : CharacterRange}

namespace CharacterRange

def isValid (r : CharacterRange) : Bool := r.from_ ≤ r.to_

def contains (r : CharacterRange) (i : ℤ) : Bool := r.from_ ≤ i && i ≤ r.to_

lemma isValid_iff : r.isValid = true ↔ r.from_ ≤ r.to_ := by
  simp [isValid]

lemma contains_iff {i : ℤ} : r.contains i = true ↔ r.from_ ≤ i ∧ i ≤ r.to_ := by
  simp [contains]

end CharacterRange

def maxCodePoint : ℤ := 0x10FFFF

/-- The loop of IsCanonical, after a range that ends at `max`. -/
def isCanonicalAfter (max : ℤ) : List CharacterRange → Bool
  | [] => true
  | next :: rest => if next.from_ ≤ max + 1 then false else isCanonicalAfter next.to_ rest

def isCanonical : List CharacterRange → Bool
  | [] => true
  | first :: rest => isCanonicalAfter first.to_ rest

/-- The code points of a class. -/
def Covers (ranges : List CharacterRange) (c : ℤ) : Prop :=
  ∃ r ∈ ranges, r.contains c = true

lemma covers_nil (c : ℤ) : ¬ Covers [] c := by
  simp [Covers]

lemma covers_cons (r : CharacterRange) (ranges : List CharacterRange) (c : ℤ) :
    Covers (r :: ranges) c ↔ (r.from_ ≤ c ∧ c ≤ r.to_) ∨ Covers ranges c := by
  simp [Covers, CharacterRange.contains_iff]

variable {ranges : List CharacterRange}

variable {max low : ℤ}

lemma isCanonicalAfter_cons :
    isCanonicalAfter max (r :: ranges) = true ↔
      max + 1 < r.from_ ∧ isCanonicalAfter r.to_ ranges = true := by
  by_cases h : r.from_ ≤ max + 1
  · simp [isCanonicalAfter, h]
  · simp [isCanonicalAfter, h, not_le.mp h]

lemma lt_of_isCanonicalAfter (hcanon : isCanonicalAfter max ranges = true)
    (hok : ∀ r ∈ ranges, r.isValid = true) :
    ∀ r ∈ ranges, max + 1 < r.from_ := by
  induction ranges generalizing max with
  | nil => simp
  | cons first rest ih =>
    obtain ⟨hfirst, hrest⟩ := isCanonicalAfter_cons.mp hcanon
    have hends := CharacterRange.isValid_iff.mp (hok first mem_cons_self)
    refine forall_mem_cons.mpr ⟨hfirst, fun r hr => ?_⟩
    have := ih hrest (fun r hr => hok r (mem_cons_of_mem _ hr)) r hr
    omega

/-- The loop of Negate and the range after the last one; `low` is its variable from. -/
def negateLoop (low : ℤ) : List CharacterRange → List CharacterRange
  | [] => if low < maxCodePoint then [⟨low + 1, maxCodePoint⟩] else []
  | range :: rest => ⟨low + 1, range.from_ - 1⟩ :: negateLoop range.to_ rest

def negate : List CharacterRange → List CharacterRange
  | [] => negateLoop 0 []
  | first :: rest =>
    if first.from_ = 0 then negateLoop first.to_ rest else negateLoop 0 (first :: rest)

/-- A canonical list of valid ranges of code points. -/
structure IsClass (ranges : List CharacterRange) : Prop where
  canonical : isCanonical ranges = true
  valid : ∀ r ∈ ranges, r.isValid = true
  within : ∀ r ∈ ranges, 0 ≤ r.from_ ∧ r.to_ ≤ maxCodePoint

/-- A list stands for exactly the code points that another one leaves out. -/
structure IsComplement (ranges negated : List CharacterRange) : Prop where
  canonical : isCanonical negated = true
  valid : ∀ r ∈ negated, r.isValid = true
  members : ∀ c, Covers negated c ↔ (0 ≤ c ∧ c ≤ maxCodePoint) ∧ ¬ Covers ranges c

lemma isCanonicalAfter_negateLoop (hok : ∀ r ∈ ranges, r.isValid = true) (hmax : max < low) :
    isCanonicalAfter max (negateLoop low ranges) = true := by
  induction ranges generalizing low max with
  | nil =>
    unfold negateLoop
    split
    · exact isCanonicalAfter_cons.mpr ⟨by dsimp only; omega, rfl⟩
    · rfl
  | cons first rest ih =>
    have hends := CharacterRange.isValid_iff.mp (hok first mem_cons_self)
    apply isCanonicalAfter_cons.mpr
    refine ⟨by dsimp only; omega, ih (fun r hr => hok r (mem_cons_of_mem _ hr)) ?_⟩
    dsimp only
    omega

lemma isCanonical_of_after (h : isCanonicalAfter max ranges = true) :
    isCanonical ranges = true := by
  cases ranges with
  | nil => rfl
  | cons first rest => exact (isCanonicalAfter_cons.mp h).2

lemma isValid_negateLoop (hcanon : isCanonicalAfter low ranges = true) :
    ∀ r ∈ negateLoop low ranges, r.isValid = true := by
  induction ranges generalizing low with
  | nil =>
    intro r hr
    unfold negateLoop at hr
    split at hr
    · rw [mem_singleton.mp hr, CharacterRange.isValid_iff]
      dsimp only
      omega
    · exact absurd hr not_mem_nil
  | cons first rest ih =>
    obtain ⟨hfirst, hrest⟩ := isCanonicalAfter_cons.mp hcanon
    intro r hr
    rcases mem_cons.mp hr with rfl | hr
    · rw [CharacterRange.isValid_iff]
      dsimp only
      omega
    · exact ih hrest r hr

lemma covers_negateLoop (hcanon : isCanonicalAfter low ranges = true)
    (hok : ∀ r ∈ ranges, r.isValid = true) (hwithin : ∀ r ∈ ranges, r.to_ ≤ maxCodePoint)
    (c : ℤ) :
    Covers (negateLoop low ranges) c ↔ (low < c ∧ c ≤ maxCodePoint) ∧ ¬ Covers ranges c := by
  induction ranges generalizing low with
  | nil =>
    unfold negateLoop
    split
    · rw [covers_cons]
      simp only [covers_nil, or_false, not_false_iff, and_true]
      omega
    · simp only [covers_nil, not_false_iff, and_true, false_iff]
      omega
  | cons first rest ih =>
    obtain ⟨hfirst, hrest⟩ := isCanonicalAfter_cons.mp hcanon
    have hends := CharacterRange.isValid_iff.mp (hok first mem_cons_self)
    have hmax := hwithin first mem_cons_self
    have hvalid' : ∀ r ∈ rest, r.isValid = true :=
      fun r hr => hok r (mem_cons_of_mem _ hr)
    -- a code point of a later range lies past the first one
    have hlater : Covers rest c → first.to_ < c := by
      rintro ⟨r, hr, hc⟩
      have hpast := lt_of_isCanonicalAfter hrest hvalid' r hr
      have hc := CharacterRange.contains_iff.mp hc
      omega
    rw [negateLoop, covers_cons, covers_cons,
      ih hrest hvalid' fun r hr => hwithin r (mem_cons_of_mem _ hr)]
    by_cases hc : Covers rest c
    · have := hlater hc
      simp only [hc, not_true, or_true, and_false, or_false, iff_false]
      omega
    · simp only [hc, not_false_iff, and_true, or_false]
      omega

lemma pos_of_mem_negateLoop (hlow : 0 ≤ low) (hends : ∀ r ∈ ranges, 0 ≤ r.to_) :
    ∀ r ∈ negateLoop low ranges, 0 < r.from_ := by
  induction ranges generalizing low with
  | nil =>
    intro r hr
    unfold negateLoop at hr
    split at hr
    · rw [mem_singleton.mp hr]
      dsimp only
      omega
    · exact absurd hr not_mem_nil
  | cons first rest ih =>
    intro r hr
    rcases mem_cons.mp hr with rfl | hr
    · dsimp only
      omega
    · exact ih (hends first mem_cons_self)
        (fun r hr => hends r (mem_cons_of_mem _ hr)) r hr

lemma not_isComplement_of_pos {ranges negated : List CharacterRange}
    (hpos : ∀ r ∈ negated, 0 < r.from_) (hzero : ¬ Covers ranges 0) :
    ¬ IsComplement ranges negated := by
  intro h
  obtain ⟨r, hr, hc⟩ := (h.members 0).mpr ⟨⟨le_refl 0, by decide⟩, hzero⟩
  have hfrom := hpos r hr
  have hc := CharacterRange.contains_iff.mp hc
  omega

lemma isComplement_of_from_zero {first : CharacterRange} {rest : List CharacterRange}
    (h : IsClass (first :: rest)) (hfirst : first.from_ = 0) :
    IsComplement (first :: rest) (negateLoop first.to_ rest) := by
  have hok : ∀ r ∈ rest, r.isValid = true := fun r hr => h.valid r (mem_cons_of_mem _ hr)
  have hends := CharacterRange.isValid_iff.mp (h.valid first mem_cons_self)
  refine ⟨isCanonical_of_after (isCanonicalAfter_negateLoop hok (sub_one_lt _)),
    isValid_negateLoop h.canonical, fun c => ?_⟩
  rw [covers_cons, covers_negateLoop h.canonical hok fun r hr =>
    (h.within r (mem_cons_of_mem _ hr)).2]
  by_cases hc : Covers rest c
  · simp [hc]
  · simp only [hc, not_false_iff, and_true, or_false]
    omega

/-- Negation complements exactly the classes that start at the code point 0: for others its first
range starts at 1. -/
theorem negate_isComplement_iff (ranges : List CharacterRange) (h : IsClass ranges) :
    IsComplement ranges (negate ranges) ↔ ∃ first ∈ ranges.head?, first.from_ = 0 := by
  cases ranges with
  | nil =>
    have hpos : ∀ r ∈ negate [], 0 < r.from_ :=
      pos_of_mem_negateLoop (le_refl 0) fun r hr => absurd hr not_mem_nil
    simpa using not_isComplement_of_pos hpos (covers_nil 0)
  | cons first rest =>
    by_cases hfirst : first.from_ = 0
    · rw [negate, if_pos hfirst]
      simpa [hfirst] using isComplement_of_from_zero h hfirst
    · have hends : ∀ r ∈ first :: rest, 0 ≤ r.to_ := by
        intro r hr
        have hvalid := CharacterRange.isValid_iff.mp (h.valid r hr)
        have hwithin := h.within r hr
        omega
      have hlow := (h.within first mem_cons_self).1
      have hzero : ¬ Covers (first :: rest) 0 := by
        rintro ⟨r, hr, hc⟩
        have hc := CharacterRange.contains_iff.mp hc
        rcases mem_cons.mp hr with rfl | hr
        · omega
        · have hpast := lt_of_isCanonicalAfter h.canonical
            (fun r hr => h.valid r (mem_cons_of_mem _ hr)) r hr
          have := hends first mem_cons_self
          omega
      rw [negate, if_neg hfirst]
      simpa [hfirst] using
        not_isComplement_of_pos (pos_of_mem_negateLoop (le_refl 0) hends) hzero

theorem negate_nul_isComplement :
    IsClass [⟨0, 9⟩, ⟨65, 90⟩] ∧ IsComplement [⟨0, 9⟩, ⟨65, 90⟩] (negate [⟨0, 9⟩, ⟨65, 90⟩]) := by
  have h : IsClass [⟨0, 9⟩, ⟨65, 90⟩] := ⟨by decide, by decide, by decide⟩
  exact ⟨h, (negate_isComplement_iff _ h).mpr ⟨⟨0, 9⟩, rfl, rfl⟩⟩

/-- The negation of `[A-Z]` leaves out the code point 0. -/
theorem negate_letters_misses_nul : negate [⟨65, 90⟩] = [⟨1, 64⟩, ⟨91, 0x10FFFF⟩] ∧
    IsClass [⟨65, 90⟩] ∧ ¬ IsComplement [⟨65, 90⟩] (negate [⟨65, 90⟩]) := by
  refine ⟨by decide, ⟨by decide, by decide, by decide⟩, not_isComplement_of_pos (by decide) ?_⟩
  rintro ⟨r, hr, hc⟩
  rw [mem_singleton.mp hr] at hc
  exact absurd hc (by decide)

end DartSdk.CharacterRanges
